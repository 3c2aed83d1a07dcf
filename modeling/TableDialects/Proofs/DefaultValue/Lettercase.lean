import TableDialects.DefaultValue.Normal
import TableDialects.Proofs.DefaultValue.Clock
import TableDialects.Proofs.Position.Expression
import TableDialects.Proofs.Token.Lettercase
import TableDialects.Column.Clause

/-!
# Default values in capitals

A default value in capitals takes as many lexemes, and its normal form is the normal form of the
value, in capitals.
-/
namespace TableDialects

namespace Calendar

private theorem foreign_of_mem {c : Char} (hc : c.toNat ∈ Text.smallLetters ++ Text.capitals) :
    Foreign c := by
  obtain ⟨hdigit, hblank, hmark⟩ := Text.of_mem_letters (p := fun c =>
    c.isDigit = false ∧ Text.isBlank c = false ∧ c ∉ ['-', '+', ':', '.']) (by decide) hc
  exact ⟨hdigit, hblank, hmark⟩

private theorem isDate_upperAscii : ∀ t, isDate (Text.upperAscii t) = isDate t :=
  Text.apply_upperAscii fun _ _ hc hletter => (foreign_of_mem hletter).isDate_eq_false hc

private theorem isDateTime_upperAscii : ∀ t, isDateTime (Text.upperAscii t) = isDateTime t :=
  Text.apply_upperAscii fun _ _ hc hletter => (foreign_of_mem hletter).isDateTime_eq_false hc

end Calendar

namespace DefaultValue

open Lexeme

section
variable (ls : List Lexeme)

private theorem continuesRun_upperAscii (l : Lexeme) :
    continuesRun l.upperAscii = continuesRun l := by
  have hmark := Text.apply_toUpper (fun c => c == '-' || c == ':' || c == '.') (by decide)
  have hgap : l.upperAscii.gap.isEmpty = l.gap.isEmpty := List.isEmpty_map
  rw [continuesRun, continuesRun, hgap, token_upperAscii]
  cases l.token with
  | punct c => exact congrArg (l.gap.isEmpty && ·) (hmark c)
  | _ => rfl

private theorem runLength_upperAscii : runLength (ls.map upperAscii) = runLength ls := by
  cases ls with
  | nil => rfl
  | cons l ls =>
    rw [List.map_cons, runLength, takeWhile_upperAscii continuesRun_upperAscii, List.length_map,
      runLength]

private theorem contains_colon (t : Text) : (Text.upperAscii t).contains ':' = t.contains ':' := by
  have hcolon := Text.apply_toUpper (fun c => ':' == c) (by decide)
  induction t with
  | nil => rfl
  | cons c t ih => rw [Text.upperAscii_cons, List.contains_cons, List.contains_cons, ih, hcolon]

private theorem any_isNumber (o : Option Lexeme) :
    (o.map upperAscii).any (·.token.isNumber) = o.any (·.token.isNumber) := by
  cases o <;> simp

private theorem temporalLength_upperAscii :
    temporalLength (ls.map upperAscii) = temporalLength ls := by
  simp only [temporalLength, runLength_upperAscii, ← List.map_take, ← List.map_drop,
    sourceFromToken_upperAscii, Calendar.isDate_upperAscii, contains_colon, List.head?_map,
    any_isNumber]

private theorem wordLength_upperAscii : wordLength (ls.map upperAscii) = wordLength ls := by
  match ls with
  | [] => rfl
  | [_] => rfl
  | l :: next :: ls =>
    have hgroup := groupLength_upperAscii (next :: ls)
    have hgap : next.upperAscii.gap.isEmpty = next.gap.isEmpty := List.isEmpty_map
    rw [List.map_cons] at hgroup
    rw [List.map_cons, List.map_cons, wordLength, wordLength, hgap, hgroup, token_upperAscii]
    cases next.token with
    | quoted q v =>
      by_cases hq : q = '\''
      · subst hq
        rfl
      · simp [Token.upperAscii, hq]
    | _ => rfl

private theorem valueLength?_upperAscii : valueLength? (ls.map upperAscii) = valueLength? ls := by
  cases ls with
  | nil => rfl
  | cons first rest =>
    have hsign := Text.apply_toUpper (fun c => c == '-' || c == '+') (by decide)
    have hnumber := any_isNumber rest.head?
    have hgroup := groupLength_upperAscii (first :: rest)
    have hword := wordLength_upperAscii (first :: rest)
    have htemporal := temporalLength_upperAscii (first :: rest)
    simp only [List.map_cons] at hgroup hword htemporal
    rw [List.map_cons, valueLength?, valueLength?, token_upperAscii]
    cases first.token with
    | word w => simp [Token.upperAscii, hword]
    | openParen => exact congrArg some hgroup
    | number n => exact congrArg some htemporal
    | punct c => simp [Token.upperAscii, hsign, hnumber]
    | _ => rfl

private theorem castTypeLength_upperAscii :
    castTypeLength (ls.map upperAscii) = castTypeLength ls := by
  cases ls with
  | nil => rfl
  | cons first rest =>
    have hwords := takeWhile_upperAscii (p := (·.token.isOneOf
      ["varying", "precision", "with", "without", "time", "zone"])) (by simp) rest
    simp only [List.map_cons, castTypeLength, hwords, List.length_map, ← List.map_drop,
      leadingGroup_upperAscii, token_upperAscii, Token.word?_upperAscii, Option.isSome_map]

private theorem suffixLength?_upperAscii :
    suffixLength? (ls.map upperAscii) = suffixLength? ls := by
  cases ls with
  | nil => rfl
  | cons first rest =>
    have hevent : (rest.head?.map upperAscii).any (·.token.isOneOf ["UPDATE", "INSERT"]) =
        rest.head?.any (·.token.isOneOf ["UPDATE", "INSERT"]) := by
      cases rest.head? <;> simp
    simp only [List.map_cons, suffixLength?, token_upperAscii, Token.upperAscii_eq_cast,
      Token.isWord_upperAscii, List.head?_map, hevent, castTypeLength_upperAscii, ← List.map_drop,
      valueLength?_upperAscii]

private theorem suffixesLength_upperAscii :
    suffixesLength (ls.map upperAscii) = suffixesLength ls := by
  induction hlength : ls.length using Nat.strongRecOn generalizing ls with
  | ind m ih =>
    have hfirst := suffixLength?_upperAscii ls
    cases hs : suffixLength? ls with
    | none => rw [Position.suffixesLength_of_none (hfirst.trans hs), Position.suffixesLength_of_none hs]
    | some n =>
      obtain ⟨hpos, hle⟩ := Position.suffixLength?_bounds hs
      have hrest := ih (ls.drop n).length (by rw [List.length_drop]; omega) _ rfl
      rw [Position.suffixesLength_of_some (hfirst.trans hs), Position.suffixesLength_of_some hs, ← List.map_drop,
        hrest]

theorem expressionLength?_upperAscii :
    expressionLength? (ls.map upperAscii) = expressionLength? ls := by
  simp only [expressionLength?, valueLength?_upperAscii, ← List.map_drop, suffixesLength_upperAscii]

end

private theorem isNumeral_upperAscii : ∀ t, isNumeral (Text.upperAscii t) = isNumeral t := by
  refine Text.apply_upperAscii (a := false) fun t c hc hletter => ?_
  obtain ⟨hdigit, hmark⟩ := Text.of_mem_letters (p := fun c =>
    Text.isNumeralDigit c = false ∧ c ∉ ['+', '-', '.']) (by decide) hletter
  exact isNumeral_eq_false hdigit hmark hc

section
variable (t : Text)

theorem head?_eq_quote {q : Char} (hq : Token.isQuote q = true) :
    ((Text.upperAscii t).head? == some q) = (t.head? == some q) := by
  rw [Bool.eq_iff_iff, beq_iff_eq, beq_iff_eq]
  exact Text.head?_upperAscii (Token.eq_quote_toUpper hq) t

private theorem introduced?_upperAscii :
    introduced? (Text.upperAscii t) = (introduced? t).map Text.upperAscii := by
  have hmark : ∀ c : Char, c.toUpper = '_' ↔ c = '_' := Text.toUpper_eq_iff (by decide)
  have hname : ∀ c : Char, (Text.foldChar c.toUpper).isAlphanum = (Text.foldChar c).isAlphanum :=
    Text.apply_toUpper (fun c => (Text.foldChar c).isAlphanum) (by decide)
  cases t with
  | nil => rfl
  | cons c cs =>
    by_cases hc : c = '_'
    · subst hc
      have htake := Text.takeWhile_upperAscii
        (p := fun c => (Text.foldChar c).isAlphanum) hname cs
      have hcons : Text.upperAscii ('_' :: cs) = '_' :: Text.upperAscii cs := rfl
      rw [hcons, introduced?, introduced?]
      simp only [htake, Text.length_upperAscii, ← Text.upperAscii_drop, Text.isEmpty_upperAscii,
        head?_eq_quote _ (q := '\'') rfl, apply_ite (Option.map Text.upperAscii), Option.map_some,
        Option.map_none]
    · simp [Text.upperAscii_cons, introduced?, hmark, hc]

private theorem literal?_upperAscii :
    literal? (Text.upperAscii t) = (literal? t).map Text.upperAscii := by
  unfold literal?
  rw [lex_upperAscii]
  obtain ⟨ls, rest⟩ := Lexeme.lex t
  cases ls with
  | nil => rfl
  | cons l ls =>
    obtain ⟨g, u, k⟩ := l
    cases g <;> cases k <;> cases ls <;> cases rest <;> rfl

private theorem quoteLiteral_upperAscii :
    quoteLiteral (Text.upperAscii t) = Text.upperAscii (quoteLiteral t) := by
  have hquote : ∀ c : Char, c.toUpper = '\'' ↔ c = '\'' := Token.eq_quote_toUpper rfl
  have hdoubled : Text.doubled '\'' (Text.upperAscii t) =
      Text.upperAscii (Text.doubled '\'' t) := by
    induction t with
    | nil => rfl
    | cons c t ih =>
      rw [Text.upperAscii_cons, Text.doubled_cons, ih, Text.doubled_cons, Text.upperAscii_append]
      by_cases hc : c = '\''
      · subst hc
        rfl
      · rw [if_neg hc, if_neg ((hquote c).not.2 hc)]
        rfl
  rw [quoteLiteral, Text.enclosed, hdoubled, quoteLiteral, Text.enclosed, Text.upperAscii_cons,
    Text.upperAscii_append]
  rfl

private theorem normalizePlain_upperAscii :
    normalizePlain (Text.upperAscii t) = (normalizePlain t).map Text.upperAscii := by
  have hsingle : ∀ v : Text, '\'' :: (Text.upperAscii v ++ ['\'']) =
      Text.upperAscii ('\'' :: (v ++ ['\''])) := fun v => by
    rw [Text.upperAscii_cons, Text.upperAscii_append]
    rfl
  have hnull : Text.upperAscii "NULL" = "NULL".toList := rfl
  simp only [normalizePlain, Text.collapsed_upperAscii, head?_eq_quote _ (q := '\'') rfl,
    head?_eq_quote _ (q := '\"') rfl, Text.isEmpty_upperAscii, Text.upper_upperAscii,
    isNumeral_upperAscii, isClock_upperAscii, Text.oneOf_upperAscii, Calendar.isDate_upperAscii,
    Calendar.isDateTime_upperAscii, Text.trim_upperAscii, literal?_upperAscii, hsingle,
    apply_ite (Option.map Text.upperAscii), Option.map_some, Option.map_none,
    Text.upperAscii_upper, hnull]
  cases literal? (Text.trim t) with
  | none => rfl
  | some v => simp only [Option.map_some, quoteLiteral_upperAscii]

/-- The normal form of a value in capitals is the normal form of the value, in capitals. -/
theorem normalize_upperAscii :
    normalize (Text.upperAscii t) = (normalize t).map Text.upperAscii := by
  rw [normalize, Text.trim_upperAscii, introduced?_upperAscii, normalize,
    ← normalizePlain_upperAscii]
  cases introduced? (Text.trim t) <;> rfl

end

end DefaultValue

end TableDialects
