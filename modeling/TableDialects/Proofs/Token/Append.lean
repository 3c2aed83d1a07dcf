import TableDialects.Proofs.Token.Span

/-!
# Text behind the last token

A text that ends with a parenthesis is read the same whatever follows it, unless a quote or a block
comment is left open in it.
-/
namespace TableDialects

namespace Token

private theorem text_of_closeParen {c : Char} {cs : Text} (h : (read c cs).token = .closeParen) :
    (read c cs).text = [')'] := by
  rcases written_or_read_eq c cs with ⟨-, hw⟩ | ⟨-, hread⟩
  · generalize (read c cs).text = s at hw ⊢
    generalize hk : (read c cs).token = k at hw
    cases hw with
    | closeParen => rfl
    | @literal q v =>
      rw [h, ofLiteral] at hk
      split at hk <;> cases hk
    | _ => simp [h] at hk
  · rw [hread] at h
    cases h

/-- A mark is read as it stands, whatever follows. -/
theorem read_mark {c : Char} (hc : isOther c = true) (hne : c ≠ ':') (cs : Text) :
    read c cs = ⟨.punct c, [c], cs⟩ := by
  obtain ⟨d, ds, hd, hread⟩ := (Written.punct (r := cs) hc fun h => absurd h hne).read
  obtain ⟨rfl, rfl⟩ := List.cons.inj hd
  exact hread

end Token

namespace Lexeme

variable {t : Text} {n : Nat}

/-- A line comment that ends within the text, or none that begins there, is not changed. -/
theorem lineLength?_append_right (hlast : t.getLast? ≠ some '\r')
    (h : lineLength? t ≠ some t.length) (r : Text) : lineLength? (t ++ r) = lineLength? t := by
  fun_induction lineLength? t with
  | case1 => exact absurd rfl h
  | case2 => rfl
  | case3 cs hcs =>
    obtain ⟨u, rfl⟩ := List.head?_eq_some_iff.1 hcs
    rfl
  | case4 cs hcs =>
    cases cs with
    | nil => exact absurd rfl hlast
    | cons d cs => simp [lineLength?, show d ≠ '\n' by simpa using hcs]
  | case5 c cs hn hr ih =>
    have hcs : cs.getLast? ≠ some '\r' := by
      rw [List.getLast?_cons] at hlast
      intro he
      simp [he] at hlast
    have hlength : lineLength? cs ≠ some cs.length := fun he => h (by simp [he])
    rw [List.cons_append, lineLength?, ih hcs hlength]
    · exact hn
    · exact hr

private theorem blockLength?_append_right (h : blockLength? t = some n) (r : Text) :
    blockLength? (t ++ r) = some n := by
  fun_induction blockLength? t generalizing n with
  | case1 => cases h
  | case2 => exact h
  | case3 c cs hmark ih =>
    obtain ⟨m, hm, rfl⟩ := Option.map_eq_some_iff.1 h
    rw [List.cons_append, blockLength?, ih hm]
    · rfl
    · intro ds hc hds
      cases cs with
      | nil => cases hm
      | cons d cs =>
        obtain ⟨rfl, -⟩ := List.cons.inj hds
        exact hmark cs hc rfl

/-- What is skipped first is the same if it ends within the text. -/
theorem skipLength_append (hlast : t.getLast? = some ')') (hlt : skipLength t < t.length)
    (hblock : skipLength t = 0 → ¬ ['/', '*'] <+: t) (r : Text) :
    skipLength (t ++ r) = skipLength t := by
  match t with
  | [c] =>
    obtain rfl : c = ')' := by simpa using hlast
    simp [skipLength_cons]
  | c :: d :: ds =>
    have hr : ds.getLast? ≠ some '\r' := by
      intro he
      simp [List.getLast?_cons, he] at hlast
    have hself := skipLength_cons c (d :: ds)
    have hwith := skipLength_cons c (d :: (ds ++ r))
    rw [List.head?_cons, List.tail_cons] at hself hwith
    rw [List.cons_append, List.cons_append]
    by_cases hline : c = '-' ∧ some d = some '-'
    · rw [if_pos hline] at hself hwith
      rw [hwith, hself, lineLength?_append_right hr]
      intro he
      rw [hself, he] at hlt
      simp at hlt
    by_cases hmark : c = '/' ∧ some d = some '*'
    · rw [if_neg hline, if_pos hmark] at hself hwith
      cases hb : blockLength? ds with
      | some n => rw [hwith, hself, blockLength?_append_right hb, hb]
      | none =>
        obtain ⟨rfl, hd⟩ := hmark
        obtain rfl := Option.some.inj hd
        exact absurd ⟨ds, rfl⟩ (hblock (by rw [hself, hb]; rfl))
    · rw [if_neg hline, if_neg hmark] at hself hwith
      rw [hwith, hself]

private theorem gapLength_append_right (hlast : t.getLast? = some ')')
    (hlt : gapLength t < t.length) (hblock : ¬ ['/', '*'] <+: t.drop (gapLength t)) (r : Text) :
    gapLength (t ++ r) = gapLength t := by
  fun_induction gapLength t with
  | case1 => cases hlast
  | case2 c cs hzero =>
    have hskip := skipLength_append hlast (hzero ▸ Nat.succ_pos _) (fun _ => hblock) r
    rw [List.cons_append, gapLength, ← List.cons_append, hskip, hzero]
  | case3 c cs n hn ih =>
    rw [List.length_cons] at hlt
    have hskip := skipLength_append hlast (by rw [hn, List.length_cons]; omega) (by simp [hn]) r
    have hne : cs.drop n ≠ [] := by
      rw [Ne, List.drop_eq_nil_iff]
      omega
    have hrest : (cs.drop n).getLast? = some ')' := by
      have hsplit : c :: cs = c :: cs.take n ++ cs.drop n := by simp
      rwa [hsplit, List.getLast?_append_of_ne_nil _ hne] at hlast
    rw [List.cons_append, gapLength, ← List.cons_append, hskip, hn]
    simp only
    rw [List.drop_append_of_le_length (by omega), ih hrest (by rw [List.length_drop]; omega)]
    rwa [Nat.add_right_comm, List.drop_succ_cons, ← List.drop_drop] at hblock

private theorem length_rest_lt {c : Char} {cs : Text} (hd : t.drop (gapLength t) = c :: cs) :
    (Token.read c cs).rest.length < t.length - gapLength t := by
  have h := Token.length_rest_read c cs
  have hlength := congrArg List.length hd
  rw [List.length_drop, List.length_cons] at hlength
  omega

/-- The last token is a closing parenthesis, and nothing is behind it. -/
structure EndsInParen (t : Text) : Prop where
  last : (lex t).1.getLast?.map (·.token) = some .closeParen
  all : (lex t).2 = []

namespace EndsInParen

/-- The first token is the parenthesis at the end, or there is one at the end of the rest. -/
theorem cases (h : EndsInParen t) : ∃ c cs, t.drop (gapLength t) = c :: cs ∧
    ((Token.read c cs).token = .closeParen ∧ (Token.read c cs).rest = [] ∨
      EndsInParen (Token.read c cs).rest) := by
  obtain ⟨htoken, hend⟩ := h
  cases hd : t.drop (gapLength t) with
  | nil => simp [lex_of_drop_nil hd] at htoken
  | cons c cs =>
    rw [lex_of_drop_cons hd] at htoken hend
    refine ⟨c, cs, rfl, ?_⟩
    cases hl : (lex (Token.read c cs).rest).1 with
    | nil =>
      rw [hl] at htoken
      exact .inl ⟨Option.some.inj htoken, eq_nil_of_lex (Prod.ext hl hend)⟩
    | cons l ls =>
      rw [hl, List.getLast?_cons_cons, ← hl] at htoken
      exact .inr ⟨htoken, hend⟩

/-- The parenthesis is the last character. -/
theorem getLast? (h : EndsInParen t) : t.getLast? = some ')' := by
  induction hn : t.length using Nat.strongRecOn generalizing t with
  | ind n ih =>
    obtain ⟨c, cs, hd, hcase⟩ := h.cases
    have hsource : t = t.take (gapLength t) ++ (Token.read c cs).text ++ (Token.read c cs).rest := by
      rw [List.append_assoc, ← Token.source_read, ← hd, List.take_append_drop]
    rcases hcase with ⟨htoken, hnil⟩ | hrest
    · rw [hsource, hnil, List.append_nil, Token.text_of_closeParen htoken, List.getLast?_concat]
    · have hlast := ih _ (by have := length_rest_lt hd; omega) hrest rfl
      have hne : (Token.read c cs).rest ≠ [] := by
        intro he
        simp [he] at hlast
      rw [hsource, List.getLast?_append_of_ne_nil _ hne, hlast]

end EndsInParen

private theorem lex_star (u : Text) :
    lex ('*' :: u) = (⟨[], ['*'], .punct '*'⟩ :: (lex u).1, (lex u).2) := by
  have hgap : gapLength ('*' :: u) = 0 :=
    gapLength_of_startsToken (by simp [startsToken, isSeparator])
  have hlex := lex_of_drop_cons (t := '*' :: u) (by rw [hgap, List.drop_zero])
  rwa [Token.read_mark (by decide) (by decide), hgap] at hlex

/-- What follows a text that ends with a parenthesis is read by itself. -/
theorem lex_append (h : EndsInParen t)
    (hquote : ∀ l ∈ (lex t).1, ∀ q, Token.isQuote q = true → l.token ≠ .punct q)
    (hcomment : ∀ a b, [a, b] <:+: (lex t).1 → a.token = .punct '/' → b.token = .punct '*' →
      b.gap ≠ []) (r : Text) :
    lex (t ++ r) = ((lex t).1 ++ (lex r).1, (lex r).2) := by
  induction hn : t.length using Nat.strongRecOn generalizing t with
  | ind n ih =>
    obtain ⟨c, cs, hd, hcase⟩ := h.cases
    have hlen := length_rest_lt hd
    have hlt : gapLength t < t.length := by omega
    have hlex := lex_of_drop_cons hd
    rw [hlex] at hquote hcomment ⊢
    have hblock : ¬ ['/', '*'] <+: t.drop (gapLength t) := by
      rw [hd]
      rintro ⟨u, hu⟩
      obtain ⟨rfl, rfl⟩ := List.cons.inj hu
      have hslash : Token.isOther '/' = true := by decide
      rw [Token.read_mark hslash (by decide), List.append_eq, List.cons_append, List.nil_append,
        lex_star] at hcomment
      exact hcomment _ _ (List.infix_append' [] [_, _] _) rfl rfl rfl
    have hgap := gapLength_append_right h.getLast? hlt hblock r
    obtain ⟨hsource, hw⟩ := Token.written_read (hquote _ List.mem_cons_self)
    have hwritten : Token.Written ((Token.read c cs).rest ++ r) (Token.read c cs).token
        (Token.read c cs).text := by
      rcases hcase with ⟨htoken, hnil⟩ | hrest
      · rw [htoken, Token.text_of_closeParen htoken]
        exact .closeParen
      · obtain ⟨u, hu⟩ := List.getLast?_eq_some_iff.1 hrest.getLast?
        rw [hu] at hw ⊢
        rw [List.append_assoc]
        exact hw.congr rfl
    obtain ⟨d, ds, htext, hread⟩ := hwritten.read
    rw [htext, List.cons_append, List.cons.injEq] at hsource
    obtain ⟨rfl, hcs⟩ := hsource
    have hdrop : (t ++ r).drop (gapLength (t ++ r)) = c :: (ds ++ ((Token.read c cs).rest ++ r)) := by
      rw [hgap, List.drop_append_of_le_length hlt.le, hd, ← List.append_assoc, ← hcs]
      rfl
    rw [lex_of_drop_cons hdrop, hread, hgap, List.take_append_of_le_length hlt.le]
    rcases hcase with ⟨-, hnil⟩ | hrest
    · rw [hnil, lex_of_drop_nil List.drop_nil]
      rfl
    · rw [ih _ (by omega) hrest (fun l hl => hquote l (List.mem_cons_of_mem _ hl)) (fun a b hab =>
        hcomment a b (List.infix_cons hab)) rfl]
      rfl

end Lexeme

end TableDialects
