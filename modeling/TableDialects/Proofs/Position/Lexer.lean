import TableDialects.Proofs.Position.Spots
import TableDialects.Proofs.Token.Span

/-!
# The lexer by positions

The lexer measures how far it is by the bytes that are left, and cuts a literal out of the source
by the bytes of its quotes.
-/
namespace TableDialects.Position

/-- The value of a literal whose text begins at byte `i`, and the byte after its closing quote. -/
def closeQuote? (quote : Char) (i : Nat) : Text → Option (Text × Nat)
  | [] => none
  | [c] =>
    if Token.escapes quote c then none
    else if c = quote then some ([], i + c.utf8Size) else none
  | c :: d :: cs =>
    if Token.escapes quote c then
      (closeQuote? quote (i + c.utf8Size + d.utf8Size) cs).map fun p => (d :: p.1, p.2)
    else if c = quote then
      if d = quote then
        (closeQuote? quote (i + c.utf8Size + d.utf8Size) cs).map fun p => (c :: p.1, p.2)
      else some ([], i + c.utf8Size)
    else (closeQuote? quote (i + c.utf8Size) (d :: cs)).map fun p => (c :: p.1, p.2)

/-- The literal at the start of a text and what follows it, if there is one. -/
def quoted? : Text → Option (Option (Token × Text))
  | [] => some none
  | quote :: cs =>
    if Token.isQuote quote then do
      let body ← Text.slice? (quote :: cs) 1 (Text.utf8Length (quote :: cs))
      match closeQuote? quote 0 body with
      | some (value, last) =>
        let rest ← Text.slice? body last (Text.utf8Length body)
        return some (Token.ofLiteral quote value, rest)
      | none => return none
    else some none

/-- The token that begins with `c`, and what follows it. -/
def next? (c : Char) (cs : Text) : Option (Token × Text) := do
  match ← quoted? (c :: cs) with
  | some r => return r
  | none => return ((Token.readPlain c cs).token, (Token.readPlain c cs).rest)

/-- The number of bytes in front of what is left of the source. -/
def passed? (source rest : Text) : Option Nat :=
  if Text.utf8Length rest ≤ Text.utf8Length source then
    some (Text.utf8Length source - Text.utf8Length rest)
  else none

/-- The spots of what is left of the source, which has at most `n` tokens. -/
def spotsOf? (source : Text) : Nat → Text → Option (List Spot)
  | 0, rest => if Lexeme.skip rest = [] then some [] else none
  | n + 1, rest =>
    match Lexeme.skip rest with
    | [] => some []
    | c :: cs => do
      let first ← passed? source (c :: cs)
      let (token, following) ← next? c cs
      let last ← passed? source following
      return ⟨token, first, last⟩ :: (← spotsOf? source n following)

private theorem closeQuote?_eq (quote : Char) (i : Nat) (t : Text) :
    closeQuote? quote i t =
      (Token.literal? quote t).map fun p => (p.1, i + Text.utf8Length p.2.1) := by
  fun_induction Token.literal? quote t generalizing i with
  | case1 => rfl
  | case2 c he => simp [closeQuote?, he]
  | case3 he => simp [closeQuote?, he]
  | case4 c he hc => simp [closeQuote?, he, hc]
  | case5 c d cs he ih => simp [closeQuote?, he, ih, Function.comp_def, Nat.add_assoc]
  | case6 cs he ih => simp [closeQuote?, he, ih, Function.comp_def, Nat.add_assoc]
  | case7 d cs hd he => simp [closeQuote?, he, hd]
  | case8 c d cs he hc ih => simp [closeQuote?, he, hc, ih, Function.comp_def, Nat.add_assoc]

private theorem slice?_tail {c : Char} (hc : c.utf8Size = 1) (cs : Text) :
    Text.slice? (c :: cs) 1 (Text.utf8Length (c :: cs)) = some cs := by
  refine Text.slice?_eq_some_iff.2 ⟨[c], [], by simp, ?_, ?_⟩ <;> simp [hc]

private theorem slice?_rest (s r : Text) :
    Text.slice? (s ++ r) (Text.utf8Length s) (Text.utf8Length (s ++ r)) = some r :=
  Text.slice?_eq_some_iff.2 ⟨s, [], by simp, rfl, by simp⟩

private theorem quoted?_eq {quote : Char} (hq : Token.isQuote quote = true) (cs : Text) :
    quoted? (quote :: cs) =
      some ((Token.literal? quote cs).map fun p => (Token.ofLiteral quote p.1, p.2.2)) := by
  have hsize : quote.utf8Size = 1 := by
    simp only [Token.isQuote, Bool.or_eq_true, beq_iff_eq] at hq
    rcases hq with (rfl | rfl) | rfl <;> decide
  rw [quoted?, if_pos hq, slice?_tail hsize]
  simp only [Option.bind_eq_bind, Option.bind_some, closeQuote?_eq, Nat.zero_add]
  cases hl : Token.literal? quote cs with
  | none => rfl
  | some p =>
    obtain ⟨v, s, r⟩ := p
    obtain ⟨rfl, -⟩ := Token.quotes_of_literal? hl
    simp only [Option.map_some, slice?_rest, Option.bind_some]
    rfl

private theorem next?_eq (c : Char) (cs : Text) :
    next? c cs = some ((Token.read c cs).token, (Token.read c cs).rest) := by
  by_cases hq : Token.isQuote c = true
  · rw [next?, quoted?_eq hq, Token.read, if_pos hq]
    cases Token.literal? c cs <;> rfl
  · rw [Token.read_of_not_isQuote (by simpa using hq), next?, quoted?, if_neg hq]
    rfl

private theorem passed?_append (u rest : Text) :
    passed? (u ++ rest) rest = some (Text.utf8Length u) := by
  rw [passed?, Text.utf8Length_append, if_pos (Nat.le_add_left _ _), Nat.add_sub_cancel]

private theorem spotsOf?_eq (u t : Text) {n : Nat} (hn : t.length ≤ n) :
    spotsOf? (u ++ t) n t = some (spots (Text.utf8Length u) (Lexeme.lex t).1) := by
  induction n generalizing u t with
  | zero =>
    obtain rfl : t = [] := List.length_eq_zero_iff.1 (Nat.le_zero.1 hn)
    rw [spotsOf?, if_pos Lexeme.skip_nil, Lexeme.lex_of_drop_nil List.drop_nil]
    rfl
  | succ n ih =>
    cases hd : Lexeme.skip t with
    | nil =>
      rw [spotsOf?, hd, Lexeme.lex_of_drop_nil hd]
      rfl
    | cons c cs =>
      have hsource : t = t.take (Lexeme.gapLength t) ++ (c :: cs) := by
        rw [← hd, Lexeme.skip, List.take_append_drop]
      have hlen : (Token.read c cs).rest.length ≤ n := by
        have h₁ := Token.length_rest_read c cs
        have h₂ := congrArg List.length hsource
        rw [List.length_append, List.length_cons] at h₂
        omega
      rw [spotsOf?, hd, Lexeme.lex_of_drop_cons hd, spots]
      generalize t.take (Lexeme.gapLength t) = g at *
      have hfirst : u ++ t = (u ++ g) ++ (c :: cs) := by
        rw [hsource, List.append_assoc]
      have hlast : u ++ t = (u ++ g ++ (Token.read c cs).text) ++ (Token.read c cs).rest := by
        rw [hfirst, List.append_assoc (u ++ g), ← Token.source_read]
      have hrest := ih (u ++ g ++ (Token.read c cs).text) _ hlen
      have h₁ := passed?_append (u ++ g) (c :: cs)
      have h₂ := passed?_append (u ++ g ++ (Token.read c cs).text) (Token.read c cs).rest
      rw [← hlast] at hrest h₂
      rw [← hfirst] at h₁
      simp only [h₁, h₂, next?_eq, hrest, Option.bind_eq_bind, Option.bind_some,
        Text.utf8Length_append]
      rfl

private theorem text_ne_nil_of_mem_lex {t : Text} : ∀ l ∈ (Lexeme.lex t).1, l.text ≠ [] := by
  fun_induction Lexeme.lex t with
  | case1 => simp
  | case2 t c cs hd r l ih =>
    obtain ⟨v, hv, -⟩ := Token.read_alone c cs
    intro m hm
    rcases List.mem_cons.1 hm with rfl | hm
    · exact ne_of_eq_of_ne hv (List.cons_ne_nil c v)
    · exact ih m hm

theorem source_lex (t : Text) : t = Lexeme.source (Lexeme.lex t).1 ++ (Lexeme.lex t).2 := by
  fun_induction Lexeme.lex t with
  | case1 => rfl
  | case2 t c cs hd r l ih =>
    rw [Lexeme.source_cons, List.append_assoc, List.append_assoc, ← ih, ← Token.source_read, ← hd,
      List.take_append_drop]

/-- The lexer never counts beyond the source nor cuts a character, and each of its steps takes at
least one character. -/
theorem exists_spotsOf? (source : Text) :
    ∃ ts, spotsOf? source source.length source = some ts ∧
      Placed source ts (tokenize source) :=
  ⟨_, spotsOf?_eq [] source (Nat.le_refl _),
    ⟨⟨[], (Lexeme.lex source).2, source_lex source, rfl⟩, text_ne_nil_of_mem_lex⟩⟩

end TableDialects.Position
