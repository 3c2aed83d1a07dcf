import TableDialects.Text.Blank

/-!
# Casts after a default value
-/
namespace TableDialects.DefaultValue

/-- The text before and after the last pair of colons outside single quotes. -/
def lastCast? (inQuote : Bool) : Text → Option (Text × Text)
  | [] => none
  | '\'' :: cs => (lastCast? (!inQuote) cs).map fun p => ('\'' :: p.1, p.2)
  | ':' :: ':' :: cs =>
    if inQuote then (lastCast? inQuote cs).map fun p => (':' :: ':' :: p.1, p.2)
    else match lastCast? inQuote cs with
      | some p => some (':' :: ':' :: p.1, p.2)
      | none => some ([], cs)
  | c :: cs => (lastCast? inQuote cs).map fun p => (c :: p.1, p.2)

/-- Whether the text closes a parenthesis that it did not open, `depth` being open before it. -/
def closesGroup (depth : Nat) : Text → Bool
  | [] => false
  | '(' :: cs => closesGroup (depth + 1) cs
  | ')' :: cs => if depth = 0 then true else closesGroup (depth - 1) cs
  | _ :: cs => closesGroup depth cs

theorem length_lastCast? {inQuote : Bool} {t : Text} {p : Text × Text}
    (h : lastCast? inQuote t = some p) : p.1.length < t.length := by
  fun_induction lastCast? inQuote t generalizing p with
  | case1 => simp at h
  | case2 _ cs ih =>
    obtain ⟨q, hq, rfl⟩ := Option.map_eq_some_iff.1 h
    have := ih hq
    simp only [List.length_cons]; omega
  | case3 cs ih =>
    obtain ⟨q, hq, rfl⟩ := Option.map_eq_some_iff.1 h
    have := ih hq
    simp only [List.length_cons]; omega
  | case4 _ cs _ q hq ih =>
    cases h
    have := ih hq
    simp only [List.length_cons]; omega
  | case5 => cases h; simp
  | case6 _ c cs _ _ ih =>
    obtain ⟨q, hq, rfl⟩ := Option.map_eq_some_iff.1 h
    have := ih hq
    simp only [List.length_cons]; omega

theorem length_trimEnd_le (t : Text) : (Text.trimEnd t).length ≤ t.length := by
  simpa [Text.trimEnd] using (List.dropWhile_sublist (p := Text.isBlank) (l := t.reverse)).length_le

/-- A value without the casts at its end. A cast inside a call is not at the end. -/
def withoutCasts (value : Text) : Text :=
  match _h : lastCast? false value with
  | none => value
  | some p => if closesGroup 0 p.2 then value else withoutCasts (Text.trimEnd p.1)
termination_by value.length
decreasing_by
  have := length_lastCast? _h
  have := length_trimEnd_le p.1
  omega

/-- A default value without blanks around it and without the casts at its end. -/
def stripCasts (value : Text) : Text := withoutCasts (Text.trim value)

end TableDialects.DefaultValue
