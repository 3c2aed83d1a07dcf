import TableDialects.Text.Basic

/-!
# Slices of texts

A slice is the text between two byte offsets. There is one just if the offsets are in order, lie
within the text and split none of its characters.
-/
namespace TableDialects.Text

@[simp] theorem utf8Length_nil : utf8Length [] = 0 := rfl

theorem foldl_utf8Size (t : Text) (n : Nat) :
    t.foldl (fun n c => n + c.utf8Size) n = n + utf8Length t := by
  induction t generalizing n with
  | nil => rfl
  | cons c t ih =>
    rw [utf8Length, List.foldl_cons, List.foldl_cons, ih, ih]
    omega

@[simp] theorem utf8Length_cons (c : Char) (t : Text) :
    utf8Length (c :: t) = c.utf8Size + utf8Length t := by
  rw [utf8Length, List.foldl_cons, foldl_utf8Size, Nat.zero_add]

@[simp] theorem utf8Length_append (a b : Text) :
    utf8Length (a ++ b) = utf8Length a + utf8Length b := by
  induction a with
  | nil => simp
  | cons c a ih => simp [ih, Nat.add_assoc]

theorem utf8Length_pos {t : Text} (h : t ≠ []) : 0 < utf8Length t := by
  obtain ⟨c, t, rfl⟩ := List.exists_cons_of_ne_nil h
  have := c.utf8Size_pos
  rw [utf8Length_cons]
  omega

/-- The text before a byte offset and the text from there on, if a character begins there. -/
def cutBytes? : Nat → Text → Option (Text × Text)
  | 0, t => some ([], t)
  | _ + 1, [] => none
  | n + 1, c :: t =>
    if c.utf8Size ≤ n + 1 then (cutBytes? (n + 1 - c.utf8Size) t).map fun p => (c :: p.1, p.2)
    else none

/-- The text between two byte offsets. -/
def slice? (t : Text) (first last : Nat) : Option Text :=
  if first ≤ last then
    (cutBytes? first t).bind fun p => (cutBytes? (last - first) p.2).map (·.1)
  else none

theorem cutBytes?_utf8Length (a b : Text) : cutBytes? (utf8Length a) (a ++ b) = some (a, b) := by
  induction a with
  | nil => simp [cutBytes?]
  | cons c a ih =>
    obtain ⟨n, hn⟩ : ∃ n, utf8Length (c :: a) = n + 1 :=
      ⟨_, (Nat.succ_pred_eq_of_pos (utf8Length_pos (List.cons_ne_nil c a))).symm⟩
    have hrest : n + 1 - c.utf8Size = utf8Length a := by
      rw [← hn, utf8Length_cons, Nat.add_sub_cancel_left]
    have hle : c.utf8Size ≤ n + 1 := by
      rw [← hn, utf8Length_cons]
      exact Nat.le_add_right _ _
    rw [hn, List.cons_append, cutBytes?, if_pos hle, hrest, ih]
    rfl

theorem cutBytes?_eq_some_iff {n : Nat} {t a b : Text} :
    cutBytes? n t = some (a, b) ↔ t = a ++ b ∧ n = utf8Length a := by
  constructor
  · intro h
    fun_induction cutBytes? n t generalizing a b with
    | case1 =>
      cases h
      exact ⟨rfl, rfl⟩
    | case2 => cases h
    | case3 n c t hc ih =>
      obtain ⟨⟨u, v⟩, hp, he⟩ := Option.map_eq_some_iff.1 h
      cases he
      obtain ⟨rfl, hn⟩ : t = u ++ v ∧ n + 1 - c.utf8Size = utf8Length u := ih hp
      refine ⟨rfl, ?_⟩
      dsimp only
      rw [utf8Length_cons]
      omega
    | case4 => cases h
  · rintro ⟨rfl, rfl⟩
    exact cutBytes?_utf8Length a b

/-- A slice stands between a text before it and a text after it. -/
theorem slice?_eq_some_iff {t s : Text} {first last : Nat} :
    slice? t first last = some s ↔
      ∃ a b, t = a ++ s ++ b ∧ first = utf8Length a ∧ last = utf8Length a + utf8Length s := by
  constructor
  · intro h
    unfold slice? at h
    split at h
    · next hle =>
      obtain ⟨⟨a, r⟩, ha, hr⟩ := Option.bind_eq_some_iff.1 h
      obtain ⟨⟨s', b⟩, hs, rfl⟩ := Option.map_eq_some_iff.1 hr
      obtain ⟨rfl, hfirst⟩ := cutBytes?_eq_some_iff.1 ha
      obtain ⟨rfl, hlast⟩ : r = s' ++ b ∧ last - first = utf8Length s' :=
        cutBytes?_eq_some_iff.1 hs
      refine ⟨a, b, (List.append_assoc a s' b).symm, hfirst, ?_⟩
      dsimp only
      omega
    · cases h
  · rintro ⟨a, b, rfl, rfl, rfl⟩
    rw [slice?, if_pos (Nat.le_add_right _ _), List.append_assoc, cutBytes?_utf8Length,
      Nat.add_sub_cancel_left, Option.bind_some, cutBytes?_utf8Length]
    rfl

/-- No slice splits a character. -/
example : slice? "é" 0 1 = none := by decide

theorem slice?_append (a s b : Text) :
    slice? (a ++ s ++ b) (utf8Length a) (utf8Length a + utf8Length s) = some s :=
  slice?_eq_some_iff.2 ⟨a, b, rfl, rfl, rfl⟩

end TableDialects.Text
