import TableDialects.Command.FileTree
import Mathlib.Data.List.Infix

/-!
# Writing a file

A written file holds its text under the path that was written to, or the first bytes of it when the
writing broke off. All other files stay as they are.
-/
namespace TableDialects.Command.FileTree

variable {t : FileTree} {h : Host} {p q directory : Path} {path text : Text} {kept : Option Text}

private theorem any_put (holds : Path → Bool) (files : List (Path × Option Text)) :
    (put p kept files).any (fun f => holds f.1) = (files.any (fun f => holds f.1) || holds p) := by
  induction files with
  | nil => simp [put]
  | cons f files ih =>
    by_cases hf : f.1 = p
    · subst hf
      rw [put, if_pos BEq.rfl, List.any_cons, List.any_cons, Bool.or_right_comm, Bool.or_self]
    · rw [put, if_neg (by simpa using hf), List.any_cons, List.any_cons, ih, Bool.or_assoc]

private theorem hasDirectory_putting :
    (t.putting p kept).hasDirectory h q = (t.hasDirectory h q || (q.isPrefixOf p && p != q)) := by
  rw [hasDirectory, hasDirectory, Bool.or_assoc _ _ (_ && _)]
  exact congrArg _ (any_put (fun f => q.isPrefixOf f && f != q) t.files)

theorem find?_putting_self : (t.putting p kept).find? p = some kept := by
  obtain ⟨files⟩ := t
  change ((put p kept files).find? (·.1 == p)).map (·.2) = _
  induction files with
  | nil => simp [put]
  | cons f files ih =>
    by_cases hf : f.1 = p
    · rw [put, if_pos (by simpa using hf), List.find?_cons_of_pos (by simp), Option.map_some]
    · rw [put, if_neg (by simpa using hf), List.find?_cons_of_neg (by simpa using hf), ih]

theorem find?_putting_of_ne (hq : q ≠ p) : (t.putting p kept).find? q = t.find? q := by
  obtain ⟨files⟩ := t
  change ((put p kept files).find? (·.1 == q)).map (·.2) = (files.find? (·.1 == q)).map (·.2)
  induction files with
  | nil => simp [put, Ne.symm hq]
  | cons f files ih =>
    by_cases hf : f.1 = p
    · have hfq : ¬ f.1 = q := fun h => hq (h ▸ hf)
      rw [put, if_pos (by simpa using hf), List.find?_cons_of_neg (by simpa using Ne.symm hq),
        List.find?_cons_of_neg (by simpa using hfq)]
    · rw [put, if_neg (by simpa using hf)]
      by_cases hfq : f.1 = q
      · rw [List.find?_cons_of_pos (by simpa using hfq), List.find?_cons_of_pos (by simpa using hfq)]
      · rw [List.find?_cons_of_neg (by simpa using hfq), List.find?_cons_of_neg (by simpa using hfq),
          ih]

/-- A file that is put where names end leads to no other directory of its name. -/
private theorem hasDirectory_putting_self (hp : t.hasDirectory h p = false) :
    (t.putting p kept).hasDirectory h p = false := by
  rw [hasDirectory_putting, hp]
  simp

private theorem occupant_putting : (t.putting p kept).occupant h p = .file p := by
  rw [occupant, find?_putting_self, Option.isSome_some, if_pos rfl]

private theorem path_of_occupant
    (ho : t.occupant h q = .file p ∨ t.occupant h q = .vacant p) : q = p := by
  rw [occupant] at ho
  split at ho
  · simpa using ho
  · split at ho
    · simp at ho
    · simpa using ho

/-- Names that lead to a file, or to where one can be made, lead to it once it is there. -/
theorem walk_putting {names : List Text}
    (hw : t.walk h directory names = .ok (.file p) ∨ t.walk h directory names = .ok (.vacant p)) :
    (t.putting p kept).walk h directory names = .ok (.file p) := by
  induction names generalizing directory with
  | nil => simp [walk] at hw
  | cons name names ih =>
    rw [walk] at hw ⊢
    by_cases hstay : name.isEmpty || name = ['.']
    · rw [if_pos hstay] at hw ⊢
      exact ih hw
    rw [if_neg hstay] at hw ⊢
    by_cases hup : name = ['.', '.']
    · rw [if_pos hup] at hw ⊢
      exact ih hw
    rw [if_neg hup] at hw ⊢
    by_cases hlong : nameLimit < Text.utf8Length name
    · simp [if_pos hlong] at hw
    rw [if_neg hlong] at hw ⊢
    cases hreal : h.real (directory ++ [name]) with
    | error fault => simp [hreal] at hw
    | ok q =>
      simp only [hreal] at hw ⊢
      by_cases hdirectory : t.hasDirectory h q
      · -- a directory stays one
        rw [if_pos hdirectory] at hw
        rw [if_pos (by rw [hasDirectory_putting, hdirectory, Bool.true_or])]
        exact ih hw
      · -- the last name, at which the file is put
        rw [if_neg hdirectory] at hw
        by_cases hnames : names.isEmpty
        · rw [if_pos hnames] at hw
          obtain rfl := path_of_occupant (by simpa using hw)
          rw [if_neg (by simp [hasDirectory_putting_self (Bool.eq_false_iff.2 hdirectory)]),
            if_pos hnames, occupant_putting]
        · rw [if_neg hnames] at hw
          simp at hw

/-- The path is not that of a directory, and leads to a file or to where one can be made. -/
structure Leads (t : FileTree) (h : Host) (path : Text) (p : Path) : Prop where
  open_end : path.getLast? ≠ some '/'
  place : t.locate h path = .ok (.file p) ∨ t.locate h path = .ok (.vacant p)

theorem Leads.locate_putting (hp : t.Leads h path p) :
    (t.putting p kept).locate h path = .ok (.file p) := by
  obtain ⟨-, hp⟩ := hp
  rw [locate, follow] at hp ⊢
  by_cases hempty : path.isEmpty
  · rw [if_pos hempty] at hp
    simp at hp
  rw [if_neg hempty] at hp ⊢
  by_cases hlong : pathLimit < Text.utf8Length path
  · rw [if_pos hlong] at hp
    simp at hp
  rw [if_neg hlong] at hp ⊢
  exact walk_putting hp

private theorem stem_of_getLast? (hlast : path.getLast? ≠ some '/') : stem path = path := by
  rw [← List.head?_reverse] at hlast
  rw [stem]
  cases hr : path.reverse with
  | nil => simpa using hr
  | cons c cs =>
    have hc : ¬ c = '/' := by simpa [hr] using hlast
    rw [List.dropWhile_cons_of_neg (by simpa using hc), ← hr, List.reverse_reverse]

/-- What becomes of a text that is written to a path: it stands in a file, a device took it, the
first bytes of it stand in a file, or nothing changed. -/
inductive Written (t : FileTree) (h : Host) (path text : Text) : Delivery → Prop where
  | file {p : Path} : t.Leads h path p → Written t h path text { tree := t.putting p (some text) }
  | device {d : Device} {channel : Channel} :
    t.locate h path = .ok (.device d) → d.takes = .ok channel →
    Written t h path text
      { tree := t, stdout := if channel = .standardOutput then text else [],
        stderr := if channel = .standardError then text else [] }
  | cut {p : Path} {bytes : Nat} {fault : FileFault} :
    t.Leads h path p → h.fate p = .cut bytes fault → bytes < Text.utf8Length text →
    Written t h path text ((t.putting p (Text.takeBytes? bytes text)).failing fault)
  | refused {fault : FileFault} : Written t h path text (t.failing fault)

private theorem written_deliver_of_leads (hp : t.Leads h path p) {place : Place}
    (hplace : place = .file p ∨ place = .vacant p) :
    t.Written h path text (t.deliver h text place) := by
  have hdeliver : t.deliver h text place = t.deliver h text (.file p) := by
    rcases hplace with rfl | rfl <;> rfl
  rw [hdeliver, deliver]
  split
  · exact .file hp
  · exact .refused
  · next bytes fault hfate =>
    split
    · exact .file hp
    · next hlong => exact .cut hp hfate (Nat.lt_of_not_le hlong)

private theorem written_deliver_of_device {d : Device}
    (hd : t.locate h path = .ok (.device d)) :
    t.Written h path text (t.deliver h text (.device d)) := by
  rw [deliver]
  split
  · next htakes => exact .device hd htakes
  · next htakes => exact .device hd htakes
  · next htakes => exact .device hd htakes
  · exact .refused

theorem written_write (t : FileTree) (h : Host) (path text : Text) :
    t.Written h path text (t.write h path text) := by
  rw [write]
  split
  · exact .refused
  · next place hplace =>
    by_cases hslash : path.getLast? = some '/'
    · rw [if_pos hslash]
      exact .refused
    · rw [stem_of_getLast? hslash] at hplace
      rw [if_neg hslash]
      cases place with
      | file p => exact written_deliver_of_leads ⟨hslash, .inl hplace⟩ (.inl rfl)
      | vacant p => exact written_deliver_of_leads ⟨hslash, .inr hplace⟩ (.inr rfl)
      | device d => exact written_deliver_of_device hplace
      | directory => exact .refused

end TableDialects.Command.FileTree
