import TableDialects.Text.Blank
import Mathlib.Data.List.DropRight

/-!
# Trimming and words

Blanks at the ends of a text do not count when it is trimmed, and a blank separates the words
before it from the words after it.
-/
namespace TableDialects.Text

/-- The blanks by their numbers. -/
def blanks : List Nat :=
  [0x20, 0x85, 0xA0, 0x1680, 0x2028, 0x2029, 0x202F, 0x205F, 0x3000] ++
    (List.range' 9 5 ++ List.range' 0x2000 11)

theorem mem_blanks {c : Char} (h : isBlank c = true) : c.toNat ∈ blanks := by
  have hs : c = ' ' ↔ c.toNat = 0x20 := Char.ext_iff.trans UInt32.toNat_inj.symm
  simp only [isBlank, Bool.or_eq_true, Bool.and_eq_true, decide_eq_true_eq, beq_iff_eq, hs] at h
  simp only [blanks, List.mem_append, List.mem_cons, List.mem_range'_1, List.not_mem_nil]
  omega

theorem mem_dropWhile {p : Char → Bool} {c : Char} {t : Text} (hp : p c = false) (h : c ∈ t) :
    c ∈ t.dropWhile p := by
  rw [← @List.takeWhile_append_dropWhile _ p t] at h
  refine (List.mem_append.1 h).resolve_left fun hm => ?_
  exact absurd (List.all_eq_true.1 List.all_takeWhile c hm) (by simp [hp])

theorem blank_append (a b : Text) : blank (a ++ b) = (blank a && blank b) := by
  simp [blank]

theorem trimStart_blank_append {b : Text} (hb : blank b = true) (t : Text) :
    trimStart (b ++ t) = trimStart t := by
  induction b with
  | nil => rfl
  | cons c b ih =>
    simp only [blank, List.all_cons, Bool.and_eq_true] at hb
    simpa [trimStart, hb.1] using ih hb.2

theorem trimStart_cons {c : Char} (hc : isBlank c = false) (t : Text) :
    trimStart (c :: t) = c :: t := by
  simp [trimStart, hc]

theorem trimEnd_append_blank {b : Text} (hb : blank b = true) (t : Text) :
    trimEnd (t ++ b) = trimEnd t := by
  have hr : blank b.reverse = true := by simpa [blank] using hb
  have h := trimStart_blank_append hr t.reverse
  simp only [trimStart] at h
  simp [trimEnd, h]

theorem trimEnd_concat {c : Char} (hc : isBlank c = false) (t : Text) :
    trimEnd (t ++ [c]) = t ++ [c] := by
  simp [trimEnd, hc]

theorem trimEnd_append_cons {c : Char} (hc : isBlank c = false) (u t : Text) :
    trimEnd (u ++ c :: t) = u ++ c :: trimEnd t := by
  cases h : t.reverse.dropWhile isBlank with
  | nil => simp [trimEnd, List.dropWhile_append, h, hc]
  | cons d v => simp [trimEnd, List.dropWhile_append, h]

theorem trimEnd_cons {c : Char} (hc : isBlank c = false) (t : Text) :
    trimEnd (c :: t) = c :: trimEnd t :=
  trimEnd_append_cons hc [] t

theorem exists_trimEnd (t : Text) : ∃ b, t = trimEnd t ++ b ∧ blank b = true := by
  refine ⟨(t.reverse.takeWhile isBlank).reverse, ?_, ?_⟩
  · rw [trimEnd, ← List.reverse_append, List.takeWhile_append_dropWhile, List.reverse_reverse]
  · rw [blank, List.all_reverse]
    exact List.all_takeWhile

theorem mem_of_mem_trimEnd {c : Char} {t : Text} (h : c ∈ trimEnd t) : c ∈ t := by
  obtain ⟨b, hb, -⟩ := exists_trimEnd t
  rw [hb]
  exact List.mem_append_left b h

theorem mem_of_mem_trim {c : Char} {t : Text} (h : c ∈ trim t) : c ∈ t :=
  (List.dropWhile_sublist _).subset (mem_of_mem_trimEnd h)

theorem trimEnd_trimEnd (t : Text) : trimEnd (trimEnd t) = trimEnd t :=
  List.rdropWhile_idempotent isBlank t

/-- Blanks at the end of a text do not hide how it begins. -/
theorem head?_trimEnd {c : Char} (hc : isBlank c = false) (t : Text) :
    (trimEnd t).head? = some c ↔ t.head? = some c := by
  cases t with
  | nil => simp [trimEnd]
  | cons d t =>
    by_cases hd : isBlank d = true
    · have hne : d ≠ c := by rintro rfl; simp [hd] at hc
      cases h : t.reverse.dropWhile isBlank with
      | nil => simp [trimEnd, List.dropWhile_append, h, hd, hne]
      | cons e u => simp [trimEnd, List.dropWhile_append, h]
    · simp [trimEnd_cons (by simpa using hd)]

theorem trimStart_of_blank {t : Text} (ht : blank t = true) : trimStart t = [] := by
  have h := trimStart_blank_append ht []
  rwa [List.append_nil] at h

theorem trim_of_blank {t : Text} (ht : blank t = true) : trim t = [] := by
  simp [trim, trimStart_of_blank ht, trimEnd]

theorem trim_blank_append {b : Text} (hb : blank b = true) (t : Text) :
    trim (b ++ t) = trim t := by
  simp only [trim, trimStart_blank_append hb]

theorem trimStart_append {t : Text} (ht : blank t = false) (u : Text) :
    trimStart (t ++ u) = trimStart t ++ u := by
  induction t with
  | nil => simp [blank] at ht
  | cons c t ih =>
    by_cases hc : isBlank c = true
    · have ht : blank t = false := by simpa [blank, hc] using ht
      simpa [trimStart, hc] using ih ht
    · simp [trimStart, hc]

theorem trim_append_blank {b : Text} (hb : blank b = true) (t : Text) :
    trim (t ++ b) = trim t := by
  cases ht : blank t with
  | true => rw [trim_blank_append ht, trim_of_blank hb, trim_of_blank ht]
  | false => rw [trim, trimStart_append ht, trimEnd_append_blank hb, trim]

/-- A text that neither begins nor ends with a blank. -/
structure Solid (t : Text) : Prop where
  ne_nil : t ≠ []
  head : ∀ c ∈ t.head?, isBlank c = false
  last : ∀ c ∈ t.getLast?, isBlank c = false

namespace Solid

variable {a b : Text}

theorem of_forall (hne : a ≠ []) (h : ∀ c ∈ a, isBlank c = false) : Solid a :=
  ⟨hne, fun c hm => h c (List.mem_of_head? hm), fun c hm => h c (List.mem_of_getLast? hm)⟩

theorem exists_cons (h : Solid a) : ∃ c t, a = c :: t ∧ isBlank c = false := by
  obtain ⟨c, t, rfl⟩ := List.exists_cons_of_ne_nil h.ne_nil
  exact ⟨c, t, rfl, h.head c rfl⟩

theorem trim (h : Solid a) : trim a = a := by
  obtain ⟨c, t, rfl, hc⟩ := h.exists_cons
  rw [Text.trim, trimStart_cons hc]
  obtain ⟨u, d, hu⟩ := List.eq_nil_or_concat' (c :: t) |>.resolve_left (by simp)
  have hd := h.last d (by simp [hu])
  rw [hu]
  exact trimEnd_concat hd u

theorem blank (h : Solid a) : blank a = false := by
  obtain ⟨c, t, rfl, hc⟩ := h.exists_cons
  simp [Text.blank, hc]

/-- Only the ends of a text count. -/
theorem append (ha : Solid a) (m : Text) (hb : Solid b) : Solid (a ++ m ++ b) where
  ne_nil := by simp [ha.ne_nil]
  head := by
    obtain ⟨c, t, rfl, hc⟩ := ha.exists_cons
    simpa using hc
  last := by
    rw [List.getLast?_append_of_ne_nil _ hb.ne_nil]
    exact hb.last

end Solid

/-- A text that is not blank has a first character that is no blank. -/
theorem exists_of_not_blank {t : Text} (h : blank t = false) :
    ∃ b c u, t = b ++ c :: u ∧ blank b = true ∧ isBlank c = false := by
  induction t with
  | nil => simp [blank] at h
  | cons c t ih =>
    by_cases hc : isBlank c = true
    · obtain ⟨b, d, u, rfl, hb, hd⟩ := ih (by simpa [blank, hc] using h)
      exact ⟨c :: b, d, u, rfl, by simpa [blank, hc] using hb, hd⟩
    · exact ⟨[], c, t, rfl, rfl, by simpa using hc⟩

theorem trimEnd_append {t : Text} (h : blank t = false) (u : Text) :
    trimEnd (u ++ t) = u ++ trimEnd t := by
  obtain ⟨b, c, v, rfl, -, hc⟩ := exists_of_not_blank h
  rw [← List.append_assoc, trimEnd_append_cons hc, trimEnd_append_cons hc, List.append_assoc]

theorem blank_trimEnd (t : Text) : blank (trimEnd t) = blank t := by
  obtain ⟨b, ht, hb⟩ := exists_trimEnd t
  conv_rhs => rw [ht, blank_append, hb, Bool.and_true]

theorem solid_trim {t : Text} (h : blank t = false) : Solid (trim t) := by
  obtain ⟨b, c, u, rfl, hb, hc⟩ := exists_of_not_blank h
  rw [trim_blank_append hb, trim, trimStart_cons hc]
  have hfirst := trimEnd_cons hc u
  refine ⟨by simp [hfirst], by simpa [hfirst] using hc, fun d hd => ?_⟩
  rw [trimEnd, List.getLast?_reverse] at hd
  have := List.head?_dropWhile_not isBlank (c :: u).reverse
  rw [hd] at this
  simpa using this

theorem trim_trim (t : Text) : trim (trim t) = trim t := by
  cases h : blank t with
  | true => rw [trim_of_blank h]; rfl
  | false => exact (solid_trim h).trim

section
variable {cut : Char → Bool}

theorem pieces_ne_nil (t : Text) : pieces cut t ≠ [] := by
  induction t with
  | nil => simp [pieces]
  | cons c t ih =>
    by_cases hc : cut c
    · simp [pieces, hc]
    · cases h : pieces cut t with
      | nil => exact absurd h ih
      | cons p ps => simp [pieces, hc, h, consHead]

theorem consHead_append (c : Char) {ps : List Text} (h : ps ≠ []) (qs : List Text) :
    consHead c (ps ++ qs) = consHead c ps ++ qs := by
  cases ps with
  | nil => exact absurd rfl h
  | cons p ps => rfl

theorem pieces_append_cons {c : Char} (hc : cut c = true) (a b : Text) :
    pieces cut (a ++ c :: b) = pieces cut a ++ pieces cut b := by
  induction a with
  | nil => simp [pieces, hc]
  | cons d a ih =>
    by_cases hd : cut d
    · simp [pieces, hd, ih]
    · simp [pieces, hd, ih, consHead_append d (pieces_ne_nil a)]

theorem pieces_of_forall {t : Text} (h : ∀ c ∈ t, cut c = false) : pieces cut t = [t] := by
  induction t with
  | nil => rfl
  | cons c t ih =>
    have hc := h c List.mem_cons_self
    simp [pieces, hc, ih fun d hd => h d (List.mem_cons_of_mem c hd), consHead]

theorem pieces_map {f : Char → Char} (hf : ∀ c, cut (f c) = cut c) (t : Text) :
    pieces cut (t.map f) = (pieces cut t).map (List.map f) := by
  induction t with
  | nil => rfl
  | cons c t ih =>
    rw [List.map_cons, pieces, pieces, hf, ih]
    split
    · rfl
    · cases pieces cut t <;> rfl

theorem eq_false_of_mem_pieces {t k : Text} (h : k ∈ pieces cut t) : ∀ c ∈ k, cut c = false := by
  induction t generalizing k with
  | nil =>
    obtain rfl := List.mem_singleton.1 h
    simp
  | cons d t ih =>
    obtain ⟨p, ps, hps⟩ := List.exists_cons_of_ne_nil (@pieces_ne_nil cut t)
    rw [hps] at ih
    by_cases hd : cut d = true
    · simp only [pieces, hd, if_true, hps] at h
      rcases List.mem_cons.1 h with rfl | h
      · simp
      · exact ih h
    · simp only [pieces, hd, Bool.false_eq_true, if_false, hps, consHead] at h
      rcases List.mem_cons.1 h with rfl | h
      · exact List.forall_mem_cons.2 ⟨by simpa using hd, ih List.mem_cons_self⟩
      · exact ih (List.mem_cons_of_mem p h)

end

theorem solid_of_mem_words {t w : Text} (h : w ∈ words t) : Solid w := by
  rw [words, List.mem_filter] at h
  exact .of_forall (by simpa using h.2) (eq_false_of_mem_pieces h.1)

theorem words_append_cons {c : Char} (hc : isBlank c = true) (a b : Text) :
    words (a ++ c :: b) = words a ++ words b := by
  simp [words, pieces_append_cons hc]

theorem words_of_forall {t : Text} (hne : t ≠ []) (h : ∀ c ∈ t, isBlank c = false) :
    words t = [t] := by
  simp [words, pieces_of_forall h, hne]

theorem words_blank_append {b : Text} (hb : blank b = true) (t : Text) :
    words (b ++ t) = words t := by
  induction b with
  | nil => rfl
  | cons c b ih =>
    simp only [blank, List.all_cons, Bool.and_eq_true] at hb
    rw [← ih hb.2]
    exact words_append_cons hb.1 [] (b ++ t)

theorem words_of_blank {b : Text} (hb : blank b = true) : words b = [] := by
  have h := words_blank_append hb []
  rwa [List.append_nil] at h

theorem words_append_blank {b : Text} (hb : blank b = true) (t : Text) :
    words (t ++ b) = words t := by
  cases b with
  | nil => rw [List.append_nil]
  | cons c b =>
    simp only [blank, List.all_cons, Bool.and_eq_true] at hb
    rw [words_append_cons hb.1, words_of_blank hb.2, List.append_nil]

theorem words_trim (t : Text) : words (trim t) = words t := by
  cases ht : blank t with
  | true => rw [trim_of_blank ht, words_of_blank ht, words_of_blank rfl]
  | false =>
    obtain ⟨a, c, u, rfl, ha, hc⟩ := exists_of_not_blank ht
    obtain ⟨b, hu, hb⟩ := exists_trimEnd (c :: u)
    rw [trim_blank_append ha, words_blank_append ha, trim, trimStart_cons hc]
    conv_rhs => rw [hu, words_append_blank hb]

/-- A text that does not begin with a blank begins with its first word. -/
theorem words_cons {c : Char} (hc : isBlank c = false) (t : Text) :
    ∃ w ws, words (c :: t) = (c :: w) :: ws := by
  cases h : pieces isBlank t with
  | nil => exact absurd h (pieces_ne_nil t)
  | cons p ps => exact ⟨p, ps.filter (!·.isEmpty), by simp [words, pieces, hc, h, consHead]⟩

theorem collapsed_cons {c : Char} (hc : isBlank c = false) (t : Text) :
    ∃ u, collapsed (c :: t) = c :: u := by
  obtain ⟨w, ws, h⟩ := words_cons hc t
  cases ws with
  | nil => exact ⟨w, by simp [collapsed, join, h, List.intercalate]⟩
  | cons v ws => exact ⟨_, by simp [collapsed, join, h, List.intercalate]; rfl⟩

section
variable {f : Char → Char}

/-- A map that keeps the separator may as well be applied to the parts. -/
theorem join_map {separator : Text} (hs : separator.map f = separator) (parts : List Text) :
    join separator (parts.map (List.map f)) = (join separator parts).map f := by
  rw [join, join]
  induction parts with
  | nil => rfl
  | cons p ps ih =>
    cases ps with
    | nil => simp
    | cons q qs =>
      rw [List.map_cons, List.map_cons, List.intercalate_cons_cons, List.intercalate_cons_cons,
        ← List.map_cons, ih, List.map_append, List.map_append, hs]

variable (hf : ∀ c, isBlank (f c) = isBlank c) (t : Text)
include hf

theorem words_map : words (t.map f) = (words t).map (List.map f) := by
  rw [words, pieces_map hf, List.filter_map, words]
  congr 1
  refine List.filter_congr fun p _ => ?_
  cases p <;> rfl

theorem collapsed_map (hs : f ' ' = ' ') : collapsed (t.map f) = (collapsed t).map f := by
  rw [collapsed, words_map hf, collapsed]
  exact join_map (by simp [hs]) (words t)

end

end TableDialects.Text
