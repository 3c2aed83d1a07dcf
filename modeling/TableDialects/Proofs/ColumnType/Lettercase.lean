import TableDialects.ColumnType.Vocabulary
import TableDialects.Proofs.Token.Lettercase

/-!
# Type names in capitals

Type names are known in any case, and the numbers of a qualifier hold no letters. So a type name in
capitals stands for the same type. Only the values of an enumeration are in capitals then.
-/
namespace TableDialects

namespace Qualifier

private theorem unsigned?_eq_none {t : Text} {c : Char} (hc : c ∈ t) (hdigit : c.isDigit = false)
    (hplus : c ≠ '+') : unsigned? t = none := by
  unfold unsigned?
  extract_lets digits
  have hdigits : c ∈ digits := by
    unfold digits
    split
    · exact (List.mem_cons.1 hc).resolve_left hplus
    · exact hc
  have hall : digits.all Char.isDigit = false := List.all_eq_false.2 ⟨c, hdigits, by simp [hdigit]⟩
  rw [if_pos (by simp [hall])]

theorem unsigned?_upperAscii : ∀ t, unsigned? (Text.upperAscii t) = unsigned? t := by
  refine Text.apply_upperAscii (a := none) fun t c hc hletter => ?_
  obtain ⟨hdigit, hplus⟩ := Text.of_mem_letters (p := fun c => c.isDigit = false ∧ c ≠ '+')
    (by decide) hletter
  exact unsigned?_eq_none hc hdigit hplus

/-- The qualifier in capitals. -/
def upperAscii (q : Qualifier) : Qualifier := ⟨Text.upperAscii q.text, q.values.map Text.upperAscii⟩

section
variable (q : Qualifier)

@[simp] theorem values_upperAscii : q.upperAscii.values = q.values.map Text.upperAscii := rfl

@[simp] theorem length?_upperAscii : q.upperAscii.length? = q.length? := by
  rw [length?, positive?, upperAscii, unsigned?_upperAscii, length?, positive?]

private theorem parts_upperAscii : q.upperAscii.parts = q.parts.map Text.upperAscii := by
  have hcomma : ∀ c : Char, (c.toUpper == ',') = (c == ',') :=
    Text.apply_toUpper (fun c => c == ',') (by decide)
  rw [parts, upperAscii, Text.upperAscii, Text.pieces_map hcomma, parts, List.map_map, List.map_map]
  exact List.map_congr_left fun p _ => Text.trim_upperAscii p

@[simp] theorem precision?_upperAscii : q.upperAscii.precision? = q.precision? := by
  rw [precision?, parts_upperAscii, List.getElem?_map, Option.bind_map, precision?]
  congr 1
  funext t
  simp only [Function.comp_apply, positive?, unsigned?_upperAscii]

@[simp] theorem scale?_upperAscii : q.upperAscii.scale? = q.scale? := by
  rw [scale?, parts_upperAscii, List.getElem?_map, Option.bind_map, scale?]
  congr 1
  funext t
  exact unsigned?_upperAscii t

end

end Qualifier

namespace ColumnType

section
variable (name : Text)

theorem plainName_upperAscii : plainName (Text.upperAscii name) = plainName name := by
  rw [plainName, Text.collapsed_upperAscii, Text.lower_upperAscii, plainName]

theorem isSerial_upperAscii : isSerial (Text.upperAscii name) = isSerial name := by
  rw [isSerial, plainName_upperAscii, isSerial]

theorem isEnumeration_upperAscii : isEnumeration (Text.upperAscii name) = isEnumeration name := by
  rw [isEnumeration, plainName_upperAscii, isEnumeration]

theorem isRecognized_upperAscii : isRecognized (Text.upperAscii name) = isRecognized name := by
  rw [isRecognized, ofSource?, plainName_upperAscii, isRecognized, ofSource?]

end

private theorem plainName_lowerAscii (t : Text) : plainName (Text.lowerAscii t) = plainName t := by
  rw [plainName, Text.collapsed_lowerAscii, Text.lower_lowerAscii, plainName]

theorem plainName_append (t : Text) {u v : Text} (h : Text.same u v = true) :
    plainName (u ++ t) = plainName (v ++ t) := by
  have hsame : Text.lowerAscii u = Text.lowerAscii v := by simpa [Text.same] using h
  rw [← plainName_lowerAscii, ← plainName_lowerAscii (v ++ t), Text.lowerAscii, List.map_append,
    ← Text.lowerAscii, hsame, Text.lowerAscii, Text.lowerAscii, ← List.map_append]

theorem ofSource?_append {u v : Text} (h : Text.same u v = true) (t length : Text)
    (values : List Text) : ofSource? (u ++ t) length values = ofSource? (v ++ t) length values := by
  rw [ofSource?, plainName_append t h, ofSource?]

theorem isRecognized_of_same {u v : Text} (h : Text.same u v = true) :
    isRecognized u = isRecognized v := by
  have hsource := ofSource?_append h [] [] []
  rw [List.append_nil, List.append_nil] at hsource
  rw [isRecognized, hsource, isRecognized]

/-- The type with the values of an enumeration in capitals. -/
def upperAscii : ColumnType → ColumnType
  | enumeration values => enumeration (values.map Text.upperAscii)
  | set values => set (values.map Text.upperAscii)
  | type => type

private theorem upperAscii_of_mem_vocabulary :
    ∀ e ∈ vocabulary, ∀ q : Qualifier, e.2 q.upperAscii = (e.2 q).upperAscii := by
  simp only [vocabulary, List.forall_mem_cons, upperAscii]
  simp

theorem ofSource?_upperAscii (name length : Text) (values : List Text) :
    ofSource? (Text.upperAscii name) (Text.upperAscii length) (values.map Text.upperAscii) =
      (ofSource? name length values).map upperAscii := by
  rw [ofSource?, plainName_upperAscii, Text.trim_upperAscii, ofSource?, Option.map_map]
  refine Option.map_congr fun e he => ?_
  exact upperAscii_of_mem_vocabulary e (List.mem_of_find?_eq_some he) ⟨Text.trim length, values⟩

end ColumnType

end TableDialects
