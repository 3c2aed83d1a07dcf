import TableDialects.Proofs.Script.Fragment

/-!
# Tables of prepared statements

The name of a table and the names and types of its columns come from its header and its fragments
one by one, so preparation keeps them where it keeps each of these.
-/
namespace TableDialects

namespace Table

/-- The name, and each column by its name and its type. -/
def shape (t : Table) : Text × List (Text × Option ColumnType) :=
  (t.name, t.columns.map Column.shape)

private theorem map_shape_modifyFirst (p : Column → Bool) {f : Column → Column} (hf : Marks f)
    (cs : List Column) : (modifyFirst p f cs).map Column.shape = cs.map Column.shape := by
  induction cs with
  | nil => rfl
  | cons c cs ih =>
    rw [modifyFirst]
    split
    · obtain ⟨k, hk⟩ := hf c
      rw [List.map_cons, hk]
      rfl
    · simp [ih]

private theorem shape_markKey (t : Table) (n : Text) : (t.markKey n).shape = t.shape :=
  congrArg (Prod.mk t.name) (map_shape_modifyFirst _ marks_key t.columns)

private theorem shape_foldl_markKey (names : List Text) (t : Table) :
    (names.foldl markKey t).shape = t.shape := by
  induction names generalizing t with
  | nil => rfl
  | cons n ns ih => exact (ih (t.markKey n)).trans (shape_markKey t n)

private theorem shape_addConstraint (t : Table) (f : Fragment) :
    (t.addConstraint f).shape = t.shape := by
  cases f with
  | primaryKey names =>
    simp only [addConstraint]
    split
    all_goals exact shape_foldl_markKey _ t
  | uniqueKey names => exact shape_foldl_markKey names t
  | _ => rfl

private theorem shape_foldl_addConstraint (fs : List Fragment) (t : Table) :
    (fs.foldl addConstraint t).shape = t.shape := by
  induction fs generalizing t with
  | nil => rfl
  | cons f fs ih => exact (ih (t.addConstraint f)).trans (shape_addConstraint t f)

private theorem shape_addInlineKey (names : List Text) (t : Table) :
    (addInlineKey names t).shape = t.shape := by
  unfold addInlineKey
  split <;> rfl

private theorem shape_addCountingKey (t : Table) : (addCountingKey t).shape = t.shape := by
  unfold addCountingKey
  split
  · split
    · exact congrArg (Prod.mk t.name) (map_shape_modifyFirst _ marks_key t.columns)
    · rfl
  · rfl

private theorem shape_requireKeys (t : Table) : (requireKeys t).shape = t.shape := by
  simp only [requireKeys, shape, List.map_map]
  rfl

/-- The names and types of columns. Of two with one name the first counts. -/
def distinctShapes (known : List Text) :
    List (Text × Option ColumnType) → List (Text × Option ColumnType)
  | [] => []
  | s :: ss =>
    if known.any (Text.same · s.1) then distinctShapes known ss
    else s :: distinctShapes (known ++ [s.1]) ss

private theorem map_shape_columnsOf (known : List Column) (fs : List Fragment) :
    (columnsOf known fs).map (·.1.shape) =
      distinctShapes (known.map (·.name)) (fs.filterMap Fragment.shape?) := by
  induction fs generalizing known with
  | nil => rfl
  | cons f fs ih =>
    cases f with
    | column c p =>
      have hknown : hasColumn known c.name = (known.map (·.name)).any (Text.same · c.shape.1) := by
        rw [List.any_map]
        rfl
      have hshape : Fragment.shape? (.column c p) = some c.shape := rfl
      rw [columnsOf, List.filterMap_cons_some hshape, distinctShapes, hknown]
      split
      · exact ih known
      · rw [List.map_cons, ih, List.map_append]
        rfl
    | _ => exact ih known

/-- The name and the columns that fragments with these names and types make. -/
theorem shape_assemble (name : Text) (fs : List Fragment) :
    (assemble name fs).toOption.map shape =
      (some (name, distinctShapes [] (fs.filterMap Fragment.shape?))).filter (!·.2.isEmpty) := by
  have hcolumns := map_shape_columnsOf [] fs
  rw [List.map_nil] at hcolumns
  rw [← hcolumns, assemble]
  cases hempty : (columnsOf [] fs).isEmpty with
  | true =>
    rw [List.isEmpty_iff] at hempty
    simp [hempty, Except.toOption, Option.filter_some]
  | false =>
    simp only [Bool.false_eq_true, if_false, Except.toOption, Option.map_some, shape_requireKeys,
      shape_addCountingKey, shape_addInlineKey, shape_foldl_addConstraint, Option.filter_some,
      List.isEmpty_map, hempty, Bool.not_false, if_true]
    rw [shape, List.map_map]
    rfl

end Table

namespace Table

private theorem isPrefix_head_pieces (depth : Nat) (ls : List Lexeme) :
    (∀ p ∈ (pieces depth ls).head?, p <+: ls) ∧ ∀ p ∈ pieces depth ls, p <:+: ls := by
  induction ls generalizing depth with
  | nil => simp [pieces]
  | cons l t ih =>
    by_cases hc : l.token = .comma ∧ depth = 0
    · rw [pieces, if_pos hc]
      refine ⟨by simp, fun p hp => ?_⟩
      rcases List.mem_cons.1 hp with rfl | hp
      · exact List.nil_infix
      · exact List.infix_cons ((ih depth).2 p hp)
    · obtain ⟨p, ps, he⟩ := List.exists_cons_of_ne_nil
        (pieces_ne_nil (Lexeme.depthBehind depth l.token) t)
      obtain ⟨hhead, hall⟩ := ih (Lexeme.depthBehind depth l.token)
      rw [he] at hhead hall
      rw [pieces_cons hc he]
      have hfirst : l :: p <+: l :: t := List.cons_prefix_cons.2 ⟨rfl, hhead p rfl⟩
      refine ⟨fun q hq => ?_, fun q hq => ?_⟩
      · obtain rfl : l :: p = q := by simpa using hq
        exact hfirst
      · rcases List.mem_cons.1 hq with rfl | hq
        · exact hfirst.isInfix
        · exact List.infix_cons (hall q (List.mem_cons_of_mem p hq))

theorem infix_of_mem_fragments {f ls : List Lexeme} (h : f ∈ fragments ls) : f <:+: ls :=
  (isPrefix_head_pieces 0 ls).2 f (List.mem_of_mem_filter h)

end Table

namespace Lexeme

section
variable {ls ls' : List Lexeme}

theorem groupInner_infix (ls : List Lexeme) : groupInner ls <:+: ls := by
  have htake : (ls.take (groupLength ls)).tail <:+: ls :=
    (List.tail_suffix _).isInfix.trans (List.take_prefix _ _).isInfix
  unfold groupInner
  dsimp only
  split
  · exact (List.dropLast_prefix _).isInfix.trans htake
  · exact htake

/-- What is placed within a list is placed within its parts. -/
theorem Placed.of_infix {us : List Lexeme} (h : Placed ls) (hus : us <:+: ls) : Placed us := by
  intro l t hl
  obtain ⟨a, b, rfl⟩ := hus
  obtain ⟨htype, hcollation, hfollowing⟩ := h l (t ++ b) (by
    obtain ⟨c, rfl⟩ := hl
    exact ⟨a ++ c, by simp⟩)
  refine ⟨fun ht => htype (beginsType_append ht b),
    fun hc => hcollation (beginsCollation_append hc b), fun hc m hm => ?_⟩
  obtain ⟨x, y, z, w, v, he⟩ := exists_of_beginsCollation hc
  obtain ⟨rfl, rfl⟩ := List.cons.inj he
  refine hfollowing (beginsCollation_append hc b) m ?_
  cases v with
  | nil => simp at hm
  | cons n v => simpa using hm

/-- The conditions under which preparation keeps the names and types of the table that a
statement defines, if it defines one. -/
structure Stable (ls : List Lexeme) : Prop where
  placed : Placed ls
  ends : ∀ p ∈ Table.header? ls, EndsPlain p.2
  fragments : ∀ p ∈ Table.header? ls, ∀ f ∈ Table.fragments (groupInner p.2), Settled f

instance (ls : List Lexeme) : Decidable (Stable ls) :=
  decidable_of_iff
    (Placed ls ∧ (∀ p ∈ Table.header? ls, EndsPlain p.2) ∧
      ∀ p ∈ Table.header? ls, ∀ f ∈ Table.fragments (groupInner p.2), Settled f)
    ⟨fun ⟨hp, he, hf⟩ => ⟨hp, he, hf⟩, fun ⟨hp, he, hf⟩ => ⟨hp, he, hf⟩⟩

private theorem Rewritten.map_shape?_fragments {fs fs' : List (List Lexeme)}
    (h : List.Forall₂ (Prepared Steady) fs fs') (hp : ∀ f ∈ fs, Placed f) (hs : ∀ f ∈ fs, Settled f) :
    (fs'.map fun f => (Fragment.read f).shape?) = fs.map fun f => (Fragment.read f).shape? := by
  induction h with
  | nil => rfl
  | @cons f f' fs fs' hf _ ih =>
    rw [List.map_cons, List.map_cons,
      hf.shape?_read (hp f List.mem_cons_self) (hs f List.mem_cons_self),
      ih (fun g hg => hp g (List.mem_cons_of_mem f hg))
        fun g hg => hs g (List.mem_cons_of_mem f hg)]

end

end Lexeme

namespace Table

/-- The name and the columns of the table that a statement defines, from its lexemes. -/
def shapeOf? (ls : List Lexeme) : Option (Text × List (Text × Option ColumnType)) := do
  let (name, rest) ← header? ls
  (some (name, distinctShapes [] ((fragments (Lexeme.groupInner rest)).filterMap fun f =>
    (Fragment.read f).shape?))).filter (!·.2.isEmpty)

theorem shape_read (statement : Text) :
    (read statement).result.toOption.map shape = shapeOf? (tokenize statement) := by
  rw [read, shapeOf?]
  cases header? (tokenize statement) with
  | none => rfl
  | some p =>
    simp only [Option.bind_eq_bind, Option.bind_some]
    rw [shape_assemble, List.filterMap_filterMap, readings, List.filterMap_map]
    rfl

/-- Preparation keeps the name of a table and the names and types of its columns. -/
theorem shapeOf?_prepared {ls ls' : List Lexeme} (h : Lexeme.Prepared Lexeme.Steady ls ls')
    (hs : Lexeme.Stable ls) : shapeOf? ls' = shapeOf? ls := by
  have hheader := h.sameHeader hs.placed
  rw [shapeOf?, shapeOf?]
  generalize he : header? ls = p, header? ls' = q at hheader
  cases hheader with
  | none => rfl
  | @some p q hr =>
    obtain ⟨name, rest⟩ := p
    obtain ⟨name', rest'⟩ := q
    obtain ⟨hname, hrest, hplaced⟩ := hr
    obtain rfl : name' = name := hname
    obtain ⟨l, t, rfl, hl⟩ := Position.exists_of_header? he
    obtain ⟨l', t', rfl, hl', ht⟩ := hrest.cons_of_not_phrase
      (Lexeme.beginsPhrase_of_foreign (Lexeme.foreign_beq (k := .openParen) rfl) (by simp [hl]) t)
    have hends : Lexeme.EndsPlain t := (hs.ends _ he).of_append (u := [l])
    have hinner := ht.groupInner hl (hl'.token.trans hl) hends
    have hfragments := Lexeme.Rewritten.map_shape?_fragments
      (hinner.fragments fun f hf => (hs.fragments _ he f hf).first)
      (fun f hf => hplaced.of_infix
        ((infix_of_mem_fragments hf).trans (Lexeme.groupInner_infix _))) (hs.fragments _ he)
    have hshapes : ∀ fs : List (List Lexeme), (fs.filterMap fun f => (Fragment.read f).shape?) =
        (fs.map fun f => (Fragment.read f).shape?).filterMap id := fun fs => by
      rw [List.filterMap_map]
      rfl
    simp only [Option.bind_eq_bind, Option.bind_some]
    rw [hshapes, hshapes, hfragments]

end Table

end TableDialects
