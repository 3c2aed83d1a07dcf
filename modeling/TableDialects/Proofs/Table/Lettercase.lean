import TableDialects.Proofs.Column.Lettercase
import TableDialects.Proofs.Position.Statement
import TableDialects.Proofs.Table.WellFormed

/-!
# Definitions in capitals

A statement in capitals defines the same table, in capitals: the same columns and keys of the same
types, or the same problem. So no keyword is known in one case only.
-/
namespace TableDialects

open Lexeme

namespace Fragment

/-- The fragment with its names and its column in capitals. -/
def upperAscii : Fragment → Fragment
  | column c inlinePrimary => column c.upperAscii inlinePrimary
  | primaryKey names => primaryKey (names.map Text.upperAscii)
  | uniqueKey names => uniqueKey (names.map Text.upperAscii)
  | ignored => ignored

/-- The reading with all its texts in capitals. -/
def Reading.upperAscii (r : Reading) : Reading where
  result := (r.result.map Fragment.upperAscii).mapError Problem.upperAscii
  problems := r.problems.map Problem.upperAscii

/-- The word at the start, if there is one. -/
theorem firstWord_upperAscii (ls : List Lexeme) :
    ((ls.map Lexeme.upperAscii).head?.bind (·.token.word?)).getD [] =
      Text.upperAscii ((ls.head?.bind (·.token.word?)).getD []) := by
  cases ls with
  | nil => rfl
  | cons l ls =>
    obtain ⟨g, u, k⟩ := l
    cases k <;> rfl

private theorem typeName?_upperAscii (ls : List Lexeme) :
    typeName? (ls.map Lexeme.upperAscii) =
      (typeName? ls).map fun p => (Text.upperAscii p.1, p.2.map Lexeme.upperAscii) := by
  cases ls with
  | nil => rfl
  | cons l ls =>
    rw [List.map_cons, typeName?_cons, typeName?_cons, token_upperAscii, Token.word?_upperAscii,
      Option.map_map, Option.map_map]
    congr 1
    funext first
    simp only [Function.comp_apply, Text.same_upperAscii_left, nextIs_upperAscii]
    split
    · rw [firstWord_upperAscii, ← List.map_drop, Text.upperAscii_append]
      rfl
    · rfl

private theorem isNamedIndex_upperAscii (ls : List Lexeme) :
    isNamedIndex (ls.map Lexeme.upperAscii) = isNamedIndex ls := by
  cases ls with
  | nil => rfl
  | cons first rest =>
    have hat : ∀ i : Nat, (rest.map Lexeme.upperAscii)[i]?.map (·.token) =
        (rest[i]?.map (·.token)).map Token.upperAscii := by
      intro i
      rw [List.getElem?_map, Option.map_map, Option.map_map]
      rfl
    have hkeyword : ∀ o : Option Token, (o.map Token.upperAscii).any (·.isOneOf constraintKeywords) =
        o.any (·.isOneOf constraintKeywords) := by
      rintro (_ | k) <;> simp
    have hname : ∀ o : Option Token, (o.map Token.upperAscii).any (·.name?.isSome) =
        o.any (·.name?.isSome) := by
      rintro (_ | k) <;> simp
    have hword : ∀ o : Option Token, (o.map Token.upperAscii).any (·.word?.isSome) =
        o.any (·.word?.isSome) := by
      rintro (_ | k) <;> simp
    have hopen : ∀ o : Option Token, (o.map Token.upperAscii == some .openParen) =
        (o == some .openParen) := by
      rintro (_ | k)
      · rfl
      · rw [Bool.eq_iff_iff]
        simp
    have htick : (first.upperAscii.text.head? != some '\x60') = (first.text.head? != some '\x60') :=
      congrArg not (DefaultValue.head?_eq_quote first.text (q := '\x60') rfl)
    simp only [List.map_cons, isNamedIndex, hat, hkeyword, hname, hword, hopen, htick,
      token_upperAscii, Token.isWord_upperAscii, Token.isOneOf_upperAscii]

private theorem entryNames_upperAscii (depth : Nat) (expecting : Bool) (ts : List Token) :
    entryNames depth expecting (ts.map Token.upperAscii) =
      (entryNames depth expecting ts).map Text.upperAscii := by
  induction ts generalizing depth expecting with
  | nil => rfl
  | cons t ts ih =>
    have hskip : ∀ {t : Token}, t ≠ .openParen → t ≠ .closeParen → ∀ us,
        entryNames depth expecting (t :: us) = if depth ≠ 0 then entryNames depth expecting us
          else if t = .comma then entryNames depth true us
          else if expecting then t.name?.toList ++ entryNames depth false us
          else entryNames depth expecting us := by
      intro t ho hc us
      rw [entryNames]
      · exact ho
      · exact hc
    by_cases ho : t = .openParen
    · subst ho
      exact ih (depth + 1) expecting
    · by_cases hc : t = .closeParen
      · subst hc
        exact ih (depth - 1) expecting
      · rw [List.map_cons, hskip ho hc, hskip (by simpa using ho) (by simpa using hc)]
        simp only [ih, Token.upperAscii_eq_comma, Token.name?_upperAscii]
        split
        · rfl
        · split
          · rfl
          · split
            · rw [List.map_append]
              cases t.name? <;> rfl
            · rfl

private theorem columnNames_upperAscii (ls : List Lexeme) :
    columnNames (ls.map Lexeme.upperAscii) = (columnNames ls).map Text.upperAscii := by
  have hopen : ∀ l : Lexeme, (l.upperAscii.token != .openParen) = (l.token != .openParen) := by
    intro l
    rw [Bool.eq_iff_iff]
    simp
  rw [columnNames, dropWhile_upperAscii hopen, groupInner_upperAscii, map_token_upperAscii,
    entryNames_upperAscii, columnNames]

private theorem afterKey?_upperAscii (keyword : String) (ls : List Lexeme) :
    afterKey? keyword (ls.map Lexeme.upperAscii) =
      (afterKey? keyword ls).map (List.map Lexeme.upperAscii) := by
  induction ls with
  | nil => rfl
  | cons l ls ih =>
    rw [List.map_cons, afterKey?, afterKey?, token_upperAscii, Token.isWord_upperAscii,
      nextIs_upperAscii, ih, ← List.map_drop, apply_ite (Option.map (List.map Lexeme.upperAscii))]
    rfl

private theorem ofConstraint_upperAscii (ls : List Lexeme) :
    ofConstraint (ls.map Lexeme.upperAscii) = (ofConstraint ls).upperAscii := by
  rw [ofConstraint, ofConstraint, afterKey?_upperAscii, afterKey?_upperAscii]
  cases afterKey? "PRIMARY" ls with
  | some rest => exact congrArg primaryKey (columnNames_upperAscii rest)
  | none =>
    cases afterKey? "UNIQUE" ls with
    | some rest => exact congrArg uniqueKey (columnNames_upperAscii rest)
    | none => rfl

private theorem upperAscii_upperAscii (f : Fragment) : f.upperAscii.upperAscii = f.upperAscii := by
  cases f <;>
    simp [upperAscii, Column.upperAscii_upperAscii, Text.upperAscii_upperAscii, Function.comp_def]

private theorem Reading.upperAscii_upperAscii (r : Reading) :
    r.upperAscii.upperAscii = r.upperAscii := by
  obtain ⟨result, problems⟩ := r
  cases result <;> simp [upperAscii, Except.map, Except.mapError, Function.comp_def,
    Fragment.upperAscii_upperAscii, Problem.upperAscii_upperAscii]

private theorem readNamed_upperAscii (first : Lexeme) (name : Text) (rest : List Lexeme) :
    (readNamed first.upperAscii (Text.upperAscii name) (rest.map Lexeme.upperAscii)).upperAscii =
      (readNamed first name rest).upperAscii := by
  have hknown : (typeName? (rest.map Lexeme.upperAscii)).filter (ColumnType.isRecognized ·.1) =
      ((typeName? rest).filter (ColumnType.isRecognized ·.1)).map fun p =>
        (Text.upperAscii p.1, p.2.map Lexeme.upperAscii) := by
    rw [typeName?_upperAscii, Option.filter_map]
    simp only [Function.comp_def, ColumnType.isRecognized_upperAscii]
  rw [readNamed, hknown, readNamed]
  cases (typeName? rest).filter (ColumnType.isRecognized ·.1) with
  | some p =>
    let reading : Draft → Reading := fun d =>
      { result := .ok (.column d.column d.inlinePrimary), problems := d.problems }
    have hreading : ∀ d : Draft, (reading d).upperAscii = reading d.upperAscii := fun d => rfl
    have hread := congrArg reading (Column.read_upperAscii name p.1 p.2)
    rw [← hreading, ← hreading] at hread
    exact hread
  | none =>
    have hconstraint := ofConstraint_upperAscii (first :: rest)
    rw [List.map_cons] at hconstraint
    simp only [Option.map_none, token_upperAscii, Token.isOneOf_upperAscii, firstWord_upperAscii,
      hconstraint]
    split
    · exact Reading.upperAscii_upperAscii { result := .ok (ofConstraint (first :: rest)) }
    · exact Reading.upperAscii_upperAscii { result := .error (.unrecognizedType name _) }

private theorem read_upperAscii (ls : List Lexeme) :
    (read (ls.map Lexeme.upperAscii)).upperAscii = (read ls).upperAscii := by
  cases ls with
  | nil => rfl
  | cons first rest =>
    have hnamed := isNamedIndex_upperAscii (first :: rest)
    have hconstraint := ofConstraint_upperAscii (first :: rest)
    rw [List.map_cons] at hnamed hconstraint ⊢
    rw [read, read, token_upperAscii, Token.name?_upperAscii]
    cases first.token.name? with
    | none => rfl
    | some name =>
      simp only [Option.map_some, hnamed, hconstraint]
      split
      · exact Reading.upperAscii_upperAscii { result := .ok (ofConstraint (first :: rest)) }
      · exact readNamed_upperAscii first name rest

end Fragment

namespace Table

private theorem nameParts?_upperAscii (ls : List Lexeme) :
    nameParts? (ls.map Lexeme.upperAscii) = (nameParts? ls).map fun p =>
      (p.1.map Text.upperAscii, p.2.map Lexeme.upperAscii) := by
  induction hn : ls.length using Nat.strongRecOn generalizing ls with
  | ind n ih =>
    by_cases hpoint : ls.head?.map (·.token) = some (.punct '.')
    · obtain ⟨l, hl, htoken⟩ := Option.map_eq_some_iff.1 hpoint
      obtain ⟨rest, rfl⟩ := List.head?_eq_some_iff.1 hl
      obtain ⟨g, u, k⟩ := l
      obtain rfl : k = .punct '.' := htoken
      cases rest with
      | nil => rfl
      | cons part rest =>
        have hrest := ih rest.length (by simp at hn; omega) rest rfl
        have hcons : (⟨g, u, .punct '.'⟩ :: part :: rest).map Lexeme.upperAscii =
            ⟨Text.upperAscii g, Text.upperAscii u, .punct '.'⟩ :: part.upperAscii ::
              rest.map Lexeme.upperAscii := rfl
        rw [hcons, nameParts?, nameParts?, hrest, token_upperAscii, Token.name?_upperAscii]
        cases part.token.name? with
        | none => rfl
        | some name => cases nameParts? rest <;> rfl
    · have hpoint' : (ls.map Lexeme.upperAscii).head?.map (·.token) ≠ some (.punct '.') := by
        cases ls with
        | nil => simp
        | cons l rest => simpa using hpoint
      rw [Position.nameParts?_of_not_point hpoint, Position.nameParts?_of_not_point hpoint']
      rfl

private theorem nameBefore?_upperAscii (ls : List Lexeme) :
    Position.nameBefore? (ls.map Lexeme.upperAscii) = (Position.nameBefore? ls).map fun p =>
      (Text.upperAscii p.1, p.2.map Lexeme.upperAscii) := by
  have hfirst : (ls.map Lexeme.upperAscii).head?.bind (·.token.name?) =
      (ls.head?.bind (·.token.name?)).map Text.upperAscii := by
    rw [List.head?_map]
    cases ls.head? <;> simp
  rw [Position.nameBefore?, hfirst, ← List.map_drop, nameParts?_upperAscii, Position.nameBefore?]
  cases ls.head?.bind (·.token.name?) with
  | none => rfl
  | some first =>
    cases nameParts? (ls.drop 1) with
    | none => rfl
    | some p =>
      have hjoin : Text.join "." (Text.upperAscii first :: p.1.map Text.upperAscii) =
          Text.upperAscii (Text.join "." (first :: p.1)) :=
        Text.join_map (f := Char.toUpper) rfl (first :: p.1)
      have hopen : (p.2.map Lexeme.upperAscii).head?.map (·.token) = some .openParen ↔
          p.2.head?.map (·.token) = some .openParen := by
        rw [List.head?_map]
        cases p.2.head? <;> simp
      simp only [Option.map_some, Option.bind_some, hopen, hjoin, apply_ite (Option.map _)]
      rfl

private theorem headerAfterCreate?_upperAscii (ls : List Lexeme) :
    headerAfterCreate? (ls.map Lexeme.upperAscii) = (headerAfterCreate? ls).map fun p =>
      (Text.upperAscii p.1, p.2.map Lexeme.upperAscii) := by
  have hdrop := dropWhile_upperAscii (p := (·.token.isOneOf
    ["TEMPORARY", "TEMP", "UNLOGGED", "GLOBAL", "LOCAL"])) (by simp) ls
  rw [Position.headerAfterCreate?_eq, Position.headerAfterCreate?_eq]
  simp only [hdrop, nextIs_upperAscii, ← List.map_drop, nameBefore?_upperAscii,
    apply_ite (Option.map _)]
  rfl

private theorem header?_upperAscii (ls : List Lexeme) :
    header? (ls.map Lexeme.upperAscii) = (header? ls).map fun p =>
      (Text.upperAscii p.1, p.2.map Lexeme.upperAscii) := by
  induction ls with
  | nil => rfl
  | cons l ls ih =>
    rw [List.map_cons, header?, header?, token_upperAscii, Token.isWord_upperAscii, ih,
      headerAfterCreate?_upperAscii, ← Option.map_or, apply_ite (Option.map _)]

private theorem pieces_upperAscii (depth : Nat) (ls : List Lexeme) :
    pieces depth (ls.map Lexeme.upperAscii) =
      (pieces depth ls).map (List.map Lexeme.upperAscii) := by
  induction ls generalizing depth with
  | nil => rfl
  | cons l ls ih =>
    rw [List.map_cons, pieces, pieces, token_upperAscii]
    simp only [Token.upperAscii_eq_comma]
    split
    · rw [ih, List.map_cons]
      rfl
    · obtain ⟨g, u, k⟩ := l
      cases k with
      | openParen =>
        simp only [Token.upperAscii, ih]
        cases pieces (depth + 1) ls <;> rfl
      | closeParen =>
        simp only [Token.upperAscii, ih]
        cases pieces (depth - 1) ls <;> rfl
      | _ =>
        simp only [Token.upperAscii, ih]
        cases pieces depth ls <;> rfl

private theorem fragments_upperAscii (body : List Lexeme) :
    fragments (body.map Lexeme.upperAscii) =
      (fragments body).map (List.map Lexeme.upperAscii) := by
  rw [fragments, pieces_upperAscii, List.filter_map, fragments]
  congr 1
  refine List.filter_congr fun p _ => ?_
  cases p <;> rfl

end Table

/-- The table with its names and columns in capitals. -/
def Table.upperAscii (t : Table) : Table where
  name := Text.upperAscii t.name
  columns := t.columns.map Column.upperAscii
  primaryKey := t.primaryKey.map Text.upperAscii
  compositeKey := t.compositeKey.map Text.upperAscii

/-- The outcome with all its texts in capitals. -/
def Table.Outcome.upperAscii (o : Outcome) : Outcome where
  result := (o.result.map Table.upperAscii).mapError Problem.upperAscii
  problems := o.problems.map Problem.upperAscii

theorem Column.isNamed_upperAscii (name : Text) (c : Column) :
    isNamed (Text.upperAscii name) c.upperAscii = isNamed name c := by
  rw [isNamed, upperAscii, Text.same_upperAscii_left, Text.same_upperAscii_right, isNamed]

namespace Table

private theorem hasColumn_upperAscii (columns : List Column) (name : Text) :
    hasColumn (columns.map Column.upperAscii) (Text.upperAscii name) = hasColumn columns name := by
  rw [hasColumn, List.any_map, hasColumn]
  congr 1
  funext c
  exact Column.isNamed_upperAscii name c

private theorem columnsOf_upperAscii (known : List Column) (fs : List Fragment) :
    columnsOf (known.map Column.upperAscii) (fs.map Fragment.upperAscii) =
      (columnsOf known fs).map fun p => (p.1.upperAscii, p.2) := by
  induction fs generalizing known with
  | nil => rfl
  | cons f fs ih =>
    cases f with
    | column c p =>
      have hknown : hasColumn (known.map Column.upperAscii) c.upperAscii.name =
          hasColumn known c.name := hasColumn_upperAscii known c.name
      rw [List.map_cons, Fragment.upperAscii, columnsOf, columnsOf, hknown]
      split
      · exact ih known
      · have hadded := ih (known ++ [c])
        rw [List.map_append] at hadded
        exact congrArg _ hadded
    | _ => exact ih known

private theorem modifyFirst_upperAscii {p q : Column → Bool} {f : Column → Column}
    (hp : ∀ c, q c.upperAscii = p c) (hf : ∀ c, f c.upperAscii = (f c).upperAscii)
    (cs : List Column) :
    modifyFirst q f (cs.map Column.upperAscii) = (modifyFirst p f cs).map Column.upperAscii := by
  induction cs with
  | nil => rfl
  | cons c cs ih =>
    rw [List.map_cons, modifyFirst, modifyFirst, hp, hf, ih]
    split <;> rfl

private theorem markKey_upperAscii (t : Table) (name : Text) :
    t.upperAscii.markKey (Text.upperAscii name) = (t.markKey name).upperAscii := by
  have hcolumns := modifyFirst_upperAscii (Column.isNamed_upperAscii name)
    (f := fun c => { c with key := true }) (fun _ => rfl) t.columns
  simp only [markKey, modify, upperAscii, hcolumns]

private theorem foldl_markKey_upperAscii (names : List Text) (t : Table) :
    (names.map Text.upperAscii).foldl markKey t.upperAscii = (names.foldl markKey t).upperAscii := by
  induction names generalizing t with
  | nil => rfl
  | cons n names ih => rw [List.map_cons, List.foldl_cons, markKey_upperAscii, ih, List.foldl_cons]

private theorem knownNames_upperAscii (t : Table) (names : List Text) :
    t.upperAscii.knownNames (names.map Text.upperAscii) =
      (t.knownNames names).map Text.upperAscii := by
  have hfind : ∀ n, t.upperAscii.find? (Text.upperAscii n) =
      (t.find? n).map Column.upperAscii := by
    intro n
    rw [find?, upperAscii, List.find?_map, find?]
    congr 2
    funext c
    exact Column.isNamed_upperAscii n c
  rw [knownNames, List.filterMap_map, knownNames, List.map_filterMap]
  congr 1
  funext n
  rw [Function.comp_apply, hfind, Option.map_map, Option.map_map]
  rfl

private theorem addConstraint_upperAscii (t : Table) (f : Fragment) :
    t.upperAscii.addConstraint f.upperAscii = (t.addConstraint f).upperAscii := by
  cases f with
  | primaryKey names =>
    have hmarked := foldl_markKey_upperAscii (t.knownNames names) t
    have hknown := knownNames_upperAscii t names
    rw [← hknown] at hmarked
    rcases names with _ | ⟨n, _ | ⟨m, ns⟩⟩
    · exact hmarked
    · have hhead : (t.upperAscii.knownNames ([n].map Text.upperAscii)).head? =
          (t.knownNames [n]).head?.map Text.upperAscii := by
        rw [hknown, List.head?_map]
      exact congrArg₂ (fun u key => { u with primaryKey := key }) hmarked hhead
    · exact congrArg₂ (fun u keys => { u with primaryKey := none, compositeKey := keys })
        hmarked hknown
  | uniqueKey names => exact foldl_markKey_upperAscii names t
  | _ => rfl

private theorem foldl_addConstraint_upperAscii (fs : List Fragment) (t : Table) :
    (fs.map Fragment.upperAscii).foldl addConstraint t.upperAscii =
      (fs.foldl addConstraint t).upperAscii := by
  induction fs generalizing t with
  | nil => rfl
  | cons f fs ih => rw [List.map_cons, List.foldl_cons, addConstraint_upperAscii, ih, List.foldl_cons]

private theorem addInlineKey_upperAscii (names : List Text) (t : Table) :
    addInlineKey (names.map Text.upperAscii) t.upperAscii =
      (addInlineKey names t).upperAscii := by
  simp only [addInlineKey, upperAscii, Option.isNone_map, List.isEmpty_map, List.head?_map]
  split <;> rfl

private theorem addCountingKey_upperAscii (t : Table) :
    addCountingKey t.upperAscii = (addCountingKey t).upperAscii := by
  have hkey : (t.columns.map Column.upperAscii).any (·.key) = t.columns.any (·.key) :=
    List.any_map
  have hfind : (t.columns.map Column.upperAscii).find? (·.autoIncrement) =
      (t.columns.find? (·.autoIncrement)).map Column.upperAscii := List.find?_map
  have hcolumns := modifyFirst_upperAscii (p := (·.autoIncrement)) (q := (·.autoIncrement))
    (fun _ => rfl) (f := fun c => { c with key := true }) (fun _ => rfl) t.columns
  simp only [addCountingKey, upperAscii, Option.isNone_map, hkey, hfind, hcolumns]
  split
  · cases t.columns.find? (·.autoIncrement) <;> rfl
  · rfl

private theorem requireKeys_upperAscii (t : Table) :
    requireKeys t.upperAscii = (requireKeys t).upperAscii := by
  simp only [requireKeys, upperAscii, List.map_map]
  rfl

private theorem assemble_upperAscii (name : Text) (fs : List Fragment) :
    assemble (Text.upperAscii name) (fs.map Fragment.upperAscii) =
      ((assemble name fs).map Table.upperAscii).mapError Problem.upperAscii := by
  have hcolumns := columnsOf_upperAscii [] fs
  rw [List.map_nil] at hcolumns
  rw [assemble, assemble, hcolumns]
  generalize columnsOf [] fs = cs
  let start : Table :=
    { name, columns := cs.map fun p => { p.1 with key := p.1.key || p.2 } }
  have hstart : start.upperAscii =
      { name := Text.upperAscii name
        columns := (cs.map fun p => (p.1.upperAscii, p.2)).map fun p =>
          { p.1 with key := p.1.key || p.2 } } := by
    simp only [start, upperAscii, List.map_map]
    rfl
  have hinline : ((cs.map fun p => (p.1.upperAscii, p.2)).filter (·.2)).map (·.1.name) =
      ((cs.filter (·.2)).map (·.1.name)).map Text.upperAscii := by
    rw [List.filter_map, List.map_map, List.map_map]
    rfl
  dsimp only
  rw [List.isEmpty_map, hinline, ← hstart, foldl_addConstraint_upperAscii, addInlineKey_upperAscii,
    addCountingKey_upperAscii, requireKeys_upperAscii]
  split <;> rfl

private theorem readings_upperAscii (body : List Lexeme) :
    (readings (body.map Lexeme.upperAscii)).map Fragment.Reading.upperAscii =
      (readings body).map Fragment.Reading.upperAscii := by
  rw [readings, fragments_upperAscii, List.map_map, List.map_map, readings, List.map_map]
  exact List.map_congr_left fun f _ => Fragment.read_upperAscii f

private theorem filterMap_result_upperAscii (rs : List Fragment.Reading) :
    (rs.map Fragment.Reading.upperAscii).filterMap (·.result.toOption) =
      (rs.filterMap (·.result.toOption)).map Fragment.upperAscii := by
  rw [List.filterMap_map, List.map_filterMap]
  refine List.filterMap_congr fun r _ => ?_
  obtain ⟨_ | f, problems⟩ := r <;> rfl

private theorem flatMap_problems_upperAscii (rs : List Fragment.Reading) :
    (rs.map Fragment.Reading.upperAscii).flatMap Reading.problems =
      (rs.flatMap Reading.problems).map Problem.upperAscii := by
  rw [List.flatMap_map, List.map_flatMap]
  refine List.flatMap_congr fun r _ => ?_
  obtain ⟨e | f, problems⟩ := r <;>
    simp [Reading.problems, Fragment.Reading.upperAscii, Except.map, Except.mapError]

theorem read_upperAscii (statement : Text) :
    (read (Text.upperAscii statement)).upperAscii = (read statement).upperAscii := by
  rw [read, tokenize_upperAscii, header?_upperAscii, read]
  cases header? (tokenize statement) with
  | none => rfl
  | some p =>
    have hreadings := readings_upperAscii (groupInner p.2)
    have hresult := congrArg (List.filterMap (·.result.toOption)) hreadings
    have hproblems := congrArg (List.flatMap Reading.problems) hreadings
    rw [filterMap_result_upperAscii, filterMap_result_upperAscii] at hresult
    rw [flatMap_problems_upperAscii, flatMap_problems_upperAscii] at hproblems
    simp only [Option.map_some, Outcome.upperAscii, groupInner_upperAscii, hproblems,
      ← assemble_upperAscii, hresult, Text.upperAscii_upperAscii]

end Table

end TableDialects
