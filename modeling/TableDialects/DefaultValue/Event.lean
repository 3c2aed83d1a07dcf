import TableDialects.Text.Blank

/-!
# Event clauses of a default value
-/
namespace TableDialects.DefaultValue

/-- The value before an `ON UPDATE` or `ON INSERT` clause, and the clause. A value that begins
with a quote has none. -/
def splitEvent (value : Text) : Text × Option Text :=
  if value.head? = some '\'' then (value, none)
  else
    let capitals := Text.upperAscii value
    match (Text.cutAt? " ON UPDATE " capitals).or (Text.cutAt? " ON INSERT " capitals) with
    | some p =>
      (Text.trimEnd (value.take p.1.length), some (Text.trimStart (value.drop p.1.length)))
    | none => (value, none)

end TableDialects.DefaultValue
