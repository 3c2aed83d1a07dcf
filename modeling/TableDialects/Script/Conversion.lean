import TableDialects.Report
import TableDialects.Script.Preparation
import TableDialects.Table.Rendering

/-!
# Converting scripts

Every table of a script is read and rendered in another dialect.
-/
namespace TableDialects.Script

/-- The report on a script once it is prepared. -/
def report (script : Text) : Report := Report.ofScript (prepare script)

/-- The tables of a script as definitions in the given dialect. -/
def convert (d : Dialect) (l : Layout) (script : Text) : Text :=
  Table.renderAll d l (report script).tables

/-- The script in the usual layout, in a dialect given by name. -/
def convertTo (dialect : Text) (script : Text) : Except Problem Text := do
  return convert (← Dialect.ofName dialect) {} script

end TableDialects.Script
