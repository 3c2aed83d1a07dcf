import TableDialects.Main
import TableDialects.Proofs.Column.Clause
import TableDialects.Proofs.Column.ClauseOrder
import TableDialects.Proofs.Column.Legible
import TableDialects.Proofs.Column.Phrase
import TableDialects.Proofs.ColumnType.Phrase
import TableDialects.Proofs.ColumnType.Qualifier
import TableDialects.Proofs.DefaultValue.Event
import TableDialects.Proofs.DefaultValue.Phrase
import TableDialects.Proofs.Dialect.Literal
import TableDialects.Proofs.Dialect.Name
import TableDialects.Proofs.Dialect.StoredType
import TableDialects.Proofs.Statement.Comment
import TableDialects.Proofs.Statement.Groups
import TableDialects.Proofs.Statement.Inline
import TableDialects.Proofs.Statement.Scanning
import TableDialects.Proofs.Table.Assembly
import TableDialects.Proofs.Table.Body
import TableDialects.Proofs.Table.Faithful
import TableDialects.Proofs.Table.Keys
import TableDialects.Proofs.Table.Legible
import TableDialects.Proofs.Table.Rendering
import TableDialects.Proofs.Table.Splitting
import TableDialects.Proofs.Table.Stability
import TableDialects.Proofs.Table.WellFormed
import TableDialects.Proofs.Token.Phrase
import TableDialects.Proofs.Report.Outcomes
import TableDialects.Proofs.Statement.Joining
import TableDialects.Proofs.Statement.Rejoining
import TableDialects.Proofs.Text.Slice
import TableDialects.Proofs.Token.Span
import TableDialects.Proofs.Position.Lexer
import TableDialects.Proofs.Position.Expression
import TableDialects.Proofs.Position.Fragment
import TableDialects.Proofs.Position.Statement
import TableDialects.Proofs.Script.Body
import TableDialects.Proofs.Script.Column
import TableDialects.Proofs.Script.Fragment
import TableDialects.Proofs.Script.Replacement
import TableDialects.Proofs.Script.Table
import TableDialects.Proofs.Report.Accounting
import TableDialects.Proofs.Script.LineBreak
import TableDialects.Proofs.Script.Code
import TableDialects.Proofs.Script.Literal
import TableDialects.Proofs.Script.Statement
import TableDialects.Proofs.Script.Segment
import TableDialects.Proofs.Script.Shape
import TableDialects.Proofs.Table.PrimaryKey
import TableDialects.Proofs.Statement.Block
import TableDialects.Proofs.Token.Lettercase
import TableDialects.Proofs.Table.Unquoted
import TableDialects.Proofs.Json.Lossless
import TableDialects.Proofs.Command.Session
import TableDialects.Proofs.Column.QuotedDefault
import TableDialects.Proofs.Column.Update
import TableDialects.Proofs.Column.Reference
import TableDialects.Proofs.Table.IndexLine
import TableDialects.Proofs.Column.NumberRun
import TableDialects.Proofs.DefaultValue.Cast
import TableDialects.Proofs.DefaultValue.NormalForm
import TableDialects.Proofs.Table.Tail
import TableDialects.Proofs.Table.MappedType
import TableDialects.Proofs.Table.KeyLine
import TableDialects.Proofs.Text.Bytes
import TableDialects.Proofs.Script.ByteScan
import TableDialects.Proofs.Script.LiteralToken
import TableDialects.Proofs.Token.Balance
import TableDialects.Proofs.Token.Nesting
import TableDialects.Proofs.Table.Division
