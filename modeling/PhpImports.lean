import PhpImports.Main
import PhpImports.Proofs.Cursor.Lexing
import PhpImports.Proofs.Import.Composition
import PhpImports.Proofs.Import.DoubleSeparator
import PhpImports.Proofs.Import.Parts
import PhpImports.Proofs.Import.Rooted
import PhpImports.Proofs.Lexeme.Comment
import PhpImports.Proofs.Printed.Report
import PhpImports.Source.Tree
import PhpImports.Proofs.Lexeme.Quoted
import PhpImports.Proofs.Lexeme.Grammar
import PhpImports.Proofs.Lexeme.OpenTag
import PhpImports.Proofs.Lexeme.Row
import PhpImports.Proofs.Lexeme.LookAlike
import PhpImports.Proofs.Lexeme.LookAhead
import PhpImports.Proofs.Import.Gist
import PhpImports.Proofs.Lexeme.Cover
import PhpImports.Proofs.Import.Replacement
import PhpImports.Proofs.Lexeme.Heredoc
import PhpImports.Proofs.Lexeme.LineEnding
import PhpImports.Proofs.Import.LineEnding
import PhpImports.Proofs.Lexeme.Append
import PhpImports.Proofs.Lexeme.Composition
import PhpImports.Proofs.Lexeme.Naming
import PhpImports.Proofs.Lexeme.Enclosure
import PhpImports.Proofs.Lexeme.HeredocGrammar
import PhpImports.Proofs.Import.Warning
import PhpImports.Proofs.Lexeme.Fault
import PhpImports.Proofs.Text.Skeleton
import PhpImports.Proofs.Lexeme.Skeleton
import PhpImports.Proofs.Import.Skeleton
import PhpImports.Proofs.Text.Decode
import PhpImports.Proofs.Import.Pointing
import PhpImports.Proofs.Import.Closure
import PhpImports.Proofs.Command.Outcome
import PhpImports.Proofs.Import.Verdict
import PhpImports.Proofs.Token.Quoted
import PhpImports.Proofs.Token.Heredoc
import PhpImports.Proofs.Token.Comment
import PhpImports.Proofs.Import.Growth
import PhpImports.Proofs.Import.Unterminated
import PhpImports.Proofs.Lexeme.Outside
import PhpImports.Proofs.Token.Outside
import PhpImports.Proofs.Token.ShortTag
import PhpImports.Proofs.Report.LineEnding
import PhpImports.Proofs.Cursor.LineTable
import PhpImports.Proofs.Diagnostic.Render
import PhpImports.Proofs.Command.Uses
import PhpImports.Proofs.Command.Tokens
import PhpImports.Proofs.Report.File
