import PhpImports.Span

/-!
# Diagnostics

Nothing here fails: what cannot be read is reported. A diagnostic carries its cause as a value, and
the wording is one function of the cause.
-/

namespace PhpImports

inductive Severity where
  | error
  | warning
deriving DecidableEq, Repr, Inhabited

inductive Cause where
  | unterminatedBlockComment
  | unterminatedString
  | unterminatedHeredoc (label : Text)
  | unexpectedChar (c : Char)
  | unterminatedUse
  | nestedGroup
  | emptyAlias (name : Text)
  | trailingSeparator (name : Text)
  | duplicateAlias (name : Text)
deriving DecidableEq, Repr, Inhabited

namespace Cause

def message : Cause → Text
  | .unterminatedBlockComment => "Unterminated block comment".toList
  | .unterminatedString => "Unterminated string literal".toList
  | .unterminatedHeredoc label =>
    "Unterminated heredoc; missing closing marker '".toList ++ label ++ "'".toList
  | .unexpectedChar c => "Unexpected character: ".toList ++ [c]
  | .unterminatedUse => "Use statement is not terminated by ';'".toList
  | .nestedGroup => "Nested group imports are not supported; result may be wrong".toList
  | .emptyAlias name =>
    "Import '".toList ++ name ++ "' has no alias and was skipped".toList
  | .trailingSeparator name =>
    "Import '".toList ++ name ++ "' ends with a namespace separator and was skipped".toList
  | .duplicateAlias name =>
    "Alias '".toList ++ name ++ "' is imported more than once; the last one wins".toList

/-- What the text holds and no token can be is an error; what a statement holds and no import can be
is a warning. -/
def severity : Cause → Severity
  | .unterminatedBlockComment | .unterminatedString | .unterminatedHeredoc _
  | .unexpectedChar _ => .error
  | .unterminatedUse | .nestedGroup | .emptyAlias _ | .trailingSeparator _
  | .duplicateAlias _ => .warning

/-- An open block comment is the one cause that has no code. -/
def code? : Cause → Option Text
  | .unterminatedBlockComment => none
  | .unexpectedChar _ => some "E0001".toList
  | .unterminatedString | .unterminatedHeredoc _ => some "E0002".toList
  | .unterminatedUse => some "W0001".toList
  | .nestedGroup => some "W0002".toList
  | .emptyAlias _ => some "W0003".toList
  | .duplicateAlias _ => some "W0004".toList
  | .trailingSeparator _ => some "W0005".toList

end Cause

/-- A remark on another place of the text. -/
structure Note where
  message : Text
  span : Span
deriving DecidableEq, Repr, Inhabited

structure Diagnostic where
  severity : Severity
  cause : Cause
  code : Option Text := none
  span : Option Span := none
  notes : List Note := []
  help : Option Text := none
deriving DecidableEq, Repr, Inhabited

namespace Diagnostic

def message (d : Diagnostic) : Text :=
  d.cause.message

def isError (d : Diagnostic) : Bool :=
  d.severity = .error

end Diagnostic

/-- The diagnostic of a cause at a span, with the severity and the code that go with the cause. -/
def Cause.report (c : Cause) (span : Span) : Diagnostic :=
  { severity := c.severity, cause := c, code := c.code?, span := some span }

end PhpImports
