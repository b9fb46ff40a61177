import PhpImports.Span

/-!
# Tokens

A token is a kind and a span. A piece is a token with the characters it stands for: what reads
imports works on pieces and needs no source text.
-/

namespace PhpImports

inductive TokenKind where
  /-- Text outside code. -/
  | inlineHtml
  | openTag
  /-- The open tag that prints what follows it. -/
  | openTagWithEcho
  | closeTag
  | whitespace
  | comment
  | docComment
  /-- A single label that is no reserved word. -/
  | ident
  /-- A separator that no label follows. -/
  | nsSeparator
  /-- Two labels or more. -/
  | nameQualified
  /-- Labels with a separator before each. -/
  | nameFullyQualified
  /-- Two labels or more, the first of which is the word for the current namespace. -/
  | nameRelative
  | variable
  | number
  | stringLiteral
  | heredoc
  | kwUse
  | kwAs
  | kwFunction
  | kwConst
  | kwNamespace
  /-- Any other reserved word. -/
  | keyword
  | semicolon
  | comma
  | lBrace
  | rBrace
  | lParen
  | rParen
  | lBracket
  | rBracket
  /-- The opening of an attribute list. -/
  | attribute
  | arrow
  | nullsafeArrow
  | doubleColon
  /-- Any other operator character. -/
  | punct
  /-- A character that starts no token. -/
  | unknown
deriving DecidableEq, Repr, Inhabited

namespace TokenKind

/-- Kinds whose characters are part of an imported name. -/
def isNamePart : TokenKind → Bool
  | .ident | .nsSeparator | .nameQualified | .nameFullyQualified | .nameRelative => true
  | _ => false

/-- Kinds that only lay out the code. -/
def isTrivia : TokenKind → Bool
  | .whitespace | .comment | .docComment => true
  | _ => false

/-- Kinds after which a label names a member, whatever word it is. -/
def isMemberAccess : TokenKind → Bool
  | .arrow | .nullsafeArrow | .doubleColon => true
  | _ => false

/-- Every kind with its printed name. -/
def table : List (TokenKind × String) :=
  [(.inlineHtml, "InlineHtml"), (.openTag, "OpenTag"), (.openTagWithEcho, "OpenTagWithEcho"),
   (.closeTag, "CloseTag"), (.whitespace, "Whitespace"), (.comment, "Comment"),
   (.docComment, "DocComment"), (.ident, "Ident"), (.nsSeparator, "NsSeparator"),
   (.nameQualified, "NameQualified"), (.nameFullyQualified, "NameFullyQualified"),
   (.nameRelative, "NameRelative"), (.variable, "Variable"), (.number, "Number"),
   (.stringLiteral, "StringLiteral"), (.heredoc, "Heredoc"), (.kwUse, "KwUse"), (.kwAs, "KwAs"),
   (.kwFunction, "KwFunction"), (.kwConst, "KwConst"), (.kwNamespace, "KwNamespace"),
   (.keyword, "Keyword"), (.semicolon, "Semicolon"), (.comma, "Comma"), (.lBrace, "LBrace"),
   (.rBrace, "RBrace"), (.lParen, "LParen"), (.rParen, "RParen"), (.lBracket, "LBracket"),
   (.rBracket, "RBracket"), (.attribute, "Attribute"), (.arrow, "Arrow"),
   (.nullsafeArrow, "NullsafeArrow"), (.doubleColon, "DoubleColon"), (.punct, "Punct"),
   (.unknown, "Unknown")]

def name (k : TokenKind) : Text :=
  ((table.lookup k).getD "").toList

/-- The kind of a printed name. -/
def ofName? (name : Text) : Option TokenKind :=
  (table.find? (·.2.toList = name)).map (·.1)

theorem ofName?_name (k : TokenKind) : ofName? k.name = some k := by
  cases k <;> decide

end TokenKind

structure Token where
  kind : TokenKind
  span : Span
deriving DecidableEq, Repr, Inhabited

structure Piece where
  kind : TokenKind
  span : Span
  text : Text
deriving DecidableEq, Repr, Inhabited

/-- A token read in a source text. -/
def Token.inText (source : Text) (t : Token) : Piece :=
  ⟨t.kind, t.span, t.span.text source⟩

def Piece.token (p : Piece) : Token :=
  ⟨p.kind, p.span⟩

end PhpImports
