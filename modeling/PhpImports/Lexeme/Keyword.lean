import PhpImports.Token

/-!
# Reserved words

The words that are no identifiers, in lower case. A label is compared with them in lower case too.
-/

namespace PhpImports.Keyword

/-- The reserved words that reading imports has to tell apart. -/
def marked : List (Text × TokenKind) :=
  [("use".toList, .kwUse), ("as".toList, .kwAs), ("function".toList, .kwFunction),
   ("const".toList, .kwConst), ("namespace".toList, .kwNamespace)]

/-- All other reserved words. -/
def plain : List Text :=
  ["abstract", "and", "array", "break", "callable", "case", "catch", "class", "clone", "continue",
   "declare", "default", "die", "do", "echo", "else", "elseif", "empty", "enddeclare", "endfor",
   "endforeach", "endif", "endswitch", "endwhile", "eval", "exit", "extends", "final", "finally",
   "fn", "for", "foreach", "global", "goto", "if", "implements", "include", "include_once",
   "instanceof", "insteadof", "interface", "isset", "list", "match", "new", "or", "print",
   "private", "protected", "public", "readonly", "require", "require_once", "return", "static",
   "switch", "throw", "trait", "try", "unset", "var", "while", "xor", "yield", "__halt_compiler",
   "__class__", "__dir__", "__file__", "__function__", "__line__", "__method__", "__namespace__",
   "__trait__"].map String.toList

/-- The kind of a reserved word, in whatever case it is spelt. -/
def kind? (label : Text) : Option TokenKind :=
  let word := label.toLower
  (marked.lookup word).or (if plain.contains word then some .keyword else none)

end PhpImports.Keyword
