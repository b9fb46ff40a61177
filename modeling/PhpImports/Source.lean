import PhpImports.Text.Basic

/-!
# Sources

A source is a text with the name of the file it is from.
-/

namespace PhpImports

structure Source where
  name : Text
  text : Text
deriving DecidableEq, Repr, Inhabited

end PhpImports
