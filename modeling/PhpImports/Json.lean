import PhpImports.Text.Location

/-!
# JSON

JSON values and their compact form: no blanks, fields in the order given, and in strings only
quotes, backslashes and control characters are escaped.
-/

namespace PhpImports

inductive Json where
  | null
  | num (n : Nat)
  | str (s : Text)
  | arr (items : List Json)
  | obj (fields : List (Text × Json))
deriving Inhabited

namespace Json

/-- Two hexadecimal digits. -/
def hexPair (n : Nat) : Text :=
  [Nat.digitChar (n / 16 % 16), Nat.digitChar (n % 16)]

def escapeChar (c : Char) : Text :=
  if c = '"' then ['\\', '"']
  else if c = '\\' then ['\\', '\\']
  else if c = '\n' then ['\\', 'n']
  else if c = '\r' then ['\\', 'r']
  else if c = '\t' then ['\\', 't']
  else if c = '\x08' then ['\\', 'b']
  else if c = '\x0c' then ['\\', 'f']
  else if c.toNat < 0x20 then "\\u00".toList ++ hexPair c.toNat
  else [c]

def quote (s : Text) : Text :=
  '"' :: s.flatMap escapeChar ++ ['"']

mutual

def compact : Json → Text
  | .null => "null".toList
  | .num n => Text.ofNat n
  | .str s => quote s
  | .arr items => '[' :: compactItems items ++ [']']
  | .obj fields => '{' :: compactFields fields ++ ['}']

def compactItems : List Json → Text
  | [] => []
  | [item] => item.compact
  | item :: items => item.compact ++ ',' :: compactItems items

def compactFields : List (Text × Json) → Text
  | [] => []
  | [(key, value)] => quote key ++ ':' :: value.compact
  | (key, value) :: fields => quote key ++ ':' :: value.compact ++ ',' :: compactFields fields

end

def ofOption (f : α → Json) : Option α → Json
  | some a => f a
  | none => .null

end Json
end PhpImports
