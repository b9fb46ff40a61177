import PhpImports.Json

/-!
# Elapsed times

Lexing and scanning are timed in microseconds. In JSON the counts are printed as they are, and on a
line for reading they are milliseconds with three decimals. Milliseconds are doubles, so rounding
goes on three times: to a count and to a quotient of 53 binary digits, and to the decimals.
-/

namespace PhpImports

/-- The times that a run prints if it is asked to. -/
inductive Clock where
  /-- A zero stands for either time, whatever it is. -/
  | masked
  | measured (lex scan : Nat)
deriving DecidableEq, Repr

/-- The integer nearest to a quotient, the even one of two. -/
def roundQuotient (n d : Nat) : Nat :=
  let q := n / d
  let r := n % d
  if 2 * r < d ∨ 2 * r = d ∧ q % 2 = 0 then q else q + 1

/-- The integer of 53 binary digits, zeros behind them aside, that is nearest to a quotient. -/
def roundDouble (n d : Nat) : Nat :=
  let zeros := (n / d).log2 - 52
  roundQuotient n (d <<< zeros) <<< zeros

namespace Clock

/-- The binary digits behind the point that are kept of milliseconds, which one microsecond has
enough of to be a double. -/
def fraction : Nat := 64

/-- Milliseconds in units of their last decimal. -/
def thousandths (micros : Nat) : Nat :=
  let millis := roundDouble (roundDouble micros 1 <<< fraction) 1000
  roundQuotient (millis * 1000) (1 <<< fraction)

def millis (micros : Nat) : Text :=
  let n := thousandths micros
  Text.ofNat (n / 1000) ++
    ['.', Nat.digitChar (n / 100 % 10), Nat.digitChar (n / 10 % 10), Nat.digitChar (n % 10)]

variable (c : Clock)

def lex : Nat :=
  match c with
  | masked => 0
  | measured lex _ => lex

def scan : Nat :=
  match c with
  | masked => 0
  | measured _ scan => scan

def shown (micros : Nat) : Text :=
  match c with
  | masked => ['0']
  | measured _ _ => millis micros

/-- The times on a line. -/
def line : Text :=
  "TIMING lex=".toList ++ c.shown c.lex ++ "ms scan=".toList ++ c.shown c.scan ++ "ms".toList

/-- The times as counts of 64 bits. -/
def json : Json :=
  .obj [("lex_us".toList, .num c.lex.toUInt64.toNat),
    ("scan_us".toList, .num c.scan.toUInt64.toNat)]

end Clock
end PhpImports
