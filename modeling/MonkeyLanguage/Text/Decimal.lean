/-!
# Decimal numerals

Numbers are written in base ten with the fewest digits, a minus sign before a negative one.
-/

namespace MonkeyLanguage.Decimal

def ofInt64 (value : Int64) : String := toString value.toInt

/-- A count with at least four digits, zeros in front. -/
def fourDigits (n : Nat) : String :=
  let digits := toString n
  String.ofList (List.replicate (4 - digits.length) '0') ++ digits

def value (digits : List Char) : Nat :=
  digits.foldl (fun n c => 10 * n + (c.toNat - '0'.toNat)) 0

def int64Max : Nat := 9223372036854775807

/-- The signed 64-bit number that a run of digits denotes, unless it is too large. -/
def toInt64? (digits : List Char) : Option Int64 :=
  let n := value digits
  if n ≤ int64Max then some (Int64.ofNat n) else none

end MonkeyLanguage.Decimal
