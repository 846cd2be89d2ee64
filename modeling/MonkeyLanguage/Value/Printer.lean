import MonkeyLanguage.Syntax.Printer
import MonkeyLanguage.Value.Basic

/-!
# Display of values

The entries of a hash are displayed in the order of their texts, so the display does not depend on
the order in which they were set.
-/

namespace MonkeyLanguage

/-- Order of two texts, the first deciding: by code points, which is also the order of their
UTF-8 bytes. -/
def textLe (a b : String × String) : Bool :=
  decide (a.1 < b.1) || (a.1 == b.1 && !decide (b.2 < a.2))

def Closure.display (f : Closure) : String :=
  "fn(" ++ ", ".intercalate f.params ++ ") " ++ Block.render f.body

def HashKey.display : HashKey → String
  | integer value => Decimal.ofInt64 value
  | string value => value
  | boolean true => "true"
  | boolean false => "false"

def displayEntries (entries : List (String × String)) : String :=
  let sorted := entries.mergeSort textLe
  "\x7b" ++ ", ".intercalate (sorted.map fun (key, value) => key ++ ": " ++ value) ++ "\x7d"

mutual

def Value.display : Value → String
  | .integer value => Decimal.ofInt64 value
  | .string value => value
  | .boolean true => "true"
  | .boolean false => "false"
  | .null => "null"
  | .array elements => "[" ++ ", ".intercalate (Value.displayAll elements) ++ "]"
  | .hash entries => displayEntries (Value.entryTexts entries)
  | .function closure => closure.display
  | .builtin _ => "builtin function"
  | .returning value => value.display
  | .error message => "ERROR: " ++ message

def Value.displayAll : List Value → List String
  | [] => []
  | v :: vs => v.display :: Value.displayAll vs

def Value.entryTexts : List (HashKey × Value) → List (String × String)
  | [] => []
  | (key, v) :: entries => (key.display, v.display) :: Value.entryTexts entries

end

theorem HashKey.display_value (key : HashKey) : key.value.display = key.display := by
  rcases key with _ | _ | _ | _ <;> rfl

end MonkeyLanguage
