import MonkeyLanguage.Table
import MonkeyLanguage.Value.Basic

/-!
# Equality of values

Values are compared by content, hashes as mappings, and functions by identity.
-/

namespace MonkeyLanguage

mutual

/-- The equality that the language tests with its operators. -/
def Value.same : Value → Value → Bool
  | .integer a, .integer b => a == b
  | .string a, .string b => a == b
  | .boolean a, .boolean b => a == b
  | .null, .null => true
  | .array as, .array bs => Value.sameAll as bs
  | .hash as, .hash bs => as.length == bs.length && Value.sameEntries as bs
  | .function f, .function g => f == g
  | .builtin f, .builtin g => f == g
  | .returning a, .returning b => a.same b
  | .error a, .error b => a == b
  | _, _ => false

def Value.sameAll : List Value → List Value → Bool
  | [], [] => true
  | a :: as, b :: bs => a.same b && Value.sameAll as bs
  | _, _ => false

/-- Every entry has an equal one under the same key of `table`. -/
def Value.sameEntries : List (HashKey × Value) → List (HashKey × Value) → Bool
  | [], _ => true
  | (key, a) :: entries, table =>
    (match Table.get? key table with
      | some b => a.same b
      | none => false) && Value.sameEntries entries table

end

end MonkeyLanguage
