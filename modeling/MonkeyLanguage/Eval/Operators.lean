import MonkeyLanguage.Value.Equality
import MonkeyLanguage.Value.Printer

/-!
# Operators on values

What operators and indexing make of operands that have been evaluated. Integers wrap around at 64
bits; a division truncates.
-/

namespace MonkeyLanguage

inductive Fault where
  | identifierNotFound (name : String)
  | unknownUnary (op : UnaryOp) (operand : ValueType)
  | typeMismatch (op : BinaryOp) (left right : ValueType)
  | unknownBinary (op : BinaryOp) (left right : ValueType)
  | divisionByZero
  | unhashable (type : ValueType)
  | indexOutOfRange (position : Int64) (length : Nat)
  | keyNotFound (key : HashKey)
  | notIndexable (type : ValueType)
  | notAFunction (type : ValueType)
  | argumentCount (want got : Nat)
  | builtinArgumentCount (got want : Nat)
  | lenUnsupported (type : ValueType)
  | arrayExpected (builtin : Builtin) (got : ValueType)

namespace Fault

def message : Fault → String
  | identifierNotFound name => "identifier not found: " ++ name
  | unknownUnary op operand => "unknown operator: " ++ op.spelling ++ operand.name
  | typeMismatch op left right =>
    "type mismatch: " ++ left.name ++ " " ++ op.spelling ++ " " ++ right.name
  | unknownBinary op left right =>
    "unknown operator: " ++ left.name ++ " " ++ op.spelling ++ " " ++ right.name
  | divisionByZero => "division by zero"
  | unhashable type => "unusable as hash key: " ++ type.name
  | indexOutOfRange position length =>
    "index out of range. index=" ++ Decimal.ofInt64 position ++ ", len=" ++ toString length
  | keyNotFound key => "key not found: " ++ key.display
  | notIndexable type => "index operator not supported: " ++ type.name
  | notAFunction type => "not a function: " ++ type.name
  | argumentCount want got =>
    "wrong number of arguments: want=" ++ toString want ++ ", got=" ++ toString got
  | builtinArgumentCount got want =>
    "wrong number of arguments. got=" ++ toString got ++ ", want=" ++ toString want
  | lenUnsupported type => "argument to `len` not supported, got " ++ type.name
  | arrayExpected builtin got =>
    "argument to `" ++ builtin.name ++ "` must be Array, got " ++ got.name

def value (fault : Fault) : Value := .error fault.message

end Fault

def UnaryOp.apply : UnaryOp → Value → Value
  | .not, operand => .boolean !operand.isTruthy
  | .negate, .integer n => .integer (-n)
  | .negate, operand => (Fault.unknownUnary .negate operand.type).value

def BinaryOp.onIntegers (op : BinaryOp) (a b : Int64) : Value :=
  match op with
  | .plus => .integer (a + b)
  | .minus => .integer (a - b)
  | .multiply => .integer (a * b)
  | .divide => if b = 0 then Fault.divisionByZero.value else .integer (a / b)
  | .lessThan => .boolean (decide (a < b))
  | .greaterThan => .boolean (decide (b < a))
  | .equal => .boolean (a == b)
  | .notEqual => .boolean (a != b)

def BinaryOp.onStrings (op : BinaryOp) (a b : String) : Value :=
  match op with
  | .plus => .string (a ++ b)
  | .lessThan => .boolean (decide (a < b))
  | .greaterThan => .boolean (decide (b < a))
  | .equal => .boolean (a == b)
  | .notEqual => .boolean (a != b)
  | op => (Fault.unknownBinary op .string .string).value

/-- Values of any type can be compared for equality; the other operators want two integers or two
strings. -/
def BinaryOp.apply (op : BinaryOp) (left right : Value) : Value :=
  match left, right with
  | .integer a, .integer b => op.onIntegers a b
  | .string a, .string b => op.onStrings a b
  | left, right =>
    match op with
    | .equal => .boolean (left.same right)
    | .notEqual => .boolean !left.same right
    | op =>
      if left.type = right.type then (Fault.unknownBinary op left.type right.type).value
      else (Fault.typeMismatch op left.type right.type).value

def elementAt (elements : List Value) (position : Int64) : Value :=
  let found :=
    match position.toInt with
    | .ofNat n => elements[n]?
    | .negSucc _ => none
  found.getD (Fault.indexOutOfRange position elements.length).value

def entryAt (entries : List (HashKey × Value)) (position : Value) : Value :=
  match position.hashKey? with
  | none => (Fault.unhashable position.type).value
  | some key => (Table.get? key entries).getD (Fault.keyNotFound key).value

def Value.at (left position : Value) : Value :=
  match left, position with
  | .array elements, .integer n => elementAt elements n
  | .hash entries, position => entryAt entries position
  | left, _ => (Fault.notIndexable left.type).value

end MonkeyLanguage
