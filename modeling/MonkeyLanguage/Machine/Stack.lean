import MonkeyLanguage.Code.Encoding
import MonkeyLanguage.Value.Basic

/-!
# The value stack

A fixed number of slots and the height of the stack in use. A slot keeps its value when it is
popped, so the slot just above the stack holds what was popped last.
-/

namespace MonkeyLanguage

inductive RuntimeError where
  | stackOverflow
  | stackUnderflow
  | unsupportedTypes (op : OpCode) (left right : ValueType)
  | unsupportedNegation (type : ValueType)
  | divisionByZero
  | missingConstant (index : Nat)
  | decode (error : DecodeError)
  deriving DecidableEq

def RuntimeError.message : RuntimeError → String
  | stackOverflow => "stack overflow"
  | stackUnderflow => "stack underflow"
  | unsupportedTypes op left right =>
    "unsupported types for " ++ op.mnemonic ++ ": " ++ left.name ++ " " ++ right.name
  | unsupportedNegation type => "unsupported type for negation: " ++ type.name
  | divisionByZero => "division by zero"
  | missingConstant index => "constant " ++ toString index ++ " is not in the constant pool"
  | decode error => "failed to read instruction: " ++ error.message

abbrev Stack.capacity : Nat := 2048

structure Stack where
  slots : Vector Value Stack.capacity
  height : Nat
  height_le : height ≤ Stack.capacity

namespace Stack

def empty : Stack := ⟨Vector.replicate capacity .null, 0, Nat.zero_le _⟩

def push (value : Value) : EStateM RuntimeError Stack Unit := fun s =>
  if h : s.height < capacity then
    .ok () { slots := s.slots.set s.height value h, height := s.height + 1, height_le := h }
  else .error .stackOverflow s

def pop : EStateM RuntimeError Stack Value := fun s =>
  match s with
  | ⟨slots, n + 1, h⟩ => .ok slots[n] ⟨slots, n, Nat.le_of_succ_le h⟩
  | ⟨slots, 0, h⟩ => .error .stackUnderflow ⟨slots, 0, h⟩

def top? (s : Stack) : Option Value :=
  match s with
  | ⟨slots, n + 1, _⟩ => some slots[n]
  | ⟨_, 0, _⟩ => none

/-- The value popped last; null while the stack is full. -/
def lastPopped (s : Stack) : Value :=
  if h : s.height < capacity then s.slots[s.height] else .null

end Stack

end MonkeyLanguage
