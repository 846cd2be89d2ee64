import MonkeyLanguage.Code.Listing
import MonkeyLanguage.Machine.Stack

/-!
# The stack machine

A machine executes bytecode from its instruction pointer on. After a failure it stands where the
failure left it, and can be run again from there.

Backward jumps are possible in bytecode that no compiler wrote, so a run is bounded by a number of
steps.
-/

namespace MonkeyLanguage

structure Machine where
  stack : Stack
  ip : Nat

def Machine.initial : Machine := ⟨.empty, 0⟩

/-- An action of the machine; after an error its state stays as it was left. -/
abbrev Action (α : Type) := EStateM RuntimeError Machine α

namespace Machine

def push (value : Value) : Action Unit := fun ⟨stack, ip⟩ =>
  match stack.push value with
  | .ok () stack => .ok () ⟨stack, ip⟩
  | .error e stack => .error e ⟨stack, ip⟩

def pop : Action Value := fun ⟨stack, ip⟩ =>
  match stack.pop with
  | .ok value stack => .ok value ⟨stack, ip⟩
  | .error e stack => .error e ⟨stack, ip⟩

def jump (target : Nat) : Action Unit := fun ⟨stack, _⟩ => .ok () ⟨stack, target⟩

/-- What the operations on two operands compute. Only integers are ordered and reckoned with;
integers and booleans are compared, each with their own kind. -/
def combine (op : OpCode) (left right : Value) : Except RuntimeError Value :=
  match left, right with
  | .integer a, .integer b =>
    match op with
    | .add => .ok (.integer (a + b))
    | .sub => .ok (.integer (a - b))
    | .mul => .ok (.integer (a * b))
    | .div => if b = 0 then .error .divisionByZero else .ok (.integer (a / b))
    | .equal => .ok (.boolean (a == b))
    | .notEqual => .ok (.boolean (a != b))
    | .greaterThan => .ok (.boolean (decide (b < a)))
    | op => .error (.unsupportedTypes op .integer .integer)
  | .boolean a, .boolean b =>
    match op with
    | .equal => .ok (.boolean (a == b))
    | .notEqual => .ok (.boolean (a != b))
    | op => .error (.unsupportedTypes op .boolean .boolean)
  | left, right => .error (.unsupportedTypes op left.type right.type)

/-- The right operand is on top. Both are popped before they are looked at. -/
def binary (op : OpCode) : Action Unit := do
  let right ← pop
  let left ← pop
  match combine op left right with
  | .ok value => push value
  | .error e => throw e

/-! ### Fetching -/

def pointer : Action Nat := fun m => .ok m.ip m

/-- Reads one byte as an operation, and passes it even when it is none. -/
def fetchOpCode (code : Code) : Action OpCode := fun ⟨stack, ip⟩ =>
  match code[ip]? with
  | none => .error (.decode (.outOfBounds ip code.size)) ⟨stack, ip⟩
  | some byte =>
    match decodeOpCode byte with
    | .ok op => .ok op ⟨stack, ip + 1⟩
    | .error e => .error (.decode e) ⟨stack, ip + 1⟩

/-- Reads two bytes as the operand of the operation that stands at `offset`. -/
def fetchOperand (code : Code) (op : OpCode) (offset : Nat) : Action Nat := fun ⟨stack, ip⟩ =>
  match code[ip]?, code[ip + 1]? with
  | some high, some low => .ok (256 * high.toNat + low.toNat) ⟨stack, ip + 2⟩
  | _, _ => .error (.decode (.truncated op offset)) ⟨stack, ip⟩

/-! ### Execution -/

def execute (bytecode : Bytecode) (op : OpCode) (offset : Nat) : Action Unit :=
  match op with
  | .constant => do
    let index ← fetchOperand bytecode.code op offset
    match bytecode.constants[index]? with
    | some constant => push constant
    | none => throw (.missingConstant index)
  | .pushTrue => push (.boolean true)
  | .pushFalse => push (.boolean false)
  | .pushNull => push .null
  | .add | .sub | .mul | .div | .equal | .notEqual | .greaterThan => binary op
  | .bang => do
    let value ← pop
    push (.boolean !value.isTruthy)
  | .minus => do
    match ← pop with
    | .integer n => push (.integer (-n))
    | value => throw (.unsupportedNegation value.type)
  | .pop => do
    let _ ← pop
  | .jump => do
    let target ← fetchOperand bytecode.code op offset
    jump target
  | .jumpNotTruthy => do
    let target ← fetchOperand bytecode.code op offset
    let condition ← pop
    if condition.isTruthy then pure () else jump target
  | .sentinel => pure ()

def step (bytecode : Bytecode) : Action Unit := do
  let offset ← pointer
  let op ← fetchOpCode bytecode.code
  execute bytecode op offset

inductive Status where
  | running
  | halted
  | failed (error : RuntimeError)
  deriving DecidableEq

/-- Runs to the end of the code, to a failure, or for the number of steps given. -/
def run (bytecode : Bytecode) : Nat → Machine → Status × Machine
  | 0, m => (if m.ip < bytecode.code.size then .running else .halted, m)
  | steps + 1, m =>
    if m.ip < bytecode.code.size then
      match step bytecode m with
      | .ok () m => run bytecode steps m
      | .error e m => (.failed e, m)
    else (.halted, m)

end Machine

end MonkeyLanguage
