/-!
# Operation codes

Each operation has a byte, a mnemonic and the widths of its operands in bytes. The sentinel marks
the end of the range: it has a byte of its own, but no byte is read as it.
-/

namespace MonkeyLanguage

inductive OpCode where
  | constant
  | add
  | sub
  | mul
  | div
  | pushTrue
  | pushFalse
  | equal
  | notEqual
  | greaterThan
  | minus
  | bang
  | pop
  | jump
  | jumpNotTruthy
  | pushNull
  | sentinel
  deriving DecidableEq

namespace OpCode

def byte : OpCode → UInt8
  | constant => 0
  | add => 1
  | sub => 2
  | mul => 3
  | div => 4
  | pushTrue => 5
  | pushFalse => 6
  | equal => 7
  | notEqual => 8
  | greaterThan => 9
  | minus => 10
  | bang => 11
  | pop => 12
  | jump => 13
  | jumpNotTruthy => 14
  | pushNull => 15
  | sentinel => 16

/-- The operations that a byte can stand for, in the order of their bytes. -/
def decodable : List OpCode :=
  [.constant, .add, .sub, .mul, .div, .pushTrue, .pushFalse, .equal, .notEqual, .greaterThan,
    .minus, .bang, .pop, .jump, .jumpNotTruthy, .pushNull]

def ofByte? (b : UInt8) : Option OpCode := decodable[b.toNat]?

def mnemonic : OpCode → String
  | constant => "OpConstant"
  | add => "OpAdd"
  | sub => "OpSub"
  | mul => "OpMul"
  | div => "OpDiv"
  | pushTrue => "OpTrue"
  | pushFalse => "OpFalse"
  | equal => "OpEqual"
  | notEqual => "OpNotEqual"
  | greaterThan => "OpGreaterThan"
  | minus => "OpMinus"
  | bang => "OpBang"
  | pop => "OpPop"
  | jump => "OpJump"
  | jumpNotTruthy => "OpJumpNotTruthy"
  | pushNull => "OpNull"
  | sentinel => "OpSentinel"

def ofMnemonic? (name : String) : Option OpCode :=
  (decodable ++ [OpCode.sentinel]).find? (·.mnemonic == name)

def operandWidths : OpCode → List Nat
  | constant | jump | jumpNotTruthy => [2]
  | _ => []

end OpCode

/-- Size of an instruction with operands of these widths, its opcode byte included. -/
def instructionWidth (widths : List Nat) : Nat := 1 + widths.foldr Nat.add 0

def OpCode.width (op : OpCode) : Nat := instructionWidth op.operandWidths

/-- The byte of an operation is read as that operation, the sentinel's alone as none. -/
theorem OpCode.ofByte?_byte (op : OpCode) :
    OpCode.ofByte? op.byte = if op = .sentinel then none else some op := by
  cases op <;> decide

theorem OpCode.byte_of_ofByte? {b : UInt8} {op : OpCode} (h : OpCode.ofByte? b = some op) :
    op.byte = b := by
  have bound : b.toNat < 16 := (List.getElem?_eq_some_iff.1 h).1
  have cases : ∀ n < 16, ∀ op, decodable[n]? = some op → op.byte.toNat = n := by decide
  exact UInt8.toNat_inj.1 (cases _ bound _ h)

end MonkeyLanguage
