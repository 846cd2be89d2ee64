import MonkeyLanguage.Code.OpCode

/-!
# Encoding of instructions

An instruction is its opcode byte followed by its operands, big-endian in their widths. Bytes are
read back at an offset.
-/

namespace MonkeyLanguage

/-! ### Writing -/

/-- The `width` low bytes of a number, the highest first. -/
def bigEndian : Nat → Nat → List UInt8
  | 0, _ => []
  | width + 1, n => bigEndian width (n / 256) ++ [UInt8.ofNat n]

/-- The first operand that is too large for its width, with that width. Missing operands count as
zero. -/
def misfit? : List Nat → List Nat → Option (Nat × Nat)
  | [], _ => none
  | width :: widths, operands =>
    let operand := operands.headD 0
    if operand < 256 ^ width then misfit? widths operands.tail else some (operand, width)

abbrev OpCode.Fits (op : OpCode) (operands : List Nat) : Prop :=
  misfit? op.operandWidths operands = none

def encodeOperands : List Nat → List Nat → List UInt8
  | [], _ => []
  | width :: widths, operands =>
    bigEndian width (operands.headD 0) ++ encodeOperands widths operands.tail

/-- One instruction. Missing operands are written as zero, and those beyond the declared widths
are left out. -/
def encode (op : OpCode) (operands : List Nat) (_fits : op.Fits operands) : List UInt8 :=
  op.byte :: encodeOperands op.operandWidths operands

/-! ### Reading -/

inductive OperandError where
  | missingBytes
  | unsupportedWidth (width : Nat)
  deriving DecidableEq

def readWord : List UInt8 → Option Nat
  | high :: low :: _ => some (256 * high.toNat + low.toNat)
  | _ => none

/-- Only operands of one or two bytes can be read. -/
def readOperand (width : Nat) (bytes : List UInt8) : Except OperandError Nat :=
  match width with
  | 1 =>
    match bytes.head? with
    | some b => .ok b.toNat
    | none => .error .missingBytes
  | 2 =>
    match readWord bytes with
    | some n => .ok n
    | none => .error .missingBytes
  | width => .error (.unsupportedWidth width)

/-- Reads operands of the given widths in order, and counts the bytes read. -/
def readOperands : List Nat → List UInt8 → Except OperandError (List Nat × Nat)
  | [], _ => .ok ([], 0)
  | width :: widths, bytes =>
    match readOperand width bytes with
    | .error e => .error e
    | .ok operand =>
      match readOperands widths (bytes.drop width) with
      | .error e => .error e
      | .ok (operands, count) => .ok (operand :: operands, width + count)

structure Decoded where
  op : OpCode
  operands : List Nat
  width : Nat
  deriving DecidableEq

inductive DecodeError where
  | unknownOpCode (byte : UInt8)
  | truncated (op : OpCode) (offset : Nat)
  | outOfBounds (offset length : Nat)
  deriving DecidableEq

def DecodeError.message : DecodeError → String
  | unknownOpCode byte =>
    "invalid byte " ++ toString byte.toNat ++
      " found when expecting an opcode between 0 and 15"
  | truncated op offset =>
    op.mnemonic ++ " at offset " ++ toString offset ++ " is missing operand bytes"
  | outOfBounds offset length =>
    "offset " ++ toString offset ++ " is past the end of " ++ toString length ++
      " bytes of instructions"

def decodeOpCode (byte : UInt8) : Except DecodeError OpCode :=
  match OpCode.ofByte? byte with
  | some op => .ok op
  | none => .error (.unknownOpCode byte)

abbrev Code := Array UInt8

namespace Code

/-- The bytes behind an opcode that belong to it, as far as there are any. -/
def operandBytes (code : Code) (offset : Nat) (op : OpCode) : List UInt8 :=
  (code.extract (offset + 1) (offset + op.width)).toList

def decode (code : Code) (offset : Nat) : Except DecodeError Decoded :=
  match code[offset]? with
  | none => .error (.outOfBounds offset code.size)
  | some byte =>
    match decodeOpCode byte with
    | .error e => .error e
    | .ok op =>
      match readOperands op.operandWidths (code.operandBytes offset op) with
      | .ok (operands, count) => .ok ⟨op, operands, 1 + count⟩
      | .error _ => .error (.truncated op offset)

/-- Only a position inside the stream can be read, and every instruction is at least one byte. -/
theorem of_decode_eq_ok {code : Code} {offset : Nat} {i : Decoded}
    (h : code.decode offset = .ok i) : offset < code.size ∧ 0 < i.width := by
  unfold decode at h
  split at h
  · simp at h
  · rename_i byte found
    refine ⟨(Array.getElem?_eq_some_iff.1 found).1, ?_⟩
    split at h
    · simp at h
    · split at h
      · simp only [Except.ok.injEq] at h
        subst h
        exact Nat.lt_of_lt_of_le Nat.zero_lt_one (Nat.le_add_right _ _)
      · simp at h

end Code

end MonkeyLanguage
