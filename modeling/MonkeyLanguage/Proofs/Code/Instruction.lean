import Mathlib.Algebra.Ring.Nat
import MonkeyLanguage.Code.Encoding

/-!
# Instructions in a byte stream

A stream is assembled from instructions. `Code.Has` says which bytes stand at an offset, and
`Code.has_assemble_append` takes an assembled stretch apart.
-/

namespace MonkeyLanguage

structure Instruction where
  op : OpCode
  operands : List Nat
  deriving DecidableEq

namespace Instruction

def plain (op : OpCode) : Instruction := ⟨op, []⟩

def width (i : Instruction) : Nat := i.op.width

def bytes (i : Instruction) : List UInt8 :=
  i.op.byte :: encodeOperands i.op.operandWidths i.operands

/-- An instruction that can be encoded and read back. -/
structure WellFormed (i : Instruction) : Prop where
  decodable : i.op ≠ .sentinel
  declared : i.operands.length = i.op.operandWidths.length
  small : ∀ n ∈ i.operands, n ≤ 65535

/-- A load is of one of the first `pool` constants. -/
def LoadsBelow (pool : Nat) (i : Instruction) : Prop :=
  i.op = .constant → ∀ n ∈ i.operands, n < pool

end Instruction

def assemble (instructions : List Instruction) : List UInt8 :=
  instructions.flatMap Instruction.bytes

def totalWidth : List Instruction → Nat
  | [] => 0
  | i :: rest => i.width + totalWidth rest

@[simp] theorem assemble_nil : assemble [] = [] := rfl

@[simp] theorem assemble_cons (i : Instruction) (rest : List Instruction) :
    assemble (i :: rest) = i.bytes ++ assemble rest := rfl

@[simp] theorem assemble_append (first second : List Instruction) :
    assemble (first ++ second) = assemble first ++ assemble second := List.flatMap_append

@[simp] theorem totalWidth_nil : totalWidth [] = 0 := rfl

@[simp] theorem totalWidth_cons (i : Instruction) (rest : List Instruction) :
    totalWidth (i :: rest) = i.width + totalWidth rest := rfl

@[simp] theorem totalWidth_append (first second : List Instruction) :
    totalWidth (first ++ second) = totalWidth first + totalWidth second := by
  induction first with
  | nil => simp
  | cons i rest ih => simp [ih, Nat.add_assoc]

/-- What an encoding is does not depend on why it fits. -/
theorem encode_eq_bytes (op : OpCode) (operands : List Nat) (fits : op.Fits operands) :
    encode op operands fits = (Instruction.mk op operands).bytes := rfl

@[simp] theorem length_bigEndian (width n : Nat) : (bigEndian width n).length = width := by
  induction width generalizing n with
  | zero => rfl
  | succ width ih => simp [bigEndian, ih]

theorem instructionWidth_sub_one (widths : List Nat) : instructionWidth widths - 1 = widths.sum :=
  Nat.add_sub_cancel_left 1 widths.sum

theorem length_encodeOperands (widths operands : List Nat) :
    (encodeOperands widths operands).length = widths.sum := by
  induction widths generalizing operands with
  | nil => rfl
  | cons width widths ih =>
    rw [encodeOperands, List.length_append, length_bigEndian, ih, List.sum_cons]

@[simp] theorem Instruction.length_bytes (i : Instruction) : i.bytes.length = i.width := by
  obtain ⟨op, operands⟩ := i
  simp only [bytes, List.length_cons, length_encodeOperands, width]
  cases op <;> rfl

@[simp] theorem length_assemble (instructions : List Instruction) :
    (assemble instructions).length = totalWidth instructions := by
  induction instructions with
  | nil => rfl
  | cons i rest ih => simp [ih]

theorem Instruction.width_pos (i : Instruction) : 0 < i.width := by
  rw [← i.length_bytes]
  exact Nat.succ_pos _

theorem Instruction.bytes_word {op : OpCode} (word : op.operandWidths = [2]) (n : Nat) :
    (Instruction.mk op [n]).bytes = [op.byte, UInt8.ofNat (n / 256), UInt8.ofNat n] := by
  simp [bytes, word, encodeOperands, bigEndian]

theorem Instruction.wellFormed_word {op : OpCode} (word : op.operandWidths = [2]) {n : Nat}
    (small : n ≤ 65535) : (Instruction.mk op [n]).WellFormed :=
  ⟨by rintro rfl; simp [OpCode.operandWidths] at word, by simp [word], by simpa using small⟩

theorem Instruction.wellFormed_plain {op : OpCode} (none : op.operandWidths = [])
    (decodable : op ≠ .sentinel) : (Instruction.plain op).WellFormed :=
  ⟨decodable, by simp [plain, none], by simp [plain]⟩

theorem word_of_bytes {n : Nat} (small : n ≤ 65535) :
    256 * (UInt8.ofNat (n / 256)).toNat + (UInt8.ofNat n).toNat = n := by
  simp only [UInt8.toNat_ofNat']
  omega

/-! ### Bytes at an offset -/

namespace Code

/-- The stream has these bytes from the offset on. -/
def Has (code : Code) (offset : Nat) (bytes : List UInt8) : Prop :=
  bytes <+: code.toList.drop offset

theorem has_self (code : Code) : code.Has 0 code.toList := List.prefix_refl _

theorem has_append {code : Code} {offset : Nat} {first second : List UInt8} :
    code.Has offset (first ++ second) ↔
      code.Has offset first ∧ code.Has (offset + first.length) second := by
  unfold Has
  rw [← List.drop_drop]
  constructor
  · rintro ⟨rest, same⟩
    rw [← same, List.append_assoc]
    exact ⟨List.prefix_append _ _, by simp⟩
  · rintro ⟨⟨rest, same⟩, second⟩
    rw [← same] at second ⊢
    simpa using second

theorem has_assemble_append {code : Code} {offset : Nat} {first second : List Instruction} :
    code.Has offset (assemble (first ++ second)) ↔
      code.Has offset (assemble first) ∧
        code.Has (offset + totalWidth first) (assemble second) := by
  rw [assemble_append, has_append, length_assemble]

theorem has_assemble_cons {code : Code} {offset : Nat} {i : Instruction}
    {rest : List Instruction} :
    code.Has offset (assemble (i :: rest)) ↔
      code.Has offset i.bytes ∧ code.Has (offset + i.width) (assemble rest) := by
  rw [assemble_cons, has_append, i.length_bytes]

theorem Has.lt_size {code : Code} {offset : Nat} {i : Instruction}
    (has : code.Has offset i.bytes) : offset < code.size := by
  have bound := has.length_le
  have wide := i.width_pos
  simp only [Instruction.length_bytes, List.length_drop, Array.length_toList] at bound
  omega

theorem Has.getElem? {code : Code} {offset i : Nat} {bytes : List UInt8} {byte : UInt8}
    (has : code.Has offset bytes) (found : bytes[i]? = some byte) :
    code[offset + i]? = some byte := by
  obtain ⟨inside, rfl⟩ := List.getElem?_eq_some_iff.1 found
  have same := List.IsPrefix.getElem has inside
  rw [List.getElem_drop] at same
  simp [same]

end Code

end MonkeyLanguage
