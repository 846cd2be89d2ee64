import MonkeyLanguage.Proofs.Code.Stream

/-!
# Operands of mixed widths

No operation carries more than one operand, but operands are read for any list of widths. Those of
one and two bytes take exactly as many bytes as their widths add up to. With fewer bytes the reading
fails (`readOperands_of_short`), with as many or more it does not (`exists_readOperands`), and the
bytes behind them are not looked at (`readOperands_take`).
-/

namespace MonkeyLanguage

variable {width : Nat} {widths operands : List Nat} {bytes : List UInt8}

/-! ### One operand -/

/-- An operand depends on the bytes of its own width. -/
theorem readOperand_take (width extra : Nat) (bytes : List UInt8) :
    readOperand width (bytes.take (width + extra)) = readOperand width bytes := by
  unfold readOperand
  split
  · rw [Nat.add_comm, List.head?_take, if_neg (Nat.succ_ne_zero extra)]
  · rw [Nat.add_comm]
    rcases bytes with _ | ⟨high, _ | ⟨low, rest⟩⟩
    · rfl
    · rfl
    · rfl
  · rfl

theorem readOperand_of_short (readable : width = 1 ∨ width = 2) (short : bytes.length < width) :
    readOperand width bytes = .error .missingBytes := by
  rcases readable with rfl | rfl
  · obtain rfl : bytes = [] := List.length_eq_zero_iff.1 (by omega)
    rfl
  · rcases bytes with _ | ⟨high, _ | ⟨low, rest⟩⟩
    · rfl
    · rfl
    · simp only [List.length_cons] at short
      omega

theorem exists_readOperand (readable : width = 1 ∨ width = 2) (enough : width ≤ bytes.length) :
    ∃ operand, readOperand width bytes = .ok operand := by
  rcases readable with rfl | rfl
  · obtain ⟨byte, rest, rfl⟩ := List.exists_cons_of_length_pos enough
    exact ⟨_, rfl⟩
  · rcases bytes with _ | ⟨high, _ | ⟨low, rest⟩⟩
    · simp at enough
    · simp at enough
    · exact ⟨_, rfl⟩

/-! ### Any number of operands -/

/-- Operands depend on the bytes of their widths, also where some width cannot be read. -/
theorem readOperands_take (widths : List Nat) (bytes : List UInt8) :
    readOperands widths (bytes.take widths.sum) = readOperands widths bytes := by
  induction widths generalizing bytes with
  | nil => rfl
  | cons width widths ih =>
    have behind : (bytes.take (width + widths.sum)).drop width =
        (bytes.drop width).take widths.sum := by
      rw [List.drop_take, Nat.add_sub_cancel_left]
    simp only [List.sum_cons, readOperands, readOperand_take, behind, ih]

theorem readOperands_of_short (readable : ∀ width ∈ widths, width = 1 ∨ width = 2)
    (short : bytes.length < widths.sum) : readOperands widths bytes = .error .missingBytes := by
  induction widths generalizing bytes with
  | nil => simp at short
  | cons width widths ih =>
    obtain ⟨first, later⟩ := List.forall_mem_cons.1 readable
    rcases Nat.lt_or_ge bytes.length width with few | enough
    · simp only [readOperands, readOperand_of_short first few]
    -- The first operand is there, so it is a later one that lacks bytes.
    · obtain ⟨operand, read⟩ := exists_readOperand first enough
      have remaining : (bytes.drop width).length < widths.sum := by
        rw [List.sum_cons] at short
        rw [List.length_drop]
        omega
      simp only [readOperands, read, ih later remaining]

theorem exists_readOperands (readable : ∀ width ∈ widths, width = 1 ∨ width = 2)
    (enough : widths.sum ≤ bytes.length) :
    ∃ operands, readOperands widths bytes = .ok (operands, widths.sum) := by
  induction widths generalizing bytes with
  | nil => exact ⟨[], rfl⟩
  | cons width widths ih =>
    obtain ⟨first, later⟩ := List.forall_mem_cons.1 readable
    rw [List.sum_cons] at enough
    obtain ⟨operand, read⟩ := exists_readOperand first (Nat.le_of_add_right_le enough)
    have remaining : widths.sum ≤ (bytes.drop width).length := by
      rw [List.length_drop]
      omega
    obtain ⟨operands, reads⟩ := ih later remaining
    exact ⟨operand :: operands, by simp only [readOperands, read, reads, List.sum_cons]⟩

theorem readOperands_eq_missingBytes_iff (readable : ∀ width ∈ widths, width = 1 ∨ width = 2) :
    readOperands widths bytes = .error .missingBytes ↔ bytes.length < widths.sum := by
  refine ⟨fun missing => Nat.lt_of_not_ge fun enough => ?_, readOperands_of_short readable⟩
  obtain ⟨operands, read⟩ := exists_readOperands readable enough
  cases missing.symm.trans read

/-- Where no operand is left out, each one is written in its own width. -/
theorem encodeOperands_eq_flatten (declared : operands.length = widths.length) :
    encodeOperands widths operands = (List.zipWith bigEndian widths operands).flatten := by
  induction widths generalizing operands with
  | nil => rfl
  | cons width widths ih =>
    cases operands with
    | nil => simp at declared
    | cons operand operands =>
      simp [encodeOperands, ih (Nat.succ.inj declared)]

/-- Cutting out the bytes that belong to an operation leaves its operands as they are. -/
theorem Code.readOperands_operandBytes {code : Code} {offset : Nat} (op : OpCode) :
    readOperands op.operandWidths (code.operandBytes offset op) =
      readOperands op.operandWidths (code.toList.drop (offset + 1)) := by
  rw [operandBytes_eq, readOperands_take]

/-! ### Reading along an offset -/

/-- Reads on at an offset, behind the operands that have been read. The last offset counts the bytes
that were read. -/
def readOperandsFrom (bytes : List UInt8) :
    Nat → List Nat → List Nat → Except OperandError (List Nat × Nat)
  | offset, operands, [] => .ok (operands, offset)
  | offset, operands, width :: widths =>
    match readOperand width (bytes.drop offset) with
    | .error e => .error e
    | .ok operand => readOperandsFrom bytes (offset + width) (operands ++ [operand]) widths

theorem readOperandsFrom_eq (bytes : List UInt8) (offset : Nat) (operands widths : List Nat) :
    readOperandsFrom bytes offset operands widths =
      (readOperands widths (bytes.drop offset)).map fun read =>
        (operands ++ read.1, offset + read.2) := by
  induction widths generalizing offset operands with
  | nil => simp [readOperandsFrom, readOperands, Except.map]
  | cons width widths ih =>
    simp only [readOperandsFrom, readOperands]
    cases readOperand width (bytes.drop offset) with
    | error e => rfl
    | ok operand =>
      simp only [ih, List.drop_drop]
      cases readOperands widths (bytes.drop (offset + width)) with
      | error e => rfl
      | ok read => simp [Except.map, Nat.add_assoc]

/-- Operands take exactly the bytes that their widths declare. Reading fails just where there are
fewer. Otherwise there is an operand for each width, and written big-endian in those widths the
operands are the bytes in front. Bytes behind those change nothing, and reading one operand after
another along an offset comes to the same. -/
theorem operands_take_declared_bytes (widths : List Nat)
    (readable : ∀ width ∈ widths, width = 1 ∨ width = 2) (bytes : List UInt8) :
    (readOperands widths bytes = .error .missingBytes ↔ bytes.length < widths.sum) ∧
    (widths.sum ≤ bytes.length → ∃ operands count,
      readOperands widths bytes = .ok (operands, count) ∧
      count = instructionWidth widths - 1 ∧ count = widths.sum ∧
      operands.length = widths.length ∧ misfit? widths operands = none ∧
      (List.zipWith bigEndian widths operands).flatten = bytes.take count) ∧
    (∀ other : List UInt8, other.take widths.sum = bytes.take widths.sum →
      readOperands widths other = readOperands widths bytes) ∧
    readOperandsFrom bytes 0 [] widths = readOperands widths bytes := by
  refine ⟨readOperands_eq_missingBytes_iff readable, fun enough => ?_, fun other same => ?_, ?_⟩
  · obtain ⟨operands, read⟩ := exists_readOperands readable enough
    obtain ⟨-, declared, fits, joined⟩ := encodeOperands_of_readOperands read
    have front : encodeOperands widths operands = bytes.take widths.sum := by
      rw [← length_encodeOperands widths operands]
      exact List.prefix_iff_eq_take.1 ⟨_, joined⟩
    refine ⟨operands, widths.sum, read, (instructionWidth_sub_one widths).symm, rfl, declared, fits,
      ?_⟩
    rw [← encodeOperands_eq_flatten declared, front]
  · rw [← readOperands_take widths other, same, readOperands_take]
  · rw [readOperandsFrom_eq, List.drop_zero]
    cases readOperands widths bytes with
    | error e => rfl
    | ok read => simp [Except.map]

/-- A byte and a word, twice. -/
def mixedWidths : List Nat := [1, 2, 1, 2]

theorem operands_take_declared_bytes_mixed :
    (∀ width ∈ mixedWidths, width = 1 ∨ width = 2) ∧
    readOperands mixedWidths [13, 1, 0, 255, 255] = .error .missingBytes ∧
    readOperands mixedWidths [13, 1, 0, 255, 255, 7, 9] = .ok ([13, 256, 255, 65287], 6) ∧
    (List.zipWith bigEndian mixedWidths [13, 256, 255, 65287]).flatten = [13, 1, 0, 255, 255, 7] ∧
    readOperands mixedWidths [13, 1, 0, 255, 255, 7] = .ok ([13, 256, 255, 65287], 6) := by
  have readable : ∀ width ∈ mixedWidths, width = 1 ∨ width = 2 := by decide
  have cut := operands_take_declared_bytes mixedWidths readable [13, 1, 0, 255, 255]
  obtain ⟨-, filled, alike, -⟩ :=
    operands_take_declared_bytes mixedWidths readable [13, 1, 0, 255, 255, 7, 9]
  obtain ⟨operands, count, read, -, -, -, -, joined⟩ := filled (by decide)
  have computed : readOperands mixedWidths [13, 1, 0, 255, 255, 7, 9] =
      .ok ([13, 256, 255, 65287], 6) := by decide
  obtain ⟨rfl, rfl⟩ := Prod.mk.inj (Except.ok.inj (read.symm.trans computed))
  exact ⟨readable, cut.1.2 (by decide), read, joined, (alike _ (by decide)).trans read⟩

end MonkeyLanguage
