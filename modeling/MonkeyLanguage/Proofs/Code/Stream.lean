import MonkeyLanguage.Code.Listing
import MonkeyLanguage.Proofs.Code.Instruction

/-!
# Streams of instructions

What was written instruction by instruction is read back instruction by instruction, and only what
could have been written so is read at all. For one instruction these are `Code.decode_of_has` and
`Code.has_of_decode`, for a stream `Code.instructionsFrom_of_assemble` and
`Code.assemble_of_instructionsFrom`.
-/

namespace MonkeyLanguage

/-! ### Operands -/

@[simp] theorem misfit?_nil (operands : List Nat) : misfit? [] operands = none := rfl

theorem misfit?_cons_eq_none_iff {width operand : Nat} {widths operands : List Nat} :
    misfit? (width :: widths) (operand :: operands) = none ↔
      operand < 256 ^ width ∧ misfit? widths operands = none := by
  change (if operand < 256 ^ width then misfit? widths operands else some (operand, width)) =
    none ↔ _
  by_cases small : operand < 256 ^ width
  · simp [small]
  · simp [small]

theorem readOperand_bigEndian {width n : Nat} (readable : width = 1 ∨ width = 2)
    (small : n < 256 ^ width) (rest : List UInt8) :
    readOperand width (bigEndian width n ++ rest) = .ok n := by
  rcases readable with rfl | rfl
  · simp [readOperand, bigEndian]
    omega
  · have word := word_of_bytes (n := n) (by omega)
    simpa [readOperand, readWord, bigEndian] using word

/-- An operand that was read is written as the bytes it was read from. -/
theorem bigEndian_of_readOperand {width n : Nat} {bytes : List UInt8}
    (h : readOperand width bytes = .ok n) :
    n < 256 ^ width ∧ bigEndian width n ++ bytes.drop width = bytes := by
  unfold readOperand at h
  split at h
  · cases bytes with
    | nil => simp at h
    | cons byte rest =>
      simp only [List.head?_cons, Except.ok.injEq] at h
      subst h
      exact ⟨byte.toNat_lt, by simp [bigEndian]⟩
  · rcases bytes with _ | ⟨high, _ | ⟨low, rest⟩⟩
    · simp [readWord] at h
    · simp [readWord] at h
    · simp only [readWord, Except.ok.injEq] at h
      subst h
      have high_lt := high.toNat_lt
      have low_lt := low.toNat_lt
      refine ⟨by omega, ?_⟩
      have upper : (256 * high.toNat + low.toNat) / 256 = high.toNat := by omega
      have lower : UInt8.ofNat (256 * high.toNat + low.toNat) = low := by
        apply UInt8.toNat_inj.mp
        rw [UInt8.toNat_ofNat']
        omega
      simp [bigEndian, upper, lower]
  · simp at h

theorem readOperands_encodeOperands {widths operands : List Nat}
    (readable : ∀ width ∈ widths, width = 1 ∨ width = 2)
    (declared : operands.length = widths.length) (fits : misfit? widths operands = none)
    (rest : List UInt8) :
    readOperands widths (encodeOperands widths operands ++ rest) =
      .ok (operands, widths.sum) := by
  induction widths generalizing operands with
  | nil =>
    obtain rfl := List.length_eq_zero_iff.1 declared
    rfl
  | cons width widths ih =>
    cases operands with
    | nil => simp at declared
    | cons operand operands =>
      obtain ⟨small, fits⟩ := misfit?_cons_eq_none_iff.1 fits
      have remaining :=
        ih (fun w member => readable w (by simp [member])) (by simpa using declared) fits
      have dropped :
          (bigEndian width operand ++ (encodeOperands widths operands ++ rest)).drop width =
            encodeOperands widths operands ++ rest :=
        List.drop_left' (length_bigEndian width operand)
      simp only [readOperands, encodeOperands, List.headD_cons, List.tail_cons, List.append_assoc,
        readOperand_bigEndian (readable width (by simp)) small, dropped, remaining]
      rfl

/-- Operands that were read are written as the bytes they were read from. -/
theorem encodeOperands_of_readOperands {widths operands : List Nat} {bytes : List UInt8}
    {count : Nat} (h : readOperands widths bytes = .ok (operands, count)) :
    count = widths.sum ∧ operands.length = widths.length ∧
      misfit? widths operands = none ∧
      encodeOperands widths operands ++ bytes.drop count = bytes := by
  induction widths generalizing operands bytes count with
  | nil =>
    simp only [readOperands, Except.ok.injEq, Prod.mk.injEq] at h
    obtain ⟨rfl, rfl⟩ := h
    exact ⟨rfl, rfl, rfl, by simp [encodeOperands]⟩
  | cons width widths ih =>
    simp only [readOperands] at h
    split at h
    · simp at h
    · rename_i operand first
      split at h
      · simp at h
      · rename_i later n remaining
        simp only [Except.ok.injEq, Prod.mk.injEq] at h
        obtain ⟨rfl, rfl⟩ := h
        obtain ⟨small, whole⟩ := bigEndian_of_readOperand first
        obtain ⟨rfl, declared, fits, joined⟩ := ih remaining
        refine ⟨rfl, by simp [declared], misfit?_cons_eq_none_iff.2 ⟨small, fits⟩, ?_⟩
        rw [List.drop_drop] at joined
        simpa [encodeOperands, joined] using whole

/-! ### Instructions -/

theorem OpCode.operandWidths_cases (op : OpCode) :
    op.operandWidths = [] ∨ op.operandWidths = [2] := by
  cases op <;> simp [OpCode.operandWidths]

theorem OpCode.operandWidths_readable (op : OpCode) :
    ∀ width ∈ op.operandWidths, width = 1 ∨ width = 2 := by
  rcases op.operandWidths_cases with plain | word
  · simp [plain]
  · simp [word]

theorem Instruction.wellFormed_iff {i : Instruction} :
    i.WellFormed ↔ i.op ≠ .sentinel ∧ i.operands.length = i.op.operandWidths.length ∧
      i.op.Fits i.operands := by
  obtain ⟨op, operands⟩ := i
  suffices same : operands.length = op.operandWidths.length →
      ((∀ n ∈ operands, n ≤ 65535) ↔ op.Fits operands) by
    constructor
    · rintro ⟨decodable, declared, small⟩
      exact ⟨decodable, declared, (same declared).1 small⟩
    · rintro ⟨decodable, declared, fits⟩
      exact ⟨decodable, declared, (same declared).2 fits⟩
  intro declared
  rcases op.operandWidths_cases with plain | word
  · rw [plain] at declared
    obtain rfl := List.length_eq_zero_iff.1 declared
    simp [OpCode.Fits, plain]
  · rw [word] at declared
    obtain ⟨n, rfl⟩ := List.length_eq_one_iff.1 declared
    rw [OpCode.Fits, word, misfit?_cons_eq_none_iff]
    simp only [List.mem_singleton, forall_eq, misfit?_nil, and_true]
    omega

theorem decodeOpCode_eq_ok_iff {byte : UInt8} {op : OpCode} :
    decodeOpCode byte = .ok op ↔ op ≠ .sentinel ∧ byte = op.byte := by
  unfold decodeOpCode
  constructor
  · intro h
    split at h
    · rename_i found
      obtain rfl := Except.ok.inj h
      obtain rfl := OpCode.byte_of_ofByte? found
      refine ⟨?_, rfl⟩
      rintro rfl
      simp [OpCode.ofByte?_byte] at found
    · simp at h
  · rintro ⟨decodable, rfl⟩
    simp [OpCode.ofByte?_byte, decodable]

/-- What is read where the instruction stands. -/
def Instruction.decoded (i : Instruction) : Decoded := ⟨i.op, i.operands, i.width⟩

def Decoded.instruction (d : Decoded) : Instruction := ⟨d.op, d.operands⟩

@[simp] theorem Instruction.instruction_decoded (i : Instruction) : i.decoded.instruction = i := rfl

namespace Code

variable {code : Code} {offset : Nat}

theorem operandBytes_eq (op : OpCode) :
    code.operandBytes offset op = (code.toList.drop (offset + 1)).take op.operandWidths.sum := by
  have width : op.width - 1 = op.operandWidths.sum := instructionWidth_sub_one _
  simp only [operandBytes, Array.toList_extract, List.extract_eq_take_drop]
  congr 1
  omega

theorem decode_of_has {i : Instruction} (wellFormed : i.WellFormed)
    (has : code.Has offset i.bytes) : code.decode offset = .ok i.decoded := by
  obtain ⟨decodable, declared, fits⟩ := Instruction.wellFormed_iff.1 wellFormed
  have opened : code[offset]? = some i.op.byte := has.getElem? (i := 0) rfl
  have operands : code.operandBytes offset i.op = encodeOperands i.op.operandWidths i.operands := by
    obtain ⟨rest, stands⟩ := has
    rw [operandBytes_eq, ← List.drop_drop, ← stands]
    have length := length_encodeOperands i.op.operandWidths i.operands
    simp [Instruction.bytes, ← length]
  have read := readOperands_encodeOperands i.op.operandWidths_readable declared fits []
  rw [List.append_nil] at read
  simp only [decode, opened, decodeOpCode_eq_ok_iff.2 ⟨decodable, rfl⟩, operands, read]
  rfl

theorem has_of_decode {d : Decoded} (h : code.decode offset = .ok d) :
    d.instruction.WellFormed ∧ code.Has offset d.instruction.bytes ∧ d = d.instruction.decoded := by
  unfold decode at h
  split at h
  · simp at h
  · rename_i byte found
    split at h
    · simp at h
    · rename_i op opened
      split at h
      · rename_i operands count read
        obtain rfl := Except.ok.inj h
        obtain ⟨decodable, rfl⟩ := decodeOpCode_eq_ok_iff.1 opened
        obtain ⟨rfl, declared, fits, joined⟩ := encodeOperands_of_readOperands read
        refine ⟨Instruction.wellFormed_iff.2 ⟨decodable, declared, fits⟩, ?_, rfl⟩
        obtain ⟨inside, first⟩ := Array.getElem?_eq_some_iff.1 found
        have operands :
            encodeOperands op.operandWidths operands <+: code.toList.drop (offset + 1) := by
          rw [operandBytes_eq] at joined
          exact List.IsPrefix.trans ⟨_, joined⟩ (List.take_prefix _ _)
        unfold Has
        rw [List.drop_eq_getElem_cons (by simpa using inside), Array.getElem_toList, first]
        exact List.cons_prefix_cons.2 ⟨rfl, operands⟩
      · simp at h

end Code

/-! ### Streams -/

/-- What is read where the instructions stand one after another, the first at `offset`. -/
def placed (offset : Nat) : List Instruction → List (Nat × Decoded)
  | [] => []
  | i :: rest => (offset, i.decoded) :: placed (offset + i.width) rest

theorem instruction_placed (offset : Nat) (instructions : List Instruction) :
    (placed offset instructions).map (fun d => d.2.instruction) = instructions := by
  induction instructions generalizing offset with
  | nil => rfl
  | cons i rest ih => simp [placed, ih]

namespace Code

variable {code : Code} {offset : Nat}

theorem Has.drop_eq {i : Instruction} (has : code.Has offset i.bytes) :
    code.toList.drop offset = i.bytes ++ code.toList.drop (offset + i.width) := by
  obtain ⟨rest, stands⟩ := has
  rw [← List.drop_drop, ← stands, ← i.length_bytes, List.drop_left]

theorem instructionsFrom_of_ok {d : Decoded} (read : code.decode offset = .ok d) :
    code.instructionsFrom offset =
      (code.instructionsFrom (offset + d.width)).map ((offset, d) :: ·) := by
  rw [instructionsFrom, if_pos (of_decode_eq_ok read).1]
  split
  · rename_i failed
    simp [read] at failed
  · rename_i d' found
    obtain rfl := Except.ok.inj (read.symm.trans found)
    split
    · rename_i failed
      rw [failed]
      rfl
    · rename_i walked
      rw [walked]
      rfl

theorem instructionsFrom_of_assemble {instructions : List Instruction}
    (wellFormed : ∀ i ∈ instructions, i.WellFormed)
    (stands : code.toList.drop offset = assemble instructions) :
    code.instructionsFrom offset = .ok (placed offset instructions) := by
  induction instructions generalizing offset with
  | nil =>
    have beyond : code.size ≤ offset := by simpa using stands
    rw [instructionsFrom, if_neg (by omega)]
    rfl
  | cons i rest ih =>
    rw [assemble_cons] at stands
    have has : code.Has offset i.bytes := ⟨assemble rest, stands.symm⟩
    have read := decode_of_has (wellFormed i (by simp)) has
    have after := List.append_cancel_left (has.drop_eq.symm.trans stands)
    have remaining := ih (fun j member => wellFormed j (by simp [member])) after
    rw [instructionsFrom_of_ok read, Instruction.decoded, remaining]
    rfl

theorem listing_of_assemble {instructions : List Instruction}
    (wellFormed : ∀ i ∈ instructions, i.WellFormed) (stands : code.toList = assemble instructions) :
    code.listing = .ok (String.join ((placed 0 instructions).map fun d => line d.1 d.2)) := by
  have walked : code.instructions = .ok (placed 0 instructions) :=
    instructionsFrom_of_assemble wellFormed stands
  rw [listing, walked]

theorem assemble_of_instructionsFrom {decoded : List (Nat × Decoded)}
    (h : code.instructionsFrom offset = .ok decoded) :
    ∃ instructions, (∀ i ∈ instructions, i.WellFormed) ∧
      code.toList.drop offset = assemble instructions ∧ decoded = placed offset instructions := by
  fun_induction instructionsFrom code offset generalizing decoded with
  | case1 offset inside e failed => simp at h
  | case2 offset inside d read e failed ih => simp at h
  | case3 offset inside d read rest found ih =>
    obtain rfl := Except.ok.inj h
    obtain ⟨instructions, wellFormed, stands, rfl⟩ := ih found
    obtain ⟨first, has, same⟩ := has_of_decode read
    have width : d.width = d.instruction.width := congrArg Decoded.width same
    rw [width] at stands
    refine ⟨d.instruction :: instructions, by simpa using ⟨first, wellFormed⟩, ?_, ?_⟩
    · rw [has.drop_eq, stands, assemble_cons]
    · rw [placed, ← same, width]
  | case4 offset beyond =>
    obtain rfl := Except.ok.inj h
    exact ⟨[], by simp, by simpa using beyond, rfl⟩

end Code

/-- The joined encodings of the instructions, unless an operand does not fit. -/
def encodeAll? : List Instruction → Option (List UInt8)
  | [] => some []
  | i :: rest =>
    if fits : i.op.Fits i.operands then
      (encodeAll? rest).map fun bytes => encode i.op i.operands fits ++ bytes
    else none

theorem encodeAll?_eq_assemble {instructions : List Instruction}
    (wellFormed : ∀ i ∈ instructions, i.WellFormed) :
    encodeAll? instructions = some (assemble instructions) := by
  induction instructions with
  | nil => rfl
  | cons i rest ih =>
    obtain ⟨-, -, fits⟩ := Instruction.wellFormed_iff.1 (wellFormed i (by simp))
    have remaining := ih fun j member => wellFormed j (by simp [member])
    rw [encodeAll?, dif_pos fits, remaining, encode_eq_bytes]
    rfl

theorem sum_width_placed (offset : Nat) (instructions : List Instruction) :
    ((placed offset instructions).map fun d => d.2.width).sum = totalWidth instructions := by
  induction instructions generalizing offset with
  | nil => rfl
  | cons i rest ih => simp [placed, ih, Instruction.decoded]

/-- Decoding undoes encoding on streams of any length, and encoding undoes decoding on every stream
that has a listing. -/
theorem streams_roundTrip :
    (∀ instructions : List Instruction, (∀ i ∈ instructions, i.WellFormed) →
      ∃ bytes decoded, encodeAll? instructions = some bytes ∧
        Code.instructions bytes.toArray = .ok decoded ∧
        decoded.map (fun d => d.2.instruction) = instructions ∧
        (decoded.map fun d => d.2.width).sum = bytes.length) ∧
    ∀ (code : Code) (text : String), code.listing = .ok text →
      ∃ decoded, code.instructions = .ok decoded ∧
        encodeAll? (decoded.map fun d => d.2.instruction) = some code.toList := by
  constructor
  · intro instructions wellFormed
    refine ⟨assemble instructions, placed 0 instructions, encodeAll?_eq_assemble wellFormed, ?_,
      instruction_placed 0 instructions, ?_⟩
    · exact Code.instructionsFrom_of_assemble wellFormed (by simp)
    · rw [sum_width_placed, length_assemble]
  · intro code text h
    unfold Code.listing at h
    split at h
    · rename_i decoded walked
      obtain ⟨instructions, wellFormed, stands, rfl⟩ := Code.assemble_of_instructionsFrom walked
      refine ⟨placed 0 instructions, walked, ?_⟩
      rw [instruction_placed, encodeAll?_eq_assemble wellFormed, ← stands, List.drop_zero]
    · simp at h

/-- A stream whose operands look like operations. -/
def lookalike : List Instruction := [⟨.jump, [3341]⟩, .plain .pushNull, ⟨.constant, [65535]⟩]

def lookalikeCode : Code := #[13, 13, 13, 15, 0, 255, 255]

theorem lookalike_wellFormed : ∀ i ∈ lookalike, i.WellFormed := by
  simp only [lookalike, List.forall_mem_cons, Instruction.wellFormed_iff]
  decide

theorem streams_roundTrip_lookalike :
    (∀ i ∈ lookalike, i.WellFormed) ∧ encodeAll? lookalike = some lookalikeCode.toList ∧
      ∃ decoded text, lookalikeCode.instructions = .ok decoded ∧
        decoded.map (fun d => d.2.instruction) = lookalike ∧ lookalikeCode.listing = .ok text ∧
        encodeAll? (decoded.map fun d => d.2.instruction) = some lookalikeCode.toList := by
  have encoded : encodeAll? lookalike = some lookalikeCode.toList := by decide
  obtain ⟨bytes, decoded, encoded', walked, same, -⟩ :=
    streams_roundTrip.1 lookalike lookalike_wellFormed
  obtain rfl : bytes = lookalikeCode.toList := Option.some.inj (encoded'.symm.trans encoded)
  have listed : lookalikeCode.listing =
      .ok (String.join (decoded.map fun d => Code.line d.1 d.2)) := by
    simp only [Code.listing, show lookalikeCode.instructions = .ok decoded from walked]
  obtain ⟨again, walked', encoded''⟩ := streams_roundTrip.2 lookalikeCode _ listed
  obtain rfl := Except.ok.inj (walked.symm.trans walked')
  exact ⟨lookalike_wellFormed, encoded, decoded, _, walked, same, listed, encoded''⟩

end MonkeyLanguage
