import MonkeyLanguage.Proofs.Code.Operands

/-!
# Streams of any bytes

Not every stream of bytes is assembled from instructions, but each one splits in a single way into
the instructions that can be read from its front and a tail that opens with none. The tail alone
decides whether the stream has a listing, and if not, for which reason.

The bytes of an operand are part of an instruction and are never looked at as operations, so the
tail stands where the first fault is.
-/

namespace MonkeyLanguage

namespace Code

/-- What opens with no whole instruction: nothing, a byte that is no operation, or an operation that
has lost bytes of its operand. -/
inductive Tail : List UInt8 → Prop
  | nothing : Tail []
  | unknown {byte : UInt8} {rest : List UInt8} (large : 16 ≤ byte.toNat) : Tail (byte :: rest)
  | cut {op : OpCode} {rest : List UInt8} (carries : op.operandWidths ≠ [])
      (short : rest.length < 2) : Tail (op.byte :: rest)

/-- The bytes are the joined encodings of the instructions, and the tail behind them. -/
structure Splits (bytes : List UInt8) (instructions : List Instruction) (tail : List UInt8) :
    Prop where
  wellFormed : ∀ i ∈ instructions, i.WellFormed
  joined : ∃ encoded, encodeAll? instructions = some encoded ∧ bytes = encoded ++ tail
  tail : Tail tail

end Code

/-! ### What a stretch of bytes opens with -/

theorem OpCode.operandWidths_of_ne_nil {op : OpCode} (carries : op.operandWidths ≠ []) :
    op.operandWidths = [2] :=
  op.operandWidths_cases.resolve_left carries

theorem OpCode.ne_sentinel_of_carries {op : OpCode} (carries : op.operandWidths ≠ []) :
    op ≠ .sentinel := by
  rintro rfl
  exact carries rfl

theorem decodeOpCode_of_large {byte : UInt8} (large : 16 ≤ byte.toNat) :
    decodeOpCode byte = .error (.unknownOpCode byte) := by
  have beyond : OpCode.ofByte? byte = none := List.getElem?_eq_none large
  rw [decodeOpCode, beyond]

theorem OpCode.exists_byte {byte : UInt8} (small : byte.toNat < 16) :
    ∃ op : OpCode, op ≠ .sentinel ∧ byte = op.byte := by
  obtain ⟨op, found⟩ : ∃ op, ofByte? byte = some op := ⟨_, List.getElem?_eq_getElem small⟩
  refine ⟨op, decodeOpCode_eq_ok_iff.1 ?_⟩
  rw [decodeOpCode, found]

/-- A word operation with both bytes of its operand behind it is an instruction. -/
theorem Instruction.exists_word {op : OpCode} (word : op.operandWidths = [2]) (high low : UInt8) :
    ∃ i : Instruction, i.WellFormed ∧ i.bytes = [op.byte, high, low] := by
  have read : readOperand 2 [high, low] = .ok (256 * high.toNat + low.toNat) := rfl
  obtain ⟨small, same⟩ := bigEndian_of_readOperand read
  refine ⟨⟨op, [256 * high.toNat + low.toNat]⟩, wellFormed_word word (by omega), ?_⟩
  simpa [Instruction.bytes, word, encodeOperands] using same

namespace Code

theorem opens_or_tail (bytes : List UInt8) :
    Tail bytes ∨ ∃ i rest, Instruction.WellFormed i ∧ bytes = i.bytes ++ rest := by
  cases bytes with
  | nil => exact .inl .nothing
  | cons byte rest =>
    by_cases large : 16 ≤ byte.toNat
    · exact .inl (.unknown large)
    obtain ⟨op, decodable, rfl⟩ := OpCode.exists_byte (Nat.not_le.1 large)
    rcases op.operandWidths_cases with plain | word
    · refine .inr ⟨.plain op, rest, Instruction.wellFormed_plain plain decodable, ?_⟩
      simp [Instruction.bytes, Instruction.plain, plain, encodeOperands]
    · have carries : op.operandWidths ≠ [] := by simp [word]
      rcases rest with _ | ⟨high, _ | ⟨low, rest⟩⟩
      · exact .inl (.cut carries (by simp))
      · exact .inl (.cut carries (by simp))
      · obtain ⟨i, wellFormed, same⟩ := Instruction.exists_word word high low
        exact .inr ⟨i, rest, wellFormed, by simp [same]⟩

variable {code : Code} {offset : Nat}

theorem getElem?_of_drop {byte : UInt8} {rest : List UInt8}
    (stands : code.toList.drop offset = byte :: rest) : code[offset]? = some byte := by
  have first : (code.toList.drop offset)[0]? = some byte := by rw [stands]; rfl
  simpa using first

/-! ### What is read there -/

theorem decode_of_large {byte : UInt8} {rest : List UInt8}
    (stands : code.toList.drop offset = byte :: rest) (large : 16 ≤ byte.toNat) :
    code.decode offset = .error (.unknownOpCode byte) := by
  simp only [decode, getElem?_of_drop stands, decodeOpCode_of_large large]

theorem decode_of_cut {op : OpCode} {rest : List UInt8}
    (stands : code.toList.drop offset = op.byte :: rest) (carries : op.operandWidths ≠ [])
    (short : rest.length < 2) : code.decode offset = .error (.truncated op offset) := by
  have word := OpCode.operandWidths_of_ne_nil carries
  have decodable := OpCode.ne_sentinel_of_carries carries
  have missing : readOperands op.operandWidths (code.operandBytes offset op) =
      .error .missingBytes := by
    rw [readOperands_operandBytes, ← List.drop_drop, stands, List.drop_one, List.tail_cons]
    exact readOperands_of_short op.operandWidths_readable (by simpa [word] using short)
  simp only [decode, getElem?_of_drop stands, decodeOpCode_eq_ok_iff.2 ⟨decodable, rfl⟩, missing]

/-- Inside the stream there are two ways to fail. -/
theorem fault_cases {e : DecodeError} (inside : offset < code.size)
    (fault : code.decode offset = .error e) :
    (∃ byte rest, code.toList.drop offset = byte :: rest ∧ 16 ≤ byte.toNat ∧
      e = .unknownOpCode byte) ∨
    ∃ op rest, code.toList.drop offset = op.byte :: rest ∧ op.operandWidths ≠ [] ∧
      rest.length < 2 ∧ e = .truncated op offset := by
  rcases opens_or_tail (code.toList.drop offset) with tail | ⟨i, rest, wellFormed, stands⟩
  · generalize stands : code.toList.drop offset = bytes at tail
    cases tail with
    | nothing =>
      rw [List.drop_eq_nil_iff, Array.length_toList] at stands
      omega
    | unknown large =>
      have read := decode_of_large stands large
      exact .inl ⟨_, _, rfl, large, Except.error.inj (fault.symm.trans read)⟩
    | cut carries short =>
      have read := decode_of_cut stands carries short
      exact .inr ⟨_, _, rfl, carries, short, Except.error.inj (fault.symm.trans read)⟩
  · have read := decode_of_has wellFormed ⟨rest, stands.symm⟩
    simp [read] at fault

end Code

theorem Instruction.not_tail {i : Instruction} (wellFormed : i.WellFormed) (rest : List UInt8) :
    ¬ Code.Tail (i.bytes ++ rest) := by
  intro tail
  -- The instruction in front is read, while whatever a tail opens with is not.
  have has : Code.Has (i.bytes ++ rest).toArray 0 i.bytes := List.prefix_append _ _
  have read := Code.decode_of_has wellFormed has
  generalize same : i.bytes ++ rest = bytes at tail read
  have stands : bytes.toArray.toList.drop 0 = bytes := rfl
  cases tail with
  | nothing => simp [Instruction.bytes] at same
  | unknown large => simp [Code.decode_of_large stands large] at read
  | cut carries short => simp [Code.decode_of_cut stands carries short] at read

/-- No encoding of an instruction opens the encoding of another one. -/
theorem Instruction.bytes_append_inj {i j : Instruction} {rest rest' : List UInt8}
    (first : i.WellFormed) (second : j.WellFormed) (same : i.bytes ++ rest = j.bytes ++ rest') :
    i = j ∧ rest = rest' := by
  have has : Code.Has (i.bytes ++ rest).toArray 0 i.bytes := List.prefix_append _ _
  have has' : Code.Has (i.bytes ++ rest).toArray 0 j.bytes := ⟨rest', same.symm⟩
  have read := (Code.decode_of_has first has).symm.trans (Code.decode_of_has second has')
  obtain rfl : i = j := congrArg Decoded.instruction (Except.ok.inj read)
  exact ⟨rfl, List.append_cancel_left same⟩

/-! ### The split -/

namespace Code

namespace Splits

variable {bytes tail : List UInt8} {instructions : List Instruction}

theorem bytes_eq (h : Splits bytes instructions tail) : bytes = assemble instructions ++ tail := by
  obtain ⟨encoded, written, same⟩ := h.joined
  rw [encodeAll?_eq_assemble h.wellFormed] at written
  rw [same, Option.some.inj written]

theorem of_bytes_eq (wellFormed : ∀ i ∈ instructions, i.WellFormed) (ends : Tail tail)
    (same : bytes = assemble instructions ++ tail) : Splits bytes instructions tail :=
  ⟨wellFormed, ⟨_, encodeAll?_eq_assemble wellFormed, same⟩, ends⟩

end Splits

theorem exists_splits (bytes : List UInt8) : ∃ instructions tail, Splits bytes instructions tail := by
  rcases opens_or_tail bytes with tail | ⟨i, rest, wellFormed, same⟩
  · exact ⟨[], bytes, .of_bytes_eq (by simp) tail rfl⟩
  · have shorter : rest.length < bytes.length := by
      have := i.width_pos
      simp [same]
      omega
    obtain ⟨instructions, tail, splits⟩ := exists_splits rest
    refine ⟨i :: instructions, tail, .of_bytes_eq ?_ splits.tail ?_⟩
    · simpa using ⟨wellFormed, splits.wellFormed⟩
    · rw [same, splits.bytes_eq, assemble_cons, List.append_assoc]
termination_by bytes.length

theorem assemble_append_inj {tail tail' : List UInt8} {instructions instructions' : List Instruction}
    (wellFormed : ∀ i ∈ instructions, i.WellFormed) (wellFormed' : ∀ i ∈ instructions', i.WellFormed)
    (ends : Tail tail) (ends' : Tail tail')
    (same : assemble instructions ++ tail = assemble instructions' ++ tail') :
    instructions' = instructions ∧ tail' = tail := by
  induction instructions generalizing instructions' with
  | nil =>
    cases instructions' with
    | nil => exact ⟨rfl, same.symm⟩
    | cons j rest' =>
      rw [assemble_nil, List.nil_append, assemble_cons, List.append_assoc] at same
      exact absurd (same ▸ ends) (Instruction.not_tail (wellFormed' j (by simp)) _)
  | cons i rest ih =>
    rw [assemble_cons, List.append_assoc] at same
    cases instructions' with
    | nil =>
      rw [assemble_nil, List.nil_append] at same
      exact absurd (same ▸ ends') (Instruction.not_tail (wellFormed i (by simp)) _)
    | cons j rest' =>
      rw [assemble_cons, List.append_assoc] at same
      obtain ⟨rfl, remaining⟩ :=
        Instruction.bytes_append_inj (wellFormed i (by simp)) (wellFormed' j (by simp)) same
      obtain ⟨rfl, rfl⟩ := ih (fun k member => wellFormed k (by simp [member]))
        (fun k member => wellFormed' k (by simp [member])) remaining
      exact ⟨rfl, rfl⟩

theorem Splits.unique {bytes tail tail' : List UInt8} {instructions instructions' : List Instruction}
    (h : Splits bytes instructions tail) (h' : Splits bytes instructions' tail') :
    instructions' = instructions ∧ tail' = tail :=
  assemble_append_inj h.wellFormed h'.wellFormed h.tail h'.tail (h.bytes_eq.symm.trans h'.bytes_eq)

/-! ### The listing of a split stream -/

variable {code : Code} {offset : Nat} {instructions : List Instruction} {tail : List UInt8}

theorem instructionsFrom_of_error {e : DecodeError} (inside : offset < code.size)
    (fault : code.decode offset = .error e) : code.instructionsFrom offset = .error e := by
  rw [instructionsFrom, if_pos inside]
  split
  · rename_i failed
    obtain rfl := Except.error.inj (failed.symm.trans fault)
    rfl
  · rename_i found
    simp [fault] at found

/-- The first fault ends the walk, after any number of instructions. -/
theorem instructionsFrom_of_fault {e : DecodeError}
    (wellFormed : ∀ i ∈ instructions, i.WellFormed) (has : code.Has offset (assemble instructions))
    (inside : offset + totalWidth instructions < code.size)
    (fault : code.decode (offset + totalWidth instructions) = .error e) :
    code.instructionsFrom offset = .error e := by
  induction instructions generalizing offset with
  | nil => exact instructionsFrom_of_error inside fault
  | cons i rest ih =>
    rw [has_assemble_cons] at has
    rw [totalWidth_cons, ← Nat.add_assoc] at inside fault
    have read := decode_of_has (wellFormed i (by simp)) has.1
    have remaining := ih (fun j member => wellFormed j (by simp [member])) has.2 inside fault
    rw [instructionsFrom_of_ok read, Instruction.decoded, remaining]
    rfl

theorem drop_of_splits (splits : Splits code.toList instructions tail) :
    code.toList.drop (totalWidth instructions) = tail := by
  rw [splits.bytes_eq, ← length_assemble, List.drop_left]

theorem listing_of_fault {e : DecodeError} (splits : Splits code.toList instructions tail)
    (left : tail ≠ []) (fault : code.decode (totalWidth instructions) = .error e) :
    code.listing = .error e := by
  have has : code.Has 0 (assemble instructions) := ⟨tail, splits.bytes_eq.symm⟩
  have inside : totalWidth instructions < code.size := by
    have rest := drop_of_splits splits
    by_contra outside
    rw [List.drop_eq_nil_of_le (by simpa using outside)] at rest
    exact left rest.symm
  have walked : code.instructions = .error e :=
    instructionsFrom_of_fault splits.wellFormed has (by simpa using inside) (by simpa using fault)
  rw [listing, walked]

theorem listing_of_unknown {byte : UInt8} {rest : List UInt8} (large : 16 ≤ byte.toNat)
    (splits : Splits code.toList instructions (byte :: rest)) :
    code.listing = .error (.unknownOpCode byte) :=
  listing_of_fault splits (List.cons_ne_nil _ _) (decode_of_large (drop_of_splits splits) large)

theorem listing_of_cut {op : OpCode} {rest : List UInt8} (carries : op.operandWidths ≠ [])
    (short : rest.length < 2) (splits : Splits code.toList instructions (op.byte :: rest)) :
    code.listing = .error (.truncated op (totalWidth instructions)) :=
  listing_of_fault splits (List.cons_ne_nil _ _)
    (decode_of_cut (drop_of_splits splits) carries short)

theorem listing_of_nothing (splits : Splits code.toList instructions []) :
    code.listing = .ok (String.join ((placed 0 instructions).map fun d => line d.1 d.2)) :=
  listing_of_assemble splits.wellFormed (by simp [splits.bytes_eq])

/-- The tail alone decides how the listing ends. -/
theorem listing_cases (splits : Splits code.toList instructions tail) :
    (tail = [] ∧ ∃ text, code.listing = .ok text) ∨
    (∃ byte rest, tail = byte :: rest ∧ code.listing = .error (.unknownOpCode byte)) ∨
    ∃ op rest, tail = op.byte :: rest ∧
      code.listing = .error (.truncated op (totalWidth instructions)) := by
  cases splits.tail with
  | nothing => exact .inl ⟨rfl, _, listing_of_nothing splits⟩
  | unknown large => exact .inr (.inl ⟨_, _, rfl, listing_of_unknown large splits⟩)
  | cut carries short => exact .inr (.inr ⟨_, _, rfl, listing_of_cut carries short splits⟩)

/-! ### The listing as a loop -/

/-- Adds line after line to a text, from the offset on, until the code ends or an instruction cannot
be read. There is no answer where that takes more passes than are given. -/
def listWithin (code : Code) : Nat → Nat → String → Option (Except DecodeError String)
  | 0, offset, text => if offset < code.size then none else some (.ok text)
  | passes + 1, offset, text =>
    if offset < code.size then
      match code.decode offset with
      | .ok d => listWithin code passes (offset + d.width) (text ++ line offset d)
      | .error e => some (.error e)
    else some (.ok text)

/-- The loop ends, with as many passes as bytes are left, since every instruction has a byte. -/
theorem listWithin_eq {passes : Nat} (enough : code.size ≤ offset + passes) (text : String) :
    code.listWithin passes offset text = some ((code.instructionsFrom offset).map fun decoded =>
      text ++ String.join (decoded.map fun d => line d.1 d.2)) := by
  induction passes generalizing offset text with
  | zero =>
    have outside : ¬ offset < code.size := Nat.not_lt.2 enough
    rw [listWithin, if_neg outside, instructionsFrom, if_neg outside]
    simp [Except.map]
  | succ passes ih =>
    by_cases inside : offset < code.size
    · rw [listWithin, if_pos inside]
      cases read : code.decode offset with
      | ok d =>
        have advanced := (of_decode_eq_ok read).2
        change code.listWithin passes (offset + d.width) (text ++ line offset d) = _
        rw [ih (by omega), instructionsFrom_of_ok read]
        cases code.instructionsFrom (offset + d.width) with
        | ok decoded => simp [Except.map, String.append_assoc]
        | error e => rfl
      | error e =>
        rw [instructionsFrom_of_error inside read]
        rfl
    · rw [listWithin, if_neg inside, instructionsFrom, if_neg inside]
      simp [Except.map]

end Code

/-- Every stream of bytes splits in one way into joined encodings of instructions and a tail. The
listing always comes to an end: with the whole text exactly where the tail is empty, and otherwise
with the fault that the tail opens with. -/
theorem every_stream_splits (code : Code) :
    ∃ instructions tail, Code.Splits code.toList instructions tail ∧
      (∀ instructions' tail', Code.Splits code.toList instructions' tail' →
        instructions' = instructions ∧ tail' = tail) ∧
      (∀ passes, code.size ≤ passes → code.listWithin passes 0 "" = some code.listing) ∧
      ((∃ text, code.listing = .ok text) ↔ tail = []) ∧
      (∀ byte rest, 16 ≤ byte.toNat → tail = byte :: rest →
        code.listing = .error (.unknownOpCode byte)) ∧
      (∀ (op : OpCode) rest, op.operandWidths ≠ [] → rest.length < 2 → tail = op.byte :: rest →
        code.listing = .error (.truncated op (code.size - tail.length))) ∧
      ∀ offset length, code.listing ≠ .error (.outOfBounds offset length) := by
  obtain ⟨instructions, tail, splits⟩ := Code.exists_splits code.toList
  have start : totalWidth instructions = code.size - tail.length := by
    have length := congrArg List.length splits.bytes_eq
    rw [Array.length_toList, List.length_append, length_assemble] at length
    omega
  refine ⟨instructions, tail, splits, fun _ _ => splits.unique, fun passes enough => ?_, ?_, ?_, ?_,
    ?_⟩
  · rw [Code.listWithin_eq (by simpa using enough)]
    simp only [String.empty_append, Code.listing, Code.instructions]
    cases code.instructionsFrom 0 <;> rfl
  · constructor
    · rintro ⟨text, listed⟩
      rcases Code.listing_cases splits with
        ⟨ends, -⟩ | ⟨byte, rest, -, fault⟩ | ⟨op, rest, -, fault⟩
      · exact ends
      · cases listed.symm.trans fault
      · cases listed.symm.trans fault
    · rintro rfl
      exact ⟨_, Code.listing_of_nothing splits⟩
  · rintro byte rest large rfl
    exact Code.listing_of_unknown large splits
  · rintro op rest carries short rfl
    rw [← start]
    exact Code.listing_of_cut carries short splits
  · intro offset length outOfBounds
    rcases Code.listing_cases splits with
      ⟨-, text, listed⟩ | ⟨byte, rest, -, fault⟩ | ⟨op, rest, -, fault⟩
    · cases outOfBounds.symm.trans listed
    · cases outOfBounds.symm.trans fault
    · cases outOfBounds.symm.trans fault

/-- A load that has lost a byte. The operand of the jump in front reads like two more jumps. -/
def brokenOff : Code := #[13, 13, 13, 15, 0, 255]

theorem every_stream_splits_brokenOff :
    brokenOff.listing = .error (.truncated .constant 4) ∧
      brokenOff.listWithin 6 0 "" = some (.error (.truncated .constant 4)) := by
  have cutLoad : Code.Tail [OpCode.constant.byte, 255] := .cut (by decide) (by decide)
  have splits : Code.Splits brokenOff.toList [⟨.jump, [3341]⟩, .plain .pushNull] [0, 255] := by
    refine .of_bytes_eq ?_ cutLoad (by decide)
    simp only [List.forall_mem_cons, Instruction.wellFormed_iff]
    decide
  obtain ⟨instructions, tail, -, unique, ends, -, -, cut, -⟩ := every_stream_splits brokenOff
  obtain ⟨rfl, rfl⟩ := unique _ _ splits
  have listed := cut .constant [255] (by decide) (by decide) rfl
  exact ⟨listed, by rw [ends 6 (by decide), listed]; rfl⟩

end MonkeyLanguage
