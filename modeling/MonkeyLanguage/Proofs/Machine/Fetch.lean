import MonkeyLanguage.Proofs.Code.Tail
import MonkeyLanguage.Proofs.Machine.Pointer
import MonkeyLanguage.Proofs.Machine.Run

/-!
# Fetching and decoding

The machine reads the byte of an operation by itself, and each operation reads its own operand. What
it reads in this way is what decoding at the pointer gives: the machine does the same as one that
decodes a whole instruction, passes it, and then performs it.
-/

namespace MonkeyLanguage.Machine

/-- What an operation does with operands that have been read and passed. With operands of another
number than it declares it does nothing; none are decoded so. -/
def perform (constants : Array Value) (op : OpCode) (operands : List Nat) : Action Unit :=
  match op, operands with
  | .constant, [index] =>
    match constants[index]? with
    | some constant => push constant
    | none => throw (.missingConstant index)
  | .pushTrue, [] => push (.boolean true)
  | .pushFalse, [] => push (.boolean false)
  | .pushNull, [] => push .null
  | .add, [] | .sub, [] | .mul, [] | .div, [] | .equal, [] | .notEqual, [] | .greaterThan, [] =>
    binary op
  | .bang, [] => do
    let value ← pop
    push (.boolean !value.isTruthy)
  | .minus, [] => do
    match ← pop with
    | .integer n => push (.integer (-n))
    | value => throw (.unsupportedNegation value.type)
  | .pop, [] => do
    let _ ← pop
  | .jump, [target] => jump target
  | .jumpNotTruthy, [target] => do
    let condition ← pop
    if condition.isTruthy then pure () else jump target
  | _, _ => pure ()

/-- The machine that decodes. It halts where there is nothing to decode. -/
def runDecoded (bytecode : Bytecode) : Nat → Machine → Status × Machine
  | 0, m => (if m.ip < bytecode.code.size then .running else .halted, m)
  | steps + 1, m =>
    match bytecode.code.decode m.ip with
    | .ok d =>
      match perform bytecode.constants d.op d.operands ⟨m.stack, m.ip + d.width⟩ with
      | .ok () m => runDecoded bytecode steps m
      | .error e m => (.failed e, m)
    | .error (.outOfBounds _ _) => (.halted, m)
    | .error e => (.failed (.decode e), ⟨m.stack, m.ip + 1⟩)

variable {bytecode : Bytecode} {m : Machine}

/-! ### One step -/

theorem execute_eq_perform {op : OpCode} {operands : List Nat} {stack : Stack} {ip : Nat}
    (wellFormed : (Instruction.mk op operands).WellFormed)
    (has : bytecode.code.Has ip (Instruction.mk op operands).bytes) :
    execute bytecode op ip ⟨stack, ip + 1⟩ =
      perform bytecode.constants op operands ⟨stack, ip + op.width⟩ := by
  have declared := wellFormed.declared
  cases op with
  | constant | jump | jumpNotTruthy =>
    obtain ⟨n, rfl, read⟩ := exists_fetchOperand rfl has wellFormed
    simp only [execute, perform]
    rw [bind_of_ok read]
    rfl
  | sentinel => exact absurd rfl wellFormed.decodable
  | _ =>
    obtain rfl := List.length_eq_zero_iff.1 declared
    rfl

theorem step_of_decode {d : Decoded} (read : bytecode.code.decode m.ip = .ok d) :
    step bytecode m = perform bytecode.constants d.op d.operands ⟨m.stack, m.ip + d.width⟩ := by
  obtain ⟨wellFormed, has, same⟩ := Code.has_of_decode read
  have width : d.width = d.op.width := congrArg Decoded.width same
  rw [step_eq has wellFormed, width]
  exact execute_eq_perform wellFormed has

theorem fetchOperand_of_short {code : Code} {stack : Stack} {ip offset : Nat} {op : OpCode}
    (short : code.size < ip + 2) : fetchOperand code op offset ⟨stack, ip⟩ =
      .error (.decode (.truncated op offset)) ⟨stack, ip⟩ := by
  have low : code[ip + 1]? = none := Array.getElem?_eq_none (by omega)
  simp only [fetchOperand, low]
  cases code[ip]? <;> rfl

theorem moves_of_decode {d : Decoded} (read : bytecode.code.decode m.ip = .ok d) :
    MovesTo (fun ip => ip = m.ip + d.width ∨
      (d.op = .jump ∨ d.op = .jumpNotTruthy) ∧ d.operands = [ip]) (step bytecode m) := by
  obtain ⟨wellFormed, has, same⟩ := Code.has_of_decode read
  have width : d.width = d.instruction.width := congrArg Decoded.width same
  refine (step_moves has wellFormed).mono fun ip arrived => arrived.imp (width ▸ ·) fun target => ?_
  unfold Instruction.targets at target
  split at target
  · rename_i jumps
    have declared := wellFormed.declared
    have word : d.instruction.op.operandWidths = [2] := by
      rcases jumps with jump | jumpNotTruthy
      · rw [jump]; rfl
      · rw [jumpNotTruthy]; rfl
    rw [word] at declared
    obtain ⟨n, operands⟩ := List.length_eq_one_iff.1 declared
    rw [operands, List.mem_singleton] at target
    exact ⟨jumps, target ▸ operands⟩
  · cases target

/-- A failure to read leaves the stack alone, and the pointer behind the byte of the operation. -/
theorem step_of_fault {e : DecodeError} (inside : m.ip < bytecode.code.size)
    (fault : bytecode.code.decode m.ip = .error e) :
    step bytecode m = .error (.decode e) ⟨m.stack, m.ip + 1⟩ := by
  obtain ⟨stack, ip⟩ := m
  have located : pointer ⟨stack, ip⟩ = .ok ip ⟨stack, ip⟩ := rfl
  rw [step, bind_of_ok located]
  rcases Code.fault_cases inside fault with
    ⟨byte, rest, stands, large, rfl⟩ | ⟨op, rest, stands, carries, short, rfl⟩
  · apply bind_of_error
    simp only [fetchOpCode, Code.getElem?_of_drop stands, decodeOpCode_of_large large]
  · have size := congrArg List.length stands
    simp only [List.length_drop, Array.length_toList, List.length_cons] at size
    -- The operation itself is read, and what stands behind it ends before its operand does.
    have missing : fetchOperand bytecode.code op ip ⟨stack, ip + 1⟩ =
        .error (.decode (.truncated op ip)) ⟨stack, ip + 1⟩ :=
      fetchOperand_of_short (by omega)
    have decodable := OpCode.ne_sentinel_of_carries carries
    have has : bytecode.code.Has ip (op.byte :: rest) := ⟨[], by rw [stands, List.append_nil]⟩
    rw [bind_of_ok (fetchOpCode_eq has decodable)]
    cases op with
    | constant | jump | jumpNotTruthy => exact bind_of_error missing
    | _ => simp [OpCode.operandWidths] at carries

/-! ### Runs -/

theorem run_eq_runDecoded (steps : Nat) : run bytecode steps m = runDecoded bytecode steps m := by
  induction steps generalizing m with
  | zero => rfl
  | succ steps ih =>
    by_cases inside : m.ip < bytecode.code.size
    · rw [run, if_pos inside, runDecoded]
      cases read : bytecode.code.decode m.ip with
      | ok d =>
        have stepped := step_of_decode read
        cases performed : perform bytecode.constants d.op d.operands ⟨m.stack, m.ip + d.width⟩ with
        | ok _ m' =>
          simp only [stepped, performed]
          exact ih
        | error e m' => simp only [stepped, performed]
      | error e =>
        rw [step_of_fault inside read]
        rcases Code.fault_cases inside read with ⟨byte, rest, -, -, rfl⟩ | ⟨op, rest, -, -, -, rfl⟩
        · rfl
        · rfl
    · have outside : bytecode.code.size ≤ m.ip := Nat.not_lt.1 inside
      rw [run_outside outside, runDecoded, Code.decode, Array.getElem?_eq_none outside]

/-- The machine agrees with the decoder at every place of every code, whatever has been done to the
stack and the pointer before. What is decoded there is performed, with the pointer behind it until a
jump is taken, and what cannot be decoded is the failure of the run. -/
theorem fetch_agrees_with_decoder (bytecode : Bytecode) (m : Machine)
    (inside : m.ip < bytecode.code.size) :
    (∀ d, bytecode.code.decode m.ip = .ok d →
      step bytecode m = perform bytecode.constants d.op d.operands ⟨m.stack, m.ip + d.width⟩ ∧
      MovesTo (fun ip => ip = m.ip + d.width ∨
        (d.op = .jump ∨ d.op = .jumpNotTruthy) ∧ d.operands = [ip]) (step bytecode m)) ∧
    (∀ e, bytecode.code.decode m.ip = .error e →
      ((∃ byte, e = .unknownOpCode byte) ∨ ∃ op, e = .truncated op m.ip) ∧
      ∀ steps, run bytecode (steps + 1) m = (.failed (.decode e), ⟨m.stack, m.ip + 1⟩)) ∧
    ∀ steps, run bytecode steps m = runDecoded bytecode steps m := by
  refine ⟨fun d read => ⟨step_of_decode read, moves_of_decode read⟩,
    fun e fault => ⟨?_, fun steps => ?_⟩, fun steps => run_eq_runDecoded steps⟩
  · rcases Code.fault_cases inside fault with ⟨byte, _, -, -, rfl⟩ | ⟨op, _, -, -, -, rfl⟩
    · exact .inl ⟨byte, rfl⟩
    · exact .inr ⟨op, rfl⟩
  · rw [run, if_pos inside, step_of_fault inside fault]

theorem fetch_agrees_with_decoder_brokenOff :
    4 < brokenOff.size ∧ step ⟨brokenOff, #[]⟩ ⟨.empty, 0⟩ = jump 3341 ⟨.empty, 3⟩ ∧
      run ⟨brokenOff, #[]⟩ 1 ⟨.empty, 4⟩ =
        (.failed (.decode (.truncated .constant 4)), ⟨.empty, 5⟩) := by
  have read : brokenOff.decode 0 = .ok ⟨.jump, [3341], 3⟩ := by decide
  have fault : brokenOff.decode 4 = .error (.truncated .constant 4) := by decide
  have first := fetch_agrees_with_decoder ⟨brokenOff, #[]⟩ ⟨.empty, 0⟩ (by decide)
  have last := fetch_agrees_with_decoder ⟨brokenOff, #[]⟩ ⟨.empty, 4⟩ (by decide)
  exact ⟨by decide, (first.1 _ read).1, (last.2.1 _ fault).2 0⟩

end MonkeyLanguage.Machine
