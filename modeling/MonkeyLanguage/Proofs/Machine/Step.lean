import MonkeyLanguage.Machine.Basic
import MonkeyLanguage.Proofs.Code.Instruction

/-!
# Steps of the machine

The stack is seen through its `values`, from the bottom to the top. Each theorem on a step says
what it does where a given instruction stands.
-/

namespace MonkeyLanguage

/-! ### The stack as a list -/

namespace Stack

/-- The values on the stack, the top last. -/
def values (s : Stack) : List Value := s.slots.toList.take s.height

@[simp] theorem length_values (s : Stack) : s.values.length = s.height := by
  simp [values, s.height_le]

theorem push_eq (value : Value) {s : Stack} (room : s.height < capacity) :
    ∃ s', s.push value = .ok () s' ∧ s'.values = s.values ++ [value] := by
  refine ⟨_, by rw [push, dif_pos room], ?_⟩
  have inside : s.height < s.slots.toList.length := by simpa using room
  simp only [values, Vector.toList_set]
  rw [List.take_succ_eq_append_getElem (by simpa using inside)]
  simp [List.take_set_of_le]

theorem push_full (value : Value) {s : Stack} (full : s.height = capacity) :
    s.push value = .error .stackOverflow s := by
  rw [push, dif_neg (by omega)]

/-- The top value is popped, and left in its slot. -/
theorem pop_eq {s : Stack} {rest : List Value} {value : Value}
    (top : s.values = rest ++ [value]) :
    ∃ s', s.pop = .ok value s' ∧ s'.values = rest ∧ s'.lastPopped = value := by
  obtain ⟨slots, height, bound⟩ := s
  have length := congrArg List.length top
  simp only [length_values, List.length_append, List.length_singleton] at length
  subst length
  have inside : rest.length < slots.toList.length := by
    simp only [Vector.length_toList]
    omega
  simp only [values, List.take_succ_eq_append_getElem inside] at top
  obtain ⟨same, last⟩ := List.append_inj' top rfl
  have found : slots[rest.length] = value := by simpa using last
  refine ⟨⟨slots, rest.length, by omega⟩, ?_, same, ?_⟩
  · simp only [pop, found]
  rw [lastPopped, dif_pos (show rest.length < capacity by omega)]
  exact found

theorem top?_eq_none_iff {s : Stack} : s.top? = none ↔ s.height = 0 := by
  obtain ⟨slots, height, bound⟩ := s
  cases height <;> simp [top?]

end Stack

namespace Machine

variable {bytecode : Bytecode}

/-! ### Fetching -/

theorem bind_of_ok {α β : Type} {x : Action α} {f : α → Action β} {m m' : Machine} {a : α}
    (h : x m = .ok a m') : (x >>= f) m = f a m' := by
  change EStateM.bind x f m = f a m'
  rw [EStateM.bind, h]

theorem bind_of_error {α β : Type} {x : Action α} {f : α → Action β} {m m' : Machine}
    {e : RuntimeError} (h : x m = .error e m') : (x >>= f) m = .error e m' := by
  change EStateM.bind x f m = .error e m'
  rw [EStateM.bind, h]

theorem fetchOpCode_eq {code : Code} {stack : Stack} {ip : Nat} {op : OpCode}
    {operands : List UInt8} (has : code.Has ip (op.byte :: operands)) (decodable : op ≠ .sentinel) :
    fetchOpCode code ⟨stack, ip⟩ = .ok op ⟨stack, ip + 1⟩ := by
  have found : code[ip]? = some op.byte := has.getElem? (i := 0) rfl
  simp [fetchOpCode, found, decodeOpCode, OpCode.ofByte?_byte, decodable]

theorem fetchOperand_eq {code : Code} {stack : Stack} {ip offset n : Nat} {op : OpCode}
    (has : code.Has ip [UInt8.ofNat (n / 256), UInt8.ofNat n]) (small : n ≤ 65535) :
    fetchOperand code op offset ⟨stack, ip⟩ = .ok n ⟨stack, ip + 2⟩ := by
  have high : code[ip]? = some (UInt8.ofNat (n / 256)) := has.getElem? (i := 0) rfl
  have low : code[ip + 1]? = some (UInt8.ofNat n) := has.getElem? (i := 1) rfl
  simp only [fetchOperand, high, low, word_of_bytes small]

theorem step_eq {m : Machine} {i : Instruction} (has : bytecode.code.Has m.ip i.bytes)
    (wellFormed : i.WellFormed) :
    step bytecode m = execute bytecode i.op m.ip ⟨m.stack, m.ip + 1⟩ := by
  obtain ⟨stack, ip⟩ := m
  have located : pointer ⟨stack, ip⟩ = .ok ip ⟨stack, ip⟩ := rfl
  rw [step, bind_of_ok located, bind_of_ok (fetchOpCode_eq has wellFormed.decodable)]

theorem fetchOperand_of_has {code : Code} {stack : Stack} {ip offset n : Nat} {op : OpCode}
    (word : op.operandWidths = [2]) (has : code.Has ip (Instruction.mk op [n]).bytes)
    (wellFormed : (Instruction.mk op [n]).WellFormed) :
    fetchOperand code op offset ⟨stack, ip + 1⟩ = .ok n ⟨stack, ip + 3⟩ := by
  rw [Instruction.bytes_word word, ← List.singleton_append, Code.has_append] at has
  exact fetchOperand_eq has.2 (wellFormed.small n (by simp))

/-- An operation with an operand reads it first. -/
theorem exists_fetchOperand {code : Code} {stack : Stack} {ip : Nat} {op : OpCode}
    {operands : List Nat} (word : op.operandWidths = [2])
    (has : code.Has ip (Instruction.mk op operands).bytes)
    (wellFormed : (Instruction.mk op operands).WellFormed) :
    ∃ n, operands = [n] ∧ fetchOperand code op ip ⟨stack, ip + 1⟩ = .ok n ⟨stack, ip + 3⟩ := by
  have declared := wellFormed.declared
  rw [word] at declared
  obtain ⟨n, rfl⟩ := List.length_eq_one_iff.1 declared
  exact ⟨n, rfl, fetchOperand_of_has word has wellFormed⟩

end Machine

end MonkeyLanguage
