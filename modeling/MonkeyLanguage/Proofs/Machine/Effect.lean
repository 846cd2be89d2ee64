import MonkeyLanguage.Proofs.Machine.Step

/-!
# Effects of operations

How many values an operation wants on the stack, by how much it changes the height, and where it
leads. `step_meets` says that a step keeps to that, whatever the values are.
-/

namespace MonkeyLanguage

namespace OpCode

def pops : OpCode → Nat
  | add | sub | mul | div | equal | notEqual | greaterThan => 2
  | minus | bang | pop | jumpNotTruthy => 1
  | _ => 0

/-- How much higher the stack is at the instruction that is written next. What follows a jump in
writing is another branch, without the value that the jump carries to its target. -/
def drift : OpCode → Int
  | constant | pushTrue | pushFalse | pushNull => 1
  | add | sub | mul | div | equal | notEqual | greaterThan => -1
  | minus | bang | sentinel => 0
  | pop | jump | jumpNotTruthy => -1

end OpCode

def Instruction.targets (i : Instruction) : List Nat :=
  if i.op = .jump ∨ i.op = .jumpNotTruthy then i.operands else []

/-- The failures that a program can bring about: it is too deep, or its values do not fit its
operators. The others would be the fault of whoever wrote the bytecode. -/
def RuntimeError.IsOfProgram : RuntimeError → Prop
  | .stackOverflow | .unsupportedTypes _ _ _ | .unsupportedNegation _ | .divisionByZero => True
  | .stackUnderflow | .missingConstant _ | .decode _ => False

namespace Machine

variable {bytecode : Bytecode}

/-- An action ends as `post` says, or fails for a reason in the program. -/
def Meets {α : Type} (post : α → Machine → Prop) : EStateM.Result RuntimeError Machine α → Prop
  | .ok a m => post a m
  | .error e _ => e.IsOfProgram

theorem Meets.bind {α β : Type} {x : Action α} {f : α → Action β} {m : Machine}
    {p : α → Machine → Prop} {q : β → Machine → Prop} (first : Meets p (x m))
    (next : ∀ a m', p a m' → Meets q (f a m')) : Meets q ((x >>= f) m) := by
  change Meets q (EStateM.bind x f m)
  unfold EStateM.bind
  cases result : x m with
  | ok a m' =>
    rw [result] at first
    exact next a m' first
  | error e m' =>
    rw [result] at first
    exact first

theorem Meets.mono {α : Type} {p q : α → Machine → Prop}
    {r : EStateM.Result RuntimeError Machine α} (h : Meets p r) (weaker : ∀ a m, p a m → q a m) :
    Meets q r := by
  cases r with
  | ok a m => exact weaker a m h
  | error e m => exact h

theorem push_meets (value : Value) (m : Machine) :
    Meets (fun _ m' => m'.ip = m.ip ∧ m'.stack.height = m.stack.height + 1) (push value m) := by
  obtain ⟨stack, ip⟩ := m
  by_cases room : stack.height < Stack.capacity
  · obtain ⟨stack', pushed, values⟩ := Stack.push_eq value room
    have height := congrArg List.length values
    simp only [push, pushed]
    exact ⟨rfl, by simpa using height⟩
  · have full : stack.height = Stack.capacity := Nat.le_antisymm stack.height_le (by omega)
    simp only [push, Stack.push_full value full]
    trivial

theorem pop_meets {m : Machine} (enough : 1 ≤ m.stack.height) :
    Meets (fun _ m' => m'.ip = m.ip ∧ m'.stack.height + 1 = m.stack.height) (pop m) := by
  obtain ⟨⟨slots, height, bound⟩, ip⟩ := m
  cases height with
  | zero => simp at enough
  | succ n =>
    simp only [pop, Stack.pop]
    exact ⟨rfl, rfl⟩

theorem isOfProgram_of_combine {op : OpCode} {left right : Value} {e : RuntimeError}
    (h : combine op left right = .error e) : e.IsOfProgram := by
  unfold combine at h
  repeat' split at h
  all_goals first
    | (simp only [Except.error.injEq] at h; subst h; trivial)
    | simp at h

theorem binary_meets {op : OpCode} {m : Machine} (enough : 2 ≤ m.stack.height) :
    Meets (fun _ m' => m'.ip = m.ip ∧ m'.stack.height + 1 = m.stack.height) (binary op m) := by
  refine (pop_meets (by omega)).bind fun right m₁ first => ?_
  refine (pop_meets (by omega)).bind fun left m₂ second => ?_
  cases result : combine op left right with
  | ok value =>
    refine (push_meets value m₂).mono fun _ m' pushed => ?_
    omega
  | error e => exact isOfProgram_of_combine result

/-- Where a step may lead: on to the next instruction, or to a target of this one. -/
def Follows (m : Machine) (i : Instruction) (m' : Machine) : Prop :=
  (i.op ≠ .jump ∧ m'.ip = m.ip + i.width ∧ (m'.stack.height : Int) = m.stack.height + i.op.drift) ∨
    (m'.ip ∈ i.targets ∧ m'.stack.height + i.op.pops = m.stack.height)

theorem step_meets {m : Machine} {i : Instruction} (has : bytecode.code.Has m.ip i.bytes)
    (wellFormed : i.WellFormed) (loads : i.LoadsBelow bytecode.constants.size)
    (enough : i.op.pops ≤ m.stack.height) :
    Meets (fun _ m' => m.Follows i m') (step bytecode m) := by
  rw [step_eq has wellFormed]
  obtain ⟨stack, ip⟩ := m
  obtain ⟨op, operands⟩ := i
  cases op with
  | constant =>
    obtain ⟨n, rfl, read⟩ := exists_fetchOperand rfl has wellFormed
    have inside : n < bytecode.constants.size := loads rfl n (by simp)
    have found : bytecode.constants[n]? = some bytecode.constants[n] := by simp [inside]
    simp only [execute]
    rw [bind_of_ok read]
    simp only [found]
    refine (push_meets _ _).mono fun _ m' ⟨moved, higher⟩ => Or.inl ⟨nofun, moved, ?_⟩
    simp [higher, OpCode.drift]
  | pushTrue | pushFalse | pushNull =>
    simp only [execute]
    refine (push_meets _ _).mono fun _ m' ⟨moved, higher⟩ => Or.inl ⟨nofun, moved, ?_⟩
    simp [higher, OpCode.drift]
  | add | sub | mul | div | equal | notEqual | greaterThan =>
    simp only [execute]
    refine (binary_meets (by exact enough)).mono fun _ m' ⟨moved, lower⟩ =>
      Or.inl ⟨nofun, moved, ?_⟩
    simp only [OpCode.drift] at lower ⊢
    omega
  | bang =>
    simp only [execute]
    refine (pop_meets (by exact enough)).bind fun value m₁ ⟨moved₁, lower⟩ => ?_
    refine (push_meets _ _).mono fun _ m' ⟨moved, higher⟩ =>
      Or.inl ⟨nofun, moved.trans moved₁, ?_⟩
    simp only [OpCode.drift] at lower ⊢
    omega
  | minus =>
    simp only [execute]
    refine (pop_meets (by exact enough)).bind fun value m₁ ⟨moved₁, lower⟩ => ?_
    cases value with
    | integer n =>
      refine (push_meets _ _).mono fun _ m' ⟨moved, higher⟩ =>
        Or.inl ⟨nofun, moved.trans moved₁, ?_⟩
      simp only [OpCode.drift] at lower ⊢
      omega
    | _ => trivial
  | pop =>
    simp only [execute]
    refine (pop_meets (by exact enough)).bind fun value m' ⟨moved, lower⟩ =>
      Or.inl ⟨nofun, moved, ?_⟩
    simp only [OpCode.drift] at lower ⊢
    omega
  | jump =>
    obtain ⟨n, rfl, read⟩ := exists_fetchOperand rfl has wellFormed
    simp only [execute]
    rw [bind_of_ok read]
    exact Or.inr ⟨by simp [Instruction.targets], rfl⟩
  | jumpNotTruthy =>
    obtain ⟨n, rfl, read⟩ := exists_fetchOperand rfl has wellFormed
    simp only [execute]
    rw [bind_of_ok read]
    refine (pop_meets (by exact enough)).bind fun condition m₁ ⟨moved, lower⟩ => ?_
    by_cases truthy : condition.isTruthy = true
    · rw [if_pos truthy]
      refine Or.inl ⟨nofun, moved, ?_⟩
      simp only [OpCode.drift] at lower ⊢
      omega
    · rw [if_neg truthy]
      exact Or.inr ⟨by simp [Instruction.targets], lower⟩
  | sentinel => exact absurd rfl wellFormed.decodable

end Machine

end MonkeyLanguage
