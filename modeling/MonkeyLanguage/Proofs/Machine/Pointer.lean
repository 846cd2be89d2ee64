import MonkeyLanguage.Proofs.Machine.Effect

/-!
# Where a step leads

The pointer after a step depends on the instruction alone: it stands behind the instruction or at
its target, also when the step fails. The values on the stack only decide between the two.
-/

namespace MonkeyLanguage.Machine

variable {bytecode : Bytecode} {p q : Nat → Prop}

/-- The pointer ends at a place that satisfies `p`, whether the action fails or not. -/
def MovesTo {α : Type} (p : Nat → Prop) : EStateM.Result RuntimeError Machine α → Prop
  | .ok _ m => p m.ip
  | .error _ m => p m.ip

theorem MovesTo.bind {α β : Type} {x : Action α} {f : α → Action β} {m : Machine}
    (first : MovesTo p (x m)) (next : ∀ a m', p m'.ip → MovesTo p (f a m')) :
    MovesTo p ((x >>= f) m) := by
  change MovesTo p (EStateM.bind x f m)
  unfold EStateM.bind
  cases result : x m with
  | ok a m' =>
    rw [result] at first
    exact next a m' first
  | error e m' =>
    rw [result] at first
    exact first

theorem MovesTo.mono {α : Type} {r : EStateM.Result RuntimeError Machine α} (h : MovesTo p r)
    (weaker : ∀ ip, p ip → q ip) : MovesTo q r := by
  cases r with
  | ok a m => exact weaker _ h
  | error e m => exact weaker _ h

theorem push_moves {m : Machine} (value : Value) (here : p m.ip) : MovesTo p (push value m) := by
  obtain ⟨stack, ip⟩ := m
  simp only [push]
  cases stack.push value <;> exact here

theorem pop_moves {m : Machine} (here : p m.ip) : MovesTo p (pop m) := by
  obtain ⟨stack, ip⟩ := m
  simp only [pop]
  cases stack.pop <;> exact here

theorem binary_moves {m : Machine} {op : OpCode} (here : p m.ip) : MovesTo p (binary op m) := by
  refine (pop_moves here).bind fun right m₁ here₁ => ?_
  refine (pop_moves here₁).bind fun left m₂ here₂ => ?_
  cases combine op left right with
  | ok value => exact push_moves value here₂
  | error e => exact here₂

theorem step_moves {m : Machine} {i : Instruction} (has : bytecode.code.Has m.ip i.bytes)
    (wellFormed : i.WellFormed) :
    MovesTo (fun ip => ip = m.ip + i.width ∨ ip ∈ i.targets) (step bytecode m) := by
  rw [step_eq has wellFormed]
  obtain ⟨stack, ip⟩ := m
  obtain ⟨op, operands⟩ := i
  cases op with
  | constant =>
    obtain ⟨n, rfl, read⟩ := exists_fetchOperand rfl has wellFormed
    simp only [execute]
    rw [bind_of_ok read]
    cases bytecode.constants[n]? with
    | some constant => exact push_moves constant (.inl rfl)
    | none => exact .inl rfl
  | pushTrue | pushFalse | pushNull =>
    simp only [execute]
    exact push_moves _ (.inl rfl)
  | add | sub | mul | div | equal | notEqual | greaterThan =>
    simp only [execute]
    exact binary_moves (.inl rfl)
  | bang =>
    simp only [execute]
    exact (pop_moves (.inl rfl)).bind fun value m' here => push_moves _ here
  | minus =>
    simp only [execute]
    refine (pop_moves (.inl rfl)).bind fun value m' here => ?_
    cases value with
    | integer n => exact push_moves _ here
    | _ => exact here
  | pop =>
    simp only [execute]
    exact (pop_moves (.inl rfl)).bind fun value m' here => here
  | jump =>
    obtain ⟨n, rfl, read⟩ := exists_fetchOperand rfl has wellFormed
    simp only [execute]
    rw [bind_of_ok read]
    exact .inr (by simp [Instruction.targets])
  | jumpNotTruthy =>
    obtain ⟨n, rfl, read⟩ := exists_fetchOperand rfl has wellFormed
    simp only [execute]
    rw [bind_of_ok read]
    refine (pop_moves (.inl rfl)).bind fun condition m' here => ?_
    by_cases truthy : condition.isTruthy = true
    · rw [if_pos truthy]
      exact here
    · rw [if_neg truthy]
      exact .inr (by simp [Instruction.targets])
  | sentinel => exact absurd rfl wellFormed.decodable

end MonkeyLanguage.Machine
