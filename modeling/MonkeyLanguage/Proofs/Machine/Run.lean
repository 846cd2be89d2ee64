import MonkeyLanguage.Machine.Basic

/-!
# Runs of the machine

A run takes steps while the pointer is inside the code. `Steps` relates the machines that a run
passes, and `Fails` says with which failure it breaks off.
-/

namespace MonkeyLanguage

namespace Machine

variable {bytecode : Bytecode} {m m' m'' : Machine}

inductive Steps (bytecode : Bytecode) (m : Machine) : Machine → Prop
  | refl : Steps bytecode m m
  | tail {m' m'' : Machine} (reached : Steps bytecode m m') (inside : m'.ip < bytecode.code.size)
      (stepped : step bytecode m' = .ok () m'') : Steps bytecode m m''

def Fails (bytecode : Bytecode) (m : Machine) (e : RuntimeError) : Prop :=
  ∃ m' m'', Steps bytecode m m' ∧ m'.ip < bytecode.code.size ∧ step bytecode m' = .error e m''

namespace Steps

theorem single (inside : m.ip < bytecode.code.size) (stepped : step bytecode m = .ok () m') :
    Steps bytecode m m' :=
  .tail .refl inside stepped

theorem trans (h : Steps bytecode m m') (h' : Steps bytecode m' m'') : Steps bytecode m m'' := by
  induction h' with
  | refl => exact h
  | tail _ inside stepped ih => exact ih.tail inside stepped

theorem fails {e : RuntimeError} (h : Steps bytecode m m') (h' : Fails bytecode m' e) :
    Fails bytecode m e := by
  obtain ⟨a, b, reached, inside, failed⟩ := h'
  exact ⟨a, b, h.trans reached, inside, failed⟩

end Steps

theorem run_succ (inside : m.ip < bytecode.code.size) (stepped : step bytecode m = .ok () m')
    (steps : Nat) : run bytecode (steps + 1) m = run bytecode steps m' := by
  simp only [run, if_pos inside, stepped]

theorem run_outside (outside : bytecode.code.size ≤ m.ip) (steps : Nat) :
    run bytecode steps m = (.halted, m) := by
  cases steps <;> simp [run, Nat.not_lt.2 outside]

theorem Steps.run_eq (h : Steps bytecode m m') :
    ∃ count, ∀ steps, run bytecode (count + steps) m = run bytecode steps m' := by
  induction h with
  | refl => exact ⟨0, by simp⟩
  | @tail middle last _ inside stepped ih =>
    obtain ⟨count, same⟩ := ih
    refine ⟨count + 1, fun steps => ?_⟩
    rw [Nat.add_assoc, Nat.add_comm 1, same, run_succ inside stepped]

/-- How a run can end, and where. -/
def Outcome (bytecode : Bytecode) (m : Machine) : Status → Machine → Prop
  | .running, m' => Steps bytecode m m' ∧ m'.ip < bytecode.code.size
  | .halted, m' => Steps bytecode m m' ∧ bytecode.code.size ≤ m'.ip
  | .failed e, _ => Fails bytecode m e

theorem run_outcome {steps : Nat} {status : Status} (h : run bytecode steps m = (status, m')) :
    Outcome bytecode m status m' := by
  induction steps generalizing m with
  | zero =>
    by_cases inside : m.ip < bytecode.code.size
    · simp only [run, if_pos inside, Prod.mk.injEq] at h
      obtain ⟨rfl, rfl⟩ := h
      exact ⟨.refl, inside⟩
    · simp only [run, if_neg inside, Prod.mk.injEq] at h
      obtain ⟨rfl, rfl⟩ := h
      exact ⟨.refl, Nat.not_lt.1 inside⟩
  | succ steps ih =>
    by_cases inside : m.ip < bytecode.code.size
    · simp only [run, if_pos inside] at h
      cases stepped : step bytecode m with
      | ok _ next =>
        rw [stepped] at h
        have first := Steps.single inside stepped
        have rest := ih h
        cases status with
        | running => exact ⟨first.trans rest.1, rest.2⟩
        | halted => exact ⟨first.trans rest.1, rest.2⟩
        | failed e => exact first.fails rest
      | error e next =>
        simp only [stepped, Prod.mk.injEq] at h
        obtain ⟨rfl, rfl⟩ := h
        exact ⟨m, next, .refl, inside, stepped⟩
    · simp only [run, if_neg inside, Prod.mk.injEq] at h
      obtain ⟨rfl, rfl⟩ := h
      exact ⟨.refl, Nat.not_lt.1 inside⟩

theorem Steps.run_halted (h : Steps bytecode m m') (outside : bytecode.code.size ≤ m'.ip) :
    ∃ count, ∀ steps, run bytecode (count + steps) m = (.halted, m') := by
  obtain ⟨count, same⟩ := h.run_eq
  exact ⟨count, fun steps => by rw [same, run_outside outside]⟩

theorem Fails.run_failed {e : RuntimeError} (h : Fails bytecode m e) :
    ∃ count last, ∀ steps, run bytecode (count + steps) m = (.failed e, last) := by
  obtain ⟨m', last, reached, inside, failed⟩ := h
  obtain ⟨count, same⟩ := reached.run_eq
  refine ⟨count + 1, last, fun steps => ?_⟩
  rw [Nat.add_assoc, Nat.add_comm 1, same]
  simp only [run, if_pos inside, failed]

/-- More steps do not change how a run has ended. -/
theorem run_of_ended {steps : Nat} {status : Status} (h : run bytecode steps m = (status, m'))
    (ended : status ≠ .running) (more : Nat) :
    run bytecode (steps + more) m = (status, m') := by
  induction steps generalizing m with
  | zero =>
    by_cases inside : m.ip < bytecode.code.size
    · simp only [run, if_pos inside, Prod.mk.injEq] at h
      exact absurd h.1.symm ended
    · simp only [run, if_neg inside] at h
      rw [run_outside (Nat.not_lt.1 inside), h]
  | succ steps ih =>
    rw [Nat.succ_add]
    by_cases inside : m.ip < bytecode.code.size
    · cases stepped : step bytecode m with
      | ok _ next =>
        rw [run_succ inside stepped] at h ⊢
        exact ih h
      | error e next => simpa only [run, if_pos inside, stepped] using h
    · simpa only [run, if_neg inside] using h

theorem run_unique {steps steps' : Nat} {status status' : Status}
    (h : run bytecode steps m = (status, m')) (ended : status ≠ .running)
    (h' : run bytecode steps' m = (status', m'')) (ended' : status' ≠ .running) :
    status = status' ∧ m' = m'' := by
  have first := run_of_ended h ended steps'
  have second := run_of_ended h' ended' steps
  rw [Nat.add_comm, second] at first
  exact ⟨congrArg Prod.fst first.symm, congrArg Prod.snd first.symm⟩

end Machine

end MonkeyLanguage
