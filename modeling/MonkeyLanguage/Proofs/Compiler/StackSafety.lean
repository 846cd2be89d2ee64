import MonkeyLanguage.Proofs.Compiler.Balance
import MonkeyLanguage.Proofs.Machine.Run

/-!
# Compiled code on the machine

The machine always stands at an instruction of compiled code, or at its end, with as many values on
the stack as the code before it leaves. So it finds its operands, it only moves forward, and the
stack is empty at the end.
-/

namespace MonkeyLanguage

/-! ### Where the machine stands -/

/-- Instructions have bytes, so the offset says how many of them are before it. -/
theorem eq_of_totalWidth_eq {before after before' after' : List Instruction}
    (same : before ++ after = before' ++ after')
    (width : totalWidth before = totalWidth before') : before = before' := by
  induction before generalizing before' with
  | nil => exact (totalWidth_eq_zero_iff.1 width.symm).symm
  | cons i rest ih =>
    cases before' with
    | nil => exact totalWidth_eq_zero_iff.1 width
    | cons j rest' =>
      simp only [List.cons_append, List.cons.injEq] at same
      obtain ⟨rfl, same⟩ := same
      simp only [totalWidth_cons] at width
      rw [ih same (by omega)]

theorem Lands.unique {code : List Instruction} {start target : Nat} {height level level' : Int}
    (h : Lands code start height target level) (h' : Lands code start height target level') :
    level = level' := by
  obtain ⟨before, after, same, place, rfl⟩ := h
  obtain ⟨before', after', same', place', rfl⟩ := h'
  rw [eq_of_totalWidth_eq (same.symm.trans same') (by omega)]

theorem Lands.at_end {code : List Instruction} {start target : Nat} {height level : Int}
    (h : Lands code start height target level) (last : start + totalWidth code ≤ target) :
    level = height + drift code := by
  obtain ⟨before, after, rfl, place, same⟩ := h
  rw [totalWidth_append] at last
  obtain rfl : after = [] := totalWidth_eq_zero_iff.1 (by omega)
  simpa using same

/-- Inside the code the machine stands at an instruction that finds its operands. -/
theorem Balanced.instruction {code : List Instruction} {start target : Nat} {height level : Int}
    (balanced : Balanced code start height) (h : Lands code start height target level)
    (inside : target < start + totalWidth code) :
    ∃ before i after, code = before ++ i :: after ∧ target = start + totalWidth before ∧
      level = height + drift before ∧ Balanced (i :: after) target level := by
  obtain ⟨before, after, rfl, place, same⟩ := h
  cases after with
  | nil =>
    simp only [List.append_nil] at inside
    omega
  | cons i after =>
    refine ⟨before, i, after, rfl, place, same, ?_⟩
    rw [place, same]
    exact balanced.of_append

namespace Bytecode.Translates

variable {bytecode : Bytecode} {program : Program}

theorem balanced (h : bytecode.Translates program) :
    Balanced (Stmt.translateAll program 0 0) 0 0 ∧ drift (Stmt.translateAll program 0 0) = 0 := by
  have delivers := Stmt.deliversAll program h.compilable 0 0 (Int.le_refl 0)
  rcases delivers with empty | ⟨front, same, front_delivers⟩
  · rw [empty]
    exact ⟨trivial, rfl⟩
  · rw [same]
    refine ⟨front_delivers.pop (Int.le_refl 0), ?_⟩
    rw [drift_append, front_delivers.drift_eq]
    rfl

theorem size_eq (h : bytecode.Translates program) :
    bytecode.code.size = totalWidth (Stmt.translateAll program 0 0) := by
  rw [← length_assemble, ← h.code, Array.length_toList]

theorem has (h : bytecode.Translates program) {before after : List Instruction} {i : Instruction}
    (code : Stmt.translateAll program 0 0 = before ++ i :: after) :
    bytecode.code.Has (totalWidth before) i.bytes := by
  have whole : bytecode.code.Has 0 (assemble (before ++ i :: after)) := by
    rw [← code, ← h.code]
    exact Code.has_self _
  have here := (Code.has_assemble_cons.1 (Code.has_assemble_append.1 whole).2).1
  rwa [Nat.zero_add] at here

/-- The machine stands at an instruction, with the height that belongs there. -/
def Stands (program : Program) (ip height : Nat) : Prop :=
  Lands (Stmt.translateAll program 0 0) 0 0 ip height

theorem stands_initial (program : Program) : Stands program 0 0 :=
  ⟨[], Stmt.translateAll program 0 0, rfl, rfl, rfl⟩

/-- A step leads from a place where the machine may stand to a later one. -/
theorem step_stands (h : bytecode.Translates program) {m : Machine}
    (stands : Stands program m.ip m.stack.height) (inside : m.ip < bytecode.code.size) :
    Machine.Meets (fun _ m' => Stands program m'.ip m'.stack.height ∧ m.ip < m'.ip)
      (Machine.step bytecode m) := by
  rw [h.size_eq] at inside
  obtain ⟨before, i, after, code, place, level, enough, lands, -⟩ :=
    h.balanced.1.instruction stands (by omega)
  have member : i ∈ Stmt.translateAll program 0 0 := by rw [code]; simp
  have has : bytecode.code.Has m.ip i.bytes := by
    rw [place, Nat.zero_add]
    exact h.has code
  refine (Machine.step_meets has (h.wellFormed i member) (h.loads i member) (by omega)).mono ?_
  rintro - m' (⟨-, moved, height⟩ | ⟨jumped, height⟩)
  · have forward := i.width_pos
    refine ⟨⟨before ++ [i], after, by simp [code], ?_, ?_⟩, by omega⟩
    · simp only [totalWidth_append, totalWidth_cons, totalWidth_nil]
      omega
    · simp only [drift_append, drift_cons, drift_nil]
      omega
  · have forward := i.width_pos
    obtain ⟨between, rest, same, target, level'⟩ := lands m'.ip jumped
    refine ⟨⟨before ++ i :: between, rest, by simp [code, same], ?_, ?_⟩, by omega⟩
    · simp only [totalWidth_append, totalWidth_cons]
      omega
    · simp only [drift_append, drift_cons]
      omega

end Bytecode.Translates

/-! ### Ways through the code -/

/-- The offsets and heights that are met on any way through the code, whatever the values on the
stack are. -/
inductive Machine.Arrives (bytecode : Bytecode) : Nat → Nat → Prop
  | start : Arrives bytecode 0 0
  | step {m m' : Machine} (arrived : Arrives bytecode m.ip m.stack.height)
      (inside : m.ip < bytecode.code.size) (stepped : Machine.step bytecode m = .ok () m') :
      Arrives bytecode m'.ip m'.stack.height

theorem Machine.Steps.arrives {bytecode : Bytecode} {m : Machine}
    (reached : Steps bytecode .initial m) : Arrives bytecode m.ip m.stack.height := by
  induction reached with
  | refl => exact .start
  | tail _ inside stepped ih => exact .step ih inside stepped

theorem Bytecode.Translates.stands {bytecode : Bytecode} {program : Program}
    (h : bytecode.Translates program) {ip height : Nat}
    (arrived : Machine.Arrives bytecode ip height) : Stands program ip height := by
  induction arrived with
  | start => exact stands_initial program
  | step _ inside stepped ih =>
    have met := h.step_stands ih inside
    rw [stepped] at met
    exact met.1

namespace Machine

/-- Compiled code never goes wrong: only the program can make a step fail, the height at an offset
is the same on all ways to it, and nothing is left on the stack at the end. -/
theorem compile_stackSafe {program : Program} {bytecode : Bytecode}
    (compiled : compile program = .ok bytecode) :
    (∀ m, Steps bytecode .initial m → Arrives bytecode m.ip m.stack.height) ∧
      (∀ m e m', Arrives bytecode m.ip m.stack.height → m.ip < bytecode.code.size →
        step bytecode m = .error e m' → e.IsOfProgram) ∧
      (∀ offset height height', Arrives bytecode offset height →
        Arrives bytecode offset height' → height = height') ∧
      (∀ steps e m, run bytecode steps .initial = (.failed e, m) → e.IsOfProgram) ∧
      (∀ steps m, run bytecode steps .initial = (.halted, m) → m.stack.top? = none) := by
  have translates := translates_of_compile compiled
  have safe : ∀ m e m', Arrives bytecode m.ip m.stack.height → m.ip < bytecode.code.size →
      step bytecode m = .error e m' → e.IsOfProgram := by
    intro m e m' arrived inside failed
    have met := translates.step_stands (translates.stands arrived) inside
    rwa [failed] at met
  refine ⟨fun m reached => reached.arrives, safe, ?_, ?_, ?_⟩
  · intro offset height height' arrived arrived'
    exact Int.ofNat_inj.1 ((translates.stands arrived).unique (translates.stands arrived'))
  · intro steps e m failed
    obtain ⟨m', m'', reached, inside, failed⟩ := run_outcome failed
    exact safe m' e m'' reached.arrives inside failed
  · intro steps m halted
    obtain ⟨reached, outside⟩ := run_outcome halted
    have level := (translates.stands reached.arrives).at_end
      (by rw [← translates.size_eq]; omega)
    rw [translates.balanced.2] at level
    exact Stack.top?_eq_none_iff.2 (by omega)

theorem compile_stackSafe_choice :
    compile choice = .ok choiceCode ∧
      (∃ m, run choiceCode 8 .initial = (.halted, m) ∧ m.stack.lastPopped = .integer 10 ∧
        m.stack.top? = none) ∧
      ∀ steps m, run choiceCode steps .initial = (.halted, m) → m.stack.top? = none := by
  obtain ⟨-, -, -, -, emptied⟩ := compile_stackSafe compile_choice
  obtain ⟨m, halted, last⟩ := run_choice
  exact ⟨compile_choice, ⟨m, halted, last, emptied 8 m halted⟩, emptied⟩

end Machine

end MonkeyLanguage
