import Mathlib.Data.List.Induction
import MonkeyLanguage.Proofs.Compiler.Fit
import MonkeyLanguage.Proofs.Compiler.Forward
import MonkeyLanguage.Proofs.Compiler.Incremental
import MonkeyLanguage.Proofs.Machine.Computation

/-!
# How deep the stack gets

The highest point of compiled code is known from the tree. The machine gets no higher than that, and
without conditionals it cannot get past that point without having been so high.
-/

namespace MonkeyLanguage

/-! ### What a tree needs -/

mutual

/-- The values on the stack while an expression is computed, when there are most of them. The
operand that is computed second has the first one below it. -/
def Expr.need : Expr → Nat
  | .unary _ operand => operand.need
  | .binary op left right =>
    if op = .lessThan then max right.need (1 + left.need) else max left.need (1 + right.need)
  | .conditional condition consequence alternative =>
    max condition.need (max (Stmt.needAll consequence) (Stmt.needElse alternative))
  | _ => 1

def Stmt.need : Stmt → Nat
  | .expression value => value.need
  | .block body => Stmt.needAll body
  | _ => 1

def Stmt.needAll : List Stmt → Nat
  | [] => 1
  | s :: rest => max s.need (Stmt.needAll rest)

def Stmt.needElse : Option (List Stmt) → Nat
  | none => 1
  | some body => Stmt.needAll body

end

theorem Expr.need_pos (e : Expr) : 1 ≤ e.need := by
  match e with
  | .unary _ operand => exact operand.need_pos
  | .binary op left right =>
    have onLeft := left.need_pos
    have onRight := right.need_pos
    simp only [Expr.need]
    split <;> omega
  | .conditional condition _ _ =>
    have tested := condition.need_pos
    simp only [Expr.need]
    omega
  | .identifier _ | .integer _ | .string _ | .boolean _ | .array _ | .hash _ | .function _ _
  | .index _ _ | .call _ _ => exact Nat.le_refl 1

/-! ### The highest point of code -/

/-- The greatest height over a stretch of code as it is written, counted from its start. -/
def peak : List Instruction → Int
  | [] => 0
  | i :: rest => max 0 (i.op.drift + peak rest)

theorem peak_nonneg (code : List Instruction) : 0 ≤ peak code := by
  cases code with
  | nil => exact Int.le_refl 0
  | cons i rest => exact Int.le_max_left _ _

theorem peak_append (first second : List Instruction) :
    peak (first ++ second) = max (peak first) (drift first + peak second) := by
  induction first with
  | nil =>
    have floor := peak_nonneg second
    simp only [List.nil_append, peak, drift_nil]
    omega
  | cons i rest ih =>
    simp only [List.cons_append, peak, drift_cons, ih]
    omega

theorem peak_plain (op : OpCode) : peak [.plain op] = max 0 op.drift := by
  rw [peak, peak, Int.add_zero, Instruction.plain]

/-- No point of the code is higher. -/
theorem drift_le_peak (before after : List Instruction) :
    drift before ≤ peak (before ++ after) := by
  have floor := peak_nonneg after
  rw [peak_append]
  omega

/-- Some point of the code is as high. -/
theorem exists_drift_eq_peak (code : List Instruction) :
    ∃ before after, code = before ++ after ∧ drift before = peak code := by
  induction code with
  | nil => exact ⟨[], [], rfl, rfl⟩
  | cons i rest ih =>
    obtain ⟨before, after, same, high⟩ := ih
    by_cases above : 0 ≤ i.op.drift + peak rest
    · refine ⟨i :: before, after, by rw [same, List.cons_append], ?_⟩
      rw [drift_cons, high, peak]
      omega
    · refine ⟨[], i :: rest, rfl, ?_⟩
      rw [drift_nil, peak]
      omega

theorem DeliversBlock.drift_eq {code : List Instruction} {start : Nat} {height : Int}
    (h : DeliversBlock code start height) : drift code = 0 := by
  rcases h with rfl | ⟨front, rfl, delivers⟩
  · rfl
  · rw [drift_append, delivers.drift_eq]
    rfl

/-- The value of a branch stays on the stack, so that a branch is never flat. -/
theorem DeliversBlock.peak_branchCode {code : List Instruction} {start : Nat} {height : Int}
    (h : DeliversBlock code start height) : peak (branchCode code) = max 1 (peak code) := by
  rcases h with rfl | ⟨front, rfl, delivers⟩
  · rfl
  · have last := drift_le_peak front []
    rw [List.append_nil, delivers.drift_eq] at last
    have kept : branchCode (front ++ [.plain .pop]) = front := by simp [branchCode]
    rw [kept, peak_append, delivers.drift_eq, peak_plain, OpCode.drift]
    omega

mutual

theorem Expr.peak_translate (e : Expr) (compilable : e.Every Expr.IsCompilable Stmt.IsCompilable)
    (start pool : Nat) : peak (e.translate start pool) = e.need := by
  match e with
  | .integer _ | .boolean true | .boolean false => rfl
  | .unary op operand =>
    have inside := operand.peak_translate compilable.2 start pool
    have level := (operand.delivers compilable.2 start pool (Int.le_refl 0)).drift_eq
    have floor := operand.need_pos
    have flat : op.opCode.drift = 0 := by cases op <;> rfl
    rw [Expr.translate, Expr.need, peak_append, peak_plain, inside, level, flat]
    omega
  | .binary op left right =>
    obtain ⟨-, onLeft, onRight⟩ := compilable
    have lower : op.opCode.drift = -1 := by cases op <;> rfl
    have operands : ∀ {first second : Expr} (here there pool pool' : Nat),
        first.Every Expr.IsCompilable Stmt.IsCompilable →
        peak (first.translate here pool) = first.need →
        peak (second.translate there pool') = second.need →
        drift (second.translate there pool') = 1 →
        peak (first.translate here pool ++ second.translate there pool' ++ [.plain op.opCode]) =
          max first.need (1 + second.need) := by
      intro first second here there pool pool' onFirst high high' level'
      have level := (first.delivers onFirst here pool (Int.le_refl 0)).drift_eq
      have floor := second.need_pos
      rw [peak_append, peak_append, drift_append, peak_plain, high, high', level, level', lower]
      omega
    simp only [Expr.translate, Expr.need]
    split
    · have first := right.peak_translate onRight start pool
      exact operands _ _ _ _ onRight first (left.peak_translate onLeft _ _)
        (left.delivers onLeft _ _ (Int.le_refl 0)).drift_eq
    · have first := left.peak_translate onLeft start pool
      exact operands _ _ _ _ onLeft first (right.peak_translate onRight _ _)
        (right.delivers onRight _ _ (Int.le_refl 0)).drift_eq
  | .conditional condition consequence alternative =>
    obtain ⟨-, onTest, onBody, onElse⟩ := compilable
    obtain ⟨test, branch, other, outside, stop, same, rfl, rfl, rfl, -, -⟩ :=
      Expr.translate_conditional condition consequence alternative start pool
    have tested := condition.peak_translate onTest start pool
    have level := (condition.delivers onTest start pool (Int.le_refl 0)).drift_eq
    have body := Stmt.deliversAll consequence onBody
      (start + totalWidth (condition.translate start pool) + 3)
      (pool + condition.literals.length) (Int.le_refl 0)
    have entered := body.peak_branchCode
    rw [Stmt.peak_translateAll consequence onBody] at entered
    have level' := (body.branch (Int.le_refl 0)).drift_eq
    have otherwise := Stmt.peak_translateElse alternative onElse outside
      (pool + condition.literals.length + (Stmt.literalsAll consequence).length)
    have floor := condition.need_pos
    rw [same]
    simp only [peak_append, drift_append, drift_cons, drift_nil, peak, tested, entered, otherwise,
      level, level', OpCode.drift, Expr.need]
    omega
  | .identifier _ | .string _ | .array _ | .hash _ | .function _ _ | .index _ _ | .call _ _ =>
    simp [Expr.Every, Expr.IsCompilable] at compilable

theorem Stmt.peak_translate (s : Stmt) (compilable : s.Every Expr.IsCompilable Stmt.IsCompilable)
    (start pool : Nat) : max 1 (peak (s.translate start pool)) = s.need := by
  match s with
  | .expression value =>
    have inside := value.peak_translate compilable.2 start pool
    have level := (value.delivers compilable.2 start pool (Int.le_refl 0)).drift_eq
    have floor := value.need_pos
    rw [Stmt.translate, Stmt.need, peak_append, peak_plain, inside, level, OpCode.drift]
    omega
  | .block body =>
    simpa only [Stmt.translate, Stmt.need] using Stmt.peak_translateAll body compilable.2 start pool
  | .bind _ _ | .ret _ => simp [Stmt.Every, Stmt.IsCompilable] at compilable

theorem Stmt.peak_translateAll (body : List Stmt)
    (compilable : Stmt.EveryIn Expr.IsCompilable Stmt.IsCompilable body) (start pool : Nat) :
    max 1 (peak (Stmt.translateAll body start pool)) = Stmt.needAll body := by
  match body with
  | [] =>
    simp only [Stmt.translateAll, Stmt.needAll, peak]
    rfl
  | s :: rest =>
    have first := s.peak_translate compilable.1 start pool
    have level := (s.delivers compilable.1 start pool (Int.le_refl 0)).drift_eq
    have others := Stmt.peak_translateAll rest compilable.2 (start + s.size)
      (pool + s.literals.length)
    rw [Stmt.translateAll, Stmt.needAll, peak_append, level]
    omega

theorem Stmt.peak_translateElse (alternative : Option (List Stmt))
    (compilable : Stmt.EveryElse Expr.IsCompilable Stmt.IsCompilable alternative)
    (start pool : Nat) :
    peak (Stmt.translateElse alternative start pool) = Stmt.needElse alternative := by
  match alternative with
  | none => rfl
  | some body =>
    have block := Stmt.deliversAll body compilable start pool (Int.le_refl 0)
    rw [Stmt.translateElse, Stmt.needElse, block.peak_branchCode,
      Stmt.peak_translateAll body compilable start pool]

end

namespace Bytecode.Translates

variable {bytecode : Bytecode} {program : Program}

theorem peak_eq (h : bytecode.Translates program) :
    max 1 (peak (Stmt.translateAll program 0 0)) = Stmt.needAll program :=
  Stmt.peak_translateAll program h.compilable 0 0

end Bytecode.Translates

/-! ### Room on the stack -/

namespace Machine

variable {bytecode : Bytecode}

/-- An action ends as `post` says, or fails for another reason than that the stack is full. -/
def HasRoom {α : Type} (post : Machine → Prop) : EStateM.Result RuntimeError Machine α → Prop
  | .ok _ m => post m
  | .error e _ => e ≠ .stackOverflow

theorem HasRoom.bind {α β : Type} {x : Action α} {f : α → Action β} {m : Machine}
    {p q : Machine → Prop} (first : HasRoom p (x m))
    (next : ∀ a m', p m' → HasRoom q (f a m')) : HasRoom q ((x >>= f) m) := by
  change HasRoom q (EStateM.bind x f m)
  unfold EStateM.bind
  cases result : x m with
  | ok a m' =>
    rw [result] at first
    exact next a m' first
  | error e m' =>
    rw [result] at first
    exact first

theorem throw_hasRoom {α : Type} {e : RuntimeError} {m : Machine} {p : Machine → Prop}
    (other : e ≠ .stackOverflow) : HasRoom p ((throw e : Action α) m) :=
  other

theorem push_hasRoom {m : Machine} (value : Value) (room : m.stack.height < Stack.capacity) :
    HasRoom (fun _ => True) (push value m) := by
  obtain ⟨m', pushed, -⟩ := push_of_height value room
  rw [pushed]
  trivial

/-- What is popped makes room. -/
theorem pop_hasRoom (m : Machine) :
    HasRoom (fun m' => m'.stack.height < Stack.capacity) (pop m) := by
  obtain ⟨⟨slots, height, bound⟩, ip⟩ := m
  cases height with
  | zero => exact throw_hasRoom (by simp)
  | succ height => exact bound

theorem combine_ne_stackOverflow {op : OpCode} {left right : Value} {e : RuntimeError}
    (h : combine op left right = .error e) : e ≠ .stackOverflow := by
  unfold combine at h
  repeat' split at h
  all_goals first
    | (obtain rfl := Except.error.inj h; simp)
    | cases h

theorem binary_hasRoom (op : OpCode) (m : Machine) : HasRoom (fun _ => True) (binary op m) := by
  refine (pop_hasRoom m).bind fun right m₁ _ => (pop_hasRoom m₁).bind fun left m₂ room => ?_
  cases result : combine op left right with
  | ok value => exact push_hasRoom value room
  | error e => exact combine_ne_stackOverflow result

/-- Only what makes the stack higher needs room for that. -/
theorem step_hasRoom {m : Machine} {i : Instruction} (has : bytecode.code.Has m.ip i.bytes)
    (wellFormed : i.WellFormed) (room : i.op.drift = 1 → m.stack.height < Stack.capacity) :
    HasRoom (fun _ => True) (step bytecode m) := by
  rw [step_eq has wellFormed]
  obtain ⟨stack, ip⟩ := m
  obtain ⟨op, operands⟩ := i
  cases op with
  | constant =>
    obtain ⟨n, rfl, read⟩ := exists_fetchOperand rfl has wellFormed
    simp only [execute]
    rw [bind_of_ok read]
    cases bytecode.constants[n]? with
    | some constant => exact push_hasRoom constant (room rfl)
    | none => exact throw_hasRoom (by simp)
  | pushTrue | pushFalse | pushNull =>
    simp only [execute]
    exact push_hasRoom _ (room rfl)
  | add | sub | mul | div | equal | notEqual | greaterThan => exact binary_hasRoom _ _
  | bang => exact (pop_hasRoom _).bind fun value m' room' => push_hasRoom _ room'
  | minus =>
    refine (pop_hasRoom _).bind fun value m' room' => ?_
    cases value with
    | integer n => exact push_hasRoom _ room'
    | _ => exact throw_hasRoom (by simp)
  | pop => exact (pop_hasRoom _).bind fun value m' _ => trivial
  | jump =>
    obtain ⟨n, rfl, read⟩ := exists_fetchOperand rfl has wellFormed
    simp only [execute]
    rw [bind_of_ok read]
    trivial
  | jumpNotTruthy =>
    obtain ⟨n, rfl, read⟩ := exists_fetchOperand rfl has wellFormed
    simp only [execute]
    rw [bind_of_ok read]
    refine (pop_hasRoom _).bind fun condition m' _ => ?_
    split <;> trivial
  | sentinel => exact absurd rfl wellFormed.decodable

end Machine

/-! ### Runs -/

namespace Bytecode.Translates

open Machine

variable {bytecode : Bytecode} {program : Program} {m : Machine}

/-- Where the machine comes to, so many values are on the stack as the code before it leaves. -/
theorem exists_before (h : bytecode.Translates program) (reached : Steps bytecode .initial m) :
    ∃ before after, Stmt.translateAll program 0 0 = before ++ after ∧
      m.ip = totalWidth before ∧ (m.stack.height : Int) = drift before := by
  obtain ⟨before, after, same, place, level⟩ := h.stands reached.arrives
  exact ⟨before, after, same, by omega, by omega⟩

/-- The stack overflows only where the code gets higher than the stack. -/
theorem fails_stackOverflow (h : bytecode.Translates program)
    (failed : Fails bytecode .initial .stackOverflow) : 2048 < Stmt.needAll program := by
  obtain ⟨m, m', reached, inside, overflow⟩ := failed
  obtain ⟨before, after, same, place, level⟩ := h.exists_before reached
  rw [h.size_eq, same, totalWidth_append] at inside
  cases after with
  | nil =>
    rw [totalWidth_nil] at inside
    omega
  | cons i after =>
    have has : bytecode.code.Has m.ip i.bytes := place ▸ h.has same
    have wellFormed := h.wellFormed i (by rw [same]; simp)
    by_cases room : i.op.drift = 1 → m.stack.height < 2048
    · have fits := step_hasRoom has wellFormed room
      rw [overflow] at fits
      exact absurd rfl fits
    · obtain ⟨higher, full⟩ := Classical.not_imp.1 room
      have next := drift_le_peak (before ++ [i]) after
      rw [List.append_assoc, List.singleton_append, ← same, drift_append, drift_cons, drift_nil,
        higher] at next
      have whole := h.peak_eq
      omega

/-- Code without jumps is gone through from end to end, unless the machine fails on the way. -/
theorem reaches (h : bytecode.Translates program)
    (straight : ∀ i ∈ Stmt.translateAll program 0 0, i.targets = [])
    (safe : ∀ e, ¬ Fails bytecode .initial e) (before : List Instruction) :
    ∀ after, Stmt.translateAll program 0 0 = before ++ after →
      ∃ m, Steps bytecode .initial m ∧ m.ip = totalWidth before := by
  induction before using List.reverseRecOn with
  | nil => exact fun _ _ => ⟨.initial, .refl, rfl⟩
  | append_singleton before i ih =>
    intro after same
    rw [List.append_assoc, List.singleton_append] at same
    obtain ⟨m, reached, place⟩ := ih _ same
    have member : i ∈ Stmt.translateAll program 0 0 := by rw [same]; simp
    have has : bytecode.code.Has m.ip i.bytes := place ▸ h.has same
    have moved := step_moves has (h.wellFormed i member)
    rw [straight i member] at moved
    cases stepped : step bytecode m with
    | ok a m' =>
      rw [stepped] at moved
      refine ⟨m', reached.tail has.lt_size stepped, ?_⟩
      rw [totalWidth_append, totalWidth_cons, totalWidth_nil, ← place]
      exact moved.resolve_right (List.not_mem_nil)
    | error e m' => exact absurd ⟨m, m', reached, has.lt_size, stepped⟩ (safe e)

end Bytecode.Translates

/-! ### Programs without conditionals -/

def Expr.IsStraight : Expr → Prop
  | .conditional _ _ _ => False
  | _ => True

/-- No conditional occurs anywhere in the program. -/
def Program.Straight (program : Program) : Prop :=
  Stmt.EveryIn Expr.IsStraight (fun _ => True) program

theorem targets_plain (op : OpCode) : (Instruction.plain op).targets = [] := by
  unfold Instruction.targets
  split <;> rfl

mutual

theorem Expr.targets_translate (e : Expr) (straight : e.Every Expr.IsStraight fun _ => True)
    (start pool : Nat) : ∀ i ∈ e.translate start pool, i.targets = [] := by
  match e with
  | .integer _ => simp [Expr.translate, Instruction.targets]
  | .boolean true | .boolean false => simp [Expr.translate, targets_plain]
  | .unary op operand =>
    have inside := operand.targets_translate straight.2 start pool
    simp only [Expr.translate, List.forall_mem_append, List.forall_mem_singleton]
    exact ⟨inside, targets_plain _⟩
  | .binary op left right =>
    obtain ⟨-, onLeft, onRight⟩ := straight
    simp only [Expr.translate]
    split <;> simp only [List.forall_mem_append, List.forall_mem_singleton]
    · exact ⟨⟨right.targets_translate onRight _ _, left.targets_translate onLeft _ _⟩,
        targets_plain _⟩
    · exact ⟨⟨left.targets_translate onLeft _ _, right.targets_translate onRight _ _⟩,
        targets_plain _⟩
  | .conditional _ _ _ => exact straight.1.elim
  | .identifier _ | .string _ | .array _ | .hash _ | .function _ _ | .index _ _ | .call _ _ =>
    simp [Expr.translate]

theorem Stmt.targets_translate (s : Stmt) (straight : s.Every Expr.IsStraight fun _ => True)
    (start pool : Nat) : ∀ i ∈ s.translate start pool, i.targets = [] := by
  match s with
  | .expression value =>
    simp only [Stmt.translate, List.forall_mem_append, List.forall_mem_singleton]
    exact ⟨value.targets_translate straight.2 start pool, targets_plain _⟩
  | .block body =>
    simpa only [Stmt.translate] using Stmt.targets_translateAll body straight.2 start pool
  | .bind _ _ | .ret _ => simp [Stmt.translate]

theorem Stmt.targets_translateAll (body : List Stmt)
    (straight : Stmt.EveryIn Expr.IsStraight (fun _ => True) body) (start pool : Nat) :
    ∀ i ∈ Stmt.translateAll body start pool, i.targets = [] := by
  match body with
  | [] => simp [Stmt.translateAll]
  | s :: rest =>
    simp only [Stmt.translateAll, List.forall_mem_append]
    exact ⟨s.targets_translate straight.1 _ _, Stmt.targets_translateAll rest straight.2 _ _⟩

end

namespace Machine

theorem not_fails_of_halted {bytecode : Bytecode} {steps : Nat} {m m' : Machine}
    (halted : run bytecode steps m = (.halted, m')) (e : RuntimeError) : ¬ Fails bytecode m e := by
  intro failed
  obtain ⟨count, last, same⟩ := failed.run_failed
  have ended := (run_unique halted nofun (same 0) nofun).1
  cases ended

/-- A program that needs no more than the stack holds never overflows it. One that needs more and
has no conditional to avoid that never ends well. -/
theorem stack_need_is_exact {program : Program} {bytecode : Bytecode}
    (compiled : compile program = .ok bytecode) :
    (Stmt.needAll program ≤ 2048 →
      ∀ steps m, run bytecode steps .initial ≠ (.failed .stackOverflow, m)) ∧
    (Program.Straight program → 2048 < Stmt.needAll program →
      ∀ steps m, run bytecode steps .initial ≠ (.halted, m)) := by
  have translates := translates_of_compile compiled
  constructor
  · intro enough steps m overflow
    have deep := translates.fails_stackOverflow (run_outcome overflow)
    omega
  · intro straight deep steps m halted
    obtain ⟨before, after, same, high⟩ := exists_drift_eq_peak (Stmt.translateAll program 0 0)
    obtain ⟨m', reached, place⟩ := translates.reaches
      (Stmt.targets_translateAll program straight 0 0) (not_fails_of_halted halted) before after
      same
    have here : Lands (Stmt.translateAll program 0 0) 0 0 m'.ip (drift before) :=
      ⟨before, after, same, by omega, by omega⟩
    have level := (translates.stands reached.arrives).unique here
    have bound : m'.stack.height ≤ 2048 := m'.stack.height_le
    have whole := translates.peak_eq
    omega

/-- Comparisons nested so deep on the left, `1 < 1 < ... < 1`. -/
def comparisons : Nat → Expr
  | 0 => .integer 1
  | n + 1 => .binary .lessThan (comparisons n) (.integer 1)

theorem comparisons_measures (n start : Nat) :
    (comparisons n).Every Expr.IsCompilable Stmt.IsCompilable ∧
      (comparisons n).Every Expr.IsStraight (fun _ => True) ∧
      (comparisons n).need = n + 1 ∧ (comparisons n).literals.length = n + 1 ∧
      (comparisons n).conditionals start = [] := by
  induction n generalizing start with
  | zero => exact ⟨trivial, trivial, rfl, rfl, rfl⟩
  | succ n ih =>
    obtain ⟨compilable, straight, need, count, none⟩ := ih (start + 3)
    refine ⟨⟨trivial, compilable, trivial⟩, ⟨trivial, straight, trivial⟩, ?_, ?_, ?_⟩
    · simp only [comparisons, Expr.need, if_true, need]
      omega
    · simp only [comparisons, Expr.literals, if_true, List.length_append, count,
        List.length_singleton]
      omega
    · exact none

theorem exists_compile_comparisons (n : Nat) (few : n ≤ 65535) :
    ∃ bytecode, compile [.expression (comparisons n)] = .ok bytecode ∧
      Program.Straight [.expression (comparisons n)] ∧
      Stmt.needAll [.expression (comparisons n)] = n + 1 := by
  obtain ⟨compilable, straight, need, count, none⟩ := comparisons_measures n 0
  have fits : Fits (Stmt.conditionalsAll [.expression (comparisons n)] 0)
      (0 + (Stmt.literalsAll [.expression (comparisons n)]).length) := by
    simp only [Stmt.conditionalsAll, Stmt.conditionals, none, Stmt.literalsAll, Stmt.literals,
      List.append_nil, count]
    exact fits_nil.2 (by omega)
  obtain ⟨c, compiled⟩ := Stmt.exists_compileAll [.expression (comparisons n)]
    ⟨⟨trivial, compilable⟩, trivial⟩ (c := .empty) rfl rfl fits
  refine ⟨c.bytecode, by rw [compile, compiled], ⟨⟨trivial, straight⟩, trivial⟩, ?_⟩
  rw [Stmt.needAll, Stmt.needAll, Stmt.need, need]
  omega

theorem stack_need_is_exact_comparisons :
    (∃ bytecode, compile [.expression (comparisons 2047)] = .ok bytecode ∧
      ∀ steps m, run bytecode steps .initial ≠ (.failed .stackOverflow, m)) ∧
    ∃ bytecode, compile [.expression (comparisons 2048)] = .ok bytecode ∧
      ∀ steps m, run bytecode steps .initial ≠ (.halted, m) := by
  obtain ⟨shallow, compiled, -, need⟩ := exists_compile_comparisons 2047 (by omega)
  obtain ⟨deep, compiled', straight', need'⟩ := exists_compile_comparisons 2048 (by omega)
  exact ⟨⟨shallow, compiled, (stack_need_is_exact compiled).1 (by omega)⟩,
    deep, compiled', (stack_need_is_exact compiled').2 straight' (by omega)⟩

end Machine

end MonkeyLanguage
