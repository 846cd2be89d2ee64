import MonkeyLanguage.Proofs.Compiler.Emission
import MonkeyLanguage.Proofs.Machine.Effect

/-!
# Stack balance of compiled code

Reading the code of a program from its start, the heights add up so that every operation finds its
operands, and every jump leads forward to an instruction where the height is the same on all ways.
-/

namespace MonkeyLanguage

/-- The change of height over a stretch of code as it is written. -/
def drift : List Instruction → Int
  | [] => 0
  | i :: rest => i.op.drift + drift rest

@[simp] theorem drift_nil : drift [] = 0 := rfl

@[simp] theorem drift_cons (i : Instruction) (rest : List Instruction) :
    drift (i :: rest) = i.op.drift + drift rest := rfl

@[simp] theorem drift_append (first second : List Instruction) :
    drift (first ++ second) = drift first + drift second := by
  induction first with
  | nil => simp
  | cons i rest ih => simp [ih, Int.add_assoc]

/-- A jump to `target` at height `level` meets an instruction of `code`, or its end. -/
def Lands (code : List Instruction) (start : Nat) (height : Int) (target : Nat) (level : Int) :
    Prop :=
  ∃ before after, code = before ++ after ∧ target = start + totalWidth before ∧
    level = height + drift before

theorem Lands.append {first second : List Instruction} {start target : Nat} {height level : Int}
    (h : Lands first start height target level) :
    Lands (first ++ second) start height target level := by
  obtain ⟨before, after, rfl, place, same⟩ := h
  exact ⟨before, after ++ second, List.append_assoc _ _ _, place, same⟩

/-- Every operation of `code` finds its operands, and every jump lands. -/
def Balanced : List Instruction → Nat → Int → Prop
  | [], _, _ => True
  | i :: rest, start, height =>
    (i.op.pops : Int) ≤ height ∧
      (∀ target ∈ i.targets,
        Lands rest (start + i.width) (height + i.op.drift) target (height - i.op.pops)) ∧
      Balanced rest (start + i.width) (height + i.op.drift)

theorem Balanced.append {first second : List Instruction} {start : Nat} {height : Int}
    (h : Balanced first start height)
    (h' : Balanced second (start + totalWidth first) (height + drift first)) :
    Balanced (first ++ second) start height := by
  induction first generalizing start height with
  | nil => simpa using h'
  | cons i rest ih =>
    obtain ⟨enough, lands, balanced⟩ := h
    refine ⟨enough, fun target member => (lands target member).append, ih balanced ?_⟩
    simpa [Nat.add_assoc, Int.add_assoc] using h'

theorem Balanced.of_append {first second : List Instruction} {start : Nat} {height : Int}
    (h : Balanced (first ++ second) start height) :
    Balanced second (start + totalWidth first) (height + drift first) := by
  induction first generalizing start height with
  | nil => simpa using h
  | cons i rest ih =>
    have balanced := ih h.2.2
    simpa [Nat.add_assoc, Int.add_assoc] using balanced

theorem balanced_plain {op : OpCode} {start : Nat} {height : Int}
    (enough : (op.pops : Int) ≤ height) : Balanced [.plain op] start height := by
  refine ⟨enough, ?_, trivial⟩
  intro target member
  unfold Instruction.targets at member
  split at member <;> cases member

/-! ### Trees -/

/-- Code that leaves one value more on the stack. -/
structure Delivers (code : List Instruction) (start : Nat) (height : Int) : Prop where
  drift_eq : drift code = 1
  balanced : Balanced code start height

theorem Delivers.plain {op : OpCode} {start : Nat} {height : Int}
    (enough : (op.pops : Int) ≤ height) (one : op.drift = 1) : Delivers [.plain op] start height :=
  ⟨by simpa [Instruction.plain] using one, balanced_plain enough⟩

theorem Delivers.operator {code : List Instruction} {op : OpCode} {start : Nat} {height : Int}
    (balanced : Balanced code start height) (enough : (op.pops : Int) ≤ height + drift code)
    (level : drift code + op.drift = 1) : Delivers (code ++ [.plain op]) start height :=
  ⟨by simpa [Instruction.plain] using level, balanced.append (balanced_plain enough)⟩

theorem Delivers.operands {first second : List Instruction} {start : Nat} {height : Int}
    (h : Delivers first start height)
    (h' : Delivers second (start + totalWidth first) (height + 1)) :
    Balanced (first ++ second) start height ∧ drift (first ++ second) = 2 := by
  refine ⟨h.balanced.append (by rw [h.drift_eq]; exact h'.balanced), ?_⟩
  rw [drift_append, h.drift_eq, h'.drift_eq]
  rfl

/-- Code of a block, but for the pop at its end if it is not empty. -/
def DeliversBlock (code : List Instruction) (start : Nat) (height : Int) : Prop :=
  code = [] ∨ ∃ front, code = front ++ [.plain .pop] ∧ Delivers front start height

theorem Delivers.pop {code : List Instruction} {start : Nat} {height : Int} (floor : 0 ≤ height)
    (h : Delivers code start height) : Balanced (code ++ [.plain .pop]) start height :=
  h.balanced.append (balanced_plain (by rw [h.drift_eq]; simp only [OpCode.pops]; omega))

theorem DeliversBlock.append {first second : List Instruction} {start : Nat} {height : Int}
    (floor : 0 ≤ height) (h : DeliversBlock first start height)
    (h' : DeliversBlock second (start + totalWidth first) height) :
    DeliversBlock (first ++ second) start height := by
  rcases h' with rfl | ⟨front, rfl, delivers⟩
  · simpa using h
  rcases h with rfl | ⟨front', rfl, delivers'⟩
  · exact Or.inr ⟨front, by simp, by simpa using delivers⟩
  have level : drift (front' ++ [.plain .pop]) = 0 := by
    simp only [drift_append, delivers'.drift_eq, drift_cons, drift_nil]
    rfl
  refine Or.inr ⟨front' ++ [.plain .pop] ++ front, by simp, ?_, ?_⟩
  · rw [drift_append, level, delivers.drift_eq]
    rfl
  · refine (delivers'.pop floor).append ?_
    rw [level, Int.add_zero]
    exact delivers.balanced

theorem DeliversBlock.branch {code : List Instruction} {start : Nat} {height : Int}
    (floor : 0 ≤ height) (h : DeliversBlock code start height) :
    Delivers (branchCode code) start height := by
  rcases h with rfl | ⟨front, rfl, delivers⟩
  · exact Delivers.plain floor rfl
  · simpa [branchCode] using delivers

theorem Delivers.conditional {test body other : List Instruction} {start outside stop : Nat}
    {height : Int} (floor : 0 ≤ height) (tested : Delivers test start height)
    (entered : Delivers body (start + totalWidth test + 3) height)
    (otherwise : Delivers other outside height)
    (place : outside = start + totalWidth test + 3 + totalWidth body + 3)
    (last : stop = outside + totalWidth other) :
    Delivers (test ++ [⟨.jumpNotTruthy, [outside]⟩] ++ body ++ [⟨.jump, [stop]⟩] ++ other)
      start height := by
  have jump : ∀ n, (Instruction.mk .jump [n]).width = 3 := fun _ => rfl
  have skip : ∀ n, (Instruction.mk .jumpNotTruthy [n]).width = 3 := fun _ => rfl
  refine ⟨?_, ?_⟩
  · simp only [drift_append, drift_cons, drift_nil, tested.drift_eq, entered.drift_eq,
      otherwise.drift_eq]
    rfl
  simp only [List.append_assoc]
  refine tested.balanced.append ?_
  rw [tested.drift_eq]
  refine ⟨by simp only [OpCode.pops]; omega, ?_, ?_⟩
  · intro target member
    obtain rfl : target = outside := by simpa [Instruction.targets] using member
    refine ⟨body ++ [⟨.jump, [stop]⟩], other, by simp, ?_, ?_⟩
    · simp only [totalWidth_append, totalWidth_cons, totalWidth_nil, jump, skip]
      omega
    · simp only [drift_append, drift_cons, drift_nil, entered.drift_eq, OpCode.drift, OpCode.pops]
      omega
  simp only [OpCode.drift, skip]
  rw [show height + 1 + -1 = height by omega]
  refine entered.balanced.append ?_
  rw [entered.drift_eq]
  refine ⟨by simp only [OpCode.pops]; omega, ?_, ?_⟩
  · intro target member
    obtain rfl : target = stop := by simpa [Instruction.targets] using member
    refine ⟨other, [], by simp, ?_, ?_⟩
    · simp only [jump]
      omega
    · simp only [otherwise.drift_eq, OpCode.drift, OpCode.pops]
      omega
  simp only [OpCode.drift, jump]
  rw [show height + 1 + -1 = height by omega, ← place]
  exact otherwise.balanced

mutual

theorem Expr.delivers (e : Expr) (compilable : e.Every Expr.IsCompilable Stmt.IsCompilable)
    (start pool : Nat) {height : Int} (floor : 0 ≤ height) :
    Delivers (e.translate start pool) start height := by
  match e with
  | .integer _ =>
    exact ⟨rfl, floor, by simp [Instruction.targets], trivial⟩
  | .boolean true | .boolean false => exact Delivers.plain floor rfl
  | .unary op operand =>
    have delivers := operand.delivers compilable.2 start pool floor
    simp only [Expr.translate]
    refine .operator delivers.balanced ?_ ?_ <;> rw [delivers.drift_eq] <;> cases op
    · simp only [UnaryOp.opCode, OpCode.pops]; omega
    · simp only [UnaryOp.opCode, OpCode.pops]; omega
    · rfl
    · rfl
  | .binary op left right =>
    obtain ⟨-, leftCompilable, rightCompilable⟩ := compilable
    have two : op.opCode.pops = 2 ∧ op.opCode.drift = -1 := by cases op <;> exact ⟨rfl, rfl⟩
    have operator : ∀ {code}, Balanced code start height ∧ drift code = 2 →
        Delivers (code ++ [.plain op.opCode]) start height := by
      rintro code ⟨balanced, level⟩
      exact .operator balanced (by rw [two.1, level]; omega) (by rw [two.2, level]; rfl)
    simp only [Expr.translate]
    split
    · refine operator ((right.delivers rightCompilable start pool floor).operands ?_)
      rw [right.totalWidth_translate]
      exact left.delivers leftCompilable _ _ (by omega)
    · refine operator ((left.delivers leftCompilable start pool floor).operands ?_)
      rw [left.totalWidth_translate]
      exact right.delivers rightCompilable _ _ (by omega)
  | .conditional condition consequence alternative =>
    obtain ⟨-, testCompilable, bodyCompilable, otherCompilable⟩ := compilable
    simp only [Expr.translate]
    have body := (Stmt.deliversAll consequence bodyCompilable (start + condition.size + 3)
      (pool + condition.literals.length) floor).branch floor
    refine .conditional floor (condition.delivers testCompilable start pool floor) ?_
      (Stmt.deliversElse alternative otherCompilable _ _ floor) ?_ ?_
    · rwa [condition.totalWidth_translate]
    · rw [condition.totalWidth_translate, totalWidth_branchCode (Stmt.translateAll_endsInPop _ _ _),
        Stmt.totalWidth_translateAll]
    · rw [Stmt.totalWidth_translateElse]
  | .identifier _ | .string _ | .array _ | .hash _ | .function _ _ | .index _ _ | .call _ _ =>
    simp [Expr.Every, Expr.IsCompilable] at compilable

theorem Stmt.delivers (s : Stmt) (compilable : s.Every Expr.IsCompilable Stmt.IsCompilable)
    (start pool : Nat) {height : Int} (floor : 0 ≤ height) :
    DeliversBlock (s.translate start pool) start height := by
  match s with
  | .expression value =>
    exact Or.inr ⟨value.translate start pool, by simp [Stmt.translate],
      value.delivers compilable.2 start pool floor⟩
  | .block body =>
    simpa only [Stmt.translate] using Stmt.deliversAll body compilable.2 start pool floor
  | .bind _ _ | .ret _ => simp [Stmt.Every, Stmt.IsCompilable] at compilable

theorem Stmt.deliversAll (body : List Stmt)
    (compilable : Stmt.EveryIn Expr.IsCompilable Stmt.IsCompilable body)
    (start pool : Nat) {height : Int} (floor : 0 ≤ height) :
    DeliversBlock (Stmt.translateAll body start pool) start height := by
  match body with
  | [] => exact Or.inl (by simp [Stmt.translateAll])
  | s :: rest =>
    simp only [Stmt.translateAll]
    refine (s.delivers compilable.1 start pool floor).append floor ?_
    rw [s.totalWidth_translate]
    exact Stmt.deliversAll rest compilable.2 _ _ floor

theorem Stmt.deliversElse (alternative : Option (List Stmt))
    (compilable : Stmt.EveryElse Expr.IsCompilable Stmt.IsCompilable alternative)
    (start pool : Nat) {height : Int} (floor : 0 ≤ height) :
    Delivers (Stmt.translateElse alternative start pool) start height := by
  match alternative with
  | none => exact Delivers.plain floor rfl
  | some body => exact (Stmt.deliversAll body compilable start pool floor).branch floor

end

end MonkeyLanguage
