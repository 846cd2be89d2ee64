import MonkeyLanguage.Proofs.Compiler.Emission
import MonkeyLanguage.Proofs.Eval.Run
import MonkeyLanguage.Proofs.Machine.Computation

/-!
# The engines agree

What evaluation makes of a plain program the machine computes from its code. The machine fails where
the value is an error; beyond that it fails only in ways that evaluation does not know.
-/

namespace MonkeyLanguage

/-! ### Operators -/

def Value.IsOutcome (v : Value) : Prop := v.IsBasic ∨ v.isError = true

theorem Value.IsBasic.isError_eq {v : Value} (basic : v.IsBasic) : v.isError = false := by
  match v, basic with
  | .integer _, _ | .boolean _, _ | .null, _ => rfl

theorem onValue_basic {v : Value} (basic : v.IsBasic) (next : Value → Eval Value) :
    onValue (pure v) next = next v := by
  match v, basic with
  | .integer _, _ | .boolean _, _ | .null, _ => rfl

theorem onValue_error {v : Value} (isError : v.isError = true) (next : Value → Eval Value) :
    onValue (pure v) next = pure v := by
  match v, isError with
  | .error _, _ => rfl

theorem UnaryOp.apply_isOutcome (op : UnaryOp) {operand : Value} (basic : operand.IsBasic) :
    (op.apply operand).IsOutcome := by
  cases op <;> cases operand <;>
    simp_all [Value.IsOutcome, Value.IsBasic, UnaryOp.apply, Fault.value, Value.isError]

theorem BinaryOp.onIntegers_isOutcome (op : BinaryOp) (a b : Int64) :
    (op.onIntegers a b).IsOutcome := by
  cases op with
  | divide =>
    rw [BinaryOp.onIntegers]
    split
    · exact Or.inr rfl
    · exact Or.inl trivial
  | plus | minus | multiply | lessThan | greaterThan | equal | notEqual => exact Or.inl trivial

theorem BinaryOp.apply_isOutcome (op : BinaryOp) {left right : Value} (hl : left.IsBasic)
    (hr : right.IsBasic) : (op.apply left right).IsOutcome := by
  match left, right, hl, hr with
  | .integer a, .integer b, _, _ => exact op.onIntegers_isOutcome a b
  | .boolean _, .boolean _, _, _ | .integer _, .boolean _, _, _ | .integer _, .null, _, _
  | .boolean _, .integer _, _, _ | .boolean _, .null, _, _ | .null, .integer _, _, _
  | .null, .boolean _, _, _ | .null, .null, _, _ =>
    cases op with
    | equal | notEqual => exact Or.inl trivial
    | plus | minus | multiply | divide | lessThan | greaterThan => exact Or.inr rfl

/-- What the machine makes of two operands, against the value that evaluation gives them. -/
structure Agrees (result : Except RuntimeError Value) (value : Value) : Prop where
  combined : ∀ v, result = .ok v → v = value ∧ v.IsBasic
  refused : ∀ e, result = .error e → value.isError = true ∨ e.IsOfMachine

theorem Agrees.ok {value : Value} (basic : value.IsBasic) : Agrees (.ok value) value := by
  refine ⟨?_, nofun⟩
  rintro _ ⟨⟩
  exact ⟨rfl, basic⟩

theorem Agrees.error {e : RuntimeError} {value : Value}
    (reason : value.isError = true ∨ e.IsOfMachine) : Agrees (.error e) value := by
  refine ⟨nofun, ?_⟩
  rintro _ ⟨⟩
  exact reason

theorem combine_integers {op : BinaryOp} (ordered : op ≠ .lessThan) (a b : Int64) :
    Agrees (Machine.combine op.opCode (.integer a) (.integer b)) (op.onIntegers a b) := by
  cases op with
  | lessThan => exact absurd rfl ordered
  | divide =>
    simp only [BinaryOp.opCode, Machine.combine, BinaryOp.onIntegers]
    by_cases zero : b = 0
    · rw [if_pos zero, if_pos zero]
      exact .error (Or.inl rfl)
    · rw [if_neg zero, if_neg zero]
      exact .ok trivial
  | plus | minus | multiply | greaterThan | equal | notEqual => exact .ok trivial

theorem combine_booleans (op : BinaryOp) (a b : Bool) :
    Agrees (Machine.combine op.opCode (.boolean a) (.boolean b))
      (op.apply (.boolean a) (.boolean b)) := by
  cases op with
  | equal | notEqual => exact .ok trivial
  | plus | minus | multiply | divide | lessThan | greaterThan => exact .error (Or.inl rfl)

theorem combine_apply {op : BinaryOp} (ordered : op ≠ .lessThan) {left right : Value}
    (hl : left.IsBasic) (hr : right.IsBasic) :
    Agrees (Machine.combine op.opCode left right) (op.apply left right) := by
  match left, right, hl, hr with
  | .integer a, .integer b, _, _ => exact combine_integers ordered a b
  | .boolean a, .boolean b, _, _ => exact combine_booleans op a b
  | .integer _, .boolean _, _, _ | .integer _, .null, _, _ | .boolean _, .integer _, _, _
  | .boolean _, .null, _, _ | .null, .integer _, _, _ | .null, .boolean _, _, _
  | .null, .null, _, _ =>
    -- Only evaluation compares these; neither side has another operator for them.
    cases op with
    | equal | notEqual => exact .error (Or.inr trivial)
    | plus | minus | multiply | divide | lessThan | greaterThan => exact .error (Or.inl rfl)

/-- The machine compares the operands the other way round. -/
theorem combine_lessThan {left right : Value} (hl : left.IsBasic) (hr : right.IsBasic) :
    Agrees (Machine.combine .greaterThan right left) (BinaryOp.lessThan.apply left right) := by
  match left, right, hl, hr with
  | .integer _, .integer _, _, _ => exact .ok trivial
  | .boolean _, .boolean _, _, _ | .integer _, .boolean _, _, _ | .integer _, .null, _, _
  | .boolean _, .integer _, _, _ | .boolean _, .null, _, _ | .null, .integer _, _, _
  | .null, .boolean _, _, _ | .null, .null, _, _ => exact .error (Or.inl rfl)

/-! ### Code in its place -/

/-- A stretch of code stands at `start`, and its constants are those from `pool` on. -/
structure Bytecode.Loaded (bytecode : Bytecode) (code : List Instruction) (literals : List Value)
    (start pool : Nat) : Prop where
  placed : bytecode.code.Has start (assemble code)
  available : literals <+: bytecode.constants.toList.drop pool
  wellFormed : ∀ i ∈ code, i.WellFormed

namespace Bytecode.Loaded

variable {bytecode : Bytecode} {first second : List Instruction} {ks ls : List Value}
  {start pool : Nat}

theorem append (h : bytecode.Loaded (first ++ second) (ks ++ ls) start pool) :
    bytecode.Loaded first ks start pool ∧
      bytecode.Loaded second ls (start + totalWidth first) (pool + ks.length) := by
  obtain ⟨placed, placed'⟩ := Code.has_assemble_append.1 h.placed
  obtain ⟨rest, same⟩ := h.available
  rw [List.append_assoc] at same
  refine ⟨⟨placed, ⟨ls ++ rest, same⟩, fun i member => h.wellFormed i (by simp [member])⟩,
    ⟨placed', ⟨rest, ?_⟩, fun i member => h.wellFormed i (by simp [member])⟩⟩
  rw [← List.drop_drop, ← same, List.drop_left]

theorem front (h : bytecode.Loaded (first ++ second) ks start pool) :
    bytecode.Loaded first ks start pool :=
  ⟨(Code.has_assemble_append.1 h.placed).1, h.available,
    fun i member => h.wellFormed i (by simp [member])⟩

theorem instruction {i : Instruction} (h : bytecode.Loaded (first ++ i :: second) ks start pool) :
    bytecode.code.Has (start + totalWidth first) i.bytes ∧ i.WellFormed :=
  ⟨(Code.has_assemble_cons.1 (Code.has_assemble_append.1 h.placed).2).1,
    h.wellFormed i (by simp)⟩

theorem head {i : Instruction} (h : bytecode.Loaded (i :: second) ks start pool) :
    bytecode.code.Has start i.bytes ∧ i.WellFormed :=
  ⟨(Code.has_assemble_cons.1 h.placed).1, h.wellFormed i (by simp)⟩

theorem conditional {test body other : List Instruction} {ns : List Value}
    {inside outside stop : Nat}
    (h : bytecode.Loaded
      (test ++ [⟨.jumpNotTruthy, [outside]⟩] ++ body ++ [⟨.jump, [stop]⟩] ++ other)
      (ks ++ ls ++ ns) start pool)
    (entry : inside = start + totalWidth test + 3)
    (place : outside = inside + totalWidth body + 3) :
    bytecode.Loaded test ks start pool ∧
      bytecode.Loaded body ls inside (pool + ks.length) ∧
      bytecode.Loaded other ns outside (pool + ks.length + ls.length) := by
  have skip : (Instruction.mk .jumpNotTruthy [outside]).width = 3 := rfl
  have leave : (Instruction.mk .jump [stop]).width = 3 := rfl
  obtain ⟨front, rest⟩ := h.append
  obtain ⟨tested, entered⟩ := front.front.append
  simp only [totalWidth_append, totalWidth_cons, totalWidth_nil, skip, leave, Nat.add_zero,
    List.length_append, ← Nat.add_assoc, ← entry] at rest entered
  rw [← place] at rest
  exact ⟨tested.front, entered, rest⟩

end Bytecode.Loaded

/-- The code from `start` on computes the value on any stack. -/
def Machine.Computes (bytecode : Bytecode) (code : List Instruction) (start : Nat)
    (value : Value) : Prop :=
  ∀ m : Machine, m.ip = start → Yields bytecode m (start + totalWidth code) m.stack.values value

namespace Machine.Computes

variable {bytecode : Bytecode} {code : List Instruction} {start : Nat} {value : Value}

theorem plain {op : OpCode} {ks : List Value} {pool : Nat}
    (loaded : bytecode.Loaded [.plain op] ks start pool)
    (pushes : execute bytecode op start = push value) (width : op.width = 1)
    (basic : value.IsBasic) : Computes bytecode [.plain op] start value := by
  obtain ⟨has, wellFormed⟩ := loaded.head
  rintro m rfl
  simpa [show (Instruction.plain op).width = 1 from width] using
    yields_plain_push has wellFormed pushes width basic

theorem unary {op : UnaryOp} {operand : Value} (h : Computes bytecode code start operand)
    (has : bytecode.code.Has (start + totalWidth code) (Instruction.plain op.opCode).bytes)
    (handed : operand.isError = true → value.isError = true)
    (applied : operand.IsBasic → value = op.apply operand) :
    Computes bytecode (code ++ [.plain op.opCode]) start value := by
  intro m place
  refine (h m place).bind handed fun basic m' place' top => ?_
  rw [← place'] at has
  simp only [totalWidth_append, totalWidth_cons, totalWidth_nil, Instruction.width_plain_unary]
  rw [← Nat.add_assoc, ← place', applied basic]
  cases op with
  | not => exact yields_bang has top
  | negate =>
    refine yields_minus has top ?_ ?_
    · rintro n rfl
      rfl
    · intro other
      cases operand with
      | integer n => exact absurd rfl (other n)
      | _ => rfl

theorem binary {code' : List Instruction} {middle : Nat} {op : OpCode} {first second : Value}
    (h : Computes bytecode code start first) (h' : Computes bytecode code' middle second)
    (joint : middle = start + totalWidth code)
    (has : bytecode.code.Has (start + totalWidth (code ++ code')) (Instruction.plain op).bytes)
    (wellFormed : (Instruction.plain op).WellFormed)
    (executes : ∀ offset, execute bytecode op offset = Machine.binary op) (width : op.width = 1)
    (handed : first.isError = true ∨ second.isError = true → value.isError = true)
    (agrees : first.IsBasic → second.IsBasic → Agrees (combine op first second) value) :
    Computes bytecode (code ++ code' ++ [.plain op]) start value := by
  intro m place
  refine (h m place).bind (fun isError => handed (Or.inl isError)) fun basic m₁ place₁ top₁ => ?_
  refine (h' m₁ (place₁.trans joint.symm)).bind (fun isError => handed (Or.inr isError))
    fun basic' m₂ place₂ top₂ => ?_
  have next : m₂.ip = start + totalWidth (code ++ code') := by
    rw [place₂, joint, totalWidth_append, Nat.add_assoc]
  have stop : start + totalWidth (code ++ code' ++ [.plain op]) = m₂.ip + 1 := by
    rw [next, totalWidth_append (code ++ code'), totalWidth_cons, totalWidth_nil,
      show (Instruction.plain op).width = 1 from width]
    rfl
  rw [top₁] at top₂
  rw [← next] at has
  rw [stop]
  obtain ⟨combined, refused⟩ := agrees basic basic'
  exact yields_binary has wellFormed (executes _) top₂ combined refused

theorem conditional {test body other : List Instruction} {ks : List Value}
    {inside outside pool : Nat} {condition : Value}
    (loaded : bytecode.Loaded
      (test ++ [⟨.jumpNotTruthy, [outside]⟩] ++ body ++ [⟨.jump, [outside + totalWidth other]⟩] ++
        other) ks start pool)
    (entry : inside = start + totalWidth test + 3)
    (place : outside = inside + totalWidth body + 3)
    (tested : Computes bytecode test start condition)
    (handed : condition.isError = true → value.isError = true)
    (taken : condition.IsBasic → condition.isTruthy = true →
      Computes bytecode body inside value)
    (left : condition.IsBasic → condition.isTruthy = false →
      Computes bytecode other outside value) :
    Computes bytecode
      (test ++ [⟨.jumpNotTruthy, [outside]⟩] ++ body ++ [⟨.jump, [outside + totalWidth other]⟩] ++
        other) start value := by
  have skip : (Instruction.mk .jumpNotTruthy [outside]).width = 3 := rfl
  have leave : (Instruction.mk .jump [outside + totalWidth other]).width = 3 := rfl
  have stop : start + totalWidth (test ++ [⟨.jumpNotTruthy, [outside]⟩] ++ body ++
      [⟨.jump, [outside + totalWidth other]⟩] ++ other) = outside + totalWidth other := by
    simp only [totalWidth_append, totalWidth_cons, totalWidth_nil, skip, leave]
    omega
  have first : bytecode.code.Has (start + totalWidth test)
      (Instruction.mk .jumpNotTruthy [outside]).bytes ∧
      (Instruction.mk .jumpNotTruthy [outside]).WellFormed := by
    simp only [List.append_assoc, List.singleton_append] at loaded
    exact loaded.instruction
  have second : bytecode.code.Has (inside + totalWidth body)
      (Instruction.mk .jump [outside + totalWidth other]).bytes ∧
      (Instruction.mk .jump [outside + totalWidth other]).WellFormed := by
    rw [List.append_assoc _ [_] other] at loaded
    have found := loaded.instruction
    simpa only [totalWidth_append, totalWidth_cons, totalWidth_nil, skip, Nat.add_zero,
      Nat.add_assoc, entry] using found
  intro m at_start
  rw [stop]
  refine (tested m at_start).bind handed fun basic m₁ place₁ top => ?_
  rw [← place₁] at first
  obtain ⟨m₂, jumped, values, place₂⟩ := steps_jumpNotTruthy first.1 first.2 top
  refine Yields.of_steps jumped ?_
  rw [← values]
  cases truthy : condition.isTruthy with
  | true =>
    rw [truthy, if_pos rfl, place₁, ← entry] at place₂
    rcases taken basic truthy m₂ place₂ with ⟨basic', m₃, reached, place₃, top'⟩ | failed
    · rw [← place₃] at second
      exact Or.inl ⟨basic', ⟨m₃.stack, _⟩, reached.trans (steps_jump second.1 second.2), rfl, top'⟩
    · exact Or.inr failed
  | false =>
    rw [truthy, if_neg (by decide)] at place₂
    exact left basic truthy m₂ place₂

theorem dropped {code' : List Instruction} {first : Value}
    (h : Computes bytecode code start first)
    (has : bytecode.code.Has (start + totalWidth code) (Instruction.plain .pop).bytes)
    (handed : first.isError = true → value.isError = true)
    (next : first.IsBasic → Computes bytecode code' (start + totalWidth code + 1) value) :
    Computes bytecode (code ++ [.plain .pop] ++ code') start value := by
  intro m place
  refine (h m place).bind handed fun basic m₁ place₁ top => ?_
  rw [← place₁] at has
  obtain ⟨m₂, popped, place₂, values, -⟩ := steps_pop has top
  have yields := next basic m₂ (by rw [place₂, place₁])
  rw [values] at yields
  have stop : start + totalWidth (code ++ [.plain .pop] ++ code') =
      start + totalWidth code + 1 + totalWidth code' := by
    simp only [totalWidth_append, totalWidth_cons, totalWidth_nil, Instruction.width_plain_pop]
    omega
  rw [stop]
  exact yields.of_steps popped

end Machine.Computes

/-! ### Trees -/

/-- Evaluation comes to a value that the code of the tree computes, wherever it is loaded. -/
structure Parity (evaluate : Call → Scope → Eval Value) (code : Nat → Nat → List Instruction)
    (literals : List Value) (value : Value) : Prop where
  evaluates : ∀ call scope, evaluate call scope = pure value
  outcome : value.IsOutcome
  computes : ∀ {bytecode start pool}, bytecode.Loaded (code start pool) literals start pool →
    Machine.Computes bytecode (code start pool) start value

theorem branchCode_append {first second : List Instruction} (some : second ≠ []) :
    branchCode (first ++ second) = first ++ branchCode second := by
  simp [branchCode, some, List.dropLast_append_of_ne_nil some]

/-- Statements before the last one are compiled in full. -/
theorem branchCode_translateAll (e e' : Expr) (rest : List Stmt) (start pool : Nat) :
    branchCode (Stmt.translateAll (.expression e :: .expression e' :: rest) start pool) =
      e.translate start pool ++ [.plain .pop] ++
        branchCode (Stmt.translateAll (.expression e' :: rest) (start + (e.size + 1))
          (pool + e.literals.length)) := by
  have some : Stmt.translateAll (.expression e' :: rest) (start + (e.size + 1))
      (pool + e.literals.length) ≠ [] := by simp [Stmt.translateAll, Stmt.translate]
  rw [← branchCode_append some, Stmt.translateAll]
  rfl

theorem exists_binary (op : BinaryOp) (left right : Expr) {a b : Value} (ha : a.IsOutcome)
    (hb : b.IsOutcome) (first : ∀ call scope, left.eval call scope = pure a)
    (second : ∀ call scope, right.eval call scope = pure b) :
    ∃ value : Value, (∀ call scope, (Expr.binary op left right).eval call scope = pure value) ∧
      value.IsOutcome ∧ (a.isError = true ∨ b.isError = true → value.isError = true) ∧
      (a.IsBasic → b.IsBasic → value = op.apply a b) := by
  have unfolded : ∀ call scope, (Expr.binary op left right).eval call scope =
      onValue (pure a) fun a => onValue (pure b) fun b => pure (op.apply a b) := by
    intro call scope
    simp only [Expr.eval, first, second]
  rcases ha with ha | ha
  · rcases hb with hb | hb
    · refine ⟨op.apply a b, fun call scope => ?_, op.apply_isOutcome ha hb, ?_, fun _ _ => rfl⟩
      · rw [unfolded, onValue_basic ha, onValue_basic hb]
      · simp [ha.isError_eq, hb.isError_eq]
    · refine ⟨b, fun call scope => ?_, Or.inr hb, fun _ => hb, fun _ basic => ?_⟩
      · rw [unfolded, onValue_basic ha, onValue_error hb]
      · simp [basic.isError_eq] at hb
  · refine ⟨a, fun call scope => ?_, Or.inr ha, fun _ => ha, fun basic => ?_⟩
    · rw [unfolded, onValue_error ha]
    · simp [basic.isError_eq] at ha

theorem exists_conditional (condition : Expr) (consequence : List Stmt)
    (alternative : Option (List Stmt)) {v a b : Value} (hv : v.IsOutcome) (ha : a.IsOutcome)
    (hb : b.IsOutcome) (tested : ∀ call scope, condition.eval call scope = pure v)
    (entered : ∀ call scope, Stmt.evalAll call scope .null consequence = pure a)
    (otherwise : ∀ call scope, Stmt.evalElse call scope alternative = pure b) :
    ∃ value : Value,
      (∀ call scope, (Expr.conditional condition consequence alternative).eval call scope =
        pure value) ∧
      value.IsOutcome ∧ (v.isError = true → value.isError = true) ∧
      (v.IsBasic → v.isTruthy = true → value = a) ∧
      (v.IsBasic → v.isTruthy = false → value = b) := by
  have unfolded : ∀ call scope,
      (Expr.conditional condition consequence alternative).eval call scope =
        onValue (pure v) fun v => if v.isTruthy then pure a else pure b := by
    intro call scope
    simp only [Expr.eval_conditional, tested, entered, otherwise]
  rcases hv with basic | isError
  · cases truthy : v.isTruthy with
    | true =>
      refine ⟨a, fun call scope => ?_, ha, by simp [basic.isError_eq], fun _ _ => rfl, nofun⟩
      rw [unfolded, onValue_basic basic, truthy, if_pos rfl]
    | false =>
      refine ⟨b, fun call scope => ?_, hb, by simp [basic.isError_eq], nofun, fun _ _ => rfl⟩
      rw [unfolded, onValue_basic basic, truthy, if_neg (by decide)]
  · refine ⟨v, fun call scope => ?_, Or.inr isError, fun _ => isError, ?_, ?_⟩
    · rw [unfolded, onValue_error isError]
    · exact fun basic => by simp [basic.isError_eq] at isError
    · exact fun basic => by simp [basic.isError_eq] at isError

theorem exists_sequence {e e' : Expr} (rest : List Stmt) {first last : Value}
    (outcome : first.IsOutcome) (outcome' : last.IsOutcome)
    (evaluates : ∀ call scope, e.eval call scope = pure first)
    (evaluates' : ∀ call scope,
      Stmt.evalAll call scope .null (.expression e' :: rest) = pure last) :
    ∃ value : Value,
      (∀ call scope, Stmt.evalAll call scope .null (.expression e :: .expression e' :: rest) =
        pure value) ∧
      value.IsOutcome ∧ (first.isError = true → value.isError = true) ∧
      (first.IsBasic → value = last) := by
  have unfolded : ∀ call scope,
      Stmt.evalAll call scope .null (.expression e :: .expression e' :: rest) =
        onValue (pure first) fun _ => pure last := by
    intro call scope
    rw [← evaluates call scope, ← evaluates' call scope]
    rfl
  rcases outcome with basic | isError
  · refine ⟨last, fun call scope => ?_, outcome', by simp [basic.isError_eq], fun _ => rfl⟩
    rw [unfolded, onValue_basic basic]
  · refine ⟨first, fun call scope => ?_, Or.inr isError, fun _ => isError, fun basic => ?_⟩
    · rw [unfolded, onValue_error isError]
    · simp [basic.isError_eq] at isError

/-- The tree has a value on both sides. -/
def Expr.Agrees (e : Expr) : Prop :=
  ∃ value, Parity (fun call scope => e.eval call scope) e.translate e.literals value

def Stmt.AllAgree (body : List Stmt) : Prop :=
  ∃ value, Parity (fun call scope => Stmt.evalAll call scope .null body)
    (fun start pool => branchCode (Stmt.translateAll body start pool)) (Stmt.literalsAll body) value

def Stmt.ElseAgrees (alternative : Option (List Stmt)) : Prop :=
  ∃ value, Parity (fun call scope => Stmt.evalElse call scope alternative)
    (Stmt.translateElse alternative) (Stmt.literalsElse alternative) value

theorem integer_agrees (n : Int64) : (Expr.integer n).Agrees := by
  refine ⟨.integer n, fun _ _ => rfl, Or.inl trivial, ?_⟩
  rintro bytecode start pool loaded m rfl
  obtain ⟨has, wellFormed⟩ := loaded.head
  obtain ⟨rest, same⟩ := loaded.available
  have found : bytecode.constants[pool]? = some (.integer n) := by
    rw [← Array.getElem?_toList, ← Nat.add_zero pool, ← List.getElem?_drop, ← same]
    rfl
  exact Machine.yields_constant has wellFormed found trivial

theorem unary_agrees (op : UnaryOp) {operand : Expr} (parity : operand.Agrees) :
    (Expr.unary op operand).Agrees := by
  obtain ⟨value, evaluates, outcome, computes⟩ := parity
  have unfolded : ∀ call scope, (Expr.unary op operand).eval call scope =
      onValue (pure value) fun v => pure (op.apply v) := by
    intro call scope
    simp only [Expr.eval, evaluates]
  rcases outcome with basic | isError
  · refine ⟨op.apply value, fun call scope => ?_, op.apply_isOutcome basic, fun loaded => ?_⟩
    · rw [unfolded, onValue_basic basic]
    · exact (computes loaded.front).unary loaded.instruction.1
        (by simp [basic.isError_eq]) fun _ => rfl
  · refine ⟨value, fun call scope => ?_, Or.inr isError, fun loaded => ?_⟩
    · rw [unfolded, onValue_error isError]
    · exact (computes loaded.front).unary loaded.instruction.1 (fun _ => isError)
        fun basic => by simp [basic.isError_eq] at isError

theorem binary_agrees (op : BinaryOp) {left right : Expr} (first : left.Agrees)
    (second : right.Agrees) : (Expr.binary op left right).Agrees := by
  obtain ⟨a, evaluates, outcome, computes⟩ := first
  obtain ⟨b, evaluates', outcome', computes'⟩ := second
  obtain ⟨value, evaluated, total, handed, applied⟩ :=
    exists_binary op left right outcome outcome' evaluates evaluates'
  refine ⟨value, evaluated, total, fun {bytecode start pool} loaded => ?_⟩
  by_cases less : op = .lessThan
  · subst less
    simp only [Expr.translate, Expr.literals, if_true] at loaded ⊢
    obtain ⟨front, back⟩ := loaded.front.append
    rw [right.totalWidth_translate] at back
    refine .binary (computes' front) (computes back) (by rw [right.totalWidth_translate])
      loaded.instruction.1 loaded.instruction.2 (fun _ => rfl) rfl
      (fun h => handed h.symm) fun basic' basic => ?_
    rw [applied basic basic']
    exact combine_lessThan basic basic'
  · simp only [Expr.translate, Expr.literals, if_neg less] at loaded ⊢
    obtain ⟨front, back⟩ := loaded.front.append
    rw [left.totalWidth_translate] at back
    refine .binary (computes front) (computes' back) (by rw [left.totalWidth_translate])
      loaded.instruction.1 loaded.instruction.2 (fun _ => by cases op <;> rfl)
      (by cases op <;> rfl) handed fun basic basic' => ?_
    rw [applied basic basic']
    exact combine_apply less basic basic'

theorem conditional_agrees {condition : Expr} {consequence : List Stmt}
    {alternative : Option (List Stmt)} (test : condition.Agrees)
    (taken : Stmt.AllAgree consequence) (otherwise : Stmt.ElseAgrees alternative) :
    (Expr.conditional condition consequence alternative).Agrees := by
  obtain ⟨v, evaluates, outcome, computes⟩ := test
  obtain ⟨a, evaluates₁, outcome₁, computes₁⟩ := taken
  obtain ⟨b, evaluates₂, outcome₂, computes₂⟩ := otherwise
  obtain ⟨value, evaluated, total, handed, entered, left⟩ :=
    exists_conditional condition consequence alternative outcome outcome₁ outcome₂ evaluates
      evaluates₁ evaluates₂
  refine ⟨value, evaluated, total, fun {bytecode start pool} loaded => ?_⟩
  have width₁ : ∀ start pool, totalWidth (branchCode (Stmt.translateAll consequence start pool)) =
      branchSize (Stmt.sizeAll consequence) := by
    intro start pool
    rw [totalWidth_branchCode (Stmt.translateAll_endsInPop _ _ _), Stmt.totalWidth_translateAll]
  simp only [Expr.translate, Expr.literals] at loaded ⊢
  rw [← Stmt.totalWidth_translateElse alternative
    (start + condition.size + 3 + branchSize (Stmt.sizeAll consequence) + 3)
    (pool + condition.literals.length + (Stmt.literalsAll consequence).length)] at loaded ⊢
  obtain ⟨first, second, third⟩ := loaded.conditional (by rw [condition.totalWidth_translate])
    (by rw [width₁])
  refine .conditional loaded (by rw [condition.totalWidth_translate]) (by rw [width₁])
    (computes first) handed (fun basic truthy => ?_) fun basic falsy => ?_
  · rw [entered basic truthy]
    exact computes₁ second
  · rw [left basic falsy]
    exact computes₂ third

theorem single_agrees {e : Expr} (parity : e.Agrees) : Stmt.AllAgree [.expression e] := by
  obtain ⟨value, evaluates, outcome, computes⟩ := parity
  refine ⟨value, fun call scope => ?_, outcome, fun {bytecode start pool} loaded => ?_⟩
  · simp only [Stmt.evalAll, Stmt.eval, evaluates]
    rcases outcome with basic | isError
    · rw [onValue_basic basic]
    · rw [onValue_error isError]
  · have code : branchCode (Stmt.translateAll [.expression e] start pool) =
        e.translate start pool := by
      simp [Stmt.translateAll, Stmt.translate, branchCode]
    rw [code] at loaded ⊢
    refine computes ?_
    simpa [Stmt.literalsAll, Stmt.literals] using loaded

theorem sequence_agrees {e e' : Expr} {rest : List Stmt} (first : e.Agrees)
    (others : Stmt.AllAgree (.expression e' :: rest)) :
    Stmt.AllAgree (.expression e :: .expression e' :: rest) := by
  obtain ⟨v, evaluates, outcome, computes⟩ := first
  obtain ⟨v', evaluates', outcome', computes'⟩ := others
  obtain ⟨value, evaluated, total, handed, kept⟩ :=
    exists_sequence rest outcome outcome' evaluates evaluates'
  refine ⟨value, evaluated, total, fun {bytecode start pool} loaded => ?_⟩
  simp only [branchCode_translateAll] at loaded ⊢
  obtain ⟨front, back⟩ := loaded.append
  have back' : bytecode.Loaded
      (branchCode (Stmt.translateAll (.expression e' :: rest) (start + (e.size + 1))
        (pool + e.literals.length)))
      (Stmt.literalsAll (.expression e' :: rest)) (start + (e.size + 1))
      (pool + e.literals.length) := by
    simpa [Stmt.literals, e.totalWidth_translate] using back
  refine .dropped (computes front.front) front.instruction.1 handed fun basic => ?_
  rw [kept basic, e.totalWidth_translate]
  exact computes' back'

mutual

theorem Expr.agrees (e : Expr) (plain : e.Every Expr.IsCompilable Stmt.IsExpression) :
    e.Agrees := by
  match e with
  | .integer n => exact integer_agrees n
  | .boolean true =>
    exact ⟨.boolean true, fun _ _ => rfl, Or.inl trivial, fun loaded =>
      .plain loaded rfl rfl trivial⟩
  | .boolean false =>
    exact ⟨.boolean false, fun _ _ => rfl, Or.inl trivial, fun loaded =>
      .plain loaded rfl rfl trivial⟩
  | .unary op operand => exact unary_agrees op (operand.agrees plain.2)
  | .binary op left right =>
    exact binary_agrees op (left.agrees plain.2.1) (right.agrees plain.2.2)
  | .conditional condition consequence alternative =>
    exact conditional_agrees (condition.agrees plain.2.1)
      (Stmt.allAgree consequence plain.2.2.1) (Stmt.elseAgrees alternative plain.2.2.2)
  | .identifier _ | .string _ | .array _ | .hash _ | .function _ _ | .index _ _ | .call _ _ =>
    simp [Expr.Every, Expr.IsCompilable] at plain

theorem Stmt.allAgree (body : List Stmt)
    (plain : Stmt.EveryIn Expr.IsCompilable Stmt.IsExpression body) : Stmt.AllAgree body := by
  match body, plain with
  | [], _ =>
    exact ⟨.null, fun _ _ => rfl, Or.inl trivial, fun loaded => .plain loaded rfl rfl trivial⟩
  | [.expression e], plain => exact single_agrees (e.agrees plain.1.2)
  | .expression e :: .expression e' :: rest, plain =>
    exact sequence_agrees (e.agrees plain.1.2) (Stmt.allAgree (.expression e' :: rest) plain.2)

theorem Stmt.elseAgrees (alternative : Option (List Stmt))
    (plain : Stmt.EveryElse Expr.IsCompilable Stmt.IsExpression alternative) :
    Stmt.ElseAgrees alternative := by
  match alternative with
  | none =>
    exact ⟨.null, fun _ _ => rfl, Or.inl trivial, fun loaded => .plain loaded rfl rfl trivial⟩
  | some body => exact Stmt.allAgree body plain

end

/-! ### Programs -/

namespace Machine

/-- A plain program has a value. The machine leaves it as popped last, or fails. -/
theorem exists_parity {program : Program} {bytecode : Bytecode} (plain : program.Plain)
    (translates : bytecode.Translates program) :
    ∃ value : Value, value.IsOutcome ∧
      (∀ depth scope, Program.eval depth scope program = pure value) ∧
      ((value.isError = false ∧ ∃ m, Steps bytecode .initial m ∧ bytecode.code.size ≤ m.ip ∧
          m.stack.lastPopped = value) ∨
        ∃ e, Fails bytecode .initial e ∧ (value.isError = true ∨ e.IsOfMachine)) := by
  obtain ⟨value, evaluates, outcome, computes⟩ := Stmt.allAgree program plain
  refine ⟨value, outcome, fun depth scope => ?_, ?_⟩
  · simp only [Program.eval, evaluates, pure_bind]
    rcases outcome with basic | isError <;> cases value <;>
      simp_all [Value.IsBasic, Value.isError, Value.arrived]
  have size : bytecode.code.size = totalWidth (Stmt.translateAll program 0 0) := by
    rw [← length_assemble, ← translates.code, Array.length_toList]
  rcases Stmt.translateAll_endsInPop program 0 0 with empty | ⟨front, code⟩
  · have none : program = [] := by
      cases program with
      | nil => rfl
      | cons s rest =>
        cases s with
        | expression value => simp [Stmt.translateAll, Stmt.translate] at empty
        | _ => exact plain.1.1.elim
    subst none
    have null : value = .null := by
      have same := congrFun (evaluates (fun _ _ => pure .null) (.root 0)) Store.empty
      cases same
      rfl
    refine Or.inl ⟨by rw [null]; rfl, .initial, .refl, by rw [size, empty]; exact Nat.le_refl 0, ?_⟩
    rw [null]
    simp [Machine.initial, Stack.lastPopped, Stack.empty]
  · have branch : branchCode (Stmt.translateAll program 0 0) = front := by
      simp [code, branchCode]
    have loaded : bytecode.Loaded (front ++ [.plain .pop]) (Stmt.literalsAll program) 0 0 := by
      refine ⟨?_, ?_, ?_⟩
      · rw [← code, ← translates.code]
        exact Code.has_self _
      · rw [← translates.constants]
        exact List.prefix_refl _
      · rw [← code]
        exact translates.wellFormed
    have computed : Computes bytecode front 0 value := by
      have loaded' := loaded.front
      rw [← branch] at loaded' ⊢
      exact computes loaded'
    rcases computed .initial rfl with ⟨basic, m, reached, place, top⟩ | failed
    · have has := loaded.instruction.1
      rw [← place] at has
      obtain ⟨m', popped, place', -, last⟩ := steps_pop has top
      refine Or.inl ⟨basic.isError_eq, m', reached.trans popped, ?_, last⟩
      rw [size, code, place', place]
      simp
    · exact Or.inr failed

/-- Evaluation and machine agree on plain programs, in whatever environment these are evaluated. -/
theorem engines_agree {program : Program} {bytecode : Bytecode} (plain : program.Plain)
    (compiled : compile program = .ok bytecode) (depth : Nat) (scope : Scope) (store : Store) :
    ∃ value, Program.eval depth scope program store = some (value, store) ∧
      (∃ steps, (run bytecode steps .initial).1 ≠ .running) ∧
      (∀ steps m, run bytecode steps .initial = (.halted, m) →
        value.isError = false ∧ value = m.stack.lastPopped) ∧
      (value.isError = true → ∃ steps e m, run bytecode steps .initial = (.failed e, m)) ∧
      (∀ steps e m, run bytecode steps .initial = (.failed e, m) →
        value.isError = true ∨ e = .stackOverflow ∨
          ∃ op left right, e = .unsupportedTypes op left right ∧
            (op = .equal ∨ op = .notEqual)) := by
  obtain ⟨value, -, evaluates, result⟩ := exists_parity plain (translates_of_compile compiled)
  refine ⟨value, by rw [evaluates]; rfl, ?_⟩
  rcases result with ⟨valid, m, reached, outside, last⟩ | ⟨e, failed, reason⟩
  · obtain ⟨count, halts⟩ := reached.run_halted outside
    have halted := halts 0
    refine ⟨⟨_, by rw [halted]; nofun⟩, ?_, by simp [valid], ?_⟩
    · intro steps m' halted'
      obtain ⟨-, rfl⟩ := run_unique halted nofun halted' nofun
      exact ⟨valid, last.symm⟩
    · intro steps e m' failed
      cases (run_unique halted nofun failed nofun).1
  · obtain ⟨count, m, fails⟩ := failed.run_failed
    have broken := fails 0
    refine ⟨⟨_, by rw [broken]; nofun⟩, ?_, fun _ => ⟨_, _, _, broken⟩, ?_⟩
    · intro steps m' halted
      cases (run_unique broken nofun halted nofun).1
    · intro steps e' m' failed'
      cases (run_unique broken nofun failed' nofun).1
      exact reason.imp_right RuntimeError.isOfMachine_iff.1

theorem engines_agree_choice :
    choice.Plain ∧ compile choice = .ok choiceCode ∧
      ∃ value, Program.eval 0 (.root 0) choice .empty = some (value, .empty) ∧
        value = .integer 10 ∧
        (∃ m, run choiceCode 8 .initial = (.halted, m) ∧ value = m.stack.lastPopped) ∧
        ∀ steps m, run choiceCode steps .initial = (.halted, m) → value = m.stack.lastPopped := by
  have plain : choice.Plain := by
    simp [choice, Program.Plain, Stmt.EveryIn, Stmt.Every, Stmt.EveryElse, Expr.Every,
      Stmt.IsExpression, Expr.IsCompilable]
  obtain ⟨value, evaluated, -, agrees, -⟩ := engines_agree plain compile_choice 0 (.root 0) .empty
  obtain ⟨m, halted, last⟩ := run_choice
  have same := (agrees 8 m halted).2
  refine ⟨plain, compile_choice, value, evaluated, same.trans last, ⟨m, halted, same⟩, ?_⟩
  intro steps m' halted'
  exact (agrees steps m' halted').2

end Machine

end MonkeyLanguage
