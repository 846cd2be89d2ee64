import MonkeyLanguage.Proofs.Compiler.Outcome

/-!
# Where the engines differ

Evaluation against the rules of the machine, value by value and failure by failure.

The engines see the value of a block differently: evaluation takes the last statement, the machine
what was popped last. A failure of the machine has a text of its own; `RuntimeError.report?` is what
evaluation says in its place. Operands of `<` are computed in the opposite order, so with them the
engines can come to different failures.
-/

namespace MonkeyLanguage

/-! ### Reports -/

/-- How the operator of an instruction on two operands is written in programs without `<`. -/
def OpCode.symbol? : OpCode → Option String
  | .add => some "+"
  | .sub => some "-"
  | .mul => some "*"
  | .div => some "/"
  | .greaterThan => some ">"
  | .equal => some "=="
  | .notEqual => some "!="
  | _ => none

/-- The message with which evaluation reports what the machine fails with. -/
def RuntimeError.report? : RuntimeError → Option String
  | .divisionByZero => some "division by zero"
  | .unsupportedNegation type => some ("unknown operator: -" ++ type.name)
  | .unsupportedTypes op left right => op.symbol?.map fun symbol =>
    (if left = right then "unknown operator: " else "type mismatch: ") ++ left.name ++ " " ++
      symbol ++ " " ++ right.name
  | _ => none

theorem BinaryOp.symbol?_opCode {op : BinaryOp} (ordered : op ≠ .lessThan) :
    op.opCode.symbol? = some op.spelling := by
  cases op with
  | lessThan => exact absurd rfl ordered
  | _ => rfl

/-- Evaluation has the value that the machine computes, and reports its failure, unless that is
excused. -/
def Follows (excused : RuntimeError → Prop) (evaluate : Eval Value) :
    Except RuntimeError Value → Prop
  | .ok v => v.IsBasic ∧ evaluate = pure v
  | .error e => excused e ∨ ∃ text, e.report? = some text ∧ evaluate = pure (.error text)

namespace Follows

variable {excused : RuntimeError → Prop} {evaluate : Eval Value}

theorem onValue {outcome : Except RuntimeError Value} {next : Value → Except RuntimeError Value}
    {rest : Value → Eval Value} (h : Follows excused evaluate outcome)
    (further : ∀ v, v.IsBasic → Follows excused (rest v) (next v)) :
    Follows excused (onValue evaluate rest) (outcome >>= next) := by
  cases outcome with
  | ok v =>
    obtain ⟨basic, rfl⟩ := h
    rw [onValue_basic basic]
    exact further v basic
  | error e =>
    rcases h with excuse | ⟨text, reported, rfl⟩
    · exact Or.inl excuse
    · exact Or.inr ⟨text, reported, onValue_error rfl rest⟩

/-- Where every failure is excused only the values count. -/
theorem of_ok {outcome : Except RuntimeError Value} (all : ∀ e, excused e)
    (h : ∀ v, outcome = .ok v → v.IsBasic ∧ evaluate = pure v) :
    Follows excused evaluate outcome := by
  cases outcome with
  | ok v => exact h v rfl
  | error e => exact Or.inl (all e)

end Follows

theorem UnaryOp.apply_follows (excused : RuntimeError → Prop) (op : UnaryOp) {v : Value}
    (basic : v.IsBasic) : Follows excused (pure (op.apply v)) (op.compute v) := by
  match op, v, basic with
  | .not, _, _ => exact ⟨trivial, rfl⟩
  | .negate, .integer n, _ => exact ⟨trivial, rfl⟩
  | .negate, .boolean _, _ | .negate, .null, _ => exact Or.inr ⟨_, rfl, rfl⟩

theorem BinaryOp.onIntegers_follows (excused : RuntimeError → Prop) {op : BinaryOp}
    (ordered : op ≠ .lessThan) (a b : Int64) :
    Follows excused (pure (op.onIntegers a b))
      (Machine.combine op.opCode (.integer a) (.integer b)) := by
  cases op with
  | lessThan => exact absurd rfl ordered
  | divide =>
    simp only [BinaryOp.opCode, Machine.combine, BinaryOp.onIntegers]
    by_cases zero : b = 0
    · rw [if_pos zero, if_pos zero]
      exact Or.inr ⟨_, rfl, rfl⟩
    · rw [if_neg zero, if_neg zero]
      exact ⟨trivial, rfl⟩
  | plus | minus | multiply | greaterThan | equal | notEqual => exact ⟨trivial, rfl⟩

theorem BinaryOp.apply_follows {excused : RuntimeError → Prop}
    (machine : ∀ e : RuntimeError, e.IsOfMachine → excused e) {op : BinaryOp}
    (ordered : op ≠ .lessThan) {left right : Value} (hl : left.IsBasic) (hr : right.IsBasic) :
    Follows excused (pure (op.apply left right)) (Machine.combine op.opCode left right) := by
  match left, right, hl, hr with
  | .integer a, .integer b, _, _ => exact BinaryOp.onIntegers_follows excused ordered a b
  | .boolean a, .boolean b, _, _ =>
    cases op with
    | lessThan => exact absurd rfl ordered
    | equal | notEqual => exact ⟨trivial, rfl⟩
    | plus | minus | multiply | divide | greaterThan => exact Or.inr ⟨_, rfl, rfl⟩
  | .integer _, .boolean _, _, _ | .integer _, .null, _, _ | .boolean _, .integer _, _, _
  | .boolean _, .null, _, _ | .null, .integer _, _, _ | .null, .boolean _, _, _
  | .null, .null, _, _ =>
    cases op with
    | lessThan => exact absurd rfl ordered
    | equal | notEqual => exact Or.inl (machine _ trivial)
    | plus | minus | multiply | divide | greaterThan => exact Or.inr ⟨_, rfl, rfl⟩

/-! ### Blocks -/

mutual

/-- Nothing is popped: there is no expression statement, not even in a nested block. -/
def Stmt.isSilent : Stmt → Bool
  | .block body => Stmt.allSilent body
  | _ => false

def Stmt.allSilent : List Stmt → Bool
  | [] => true
  | s :: rest => s.isSilent && Stmt.allSilent rest

end

mutual

/-- What is popped last is the value of the last statement. -/
def Stmt.settles : Stmt → Bool
  | .block body => Stmt.allSettle body
  | _ => true

/-- The same for a list: one that pops a value does not end in a silent statement. -/
def Stmt.allSettle : List Stmt → Bool
  | [] => true
  | s :: rest =>
    if Stmt.allSilent rest then s.isSilent || rest.isEmpty && s.settles else Stmt.allSettle rest

end

mutual

theorem Stmt.eval_silent (s : Stmt) (silent : s.isSilent = true) (call : Call) (scope : Scope) :
    s.eval call scope = pure .null := by
  match s with
  | .block body =>
    rw [Stmt.eval, Stmt.evalAll_silent body silent, ite_self]
  | .bind _ _ | .ret _ | .expression _ => simp [Stmt.isSilent] at silent

theorem Stmt.evalAll_silent (body : List Stmt) (silent : Stmt.allSilent body = true)
    (call : Call) (scope : Scope) (last : Value) :
    Stmt.evalAll call scope last body = pure (if body.isEmpty then last else .null) := by
  match body with
  | [] => rfl
  | s :: rest =>
    rw [Stmt.allSilent, Bool.and_eq_true] at silent
    rw [Stmt.evalAll, s.eval_silent silent.1, onValue_basic (by trivial),
      Stmt.evalAll_silent rest silent.2, ite_self]
    rfl

end

/-- Evaluation of a block against what the machine pops last. Only where the block settles is this
the value of the block. -/
def FollowsBlock (excused : RuntimeError → Prop) (silent settles : Bool) (evaluate : Eval Value) :
    Except RuntimeError (Option Value) → Prop
  | .ok none => silent = true
  | .ok (some v) => silent = false ∧ v.IsBasic ∧
    ∃ u : Value, u.IsBasic ∧ evaluate = pure u ∧ (settles = true → u = v)
  | .error e => excused e ∨ ∃ text, e.report? = some text ∧ evaluate = pure (.error text)

section

variable {excused : RuntimeError → Prop} {call : Call} {scope : Scope}

/-- Statements after one that evaluation has the value `u` of, where `value` was popped. -/
theorem FollowsBlock.cons_ok {s : Stmt} {rest : List Stmt} {value : Option Value} {u : Value}
    {others : Except RuntimeError (Option Value)} (basic : u.IsBasic)
    (popped : match value with
      | none => s.isSilent = true
      | some v => s.isSilent = false ∧ v.IsBasic ∧ (s.settles = true → u = v))
    (h' : FollowsBlock excused (Stmt.allSilent rest) (Stmt.allSettle rest)
      (Stmt.evalAll call scope u rest) others) :
    FollowsBlock excused (Stmt.allSilent (s :: rest)) (Stmt.allSettle (s :: rest))
      (Stmt.evalAll call scope u rest) (do
        let last ← others
        pure (last.or value)) := by
  match others, h' with
  | .error e, reported => exact reported
  | .ok (some w), ⟨loud, basic', u', basic'', evaluates, same⟩ =>
    refine ⟨by simp [Stmt.allSilent, loud], basic', u', basic'', evaluates, fun settles => same ?_⟩
    simpa [Stmt.allSettle, loud] using settles
  | .ok none, (silent : Stmt.allSilent rest = true) =>
    cases value with
    | none => exact Bool.and_eq_true_iff.2 ⟨popped, silent⟩
    | some v =>
      obtain ⟨loud, basic', same⟩ := popped
      refine ⟨by simp [Stmt.allSilent, loud], basic', _, ?_,
        Stmt.evalAll_silent rest silent call scope u, fun settles => ?_⟩
      · split
        · exact basic
        · trivial
      · simp only [Stmt.allSettle, silent, if_true, loud, Bool.false_or, Bool.and_eq_true]
          at settles
        rw [if_pos settles.1, same settles.2]

theorem FollowsBlock.cons {s : Stmt} {rest : List Stmt}
    {first others : Except RuntimeError (Option Value)} (last : Value)
    (h : FollowsBlock excused s.isSilent s.settles (s.eval call scope) first)
    (h' : ∀ last, FollowsBlock excused (Stmt.allSilent rest) (Stmt.allSettle rest)
      (Stmt.evalAll call scope last rest) others) :
    FollowsBlock excused (Stmt.allSilent (s :: rest)) (Stmt.allSettle (s :: rest))
      (Stmt.evalAll call scope last (s :: rest)) (do
        let value ← first
        let last ← others
        pure (last.or value)) := by
  rw [Stmt.evalAll]
  match first, h with
  | .error e, Or.inl excuse => exact Or.inl excuse
  | .error e, Or.inr ⟨text, reported, evaluates⟩ =>
    rw [evaluates]
    exact Or.inr ⟨text, reported, onValue_error rfl _⟩
  | .ok none, silent =>
    rw [s.eval_silent silent, onValue_basic (by trivial)]
    exact .cons_ok (by trivial) silent (h' .null)
  | .ok (some v), ⟨loud, basic, u, basic', evaluates, same⟩ =>
    rw [evaluates, onValue_basic basic']
    exact .cons_ok basic' ⟨loud, basic, same⟩ (h' u)

/-- A branch that settles has the value that is left on the stack. -/
theorem FollowsBlock.branch {body : List Stmt} {outcome : Except RuntimeError (Option Value)}
    (machine : ∀ e : RuntimeError, e.IsOfMachine → excused e)
    (settles : Stmt.allSettle body = true)
    (h : FollowsBlock excused (Stmt.allSilent body) (Stmt.allSettle body)
      (Stmt.evalAll call scope .null body) outcome) (height : Nat) :
    Follows excused (Stmt.evalAll call scope .null body) (do
      let last ← outcome
      Machine.leave height last) := by
  match outcome, h with
  | .error e, reported => exact reported
  | .ok (some v), ⟨_, basic, u, _, evaluates, same⟩ =>
    rw [same settles] at evaluates
    exact ⟨basic, evaluates⟩
  | .ok none, silent =>
    change Follows excused _ (Machine.hold height .null)
    unfold Machine.hold
    split
    · refine ⟨trivial, ?_⟩
      rw [Stmt.evalAll_silent body silent, ite_self]
    · exact Or.inl (machine _ trivial)

end

/-! ### Trees -/

/-- A fragment of the language on which evaluation follows the machine. -/
structure Fragment (p : Expr → Prop) (q : Stmt → Prop) (excused : RuntimeError → Prop) :
    Prop where
  expression : ∀ e, p e → e.IsCompilable
  statement : ∀ s, q s → s.IsCompilable
  settles : ∀ condition consequence alternative,
    (Expr.conditional condition consequence alternative).Every p q →
    Stmt.allSettle consequence = true ∧ ∀ body ∈ alternative, Stmt.allSettle body = true
  machine : ∀ e : RuntimeError, e.IsOfMachine → excused e
  ordered : ∀ left right, p (.binary .lessThan left right) → ∀ e, excused e

/-- The machine computes the right operand of `<` first, so of failures nothing can be said. -/
theorem lessThan_follows {excused : RuntimeError → Prop} (all : ∀ e, excused e) {call : Call}
    {scope : Scope} {left right : Expr} {height : Nat}
    (first : Follows excused (left.eval call scope) (left.compute (height + 1)))
    (second : Follows excused (right.eval call scope) (right.compute height)) :
    Follows excused ((Expr.binary .lessThan left right).eval call scope)
      ((Expr.binary .lessThan left right).compute height) := by
  refine .of_ok all fun v computed => ?_
  simp only [Expr.compute, if_true] at computed
  cases onRight : right.compute height with
  | error e => simp [onRight, bind, Except.bind] at computed
  | ok b =>
    cases onLeft : left.compute (height + 1) with
    | error e => simp [onRight, onLeft, bind, Except.bind] at computed
    | ok a =>
      rw [onLeft] at first
      rw [onRight] at second
      obtain ⟨basic, evaluates⟩ := first
      obtain ⟨basic', evaluates'⟩ := second
      rw [onRight, onLeft] at computed
      change Machine.combine .greaterThan b a = .ok v at computed
      obtain ⟨rfl, basic''⟩ := (combine_lessThan basic basic').combined v computed
      refine ⟨basic'', ?_⟩
      rw [Expr.eval, evaluates, onValue_basic basic, evaluates', onValue_basic basic']

section

set_option linter.unusedSectionVars false

variable {p : Expr → Prop} {q : Stmt → Prop} {excused : RuntimeError → Prop}
  (fragment : Fragment p q excused) {call : Call} {scope : Scope}
include fragment

theorem Fragment.hold_follows {value : Value} (basic : value.IsBasic) (height : Nat) :
    Follows excused (pure value) (Machine.hold height value) := by
  unfold Machine.hold
  split
  · exact ⟨basic, rfl⟩
  · exact Or.inl (fragment.machine _ trivial)

mutual

theorem Expr.follows (e : Expr) (every : e.Every p q) (height : Nat) :
    Follows excused (e.eval call scope) (e.compute height) := by
  match e with
  | .integer _ | .boolean _ => exact fragment.hold_follows (by trivial) height
  | .unary op operand =>
    exact (operand.follows every.2 height).onValue fun v basic => op.apply_follows excused basic
  | .binary op left right =>
    obtain ⟨known, onLeft, onRight⟩ := every
    by_cases less : op = .lessThan
    · subst less
      exact lessThan_follows (fragment.ordered left right known)
        (left.follows onLeft (height + 1)) (right.follows onRight height)
    · simp only [Expr.eval, Expr.compute, if_neg less]
      exact (left.follows onLeft height).onValue fun a basic =>
        (right.follows onRight (height + 1)).onValue fun b basic' =>
          BinaryOp.apply_follows fragment.machine less basic basic'
  | .conditional condition consequence alternative =>
    obtain ⟨taken, otherwise⟩ := fragment.settles _ _ _ every
    obtain ⟨-, onCondition, onConsequence, onAlternative⟩ := every
    rw [Expr.eval_conditional]
    simp only [Expr.compute]
    refine (condition.follows onCondition height).onValue fun v basic => ?_
    split
    · exact (Stmt.followsAll consequence onConsequence height .null).branch fragment.machine taken
        height
    · exact Stmt.followsElse alternative onAlternative otherwise height
  | .identifier _ | .string _ => exact (fragment.expression _ every).elim
  | .array _ | .hash _ | .function _ _ | .index _ _ | .call _ _ =>
    exact (fragment.expression _ every.1).elim

theorem Stmt.follows (s : Stmt) (every : s.Every p q) (height : Nat) :
    FollowsBlock excused s.isSilent s.settles (s.eval call scope) (s.compute height) := by
  match s with
  | .expression value =>
    have follows := value.follows every.2 height
    simp only [Stmt.compute, Stmt.eval]
    cases outcome : value.compute height with
    | ok v =>
      rw [outcome] at follows
      obtain ⟨basic, evaluates⟩ := follows
      exact ⟨rfl, basic, v, basic, evaluates, fun _ => rfl⟩
    | error e =>
      rw [outcome] at follows
      exact follows
  | .block body => exact Stmt.followsAll body every.2 height .null
  | .bind _ _ | .ret _ => exact (fragment.statement _ every.1).elim

theorem Stmt.followsAll (body : List Stmt) (every : Stmt.EveryIn p q body) (height : Nat)
    (last : Value) :
    FollowsBlock excused (Stmt.allSilent body) (Stmt.allSettle body)
      (Stmt.evalAll call scope last body) (Stmt.computeAll body height) := by
  match body with
  | [] => exact (rfl : true = true)
  | s :: rest =>
    exact .cons last (s.follows every.1 height)
      fun last => Stmt.followsAll rest every.2 height last

theorem Stmt.followsElse (alternative : Option (List Stmt)) (every : Stmt.EveryElse p q alternative)
    (settles : ∀ body ∈ alternative, Stmt.allSettle body = true) (height : Nat) :
    Follows excused (Stmt.evalElse call scope alternative)
      (Stmt.computeElse alternative height) := by
  match alternative with
  | none => exact fragment.hold_follows (by trivial) height
  | some body =>
    exact (Stmt.followsAll body every height .null).branch fragment.machine (settles body rfl)
      height

end

end

/-! ### Programs -/

def Expr.IsLess : Expr → Prop
  | .binary .lessThan _ _ => True
  | _ => False

theorem Stmt.allSettle_of_expressions {p : Expr → Prop} {body : List Stmt}
    (expressions : Stmt.EveryIn p Stmt.IsExpression body) : Stmt.allSettle body = true := by
  match body, expressions with
  | [], _ => rfl
  | [.expression _], _ => rfl
  | .expression _ :: .expression e :: rest, expressions =>
    have settles : Stmt.allSettle (.expression e :: rest) = true :=
      Stmt.allSettle_of_expressions expressions.2
    exact settles

theorem fragment_ordered :
    Fragment (fun e => e.IsCompilable ∧ ¬ e.IsLess) Stmt.IsExpression RuntimeError.IsOfMachine where
  expression _ known := known.1
  statement s known := by
    cases s with
    | expression _ => trivial
    | _ => exact known.elim
  settles _ consequence alternative every := by
    refine ⟨Stmt.allSettle_of_expressions every.2.2.1, ?_⟩
    rintro body ⟨⟩
    exact Stmt.allSettle_of_expressions every.2.2.2
  machine _ := id
  ordered _ _ known := (known.2 trivial).elim

/-- Both branches of a conditional settle. -/
def Expr.branchesSettle : Expr → Bool
  | .conditional _ consequence alternative =>
    Stmt.allSettle consequence && alternative.all Stmt.allSettle
  | _ => true

theorem fragment_settled :
    Fragment (fun e => e.IsCompilable ∧ e.branchesSettle = true) Stmt.IsCompilable
      fun _ => True where
  expression _ known := known.1
  statement _ known := known
  settles _ consequence alternative every := by
    have both := every.1.2
    rw [Expr.branchesSettle, Bool.and_eq_true] at both
    refine ⟨both.1, ?_⟩
    rintro body ⟨⟩
    exact both.2
  machine _ _ := trivial
  ordered _ _ _ _ := trivial

theorem Program.eval_of_evalAll {depth : Nat} {scope : Scope} {program : Program} {v : Value}
    (evaluates : Stmt.evalAll (callWithin depth) scope .null program = pure v) :
    program.eval depth scope = pure v.arrived := by
  rw [Program.eval, evaluates, pure_bind]

namespace Machine

variable {program : Program} {bytecode : Bytecode} {steps : Nat} {m : Machine}

/-- Of programs without `<` evaluation reports the failure of the machine, unless it is one that
only the machine knows. -/
theorem failure_is_reported {e : RuntimeError}
    (plain : Stmt.EveryIn (fun e => e.IsCompilable ∧ ¬ e.IsLess) Stmt.IsExpression program)
    (compiled : compile program = .ok bytecode)
    (failed : run bytecode steps .initial = (.failed e, m)) (known : ¬ e.IsOfMachine)
    (depth : Nat) (scope : Scope) (store : Store) :
    ∃ text, e.report? = some text ∧
      program.eval depth scope store = some (.error text, store) := by
  have follows : FollowsBlock _ _ _ (Stmt.evalAll (callWithin depth) scope .null program) _ :=
    Stmt.followsAll fragment_ordered program plain 0 .null
  rw [(compute_of_run compiled).2 e failed] at follows
  rcases follows with excuse | ⟨text, reported, evaluates⟩
  · exact absurd excuse known
  · exact ⟨text, reported, by rw [Program.eval_of_evalAll evaluates]; rfl⟩

/-- The program `-true; 1 / 0;`. -/
def twoFailures : Program :=
  [.expression (.unary .negate (.boolean true)),
    .expression (.binary .divide (.integer 1) (.integer 0))]

def twoFailuresCode : Bytecode :=
  ⟨#[5, 10, 12, 0, 0, 0, 0, 0, 1, 4, 12], #[.integer 1, .integer 0]⟩

theorem compile_twoFailures : compile twoFailures = .ok twoFailuresCode := by
  simp [compile, twoFailures, twoFailuresCode, Stmt.compileAll, Stmt.compile, Expr.compile, bind,
    EStateM.bind, pure, EStateM.pure, emitConstant, emitPlain, emit, encode, encodeOperands,
    bigEndian, OpCode.operandWidths, OpCode.byte, BinaryOp.opCode, UnaryOp.opCode, Compiler.empty,
    Compiler.bytecode]

theorem failure_is_reported_twoFailures :
    ∃ steps m, run twoFailuresCode steps .initial = (.failed (.unsupportedNegation .boolean), m) ∧
      twoFailures.eval 0 (.root 0) .empty = some (.error "unknown operator: -Boolean", .empty) := by
  have ends : Fails twoFailuresCode .initial (.unsupportedNegation .boolean) :=
    ends_of_translates (translates_of_compile compile_twoFailures)
  obtain ⟨count, m, fails⟩ := Fails.run_failed ends
  have plain :
      Stmt.EveryIn (fun e => e.IsCompilable ∧ ¬ e.IsLess) Stmt.IsExpression twoFailures := by
    simp [twoFailures, Stmt.EveryIn, Stmt.Every, Expr.Every, Stmt.IsExpression,
      Expr.IsCompilable, Expr.IsLess]
  obtain ⟨text, reported, evaluated⟩ :=
    failure_is_reported plain compile_twoFailures (fails 0) id 0 (.root 0) .empty
  cases reported
  exact ⟨_, m, fails 0, evaluated⟩

/-- Where blocks settle, the machine pops last what evaluation has as the value. -/
theorem settled_blocks_agree
    (known : Stmt.EveryIn (fun e => e.IsCompilable ∧ e.branchesSettle = true) Stmt.IsCompilable
      program)
    (settles : Stmt.allSettle program = true) (compiled : compile program = .ok bytecode)
    (halted : run bytecode steps .initial = (.halted, m)) (depth : Nat) (scope : Scope)
    (store : Store) : program.eval depth scope store = some (m.stack.lastPopped, store) := by
  have follows : FollowsBlock _ _ _ (Stmt.evalAll (callWithin depth) scope .null program) _ :=
    Stmt.followsAll fragment_settled program known 0 .null
  obtain ⟨last, computed, popped⟩ := (compute_of_run compiled).1 halted
  rw [computed] at follows
  rw [popped]
  cases last with
  | none =>
    rw [Program.eval_of_evalAll (Stmt.evalAll_silent program follows _ _ _), ite_self]
    rfl
  | some v =>
    obtain ⟨-, basic, u, -, evaluates, same⟩ := follows
    rw [same settles] at evaluates
    rw [Program.eval_of_evalAll evaluates]
    cases v <;> first | rfl | exact basic.elim

/-- The program `if (true) { {} { 5; } }`. -/
def settled : Program :=
  [.expression (.conditional (.boolean true) [.block [], .block [.expression (.integer 5)]] none)]

/-- The program `if (true) { 5; {} }`. -/
def unsettled : Program :=
  [.expression (.conditional (.boolean true) [.expression (.integer 5), .block []] none)]

def fiveCode : Bytecode :=
  ⟨#[5, 14, 0, 10, 0, 0, 0, 13, 0, 11, 15, 12], #[.integer 5]⟩

theorem compile_five : compile settled = .ok fiveCode ∧ compile unsettled = .ok fiveCode := by
  constructor <;>
    simp [compile, settled, unsettled, fiveCode, Stmt.compileAll, Stmt.compile, Expr.compile, bind,
      EStateM.bind, pure, EStateM.pure, emitConstant, emitJump, emitPlain, emit, keepLastValue,
      patchJump, overwrite, placeholder, encode, encodeOperands, bigEndian, OpCode.operandWidths,
      OpCode.byte, Compiler.empty, Compiler.bytecode]

theorem exists_run_five : ∃ steps m, run fiveCode steps .initial = (.halted, m) ∧
    m.stack.lastPopped = .integer 5 := by
  have computes : Stmt.computeAll settled 0 = .ok (some (.integer 5)) := rfl
  exact exists_run_halted compile_five.1 computes

theorem settled_blocks_agree_five :
    ∃ steps m, run fiveCode steps .initial = (.halted, m) ∧
      settled.eval 0 (.root 0) .empty = some (m.stack.lastPopped, .empty) := by
  obtain ⟨steps, m, halted, -⟩ := exists_run_five
  refine ⟨steps, m, halted, settled_blocks_agree ?_ (by decide) compile_five.1 halted 0 _ _⟩
  simp [settled, Stmt.EveryIn, Stmt.Every, Stmt.EveryElse, Expr.Every, Stmt.IsCompilable,
    Expr.IsCompilable, Expr.branchesSettle, Stmt.allSettle, Stmt.allSilent, Stmt.isSilent,
    Stmt.settles]

/-- A block at the end of a branch hides the value from evaluation, not from the machine. -/
theorem unsettled_blocks_differ :
    compile unsettled = .ok fiveCode ∧
      (∃ steps m, run fiveCode steps .initial = (.halted, m) ∧
        m.stack.lastPopped = .integer 5) ∧
      unsettled.eval 0 (.root 0) .empty = some (.null, .empty) :=
  ⟨compile_five.2, exists_run_five, rfl⟩

end Machine

end MonkeyLanguage
