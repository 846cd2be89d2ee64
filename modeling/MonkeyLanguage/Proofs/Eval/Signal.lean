import MonkeyLanguage.Proofs.Eval.Run

/-!
# Signals cut evaluation

A context is a tree with a hole, and `Context.prior` lists what is evaluated before the hole is
come to. A signal from the hole is what the whole yields, and nothing else is evaluated after it.
Only the body of a function and a program stop a signal: there a value on its way back arrives.

Contexts do not reach into function literals, whose bodies are evaluated by calls.
-/

namespace MonkeyLanguage

/-! ### Contexts -/

inductive Kind where
  | expr
  | stmt
  | block

@[reducible] def Kind.Tree : Kind → Type
  | expr => Expr
  | stmt => Stmt
  | block => List Stmt

def evalTree (call : Call) (scope : Scope) : {kind : Kind} → kind.Tree → Eval Value
  | .expr, e => e.eval call scope
  | .stmt, s => s.eval call scope
  | .block, body => Stmt.evalAll call scope .null body

/-- What is evaluated before a hole is come to. -/
inductive Prior where
  | expr (e : Expr)
  /-- A key of a hash literal. -/
  | key (e : Expr)
  /-- The condition of an `if`, on the way into one of its branches. -/
  | condition (e : Expr) (truthy : Bool)
  | stmt (s : Stmt)

def Prior.pairs : List (Expr × Expr) → List Prior
  | [] => []
  | (k, e) :: rest => .key k :: .expr e :: Prior.pairs rest

/-- A node with a hole among its children; `hole` is the kind of the hole and `whole` that of the
node. -/
inductive Frame : (hole whole : Kind) → Type where
  | operand (op : UnaryOp) : Frame .expr .expr
  | left (op : BinaryOp) (right : Expr) : Frame .expr .expr
  | right (op : BinaryOp) (left : Expr) : Frame .expr .expr
  | condition (consequence : List Stmt) (alternative : Option (List Stmt)) : Frame .expr .expr
  | consequence (condition : Expr) (alternative : Option (List Stmt)) : Frame .block .expr
  | alternative (condition : Expr) (consequence : List Stmt) : Frame .block .expr
  | callee (args : List Expr) : Frame .expr .expr
  | argument (callee : Expr) (before after : List Expr) : Frame .expr .expr
  | element (before after : List Expr) : Frame .expr .expr
  | key (before : List (Expr × Expr)) (value : Expr) (after : List (Expr × Expr)) :
    Frame .expr .expr
  | value (before : List (Expr × Expr)) (key : Expr) (after : List (Expr × Expr)) :
    Frame .expr .expr
  | indexed (position : Expr) : Frame .expr .expr
  | position (left : Expr) : Frame .expr .expr
  | bind (name : String) : Frame .expr .stmt
  | ret : Frame .expr .stmt
  | expression : Frame .expr .stmt
  | body : Frame .block .stmt
  | statement (before after : List Stmt) : Frame .stmt .block

namespace Frame

def fill : {hole whole : Kind} → Frame hole whole → hole.Tree → whole.Tree
  | _, _, .operand op, e => Expr.unary op e
  | _, _, .left op b, e => Expr.binary op e b
  | _, _, .right op a, e => Expr.binary op a e
  | _, _, .condition yes no, e => Expr.conditional e yes no
  | _, _, .consequence test no, yes => Expr.conditional test yes no
  | _, _, .alternative test yes, no => Expr.conditional test yes (some no)
  | _, _, .callee args, e => Expr.call e args
  | _, _, .argument f before after, e => Expr.call f (before ++ e :: after)
  | _, _, .element before after, e => Expr.array (before ++ e :: after)
  | _, _, .key before v after, e => Expr.hash (before ++ (e, v) :: after)
  | _, _, .value before k after, e => Expr.hash (before ++ (k, e) :: after)
  | _, _, .indexed p, e => Expr.index e p
  | _, _, .position a, e => Expr.index a e
  | _, _, .bind name, e => Stmt.bind name e
  | _, _, .ret, e => Stmt.ret e
  | _, _, .expression, e => Stmt.expression e
  | _, _, .body, inside => Stmt.block inside
  | _, _, .statement before after, s => before ++ s :: after

/-- What the node evaluates before the hole, in the order of evaluation. -/
def prior : {hole whole : Kind} → Frame hole whole → List Prior
  | _, _, .right _ a => [.expr a]
  | _, _, .consequence test _ => [.condition test true]
  | _, _, .alternative test _ => [.condition test false]
  | _, _, .argument f before _ => .expr f :: before.map .expr
  | _, _, .element before _ => before.map .expr
  | _, _, .key before _ _ => Prior.pairs before
  | _, _, .value before k _ => Prior.pairs before ++ [.key k]
  | _, _, .position a => [.expr a]
  | _, _, .statement before _ => before.map .stmt
  | _, _, _ => []

end Frame

/-- A tree with a hole at any depth, given by the nodes around the hole from the inside out. -/
inductive Context : (hole whole : Kind) → Type where
  | hole {kind : Kind} : Context kind kind
  | within {hole middle whole : Kind} (inner : Frame hole middle) (outer : Context middle whole) :
    Context hole whole

namespace Context

def fill : {hole whole : Kind} → Context hole whole → hole.Tree → whole.Tree
  | _, _, .hole, part => part
  | _, _, within inner outer, part => outer.fill (inner.fill part)

def prior : {hole whole : Kind} → Context hole whole → List Prior
  | _, _, .hole => []
  | _, _, within inner outer => outer.prior ++ inner.prior

end Context

/-! ### Evaluation up to a hole -/

/-- What comes before a hole is evaluated in order, and all of it lets evaluation go on. -/
inductive Passes (call : Call) (scope : Scope) : List Prior → Store → Store → Prop where
  | nil {store : Store} : Passes call scope [] store store
  | expr {e : Expr} {rest : List Prior} {v : Value} {store middle store' : Store} :
    e.eval call scope store = some (v, middle) → v.isSignal = false →
    Passes call scope rest middle store' → Passes call scope (.expr e :: rest) store store'
  | key {e : Expr} {rest : List Prior} {v : Value} {key : HashKey} {store middle store' : Store} :
    e.eval call scope store = some (v, middle) → v.isSignal = false → v.hashKey? = some key →
    Passes call scope rest middle store' → Passes call scope (.key e :: rest) store store'
  | condition {e : Expr} {truthy : Bool} {rest : List Prior} {v : Value}
    {store middle store' : Store} :
    e.eval call scope store = some (v, middle) → v.isSignal = false → v.isTruthy = truthy →
    Passes call scope rest middle store' →
    Passes call scope (.condition e truthy :: rest) store store'
  | stmt {s : Stmt} {rest : List Prior} {v : Value} {store middle store' : Store} :
    s.eval call scope store = some (v, middle) → v.isSignal = false →
    Passes call scope rest middle store' → Passes call scope (.stmt s :: rest) store store'

variable {call : Call} {scope : Scope} {store middle store' : Store} {s : Value}

theorem passes_append {first second : List Prior}
    (h : Passes call scope (first ++ second) store store') :
    ∃ middle, Passes call scope first store middle ∧ Passes call scope second middle store' := by
  induction first generalizing store with
  | nil => exact ⟨store, .nil, h⟩
  | cons p first ih =>
    cases h with
    | expr ended value rest =>
      obtain ⟨middle, left, right⟩ := ih rest
      exact ⟨middle, .expr ended value left, right⟩
    | key ended value hashable rest =>
      obtain ⟨middle, left, right⟩ := ih rest
      exact ⟨middle, .key ended value hashable left, right⟩
    | condition ended value decided rest =>
      obtain ⟨middle, left, right⟩ := ih rest
      exact ⟨middle, .condition ended value decided left, right⟩
    | stmt ended value rest =>
      obtain ⟨middle, left, right⟩ := ih rest
      exact ⟨middle, .stmt ended value left, right⟩

theorem evalAll_of_signal {before : List Expr} {e : Expr}
    (passed : Passes call scope (before.map .expr) store middle)
    (ended : e.eval call scope middle = some (s, store')) (signal : s.isSignal = true)
    (after : List Expr) :
    Expr.evalAll call scope (before ++ e :: after) store = some (.error s, store') := by
  induction before generalizing store with
  | nil =>
    cases passed
    simp only [List.nil_append, Expr.evalAll, bind_eq_some]
    exact ⟨s, store', ended, by rw [if_pos signal]; rfl⟩
  | cons first before ih =>
    cases passed with
    | expr ended' value passed =>
      simp only [List.cons_append, Expr.evalAll, bind_eq_some]
      refine ⟨_, _, ended', ?_⟩
      rw [if_neg (by simp [value]), bind_eq_some]
      exact ⟨_, _, ih passed, rfl⟩

/-- Pairs before a hole only add to the entries. -/
theorem evalPairs_passes {before : List (Expr × Expr)}
    (passed : Passes call scope (Prior.pairs before) store middle)
    (entries : List (HashKey × Value)) (rest : List (Expr × Expr)) :
    ∃ entries', Expr.evalPairs call scope entries (before ++ rest) store =
      Expr.evalPairs call scope entries' rest middle := by
  induction before generalizing store entries with
  | nil =>
    cases passed
    exact ⟨entries, rfl⟩
  | cons pair before ih =>
    obtain ⟨k, e⟩ := pair
    cases passed with
    | key endedKey valueKey hashable passed =>
      cases passed with
      | expr ended value passed =>
        obtain ⟨entries', same⟩ := ih passed (Table.set _ _ entries)
        refine ⟨entries', ?_⟩
        rw [List.cons_append, Expr.evalPairs, onValue_of_value endedKey valueKey, hashable]
        exact (onValue_of_value ended value _).trans same

/-- Statements before a hole leave nothing but their effects. -/
theorem evalAll_passes {before : List Stmt}
    (passed : Passes call scope (before.map .stmt) store middle) (last : Value)
    (rest : List Stmt) :
    ∃ last', Stmt.evalAll call scope last (before ++ rest) store =
      Stmt.evalAll call scope last' rest middle := by
  induction before generalizing store last with
  | nil =>
    cases passed
    exact ⟨last, rfl⟩
  | cons first before ih =>
    cases passed with
    | stmt ended value passed =>
      obtain ⟨last', same⟩ := ih passed _
      refine ⟨last', ?_⟩
      rw [List.cons_append, Stmt.evalAll]
      exact (onValue_of_value ended value _).trans same

/-! ### Signals from a hole -/

/-- A node yields the signal that comes from its hole. -/
theorem Frame.cut {hole whole : Kind} (frame : Frame hole whole) {part : hole.Tree}
    (passed : Passes call scope frame.prior store middle)
    (ended : evalTree call scope part middle = some (s, store')) (signal : s.isSignal = true) :
    evalTree call scope (frame.fill part) store = some (s, store') := by
  cases frame with
  | operand op | left op b | indexed p | bind name | ret =>
    cases passed
    exact onValue_of_signal ended signal _
  | right op a | position a =>
    cases passed with
    | expr first value rest =>
      cases rest
      exact (onValue_of_value first value _).trans (onValue_of_signal ended signal _)
  | condition yes no =>
    cases passed
    simp only [evalTree, fill, Expr.eval_conditional]
    exact onValue_of_signal ended signal _
  | consequence test no =>
    cases passed with
    | condition first value decided rest =>
      cases rest
      simp only [evalTree, fill, Expr.eval_conditional]
      rw [onValue_of_value first value, if_pos decided]
      exact ended
  | alternative test yes =>
    cases passed with
    | condition first value decided rest =>
      cases rest
      simp only [evalTree, fill, Expr.eval_conditional]
      rw [onValue_of_value first value, if_neg (by simp [decided])]
      exact ended
  | callee args =>
    cases passed
    exact onValue_of_signal ended signal _
  | argument f before after =>
    cases passed with
    | expr first value rest =>
      simp only [evalTree, fill, Expr.eval]
      rw [onValue_of_value first value, bind_eq_some]
      exact ⟨_, _, evalAll_of_signal rest ended signal after, rfl⟩
  | element before after =>
    simp only [evalTree, fill, Expr.eval]
    rw [bind_eq_some]
    exact ⟨_, _, evalAll_of_signal passed ended signal after, rfl⟩
  | key before v after =>
    obtain ⟨entries, same⟩ := evalPairs_passes passed [] ((part, v) :: after)
    simp only [evalTree, fill, Expr.eval]
    rw [same, Expr.evalPairs]
    exact onValue_of_signal ended signal _
  | value before k after =>
    obtain ⟨before', passed, last⟩ := passes_append passed
    obtain ⟨entries, same⟩ := evalPairs_passes passed [] ((k, part) :: after)
    cases last with
    | key first value hashable rest =>
      cases rest
      simp only [evalTree, fill, Expr.eval]
      rw [same, Expr.evalPairs, onValue_of_value first value, hashable]
      exact onValue_of_signal ended signal _
  | expression =>
    cases passed
    exact ended
  | body =>
    cases passed
    exact ended
  | statement before after =>
    obtain ⟨last, same⟩ := evalAll_passes passed .null (part :: after)
    simp only [evalTree, fill]
    rw [same, Stmt.evalAll]
    exact onValue_of_signal ended signal _

/-- So does a context of any depth. -/
theorem Context.cut {hole whole : Kind} (context : Context hole whole) {part : hole.Tree}
    (passed : Passes call scope context.prior store middle)
    (ended : evalTree call scope part middle = some (s, store')) (signal : s.isSignal = true) :
    evalTree call scope (context.fill part) store = some (s, store') := by
  induction context generalizing middle with
  | hole =>
    cases passed
    exact ended
  | within inner outer ih =>
    obtain ⟨between, outside, inside⟩ := passes_append passed
    exact ih outside (inner.cut inside ended signal)

/-! ### Evaluation without a bound -/

theorem evalTree_extends {call call' : Call} (h : ∀ f args, Extends (call f args) (call' f args))
    (scope : Scope) {kind : Kind} (tree : kind.Tree) :
    Extends (evalTree call scope tree) (evalTree call' scope tree) := by
  cases kind with
  | expr => exact Expr.eval_extends h scope tree
  | stmt => exact Stmt.eval_extends h scope tree
  | block => exact Stmt.evalAll_extends h scope .null tree

theorem Passes.mono {call call' : Call} (h : ∀ f args, Extends (call f args) (call' f args))
    {priors : List Prior} (passed : Passes call scope priors store store') :
    Passes call' scope priors store store' := by
  induction passed with
  | nil => exact .nil
  | expr ended value _ ih => exact .expr (Expr.eval_extends h scope _ _ _ ended) value ih
  | key ended value hashable _ ih =>
    exact .key (Expr.eval_extends h scope _ _ _ ended) value hashable ih
  | condition ended value decided _ ih =>
    exact .condition (Expr.eval_extends h scope _ _ _ ended) value decided ih
  | stmt ended value _ ih => exact .stmt (Stmt.eval_extends h scope _ _ _ ended) value ih

/-- Evaluation of the whole comes to the hole, and finds the store `middle` there. -/
def Context.Reaches {hole whole : Kind} (context : Context hole whole) (scope : Scope)
    (store middle : Store) : Prop :=
  ∃ depth, Passes (callWithin depth) scope context.prior store middle

theorem Context.finishes {hole whole : Kind} {context : Context hole whole} {part : hole.Tree}
    (reached : context.Reaches scope store middle)
    (ended : Finishes (evalTree · scope part) middle s store') (signal : s.isSignal = true) :
    Finishes (evalTree · scope (context.fill part)) store s store' := by
  obtain ⟨depth₁, passed⟩ := reached
  obtain ⟨depth₂, ended⟩ := ended
  refine ⟨max depth₁ depth₂, context.cut (passed.mono ?_) ?_ signal⟩
  · exact callWithin_extends (by omega)
  · exact evalTree_extends (callWithin_extends (by omega)) scope part _ _ ended

/-- A signal cuts evaluation where it arises: a context of any depth yields the very signal that
comes from its hole, and leaves the store as the hole left it. A program, and a call of a function,
yield what arrives there. -/
theorem signal_cuts_evaluation {hole : Kind} {part : hole.Tree} {scope : Scope}
    {middle store' : Store} {s : Value} (ended : Finishes (evalTree · scope part) middle s store')
    (signal : s.isSignal = true) :
    (∀ {whole : Kind} (context : Context hole whole) (store : Store),
      context.Reaches scope store middle →
        Finishes (evalTree · scope (context.fill part)) store s store') ∧
    ∀ (context : Context hole .block) (store : Store), context.Reaches scope store middle →
      (∃ depth, Program.eval depth scope (context.fill part) store = some (s.arrived, store')) ∧
      ∀ (caller : Scope) (callee : Expr) (args : List Expr) (f : Closure) (values : List Value)
        (before called start : Store),
        Finishes (callee.eval · caller) before (.function f) called →
        Finishes (Expr.evalAll · caller args) called (.ok values) start →
        f.params.length = values.length → f.body = context.fill part →
        scope = f.entered start → store = f.opened values start →
        Finishes (Expr.eval · caller (.call callee args)) before s.arrived store' := by
  refine ⟨fun context store reached => context.finishes reached ended signal, ?_⟩
  intro context store reached
  obtain ⟨depth, cut⟩ := context.finishes reached ended signal
  constructor
  · refine ⟨depth, ?_⟩
    rw [Program.eval, bind_eq_some]
    exact ⟨s, store', cut, rfl⟩
  · rintro caller callee args f values before called start function arguments arity body rfl rfl
    exact function.call arguments arity ⟨depth, by rw [body]; exact cut⟩

/-- The body `1 + if (true) { return x; }; 9` around its `return`. -/
def aroundReturn : Context .stmt .block :=
  .within (.statement [] []) <| .within (.consequence (.boolean true) none) <|
    .within (.right .plus (.integer 1)) <| .within .expression <|
    .within (.statement [] [.expression (.integer 9)]) .hole

def returnX : Kind.stmt.Tree := .ret (.identifier "x")

def leaving : Closure := ⟨0, ["x"], aroundReturn.fill returnX, .root 0⟩

/-- The store in which the body of `leaving` begins when it is called with 7. -/
def leavingStore : Store := ⟨#[[], [("x", .integer 7)]], 1⟩

theorem signal_cuts_evaluation_return :
    Finishes (evalTree · (.enclosed 1 (.root 0)) returnX) leavingStore (.returning (.integer 7))
        leavingStore ∧
      aroundReturn.Reaches (.enclosed 1 (.root 0)) leavingStore leavingStore ∧
      Finishes (Expr.eval · (.root 0) (.call (.function leaving.params leaving.body) [.integer 7]))
        ⟨#[[]], 0⟩ (.integer 7) leavingStore := by
  have ended : Finishes (evalTree · (.enclosed 1 (.root 0)) returnX) leavingStore
      (.returning (.integer 7)) leavingStore := ⟨0, rfl⟩
  have reached : aroundReturn.Reaches (.enclosed 1 (.root 0)) leavingStore leavingStore :=
    ⟨0, .expr rfl rfl (.condition rfl rfl rfl .nil)⟩
  have function : Finishes (Expr.eval · (.root 0) (.function leaving.params leaving.body))
      ⟨#[[]], 0⟩ (.function leaving) ⟨#[[]], 1⟩ := ⟨0, rfl⟩
  have arguments : Finishes (Expr.evalAll · (.root 0) [.integer 7]) ⟨#[[]], 1⟩
      (.ok [.integer 7]) ⟨#[[]], 1⟩ := ⟨0, rfl⟩
  obtain ⟨-, outward⟩ := signal_cuts_evaluation ended rfl
  obtain ⟨-, called⟩ := outward aroundReturn leavingStore reached
  exact ⟨ended, reached, called _ _ _ leaving _ _ _ _ function arguments rfl rfl rfl rfl⟩

end MonkeyLanguage
