import MonkeyLanguage.Proofs.Eval.Clean
import MonkeyLanguage.Proofs.Eval.Simulation

/-!
# Moments of an evaluation

Evaluation of a program in a new scope comes to one tree after another: to the parts of a node in
order, and by a call to the body of the function. A moment is one of these arrivals, with the scope
and the store it finds. Nothing is said of what comes later, so that a program without an end has
moments like any other.

What evaluation holds at a moment, and which stores it goes through, is read off the moments.
-/

namespace MonkeyLanguage

/-- The evaluation of a program in a new scope. -/
structure Evaluation where
  program : Program
  /-- The store in which the scope is made; it may hold scopes of other evaluations. -/
  origin : Store

/-- The call comes to the body of this function, with these values for its parameters. -/
structure Invokes (callee : Expr) (args : List Expr) (scope : Scope) (before : Store) (f : Closure)
    (values : List Value) (start : Store) : Prop where
  evaluated : ∃ called, Finishes (callee.eval · scope) before (.function f) called ∧
    Finishes (Expr.evalAll · scope args) called (.ok values) start
  arity : f.params.length = values.length

namespace Evaluation

variable (E : Evaluation)

def globalScope : Scope := E.origin.newRoot.1

def start : Store := E.origin.newRoot.2

/-- Evaluation comes to the tree, in this scope and with this store. -/
inductive Moment : (kind : Kind) → kind.Tree → Scope → Store → Prop where
  | start : Moment .block E.program E.globalScope E.start
  | part {hole whole : Kind} (frame : Frame hole whole) {tree : hole.Tree} {depth : Nat}
    {scope : Scope} {store middle : Store} : Moment whole (frame.fill tree) scope store →
    Passes (callWithin depth) scope frame.prior store middle → Moment hole tree scope middle
  | body {callee : Expr} {args : List Expr} {scope : Scope} {before start : Store} {f : Closure}
    {values : List Value} : Moment .expr (.call callee args) scope before →
    Invokes callee args scope before f values start →
    Moment .block f.body (f.entered start) (f.opened values start)

/-- The function is called with these values when the store is `start`. -/
def Called (f : Closure) (values : List Value) (start : Store) : Prop :=
  ∃ callee args scope before, E.Moment .expr (.call callee args) scope before ∧
    Invokes callee args scope before f values start

/-- The block is evaluated in the scope: it is the program, or the body of a function called. -/
inductive Runs : Block → Scope → Prop where
  | program : Runs E.program E.globalScope
  | body {f : Closure} {values : List Value} {start : Store} : E.Called f values start →
    Runs f.body (f.entered start)

/-- What the interpreter has at hand at some moment: the scope of a tree, or what a tree yields. -/
inductive Holds : Place → Prop where
  | scope {kind : Kind} {tree : kind.Tree} {scope : Scope} {store : Store} :
    E.Moment kind tree scope store → Holds (.scope scope)
  | value {kind : Kind} {tree : kind.Tree} {scope : Scope} {store store' : Store} {v : Value} :
    E.Moment kind tree scope store → Finishes (evalTree · scope tree) store v store' →
    Holds (.value v)

/-- The stores that evaluation goes through: before a tree, after it, and in a call, while the first
`bound` parameters have their values. -/
inductive Visits : Store → Prop where
  | before {kind : Kind} {tree : kind.Tree} {scope : Scope} {store : Store} :
    E.Moment kind tree scope store → Visits store
  | after {kind : Kind} {tree : kind.Tree} {scope : Scope} {store store' : Store} {v : Value} :
    E.Moment kind tree scope store → Finishes (evalTree · scope tree) store v store' →
    Visits store'
  | opening {f : Closure} {values : List Value} {start : Store} (bound : Nat) :
    E.Called f values start →
    Visits ((start.enclose f.scope).2.bindAll (f.entered start) (f.params.take bound) values)

variable {E}

theorem Called.moment {f : Closure} {values : List Value} {start : Store}
    (called : E.Called f values start) :
    E.Moment .block f.body (f.entered start) (f.opened values start) := by
  obtain ⟨callee, args, scope, before, moment, invokes⟩ := called
  exact .body moment invokes

/-- Evaluation leaves a block and its scope only for the body of a function, and by a call. -/
theorem Moment.runs {kind : Kind} {tree : kind.Tree} {scope : Scope} {store : Store}
    (moment : E.Moment kind tree scope store) :
    ∃ context : Context kind .block, E.Runs (context.fill tree) scope := by
  induction moment with
  | start => exact ⟨.hole, .program⟩
  | part frame _ _ ih =>
    obtain ⟨context, runs⟩ := ih
    exact ⟨.within frame context, runs⟩
  | body moment invokes _ => exact ⟨.hole, .body ⟨_, _, _, _, moment, invokes⟩⟩

end Evaluation

/-! ### The parts of a node -/

/-- The kind of tree that is evaluated before a hole. -/
def Prior.kind : Prior → Kind
  | expr _ | key _ | condition _ _ => .expr
  | stmt _ => .stmt

def Prior.tree : (p : Prior) → p.kind.Tree
  | expr e | key e | condition e _ => e
  | stmt s => s

theorem map_eq_append_cons {α β : Type} {f : α → β} {as : List α} {before after : List β} {b : β}
    (split : as.map f = before ++ b :: after) :
    ∃ earlier a later, as = earlier ++ a :: later ∧ before = earlier.map f ∧ b = f a := by
  obtain ⟨earlier, rest, rfl, same, last⟩ := List.map_eq_append_iff.1 split
  obtain ⟨a, later, rfl, here, -⟩ := List.map_eq_cons_iff.1 last
  exact ⟨earlier, a, later, rfl, same.symm, here.symm⟩

theorem Prior.pairs_append (first second : List (Expr × Expr)) :
    Prior.pairs (first ++ second) = Prior.pairs first ++ Prior.pairs second := by
  induction first with
  | nil => rfl
  | cons pair first ih => simp only [List.cons_append, Prior.pairs, ih]

theorem Prior.pairs_split {pairs : List (Expr × Expr)} {before after : List Prior} {p : Prior}
    (split : Prior.pairs pairs = before ++ p :: after) :
    ∃ earlier k e later, pairs = earlier ++ (k, e) :: later ∧
      (before = Prior.pairs earlier ∧ p = .key k ∨
        before = Prior.pairs earlier ++ [.key k] ∧ p = .expr e) := by
  induction pairs generalizing before with
  | nil => simp [Prior.pairs] at split
  | cons pair pairs ih =>
    obtain ⟨k, e⟩ := pair
    match before with
    | [] =>
      obtain ⟨rfl, -⟩ := List.cons.inj split
      exact ⟨[], k, e, pairs, rfl, .inl ⟨rfl, rfl⟩⟩
    | [first] =>
      obtain ⟨rfl, rest⟩ := List.cons.inj split
      obtain ⟨rfl, -⟩ := List.cons.inj rest
      exact ⟨[], k, e, pairs, rfl, .inr ⟨rfl, rfl⟩⟩
    | first :: second :: before =>
      simp only [Prior.pairs, List.cons_append, List.cons.injEq] at split
      obtain ⟨rfl, rfl, rest⟩ := split
      obtain ⟨earlier, k', e', later, rfl, found⟩ := ih rest
      refine ⟨(k, e) :: earlier, k', e', later, rfl, ?_⟩
      rcases found with ⟨rfl, rfl⟩ | ⟨rfl, rfl⟩
      · exact .inl ⟨rfl, rfl⟩
      · exact .inr ⟨rfl, rfl⟩

theorem Expr.accessesIn_eq (es : List Expr) :
    Expr.accessesIn es = es.flatMap Expr.accesses := by
  induction es with
  | nil => rfl
  | cons e es ih => rw [Expr.accessesIn, ih, List.flatMap_cons]

theorem Expr.accessesPairs_eq (pairs : List (Expr × Expr)) :
    Expr.accessesPairs pairs = pairs.flatMap fun p => p.1.accesses ++ p.2.accesses := by
  induction pairs with
  | nil => rfl
  | cons pair pairs ih => rw [Expr.accessesPairs, ih, List.flatMap_cons]

theorem Stmt.accessesIn_eq (body : List Stmt) :
    Stmt.accessesIn body = body.flatMap Stmt.accesses := by
  induction body with
  | nil => rfl
  | cons s rest ih => rw [Stmt.accessesIn, ih, List.flatMap_cons]

/-- A node does what its parts do. -/
theorem Frame.mem_accesses {hole whole : Kind} (frame : Frame hole whole) {tree : hole.Tree}
    {access : Access} (member : access ∈ Kind.accesses tree) :
    access ∈ Kind.accesses (frame.fill tree) := by
  cases frame <;>
    simp only [Kind.accesses, Frame.fill, Expr.accesses, Stmt.accesses, Stmt.accessesElse,
      Expr.accessesIn_eq, Expr.accessesPairs_eq, Stmt.accessesIn_eq, List.flatMap_append,
      List.flatMap_cons, List.mem_append, List.mem_cons] at member ⊢ <;>
    simp only [member, true_or, or_true]

end MonkeyLanguage
