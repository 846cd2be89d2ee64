import MonkeyLanguage.Eval.Basic

/-!
# Runs of evaluation

What it means that a composed evaluation comes to an end, and that a larger bound on the depth of
calls changes nothing that came to an end under a smaller one.

`Finishes` speaks of evaluation without the bound.
-/

namespace MonkeyLanguage

/-! ### Composition -/

theorem bind_eq_some {α β : Type} {m : Eval α} {f : α → Eval β} {store : Store}
    {r : β × Store} :
    (m >>= f) store = some r ↔ ∃ a middle, m store = some (a, middle) ∧ f a middle = some r := by
  change (m store).bind (fun p => f p.1 p.2) = some r ↔ _
  simp [Option.bind_eq_some_iff]

theorem pure_eq_some {α : Type} {a b : α} {store store' : Store} :
    (pure a : Eval α) store = some (b, store') ↔ b = a ∧ store' = store := by
  change some (a, store) = some (b, store') ↔ _
  simp [eq_comm]

theorem onValue_of_none {first : Eval Value} {store : Store} (endless : first store = none)
    (next : Value → Eval Value) : onValue first next store = none := by
  change (first store).bind _ = _
  rw [endless, Option.bind_none]

theorem onValue_of_signal {first : Eval Value} {store store' : Store} {s : Value}
    (ended : first store = some (s, store')) (signal : s.isSignal = true)
    (next : Value → Eval Value) : onValue first next store = some (s, store') := by
  unfold onValue
  rw [bind_eq_some]
  exact ⟨s, store', ended, by rw [if_pos signal, pure_eq_some]; exact ⟨rfl, rfl⟩⟩

theorem onValue_of_value {first : Eval Value} {store middle : Store} {v : Value}
    (ended : first store = some (v, middle)) (value : v.isSignal = false)
    (next : Value → Eval Value) : onValue first next store = next v middle := by
  change (first store).bind _ = _
  simp [ended, value]

/-- The value of an `if` whose condition fails. -/
def Stmt.evalElse (call : Call) (scope : Scope) : Option (List Stmt) → Eval Value
  | none => pure .null
  | some body => Stmt.evalAll call scope .null body

theorem Expr.eval_conditional (call : Call) (scope : Scope) (condition : Expr)
    (consequence : List Stmt) (alternative : Option (List Stmt)) :
    (Expr.conditional condition consequence alternative).eval call scope =
      onValue (condition.eval call scope) fun v =>
        if v.isTruthy then Stmt.evalAll call scope .null consequence
        else Stmt.evalElse call scope alternative := by
  cases alternative <;> rfl

/-! ### Calls -/

/-- The scope of a call, inside that of the function. -/
def Closure.entered (f : Closure) (store : Store) : Scope := (store.enclose f.scope).1

/-- The store in which the body of a function begins. -/
def Closure.opened (f : Closure) (args : List Value) (store : Store) : Store :=
  (store.enclose f.scope).2.bindAll (f.entered store) f.params args

theorem Program.eval_eq_some {depth : Nat} {scope : Scope} {program : Program}
    {store store' : Store} {v : Value} :
    program.eval depth scope store = some (v, store') ↔
      ∃ u, Stmt.evalAll (callWithin depth) scope .null program store = some (u, store') ∧
        v = u.arrived := by
  rw [Program.eval, bind_eq_some]
  constructor
  · rintro ⟨u, middle, ended, last⟩
    obtain ⟨rfl, rfl⟩ := pure_eq_some.1 last
    exact ⟨u, ended, rfl⟩
  · rintro ⟨u, ended, rfl⟩
    exact ⟨u, store', ended, rfl⟩

/-- The body of a function is evaluated like a program, in the scope of the call. -/
theorem callWithin_succ (depth : Nat) (f : Closure) (args : List Value) (store : Store) :
    callWithin (depth + 1) f args store =
      Program.eval depth (f.entered store) f.body (f.opened args store) := by
  change _ =
    (Stmt.evalAll (callWithin depth) (f.entered store) .null f.body (f.opened args store)).bind
      fun p => some (p.1.arrived, p.2)
  simp only [callWithin, Closure.entered, Closure.opened]
  split <;> simp_all

theorem callWithin_succ_eq_some {depth : Nat} {f : Closure} {args : List Value}
    {store store' : Store} {v : Value} :
    callWithin (depth + 1) f args store = some (v, store') ↔
      ∃ u, Stmt.evalAll (callWithin depth) (f.entered store) .null f.body (f.opened args store) =
        some (u, store') ∧ v = u.arrived := by
  rw [callWithin_succ, Program.eval_eq_some]

/-! ### Depth -/

/-- Whatever the first computation comes to, the second one does. -/
def Extends {α : Type} (m m' : Eval α) : Prop :=
  ∀ (store : Store) (r : α × Store), m store = some r → m' store = some r

namespace Extends

variable {α β : Type}

theorem refl (m : Eval α) : Extends m m := fun _ _ => id

theorem bind {m m' : Eval α} {f f' : α → Eval β} (h : Extends m m')
    (next : ∀ a, Extends (f a) (f' a)) : Extends (m >>= f) (m' >>= f') := by
  intro store r ended
  obtain ⟨a, middle, first, second⟩ := bind_eq_some.1 ended
  exact bind_eq_some.2 ⟨a, middle, h _ _ first, next a _ _ second⟩

theorem onValue {first first' : Eval Value} {next next' : Value → Eval Value}
    (h : Extends first first') (rest : ∀ v, Extends (next v) (next' v)) :
    Extends (onValue first next) (onValue first' next') := by
  apply h.bind
  intro v
  split
  · exact refl _
  · exact rest v

end Extends

section

set_option linter.unusedSectionVars false

variable {call call' : Call} (h : ∀ f args, Extends (call f args) (call' f args)) (scope : Scope)
include h

theorem applyValue_extends (callee : Value) (args : List Value) :
    Extends (applyValue call callee args) (applyValue call' callee args) := by
  cases callee with
  | function f =>
    simp only [applyValue]
    split
    · exact h f args
    · exact .refl _
  | _ => exact .refl _

mutual

theorem Expr.eval_extends (e : Expr) : Extends (e.eval call scope) (e.eval call' scope) := by
  match e with
  | .identifier _ | .integer _ | .string _ | .boolean _ | .function _ _ => exact .refl _
  | .array elements =>
    simp only [Expr.eval]
    exact (Expr.evalAll_extends elements).bind fun _ => .refl _
  | .hash pairs =>
    simp only [Expr.eval]
    exact Expr.evalPairs_extends [] pairs
  | .unary op operand =>
    simp only [Expr.eval]
    exact operand.eval_extends.onValue fun _ => .refl _
  | .binary op left right =>
    simp only [Expr.eval]
    exact left.eval_extends.onValue fun _ => right.eval_extends.onValue fun _ => .refl _
  | .index left position =>
    simp only [Expr.eval]
    exact left.eval_extends.onValue fun _ => position.eval_extends.onValue fun _ => .refl _
  | .conditional condition consequence alternative =>
    simp only [Expr.eval_conditional]
    refine condition.eval_extends.onValue fun v => ?_
    split
    · exact Stmt.evalAll_extends .null consequence
    · exact Stmt.evalElse_extends alternative
  | .call callee args =>
    simp only [Expr.eval]
    refine callee.eval_extends.onValue fun f => (Expr.evalAll_extends args).bind fun values => ?_
    split
    · exact applyValue_extends h f _
    · exact .refl _

theorem Expr.evalAll_extends (es : List Expr) :
    Extends (Expr.evalAll call scope es) (Expr.evalAll call' scope es) := by
  match es with
  | [] => exact .refl _
  | e :: es =>
    simp only [Expr.evalAll]
    refine e.eval_extends.bind fun v => ?_
    split
    · exact .refl _
    · exact (Expr.evalAll_extends es).bind fun _ => .refl _

theorem Expr.evalPairs_extends (entries : List (HashKey × Value)) (pairs : List (Expr × Expr)) :
    Extends (Expr.evalPairs call scope entries pairs)
      (Expr.evalPairs call' scope entries pairs) := by
  match pairs with
  | [] => exact .refl _
  | (k, e) :: pairs =>
    simp only [Expr.evalPairs]
    refine k.eval_extends.onValue fun keyValue => ?_
    split
    · exact .refl _
    · exact e.eval_extends.onValue fun v => Expr.evalPairs_extends _ pairs

theorem Stmt.eval_extends (s : Stmt) : Extends (s.eval call scope) (s.eval call' scope) := by
  match s with
  | .bind name value =>
    simp only [Stmt.eval]
    exact value.eval_extends.onValue fun _ => .refl _
  | .ret value =>
    simp only [Stmt.eval]
    exact value.eval_extends.onValue fun _ => .refl _
  | .expression value =>
    simp only [Stmt.eval]
    exact value.eval_extends
  | .block body =>
    simp only [Stmt.eval]
    exact Stmt.evalAll_extends .null body

theorem Stmt.evalAll_extends (last : Value) (body : List Stmt) :
    Extends (Stmt.evalAll call scope last body) (Stmt.evalAll call' scope last body) := by
  match body with
  | [] => exact .refl _
  | s :: rest =>
    simp only [Stmt.evalAll]
    exact s.eval_extends.onValue fun v => Stmt.evalAll_extends v rest

theorem Stmt.evalElse_extends (alternative : Option (List Stmt)) :
    Extends (Stmt.evalElse call scope alternative) (Stmt.evalElse call' scope alternative) := by
  match alternative with
  | none => exact .refl _
  | some body => exact Stmt.evalAll_extends .null body

end

end

/-- A call that ends within some depth ends alike within any larger one. -/
theorem callWithin_extends {depth depth' : Nat} (le : depth ≤ depth') (f : Closure)
    (args : List Value) : Extends (callWithin depth f args) (callWithin depth' f args) := by
  induction depth generalizing depth' f args with
  | zero => exact fun store r ended => nomatch ended
  | succ depth ih =>
    obtain ⟨depth', rfl⟩ : ∃ n, depth' = n + 1 := ⟨depth' - 1, by omega⟩
    rintro store ⟨v, store'⟩ ended
    obtain ⟨u, inside, same⟩ := callWithin_succ_eq_some.1 ended
    have deeper : depth ≤ depth' := by omega
    have further := Stmt.evalAll_extends (ih deeper) _ _ _ _ _ inside
    exact callWithin_succ_eq_some.2 ⟨u, further, same⟩

theorem Program.eval_extends {depth depth' : Nat} (le : depth ≤ depth') (program : Program)
    (scope : Scope) : Extends (program.eval depth scope) (program.eval depth' scope) :=
  (Stmt.evalAll_extends (callWithin_extends le) scope .null program).bind fun _ => .refl _

/-! ### Evaluation without a bound -/

/-- The computation comes to an end when calls may nest deep enough. -/
def Finishes {α : Type} (m : Call → Eval α) (store : Store) (a : α) (store' : Store) : Prop :=
  ∃ depth, m (callWithin depth) store = some (a, store')

/-- A call yields what arrives from the body of the function. -/
theorem Finishes.call {scope : Scope} {callee : Expr} {args : List Expr} {f : Closure}
    {values : List Value} {before called start store' : Store} {u : Value}
    (function : Finishes (callee.eval · scope) before (.function f) called)
    (arguments : Finishes (Expr.evalAll · scope args) called (.ok values) start)
    (arity : f.params.length = values.length)
    (body : Finishes (Stmt.evalAll · (f.entered start) .null f.body) (f.opened values start) u
      store') :
    Finishes (Expr.eval · scope (.call callee args)) before u.arrived store' := by
  obtain ⟨depth₁, function⟩ := function
  obtain ⟨depth₂, arguments⟩ := arguments
  obtain ⟨depth₃, body⟩ := body
  have inside : callWithin (depth₃ + 1) f values start = some (u.arrived, store') :=
    callWithin_succ_eq_some.2 ⟨u, body, rfl⟩
  -- The three parts end within different depths, and all of them within the largest.
  obtain ⟨depth, le₁, le₂, le₃⟩ : ∃ depth, depth₁ ≤ depth ∧ depth₂ ≤ depth ∧ depth₃ + 1 ≤ depth :=
    ⟨max depth₁ (max depth₂ (depth₃ + 1)), by omega, by omega, by omega⟩
  have function := callee.eval_extends (callWithin_extends le₁) scope _ _ function
  have arguments := Expr.evalAll_extends (callWithin_extends le₂) scope args _ _ arguments
  have inside := callWithin_extends le₃ f values _ _ inside
  refine ⟨depth, ?_⟩
  simp only [Expr.eval]
  rw [onValue_of_value function rfl, bind_eq_some]
  refine ⟨_, _, arguments, ?_⟩
  simp only [applyValue]
  rwa [if_pos arity]

end MonkeyLanguage
