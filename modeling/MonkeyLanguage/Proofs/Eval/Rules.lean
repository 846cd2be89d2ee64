import MonkeyLanguage.Proofs.Eval.Run
import MonkeyLanguage.Proofs.Store.Lookup

/-!
# Rules of evaluation

What a tree yields when it is known what its parts yield, and what names mean in the body of a
function.
-/

namespace MonkeyLanguage

section

variable {call : Call} {scope : Scope} {store middle after : Store} {name : String} {v w : Value}

/-! ### Expressions -/

theorem Expr.eval_bound (bound : store.lookup name scope = some v) :
    (Expr.identifier name).eval call scope store = some (v, store) := by
  simp only [Expr.eval, lookupName, bound]

theorem Expr.eval_builtin {b : Builtin} (unbound : store.lookup b.name scope = none) :
    (Expr.identifier b.name).eval call scope store = some (.builtin b, store) := by
  have named : Builtin.named? b.name = some b := by cases b <;> decide
  simp only [Expr.eval, lookupName, unbound, named]

theorem Expr.eval_function (params : List String) (body : Block) :
    (Expr.function params body).eval call scope store =
      some (.function (store.newClosure params body scope).1,
        (store.newClosure params body scope).2) := rfl

theorem Expr.eval_binary {op : BinaryOp} {left right : Expr}
    (first : left.eval call scope store = some (v, middle)) (value : v.isSignal = false)
    (second : right.eval call scope middle = some (w, after)) (value' : w.isSignal = false) :
    (Expr.binary op left right).eval call scope store = some (op.apply v w, after) := by
  rw [Expr.eval, onValue_of_value first value]
  exact onValue_of_value second value' _

theorem Expr.eval_index {left position : Expr}
    (indexed : left.eval call scope store = some (v, middle)) (value : v.isSignal = false)
    (evaluated : position.eval call scope middle = some (w, after)) (index : w.isSignal = false) :
    (Expr.index left position).eval call scope store = some (v.at w, after) := by
  rw [Expr.eval, onValue_of_value indexed value]
  exact onValue_of_value evaluated index _

theorem Expr.evalAll_cons {e : Expr} {es : List Expr} {values : List Value}
    (first : e.eval call scope store = some (v, middle)) (value : v.isSignal = false)
    (rest : Expr.evalAll call scope es middle = some (.ok values, after)) :
    Expr.evalAll call scope (e :: es) store = some (.ok (v :: values), after) := by
  rw [Expr.evalAll, bind_eq_some]
  refine ⟨v, middle, first, ?_⟩
  rw [if_neg (by simp [value]), bind_eq_some]
  exact ⟨_, after, rest, rfl⟩

theorem Expr.evalAll_singleton {e : Expr} (ended : e.eval call scope store = some (v, after))
    (value : v.isSignal = false) :
    Expr.evalAll call scope [e] store = some (.ok [v], after) :=
  Expr.evalAll_cons ended value rfl

theorem Expr.eval_call {callee : Expr} {args : List Expr} {values : List Value}
    (first : callee.eval call scope store = some (v, middle)) (value : v.isSignal = false)
    (rest : Expr.evalAll call scope args middle = some (.ok values, after)) :
    (Expr.call callee args).eval call scope store = applyValue call v values after := by
  rw [Expr.eval, onValue_of_value first value]
  change (Expr.evalAll call scope args middle).bind _ = _
  rw [rest, Option.bind_some]

/-! ### Statements -/

theorem Stmt.eval_bind {e : Expr} (ended : e.eval call scope store = some (v, after))
    (value : v.isSignal = false) :
    (Stmt.bind name e).eval call scope store = some (v, after.bind scope name v) :=
  onValue_of_value ended value _

/-- A function literal that is given a name. -/
theorem Stmt.eval_bind_function (inside : scope.frame < store.frames.size) (name : String)
    (params : List String) (body : Block) :
    ∃ f store', (∀ call, (Stmt.bind name (.function params body)).eval call scope store =
        some (.function f, store')) ∧
      f.params = params ∧ f.body = body ∧ f.scope = scope ∧
      store'.frames.size = store.frames.size ∧
      ∀ other, store'.lookup other scope =
        if name = other then some (.function f) else store.lookup other scope := by
  have made : scope.frame < (store.newClosure params body scope).2.frames.size := inside
  refine ⟨(store.newClosure params body scope).1, _, fun _ => rfl, rfl, rfl, rfl, ?_, ?_⟩
  · exact Store.size_bind scope name _ _
  · intro other
    rw [← store.lookup_newClosure params body]
    exact Store.lookup_bind made name other _

/-- A block of one expression means that expression. -/
theorem Stmt.evalAll_expression (call : Call) (scope : Scope) (last : Value) (e : Expr) :
    Stmt.evalAll call scope last [.expression e] = e.eval call scope := by
  funext store
  change (e.eval call scope store).bind _ = _
  rcases e.eval call scope store with _ | ⟨v, store'⟩
  · rfl
  · change (if v.isSignal then pure v else pure v : Eval Value) store' = _
    rw [ite_self]
    rfl

end

/-! ### Functions -/

section

variable {f : Closure} {args : List Value} {v : Value} {depth depth' : Nat}

theorem Closure.size_opened (f : Closure) (args : List Value) (store : Store) :
    (f.opened args store).frames.size = store.frames.size + 1 := by
  rw [Closure.opened, Store.size_bindAll, Store.size_enclose]

/-- In the body of a function a parameter means its last argument, and any other name what it means
outside. -/
theorem Closure.lookup_opened (f : Closure) (args : List Value) (store : Store) (name : String) :
    (f.opened args store).lookup name (f.entered store) =
      (f.params.zip args).foldl (fun found arg => if arg.1 = name then some arg.2 else found)
        (store.lookup name f.scope) := by
  have inside : (f.entered store).frame < (store.enclose f.scope).2.frames.size := by
    simp [Closure.entered, Store.enclose, Scope.frame]
  rw [Closure.opened, Store.lookup_bindAll inside]
  exact congrArg (List.foldl _ · _) (store.lookup_enclose name f.scope)

theorem Closure.lookup_opened_of_not_mem {f : Closure} {name : String} (outer : name ∉ f.params)
    (args : List Value) (store : Store) :
    (f.opened args store).lookup name (f.entered store) = store.lookup name f.scope := by
  have other : ∀ arg ∈ f.params.zip args, arg.1 ≠ name := by
    rintro arg member rfl
    exact outer (List.of_mem_zip member).1
  rw [Closure.lookup_opened]
  generalize f.params.zip args = entries at other
  induction entries with
  | nil => rfl
  | cons entry entries ih =>
    obtain ⟨first, rest⟩ := List.forall_mem_cons.1 other
    rw [List.foldl_cons, if_neg first]
    exact ih rest

theorem callWithin_expression {e : Expr} {store store' : Store} (body : f.body = [.expression e])
    (ended : e.eval (callWithin depth) (f.entered store) (f.opened args store) = some (v, store'))
    (value : v.isSignal = false) : callWithin (depth + 1) f args store = some (v, store') := by
  refine callWithin_succ_eq_some.2 ⟨v, ?_, (Value.arrived_of_value value).symm⟩
  rw [body, Stmt.evalAll_expression]
  exact ended

/-- Whatever the store, within this depth the function returns the value for these arguments. -/
def Closure.Returns (depth : Nat) (f : Closure) (args : List Value) (v : Value) : Prop :=
  ∀ store, ∃ store', callWithin depth f args store = some (v, store')

theorem Closure.Returns.mono (returns : f.Returns depth args v) (le : depth ≤ depth') :
    f.Returns depth' args v := by
  intro store
  obtain ⟨store', ended⟩ := returns store
  exact ⟨store', callWithin_extends le f args _ _ ended⟩

end

end MonkeyLanguage
