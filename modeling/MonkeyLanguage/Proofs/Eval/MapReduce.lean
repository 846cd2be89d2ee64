import Mathlib.Algebra.Group.Nat.Defs
import Mathlib.Algebra.Ring.Int.Defs
import MonkeyLanguage.Proofs.Eval.Rules
import MonkeyLanguage.Proofs.Eval.Untouched
import MonkeyLanguage.Syntax.Parser

/-!
# Mapping and reducing a list

The program doubles the integers of a list and sums the doubles, by functions of its own:

    let map = fn(arr, f) {
        let iter = fn(arr, acc) {
            if (len(arr) == 0) { acc } else { iter(rest(arr), push(acc, f(first(arr)))) }
        };
        iter(arr, [])
    };
    let reduce = fn(arr, initial, f) {
        let iter = fn(arr, result) {
            if (len(arr) == 0) { result } else { iter(rest(arr), f(result, first(arr))) }
        };
        iter(arr, initial)
    };
    let doubled = map([1, 2, 3, 4], fn(x) { x * 2 });
    reduce(doubled, 0, fn(acc, x) { acc + x })

Both functions walk their list with an inner function that finds itself in the scope it was made in.
That walk is a fold of the list, whatever function is given to be called at each element.
-/

namespace MonkeyLanguage.MapReduce

/-! ### The program -/

def calling (name : String) (args : List Expr) : Expr := .call (.identifier name) args

/-- `if (len(arr) == 0) { acc } else { iter(rest(arr), next) }` -/
def walk (acc : String) (next : Expr) : Expr :=
  .conditional (.binary .equal (calling "len" [.identifier "arr"]) (.integer 0))
    [.expression (.identifier acc)]
    (some [.expression (calling "iter" [calling "rest" [.identifier "arr"], next])])

/-- `let iter = fn(arr, acc) { walk }; iter(arr, start)` -/
def walking (acc : String) (next start : Expr) : Block :=
  [.bind "iter" (.function ["arr", acc] [.expression (walk acc next)]),
    .expression (calling "iter" [.identifier "arr", start])]

/-- `push(acc, f(first(arr)))` -/
def gather : Expr :=
  calling "push" [.identifier "acc", calling "f" [calling "first" [.identifier "arr"]]]

/-- `f(result, first(arr))` -/
def combine : Expr := calling "f" [.identifier "result", calling "first" [.identifier "arr"]]

/-- The body of `map`. -/
def mapping : Block := walking "acc" gather (.array [])

/-- The body of `reduce`. -/
def reducing : Block := walking "result" combine (.identifier "initial")

/-- `x * 2` -/
def double : Block := [.expression (.binary .multiply (.identifier "x") (.integer 2))]

/-- `acc + x` -/
def add : Block := [.expression (.binary .plus (.identifier "acc") (.identifier "x"))]

def program (xs : List Int64) : Program :=
  [.bind "map" (.function ["arr", "f"] mapping),
    .bind "reduce" (.function ["arr", "initial", "f"] reducing),
    .bind "doubled" (calling "map" [.array (xs.map .integer), .function ["x"] double]),
    .expression (calling "reduce"
      [.identifier "doubled", .integer 0, .function ["acc", "x"] add])]

example : parse (
    "let map = fn(arr, f) \x7b let iter = fn(arr, acc) \x7b if (len(arr) == 0) \x7b acc \x7d " ++
    "else \x7b iter(rest(arr), push(acc, f(first(arr)))) \x7d \x7d; iter(arr, []) \x7d; " ++
    "let reduce = fn(arr, initial, f) \x7b let iter = fn(arr, result) \x7b if (len(arr) == 0) " ++
    "\x7b result \x7d else \x7b iter(rest(arr), f(result, first(arr))) \x7d \x7d; " ++
    "iter(arr, initial) \x7d; let doubled = map([1, 2, 3, 4], fn(x) \x7b x * 2 \x7d); " ++
    "reduce(doubled, 0, fn(acc, x) \x7b acc + x \x7d)") = (program [1, 2, 3, 4], []) := by
  simp only [parse, tokens, String.toList_append]
  decide +kernel

/-! ### Calls -/

section

variable {call : Call} {scope : Scope} {store after : Store} {acc : String} {next : Expr}
  {list values : List Value} {v w : Value} {f : Closure}

theorem eval_calling_builtin {b : Builtin} {args : List Expr}
    (unbound : store.lookup b.name scope = none)
    (evaluated : Expr.evalAll call scope args store = some (.ok values, after)) :
    (calling b.name args).eval call scope store = some (b.apply values, after) :=
  Expr.eval_call (Expr.eval_builtin unbound) rfl evaluated

theorem eval_calling_function {name : String} {args : List Expr}
    (bound : store.lookup name scope = some (.function f))
    (evaluated : Expr.evalAll call scope args store = some (.ok values, after))
    (arity : f.params.length = values.length) :
    (calling name args).eval call scope store = call f values after := by
  rw [calling, Expr.eval_call (Expr.eval_bound bound) rfl evaluated, applyValue, if_pos arity]

/-- A call of a builtin with the list alone. -/
theorem eval_calling_arr {b : Builtin} (unbound : ∀ b : Builtin, store.lookup b.name scope = none)
    (arr : store.lookup "arr" scope = some (.array list)) :
    (calling b.name [.identifier "arr"]).eval call scope store =
      some (b.apply [.array list], store) :=
  eval_calling_builtin (unbound b) (Expr.evalAll_singleton (Expr.eval_bound arr) rfl)

/-! ### One step of the walk -/

/-- Lengths are counted in 64 bits. -/
theorem length_beq_zero (countable : list.length < 2 ^ 64) :
    (Int64.ofNat list.length == 0) = list.isEmpty := by
  cases list with
  | nil => rfl
  | cons v list =>
    rw [List.isEmpty_cons, beq_eq_false_iff_ne]
    intro zero
    have wrapped : (v :: list).length % 2 ^ 64 = 0 := by
      have bits := congrArg (fun n => n.toBitVec.toNat) zero
      simpa using bits
    rw [Nat.mod_eq_of_lt countable] at wrapped
    exact Nat.succ_ne_zero _ wrapped

theorem eval_isEmpty (unbound : ∀ b : Builtin, store.lookup b.name scope = none)
    (arr : store.lookup "arr" scope = some (.array list)) (countable : list.length < 2 ^ 64) :
    (Expr.binary .equal (calling "len" [.identifier "arr"]) (.integer 0)).eval call scope store =
      some (.boolean list.isEmpty, store) := by
  have length := @eval_calling_arr call _ _ _ .len unbound arr
  have zero : (Expr.integer 0).eval call scope store = some (.integer 0, store) := rfl
  rw [← length_beq_zero countable]
  exact Expr.eval_binary length rfl zero rfl

theorem eval_walk_nil (unbound : ∀ b : Builtin, store.lookup b.name scope = none)
    (arr : store.lookup "arr" scope = some (.array []))
    (found : store.lookup acc scope = some v) :
    (walk acc next).eval call scope store = some (v, store) := by
  have condition := @eval_isEmpty call _ _ _ unbound arr (by simp)
  rw [walk, Expr.eval_conditional, onValue_of_value condition rfl]
  change Stmt.evalAll call scope .null [.expression _] store = _
  rw [Stmt.evalAll_expression]
  exact Expr.eval_bound found

theorem eval_walk_cons (unbound : ∀ b : Builtin, store.lookup b.name scope = none)
    (arr : store.lookup "arr" scope = some (.array (v :: list)))
    (countable : (v :: list).length < 2 ^ 64)
    (self : store.lookup "iter" scope = some (.function f)) (arity : f.params.length = 2)
    (ended : next.eval call scope store = some (w, after)) (value : w.isSignal = false) :
    (walk acc next).eval call scope store = call f [.array list, w] after := by
  have condition := @eval_isEmpty call _ _ _ unbound arr countable
  have rest := @eval_calling_arr call _ _ _ .rest unbound arr
  rw [walk, Expr.eval_conditional, onValue_of_value condition rfl]
  change Stmt.evalAll call scope .null [.expression _] store = _
  rw [Stmt.evalAll_expression]
  have args := Expr.evalAll_cons rest rfl (Expr.evalAll_singleton ended value)
  exact eval_calling_function self args arity

end

/-! ### The walk -/

/-- A name apart from those that the walk uses. -/
structure Apart (acc : String) : Prop where
  arr : acc ≠ "arr"
  iter : acc ≠ "iter"
  builtin : ∀ b : Builtin, acc ≠ b.name

theorem apart_acc : Apart "acc" := ⟨by decide, by decide, fun b => by cases b <;> decide⟩

theorem apart_result : Apart "result" := ⟨by decide, by decide, fun b => by cases b <;> decide⟩

/-- The function finds itself as `iter` in its scope, where the builtins have their names. -/
structure Walker (origin : Store) (acc : String) (next : Expr) (iter : Closure) : Prop where
  params : iter.params = ["arr", acc]
  body : iter.body = [.expression (walk acc next)]
  self : origin.lookup "iter" iter.scope = some (.function iter)
  unbound : ∀ b : Builtin, origin.lookup b.name iter.scope = none
  apart : Apart acc

def integers (xs : List Int64) : Value := .array (xs.map .integer)

theorem push_integers (xs : List Int64) (x : Int64) :
    Builtin.push.apply [integers xs, .integer x] = integers (xs ++ [x]) := by
  rw [integers, integers, List.map_append]
  rfl

section

variable {origin store : Store} {acc : String} {next start : Expr} {iter : Closure} {β : Type}
  {toValue : β → Value} {step : β → Int64 → β} {need depth : Nat} {xs : List Int64} {b : β}

namespace Walker

variable (walker : Walker origin acc next iter) (keeps : origin.Keeps iter.scope store)
  (list v : Value)
include walker keeps

/-- In a call, names mean what they meant where the function was made, but for the parameters. -/
theorem lookup (name : String) :
    (iter.opened [list, v] store).lookup name (iter.entered store) =
      if acc = name then some v else
        if "arr" = name then some list else origin.lookup name iter.scope := by
  rw [Closure.lookup_opened, walker.params, keeps.lookup]
  rfl

theorem lookup_acc : (iter.opened [list, v] store).lookup acc (iter.entered store) = some v := by
  rw [walker.lookup keeps, if_pos rfl]

theorem lookup_arr :
    (iter.opened [list, v] store).lookup "arr" (iter.entered store) = some list := by
  rw [walker.lookup keeps, if_neg walker.apart.arr, if_pos rfl]

theorem lookup_iter :
    (iter.opened [list, v] store).lookup "iter" (iter.entered store) = some (.function iter) := by
  rw [walker.lookup keeps, if_neg walker.apart.iter, if_neg (by decide), walker.self]

theorem lookup_builtin (b : Builtin) :
    (iter.opened [list, v] store).lookup b.name (iter.entered store) = none := by
  have other : "arr" ≠ b.name := by cases b <;> decide
  rw [walker.lookup keeps, if_neg (walker.apart.builtin b), if_neg other, walker.unbound]

theorem eval_first (call : Call) (x : Int64) (xs : List Int64) :
    (calling "first" [.identifier "arr"]).eval call (iter.entered store)
      (iter.opened [integers (x :: xs), v] store) =
        some (.integer x, iter.opened [integers (x :: xs), v] store) :=
  @eval_calling_arr _ _ _ _ .first (walker.lookup_builtin keeps _ v) (walker.lookup_arr keeps _ v)

end Walker

/-- In a call of `iter`, `next` takes one step of the fold, if calls may nest as deep as it
needs. -/
def Steps (origin : Store) (iter : Closure) (next : Expr) (need : Nat) (toValue : β → Value)
    (step : β → Int64 → β) : Prop :=
  ∀ b x xs store depth, need ≤ depth → origin.Keeps iter.scope store →
    ∃ store', next.eval (callWithin depth) (iter.entered store)
      (iter.opened [integers (x :: xs), toValue b] store) = some (toValue (step b x), store')

/-- The walk folds the list. Each call finds the scope of `iter` as it was, since no call before it
wrote there. -/
theorem Walker.folds (walker : Walker origin acc next iter)
    (value : ∀ b, (toValue b).isSignal = false)
    (steps : Steps origin iter next need toValue step) (countable : xs.length < 2 ^ 64)
    (deep : need + xs.length < depth) (keeps : origin.Keeps iter.scope store) :
    ∃ store', callWithin depth iter [integers xs, toValue b] store =
      some (toValue (xs.foldl step b), store') := by
  induction xs generalizing b depth store with
  | nil =>
    obtain ⟨depth, rfl⟩ : ∃ d, depth = d + 1 := ⟨depth - 1, by omega⟩
    have unbound := walker.lookup_builtin keeps (integers []) (toValue b)
    have arr := walker.lookup_arr keeps (integers []) (toValue b)
    have found := walker.lookup_acc keeps (integers []) (toValue b)
    exact ⟨_, callWithin_expression walker.body (eval_walk_nil unbound arr found) (value b)⟩
  | cons x xs ih =>
    obtain ⟨depth, rfl⟩ : ∃ d, depth = d + 1 := ⟨depth - 1, by omega⟩
    simp only [List.length_cons] at countable deep
    obtain ⟨after, ended⟩ := steps b x xs store depth (by omega) keeps
    -- What `next` calls runs in scopes of its own, so `iter` still finds itself afterwards.
    have keeps' := @Store.Keeps.entered _ _ _ _ _ _ .expr _ _ keeps ended
    obtain ⟨store', walked⟩ :=
      ih (b := step b x) (by omega) (by omega : need + xs.length < depth) keeps'
    have unbound := walker.lookup_builtin keeps (integers (x :: xs)) (toValue b)
    have arr := walker.lookup_arr keeps (integers (x :: xs)) (toValue b)
    have self := walker.lookup_iter keeps (integers (x :: xs)) (toValue b)
    have length : ((x :: xs).map Value.integer).length < 2 ^ 64 := by simpa using countable
    have arity : iter.params.length = 2 := by rw [walker.params]; rfl
    refine ⟨store', callWithin_expression walker.body ?_ (value _)⟩
    exact (eval_walk_cons unbound arr length self arity ended (value _)).trans walked

/-- The scope is in the store, and the builtins have their names there. -/
structure Plain (store : Store) (scope : Scope) : Prop where
  inside : ∀ frame ∈ scope.chain, frame < store.frames.size
  unbound : ∀ b : Builtin, store.lookup b.name scope = none

/-- In the scope, all names but this one mean what they meant. -/
def AlikeBut (name : String) (scope : Scope) (before after : Store) : Prop :=
  ∀ other, other ≠ name → after.lookup other scope = before.lookup other scope

/-- A function whose body is such a walk folds its list. What `next` and `start` mean may depend on
the scope that the call of the function makes, where `iter` is bound besides its parameters. -/
theorem walking_folds {f : Closure} {args : List Value} (body : f.body = walking acc next start)
    (apart : Apart acc) (plain : Plain store f.scope) (free : ∀ b : Builtin, b.name ∉ f.params)
    (arr : (f.opened args store).lookup "arr" (f.entered store) = some (integers xs))
    (value : ∀ b, (toValue b).isSignal = false)
    (starts : ∀ call origin, AlikeBut "iter" (f.entered store) (f.opened args store) origin →
      start.eval call (f.entered store) origin = some (toValue b, origin))
    (steps : ∀ origin iter, Walker origin acc next iter → iter.scope = f.entered store →
      AlikeBut "iter" (f.entered store) (f.opened args store) origin →
      Steps origin iter next need toValue step)
    (countable : xs.length < 2 ^ 64) (deep : need + xs.length + 1 < depth) :
    ∃ store', callWithin depth f args store = some (toValue (xs.foldl step b), store') := by
  obtain ⟨depth, rfl⟩ : ∃ d, depth = d + 1 := ⟨depth - 1, by omega⟩
  have opened := f.size_opened args store
  have home : (f.entered store).frame < (f.opened args store).frames.size :=
    opened ▸ Nat.lt_succ_self _
  obtain ⟨iter, origin, bound, params, body', here, size, lookup⟩ :=
    Stmt.eval_bind_function home "iter" ["arr", acc] [.expression (walk acc next)]
  have self : origin.lookup "iter" (f.entered store) = some (.function iter) := by
    rw [lookup, if_pos rfl]
  have outer : AlikeBut "iter" (f.entered store) (f.opened args store) origin := by
    intro name other
    rw [lookup, if_neg other.symm]
  -- The scope that `iter` was made in is the one where its name was bound afterwards.
  have walker : Walker origin acc next iter := by
    refine ⟨params, body', here ▸ self, fun b => ?_, apart⟩
    rw [here, outer b.name (by cases b <;> decide), Closure.lookup_opened_of_not_mem (free b),
      plain.unbound]
  have keeps : origin.Keeps iter.scope origin := by
    refine .refl fun frame member => ?_
    rw [size, opened]
    rcases List.mem_cons.1 (here ▸ member) with rfl | member
    · exact Nat.lt_succ_self _
    · exact Nat.lt_succ_of_lt (plain.inside frame member)
  obtain ⟨store', walked⟩ := walker.folds value (steps origin iter walker here outer) countable
    (by omega : need + xs.length < depth) keeps
  refine ⟨store', callWithin_succ_eq_some.2 ⟨_, ?_, (Value.arrived_of_value (value _)).symm⟩⟩
  have list := @Expr.eval_bound (callWithin depth) _ _ _ _ ((outer "arr" (by decide)).trans arr)
  have first := Expr.evalAll_singleton (starts (callWithin depth) origin outer) (value b)
  have arity : iter.params.length = 2 := by rw [params]; rfl
  rw [body, walking, Stmt.evalAll, onValue_of_value (bound _) rfl, Stmt.evalAll_expression]
  exact (eval_calling_function self (Expr.evalAll_cons list rfl first) arity).trans walked

end

/-! ### The two functions -/

section

variable {origin store : Store} {iter f g : Closure} {need depth : Nat} {xs : List Int64}

theorem steps_gather {h : Int64 → Int64} (walker : Walker origin "acc" gather iter)
    (found : origin.lookup "f" iter.scope = some (.function g)) (arity : g.params.length = 1)
    (returns : ∀ x, g.Returns need [.integer x] (.integer (h x))) :
    Steps origin iter gather need integers fun ys x => ys ++ [h x] := by
  intro ys x xs store depth deep keeps
  have push := walker.lookup_builtin keeps (integers (x :: xs)) (integers ys) .push
  have gathered := walker.lookup_acc keeps (integers (x :: xs)) (integers ys)
  have function := (walker.lookup keeps (integers (x :: xs)) (integers ys) "f").trans found
  have first := Expr.evalAll_singleton
    (walker.eval_first keeps (integers ys) (callWithin depth) x xs) rfl
  obtain ⟨store', called⟩ := (returns x).mono deep
    (iter.opened [integers (x :: xs), integers ys] store)
  have image := (eval_calling_function function first arity).trans called
  have args := Expr.evalAll_cons (Expr.eval_bound gathered) rfl
    (Expr.evalAll_singleton image rfl)
  refine ⟨store', (eval_calling_builtin push args).trans ?_⟩
  rw [push_integers]

theorem steps_combine {k : Int64 → Int64 → Int64} (walker : Walker origin "result" combine iter)
    (found : origin.lookup "f" iter.scope = some (.function g)) (arity : g.params.length = 2)
    (returns : ∀ a x, g.Returns need [.integer a, .integer x] (.integer (k a x))) :
    Steps origin iter combine need .integer k := by
  intro a x xs store depth deep keeps
  have gathered := walker.lookup_acc keeps (integers (x :: xs)) (.integer a)
  have function := (walker.lookup keeps (integers (x :: xs)) (.integer a) "f").trans found
  have first := Expr.evalAll_singleton
    (walker.eval_first keeps (.integer a) (callWithin depth) x xs) rfl
  obtain ⟨store', called⟩ := (returns a x).mono deep
    (iter.opened [integers (x :: xs), .integer a] store)
  have args := Expr.evalAll_cons (Expr.eval_bound gathered) rfl first
  exact ⟨store', (eval_calling_function function args arity).trans called⟩

/-- `map` maps, whatever function on integers it is given. -/
theorem mapping_maps {h : Int64 → Int64} (params : f.params = ["arr", "f"])
    (body : f.body = mapping) (plain : Plain store f.scope)
    (returns : ∀ x, g.Returns need [.integer x] (.integer (h x))) (arity : g.params.length = 1)
    (countable : xs.length < 2 ^ 64) (deep : need + xs.length + 1 < depth) :
    ∃ store', callWithin depth f [integers xs, .function g] store =
      some (integers (xs.map h), store') := by
  have lookup := f.lookup_opened [integers xs, .function g] store
  rw [params] at lookup
  have free : ∀ b : Builtin, b.name ∉ f.params := by
    rw [params]
    exact fun b => by cases b <;> decide
  have image : xs.map h = xs.foldl (fun ys x => ys ++ [h x]) [] := by
    rw [List.map_eq_flatMap, List.flatMap_def, List.foldl_append_eq_append, List.nil_append]
  rw [image]
  refine walking_folds body apart_acc plain free (lookup "arr") (fun _ => rfl)
    (fun _ _ _ => rfl) (fun origin iter walker here outer => ?_) countable deep
  have found := (outer "f" (by decide)).trans (lookup "f")
  exact steps_gather walker (here ▸ found) arity returns

/-- `reduce` folds from the left, whatever function on integers it is given. -/
theorem reducing_folds {k : Int64 → Int64 → Int64} (params : f.params = ["arr", "initial", "f"])
    (body : f.body = reducing) (plain : Plain store f.scope)
    (returns : ∀ a x, g.Returns need [.integer a, .integer x] (.integer (k a x)))
    (arity : g.params.length = 2) (initial : Int64) (countable : xs.length < 2 ^ 64)
    (deep : need + xs.length + 1 < depth) :
    ∃ store', callWithin depth f [integers xs, .integer initial, .function g] store =
      some (.integer (xs.foldl k initial), store') := by
  have lookup := f.lookup_opened [integers xs, .integer initial, .function g] store
  rw [params] at lookup
  have free : ∀ b : Builtin, b.name ∉ f.params := by
    rw [params]
    exact fun b => by cases b <;> decide
  refine walking_folds body apart_result plain free (lookup "arr") (fun _ => rfl)
    (fun _ _ outer => ?_) (fun origin iter walker here outer => ?_) countable deep
  · exact Expr.eval_bound ((outer "initial" (by decide)).trans (lookup "initial"))
  · have found := (outer "f" (by decide)).trans (lookup "f")
    exact steps_combine walker (here ▸ found) arity returns

theorem returns_double (params : f.params = ["x"]) (body : f.body = double) (x : Int64) :
    f.Returns 1 [.integer x] (.integer (x * 2)) := by
  intro store
  have found : (f.opened [.integer x] store).lookup "x" (f.entered store) = some (.integer x) := by
    rw [f.lookup_opened, params]
    rfl
  have product := @Expr.eval_binary (callWithin 0) _ _ _ _ _ (.integer 2) .multiply _
    (.integer 2) (Expr.eval_bound found) rfl rfl rfl
  exact ⟨_, callWithin_expression body product rfl⟩

theorem returns_add (params : f.params = ["acc", "x"]) (body : f.body = add) (a x : Int64) :
    f.Returns 1 [.integer a, .integer x] (.integer (a + x)) := by
  intro store
  have lookup := f.lookup_opened [.integer a, .integer x] store
  rw [params] at lookup
  have sum := @Expr.eval_binary (callWithin 0) _ _ _ _ (.integer a) (.integer x) .plus _ _
    (Expr.eval_bound (lookup "acc")) rfl (Expr.eval_bound (lookup "x")) rfl
  exact ⟨_, callWithin_expression body sum rfl⟩

end

/-! ### A scope with both functions -/

/-- The scope has the function under this name, and it was made there. -/
def Has (store : Store) (scope : Scope) (name : String) (params : List String) (body : Block) :
    Prop :=
  ∃ f, store.lookup name scope = some (.function f) ∧ f.params = params ∧ f.body = body ∧
    f.scope = scope

structure Library (store : Store) (scope : Scope) : Prop extends Plain store scope where
  map : Has store scope "map" ["arr", "f"] mapping
  reduce : Has store scope "reduce" ["arr", "initial", "f"] reducing

namespace Library

variable {store store' : Store} {scope : Scope} {depth : Nat} {xs : List Int64}

/-- The two `let` that begin the program. -/
theorem exists_defined (plain : Plain store scope) :
    ∃ f g middle after,
      (∀ call, (Stmt.bind "map" (.function ["arr", "f"] mapping)).eval call scope store =
        some (.function f, middle)) ∧
      (∀ call, (Stmt.bind "reduce" (.function ["arr", "initial", "f"] reducing)).eval call scope
        middle = some (.function g, after)) ∧
      Library after scope := by
  have home := plain.inside scope.frame scope.frame_mem_chain
  obtain ⟨f, middle, first, params, body, here, size, lookup⟩ :=
    Stmt.eval_bind_function home "map" ["arr", "f"] mapping
  obtain ⟨g, after, second, params', body', here', size', lookup'⟩ :=
    Stmt.eval_bind_function (size ▸ home) "reduce" ["arr", "initial", "f"] reducing
  refine ⟨f, g, middle, after, first, second, ⟨fun frame member => ?_, fun b => ?_⟩,
    ⟨f, ?_, params, body, here⟩, ⟨g, ?_, params', body', here'⟩⟩
  · rw [size', size]
    exact plain.inside frame member
  · rw [lookup', lookup]
    cases b <;> exact plain.unbound _
  · rw [lookup', lookup]
    rfl
  · rw [lookup']
    rfl

theorem of_alike (library : Library store scope)
    (inside : ∀ frame ∈ scope.chain, frame < store'.frames.size)
    (alike : AlikeBut "doubled" scope store store') : Library store' scope where
  inside := inside
  unbound b := (alike b.name (by cases b <;> decide)).trans (library.unbound b)
  map := by
    rw [Has, alike "map" (by decide)]
    exact library.map
  reduce := by
    rw [Has, alike "reduce" (by decide)]
    exact library.reduce

theorem newClosure (library : Library store scope) (params : List String) (body : Block) :
    Library (store.newClosure params body scope).2 scope :=
  library.of_alike library.inside fun name _ =>
    store.lookup_newClosure params body scope name scope

theorem bind_doubled (library : Library store scope) (v : Value) :
    Library (store.bind scope "doubled" v) scope := by
  refine library.of_alike (fun frame member => ?_) fun name other => ?_
  · rw [Store.size_bind]
    exact library.inside frame member
  · rw [Store.lookup_bind (library.inside _ scope.frame_mem_chain), if_neg other.symm]

theorem eval_literals (call : Call) (scope : Scope) (store : Store) (xs : List Int64) :
    (Expr.array (xs.map .integer)).eval call scope store = some (integers xs, store) := by
  have elements : Expr.evalAll call scope (xs.map .integer) store =
      some (.ok (xs.map .integer), store) := by
    induction xs with
    | nil => rfl
    | cons x xs ih => exact Expr.evalAll_cons rfl rfl ih
  rw [Expr.eval, bind_eq_some]
  exact ⟨_, _, elements, rfl⟩

theorem eval_map (library : Library store scope) (countable : xs.length < 2 ^ 64)
    (deep : xs.length + 3 ≤ depth) :
    ∃ store', (calling "map" [.array (xs.map .integer), .function ["x"] double]).eval
        (callWithin depth) scope store = some (integers (xs.map (· * 2)), store') ∧
      Library store' scope := by
  have made := library.newClosure ["x"] double
  obtain ⟨f, found, params, body, here⟩ := library.map
  subst here
  have returns := @returns_double (store.newClosure ["x"] double f.scope).1 rfl rfl
  obtain ⟨store', called⟩ := mapping_maps params body made.toPlain returns (by rfl) countable
    (by omega : 1 + xs.length + 1 < depth)
  have arity : f.params.length = 2 := by rw [params]; rfl
  have args := Expr.evalAll_cons (eval_literals (callWithin depth) f.scope store xs) rfl
    (Expr.evalAll_singleton (Expr.eval_function ["x"] double) rfl)
  refine ⟨store', (eval_calling_function found args arity).trans called, ?_⟩
  have keeps := (Store.Keeps.refl made.inside).leaves
    (fun frame _ => callWithin_leaves frame depth f _) called
  exact made.of_alike keeps.inside fun name _ => keeps.lookup name

theorem eval_reduce (library : Library store scope) (countable : xs.length < 2 ^ 64)
    (doubled : store.lookup "doubled" scope = some (integers xs)) (deep : xs.length + 3 ≤ depth) :
    ∃ store', (calling "reduce"
        [.identifier "doubled", .integer 0, .function ["acc", "x"] add]).eval (callWithin depth)
      scope store = some (.integer (xs.foldl (· + ·) 0), store') := by
  have made := library.newClosure ["acc", "x"] add
  obtain ⟨f, found, params, body, here⟩ := library.reduce
  subst here
  have returns := @returns_add (store.newClosure ["acc", "x"] add f.scope).1 rfl rfl
  obtain ⟨store', called⟩ := reducing_folds params body made.toPlain returns (by rfl) 0 countable
    (by omega : 1 + xs.length + 1 < depth)
  have arity : f.params.length = 3 := by rw [params]; rfl
  have zero : (Expr.integer 0).eval (callWithin depth) f.scope store =
    some (.integer 0, store) := rfl
  have args := Expr.evalAll_cons (Expr.eval_bound doubled) rfl
    (Expr.evalAll_cons zero rfl (Expr.evalAll_singleton (Expr.eval_function ["acc", "x"] add) rfl))
  exact ⟨store', (eval_calling_function found args arity).trans called⟩

end Library

theorem eval_program {store : Store} {scope : Scope} {xs : List Int64} {depth : Nat}
    (plain : Plain store scope) (countable : xs.length < 2 ^ 64) (deep : xs.length + 3 ≤ depth) :
    ∃ store', (program xs).eval depth scope store =
      some (.integer ((xs.map (· * 2)).foldl (· + ·) 0), store') := by
  obtain ⟨f, g, middle, after, first, second, library⟩ := Library.exists_defined plain
  obtain ⟨mapped, ended, library⟩ := library.eval_map countable deep
  have home := library.inside scope.frame scope.frame_mem_chain
  have third := @Stmt.eval_bind _ _ _ _ "doubled" _ _ ended rfl
  have doubled := Store.lookup_bind home "doubled" "doubled" (integers (xs.map (· * 2)))
  rw [if_pos rfl] at doubled
  obtain ⟨store', last⟩ := (library.bind_doubled _).eval_reduce (by simpa using countable) doubled
    (by simpa using deep)
  refine ⟨store', Program.eval_eq_some.2 ⟨_, ?_, (Value.arrived_of_value rfl).symm⟩⟩
  rw [program, Stmt.evalAll, onValue_of_value (first _) rfl, Stmt.evalAll,
    onValue_of_value (second _) rfl, Stmt.evalAll, onValue_of_value third rfl,
    Stmt.evalAll_expression]
  exact last

/-! ### The sum of the doubles -/

theorem foldl_add_double (a : Int64) (xs : List Int64) :
    (xs.map (· * 2)).foldl (· + ·) a = a + Int64.ofInt (xs.map fun x => 2 * x.toInt).sum := by
  induction xs generalizing a with
  | nil => simp
  | cons x xs ih =>
    rw [List.map_cons, List.foldl_cons, ih, List.map_cons, List.sum_cons, Int64.ofInt_add,
      Int64.ofInt_mul, Int64.ofInt_toInt, Int64.add_assoc, Int64.mul_comm x]
    rfl

theorem plain_newRoot (store : Store) : Plain store.newRoot.2 store.newRoot.1 where
  inside frame member := by
    rw [List.mem_singleton.1 member, Store.size_newRoot]
    exact Nat.lt_succ_self _
  unbound b := store.lookup_newRoot b.name

/-- In a new scope the program yields the sum of the doubles, reduced once to 64 bits, if calls may
nest a little deeper than the list is long. The walk ends where `len` says so, so the list is one
whose length 64 bits can count, as that of every array in memory is. -/
theorem map_reduce_sums_doubles (xs : List Int64) (countable : xs.length < 2 ^ 64)
    (store : Store) :
    ∃ (w : Int64) (store' : Store),
      w.toInt = (xs.map fun x : Int64 => 2 * x.toInt).sum.bmod (2 ^ 64) ∧
      ∀ depth, xs.length + 3 ≤ depth →
        (program xs).eval depth store.newRoot.1 store.newRoot.2 = some (.integer w, store') := by
  obtain ⟨store', ended⟩ := eval_program (plain_newRoot store) countable (Nat.le_refl _)
  refine ⟨_, store', ?_, fun depth deep => Program.eval_extends deep _ _ _ _ ended⟩
  rw [foldl_add_double, Int64.zero_add]
  exact Int64.toInt_ofInt

/-- Each of the large doubles wraps around, and so does the sum. -/
theorem map_reduce_sums_doubles_wrapping :
    [4611686018427387904, 5, 4611686018427387904].length < 2 ^ 64 ∧
      ∃ store', (program [4611686018427387904, 5, 4611686018427387904]).eval 6 (.root 0)
        ⟨#[[]], 0⟩ = some (.integer 10, store') := by
  obtain ⟨w, store', value, ended⟩ :=
    map_reduce_sums_doubles [4611686018427387904, 5, 4611686018427387904] (by decide) .empty
  obtain rfl : w = 10 := Int64.toInt_inj.1 (value.trans (by rfl))
  exact ⟨by decide, store', ended 6 (by decide)⟩

end MonkeyLanguage.MapReduce
