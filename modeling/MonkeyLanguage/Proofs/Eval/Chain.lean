import MonkeyLanguage.Proofs.Eval.Moment
import MonkeyLanguage.Proofs.Eval.Nesting
import MonkeyLanguage.Proofs.Store.Lookup

/-!
# Chains of scopes

A scope is the first of a chain that ends in the global scope. The chain is lexical when its scopes
were made by calls of function literals each of which stands inside the next. A store is sound when
the scopes of the evaluation hold functions with lexical chains only; the operations on stores keep
it so.
-/

namespace MonkeyLanguage

namespace Evaluation

variable (E : Evaluation)

/-- The scope is one for code inside these literals, innermost first. A call of a function from the
first literal made it, a call of one from the second made the scope outside, and so on to the global
scope. Each was made later than the one outside. -/
inductive Chain : List Literal → Scope → Prop where
  | global : Chain [] E.globalScope
  | call {path : List Literal} {f : Closure} {values : List Value} {start : Store} :
    Chain path f.scope → f.literal.Nested E.program path → E.Called f values start →
    f.scope.frame < start.frames.size → Chain (f.literal :: path) (f.entered start)

/-- The function comes from a literal of the program, and its scope from calls of the literals
around that one. -/
def Lexical (f : Closure) : Prop :=
  ∃ path, f.literal.Nested E.program path ∧ E.Chain path f.scope

variable {E}

namespace Chain

variable {path : List Literal} {scope : Scope}

theorem length_chain (chain : E.Chain path scope) : scope.chain.length = path.length + 1 := by
  induction chain with
  | global => rfl
  | call _ _ _ _ ih => exact congrArg (· + 1) ih

theorem length_le (chain : E.Chain path scope) : path.length ≤ Stmt.nestingIn E.program := by
  cases chain with
  | global => exact Nat.zero_le _
  | call _ nested _ _ =>
    have bound := nested.length_lt
    simp only [List.length_cons]
    omega

theorem origin_le (chain : E.Chain path scope) : E.origin.frames.size ≤ scope.frame := by
  induction chain with
  | global => exact Nat.le_refl _
  | call _ _ _ later ih => exact Nat.le_trans ih (Nat.le_of_lt later)

theorem le_of_mem (chain : E.Chain path scope) {frame : Nat} (member : frame ∈ scope.chain) :
    frame ≤ scope.frame := by
  induction chain with
  | global => exact Nat.le_of_eq (List.mem_singleton.1 member)
  | call _ _ _ later ih =>
    rcases List.mem_cons.1 member with rfl | member
    · exact Nat.le_refl _
    · exact Nat.le_trans (ih member) (Nat.le_of_lt later)

/-- Frames only get older on the way out, so no frame comes twice. -/
theorem nodup (chain : E.Chain path scope) : scope.chain.Nodup := by
  induction chain with
  | global => exact List.pairwise_singleton _ _
  | call outer _ _ later ih =>
    refine List.nodup_cons.2 ⟨fun member => ?_, ih⟩
    exact absurd (outer.le_of_mem member) (Nat.not_le_of_lt later)

theorem outer (chain : E.Chain path scope) {outer : Scope} (found : scope.outer? = some outer) :
    ∃ path, E.Chain path outer := by
  cases chain with
  | global => simp [globalScope, Store.newRoot, Scope.outer?] at found
  | call chain _ _ _ =>
    obtain rfl := Option.some.inj found
    exact ⟨_, chain⟩

end Chain

/-! ### Values and stores -/

variable (E)

/-- All functions in the value are lexical, and their scopes are in the store. -/
def AtHome (store : Store) (v : Value) : Prop :=
  v.All fun f => E.Lexical f ∧ f.scope.frame < store.frames.size

/-- The scopes of this evaluation hold nothing but values at home. -/
structure Sound (store : Store) : Prop where
  newer : E.origin.frames.size < store.frames.size
  bindings : ∀ frame name v, E.origin.frames.size ≤ frame →
    Table.get? name (store.bindings frame) = some v → E.AtHome store v

/-- A store to go on with. -/
structure Continues (store middle : Store) : Prop where
  grows : store.frames.size ≤ middle.frames.size
  sound : E.Sound middle

variable {E} {store middle store' : Store} {scope : Scope} {path : List Literal} {v : Value}

theorem AtHome.mono (home : E.AtHome store v) (grows : store.frames.size ≤ middle.frames.size) :
    E.AtHome middle v :=
  Value.All.mono (fun _ => And.imp_right fun inside => Nat.lt_of_lt_of_le inside grows) home

theorem Continues.refl (sound : E.Sound store) : E.Continues store store := ⟨Nat.le_refl _, sound⟩

theorem Continues.trans (first : E.Continues store middle) (second : E.Continues middle store') :
    E.Continues store store' :=
  ⟨Nat.le_trans first.grows second.grows, second.sound⟩

theorem sound_start : E.Sound E.start := by
  refine ⟨by simp [start], fun frame name v later found => ?_⟩
  rw [start, Store.bindings_newRoot, Store.bindings_of_size_le later] at found
  simp at found

namespace Sound

theorem lookup (sound : E.Sound store) (chain : E.Chain path scope) {name : String}
    (found : store.lookup name scope = some v) : E.AtHome store v := by
  induction chain with
  | global => exact sound.bindings _ _ _ (Nat.le_refl _) found
  | @call path f values start chain nested called later ih =>
    have own := (Chain.call chain nested called later).origin_le
    simp only [Closure.entered, Store.enclose, Store.lookup] at found
    split at found
    · rename_i w bound
      obtain rfl := Option.some.inj found
      exact sound.bindings _ _ _ own bound
    · exact ih found

theorem bind (sound : E.Sound store) (scope : Scope) (name : String) (home : E.AtHome store v) :
    E.Continues store (store.bind scope name v) := by
  have size : (store.bind scope name v).frames.size = store.frames.size := store.size_bind _ _ _
  refine ⟨Nat.le_of_eq size.symm, size ▸ sound.newer, fun frame other w later found => ?_⟩
  have bound : E.AtHome store w := by
    rcases Store.get?_bindings_bind found with rfl | found
    · exact home
    · exact sound.bindings frame other w later found
  exact bound.mono (Nat.le_of_eq size.symm)

theorem bindAll (sound : E.Sound store) (scope : Scope) (params : List String) {args : List Value}
    (home : ∀ v ∈ args, E.AtHome store v) :
    E.Continues store (store.bindAll scope params args) := by
  induction params generalizing args store with
  | nil => simpa [Store.bindAll] using Continues.refl sound
  | cons name params ih =>
    cases args with
    | nil => simpa [Store.bindAll] using Continues.refl sound
    | cons v args =>
      obtain ⟨first, rest⟩ := List.forall_mem_cons.1 home
      have bound := sound.bind scope name first
      exact bound.trans (ih bound.sound fun w member => (rest w member).mono bound.grows)

theorem enclose (sound : E.Sound store) (outer : Scope) :
    E.Continues store (store.enclose outer).2 := by
  have grows : store.frames.size ≤ (store.enclose outer).2.frames.size := by simp
  refine ⟨grows, Nat.lt_of_lt_of_le sound.newer grows, fun frame name v later found => ?_⟩
  rw [Store.bindings_enclose] at found
  exact (sound.bindings frame name v later found).mono grows

/-- A call makes a scope and binds parameters, some of them or all. -/
theorem opening (sound : E.Sound store) (f : Closure) (params : List String) {args : List Value}
    (home : ∀ v ∈ args, E.AtHome store v) :
    E.Continues (store.enclose f.scope).2
      ((store.enclose f.scope).2.bindAll (f.entered store) params args) :=
  have enclosed := sound.enclose f.scope
  enclosed.sound.bindAll _ params fun v member => (home v member).mono enclosed.grows

end Sound

/-! ### Computations -/

variable (E) in
/-- Where the computation ends, evaluation can go on, and `post` is true. -/
def Lands {α : Type} (store : Store) (post : Store → α → Prop) (m : Eval α) : Prop :=
  ∀ a middle, m store = some (a, middle) → E.Continues store middle ∧ post middle a

namespace Lands

variable {α β : Type} {post : Store → α → Prop} {post' : Store → β → Prop}

theorem pure {a : α} (sound : E.Sound store) (h : post store a) :
    E.Lands store post (Pure.pure a) := by
  intro b middle ended
  obtain ⟨rfl, rfl⟩ := pure_eq_some.1 ended
  exact ⟨.refl sound, h⟩

theorem bind {m : Eval α} {f : α → Eval β} (first : E.Lands store post m)
    (next : ∀ a middle, m store = some (a, middle) → E.Continues store middle → post middle a →
      E.Lands middle post' (f a)) : E.Lands store post' (m >>= f) := by
  intro b last ended
  obtain ⟨a, middle, ended, rest⟩ := bind_eq_some.1 ended
  obtain ⟨continues, met⟩ := first a middle ended
  obtain ⟨continues', met'⟩ := next a middle ended continues met b last rest
  exact ⟨continues.trans continues', met'⟩

theorem onValue {first : Eval Value} {next : Value → Eval Value} (h : E.Lands store E.AtHome first)
    (rest : ∀ v middle, first store = some (v, middle) → v.isSignal = false →
      E.Continues store middle → E.AtHome middle v → E.Lands middle E.AtHome (next v)) :
    E.Lands store E.AtHome (onValue first next) := by
  refine h.bind fun v middle ended continues home => ?_
  split
  · exact .pure continues.sound home
  · rename_i value
    exact rest v middle ended (by simpa using value) continues home

end Lands

variable (E) in
/-- The values of a list of expressions, or the signal that stopped them. -/
def AllAtHome (store : Store) : Except Value (List Value) → Prop
  | .ok values => ∀ v ∈ values, E.AtHome store v
  | .error signal => E.AtHome store signal

theorem lookupName_lands (sound : E.Sound store) (chain : E.Chain path scope) (name : String) :
    E.Lands store E.AtHome (lookupName scope name) := by
  intro v middle ended
  unfold lookupName at ended
  split at ended
  · rename_i found
    obtain ⟨rfl, rfl⟩ := Prod.mk.inj (Option.some.inj ended)
    exact ⟨.refl sound, sound.lookup chain found⟩
  · split at ended
    · obtain ⟨rfl, rfl⟩ := Prod.mk.inj (Option.some.inj ended)
      exact ⟨.refl sound, Value.all_of_closures rfl⟩
    · obtain ⟨rfl, rfl⟩ := Prod.mk.inj (Option.some.inj ended)
      exact ⟨.refl sound, Value.all_fault _⟩

theorem newFunction_lands (sound : E.Sound store) (chain : E.Chain path scope)
    (inside : scope.frame < store.frames.size) (l : Literal) (nested : l.Nested E.program path) :
    E.Lands store E.AtHome (newFunction scope l.params l.body) := by
  intro v middle ended
  obtain ⟨rfl, rfl⟩ := Prod.mk.inj (Option.some.inj ended)
  refine ⟨⟨Nat.le_refl _, sound.newer, sound.bindings⟩, Value.all_function.2 ⟨?_, inside⟩⟩
  exact ⟨path, nested, chain⟩

theorem bindName_lands (sound : E.Sound store) (scope : Scope) (name : String)
    (home : E.AtHome store v) : E.Lands store E.AtHome (bindName scope name v) := by
  intro w middle ended
  obtain ⟨rfl, rfl⟩ := Prod.mk.inj (Option.some.inj ended)
  have bound := sound.bind scope name home
  exact ⟨bound, home.mono bound.grows⟩

theorem applyValue_lands {call : Call} {callee : Value} {args : List Value}
    (sound : E.Sound store) (home : ∀ v ∈ args, E.AtHome store v)
    (calls : ∀ f, callee = .function f → f.params.length = args.length →
      E.Lands store E.AtHome (call f args)) :
    E.Lands store E.AtHome (applyValue call callee args) := by
  cases callee with
  | function f =>
    simp only [applyValue]
    split
    · rename_i arity
      exact calls f rfl arity
    · exact .pure sound (Value.all_fault _)
  | builtin b => exact .pure sound (b.apply_all home)
  | _ => exact .pure sound (Value.all_fault _)

end Evaluation

end MonkeyLanguage
