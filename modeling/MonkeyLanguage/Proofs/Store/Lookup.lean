import MonkeyLanguage.Store

/-!
# What names mean

A name is looked up along the frames of a scope. What an operation on the store changes about that
is said once for each operation.
-/

namespace MonkeyLanguage

/-- The frames of a scope, its own first. -/
def Scope.chain : Scope → List Nat
  | root frame => [frame]
  | enclosed frame outer => frame :: outer.chain

/-- Of the frames of a scope the first that binds the name counts. -/
theorem Store.lookup_eq_findSome? (store : Store) (name : String) (scope : Scope) :
    store.lookup name scope =
      scope.chain.findSome? fun frame => Table.get? name (store.bindings frame) := by
  induction scope with
  | root frame =>
    rw [Store.lookup, Scope.chain, List.findSome?_cons]
    cases Table.get? name (store.bindings frame) <;> rfl
  | enclosed frame outer ih =>
    rw [Store.lookup, Scope.chain, List.findSome?_cons, ih]
    cases Table.get? name (store.bindings frame) <;> rfl

theorem Scope.frame_mem_chain (scope : Scope) : scope.frame ∈ scope.chain := by
  cases scope <;> exact List.mem_cons_self

namespace Store

theorem lookup_newRoot (store : Store) (name : String) :
    store.newRoot.2.lookup name store.newRoot.1 = none := by
  rw [newRoot, lookup, ← newRoot, bindings_newRoot, bindings_of_size_le (Nat.le_refl _),
    Table.get?_nil]

theorem lookup_enclose (store : Store) (name : String) (outer : Scope) :
    (store.enclose outer).2.lookup name (store.enclose outer).1 = store.lookup name outer := by
  have empty : store.bindings store.frames.size = [] := bindings_of_size_le (Nat.le_refl _)
  simp only [lookup_eq_findSome?, bindings_enclose]
  rw [enclose, Scope.chain, List.findSome?_cons, empty, Table.get?_nil]

theorem lookup_bind {store : Store} {scope : Scope} (inside : scope.frame < store.frames.size)
    (name other : String) (v : Value) :
    (store.bind scope name v).lookup other scope =
      if name = other then some v else store.lookup other scope := by
  rw [lookup_eq_findSome?, lookup_eq_findSome?]
  by_cases same : name = other
  · subst same
    obtain ⟨outer, chain⟩ : ∃ outer, scope.chain = scope.frame :: outer := by
      cases scope <;> exact ⟨_, rfl⟩
    rw [if_pos rfl, chain, List.findSome?_cons, bindings_bind inside, if_pos rfl,
      Table.get?_set_self]
  · rw [if_neg same]
    congr
    funext frame
    rw [bindings_bind inside]
    split
    · exact Table.get?_set_of_ne same v _
    · rfl

theorem lookup_bindAll {store : Store} {scope : Scope}
    (inside : scope.frame < store.frames.size) (params : List String) (args : List Value)
    (name : String) :
    (store.bindAll scope params args).lookup name scope =
      (params.zip args).foldl (fun found arg => if arg.1 = name then some arg.2 else found)
        (store.lookup name scope) := by
  induction params generalizing store args with
  | nil => rfl
  | cons param params ih =>
    cases args with
    | nil => rfl
    | cons arg args =>
      rw [bindAll, ih (by rwa [size_bind]), lookup_bind inside]
      rfl

theorem size_bindAll (scope : Scope) (params : List String) (args : List Value)
    (store : Store) : (store.bindAll scope params args).frames.size = store.frames.size := by
  induction params generalizing store args with
  | nil => rfl
  | cons param params ih =>
    cases args with
    | nil => rfl
    | cons arg args =>
      rw [bindAll, ih, size_bind]

theorem lookup_newClosure (store : Store) (params : List String) (body : Block)
    (scope : Scope) (name : String) (other : Scope) :
    (store.newClosure params body scope).2.lookup name other = store.lookup name other := by
  rw [lookup_eq_findSome?, lookup_eq_findSome?]
  rfl

end Store

end MonkeyLanguage
