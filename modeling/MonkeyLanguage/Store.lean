import MonkeyLanguage.Table
import MonkeyLanguage.Value.Basic

/-!
# The store of scopes

Scopes share their frames through a store: a function keeps the scope it was made in, and sees what
is bound there later. A frame is never removed.

`bindings_bind` says what a binding changes.
-/

namespace MonkeyLanguage

structure Store where
  frames : Array (List (String × Value))
  /-- The identity of the next function value. -/
  nextIdentity : Nat

namespace Store

def empty : Store := ⟨#[], 0⟩

def bindings (store : Store) (frame : Nat) : List (String × Value) := store.frames.getD frame []

def newRoot (store : Store) : Scope × Store :=
  (.root store.frames.size, { store with frames := store.frames.push [] })

def enclose (outer : Scope) (store : Store) : Scope × Store :=
  (.enclosed store.frames.size outer, { store with frames := store.frames.push [] })

/-- Binds in the frame of the scope itself, hiding a binding of the same name further out. -/
def bind (scope : Scope) (name : String) (value : Value) (store : Store) : Store :=
  { store with frames := store.frames.modify scope.frame (Table.set name value) }

def bindAll (scope : Scope) : List String → List Value → Store → Store
  | name :: names, value :: values, store =>
    bindAll scope names values (store.bind scope name value)
  | _, _, store => store

def lookup (store : Store) (name : String) : Scope → Option Value
  | .root frame => Table.get? name (store.bindings frame)
  | .enclosed frame outer =>
    match Table.get? name (store.bindings frame) with
    | some value => some value
    | none => store.lookup name outer

def newClosure (params : List String) (body : Block) (scope : Scope) (store : Store) :
    Closure × Store :=
  (⟨store.nextIdentity, params, body, scope⟩,
    { store with nextIdentity := store.nextIdentity + 1 })

/-! ### Frames -/

@[simp] theorem size_newRoot (store : Store) :
    store.newRoot.2.frames.size = store.frames.size + 1 := Array.size_push _

@[simp] theorem size_enclose (outer : Scope) (store : Store) :
    (store.enclose outer).2.frames.size = store.frames.size + 1 := Array.size_push _

@[simp] theorem size_bind (scope : Scope) (name : String) (value : Value) (store : Store) :
    (store.bind scope name value).frames.size = store.frames.size := Array.size_modify

theorem bindings_newRoot (store : Store) (frame : Nat) :
    (store.newRoot).2.bindings frame = store.bindings frame := by
  simp only [newRoot, bindings, Array.getD_eq_getD_getElem?, Array.getElem?_push]
  split <;> simp_all

theorem bindings_enclose (outer : Scope) (store : Store) (frame : Nat) :
    (store.enclose outer).2.bindings frame = store.bindings frame := by
  simp only [enclose, bindings, Array.getD_eq_getD_getElem?, Array.getElem?_push]
  split <;> simp_all

/-- A binding changes the frame of its scope and no other. -/
theorem bindings_bind {scope : Scope} {store : Store} (h : scope.frame < store.frames.size)
    (name : String) (value : Value) (frame : Nat) :
    (store.bind scope name value).bindings frame =
      if frame = scope.frame then Table.set name value (store.bindings frame)
      else store.bindings frame := by
  simp only [bind, bindings, Array.getD_eq_getD_getElem?, Array.getElem?_modify]
  by_cases same : frame = scope.frame
  · subst same; simp [h]
  · simp [same, Ne.symm same]

theorem bindings_of_size_le {store : Store} {frame : Nat} (h : store.frames.size ≤ frame) :
    store.bindings frame = [] := by
  simp [bindings, Array.getD_eq_getD_getElem?, h]

/-- A scope without a frame in the store has nowhere to bind. -/
theorem bind_of_size_le {scope : Scope} {store : Store} (h : store.frames.size ≤ scope.frame)
    (name : String) (value : Value) : store.bind scope name value = store := by
  have unchanged : store.frames.modify scope.frame (Table.set name value) = store.frames :=
    Array.ext_getElem? fun frame => by
      rw [Array.getElem?_modify]
      split
      · rename_i same
        simp [← same, h]
      · rfl
  rw [bind, unchanged]

/-- What is bound after a binding is the new value, or was bound before. -/
theorem get?_bindings_bind {scope : Scope} {store : Store} {name other : String}
    {value found : Value} {frame : Nat}
    (h : Table.get? other ((store.bind scope name value).bindings frame) = some found) :
    found = value ∨ Table.get? other (store.bindings frame) = some found := by
  rcases Nat.lt_or_ge scope.frame store.frames.size with inside | outside
  · rw [bindings_bind inside] at h
    split at h
    · rw [Table.get?_set] at h
      split at h
      · exact Or.inl (Option.some.inj h).symm
      · exact Or.inr h
    · exact Or.inr h
  · exact Or.inr (store.bind_of_size_le outside name value ▸ h)

end Store

end MonkeyLanguage
