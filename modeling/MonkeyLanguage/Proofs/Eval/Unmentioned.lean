import MonkeyLanguage.Proofs.Eval.Clean
import MonkeyLanguage.Proofs.Eval.Simulation
import MonkeyLanguage.Proofs.Syntax.Every

/-!
# Names that nobody mentions

A name that stands neither in a program nor in a function within its reach may be bound to anything,
or not at all: evaluation takes the same course and leaves the same bindings behind. The name of a
builtin is no exception, since a builtin is only looked for when its name is mentioned.

Functions are within reach through what is bound in frames, so the frames of a region are followed,
as for signals. What is bound to the name itself does not count: nobody asks for it.
-/

namespace MonkeyLanguage

/-! ### Code without the name -/

/-- The node itself does not mention the name. -/
def Expr.Omits (name : String) : Expr → Prop
  | .identifier other => other ≠ name
  | .function params _ => name ∉ params
  | _ => True

def Stmt.Omits (name : String) : Stmt → Prop
  | .bind other _ => other ≠ name
  | _ => True

/-- The name stands nowhere in the block, the bodies of functions included: not as an identifier,
not behind a `let` and not as a parameter. -/
def Block.Omits (name : String) (body : Block) : Prop :=
  Stmt.EveryIn (Expr.Omits name) (Stmt.Omits name) body

structure Closure.Omits (name : String) (f : Closure) : Prop where
  params : name ∉ f.params
  body : Block.Omits name f.body

def Access.Omits (name : String) : Access → Prop
  | .lookup other | .bind other => other ≠ name
  | .capture params body => name ∉ params ∧ Block.Omits name body

section

variable {name : String}

mutual

theorem Expr.Every.accesses_omit (e : Expr) (h : e.Every (Expr.Omits name) (Stmt.Omits name)) :
    ∀ access ∈ e.accesses, access.Omits name := by
  match e with
  | .identifier other =>
    simp only [Expr.accesses, List.forall_mem_singleton]
    exact h
  | .integer _ | .string _ | .boolean _ => simp [Expr.accesses]
  | .function params body =>
    simp only [Expr.accesses, List.forall_mem_singleton]
    exact h
  | .array elements => exact Expr.EveryIn.accesses_omit elements h.2
  | .hash pairs => exact Expr.EveryPair.accesses_omit pairs h.2
  | .unary _ operand => exact Expr.Every.accesses_omit operand h.2
  | .binary _ left right | .index left right =>
    simp only [Expr.accesses, List.forall_mem_append]
    exact ⟨Expr.Every.accesses_omit left h.2.1, Expr.Every.accesses_omit right h.2.2⟩
  | .conditional condition consequence alternative =>
    simp only [Expr.accesses, List.forall_mem_append]
    exact ⟨⟨Expr.Every.accesses_omit condition h.2.1,
      Stmt.EveryIn.accesses_omit consequence h.2.2.1⟩,
      Stmt.EveryElse.accesses_omit alternative h.2.2.2⟩
  | .call callee args =>
    simp only [Expr.accesses, List.forall_mem_append]
    exact ⟨Expr.Every.accesses_omit callee h.2.1, Expr.EveryIn.accesses_omit args h.2.2⟩

theorem Expr.EveryIn.accesses_omit (es : List Expr)
    (h : Expr.EveryIn (Expr.Omits name) (Stmt.Omits name) es) :
    ∀ access ∈ Expr.accessesIn es, access.Omits name := by
  match es with
  | [] => simp [Expr.accessesIn]
  | e :: es =>
    simp only [Expr.accessesIn, List.forall_mem_append]
    exact ⟨Expr.Every.accesses_omit e h.1, Expr.EveryIn.accesses_omit es h.2⟩

theorem Expr.EveryPair.accesses_omit (pairs : List (Expr × Expr))
    (h : Expr.EveryPair (Expr.Omits name) (Stmt.Omits name) pairs) :
    ∀ access ∈ Expr.accessesPairs pairs, access.Omits name := by
  match pairs with
  | [] => simp [Expr.accessesPairs]
  | (key, value) :: pairs =>
    simp only [Expr.accessesPairs, List.forall_mem_append]
    exact ⟨⟨Expr.Every.accesses_omit key h.1, Expr.Every.accesses_omit value h.2.1⟩,
      Expr.EveryPair.accesses_omit pairs h.2.2⟩

theorem Stmt.Every.accesses_omit (s : Stmt) (h : s.Every (Expr.Omits name) (Stmt.Omits name)) :
    ∀ access ∈ s.accesses, access.Omits name := by
  match s with
  | .bind other value =>
    simp only [Stmt.accesses, List.forall_mem_cons]
    exact ⟨h.1, Expr.Every.accesses_omit value h.2⟩
  | .ret value => exact Expr.Every.accesses_omit value h.2
  | .expression value => exact Expr.Every.accesses_omit value h.2
  | .block body => exact Stmt.EveryIn.accesses_omit body h.2

theorem Stmt.EveryIn.accesses_omit (body : List Stmt)
    (h : Stmt.EveryIn (Expr.Omits name) (Stmt.Omits name) body) :
    ∀ access ∈ Stmt.accessesIn body, access.Omits name := by
  match body with
  | [] => simp [Stmt.accessesIn]
  | s :: rest =>
    simp only [Stmt.accessesIn, List.forall_mem_append]
    exact ⟨Stmt.Every.accesses_omit s h.1, Stmt.EveryIn.accesses_omit rest h.2⟩

theorem Stmt.EveryElse.accesses_omit (alternative : Option (List Stmt))
    (h : Stmt.EveryElse (Expr.Omits name) (Stmt.Omits name) alternative) :
    ∀ access ∈ Stmt.accessesElse alternative, access.Omits name := by
  match alternative with
  | none => simp [Stmt.accessesElse]
  | some body => exact Stmt.EveryIn.accesses_omit body h

end

end

/-! ### Functions within reach -/

/-- A value leads to each of the functions in it. -/
theorem Store.reaches_closures (store : Store) (v : Value) :
    v.All fun f => store.Reaches (.value v) (.value (.function f)) := by
  induction v using Value.ind with
  | array vs ih =>
    exact Value.all_array.2 fun w member =>
      (ih w member).mono fun f reached => .head (.element member) reached
  | hash entries ih =>
    exact Value.all_hash.2 fun entry member =>
      (ih entry member).mono fun f reached => .head (.entry member) reached
  | function f => exact Value.all_function.2 .refl
  | returning v ih =>
    exact Value.all_returning.2 (ih.mono fun f reached => .head .payload reached)
  | integer _ | string _ | boolean _ | null | builtin _ | error _ =>
    exact Value.all_of_closures rfl

/-- The function does not mention the name and is at home in the region. -/
def Closure.Silent (name : String) (region : Nat → Prop) (f : Closure) : Prop :=
  f.Omits name ∧ f.scope.Within region

/-- All functions that are bound in the region are silent, but for those bound to the name itself.
Frames that are still to come belong to the region. -/
structure Store.Silent (name : String) (region : Nat → Prop) (store : Store) : Prop where
  bindings : ∀ frame other v, region frame → other ≠ name →
    Table.get? other (store.bindings frame) = some v → v.All (Closure.Silent name region)
  fresh : ∀ frame, store.frames.size ≤ frame → region frame

section

variable {name other : String} {region : Nat → Prop} {store image : Store} {scope : Scope}
  {v : Value}

/-- The region of a scope is silent when no function within reach mentions the name. -/
theorem Store.silent_of_reaches
    (functions : ∀ f, store.Reaches (.scope scope) (.value (.function f)) → f.Omits name) :
    store.Silent name (store.region (.scope scope)) := by
  refine ⟨?_, fun frame beyond => Or.inr beyond⟩
  rintro frame other v (⟨home, reached, rfl⟩ | beyond) - found
  · refine (store.reaches_closures v).mono fun f inside => ?_
    have held := (reached.tail (.binding found)).trans inside
    exact ⟨functions f held, f.scope.within_region (held.tail .captured)⟩
  · simp [Store.bindings_of_size_le beyond] at found

theorem Store.Silent.bind (silent : store.Silent name region) (scope : Scope) (other : String)
    (value : v.All (Closure.Silent name region)) :
    (store.bind scope other v).Silent name region := by
  refine ⟨fun frame key w home apart found => ?_, fun frame beyond => ?_⟩
  · rcases Store.get?_bindings_bind found with rfl | found
    · exact value
    · exact silent.bindings frame key w home apart found
  · exact silent.fresh frame (by simpa using beyond)

theorem Store.Silent.enclose (silent : store.Silent name region) (outer : Scope) :
    (store.enclose outer).2.Silent name region := by
  refine ⟨fun frame key w home apart found => ?_, fun frame beyond => ?_⟩
  · rw [Store.bindings_enclose] at found
    exact silent.bindings frame key w home apart found
  · rw [Store.size_enclose] at beyond
    exact silent.fresh frame (by omega)

/-! ### Stores that differ in one binding -/

/-- The stores have the same frames and bindings, but for the name in one frame. -/
structure Store.AgreesBut (frame : Nat) (name : String) (store image : Store) : Prop where
  frames : image.frames.size = store.frames.size
  functions : image.nextIdentity = store.nextIdentity
  bindings : ∀ place other, place ≠ frame ∨ other ≠ name →
    Table.get? other (image.bindings place) = Table.get? other (store.bindings place)

/-- A binding of one name leaves all others as they were. -/
theorem Store.get?_bindings_bind_of_ne (apart : other ≠ name) (store : Store) (scope : Scope)
    (v : Value) (frame : Nat) :
    Table.get? name ((store.bind scope other v).bindings frame) =
      Table.get? name (store.bindings frame) := by
  rcases Nat.lt_or_ge scope.frame store.frames.size with inside | outside
  · rw [Store.bindings_bind inside]
    split
    · exact Table.get?_set_of_ne apart v _
    · rfl
  · rw [Store.bind_of_size_le outside]

theorem Store.agreesBut_bind (store : Store) (scope : Scope) (name : String) (v : Value) :
    store.AgreesBut scope.frame name (store.bind scope name v) := by
  refine ⟨by simp, rfl, fun place other apart => ?_⟩
  rcases Nat.lt_or_ge scope.frame store.frames.size with inside | outside
  · rw [Store.bindings_bind inside]
    split
    · rename_i same
      have distinct : name ≠ other := Ne.symm (apart.resolve_left fun differs => differs same)
      exact Table.get?_set_of_ne distinct v _
    · rfl
  · rw [Store.bind_of_size_le outside]

variable {frame : Nat}

theorem Store.AgreesBut.bind (agrees : store.AgreesBut frame name image) (scope : Scope)
    (other : String) (v : Value) :
    (store.bind scope other v).AgreesBut frame name (image.bind scope other v) := by
  rcases Nat.lt_or_ge scope.frame store.frames.size with inside | outside
  · have inside' : scope.frame < image.frames.size := agrees.frames ▸ inside
    refine ⟨by simpa using agrees.frames, agrees.functions, fun place key apart => ?_⟩
    have before := agrees.bindings place key apart
    rw [Store.bindings_bind inside, Store.bindings_bind inside']
    split
    · rw [Table.get?_set, Table.get?_set, before]
    · exact before
  · rw [Store.bind_of_size_le outside, Store.bind_of_size_le (agrees.frames ▸ outside)]
    exact agrees

theorem Store.AgreesBut.enclose (agrees : store.AgreesBut frame name image) (outer : Scope) :
    (store.enclose outer).2.AgreesBut frame name (image.enclose outer).2 := by
  refine ⟨?_, agrees.functions, fun place key apart => ?_⟩
  · rw [Store.size_enclose, Store.size_enclose, agrees.frames]
  · rw [Store.bindings_enclose, Store.bindings_enclose]
    exact agrees.bindings place key apart

theorem Store.AgreesBut.lookup (agrees : store.AgreesBut frame name image)
    (silent : store.Silent name region) (home : scope.Within region) (apart : other ≠ name) :
    Option.Rel (Value.Related fun f g => f = g ∧ f.Silent name region) (store.lookup other scope)
      (image.lookup other scope) := by
  induction scope with
  | root place =>
    simp only [Store.lookup, agrees.bindings place other (.inr apart)]
    cases found : Table.get? other (store.bindings place) with
    | none => exact .none
    | some v => exact .some (silent.bindings _ _ _ home apart found).self
  | enclosed place outer ih =>
    simp only [Store.lookup, agrees.bindings place other (.inr apart)]
    cases found : Table.get? other (store.bindings place) with
    | none => exact ih home.2
    | some v => exact .some (silent.bindings _ _ _ home.1 apart found).self

end

/-! ### Evaluation -/

/-- Evaluation in a store and in one with another binding of the name, which stays as it was in
`extended`. -/
def omitting (frame : Nat) (name : String) (region : Nat → Prop) (extended : Store) :
    Simulation Unit where
  Grows _ _ := True
  Functions _ f g := f = g ∧ f.Silent name region
  Scopes _ c d := c = d ∧ c.Within region
  Stores _ store image := store.AgreesBut frame name image ∧ store.Silent name region ∧
    ∀ place, Table.get? name (image.bindings place) = Table.get? name (extended.bindings place)
  Permits _ access := access.Omits name
  refl _ := trivial
  trans _ _ := trivial
  functions_mono _ same := same
  scopes_mono _ same := same
  separates := by
    rintro - f _ f' _ ⟨rfl, -⟩ ⟨rfl, -⟩
    rfl
  params := by
    rintro - f _ ⟨rfl, -⟩
    rfl
  body := by
    rintro - f _ ⟨rfl, -⟩
    rfl
  lookup := by
    rintro - store image c _ other ⟨agrees, silent, -⟩ ⟨rfl, home⟩ apart
    exact agrees.lookup silent home apart
  bind := by
    rintro - store image c _ other v v' ⟨agrees, silent, kept⟩ ⟨rfl, -⟩ apart values
    obtain rfl := values.eq_of fun _ _ => And.left
    refine ⟨agrees.bind c other v, silent.bind c other values.all_of_self, fun place => ?_⟩
    rw [Store.get?_bindings_bind_of_ne apart, kept]
  capture := by
    rintro - store image c _ params body ⟨agrees, silent, kept⟩ ⟨rfl, home⟩ ⟨absent, omitted⟩
    refine ⟨(), trivial, ⟨?_, ⟨absent, omitted⟩, home⟩, ?_, ⟨silent.bindings, silent.fresh⟩, kept⟩
    · simp only [Store.newClosure, agrees.functions]
    · exact ⟨agrees.frames, congrArg (· + 1) agrees.functions, agrees.bindings⟩
  enter := by
    rintro - store image f _ ⟨agrees, silent, kept⟩ ⟨rfl, omits, home⟩
    have scopes : f.entered store = f.entered image := by
      simp only [Closure.entered, Store.enclose, agrees.frames]
    have inside : (f.entered store).Within region := ⟨silent.fresh _ (Nat.le_refl _), home⟩
    refine ⟨⟨(), trivial, ⟨scopes, inside⟩, agrees.enclose f.scope, silent.enclose f.scope,
      fun place => ?_⟩, fun other member => ?_, Stmt.EveryIn.accesses_omit f.body omits.body⟩
    · rw [Store.bindings_enclose, kept]
    · rintro rfl
      exact omits.params member

/-- A name that nobody mentions is irrelevant. Bound to any value in the scope of a program, in the
place of whatever it was bound to, it changes neither the value that the program yields nor what is
bound afterwards; the name itself is bound as it was. Scopes are numbers of frames, so the functions
in both values are the same, and what they captured differs in that one binding only. -/
theorem unmentioned_name_is_irrelevant {depth : Nat} {scope : Scope} {program : Program}
    {store store' : Store} {name : String} {result : Value} (v : Value)
    (omitted : Block.Omits name program)
    (functions : ∀ f, store.Reaches (.scope scope) (.value (.function f)) → f.Omits name)
    (ended : program.eval depth scope store = some (result, store')) :
    ∃ image', program.eval depth scope (store.bind scope name v) = some (result, image') ∧
      store'.AgreesBut scope.frame name image' ∧
      ∀ frame, Table.get? name (image'.bindings frame) =
        Table.get? name ((store.bind scope name v).bindings frame) := by
  have home : scope.Within (store.region (.scope scope)) := scope.within_region .refl
  have holds := Simulation.program_holds
    (S := omitting scope.frame name (store.region (.scope scope)) (store.bind scope name v))
    depth program (w := ()) ⟨rfl, home⟩ (Stmt.EveryIn.accesses_omit program omitted)
  obtain ⟨result', image', ended', _, -, ⟨agrees, -, kept⟩, values⟩ := holds.ended
    ⟨store.agreesBut_bind scope name v, Store.silent_of_reaches functions, fun _ => rfl⟩ ended
  obtain rfl := Value.Related.eq_of (fun _ _ => And.left) values
  exact ⟨image', ended', agrees, kept⟩

/-- `fn(n) { n + step }`, bound to `next` in the very scope that it captured. -/
def stepping : Closure :=
  ⟨0, ["n"], [.expression (.binary .plus (.identifier "n") (.identifier "step"))], .root 0⟩

def steppingStore : Store := ⟨#[[("step", .integer 2), ("next", .function stepping)]], 1⟩

/-- `let twice = fn(m) { next(next(m)) }; twice(3)` -/
def steppingTwice : Program :=
  [.bind "twice" (.function ["m"]
      [.expression (.call (.identifier "next") [.call (.identifier "next") [.identifier "m"]])]),
    .expression (.call (.identifier "twice") [.integer 3])]

/-- The only function in reach is the one that is bound. -/
theorem steppingStore_reaches {f : Closure}
    (reached : steppingStore.Reaches (.scope (.root 0)) (.value (.function f))) : f = stepping := by
  have closed : ∀ place, steppingStore.Reaches (.scope (.root 0)) place →
      place = .scope (.root 0) ∨ place = .value (.integer 2) ∨
        place = .value (.function stepping) := by
    intro place reached
    induction reached with
    | refl => exact .inl rfl
    | tail _ leads ih =>
      rcases ih with rfl | rfl | rfl
      · cases leads with
        | @binding _ name v found =>
          have bound : (name, v) ∈ [("step", Value.integer 2), ("next", .function stepping)] :=
            Table.mem_of_get? found
          simp only [List.mem_cons, Prod.mk.injEq, List.not_mem_nil, or_false] at bound
          rcases bound with ⟨-, rfl⟩ | ⟨-, rfl⟩
          · exact .inr (.inl rfl)
          · exact .inr (.inr rfl)
        | outer found => cases found
      · cases leads
      · cases leads with
        | captured => exact .inl rfl
  rcases closed _ reached with same | same | same
  · cases same
  · cases same
  · injection same with same
    injection same

theorem unmentioned_name_is_irrelevant_builtin :
    Block.Omits "len" steppingTwice ∧
      (∀ f, steppingStore.Reaches (.scope (.root 0)) (.value (.function f)) → f.Omits "len") ∧
      ∃ store' image', steppingTwice.eval 2 (.root 0) steppingStore = some (.integer 7, store') ∧
        steppingTwice.eval 2 (.root 0) (steppingStore.bind (.root 0) "len" (.integer 0)) =
          some (.integer 7, image') ∧
        store'.AgreesBut 0 "len" image' ∧ image'.lookup "len" (.root 0) = some (.integer 0) := by
  have omitted : Block.Omits "len" steppingTwice := by
    simp [Block.Omits, steppingTwice, Stmt.EveryIn, Stmt.Every, Expr.Every, Expr.EveryIn,
      Expr.Omits, Stmt.Omits]
  have functions : ∀ f, steppingStore.Reaches (.scope (.root 0)) (.value (.function f)) →
      f.Omits "len" := by
    intro f reached
    obtain rfl := steppingStore_reaches reached
    refine ⟨by decide, ?_⟩
    simp [Block.Omits, stepping, Stmt.EveryIn, Stmt.Every, Expr.Every, Expr.Omits, Stmt.Omits]
  have ended : steppingTwice.eval 2 (.root 0) steppingStore = some (.integer 7, _) := rfl
  obtain ⟨image', ended', agrees, kept⟩ :=
    unmentioned_name_is_irrelevant (.integer 0) omitted functions ended
  exact ⟨omitted, functions, _, image', ended, ended', agrees, kept 0⟩

end MonkeyLanguage
