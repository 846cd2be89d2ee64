import MonkeyLanguage.Proofs.Eval.Simulation
import MonkeyLanguage.Proofs.Store.Lookup

/-!
# Frames that evaluation leaves alone

Only `let` writes to a frame, and only to that of the scope it stands in. A body runs in a scope of
its own, so no call writes to a frame that there was before, and neither does a tree in which every
`let` stands in the body of a function.
-/

namespace MonkeyLanguage

/-! ### Trees that bind nothing -/

mutual

/-- No `let` stands in the tree outside the bodies of its functions. -/
def Expr.Bindless : Expr → Prop
  | .identifier _ | .integer _ | .string _ | .boolean _ | .function _ _ => True
  | .array elements => Expr.BindlessIn elements
  | .hash pairs => Expr.BindlessPairs pairs
  | .unary _ operand => operand.Bindless
  | .binary _ left right => left.Bindless ∧ right.Bindless
  | .index left position => left.Bindless ∧ position.Bindless
  | .conditional condition consequence alternative =>
    condition.Bindless ∧ Stmt.BindlessIn consequence ∧ Stmt.BindlessElse alternative
  | .call callee args => callee.Bindless ∧ Expr.BindlessIn args

def Expr.BindlessIn : List Expr → Prop
  | [] => True
  | e :: es => e.Bindless ∧ Expr.BindlessIn es

def Expr.BindlessPairs : List (Expr × Expr) → Prop
  | [] => True
  | (key, value) :: pairs => key.Bindless ∧ value.Bindless ∧ Expr.BindlessPairs pairs

def Stmt.Bindless : Stmt → Prop
  | .bind _ _ => False
  | .ret value | .expression value => value.Bindless
  | .block body => Stmt.BindlessIn body

def Stmt.BindlessIn : List Stmt → Prop
  | [] => True
  | s :: rest => s.Bindless ∧ Stmt.BindlessIn rest

def Stmt.BindlessElse : Option (List Stmt) → Prop
  | none => True
  | some body => Stmt.BindlessIn body

end

section

variable (name : String)

mutual

theorem Expr.Bindless.not_mem_accesses (e : Expr) (bindless : e.Bindless) :
    Access.bind name ∉ e.accesses := by
  match e with
  | .identifier _ | .integer _ | .string _ | .boolean _ | .function _ _ => simp [Expr.accesses]
  | .array elements => exact Expr.BindlessIn.not_mem_accesses elements bindless
  | .hash pairs => exact Expr.BindlessPairs.not_mem_accesses pairs bindless
  | .unary _ operand => exact Expr.Bindless.not_mem_accesses operand bindless
  | .binary _ left right | .index left right =>
    have first := Expr.Bindless.not_mem_accesses left bindless.1
    have second := Expr.Bindless.not_mem_accesses right bindless.2
    simp [Expr.accesses, first, second]
  | .conditional condition consequence alternative =>
    have first := Expr.Bindless.not_mem_accesses condition bindless.1
    have second := Stmt.BindlessIn.not_mem_accesses consequence bindless.2.1
    have third := Stmt.BindlessElse.not_mem_accesses alternative bindless.2.2
    simp [Expr.accesses, first, second, third]
  | .call callee args =>
    have first := Expr.Bindless.not_mem_accesses callee bindless.1
    have rest := Expr.BindlessIn.not_mem_accesses args bindless.2
    simp [Expr.accesses, first, rest]

theorem Expr.BindlessIn.not_mem_accesses (es : List Expr) (bindless : Expr.BindlessIn es) :
    Access.bind name ∉ Expr.accessesIn es := by
  match es with
  | [] => simp [Expr.accessesIn]
  | e :: es =>
    have first := Expr.Bindless.not_mem_accesses e bindless.1
    have rest := Expr.BindlessIn.not_mem_accesses es bindless.2
    simp [Expr.accessesIn, first, rest]

theorem Expr.BindlessPairs.not_mem_accesses (pairs : List (Expr × Expr))
    (bindless : Expr.BindlessPairs pairs) : Access.bind name ∉ Expr.accessesPairs pairs := by
  match pairs with
  | [] => simp [Expr.accessesPairs]
  | (key, value) :: pairs =>
    have first := Expr.Bindless.not_mem_accesses key bindless.1
    have second := Expr.Bindless.not_mem_accesses value bindless.2.1
    have rest := Expr.BindlessPairs.not_mem_accesses pairs bindless.2.2
    simp [Expr.accessesPairs, first, second, rest]

theorem Stmt.Bindless.not_mem_accesses (s : Stmt) (bindless : s.Bindless) :
    Access.bind name ∉ s.accesses := by
  match s with
  | .bind _ _ => exact bindless.elim
  | .ret value => exact Expr.Bindless.not_mem_accesses value bindless
  | .expression value => exact Expr.Bindless.not_mem_accesses value bindless
  | .block body => exact Stmt.BindlessIn.not_mem_accesses body bindless

theorem Stmt.BindlessIn.not_mem_accesses (body : List Stmt) (bindless : Stmt.BindlessIn body) :
    Access.bind name ∉ Stmt.accessesIn body := by
  match body with
  | [] => simp [Stmt.accessesIn]
  | s :: rest =>
    have first := Stmt.Bindless.not_mem_accesses s bindless.1
    have others := Stmt.BindlessIn.not_mem_accesses rest bindless.2
    simp [Stmt.accessesIn, first, others]

theorem Stmt.BindlessElse.not_mem_accesses (alternative : Option (List Stmt))
    (bindless : Stmt.BindlessElse alternative) :
    Access.bind name ∉ Stmt.accessesElse alternative := by
  match alternative with
  | none => simp [Stmt.accessesElse]
  | some body => exact Stmt.BindlessIn.not_mem_accesses body bindless

end

end

/-! ### Frames left alone -/

/-- The frame is still there, with the bindings it had. -/
structure Store.Spares (frame : Nat) (before after : Store) : Prop where
  inside : frame < after.frames.size
  same : after.bindings frame = before.bindings frame

namespace Store

variable {frame : Nat} {store middle store' : Store}

theorem Spares.refl (inside : frame < store.frames.size) : store.Spares frame store := ⟨inside, rfl⟩

theorem Spares.trans (first : store.Spares frame middle) (second : middle.Spares frame store') :
    store.Spares frame store' :=
  ⟨second.inside, second.same.trans first.same⟩

theorem bind_spares {scope : Scope} (other : scope.frame ≠ frame)
    (inside : frame < store.frames.size) (name : String) (v : Value) :
    store.Spares frame (store.bind scope name v) := by
  refine ⟨by rwa [size_bind], ?_⟩
  rcases Nat.lt_or_ge scope.frame store.frames.size with home | outside
  · rw [bindings_bind home, if_neg (Ne.symm other)]
  · rw [bind_of_size_le outside]

theorem bindAll_spares {scope : Scope} (other : scope.frame ≠ frame)
    (inside : frame < store.frames.size) (params : List String) (args : List Value) :
    store.Spares frame (store.bindAll scope params args) := by
  induction params generalizing store args with
  | nil => exact .refl inside
  | cons param params ih =>
    cases args with
    | nil => exact .refl inside
    | cons arg args =>
      have first := bind_spares other inside param arg
      exact first.trans (ih first.inside args)

theorem enclose_spares (outer : Scope) (inside : frame < store.frames.size) :
    store.Spares frame (store.enclose outer).2 := by
  refine ⟨?_, bindings_enclose outer store frame⟩
  rw [size_enclose]
  omega

end Store

/-! ### Evaluation -/

/-- One and the same evaluation, as long as it leaves the frame as it was before. -/
def sparing (frame : Nat) (before : Store) : Simulation Unit where
  Grows _ _ := True
  Functions _ f g := f = g
  Scopes _ c d := c = d
  Stores _ store image := store = image ∧ before.Spares frame store
  Permits
    | c, .bind _ => c.frame ≠ frame
    | _, _ => True
  refl _ := trivial
  trans _ _ := trivial
  functions_mono _ same := same
  scopes_mono _ same := same
  separates := by
    rintro - f _ f' _ rfl rfl
    rfl
  params := by
    rintro - f _ rfl
    rfl
  body := by
    rintro - f _ rfl
    rfl
  lookup := by
    rintro - store _ c _ name ⟨rfl, -⟩ rfl -
    cases store.lookup name c with
    | none => exact .none
    | some v => exact .some (Value.All.related fun _ _ => rfl)
  bind := by
    rintro - store _ c _ name v v' ⟨rfl, spares⟩ rfl other values
    obtain rfl := values.eq_of fun _ _ => id
    exact ⟨rfl, spares.trans (Store.bind_spares other spares.inside name v)⟩
  capture := by
    rintro - store _ c _ params body ⟨rfl, spares⟩ rfl -
    exact ⟨(), trivial, rfl, rfl, spares.inside, spares.same⟩
  enter := by
    rintro - store _ f _ ⟨rfl, spares⟩ rfl
    have other : (f.entered store).frame ≠ frame := Nat.ne_of_gt spares.inside
    refine ⟨⟨(), trivial, rfl, rfl, ?_⟩, fun _ _ => other, fun access _ => ?_⟩
    · exact spares.trans (Store.enclose_spares f.scope spares.inside)
    · cases access with
      | bind name => exact other
      | _ => trivial

/-- The computation leaves the frame alone. -/
def Leaves {α : Type} (frame : Nat) (m : Eval α) : Prop :=
  ∀ store a store', frame < store.frames.size → m store = some (a, store') →
    store.Spares frame store'

theorem leaves_of_holds {α : Type} {frame : Nat} {m : Eval α}
    {post : Store → Unit → α → α → Prop}
    (h : ∀ before, (sparing frame before).Holds () (post before) m m) : Leaves frame m := by
  intro store a store' inside ended
  have same : store = store ∧ store.Spares frame store := ⟨rfl, .refl inside⟩
  obtain ⟨_, _, _, -, -, ⟨-, spares⟩, -⟩ := (h store).ended same ended
  exact spares

section

variable {frame : Nat} {scope : Scope}

theorem sparing_permits {before : Store} {access : Access}
    (spared : scope.frame ≠ frame ∨ ∀ name, access ≠ .bind name) :
    (sparing frame before).Permits scope access := by
  cases access with
  | bind name => exact spared.resolve_right fun none => none name rfl
  | _ => trivial

/-- A tree leaves the frame alone when it stands in another scope. -/
theorem evalTree_leaves (other : scope.frame ≠ frame) (depth : Nat) {kind : Kind}
    (tree : kind.Tree) : Leaves frame (evalTree (callWithin depth) scope tree) :=
  leaves_of_holds fun _ => Simulation.evalTree_holds depth tree rfl fun _ _ =>
    sparing_permits (.inl other)

theorem Program.eval_leaves (depth : Nat) {program : Program}
    (spared : scope.frame ≠ frame ∨ Stmt.BindlessIn program) :
    Leaves frame (program.eval depth scope) := by
  refine leaves_of_holds fun _ => Simulation.program_holds depth program rfl fun access member => ?_
  refine sparing_permits (spared.imp_right fun bindless name same => ?_)
  exact Stmt.BindlessIn.not_mem_accesses name program bindless (same ▸ member)

theorem callWithin_leaves (frame depth : Nat) (f : Closure) (args : List Value) :
    Leaves frame (callWithin depth f args) := by
  have self (v : Value) : v.Related (· = ·) v := Value.All.related fun _ _ => rfl
  exact leaves_of_holds fun _ => Simulation.callWithin_holds depth () f f args args rfl
    (List.forall₂_same.2 fun v _ => self v)

theorem applyValue_leaves (frame depth : Nat) (callee : Value) (args : List Value) :
    Leaves frame (applyValue (callWithin depth) callee args) := by
  have self (v : Value) : v.Related (· = ·) v := Value.All.related fun _ _ => rfl
  exact leaves_of_holds fun before => Simulation.applyValue_holds
    (Simulation.callWithin_holds depth) (self callee) (List.forall₂_same.2 fun v _ => self v)

end

/-! ### Scopes left alone -/

/-- The frames of the scope are still there, with the bindings they had. -/
def Store.Keeps (before : Store) (scope : Scope) (after : Store) : Prop :=
  ∀ frame ∈ scope.chain, before.Spares frame after

namespace Store.Keeps

variable {before store store' : Store} {scope : Scope}

theorem refl (inside : ∀ frame ∈ scope.chain, frame < store.frames.size) :
    store.Keeps scope store :=
  fun frame member => .refl (inside frame member)

theorem inside (keeps : before.Keeps scope store) :
    ∀ frame ∈ scope.chain, frame < store.frames.size :=
  fun frame member => (keeps frame member).inside

theorem lookup (keeps : before.Keeps scope store) (name : String) :
    store.lookup name scope = before.lookup name scope := by
  induction scope with
  | root frame => rw [Store.lookup, Store.lookup, (keeps frame (List.mem_singleton_self _)).same]
  | enclosed frame outer ih =>
    rw [Store.lookup, Store.lookup, (keeps frame List.mem_cons_self).same,
      ih fun frame member => keeps frame (List.mem_cons_of_mem _ member)]

theorem leaves {α : Type} {m : Eval α} {a : α} (keeps : before.Keeps scope store)
    (leaves : ∀ frame ∈ scope.chain, Leaves frame m) (ended : m store = some (a, store')) :
    before.Keeps scope store' := fun frame member =>
  (keeps frame member).trans (leaves frame member _ _ _ (keeps frame member).inside ended)

/-- The body of a function runs in a scope of its own. -/
theorem entered {f : Closure} {args : List Value} {depth : Nat} {kind : Kind} {tree : kind.Tree}
    {v : Value} (keeps : before.Keeps f.scope store)
    (ended : evalTree (callWithin depth) (f.entered store) tree (f.opened args store) =
      some (v, store')) : before.Keeps f.scope store' := by
  have other : ∀ frame ∈ f.scope.chain, (f.entered store).frame ≠ frame :=
    fun frame member => Nat.ne_of_gt (keeps.inside frame member)
  have opened : before.Keeps f.scope (f.opened args store) := by
    intro frame member
    have enclosed := Store.enclose_spares f.scope (keeps.inside frame member)
    have bound := Store.bindAll_spares (other frame member) enclosed.inside f.params args
    exact (keeps frame member).trans (enclosed.trans bound)
  exact opened.leaves (fun frame member => evalTree_leaves (other frame member) depth tree) ended

end Store.Keeps

end MonkeyLanguage
