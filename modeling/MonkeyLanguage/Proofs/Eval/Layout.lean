import MonkeyLanguage.Proofs.Eval.Simulation

/-!
# The layout of a store

A frame has at most one outer frame, the one it was made in. A layout records these links for all
frames of a store, and how many functions have been made. Every scope that evaluation comes across
follows the links, and a layout only grows: no link of a frame ever changes.
-/

namespace MonkeyLanguage

structure Layout where
  /-- For every frame in order, the one outside it. -/
  outer : List (Option Nat)
  functions : Nat

namespace Layout

/-- New frames and functions come after those there were. -/
structure Grows (layout layout' : Layout) : Prop where
  outer : layout.outer <+: layout'.outer
  functions : layout.functions ≤ layout'.functions

theorem Grows.refl (layout : Layout) : layout.Grows layout := ⟨List.prefix_refl _, Nat.le_refl _⟩

theorem Grows.trans {a b c : Layout} (first : a.Grows b) (second : b.Grows c) : a.Grows c :=
  ⟨first.outer.trans second.outer, Nat.le_trans first.functions second.functions⟩

theorem Grows.getElem? {layout layout' : Layout} (grows : layout.Grows layout') {frame : Nat}
    {link : Option Nat} (found : layout.outer[frame]? = some link) :
    layout'.outer[frame]? = some link := by
  obtain ⟨more, same⟩ := grows.outer
  rw [← same, List.getElem?_append_left (List.getElem?_eq_some_iff.1 found).1, found]

end Layout

/-! ### What fits a layout -/

/-- The chain of the scope is that of the links. -/
def Scope.Fits (layout : Layout) : Scope → Prop
  | root frame => layout.outer[frame]? = some none
  | enclosed frame outer => layout.outer[frame]? = some (some outer.frame) ∧ outer.Fits layout

structure Closure.Fits (layout : Layout) (f : Closure) : Prop where
  scope : f.scope.Fits layout
  identity : f.identity < layout.functions

def Value.Fits (layout : Layout) (v : Value) : Prop := v.All (Closure.Fits layout)

structure Store.Fits (layout : Layout) (store : Store) : Prop where
  frames : layout.outer.length = store.frames.size
  functions : layout.functions = store.nextIdentity
  bindings : ∀ frame name v, (name, v) ∈ store.bindings frame → v.Fits layout

section

variable {layout layout' : Layout} {store : Store} {scope : Scope}

theorem Scope.Fits.mono (grows : layout.Grows layout') (fits : scope.Fits layout) :
    scope.Fits layout' := by
  induction scope with
  | root frame => exact grows.getElem? fits
  | enclosed frame outer ih => exact ⟨grows.getElem? fits.1, ih fits.2⟩

theorem Scope.Fits.frame_lt (fits : scope.Fits layout) : scope.frame < layout.outer.length := by
  cases scope with
  | root frame => exact (List.getElem?_eq_some_iff.1 fits).1
  | enclosed frame outer => exact (List.getElem?_eq_some_iff.1 fits.1).1

theorem Closure.Fits.mono (grows : layout.Grows layout') {f : Closure} (fits : f.Fits layout) :
    f.Fits layout' :=
  ⟨fits.scope.mono grows, Nat.lt_of_lt_of_le fits.identity grows.functions⟩

theorem Value.Fits.mono (grows : layout.Grows layout') {v : Value} (fits : v.Fits layout) :
    v.Fits layout' :=
  Value.All.mono (fun _ => Closure.Fits.mono grows) fits

/-- A value that fits corresponds to itself through functions that fit. -/
theorem Value.Fits.related {v : Value} (fits : v.Fits layout) :
    v.Related (fun f g => f = g ∧ f.Fits layout) v :=
  Value.All.self fits

theorem Value.Fits.of_related {v w : Value}
    (values : v.Related (fun f g => f = g ∧ f.Fits layout) w) : v.Fits layout :=
  values.all_of_self

/-! ### Operations on the store -/

theorem Store.Fits.lookup (fits : store.Fits layout) {name : String} {v : Value}
    (found : store.lookup name scope = some v) : v.Fits layout := by
  induction scope with
  | root frame => exact fits.bindings _ _ _ (Table.mem_of_get? found)
  | enclosed frame outer ih =>
    simp only [Store.lookup] at found
    split at found
    · rename_i w bound
      obtain rfl := Option.some.inj found
      exact fits.bindings _ _ _ (Table.mem_of_get? bound)
    · exact ih found

theorem Store.Fits.bind (fits : store.Fits layout) (scope : Scope) (name : String) {v : Value}
    (bound : v.Fits layout) : (store.bind scope name v).Fits layout := by
  refine ⟨by simpa using fits.frames, fits.functions, fun frame other w member => ?_⟩
  rcases Nat.lt_or_ge scope.frame store.frames.size with inside | outside
  · rw [Store.bindings_bind inside] at member
    split at member
    · rcases Table.mem_set member with ⟨-, rfl⟩ | member
      · exact bound
      · exact fits.bindings _ _ _ member
    · exact fits.bindings _ _ _ member
  · rw [Store.bind_of_size_le outside] at member
    exact fits.bindings _ _ _ member

/-- The layout with one more frame, inside the given one. -/
def Layout.enclose (layout : Layout) (outer : Nat) : Layout :=
  { layout with outer := layout.outer ++ [some outer] }

theorem Layout.grows_enclose (layout : Layout) (outer : Nat) :
    layout.Grows (layout.enclose outer) :=
  ⟨List.prefix_append _ _, Nat.le_refl _⟩

theorem Store.Fits.entered (fits : store.Fits layout) {f : Closure} (home : f.scope.Fits layout) :
    (f.entered store).Fits (layout.enclose f.scope.frame) := by
  refine ⟨?_, home.mono (layout.grows_enclose _)⟩
  have last := List.getElem?_concat_length (l := layout.outer) (a := some f.scope.frame)
  rwa [fits.frames] at last

theorem Store.Fits.enclose (fits : store.Fits layout) (outer : Scope) :
    (store.enclose outer).2.Fits (layout.enclose outer.frame) := by
  refine ⟨?_, fits.functions, fun frame name v member => ?_⟩
  · simp [Layout.enclose, fits.frames]
  · rw [Store.bindings_enclose] at member
    exact (fits.bindings _ _ _ member).mono (layout.grows_enclose _)

/-- The layout with one more function. -/
def Layout.capture (layout : Layout) : Layout :=
  { layout with functions := layout.functions + 1 }

theorem Layout.grows_capture (layout : Layout) : layout.Grows layout.capture :=
  ⟨List.prefix_refl _, Nat.le_succ _⟩

theorem Store.Fits.newClosure (fits : store.Fits layout) (home : scope.Fits layout)
    (params : List String) (body : Block) :
    (store.newClosure params body scope).1.Fits layout.capture ∧
      (store.newClosure params body scope).2.Fits layout.capture := by
  have grows := layout.grows_capture
  refine ⟨⟨home.mono grows, Nat.lt_succ_of_le (Nat.le_of_eq fits.functions.symm)⟩, fits.frames,
    congrArg (· + 1) fits.functions, fun frame name v member => ?_⟩
  exact (fits.bindings frame name v member).mono grows

end

/-! ### Evaluation -/

/-- One and the same evaluation, whose stores follow a layout. -/
def fitting : Simulation Layout where
  Grows := Layout.Grows
  Functions layout f g := f = g ∧ f.Fits layout
  Scopes layout c d := c = d ∧ c.Fits layout
  Stores layout store image := store = image ∧ store.Fits layout
  Permits _ _ := True
  refl := .refl
  trans := .trans
  functions_mono grows := And.imp_right (.mono grows)
  scopes_mono grows := And.imp_right (.mono grows)
  separates := by
    rintro layout f _ f' _ ⟨rfl, -⟩ ⟨rfl, -⟩
    rfl
  params := by
    rintro layout f _ ⟨rfl, -⟩
    rfl
  body := by
    rintro layout f _ ⟨rfl, -⟩
    rfl
  lookup := by
    rintro layout store _ c _ name ⟨rfl, fits⟩ ⟨rfl, -⟩ -
    cases found : store.lookup name c with
    | none => exact .none
    | some v => exact .some (fits.lookup found).related
  bind := by
    rintro layout store _ c _ name v v' ⟨rfl, fits⟩ ⟨rfl, -⟩ - values
    obtain rfl := values.eq_of fun _ _ => And.left
    exact ⟨rfl, fits.bind c name (.of_related values)⟩
  capture := by
    rintro layout store _ c _ params body ⟨rfl, fits⟩ ⟨rfl, home⟩ -
    obtain ⟨closure, after⟩ := fits.newClosure home params body
    exact ⟨layout.capture, layout.grows_capture, ⟨rfl, closure⟩, rfl, after⟩
  enter := by
    rintro layout store _ f _ ⟨rfl, fits⟩ ⟨rfl, inside⟩
    refine ⟨⟨layout.enclose f.scope.frame, layout.grows_enclose _, ⟨rfl, ?_⟩, rfl, ?_⟩,
      fun _ _ => trivial, fun _ _ => trivial⟩
    · exact fits.entered inside.scope
    · exact fits.enclose f.scope

/-- From a store of this layout the computation comes to one of a grown layout, and to what `post`
says of that. -/
def GrowsTo {α : Type} (layout : Layout) (post : Layout → α → Prop) (m : Eval α) : Prop :=
  ∀ store a store', store.Fits layout → m store = some (a, store') →
    ∃ layout', layout.Grows layout' ∧ store'.Fits layout' ∧ post layout' a

theorem growsTo_of_holds {layout : Layout} {m : Eval Value}
    (h : fitting.Holds layout fitting.Values m m) : GrowsTo layout Value.Fits m := by
  intro store v store' fits ended
  obtain ⟨_, _, _, layout', grows, ⟨-, after⟩, values⟩ := h.ended ⟨rfl, fits⟩ ended
  exact ⟨layout', grows, after, .of_related values⟩

section

variable {layout : Layout} {scope : Scope}

theorem evalTree_growsTo (home : scope.Fits layout) (depth : Nat) {kind : Kind} (tree : kind.Tree) :
    GrowsTo layout Value.Fits (evalTree (callWithin depth) scope tree) :=
  growsTo_of_holds (Simulation.evalTree_holds depth tree ⟨rfl, home⟩ fun _ _ => trivial)

theorem Program.eval_growsTo (depth : Nat) (home : scope.Fits layout) (program : Program) :
    GrowsTo layout Value.Fits (program.eval depth scope) :=
  growsTo_of_holds (Simulation.program_holds depth program ⟨rfl, home⟩ fun _ _ => trivial)

theorem applyValue_growsTo (depth : Nat) {callee : Value} {args : List Value}
    (fits : callee.Fits layout) (fitArgs : ∀ v ∈ args, v.Fits layout) :
    GrowsTo layout Value.Fits (applyValue (callWithin depth) callee args) :=
  growsTo_of_holds (Simulation.applyValue_holds (Simulation.callWithin_holds depth) fits.related
    (List.forall₂_same.2 fun v member => (fitArgs v member).related))

end

end MonkeyLanguage
