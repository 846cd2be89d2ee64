import MonkeyLanguage.Proofs.Eval.Layout
import MonkeyLanguage.Proofs.Eval.Untouched

/-!
# Evaluation in shifted stores

Frames and functions are numbered in the order in which they are made. When some that were made in
between are left out, the later ones have other numbers, and a store that has them is the other one
with a gap. The two cannot be told apart: a tree evaluated in both comes to values and stores that
agree up to the same gap, or comes to an end in neither.
-/

namespace MonkeyLanguage

/-! ### Numbers -/

/-- Frames and functions that one store has and another lacks: how many, and from which number
on. -/
structure Gap where
  frame : Nat
  frames : Nat
  function : Nat
  functions : Nat

/-- Numbers from `start` on move up. -/
def moveUp (start count n : Nat) : Nat := if n < start then n else n + count

theorem moveUp_inj {start count m n : Nat} :
    moveUp start count m = moveUp start count n ↔ m = n := by
  unfold moveUp
  split <;> split <;> omega

theorem moveUp_of_lt {start count n : Nat} (below : n < start) : moveUp start count n = n :=
  if_pos below

theorem moveUp_of_le {start count n : Nat} (above : start ≤ n) :
    moveUp start count n = n + count :=
  if_neg (Nat.not_lt.2 above)

theorem moveUp_lt_iff {start count n bound : Nat} (above : start ≤ bound) :
    moveUp start count n < bound + count ↔ n < bound := by
  unfold moveUp
  split <;> omega

def Scope.shift (gap : Gap) : Scope → Scope
  | root frame => root (moveUp gap.frame gap.frames frame)
  | enclosed frame outer => enclosed (moveUp gap.frame gap.frames frame) (outer.shift gap)

def Closure.shift (gap : Gap) (f : Closure) : Closure :=
  { f with
    identity := moveUp gap.function gap.functions f.identity
    scope := f.scope.shift gap }

/-- The second value is the first one with a gap in the numbers of its functions. -/
def Value.Shifted (gap : Gap) : Value → Value → Prop := Value.Related fun f g => g = f.shift gap

/-- The image is the store with a gap in its numbers. What stands in the gap does not matter, since
nothing outside refers to it. -/
structure Store.Shifted (gap : Gap) (store image : Store) : Prop where
  frame_le : gap.frame ≤ store.frames.size
  frames : image.frames.size = store.frames.size + gap.frames
  function_le : gap.function ≤ store.nextIdentity
  functions : image.nextIdentity = store.nextIdentity + gap.functions
  bindings : ∀ frame, Table.Related (Value.Shifted gap) (store.bindings frame)
    (image.bindings (moveUp gap.frame gap.frames frame))

section

variable {gap : Gap}

theorem Scope.shift_inj {s t : Scope} : s.shift gap = t.shift gap ↔ s = t := by
  induction s generalizing t with
  | root frame => cases t <;> simp [shift, moveUp_inj]
  | enclosed frame outer ih => cases t <;> simp [shift, moveUp_inj, ih]

theorem Closure.shift_inj {f g : Closure} : f.shift gap = g.shift gap ↔ f = g := by
  cases f
  cases g
  simp [shift, moveUp_inj, Scope.shift_inj]

@[simp] theorem Scope.frame_shift (s : Scope) :
    (s.shift gap).frame = moveUp gap.frame gap.frames s.frame := by
  cases s <;> rfl

/-! ### Operations on the store -/

variable {store image : Store}

theorem Store.Shifted.lookup (shifted : store.Shifted gap image) (name : String) (scope : Scope) :
    Option.Rel (Value.Shifted gap) (store.lookup name scope)
      (image.lookup name (scope.shift gap)) := by
  induction scope with
  | root frame => exact (shifted.bindings frame).get? name
  | enclosed frame outer ih =>
    have found := (shifted.bindings frame).get? name
    simp only [Scope.shift, Store.lookup]
    generalize Table.get? name (store.bindings frame) = r,
      Table.get? name (image.bindings (moveUp gap.frame gap.frames frame)) = r' at found ⊢
    cases found with
    | none => exact ih
    | some h => exact .some h

theorem Store.Shifted.bind (shifted : store.Shifted gap image) (scope : Scope) (name : String)
    {v v' : Value} (values : v.Shifted gap v') :
    (store.bind scope name v).Shifted gap (image.bind (scope.shift gap) name v') := by
  have inside : (scope.shift gap).frame < image.frames.size ↔ scope.frame < store.frames.size := by
    rw [Scope.frame_shift, shifted.frames, moveUp_lt_iff shifted.frame_le]
  rcases Nat.lt_or_ge scope.frame store.frames.size with home | outside
  · have home' := inside.2 home
    refine ⟨?_, ?_, shifted.function_le, shifted.functions, fun frame => ?_⟩
    · simpa using shifted.frame_le
    · simpa using shifted.frames
    · rw [bindings_bind home, bindings_bind home', Scope.frame_shift]
      by_cases same : frame = scope.frame
      · simpa only [same, if_true] using (shifted.bindings scope.frame).set name values
      · rw [if_neg same, if_neg fun moved => same (moveUp_inj.1 moved)]
        exact shifted.bindings frame
  · rw [Store.bind_of_size_le outside, Store.bind_of_size_le (by omega)]
    exact shifted

theorem Store.Shifted.entered (shifted : store.Shifted gap image) (f : Closure) :
    (f.shift gap).entered image = (f.entered store).shift gap := by
  have moved : image.frames.size = moveUp gap.frame gap.frames store.frames.size := by
    rw [moveUp_of_le shifted.frame_le, shifted.frames]
  simp only [Closure.entered, Store.enclose, Scope.shift, moved, Closure.shift]

theorem Store.Shifted.enclose (shifted : store.Shifted gap image) (outer outer' : Scope) :
    (store.enclose outer).2.Shifted gap (image.enclose outer').2 := by
  refine ⟨?_, ?_, shifted.function_le, shifted.functions, fun frame => ?_⟩
  · have := shifted.frame_le
    simp only [Store.size_enclose]
    omega
  · have := shifted.frames
    simp only [Store.size_enclose]
    omega
  · rw [Store.bindings_enclose, Store.bindings_enclose]
    exact shifted.bindings frame

theorem Store.Shifted.newClosure (shifted : store.Shifted gap image) (scope : Scope)
    (params : List String) (body : Block) :
    (image.newClosure params body (scope.shift gap)).1 =
        (store.newClosure params body scope).1.shift gap ∧
      (store.newClosure params body scope).2.Shifted gap
        (image.newClosure params body (scope.shift gap)).2 := by
  have moved : image.nextIdentity = moveUp gap.function gap.functions store.nextIdentity := by
    rw [moveUp_of_le shifted.function_le, shifted.functions]
  refine ⟨?_, shifted.frame_le, shifted.frames, Nat.le_succ_of_le shifted.function_le, ?_,
    shifted.bindings⟩
  · simp only [Store.newClosure, Closure.shift, moved]
  · have := shifted.functions
    change image.nextIdentity + 1 = store.nextIdentity + 1 + gap.functions
    omega

end

/-! ### Evaluation -/

/-- Evaluation in a store and in its image. -/
def shifting (gap : Gap) : Simulation Unit where
  Grows _ _ := True
  Functions _ f g := g = f.shift gap
  Scopes _ c d := d = c.shift gap
  Stores _ := Store.Shifted gap
  Permits _ _ := True
  refl _ := trivial
  trans _ _ := trivial
  functions_mono _ shifted := shifted
  scopes_mono _ shifted := shifted
  separates := by
    rintro - f _ f' _ rfl rfl
    exact Closure.shift_inj
  params := by
    rintro - f _ rfl
    rfl
  body := by
    rintro - f _ rfl
    rfl
  lookup := by
    rintro - store image c _ name shifted rfl -
    exact shifted.lookup name c
  bind := by
    rintro - store image c _ name v v' shifted rfl - values
    exact shifted.bind c name values
  capture := by
    rintro - store image c _ params body shifted rfl -
    obtain ⟨closure, after⟩ := shifted.newClosure c params body
    exact ⟨(), trivial, closure, after⟩
  enter := by
    rintro - store image f _ shifted rfl
    exact ⟨⟨(), trivial, shifted.entered f, shifted.enclose _ _⟩, fun _ _ => trivial,
      fun _ _ => trivial⟩

theorem Program.eval_shifting (gap : Gap) (depth : Nat) (scope : Scope) (program : Program) :
    (shifting gap).Holds () (shifting gap).Values (program.eval depth scope)
      (program.eval depth (scope.shift gap)) :=
  Simulation.program_holds depth program rfl fun _ _ => trivial

theorem Value.Shifted.display_eq {gap : Gap} {v v' : Value} (shifted : v.Shifted gap v') :
    v'.display = v.display := by
  refine Value.Related.display_eq ?_ shifted
  rintro f _ rfl
  rfl

/-! ### Stores that only grew -/

section

variable {layout : Layout}

theorem Scope.Fits.shift_eq {gap : Gap} {scope : Scope} (fits : scope.Fits layout)
    (below : layout.outer.length ≤ gap.frame) : scope.shift gap = scope := by
  induction scope with
  | root frame =>
    have inside : frame < layout.outer.length := fits.frame_lt
    rw [Scope.shift, moveUp_of_lt (by omega)]
  | enclosed frame outer ih =>
    have inside : frame < layout.outer.length := fits.frame_lt
    rw [Scope.shift, moveUp_of_lt (by omega), ih fits.2]

theorem Closure.Fits.shift_eq {gap : Gap} {f : Closure} (fits : f.Fits layout)
    (frames : layout.outer.length ≤ gap.frame) (functions : layout.functions ≤ gap.function) :
    f.shift gap = f := by
  have earlier := fits.identity
  rw [Closure.shift, fits.scope.shift_eq frames, moveUp_of_lt (by omega)]

/-- What the second store has beyond the first one. -/
def Store.growth (store store' : Store) : Gap :=
  ⟨store.frames.size, store'.frames.size - store.frames.size,
    store.nextIdentity, store'.nextIdentity - store.nextIdentity⟩

/-- A store in which every frame was left alone differs by a gap, since nothing in the old frames
refers to the new ones. -/
theorem Store.Fits.shifted {store store' : Store} {layout' : Layout} (fits : store.Fits layout)
    (fits' : store'.Fits layout') (grows : layout.Grows layout')
    (spared : ∀ frame < store.frames.size, store.Spares frame store') :
    store.Shifted (store.growth store') store' := by
  have frames : store.frames.size ≤ store'.frames.size := by
    rw [← fits.frames, ← fits'.frames]
    exact grows.outer.length_le
  have functions : store.nextIdentity ≤ store'.nextIdentity := by
    rw [← fits.functions, ← fits'.functions]
    exact grows.functions
  refine ⟨Nat.le_refl _, (Nat.add_sub_cancel' frames).symm, Nat.le_refl _,
    (Nat.add_sub_cancel' functions).symm, fun frame => ?_⟩
  change Table.Related _ _
    (store'.bindings (moveUp store.frames.size (store'.frames.size - store.frames.size) frame))
  rcases Nat.lt_or_ge frame store.frames.size with inside | outside
  · rw [moveUp_of_lt inside, (spared frame inside).same]
    refine Table.Related.self fun name v member => Value.All.related fun f held => ?_
    have old : f.Fits layout := fits.bindings frame name v member f held
    exact (old.shift_eq (Nat.le_of_eq fits.frames) (Nat.le_of_eq fits.functions)).symm
  · rw [moveUp_of_le outside, Store.bindings_of_size_le outside,
      Store.bindings_of_size_le (by omega)]
    exact .nil

end

end MonkeyLanguage
