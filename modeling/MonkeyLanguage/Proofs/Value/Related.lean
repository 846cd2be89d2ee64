import Mathlib.Data.List.Forall2
import MonkeyLanguage.Value.Equality
import MonkeyLanguage.Value.Printer

/-!
# Corresponding values

Two values correspond when they differ in their functions only, and corresponding functions stand
in the same places. Such values look the same when corresponding functions do, and are equal to each
other alike when different functions correspond to different ones.
-/

namespace MonkeyLanguage

/-! ### Induction on values -/

-- Elements and entries have motives of their own, which say the same of each value in them.
/-- Induction on values, whose elements and entries come with the hypothesis. -/
@[elab_as_elim]
theorem Value.ind {motive : Value → Prop} (v : Value) (integer : ∀ n, motive (.integer n))
    (string : ∀ s, motive (.string s)) (boolean : ∀ b, motive (.boolean b)) (null : motive .null)
    (array : ∀ vs, (∀ v ∈ vs, motive v) → motive (.array vs))
    (hash : ∀ entries, (∀ entry ∈ entries, motive entry.2) → motive (.hash entries))
    (function : ∀ f, motive (.function f)) (builtin : ∀ b, motive (.builtin b))
    (returning : ∀ v, motive v → motive (.returning v))
    (error : ∀ message, motive (.error message)) : motive v :=
  @Value.rec motive (fun vs => ∀ v ∈ vs, motive v)
    (fun entries => ∀ entry ∈ entries, motive entry.2) (fun entry => motive entry.2)
    integer string boolean null array hash function builtin returning error (by simp)
    (fun _ _ first rest => List.forall_mem_cons.2 ⟨first, rest⟩) (by simp)
    (fun _ _ first rest => List.forall_mem_cons.2 ⟨first, rest⟩) (fun _ _ inside => inside) v

/-! ### Functions in values -/

mutual

/-- The functions that a value contains, at any depth. -/
def Value.closures : Value → List Closure
  | .array elements => Value.closuresIn elements
  | .hash entries => Value.closuresUnder entries
  | .function f => [f]
  | .returning v => v.closures
  | .integer _ | .string _ | .boolean _ | .null | .builtin _ | .error _ => []

def Value.closuresIn : List Value → List Closure
  | [] => []
  | v :: vs => v.closures ++ Value.closuresIn vs

def Value.closuresUnder : List (HashKey × Value) → List Closure
  | [] => []
  | (_, v) :: entries => v.closures ++ Value.closuresUnder entries

end

/-- All functions in the value satisfy `p`. -/
def Value.All (p : Closure → Prop) (v : Value) : Prop := ∀ f ∈ v.closures, p f

namespace Value

variable {p q : Closure → Prop} {v : Value}

theorem All.mono (weaker : ∀ f, p f → q f) (h : v.All p) : v.All q :=
  fun f member => weaker f (h f member)

theorem all_of_closures (none : v.closures = []) : v.All p := by
  simp [All, none]

theorem all_array_cons {vs : List Value} :
    (array (v :: vs)).All p ↔ v.All p ∧ (array vs).All p := by
  simp [All, closures, closuresIn, or_imp, forall_and]

theorem all_hash_cons {key : HashKey} {entries : List (HashKey × Value)} :
    (hash ((key, v) :: entries)).All p ↔ v.All p ∧ (hash entries).All p := by
  simp [All, closures, closuresUnder, or_imp, forall_and]

theorem all_array {vs : List Value} : (array vs).All p ↔ ∀ v ∈ vs, v.All p := by
  induction vs with
  | nil => simp [All, closures, closuresIn]
  | cons v vs ih => rw [all_array_cons, ih, List.forall_mem_cons]

theorem all_hash {entries : List (HashKey × Value)} :
    (hash entries).All p ↔ ∀ entry ∈ entries, entry.2.All p := by
  induction entries with
  | nil => simp [All, closures, closuresUnder]
  | cons entry entries ih => rw [all_hash_cons, ih, List.forall_mem_cons]

theorem all_key (key : HashKey) : key.value.All p := by
  cases key <;> exact all_of_closures rfl

theorem All.hash_set {entries : List (HashKey × Value)} (h : (hash entries).All p) (key : HashKey)
    (new : v.All p) : (hash (Table.set key v entries)).All p := by
  refine all_hash.2 fun ⟨other, w⟩ member => ?_
  rcases Table.mem_set member with ⟨-, rfl⟩ | member
  · exact new
  · exact all_hash.1 h _ member

theorem all_function {f : Closure} : (function f).All p ↔ p f := by
  simp [All, closures]

theorem all_returning : (returning v).All p ↔ v.All p := Iff.rfl

end Value

/-! ### Tables -/

/-- The same keys in the same order, with corresponding values. -/
inductive Table.Related {κ α β : Type} (R : α → β → Prop) : List (κ × α) → List (κ × β) → Prop where
  | nil : Related R [] []
  | cons {key : κ} {a : α} {b : β} {table : List (κ × α)} {image : List (κ × β)} (first : R a b)
    (rest : Related R table image) : Related R ((key, a) :: table) ((key, b) :: image)

namespace Table.Related

variable {κ α β : Type} {R : α → β → Prop} {table : List (κ × α)} {image : List (κ × β)}

theorem length_eq (h : Related R table image) : table.length = image.length := by
  induction h with
  | nil => rfl
  | cons _ _ ih => simp [ih]

theorem mono {S : α → β → Prop} (weaker : ∀ a b, R a b → S a b) (h : Related R table image) :
    Related S table image := by
  induction h with
  | nil => exact .nil
  | cons first _ ih => exact .cons (weaker _ _ first) ih

theorem self {R : α → α → Prop} {table : List (κ × α)}
    (h : ∀ key a, (key, a) ∈ table → R a a) : Related R table table := by
  induction table with
  | nil => exact .nil
  | cons entry table ih =>
    obtain ⟨key, a⟩ := entry
    exact .cons (h key a (by simp)) (ih fun other b member => h other b (by simp [member]))

theorem eq {table image : List (κ × α)} (h : Related (· = ·) table image) : table = image := by
  induction h with
  | nil => rfl
  | cons first _ ih => rw [first, ih]

variable [DecidableEq κ]

theorem get? (h : Related R table image) (key : κ) :
    Option.Rel R (Table.get? key table) (Table.get? key image) := by
  induction h with
  | nil => exact .none
  | cons first _ ih =>
    simp only [Table.get?]
    split
    · exact .some first
    · exact ih

theorem set (h : Related R table image) (key : κ) {a : α} {b : β} (new : R a b) :
    Related R (Table.set key a table) (Table.set key b image) := by
  induction h with
  | nil => exact .cons new .nil
  | cons first rest ih =>
    simp only [Table.set]
    split
    · exact .cons new rest
    · exact .cons first ih

end Table.Related

/-! ### Values -/

inductive Value.Related (R : Closure → Closure → Prop) : Value → Value → Prop where
  | integer (n : Int64) : Related R (.integer n) (.integer n)
  | string (s : String) : Related R (.string s) (.string s)
  | boolean (b : Bool) : Related R (.boolean b) (.boolean b)
  | null : Related R .null .null
  | array {vs ws : List Value} : List.Forall₂ (Related R) vs ws → Related R (.array vs) (.array ws)
  | hash {table image : List (HashKey × Value)} : Table.Related (Related R) table image →
    Related R (.hash table) (.hash image)
  | function {f g : Closure} : R f g → Related R (.function f) (.function g)
  | builtin (b : Builtin) : Related R (.builtin b) (.builtin b)
  | returning {v w : Value} : Related R v w → Related R (.returning v) (.returning w)
  | error (message : String) : Related R (.error message) (.error message)

/-- Functions that correspond are one and the same on one side when they are on the other. -/
def Closure.Separates (R : Closure → Closure → Prop) : Prop :=
  ∀ f g f' g', R f g → R f' g' → (g = g' ↔ f = f')

namespace Value.Related

variable {R S : Closure → Closure → Prop} {v w : Value}

-- Elements and entries stand in relations of their own, so the recursor has three motives. Two of
-- them follow from the one for values.
/-- Induction on corresponding values, whose elements and entries come with the hypothesis. -/
@[elab_as_elim]
theorem ind {motive : Value → Value → Prop} (h : v.Related R w)
    (integer : ∀ n, motive (.integer n) (.integer n))
    (string : ∀ s, motive (.string s) (.string s))
    (boolean : ∀ b, motive (.boolean b) (.boolean b))
    (null : motive .null .null)
    (array : ∀ vs ws, List.Forall₂ motive vs ws → motive (.array vs) (.array ws))
    (hash : ∀ table image, Table.Related motive table image → motive (.hash table) (.hash image))
    (function : ∀ f g, R f g → motive (.function f) (.function g))
    (builtin : ∀ b, motive (.builtin b) (.builtin b))
    (returning : ∀ v w, motive v w → motive (.returning v) (.returning w))
    (error : ∀ message, motive (.error message) (.error message)) : motive v w :=
  @Value.Related.rec R (fun v w _ => motive v w) (fun vs ws _ => List.Forall₂ motive vs ws)
    (fun table image _ => Table.Related motive table image)
    integer string boolean null (fun _ => array _ _) (fun _ => hash _ _) (function _ _) builtin
    (fun _ => returning _ _) error .nil (fun _ _ => .cons) .nil (fun _ _ => .cons) _ _ h

theorem mono (weaker : ∀ f g, R f g → S f g) (h : v.Related R w) : v.Related S w :=
  h.ind .integer .string .boolean .null (fun _ _ => .array) (fun _ _ => .hash)
    (fun f g inside => .function (weaker f g inside)) .builtin (fun _ _ => .returning) .error

theorem eq_of (same : ∀ f g, R f g → f = g) (h : v.Related R w) : v = w := by
  refine h.ind (motive := (· = ·)) (fun _ => rfl) (fun _ => rfl) (fun _ => rfl) rfl ?array ?hash
    (fun f g inside => congrArg _ (same f g inside)) (fun _ => rfl) (fun _ _ => congrArg _)
    (fun _ => rfl)
  case array =>
    intro vs ws elements
    rw [List.forall₂_eq_eq_eq] at elements
    rw [elements]
  case hash =>
    intro table image entries
    rw [entries.eq]

theorem all {p : Closure → Prop} (weaker : ∀ f g, R f g → p f) (h : v.Related R w) : v.All p := by
  have plain {v : Value} (none : v.closures = []) : v.All p := all_of_closures none
  refine h.ind (motive := fun v _ => v.All p) (fun _ => plain rfl) (fun _ => plain rfl)
    (fun _ => plain rfl) (plain rfl) ?array ?hash
    (fun f g inside => all_function.2 (weaker f g inside)) (fun _ => plain rfl) (fun _ _ => id)
    (fun _ => plain rfl)
  case array =>
    intro vs ws elements
    induction elements with
    | nil => exact plain rfl
    | cons first _ ih => exact all_array_cons.2 ⟨first, ih⟩
  case hash =>
    intro table image entries
    induction entries with
    | nil => exact plain rfl
    | cons first _ ih => exact all_hash_cons.2 ⟨first, ih⟩

end Value.Related

/-- A value corresponds to itself when all its functions do. -/
theorem Value.All.related {R : Closure → Closure → Prop} {v : Value}
    (h : v.All fun f => R f f) : v.Related R v := by
  induction v using Value.ind with
  | integer n => exact .integer n
  | string s => exact .string s
  | boolean b => exact .boolean b
  | null => exact .null
  | array vs ih =>
    exact .array (List.forall₂_same.2 fun w member => ih w member (Value.all_array.1 h w member))
  | hash table ih =>
    exact .hash (.self fun key w member => ih _ member (Value.all_hash.1 h _ member))
  | function f =>
    have held : R f f := h f (by simp [Value.closures])
    exact .function held
  | builtin b => exact .builtin b
  | returning v ih => exact .returning (ih (Value.all_returning.1 h))
  | error message => exact .error message

theorem Value.All.self {p : Closure → Prop} {v : Value} (h : v.All p) :
    v.Related (fun f g => f = g ∧ p f) v :=
  Value.All.related fun f member => ⟨rfl, h f member⟩

/-! ### Displays -/

theorem Value.array_display_eq {vs ws : List Value}
    (elements : List.Forall₂ (fun v w => v.display = w.display) vs ws) :
    (array vs).display = (array ws).display := by
  have texts : displayAll vs = displayAll ws := by
    induction elements with
    | nil => rfl
    | cons first _ ih => rw [displayAll, displayAll, first, ih]
  rw [display, display, texts]

theorem Value.hash_display_eq {table image : List (HashKey × Value)}
    (values : Table.Related (fun v w : Value => v.display = w.display) table image) :
    (hash table).display = (hash image).display := by
  have texts : entryTexts table = entryTexts image := by
    induction values with
    | nil => rfl
    | cons first _ ih => rw [entryTexts, entryTexts, first, ih]
  rw [display, display, texts]

/-! ### What corresponding values have in common -/

namespace Value.Related

variable {R S : Closure → Closure → Prop} {v w : Value}

theorem type_eq (h : v.Related R w) : w.type = v.type := by
  cases h <;> rfl

theorem isTruthy_eq (h : v.Related R w) : w.isTruthy = v.isTruthy := by
  cases h <;> rfl

theorem isSignal_eq (h : v.Related R w) : w.isSignal = v.isSignal := by
  cases h <;> rfl

theorem hashKey?_eq (h : v.Related R w) : w.hashKey? = v.hashKey? := by
  cases h <;> rfl

theorem arrived (h : v.Related R w) : v.arrived.Related R w.arrived := by
  cases h with
  | returning h => exact h
  | integer n => exact .integer n
  | string s => exact .string s
  | boolean b => exact .boolean b
  | null => exact .null
  | array h => exact .array h
  | hash h => exact .hash h
  | function h => exact .function h
  | builtin b => exact .builtin b
  | error message => exact .error message

/-- All functions of a value have a property when they correspond to themselves through it. -/
theorem all_of_self {p : Closure → Prop} (h : v.Related (fun f g => f = g ∧ p f) w) : v.All p :=
  h.all fun _ _ => And.right

theorem display_eq (code : ∀ f g, R f g → g.display = f.display) (h : v.Related R w) :
    w.display = v.display := by
  refine h.ind (motive := fun v w => v.display = w.display) (fun _ => rfl) (fun _ => rfl)
    (fun _ => rfl) rfl (fun _ _ => array_display_eq) (fun _ _ => hash_display_eq) ?function
    (fun _ => rfl) ?returning (fun _ => rfl) |>.symm
  case function =>
    intro f g inside
    rw [Value.display, Value.display, code f g inside]
  case returning =>
    intro v w ih
    rw [Value.display, Value.display, ih]

theorem same_eq (separates : Closure.Separates R) {v' w' : Value} (h : v.Related R w)
    (h' : v'.Related R w') : w.same w' = v.same v' := by
  refine h.ind (motive := fun v w => ∀ v' w', v'.Related R w' → w.same w' = v.same v')
    ?integer ?string ?boolean ?null ?array ?hash ?function ?builtin ?returning ?error _ _ h'
  case integer | string | boolean | builtin | error =>
    intro _ v' w' h'
    cases h' <;> rfl
  case null =>
    intro v' w' h'
    cases h' <;> rfl
  case array =>
    intro vs ws elements v' w' h'
    cases h' with
    | @array vs' ws' elements' =>
      rw [Value.same, Value.same]
      induction elements generalizing vs' ws' with
      | nil => cases elements' <;> rfl
      | cons first _ ih =>
        cases elements' with
        | nil => rfl
        | cons first' rest' => rw [Value.sameAll, Value.sameAll, first _ _ first', ih rest']
    | _ => rfl
  case hash =>
    intro table image entries v' w' h'
    cases h' with
    | @hash table' image' entries' =>
      have inside : Value.sameEntries image image' = Value.sameEntries table table' := by
        clear h
        induction entries with
        | nil => rfl
        | @cons key _ _ _ _ first _ ih =>
          have found := entries'.get? key
          rw [Value.sameEntries, Value.sameEntries, ih]
          generalize Table.get? key table' = a, Table.get? key image' = b at found ⊢
          cases found with
          | none => rfl
          | some partner => simp only [first _ _ partner]
      rw [Value.same, Value.same, inside, entries.length_eq, entries'.length_eq]
    | _ => rfl
  case function =>
    intro f g inside v' w' h'
    cases h' with
    | function inside' =>
      rw [Value.same, Value.same, Bool.eq_iff_iff, beq_iff_eq, beq_iff_eq]
      exact separates _ _ _ _ inside inside'
    | _ => rfl
  case returning =>
    intro v w ih v' w' h'
    cases h' with
    | returning inside' => rw [Value.same, Value.same, ih _ _ inside']
    | _ => rfl

end Value.Related

end MonkeyLanguage
