import Mathlib.Logic.Relation
import MonkeyLanguage.Proofs.Eval.Run

/-!
# Signals never become data

A scope is clean when no signal can be reached from it: through bindings, elements of arrays,
entries of hashes and the scopes that functions captured. Evaluation keeps a clean scope clean, and
what a program yields is clean as well, or it is an error.

The scopes of a store refer to each other and to themselves, so cleanness is shown by a region: a
set of frames whose bindings lead to frames of the region only.
-/

namespace MonkeyLanguage

/-! ### What can be reached -/

/-- Where one can stand on the way through a store. -/
inductive Place where
  | scope (scope : Scope)
  | value (v : Value)

/-- One step through a store. -/
inductive Store.Leads (store : Store) : Place → Place → Prop where
  | binding {scope : Scope} {name : String} {v : Value} :
    Table.get? name (store.bindings scope.frame) = some v → Leads store (.scope scope) (.value v)
  | outer {scope outer : Scope} : scope.outer? = some outer →
    Leads store (.scope scope) (.scope outer)
  | element {elements : List Value} {v : Value} : v ∈ elements →
    Leads store (.value (.array elements)) (.value v)
  | key {entries : List (HashKey × Value)} {key : HashKey} {v : Value} : (key, v) ∈ entries →
    Leads store (.value (.hash entries)) (.value key.value)
  | entry {entries : List (HashKey × Value)} {key : HashKey} {v : Value} : (key, v) ∈ entries →
    Leads store (.value (.hash entries)) (.value v)
  | captured {f : Closure} : Leads store (.value (.function f)) (.scope f.scope)
  | payload {v : Value} : Leads store (.value (.returning v)) (.value v)

def Store.Reaches (store : Store) : Place → Place → Prop :=
  Relation.ReflTransGen store.Leads

/-- Every entry is found under the hash key of its key object. By `Value.hashKey?_eq_some_iff` a key
has no other key object, so entries do without one. `Expr.hash_keeps_key_objects` says the same of
the objects that a literal evaluates. -/
def Value.Filed : Value → Prop
  | .hash entries => ∀ key v, (key, v) ∈ entries →
    ∃ filed, key.value.hashKey? = some filed ∧ Table.get? filed entries = some v
  | _ => True

/-- No signal can be reached, and every hash that can be reached is in order. -/
def Store.Clean (store : Store) (place : Place) : Prop :=
  ∀ v, store.Reaches place (.value v) → v.isSignal = false ∧ v.Filed

/-! ### Regions -/

def Scope.Within (region : Nat → Prop) : Scope → Prop
  | root frame => region frame
  | enclosed frame outer => region frame ∧ outer.Within region

theorem Scope.Within.frame {region : Nat → Prop} {scope : Scope} (h : scope.Within region) :
    region scope.frame := by
  cases scope with
  | root frame => exact h
  | enclosed frame outer => exact h.1

/-- A value without signals in it, all of whose functions are at home in the region. -/
inductive Value.Tidy (region : Nat → Prop) : Value → Prop where
  | integer (n : Int64) : Tidy region (.integer n)
  | string (s : String) : Tidy region (.string s)
  | boolean (b : Bool) : Tidy region (.boolean b)
  | null : Tidy region .null
  | builtin (b : Builtin) : Tidy region (.builtin b)
  | array {elements : List Value} : (∀ v ∈ elements, Tidy region v) → Tidy region (.array elements)
  | hash {entries : List (HashKey × Value)} : (Value.hash entries).Filed →
    (∀ key v, (key, v) ∈ entries → Tidy region v) → Tidy region (.hash entries)
  | function {f : Closure} : f.scope.Within region → Tidy region (.function f)

/-- What an evaluation may come to: a tidy value, also on its way back, or an error. -/
def Value.Contained (region : Nat → Prop) (v : Value) : Prop :=
  v.Tidy region ∨ (∃ w, v = .returning w ∧ w.Tidy region) ∨ ∃ message, v = .error message

/-- The frames of the region hold tidy values, and those that are still to come belong to it. -/
structure Store.Safe (region : Nat → Prop) (store : Store) : Prop where
  tidy : ∀ frame name v, region frame → Table.get? name (store.bindings frame) = some v →
    v.Tidy region
  fresh : ∀ frame, store.frames.size ≤ frame → region frame

section

variable {region : Nat → Prop} {store : Store}

theorem Value.Tidy.isSignal_eq {v : Value} (tidy : v.Tidy region) : v.isSignal = false := by
  cases tidy <;> rfl

theorem Value.Tidy.filed {v : Value} (tidy : v.Tidy region) : v.Filed := by
  cases tidy with
  | hash filed _ => exact filed
  | _ => trivial

theorem Value.tidy_key (key : HashKey) : key.value.Tidy region := by
  cases key with
  | integer n => exact .integer n
  | string s => exact .string s
  | boolean b => exact .boolean b

def Place.Within (region : Nat → Prop) : Place → Prop
  | .scope s => s.Within region
  | .value v => v.Tidy region

/-- No step leads out of the region. -/
theorem Store.Safe.step (safe : store.Safe region) {p q : Place} (within : p.Within region)
    (leads : store.Leads p q) : q.Within region := by
  cases leads with
  | @binding scope name v found =>
    have home : scope.Within region := within
    exact safe.tidy _ _ _ home.frame found
  | @outer scope outer found =>
    cases scope with
    | root frame => simp [Scope.outer?] at found
    | enclosed frame inside =>
      obtain rfl := Option.some.inj found
      exact within.2
  | element member =>
    cases within with
    | array tidy => exact tidy _ member
  | key member => exact Value.tidy_key _
  | entry member =>
    cases within with
    | hash filed tidy => exact tidy _ _ member
  | captured =>
    cases within with
    | function home => exact home
  | payload => cases within

theorem Store.Safe.within_of_reaches (safe : store.Safe region) {p q : Place}
    (within : p.Within region) (reached : store.Reaches p q) : q.Within region := by
  induction reached with
  | refl => exact within
  | tail _ leads ih => exact safe.step ih leads

theorem Store.Safe.clean (safe : store.Safe region) {place : Place}
    (within : place.Within region) : store.Clean place := by
  intro v reached
  have tidy : v.Tidy region := safe.within_of_reaches within reached
  exact ⟨tidy.isSignal_eq, tidy.filed⟩

end

/-! ### The region of a clean scope -/

section

variable {store : Store} {place : Place}

/-- The frames that can be reached from a place, and those that are still to come. -/
def Store.region (store : Store) (place : Place) (frame : Nat) : Prop :=
  (∃ scope : Scope, store.Reaches place (.scope scope) ∧ scope.frame = frame) ∨
    store.frames.size ≤ frame

theorem Scope.within_region (scope : Scope) (reached : store.Reaches place (.scope scope)) :
    scope.Within (store.region place) := by
  induction scope with
  | root frame => exact Or.inl ⟨_, reached, rfl⟩
  | enclosed frame outer ih => exact ⟨Or.inl ⟨_, reached, rfl⟩, ih (reached.tail (.outer rfl))⟩

theorem Store.Clean.tidy (clean : store.Clean place) (v : Value)
    (reached : store.Reaches place (.value v)) : v.Tidy (store.region place) := by
  match v with
  | .integer n => exact .integer n
  | .string s => exact .string s
  | .boolean b => exact .boolean b
  | .null => exact .null
  | .builtin b => exact .builtin b
  | .array elements =>
    exact .array fun w member => clean.tidy w (reached.tail (.element member))
  | .hash entries =>
    exact .hash (clean _ reached).2 fun key w member => clean.tidy w (reached.tail (.entry member))
  | .function f => exact .function (f.scope.within_region (reached.tail .captured))
  | .returning _ | .error _ => exact absurd (clean _ reached).1 (by simp [Value.isSignal])
termination_by sizeOf v
decreasing_by
  · have smaller := List.sizeOf_lt_of_mem member
    simp only [Value.array.sizeOf_spec]
    omega
  · have smaller := List.sizeOf_lt_of_mem member
    simp only [Value.hash.sizeOf_spec, Prod.mk.sizeOf_spec] at smaller ⊢
    omega

theorem Store.Clean.safe (clean : store.Clean place) : store.Safe (store.region place) := by
  refine ⟨?_, fun frame beyond => Or.inr beyond⟩
  rintro frame name v (⟨scope, reached, rfl⟩ | beyond) found
  · exact clean.tidy v (reached.tail (.binding found))
  · simp [Store.bindings_of_size_le beyond] at found

end

/-! ### Operations on the store -/

section

variable {region : Nat → Prop} {store : Store} {scope : Scope}

theorem Store.Safe.bind (safe : store.Safe region) (name : String) {v : Value}
    (tidy : v.Tidy region) : (store.bind scope name v).Safe region := by
  refine ⟨?_, ?_⟩
  · intro frame other w home found
    rcases Store.get?_bindings_bind found with rfl | found
    · exact tidy
    · exact safe.tidy frame other w home found
  · intro frame beyond
    exact safe.fresh frame (by simpa using beyond)

theorem Store.Safe.bindAll (safe : store.Safe region) (params : List String) {args : List Value}
    (tidy : ∀ v ∈ args, v.Tidy region) : (store.bindAll scope params args).Safe region := by
  induction params generalizing args store with
  | nil => simpa [Store.bindAll] using safe
  | cons name params ih =>
    cases args with
    | nil => simpa [Store.bindAll] using safe
    | cons v args =>
      rw [Store.bindAll]
      exact ih (safe.bind name (tidy v (by simp))) fun w member => tidy w (by simp [member])

theorem Store.Safe.enclose (safe : store.Safe region) (outer : Scope) :
    (store.enclose outer).2.Safe region := by
  refine ⟨?_, ?_⟩
  · intro frame name v home found
    rw [Store.bindings_enclose] at found
    exact safe.tidy frame name v home found
  · intro frame beyond
    rw [Store.size_enclose] at beyond
    exact safe.fresh frame (by omega)

theorem Store.Safe.entered (safe : store.Safe region) {f : Closure} (home : f.scope.Within region) :
    (f.entered store).Within region :=
  ⟨safe.fresh _ (Nat.le_refl _), home⟩

theorem Store.Safe.lookup (safe : store.Safe region) {name : String} {v : Value}
    (home : scope.Within region) (found : store.lookup name scope = some v) : v.Tidy region := by
  induction scope with
  | root frame => exact safe.tidy _ _ _ home found
  | enclosed frame outer ih =>
    simp only [Store.lookup] at found
    split at found
    · rename_i w bound
      obtain rfl := Option.some.inj found
      exact safe.tidy _ _ _ home.1 bound
    · exact ih home.2 found

end

/-! ### Operations on values -/

section

variable {region : Nat → Prop}

theorem Value.contained_fault (fault : Fault) : fault.value.Contained region :=
  Or.inr (Or.inr ⟨fault.message, rfl⟩)

theorem Value.Tidy.contained {v : Value} (tidy : v.Tidy region) : v.Contained region := Or.inl tidy

theorem Value.Contained.tidy {v : Value} (contained : v.Contained region)
    (value : v.isSignal = false) : v.Tidy region := by
  rcases contained with tidy | ⟨w, rfl, -⟩ | ⟨message, rfl⟩
  · exact tidy
  · simp [Value.isSignal] at value
  · simp [Value.isSignal] at value

/-- Nothing arrives that would be on its way back once more. -/
theorem Value.Contained.arrived {v : Value} (contained : v.Contained region) :
    v.arrived.Tidy region ∨ ∃ message, v.arrived = .error message := by
  rcases contained with tidy | ⟨w, rfl, tidy⟩ | ⟨message, rfl⟩
  · rw [Value.arrived_of_value tidy.isSignal_eq]
    exact Or.inl tidy
  · exact Or.inl tidy
  · exact Or.inr ⟨message, rfl⟩

theorem UnaryOp.apply_contained (op : UnaryOp) (v : Value) : (op.apply v).Contained region := by
  unfold UnaryOp.apply
  split
  · exact Or.inl (.boolean _)
  · exact Or.inl (.integer _)
  · exact Value.contained_fault _

theorem BinaryOp.onIntegers_contained (op : BinaryOp) (a b : Int64) :
    (op.onIntegers a b).Contained region := by
  unfold BinaryOp.onIntegers
  cases op with
  | plus | minus | multiply => exact Or.inl (.integer _)
  | divide =>
    by_cases zero : b = 0
    · simp only [if_pos zero]
      exact Value.contained_fault _
    · simp only [if_neg zero]
      exact Or.inl (.integer _)
  | lessThan | greaterThan | equal | notEqual => exact Or.inl (.boolean _)

theorem BinaryOp.onStrings_contained (op : BinaryOp) (a b : String) :
    (op.onStrings a b).Contained region := by
  unfold BinaryOp.onStrings
  cases op with
  | plus => exact Or.inl (.string _)
  | lessThan | greaterThan | equal | notEqual => exact Or.inl (.boolean _)
  | minus | multiply | divide => exact Value.contained_fault _

theorem BinaryOp.apply_contained (op : BinaryOp) (a b : Value) :
    (op.apply a b).Contained region := by
  unfold BinaryOp.apply
  split
  · exact op.onIntegers_contained _ _
  · exact op.onStrings_contained _ _
  · split
    · exact Or.inl (.boolean _)
    · exact Or.inl (.boolean _)
    · split
      · exact Value.contained_fault _
      · exact Value.contained_fault _

theorem Value.contained_getD {found : Option Value} (tidy : ∀ v, found = some v → v.Tidy region)
    (fault : Fault) : (found.getD fault.value).Contained region := by
  cases found with
  | none => exact Value.contained_fault fault
  | some v => exact (tidy v rfl).contained

theorem Value.at_contained {left : Value} (tidy : left.Tidy region) (position : Value) :
    (left.at position).Contained region := by
  unfold Value.at
  split
  · cases tidy with
    | array tidy =>
      refine Value.contained_getD (fun v found => ?_) _
      split at found
      · exact tidy v (List.mem_of_getElem? found)
      · simp at found
  · cases tidy with
    | hash filed tidy =>
      unfold entryAt
      split
      · exact Value.contained_fault _
      · exact Value.contained_getD (fun v found => tidy _ v (Table.mem_of_get? found)) _
  · exact Value.contained_fault _

theorem Builtin.onArray_contained {builtin : Builtin} {v : Value} (tidy : v.Tidy region)
    {f : List Value → Value}
    (h : ∀ elements : List Value, (∀ w ∈ elements, w.Tidy region) → (f elements).Tidy region) :
    (onArray builtin v f).Contained region := by
  cases tidy with
  | array tidy => exact (h _ tidy).contained
  | _ => exact Value.contained_fault _

theorem Builtin.apply_contained (builtin : Builtin) {args : List Value}
    (tidy : ∀ v ∈ args, v.Tidy region) : (builtin.apply args).Contained region := by
  unfold Builtin.apply
  split
  · rename_i v
    unfold Builtin.length
    split
    · exact Or.inl (.integer _)
    · exact Or.inl (.integer _)
    · exact Value.contained_fault _
  · rename_i v
    refine onArray_contained (tidy v (by simp)) fun elements tidy => ?_
    cases elements with
    | nil => exact .null
    | cons w rest => exact tidy w (by simp)
  · rename_i v
    refine onArray_contained (tidy v (by simp)) fun elements tidy => ?_
    cases found : elements.getLast? with
    | none => exact .null
    | some w => exact tidy w (List.mem_of_getLast? found)
  · rename_i v
    refine onArray_contained (tidy v (by simp)) fun elements tidy => ?_
    cases elements with
    | nil => exact .null
    | cons w rest => exact .array fun u member => tidy u (by simp [member])
  · rename_i v extra
    refine onArray_contained (tidy v (by simp)) fun elements tidy' => .array fun u member => ?_
    rcases List.mem_append.1 member with old | new
    · exact tidy' u old
    · obtain rfl := List.mem_singleton.1 new
      exact tidy u (by simp)
  · exact Value.contained_fault _

end

/-! ### Evaluation -/

/-- From a safe store the computation comes to a safe one, and to what `post` says. -/
def Keeps {α : Type} (region : Nat → Prop) (post : α → Prop) (m : Eval α) : Prop :=
  ∀ store a store', store.Safe region → m store = some (a, store') →
    store'.Safe region ∧ post a

section

variable {region : Nat → Prop} {α β : Type}

theorem Keeps.pure {post : α → Prop} {a : α} (h : post a) :
    Keeps region post (Pure.pure a : Eval α) := by
  intro store b store' safe ended
  obtain ⟨rfl, rfl⟩ := pure_eq_some.1 ended
  exact ⟨safe, h⟩

theorem Keeps.bind {post : α → Prop} {post' : β → Prop} {m : Eval α} {f : α → Eval β}
    (first : Keeps region post m) (next : ∀ a, post a → Keeps region post' (f a)) :
    Keeps region post' (m >>= f) := by
  intro store b store' safe ended
  obtain ⟨a, middle, ended, rest⟩ := bind_eq_some.1 ended
  obtain ⟨safe, met⟩ := first _ _ _ safe ended
  exact next a met _ _ _ safe rest

theorem Keeps.onValue {first : Eval Value} {next : Value → Eval Value}
    (h : Keeps region (Value.Contained region) first)
    (rest : ∀ v : Value, v.Tidy region → Keeps region (Value.Contained region) (next v)) :
    Keeps region (Value.Contained region) (onValue first next) := by
  refine h.bind fun v contained => ?_
  split
  · exact .pure contained
  · rename_i value
    exact rest v (contained.tidy (by simpa using value))

/-- The values of a list of expressions, or the signal that stopped them. -/
def AllContained (region : Nat → Prop) : Except Value (List Value) → Prop
  | .ok values => ∀ v ∈ values, v.Tidy region
  | .error signal => signal.Contained region

theorem lookupName_keeps {scope : Scope} (home : scope.Within region) (name : String) :
    Keeps region (Value.Contained region) (lookupName scope name) := by
  intro store v store' safe ended
  unfold lookupName at ended
  split at ended
  · rename_i w found
    obtain ⟨rfl, rfl⟩ := Prod.mk.inj (Option.some.inj ended)
    exact ⟨safe, (safe.lookup home found).contained⟩
  · split at ended
    · obtain ⟨rfl, rfl⟩ := Prod.mk.inj (Option.some.inj ended)
      exact ⟨safe, Or.inl (.builtin _)⟩
    · obtain ⟨rfl, rfl⟩ := Prod.mk.inj (Option.some.inj ended)
      exact ⟨safe, Value.contained_fault _⟩

theorem newFunction_keeps {scope : Scope} (home : scope.Within region) (params : List String)
    (body : Block) : Keeps region (Value.Contained region) (newFunction scope params body) := by
  intro store v store' safe ended
  obtain ⟨rfl, rfl⟩ := Prod.mk.inj (Option.some.inj ended)
  exact ⟨⟨safe.tidy, safe.fresh⟩, Or.inl (.function home)⟩

theorem bindName_keeps {v : Value} (tidy : v.Tidy region) (scope : Scope) (name : String) :
    Keeps region (Value.Contained region) (bindName scope name v) := by
  intro store w store' safe ended
  obtain ⟨rfl, rfl⟩ := Prod.mk.inj (Option.some.inj ended)
  exact ⟨safe.bind name tidy, tidy.contained⟩

/-- Calls of functions that are at home in the region keep to it. -/
def CallKeeps (region : Nat → Prop) (call : Call) : Prop :=
  ∀ f args, f.scope.Within region → (∀ v ∈ args, v.Tidy region) →
    Keeps region (Value.Contained region) (call f args)

theorem applyValue_keeps {call : Call} (h : CallKeeps region call) {callee : Value}
    {args : List Value} (tidy : callee.Tidy region) (tidyArgs : ∀ v ∈ args, v.Tidy region) :
    Keeps region (Value.Contained region) (applyValue call callee args) := by
  cases tidy with
  | function home =>
    simp only [applyValue]
    split
    · exact h _ _ home tidyArgs
    · exact .pure (Value.contained_fault _)
  | builtin b => exact .pure (b.apply_contained tidyArgs)
  | _ => exact .pure (Value.contained_fault _)

end

section

set_option linter.unusedSectionVars false

variable {region : Nat → Prop} {call : Call} (h : CallKeeps region call) {scope : Scope}
  (home : scope.Within region)
include h home

mutual

theorem Expr.eval_keeps (e : Expr) : Keeps region (Value.Contained region) (e.eval call scope) := by
  match e with
  | .identifier name => exact lookupName_keeps home name
  | .integer n => exact .pure (Or.inl (.integer n))
  | .string s => exact .pure (Or.inl (.string s))
  | .boolean b => exact .pure (Or.inl (.boolean b))
  | .function params body => exact newFunction_keeps home params body
  | .array elements =>
    simp only [Expr.eval]
    refine (Expr.evalAll_keeps elements).bind fun result contained => ?_
    cases result with
    | ok values => exact .pure (Or.inl (.array contained))
    | error signal => exact .pure contained
  | .hash pairs =>
    simp only [Expr.eval]
    exact Expr.evalPairs_keeps pairs (by simp [Table.keys]) (by simp)
  | .unary op operand =>
    simp only [Expr.eval]
    exact operand.eval_keeps.onValue fun v _ => .pure (op.apply_contained v)
  | .binary op left right =>
    simp only [Expr.eval]
    exact left.eval_keeps.onValue fun a _ => right.eval_keeps.onValue fun b _ =>
      .pure (op.apply_contained a b)
  | .index left position =>
    simp only [Expr.eval]
    exact left.eval_keeps.onValue fun v tidy => position.eval_keeps.onValue fun p _ =>
      .pure (Value.at_contained tidy p)
  | .conditional condition consequence alternative =>
    simp only [Expr.eval_conditional]
    refine condition.eval_keeps.onValue fun v _ => ?_
    split
    · exact Stmt.evalAll_keeps consequence (Or.inl .null)
    · exact Stmt.evalElse_keeps alternative
  | .call callee args =>
    simp only [Expr.eval]
    refine callee.eval_keeps.onValue fun f tidy => ?_
    refine (Expr.evalAll_keeps args).bind fun result contained => ?_
    cases result with
    | ok values => exact applyValue_keeps h tidy contained
    | error signal => exact .pure contained

theorem Expr.evalAll_keeps (es : List Expr) :
    Keeps region (AllContained region) (Expr.evalAll call scope es) := by
  match es with
  | [] => exact .pure (by simp [AllContained])
  | e :: es =>
    simp only [Expr.evalAll]
    refine e.eval_keeps.bind fun v contained => ?_
    split
    · exact .pure contained
    · rename_i value
      refine (Expr.evalAll_keeps es).bind fun result contained' => ?_
      cases result with
      | ok values =>
        refine .pure fun w member => ?_
        rcases List.mem_cons.1 member with rfl | member
        · exact contained.tidy (by simpa using value)
        · exact contained' w member
      | error signal => exact .pure contained'

theorem Expr.evalPairs_keeps {entries : List (HashKey × Value)} (pairs : List (Expr × Expr))
    (nodup : (Table.keys entries).Nodup) (tidy : ∀ key v, (key, v) ∈ entries → v.Tidy region) :
    Keeps region (Value.Contained region) (Expr.evalPairs call scope entries pairs) := by
  match pairs with
  | [] =>
    refine .pure (Or.inl (.hash (fun key v member => ?_) tidy))
    exact ⟨key, key.hashKey?_value, Table.get?_of_mem nodup member⟩
  | (k, e) :: pairs =>
    simp only [Expr.evalPairs]
    refine k.eval_keeps.onValue fun keyValue _ => ?_
    split
    · exact .pure (Value.contained_fault _)
    · rename_i key hashable
      refine e.eval_keeps.onValue fun v tidyValue => ?_
      refine Expr.evalPairs_keeps pairs (Table.nodup_keys_set nodup) fun other w member => ?_
      rcases Table.mem_set member with ⟨-, rfl⟩ | member
      · exact tidyValue
      · exact tidy other w member

theorem Stmt.eval_keeps (s : Stmt) : Keeps region (Value.Contained region) (s.eval call scope) := by
  match s with
  | .bind name value =>
    simp only [Stmt.eval]
    exact value.eval_keeps.onValue fun v tidy => bindName_keeps tidy scope name
  | .ret value =>
    simp only [Stmt.eval]
    exact value.eval_keeps.onValue fun v tidy => .pure (Or.inr (Or.inl ⟨v, rfl, tidy⟩))
  | .expression value =>
    simp only [Stmt.eval]
    exact value.eval_keeps
  | .block body =>
    simp only [Stmt.eval]
    exact Stmt.evalAll_keeps body (Or.inl .null)

theorem Stmt.evalAll_keeps {last : Value} (body : List Stmt) (contained : last.Contained region) :
    Keeps region (Value.Contained region) (Stmt.evalAll call scope last body) := by
  match body with
  | [] => exact .pure contained
  | s :: rest =>
    simp only [Stmt.evalAll]
    exact s.eval_keeps.onValue fun v tidy => Stmt.evalAll_keeps rest tidy.contained

theorem Stmt.evalElse_keeps (alternative : Option (List Stmt)) :
    Keeps region (Value.Contained region) (Stmt.evalElse call scope alternative) := by
  match alternative with
  | none => exact .pure (Or.inl .null)
  | some body => exact Stmt.evalAll_keeps body (Or.inl .null)

end

end

theorem callWithin_keeps {region : Nat → Prop} (depth : Nat) :
    CallKeeps region (callWithin depth) := by
  induction depth with
  | zero => exact fun f args _ _ store v store' _ ended => nomatch ended
  | succ depth ih =>
    intro f args home tidy store v store' safe ended
    obtain ⟨u, inside, rfl⟩ := callWithin_succ_eq_some.1 ended
    have opened : (f.opened args store).Safe region := (safe.enclose f.scope).bindAll f.params tidy
    obtain ⟨safe', contained⟩ := Stmt.evalAll_keeps ih (safe.entered home) f.body
      (Or.inl .null) _ _ _ opened inside
    refine ⟨safe', ?_⟩
    rcases contained.arrived with tidy | ⟨message, same⟩
    · exact tidy.contained
    · exact Or.inr (Or.inr ⟨message, same⟩)

/-- Whatever a program does, signals never become data: its scope is as clean as before, and what it
yields is clean, or an error by itself. -/
theorem eval_keeps_clean {depth : Nat} {scope : Scope} {program : Program} {store store' : Store}
    {v : Value} (clean : store.Clean (.scope scope))
    (ended : program.eval depth scope store = some (v, store')) :
    store'.Clean (.scope scope) ∧
      (store'.Clean (.value v) ∨ ∃ message, v = .error message) := by
  have home : scope.Within (store.region (.scope scope)) := scope.within_region .refl
  rw [Program.eval, bind_eq_some] at ended
  obtain ⟨u, middle, ended, last⟩ := ended
  obtain ⟨rfl, rfl⟩ := pure_eq_some.1 last
  obtain ⟨safe, contained⟩ := Stmt.evalAll_keeps (callWithin_keeps depth) home program
    (Or.inl .null) _ _ _ clean.safe ended
  refine ⟨safe.clean home, ?_⟩
  rcases contained.arrived with tidy | error
  · exact Or.inl (safe.clean tidy)
  · exact Or.inr error

/-- `fn(x) { return [x]; }`, bound to `f` in the very scope that it captured. -/
def wrapping : Closure := ⟨0, ["x"], [.ret (.array [.identifier "x"])], .root 0⟩

def wrappingStore : Store := ⟨#[[("f", .function wrapping)]], 1⟩

theorem wrappingStore_safe : wrappingStore.Safe fun _ => True := by
  refine ⟨fun frame name v _ found => ?_, fun _ _ => trivial⟩
  cases frame with
  | zero =>
    have bound : (name, v) ∈ [("f", Value.function wrapping)] := Table.mem_of_get? found
    obtain ⟨-, rfl⟩ := Prod.mk.inj (List.mem_singleton.1 bound)
    exact .function trivial
  | succ frame => simp [wrappingStore, Store.bindings] at found

/-- `let g = f({1: f});` -/
def wrappingProgram : Program :=
  [.bind "g" (.call (.identifier "f") [.hash [(.integer 1, .identifier "f")]])]

theorem eval_keeps_clean_wrapping :
    wrappingStore.Clean (.scope (.root 0)) ∧
      ∃ v store', wrappingProgram.eval 1 (.root 0) wrappingStore = some (v, store') ∧
        store'.lookup "g" (.root 0) = some v ∧ store'.Clean (.scope (.root 0)) ∧
        (store'.Clean (.value v) ∨ ∃ message, v = .error message) := by
  have clean : wrappingStore.Clean (.scope (.root 0)) := wrappingStore_safe.clean trivial
  have ended : wrappingProgram.eval 1 (.root 0) wrappingStore =
      some (.array [.hash [(.integer 1, .function wrapping)]], _) := rfl
  exact ⟨clean, _, _, ended, rfl, eval_keeps_clean clean ended⟩

end MonkeyLanguage
