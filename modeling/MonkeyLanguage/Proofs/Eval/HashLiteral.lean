import Mathlib.Data.List.Nodup
import MonkeyLanguage.Proofs.Eval.Rules
import MonkeyLanguage.Proofs.Value.Same

/-!
# What a hash literal means

The pairs of a literal are inserted in source order, so of the pairs with equal keys the last one
counts. Entries are filed under the hash keys of their key objects, and two key objects are equal
when these are.

An entry does without its key object. `Expr.hash_keeps_key_objects` says that nothing is lost: where
the objects are kept, each one is the object that the key of its entry stands for.
-/

namespace MonkeyLanguage

/-- The keys and values of a literal are evaluated in source order, and none of them is a signal. -/
inductive Expr.PairsYield (call : Call) (scope : Scope) :
    List (Expr × Expr) → Store → List (Value × Value) → Store → Prop where
  | nil {store : Store} : PairsYield call scope [] store [] store
  | cons {k e : Expr} {rest : List (Expr × Expr)} {key v : Value} {values : List (Value × Value)}
    {store middle after store' : Store} :
    k.eval call scope store = some (key, middle) → key.isSignal = false →
    e.eval call scope middle = some (v, after) → v.isSignal = false →
    PairsYield call scope rest after values store' →
    PairsYield call scope ((k, e) :: rest) store ((key, v) :: values) store'

/-- Of the pairs with a key equal to `k` this one is the last. -/
def LastEqual (pairs : List (Value × Value)) (k : Value) (pair : Value × Value) : Prop :=
  ∃ before after, pairs = before ++ pair :: after ∧ pair.1.same k = true ∧
    ∀ later ∈ after, later.1.same k = false

/-! ### Keys as values -/

theorem HashKey.same_iff {key : HashKey} {v : Value} :
    key.value.same v = true ↔ v = key.value := by
  have simple : key.value.isSimple = true := by cases key <;> rfl
  rw [Value.same_iff_eq simple, eq_comm]

theorem HashKey.value_inj {key other : HashKey} : key.value = other.value ↔ key = other := by
  constructor
  · intro same
    have keys := congrArg Value.hashKey? same
    simpa using keys
  · exact congrArg _

/-- The pair that an entry was made from. -/
def asPair (entry : HashKey × Value) : Value × Value := (entry.1.value, entry.2)

theorem exists_entries {pairs : List (Value × Value)}
    (hashable : ∀ pair ∈ pairs, pair.1.hashKey?.isSome) :
    ∃ entries : List (HashKey × Value), pairs = entries.map asPair := by
  induction pairs with
  | nil => exact ⟨[], rfl⟩
  | cons pair pairs ih =>
    obtain ⟨first, others⟩ := List.forall_mem_cons.1 hashable
    obtain ⟨key, found⟩ := Option.isSome_iff_exists.1 first
    obtain ⟨entries, rfl⟩ := ih others
    refine ⟨(key, pair.2) :: entries, ?_⟩
    rw [List.map_cons, asPair, ← Value.hashKey?_eq_some_iff.1 found]

/-- A key is new when it is equal to no key object. -/
theorem not_mem_keys_iff {entries : List (HashKey × Value)} {key : HashKey} :
    key ∉ Table.keys entries ↔ ∀ pair ∈ entries.map asPair, pair.1.same key.value = false := by
  constructor
  · intro new pair member
    obtain ⟨entry, listed, rfl⟩ := List.mem_map.1 member
    rw [Bool.eq_false_iff, ne_eq, asPair, HashKey.same_iff, HashKey.value_inj]
    rintro rfl
    exact new (List.mem_map_of_mem listed)
  · intro apart member
    obtain ⟨entry, listed, rfl⟩ := List.mem_map.1 member
    have other := apart _ (List.mem_map_of_mem listed)
    simp [asPair, HashKey.same_iff.2] at other

/-- The last pair with a key is what the key is mapped to. -/
theorem lastEqual_iff {entries : List (HashKey × Value)} {key : HashKey} {pair : Value × Value} :
    LastEqual (entries.map asPair) key.value pair ↔
      pair.1 = key.value ∧ Table.get? key (Table.filled entries) = some pair.2 := by
  obtain ⟨u, v⟩ := pair
  rw [Table.get?_filled_eq_some_iff]
  constructor
  · rintro ⟨before, after, split, same, last⟩
    obtain ⟨first, rest, rfl, rfl, split'⟩ := List.map_eq_append_iff.1 split
    obtain ⟨⟨other, w⟩, others, rfl, pair, rfl⟩ := List.map_eq_cons_iff.1 split'
    obtain ⟨rfl, rfl⟩ := Prod.mk.inj pair
    obtain rfl := HashKey.value_inj.1 (HashKey.same_iff.1 same)
    exact ⟨rfl, first, others, rfl, not_mem_keys_iff.2 last⟩
  · rintro ⟨rfl, before, after, rfl, last⟩
    refine ⟨before.map asPair, after.map asPair, ?_, HashKey.same_iff.2 rfl,
      not_mem_keys_iff.1 last⟩
    rw [List.map_append, List.map_cons, asPair]

theorem countP_same_of_mem {entries : List (HashKey × Value)} {key : HashKey}
    (nodup : (Table.keys entries).Nodup) (member : key ∈ Table.keys entries) :
    entries.countP (fun entry => entry.1.value.same key.value) = 1 := by
  have once : (Table.keys entries).count key = 1 := List.count_eq_one_of_mem nodup member
  rw [Table.keys, List.count, List.countP_map] at once
  rw [← once]
  apply List.countP_congr
  intro entry _
  simp only [Function.comp_apply, beq_iff_eq, HashKey.same_iff, HashKey.value_inj]
  exact eq_comm

/-! ### Evaluation -/

section

variable {call : Call} {scope : Scope} {store store' : Store} {pairs : List (Expr × Expr)}

theorem Expr.PairsYield.evalPairs {entries : List (HashKey × Value)}
    (yields : PairsYield call scope pairs store (entries.map asPair) store')
    (before : List (HashKey × Value)) :
    Expr.evalPairs call scope before pairs store =
      some (.hash (entries.foldl (fun table entry => Table.set entry.1 entry.2 table) before),
        store') := by
  induction entries generalizing pairs store before with
  | nil =>
    cases yields
    rfl
  | cons entry entries ih =>
    cases yields with
    | cons key keyValue value valueValue rest =>
      rw [Expr.evalPairs, onValue_of_value key keyValue, HashKey.hashKey?_value]
      exact (onValue_of_value value valueValue _).trans (ih rest _)

theorem Expr.PairsYield.eval {entries : List (HashKey × Value)}
    (yields : PairsYield call scope pairs store (entries.map asPair) store') :
    (Expr.hash pairs).eval call scope store = some (.hash (Table.filled entries), store') := by
  rw [Expr.eval]
  exact yields.evalPairs []

end

/-! ### Key objects -/

/-- A table that keeps the key object of every entry beside its value. -/
abbrev Kept := List (HashKey × Value × Value)

def Kept.withoutObjects (kept : Kept) : List (HashKey × Value) :=
  kept.map fun entry => (entry.1, entry.2.2)

/-- Every entry is filed under the hash key of its key object, and is the only one there. -/
structure Kept.Filed (kept : Kept) : Prop where
  hashed : ∀ key object v, (key, object, v) ∈ kept → object.hashKey? = some key
  nodup : (Table.keys kept).Nodup

/-- What the walk over a hash literal may come to. -/
def Kept.FiledOrSignal : Except Value Kept → Prop
  | .ok kept => kept.Filed
  | .error signal => signal.isSignal = true

/-- Adds the pairs of a hash literal, each with the object that its key evaluates to. A signal ends
the walk, and so does an object that cannot be a key. -/
def Expr.evalKept (call : Call) (scope : Scope) (kept : Kept) :
    List (Expr × Expr) → Eval (Except Value Kept)
  | [] => pure (.ok kept)
  | (k, e) :: pairs => do
    let object ← k.eval call scope
    if object.isSignal then pure (.error object)
    else
      match object.hashKey? with
      | none => pure (.error (Fault.unhashable object.type).value)
      | some key => do
        let v ← e.eval call scope
        if v.isSignal then pure (.error v)
        else Expr.evalKept call scope (Table.set key (object, v) kept) pairs

theorem Kept.Filed.set {kept : Kept} {key : HashKey} {object : Value} (filed : kept.Filed)
    (hashed : object.hashKey? = some key) (v : Value) :
    Kept.Filed (Table.set key (object, v) kept) := by
  refine ⟨fun other object' w member => ?_, Table.nodup_keys_set filed.nodup⟩
  rcases Table.mem_set member with ⟨rfl, same⟩ | member
  · obtain ⟨rfl, -⟩ := Prod.mk.inj same
    exact hashed
  · exact filed.hashed _ _ _ member

section

variable {call : Call} {scope : Scope} {store store' : Store}

/-- To forget the key objects at the end is to have kept none. -/
theorem Expr.evalPairs_withoutObjects (kept : Kept) (pairs : List (Expr × Expr)) :
    Expr.evalPairs call scope kept.withoutObjects pairs = (do
      match ← Expr.evalKept call scope kept pairs with
      | .ok kept => pure (.hash kept.withoutObjects)
      | .error signal => pure signal) := by
  induction pairs generalizing kept with
  | nil => rfl
  | cons pair pairs ih =>
    obtain ⟨k, e⟩ := pair
    rw [Expr.evalPairs, Expr.evalKept, onValue, bind_assoc]
    congr 1
    funext object
    split
    · rfl
    · cases object.hashKey? with
      | none => rfl
      | some key =>
        simp only [onValue, bind_assoc]
        congr 1
        funext v
        split
        · rfl
        · have forgotten := Table.map_set Prod.snd key (object, v) kept
          rw [← ih]
          exact congrArg (Expr.evalPairs call scope · pairs) forgotten.symm

/-- Filed entries stay filed, and only a signal ends the walk early. -/
theorem Expr.evalKept_filed {kept : Kept} {pairs : List (Expr × Expr)} {result : Except Value Kept}
    (filed : kept.Filed)
    (ended : Expr.evalKept call scope kept pairs store = some (result, store')) :
    Kept.FiledOrSignal result := by
  induction pairs generalizing kept store with
  | nil =>
    obtain ⟨rfl, -⟩ := pure_eq_some.1 ended
    exact filed
  | cons pair pairs ih =>
    obtain ⟨k, e⟩ := pair
    obtain ⟨object, middle, -, ended⟩ := bind_eq_some.1 ended
    split at ended
    · rename_i signal
      obtain ⟨rfl, -⟩ := pure_eq_some.1 ended
      exact signal
    · cases hashed : object.hashKey? with
      | none =>
        simp only [hashed] at ended
        obtain ⟨rfl, -⟩ := pure_eq_some.1 ended
        rfl
      | some key =>
        simp only [hashed] at ended
        obtain ⟨v, after, -, ended⟩ := bind_eq_some.1 ended
        split at ended
        · rename_i signal
          obtain ⟨rfl, -⟩ := pure_eq_some.1 ended
          exact signal
        · exact ih (filed.set hashed v) ended

/-- Behind the entries that a hash literal comes to there are the key objects that were evaluated.
Each entry is filed under the hash key of its key object, is found under it, and its key stands for
that very object. -/
theorem Expr.hash_keeps_key_objects {pairs : List (Expr × Expr)} {entries : List (HashKey × Value)}
    (ended : (Expr.hash pairs).eval call scope store = some (.hash entries, store')) :
    ∃ kept : Kept, Expr.evalKept call scope [] pairs store = some (.ok kept, store') ∧
      entries = kept.withoutObjects ∧
      ∀ key object v, (key, object, v) ∈ kept → object.hashKey? = some key ∧
        object = key.value ∧ Table.get? key kept = some (object, v) := by
  have start : Kept.Filed [] := ⟨fun _ _ _ => List.not_mem_nil.elim, List.nodup_nil⟩
  rw [Expr.eval] at ended
  obtain ⟨result, last, walked, ended⟩ :=
    bind_eq_some.1 ((Expr.evalPairs_withoutObjects [] pairs ▸ ended :))
  have filed := Expr.evalKept_filed start walked
  cases result with
  | error signal =>
    obtain ⟨rfl, -⟩ := pure_eq_some.1 ended
    cases filed
  | ok kept =>
    obtain ⟨same, rfl⟩ := pure_eq_some.1 ended
    refine ⟨kept, walked, Value.hash.inj same, fun key object v member => ?_⟩
    have hashed := filed.hashed key object v member
    exact ⟨hashed, Value.hashKey?_eq_some_iff.1 hashed, Table.get?_of_mem filed.nodup member⟩

end

/-! ### What a literal means -/

/-- A hash literal means its last entries. Indexing it gives the value of the last pair whose key is
equal to the index, and an error where there is none or where the index cannot be a key. There is
one entry for each class of equal keys, with the key and the value that come last. -/
theorem hash_literal_keeps_last {call : Call} {scope : Scope} {store store' : Store}
    {pairs : List (Expr × Expr)} {values : List (Value × Value)}
    (yields : Expr.PairsYield call scope pairs store values store')
    (hashable : ∀ pair ∈ values, pair.1.hashKey?.isSome) :
    ∃ entries, (Expr.hash pairs).eval call scope store = some (.hash entries, store') ∧
      (∀ position k store'', position.eval call scope store' = some (k, store'') →
        k.isSignal = false → (Expr.index (.hash pairs) position).eval call scope store =
          some ((Value.hash entries).at k, store'')) ∧
      (∀ k pair, LastEqual values k pair → (Value.hash entries).at k = pair.2) ∧
      (∀ k : Value, k.hashKey?.isSome → (∀ pair ∈ values, pair.1.same k = false) →
        (Value.hash entries).at k = .error ("key not found: " ++ k.display)) ∧
      (∀ k : Value, k.hashKey? = none →
        (Value.hash entries).at k = .error ("unusable as hash key: " ++ k.type.name)) ∧
      (∀ pair ∈ values, entries.countP (fun entry => entry.1.value.same pair.1) = 1) ∧
      ∀ entry ∈ entries, LastEqual values entry.1.value (entry.1.value, entry.2) := by
  obtain ⟨entries, rfl⟩ := exists_entries hashable
  have nodup := Table.nodup_keys_filled entries
  refine ⟨Table.filled entries, yields.eval, ?index, ?found, ?missing, ?unusable, ?one, ?last⟩
  case index =>
    intro position k store'' evaluated value
    exact Expr.eval_index yields.eval rfl evaluated value
  case found =>
    rintro k pair ⟨before, after, split, same, last⟩
    have member : pair ∈ entries.map asPair := by simp [split]
    obtain ⟨⟨key, v⟩, -, rfl⟩ := List.mem_map.1 member
    obtain rfl := HashKey.same_iff.1 same
    obtain ⟨-, found⟩ := lastEqual_iff.1 ⟨before, after, split, same, last⟩
    rw [Value.at, entryAt, HashKey.hashKey?_value]
    simp only [found]
    rfl
  case missing =>
    intro k usable none
    obtain ⟨key, hashed⟩ := Option.isSome_iff_exists.1 usable
    obtain rfl := Value.hashKey?_eq_some_iff.1 hashed
    have other := not_mem_keys_iff.2 none
    rw [Value.at, entryAt, hashed]
    simp only [Table.get?_filled_of_not_mem other, HashKey.display_value]
    rfl
  case unusable =>
    intro k unusable
    rw [Value.at, entryAt, unusable]
    rfl
  case one =>
    intro pair member
    obtain ⟨⟨key, v⟩, listed, rfl⟩ := List.mem_map.1 member
    exact countP_same_of_mem nodup (Table.mem_keys_filled.2 (List.mem_map_of_mem listed))
  case last =>
    rintro ⟨key, v⟩ member
    exact lastEqual_iff.2 ⟨rfl, Table.get?_of_mem nodup member⟩

/-- The key `if (true) { let x = 1 }` with "first", the key "1" with `true`, and the key `x` with
"last". The first key binds what the last one reads. -/
def repeating : List (Expr × Expr) :=
  [(.conditional (.boolean true) [.bind "x" (.integer 1)] none, .string "first"),
    (.string "1", .boolean true), (.identifier "x", .string "last")]

theorem hash_literal_keeps_last_repeating :
    ∃ entries, (Expr.hash repeating).eval (callWithin 0) (.root 0) ⟨#[[]], 0⟩ =
        some (.hash entries, ⟨#[[("x", .integer 1)]], 0⟩) ∧
      (Value.hash entries).at (.integer 1) = .string "last" ∧
      (Value.hash entries).at (.string "x") = .error "key not found: x" ∧
      (Value.hash entries).at .null = .error "unusable as hash key: Null" ∧
      entries.countP (fun entry => entry.1.value.same (.integer 1)) = 1 := by
  have yields : Expr.PairsYield (callWithin 0) (.root 0) repeating ⟨#[[]], 0⟩
      [(.integer 1, .string "first"), (.string "1", .boolean true), (.integer 1, .string "last")]
      ⟨#[[("x", .integer 1)]], 0⟩ :=
    .cons rfl rfl rfl rfl (.cons rfl rfl rfl rfl (.cons rfl rfl rfl rfl .nil))
  obtain ⟨entries, evaluates, -, found, missing, unusable, one, -⟩ :=
    hash_literal_keeps_last yields (by decide)
  have last : LastEqual [(.integer 1, .string "first"), (.string "1", .boolean true),
      (.integer 1, .string "last")] (.integer 1) (.integer 1, .string "last") :=
    ⟨[(.integer 1, .string "first"), (.string "1", .boolean true)], [], rfl, rfl, by simp⟩
  exact ⟨entries, evaluates, found _ _ last, missing _ (by decide) (by decide), unusable _ rfl,
    one (.integer 1, .string "first") (by simp)⟩

end MonkeyLanguage
