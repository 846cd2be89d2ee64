import MonkeyLanguage.Eval.Operators
import MonkeyLanguage.Proofs.Value.Mapping

/-!
# Equality of values is an equivalence

Values are equal when they are alike in all parts, and hashes when they are the same mapping. So
equality does not tell in which order the entries of hashes were inserted, and values that can be
keys are equal when their keys are.
-/

namespace MonkeyLanguage

namespace Value

/-! ### Values in order -/

/-- No other values are inside. -/
def isSimple : Value → Bool
  | array _ | hash _ | returning _ => false
  | _ => true

/-- Every hash in the value is a mapping: it lists each key once, as insertion leaves it. -/
inductive Keyed : Value → Prop where
  | simple {v : Value} (simple : v.isSimple = true) : Keyed v
  | array {vs : List Value} (elements : ∀ v ∈ vs, Keyed v) : Keyed (.array vs)
  | hash {entries : List (HashKey × Value)} (nodup : (Table.keys entries).Nodup)
    (values : ∀ entry ∈ entries, Keyed entry.2) : Keyed (.hash entries)
  | returning {v : Value} (inside : Keyed v) : Keyed (.returning v)

/-- The second value is built like the first one, but for the order in which the entries of hashes
are inserted, at any depth. -/
inductive Reordered : Value → Value → Prop where
  | refl (v : Value) : Reordered v v
  | array {vs ws : List Value} (elements : List.Forall₂ Reordered vs ws) :
    Reordered (.array vs) (.array ws)
  | hash {entries image order : List (HashKey × Value)} (distinct : (Table.keys entries).Nodup)
    (values : Table.Related Reordered entries image) (permuted : image.Perm order) :
    Reordered (.hash (Table.filled entries)) (.hash (Table.filled order))
  | returning {v w : Value} (inside : Reordered v w) : Reordered (.returning v) (.returning w)

theorem keyed_array {vs : List Value} : (array vs).Keyed ↔ ∀ v ∈ vs, v.Keyed := by
  constructor
  · rintro (simple | elements)
    · cases simple
    · exact elements
  · exact .array

theorem keyed_hash {entries : List (HashKey × Value)} :
    (hash entries).Keyed ↔ (Table.keys entries).Nodup ∧ ∀ entry ∈ entries, entry.2.Keyed := by
  constructor
  · rintro (simple | _ | ⟨nodup, values⟩)
    · cases simple
    · exact ⟨nodup, values⟩
  · rintro ⟨nodup, values⟩
    exact .hash nodup values

theorem keyed_returning {v : Value} : (returning v).Keyed ↔ v.Keyed := by
  constructor
  · rintro (simple | _ | _ | inside)
    · cases simple
    · exact inside
  · exact .returning

/-! ### What is equal to a value -/

theorem same_iff_eq {a b : Value} (simple : a.isSimple = true) : a.same b = true ↔ a = b := by
  cases a <;> cases b <;> simp_all [same, isSimple]

theorem sameAll_iff {vs ws : List Value} :
    sameAll vs ws = true ↔ List.Forall₂ (fun v w => v.same w = true) vs ws := by
  induction vs generalizing ws with
  | nil => cases ws <;> simp [sameAll]
  | cons v vs ih => cases ws <;> simp [sameAll, ih]

theorem sameEntries_iff {table image : List (HashKey × Value)} :
    sameEntries table image = true ↔
      ∀ entry ∈ table, ∃ w, Table.get? entry.1 image = some w ∧ entry.2.same w = true := by
  induction table with
  | nil => simp [sameEntries]
  | cons entry table ih =>
    obtain ⟨key, v⟩ := entry
    rw [sameEntries, Bool.and_eq_true, ih, List.forall_mem_cons]
    cases Table.get? key image <;> simp

theorem array_same_iff {vs : List Value} {b : Value} :
    (array vs).same b = true ↔
      ∃ ws, b = array ws ∧ List.Forall₂ (fun v w => v.same w = true) vs ws := by
  cases b <;> simp [same, sameAll_iff]

theorem returning_same_iff {v b : Value} :
    (returning v).same b = true ↔ ∃ w, b = returning w ∧ v.same w = true := by
  cases b <;> simp [same]

theorem eq_hash_of_same {table : List (HashKey × Value)} {b : Value}
    (same : (hash table).same b = true) : ∃ image, b = hash image := by
  cases b with
  | hash image => exact ⟨image, rfl⟩
  | _ => simp [Value.same] at same

/-- Hashes are equal as mappings, although they are compared by size and in one direction only. -/
theorem hash_same_iff {table image : List (HashKey × Value)} (nodup : (Table.keys table).Nodup)
    (nodup' : (Table.keys image).Nodup) :
    (hash table).same (hash image) = true ↔
      Table.Agree (fun v w => v.same w = true) table image := by
  rw [same, Bool.and_eq_true, beq_iff_eq, sameEntries_iff]
  constructor
  · rintro ⟨length, found⟩
    exact Table.agree_of_found nodup length found
  · intro agree
    exact ⟨agree.length_eq nodup nodup', fun entry member => agree.exists_of_mem nodup member⟩

/-! ### Equivalence -/

section

variable {a b c : Value}

theorem Keyed.same_refl (keyed : a.Keyed) : a.same a = true := by
  induction keyed with
  | simple simple => exact (same_iff_eq simple).2 rfl
  | array _ ih => exact array_same_iff.2 ⟨_, rfl, List.forall₂_same.2 ih⟩
  | hash nodup _ ih =>
    rw [hash_same_iff nodup nodup]
    exact (Table.Related.self fun key v member => ih (key, v) member).agree
  | returning _ ih => exact returning_same_iff.2 ⟨_, rfl, ih⟩

/-- Induction on equal values, whose elements and entries come with the hypothesis. -/
@[elab_as_elim]
theorem Keyed.same_ind {motive : Value → Value → Prop} (keyed : a.Keyed) (keyed' : b.Keyed)
    (same : a.same b = true) (simple : ∀ v, v.isSimple = true → motive v v)
    (array : ∀ vs ws, List.Forall₂ motive vs ws → motive (.array vs) (.array ws))
    (hash : ∀ table image, (Table.keys table).Nodup → (Table.keys image).Nodup →
      Table.Agree motive table image → motive (.hash table) (.hash image))
    (returning : ∀ v w, motive v w → motive (.returning v) (.returning w)) : motive a b := by
  induction keyed generalizing b with
  | simple alone =>
    obtain rfl := (same_iff_eq alone).1 same
    exact simple _ alone
  | array _ ih =>
    obtain ⟨ws, rfl, elements⟩ := array_same_iff.1 same
    obtain ⟨length, each⟩ := List.forall₂_iff_get.1 elements
    refine array _ ws (List.forall₂_iff_get.2 ⟨length, fun i here there => ?_⟩)
    exact ih _ (List.get_mem ..) (keyed_array.1 keyed' _ (List.get_mem ..)) (each i here there)
  | hash nodup _ ih =>
    obtain ⟨image, rfl⟩ := eq_hash_of_same same
    obtain ⟨nodup', inside⟩ := keyed_hash.1 keyed'
    have agree := (hash_same_iff nodup nodup').1 same
    exact hash _ image nodup nodup' (agree.imp fun key v w member member' =>
      ih (key, v) member (inside (key, w) member'))
  | returning _ ih =>
    obtain ⟨w, rfl, inside⟩ := returning_same_iff.1 same
    exact returning _ w (ih (keyed_returning.1 keyed') inside)

theorem Keyed.same_symm (keyed : a.Keyed) (keyed' : b.Keyed) (same : a.same b = true) :
    b.same a = true := by
  refine keyed.same_ind (motive := fun a b => b.same a = true) keyed' same
    (fun _ simple => (same_iff_eq simple).2 rfl) ?array ?hash ?returning
  case array =>
    intro vs ws elements
    exact array_same_iff.2 ⟨vs, rfl, elements.flip⟩
  case hash =>
    intro table image nodup nodup' agree
    exact (hash_same_iff nodup' nodup).2 agree.flip
  case returning =>
    intro v w inside
    exact returning_same_iff.2 ⟨v, rfl, inside⟩

theorem Keyed.same_trans (keyed : a.Keyed) (keyed' : b.Keyed) (keyed'' : c.Keyed)
    (first : a.same b = true) (second : b.same c = true) : a.same c = true := by
  refine keyed.same_ind (motive := fun a b => ∀ c : Value, c.Keyed → b.same c = true →
    a.same c = true) keyed' first (fun _ _ _ _ => id) ?array ?hash ?returning c keyed'' second
  case array =>
    intro vs ws elements c keyed second
    obtain ⟨us, rfl, elements'⟩ := array_same_iff.1 second
    obtain ⟨length, each⟩ := List.forall₂_iff_get.1 elements
    obtain ⟨length', each'⟩ := List.forall₂_iff_get.1 elements'
    refine array_same_iff.2 ⟨us, rfl, List.forall₂_iff_get.2
      ⟨length.trans length', fun i here last => ?_⟩⟩
    have there : i < ws.length := length ▸ here
    exact each i here there _ (keyed_array.1 keyed _ (List.get_mem ..)) (each' i there last)
  case hash =>
    intro table image nodup nodup' agree c keyed second
    obtain ⟨last, rfl⟩ := eq_hash_of_same second
    obtain ⟨nodup'', inside⟩ := keyed_hash.1 keyed
    have agree' := (hash_same_iff nodup' nodup'').1 second
    exact (hash_same_iff nodup nodup'').2 (agree.trans agree' fun key u v w _ _ member through =>
      through w (inside (key, w) member))
  case returning =>
    intro v w through c keyed second
    obtain ⟨u, rfl, inside⟩ := returning_same_iff.1 second
    exact returning_same_iff.2 ⟨u, rfl, through u (keyed_returning.1 keyed) inside⟩

end

/-! ### Order of insertion -/

-- Elements and entries have motives of their own, which follow from the one for values.
/-- Induction on reordered values, whose elements and entries come with the hypothesis. -/
@[elab_as_elim]
theorem Reordered.ind {motive : Value → Value → Prop} {v w : Value} (h : v.Reordered w)
    (refl : ∀ v, motive v v)
    (array : ∀ vs ws, List.Forall₂ motive vs ws → motive (.array vs) (.array ws))
    (hash : ∀ entries image order, (Table.keys entries).Nodup →
      Table.Related motive entries image → image.Perm order →
      motive (.hash (Table.filled entries)) (.hash (Table.filled order)))
    (returning : ∀ v w, motive v w → motive (.returning v) (.returning w)) : motive v w :=
  @Reordered.rec (fun v w _ => motive v w) (fun vs ws _ => List.Forall₂ motive vs ws)
    (fun table image _ => Table.Related motive table image)
    refl (fun _ => array _ _) (fun distinct _ permuted ih => hash _ _ _ distinct ih permuted)
    (fun _ => returning _ _) .nil (fun _ _ => .cons) .nil (fun _ _ => .cons) _ _ h

/-- Another order of insertion makes an equal value. -/
theorem Keyed.reordered {v w : Value} (keyed : v.Keyed) (h : v.Reordered w) :
    w.Keyed ∧ v.same w = true := by
  refine h.ind (motive := fun v w => v.Keyed → w.Keyed ∧ v.same w = true) ?refl ?array ?hash
    ?returning keyed
  case refl =>
    intro v keyed
    exact ⟨keyed, keyed.same_refl⟩
  case array =>
    intro vs ws elements keyed
    have both := (List.forall₂_and_left _ _).2 ⟨keyed_array.1 keyed, elements⟩
    have each := both.imp fun v w ⟨inside, preserved⟩ => preserved inside
    have keyed' : List.Forall₂ (fun w v => w.Keyed ∧ v.same w = true) ws vs := each.flip
    exact ⟨.array ((List.forall₂_and_left _ _).1 keyed').1,
      array_same_iff.2 ⟨ws, rfl, each.imp fun _ _ => And.right⟩⟩
  case hash =>
    intro entries image order nodup values permuted keyed
    rw [Table.filled_of_nodup nodup] at keyed ⊢
    have nodup' : (Table.keys image).Nodup := values.keys_eq ▸ nodup
    have nodup'' := Table.nodup_keys_of_perm permuted nodup'
    rw [Table.filled_of_nodup nodup'']
    have agree := values.agree.of_perm nodup' permuted
    have inside := (keyed_hash.1 keyed).2
    refine ⟨keyed_hash.2 ⟨nodup'', fun ⟨key, w⟩ member => ?_⟩, (hash_same_iff nodup nodup'').2 ?_⟩
    · obtain ⟨v, found, preserved⟩ := agree.flip.exists_of_mem nodup'' member
      exact (preserved (inside _ (Table.mem_of_get? found))).1
    · exact agree.imp fun key v w member _ preserved => (preserved (inside _ member)).2
  case returning =>
    intro v w preserved keyed
    obtain ⟨keyed', same⟩ := preserved (keyed_returning.1 keyed)
    exact ⟨.returning keyed', returning_same_iff.2 ⟨w, rfl, same⟩⟩

/-! ### Keys -/

theorem hashKey?_eq_iff_same {a b : Value} (hashable : a.hashKey?.isSome)
    (hashable' : b.hashKey?.isSome) : a.hashKey? = b.hashKey? ↔ a.same b = true := by
  obtain ⟨key, found⟩ := Option.isSome_iff_exists.1 hashable
  obtain ⟨key', found'⟩ := Option.isSome_iff_exists.1 hashable'
  obtain rfl := hashKey?_eq_some_iff.1 found
  obtain rfl := hashKey?_eq_some_iff.1 found'
  have simple : key.value.isSimple = true := by cases key <;> rfl
  rw [same_iff_eq simple]
  constructor
  · intro keys
    rw [found, found'] at keys
    rw [Option.some.inj keys]
  · exact congrArg hashKey?

/-! ### Operators -/

theorem equal_apply (l r : Value) : BinaryOp.apply .equal l r = .boolean (l.same r) := by
  unfold BinaryOp.apply
  split <;> simp [BinaryOp.onIntegers, BinaryOp.onStrings, same]

theorem notEqual_apply (l r : Value) : BinaryOp.apply .notEqual l r = .boolean !l.same r := by
  unfold BinaryOp.apply
  split <;> simp [BinaryOp.onIntegers, BinaryOp.onStrings, same, bne]

/-! ### Equality, keys and operators -/

/-- Equality is an equivalence that does not see the order of insertion. Keys of values are the same
when the values are equal, and the operators on values of any type test just this equality. -/
theorem equality_respected :
    (Equivalence fun a b : {v : Value // v.Keyed} => a.1.same b.1 = true) ∧
    (∀ a b c d : Value, a.Keyed → c.Keyed → a.Reordered b → c.Reordered d →
      a.same c = b.same d) ∧
    (∀ a b : Value, a.hashKey?.isSome → b.hashKey?.isSome →
      (a.hashKey? = b.hashKey? ↔ a.same b = true)) ∧
    ∀ l r : Value, BinaryOp.apply .equal l r = .boolean (l.same r) ∧
      BinaryOp.apply .notEqual l r = .boolean !l.same r := by
  refine ⟨⟨fun a => a.2.same_refl, fun {a b} => a.2.same_symm b.2,
    fun {a b c} => a.2.same_trans b.2 c.2⟩, ?_, fun a b => hashKey?_eq_iff_same,
    fun l r => ⟨equal_apply l r, notEqual_apply l r⟩⟩
  intro a b c d keyed keyed' order order'
  obtain ⟨ordered, same⟩ := keyed.reordered order
  obtain ⟨ordered', same'⟩ := keyed'.reordered order'
  rw [Bool.eq_iff_iff]
  constructor
  · intro equal
    have back := keyed.same_symm ordered same
    exact ordered.same_trans keyed' ordered' (ordered.same_trans keyed keyed' back equal) same'
  · intro equal
    have back := keyed'.same_symm ordered' same'
    exact keyed.same_trans ordered' keyed' (keyed.same_trans ordered ordered' same equal) back

/-- A hash in a hash in an array. Two of the keys look alike. -/
def forwards : Value :=
  .array [.hash (Table.filled [(.integer 1, .hash (Table.filled
    [(.boolean true, .null), (.boolean false, .integer 0)])), (.string "1", .null)])]

/-- The same, both hashes in the other order. -/
def backwards : Value :=
  .array [.hash (Table.filled [(.string "1", .null), (.integer 1, .hash (Table.filled
    [(.boolean false, .integer 0), (.boolean true, .null)]))])]

theorem forwards_keyed : forwards.Keyed := by
  refine .array fun v member => ?_
  obtain rfl := List.mem_singleton.1 member
  refine .hash (by decide) (List.forall_mem_cons.2 ⟨.hash (by decide) ?_, ?_⟩)
  · exact List.forall_mem_cons.2 ⟨.simple rfl, List.forall_mem_singleton.2 (.simple rfl)⟩
  · exact List.forall_mem_singleton.2 (.simple rfl)

theorem forwards_reordered : forwards.Reordered backwards := by
  have inner :
      Reordered (.hash (Table.filled [(.boolean true, .null), (.boolean false, .integer 0)]))
        (.hash (Table.filled [(.boolean false, .integer 0), (.boolean true, .null)])) :=
    .hash (by decide) (.cons (.refl _) (.cons (.refl _) .nil)) (.swap ..)
  refine .array (.cons (.hash (by decide) ?values (.swap ..)) .nil)
  exact .cons inner (.cons (.refl _) .nil)

theorem equality_respected_forwards :
    forwards.same forwards = forwards.same backwards ∧ forwards.same backwards = true ∧
      ((integer 1).hashKey? = (string "1").hashKey? ↔ (integer 1).same (string "1") = true) := by
  have either := equality_respected.2.1 _ _ _ _ forwards_keyed forwards_keyed (.refl _)
    forwards_reordered
  have same := equality_respected.1.refl ⟨forwards, forwards_keyed⟩
  exact ⟨either, either ▸ same, equality_respected.2.2.1 _ _ rfl rfl⟩

end Value
end MonkeyLanguage
