import Mathlib.Data.List.Perm.Subperm
import MonkeyLanguage.Proofs.Value.Related

/-!
# Tables as mappings

A table that lists each key once is determined, up to the order of its entries, by what it maps the
keys to. Two such tables of the same size have the same keys as soon as those of the one are among
those of the other.
-/

namespace MonkeyLanguage.Table

variable {κ α β γ : Type}

theorem Related.keys_eq {R : α → β → Prop} {table : List (κ × α)} {image : List (κ × β)}
    (h : Related R table image) : keys image = keys table := by
  induction h with
  | nil => rfl
  | cons _ _ ih => exact congrArg _ ih

theorem keys_perm {table image : List (κ × α)} (permuted : table.Perm image) :
    (keys table).Perm (keys image) :=
  permuted.map Prod.fst

theorem nodup_keys_of_perm {table image : List (κ × α)} (permuted : table.Perm image)
    (nodup : (keys table).Nodup) : (keys image).Nodup :=
  (keys_perm permuted).nodup_iff.1 nodup

variable [DecidableEq κ]

/-! ### Entries and keys -/

section

variable {key : κ} {a : α} {table image : List (κ × α)}

theorem get?_eq_some_iff (nodup : (keys table).Nodup) :
    get? key table = some a ↔ (key, a) ∈ table :=
  ⟨mem_of_get?, get?_of_mem nodup⟩

theorem mem_keys_of_get? (found : get? key table = some a) : key ∈ keys table :=
  List.mem_map_of_mem (mem_of_get? found)

theorem exists_get? (member : key ∈ keys table) : ∃ a, get? key table = some a := by
  induction table with
  | nil => simp [keys] at member
  | cons entry table ih =>
    obtain ⟨k, b⟩ := entry
    by_cases same : k = key
    · exact ⟨b, if_pos same⟩
    · have later := (List.mem_cons.1 member).resolve_left (Ne.symm same)
      obtain ⟨a, found⟩ := ih later
      exact ⟨a, (if_neg same).trans found⟩

/-- The order of entries does not matter. -/
theorem get?_of_perm (nodup : (keys table).Nodup) (permuted : table.Perm image) (key : κ) :
    get? key table = get? key image := by
  apply Option.ext
  intro a
  rw [get?_eq_some_iff nodup, get?_eq_some_iff (nodup_keys_of_perm permuted nodup),
    permuted.mem_iff]

theorem set_of_not_mem (new : key ∉ keys table) : set key a table = table ++ [(key, a)] := by
  induction table with
  | nil => rfl
  | cons entry table ih =>
    obtain ⟨k, b⟩ := entry
    simp only [keys, List.map_cons, List.mem_cons, not_or] at new
    simp only [set, if_neg (Ne.symm new.1), List.cons_append]
    rw [ih new.2]

end

/-! ### Insertion -/

/-- The table in which the entries have been set in this order. -/
def filled (entries : List (κ × α)) : List (κ × α) :=
  entries.foldl (fun table entry => set entry.1 entry.2 table) []

/-- Entries with different keys come to stand in the order in which they were set. -/
theorem filled_of_nodup {entries : List (κ × α)} (nodup : (keys entries).Nodup) :
    filled entries = entries := by
  suffices general : ∀ table : List (κ × α), (keys (table ++ entries)).Nodup →
      entries.foldl (fun table entry => set entry.1 entry.2 table) table = table ++ entries from
    general [] nodup
  clear nodup
  induction entries with
  | nil => simp
  | cons entry entries ih =>
    intro table nodup
    have new : entry.1 ∉ keys table := by
      intro member
      have split : keys (table ++ entry :: entries) = keys table ++ entry.1 :: keys entries := by
        simp [keys]
      rw [split] at nodup
      exact (List.nodup_append.1 nodup).2.2 _ member _ List.mem_cons_self rfl
    rw [List.foldl_cons, set_of_not_mem new, ih]
    · simp
    · simpa using nodup

theorem nodup_keys_foldl_set {table : List (κ × α)} (nodup : (keys table).Nodup)
    (entries : List (κ × α)) :
    (keys (entries.foldl (fun table entry => set entry.1 entry.2 table) table)).Nodup := by
  induction entries generalizing table with
  | nil => exact nodup
  | cons entry entries ih => exact ih (nodup_keys_set nodup)

theorem nodup_keys_filled (entries : List (κ × α)) : (keys (filled entries)).Nodup :=
  nodup_keys_foldl_set (by simp [keys]) entries

section

variable {entries : List (κ × α)} {key : κ}

theorem get?_foldl_set_of_not_mem (other : key ∉ keys entries) (table : List (κ × α)) :
    get? key (entries.foldl (fun table entry => set entry.1 entry.2 table) table) =
      get? key table := by
  induction entries generalizing table with
  | nil => rfl
  | cons entry entries ih =>
    simp only [keys, List.map_cons, List.mem_cons, not_or] at other
    rw [List.foldl_cons, ih other.2, get?_set_of_ne (Ne.symm other.1)]

theorem exists_last_entry (member : key ∈ keys entries) :
    ∃ before a after, entries = before ++ (key, a) :: after ∧ key ∉ keys after := by
  induction entries with
  | nil => simp [keys] at member
  | cons entry entries ih =>
    obtain ⟨k, b⟩ := entry
    by_cases later : key ∈ keys entries
    · obtain ⟨before, a, after, rfl, last⟩ := ih later
      exact ⟨(k, b) :: before, a, after, rfl, last⟩
    · obtain rfl := (List.mem_cons.1 member).resolve_right later
      exact ⟨[], b, entries, rfl, later⟩

/-- Of the entries with one key the last one counts. -/
theorem get?_filled_of_last {before after : List (κ × α)} {a : α} (last : key ∉ keys after) :
    get? key (filled (before ++ (key, a) :: after)) = some a := by
  rw [filled, List.foldl_append, List.foldl_cons, get?_foldl_set_of_not_mem last, get?_set_self]

theorem get?_filled_of_not_mem (other : key ∉ keys entries) : get? key (filled entries) = none :=
  get?_foldl_set_of_not_mem other []

theorem mem_keys_filled : key ∈ keys (filled entries) ↔ key ∈ keys entries := by
  constructor
  · intro member
    obtain ⟨a, found⟩ := exists_get? member
    by_contra other
    simp [get?_filled_of_not_mem other] at found
  · intro member
    obtain ⟨before, a, after, rfl, last⟩ := exists_last_entry member
    exact mem_keys_of_get? (get?_filled_of_last last)

theorem get?_filled_eq_some_iff {a : α} :
    get? key (filled entries) = some a ↔
      ∃ before after, entries = before ++ (key, a) :: after ∧ key ∉ keys after := by
  constructor
  · intro found
    have member := mem_keys_filled.1 (mem_keys_of_get? found)
    obtain ⟨before, b, after, rfl, last⟩ := exists_last_entry member
    rw [get?_filled_of_last last] at found
    obtain rfl := Option.some.inj found
    exact ⟨before, after, rfl, last⟩
  · rintro ⟨before, after, rfl, last⟩
    exact get?_filled_of_last last

end

/-! ### Agreement -/

/-- The tables have the same keys, and related values under each of them. -/
structure Agree (R : α → β → Prop) (table : List (κ × α)) (image : List (κ × β)) : Prop where
  keys : ∀ key, key ∈ Table.keys table ↔ key ∈ Table.keys image
  values : ∀ key a b, get? key table = some a → get? key image = some b → R a b

section

variable {R : α → β → Prop} {table : List (κ × α)} {image : List (κ × β)}

theorem Related.agree (h : Related R table image) : Agree R table image := by
  refine ⟨fun key => by rw [h.keys_eq], fun key a b found found' => ?_⟩
  have here := h.get? key
  rw [found, found'] at here
  cases here with
  | some related => exact related

namespace Agree

theorem of_perm {other : List (κ × β)} (agree : Agree R table image)
    (nodup : (Table.keys image).Nodup) (permuted : image.Perm other) : Agree R table other := by
  refine ⟨fun key => (agree.keys key).trans (keys_perm permuted).mem_iff, ?_⟩
  intro key a b found found'
  rw [← get?_of_perm nodup permuted] at found'
  exact agree.values key a b found found'

theorem flip (agree : Agree R table image) : Agree (fun b a => R a b) image table :=
  ⟨fun key => (agree.keys key).symm, fun key b a found found' => agree.values key a b found' found⟩

theorem imp {S : α → β → Prop} (agree : Agree R table image)
    (weaker : ∀ key a b, (key, a) ∈ table → (key, b) ∈ image → R a b → S a b) :
    Agree S table image :=
  ⟨agree.keys, fun key a b found found' =>
    weaker key a b (mem_of_get? found) (mem_of_get? found') (agree.values key a b found found')⟩

theorem trans {S : β → γ → Prop} {T : α → γ → Prop} {last : List (κ × γ)}
    (first : Agree R table image) (second : Agree S image last)
    (both : ∀ key a b c, (key, a) ∈ table → (key, b) ∈ image → (key, c) ∈ last →
      R a b → S b c → T a c) : Agree T table last := by
  refine ⟨fun key => (first.keys key).trans (second.keys key), fun key a c found found' => ?_⟩
  obtain ⟨b, middle⟩ := exists_get? ((first.keys key).1 (mem_keys_of_get? found))
  exact both key a b c (mem_of_get? found) (mem_of_get? middle) (mem_of_get? found')
    (first.values key a b found middle) (second.values key b c middle found')

theorem exists_of_mem (agree : Agree R table image) (nodup : (Table.keys table).Nodup) {key : κ}
    {a : α} (member : (key, a) ∈ table) : ∃ b, get? key image = some b ∧ R a b := by
  have found := get?_of_mem nodup member
  obtain ⟨b, found'⟩ := exists_get? ((agree.keys key).1 (mem_keys_of_get? found))
  exact ⟨b, found', agree.values key a b found found'⟩

/-- Without the first entries, which have the same key. -/
theorem tail {key : κ} {a : α} {b : β} (agree : Agree R ((key, a) :: table) ((key, b) :: image))
    (nodup : (Table.keys ((key, a) :: table)).Nodup)
    (nodup' : (Table.keys ((key, b) :: image)).Nodup) : Agree R table image := by
  simp only [Table.keys, List.map_cons, List.nodup_cons] at nodup nodup'
  refine ⟨fun other => ?_, fun other c d found found' => ?_⟩
  · have both := agree.keys other
    simp only [Table.keys, List.map_cons, List.mem_cons] at both ⊢
    by_cases same : other = key
    · subst same
      simp only [nodup.1, nodup'.1]
    · simpa only [same, false_or] using both
  · have apart : key ≠ other := by
      rintro rfl
      exact nodup.1 (mem_keys_of_get? found)
    exact agree.values other c d ((if_neg apart).trans found) ((if_neg apart).trans found')

/-- The entries of the second table can be put into the order of the first. -/
theorem exists_related (agree : Agree R table image) (nodup : (Table.keys table).Nodup)
    (nodup' : (Table.keys image).Nodup) :
    ∃ ordered, Related R table ordered ∧ ordered.Perm image := by
  induction table generalizing image with
  | nil =>
    cases image with
    | nil => exact ⟨[], .nil, .refl _⟩
    | cons entry image =>
      have listed := (agree.keys entry.1).2 (List.mem_map_of_mem List.mem_cons_self)
      simp [Table.keys] at listed
  | cons entry table ih =>
    obtain ⟨key, a⟩ := entry
    obtain ⟨b, found, related⟩ := agree.exists_of_mem nodup List.mem_cons_self
    obtain ⟨before, after, rfl⟩ := List.append_of_mem (mem_of_get? found)
    -- The partner of the first entry is taken out of the image, which leaves the others in place.
    have front : (before ++ (key, b) :: after).Perm ((key, b) :: (before ++ after)) :=
      List.perm_middle
    have agree := agree.of_perm nodup' front
    have nodup' := nodup_keys_of_perm front nodup'
    obtain ⟨ordered, first, order⟩ := ih (agree.tail nodup nodup') nodup.tail nodup'.tail
    exact ⟨(key, b) :: ordered, .cons related first, (order.cons _).trans front.symm⟩

theorem length_eq (agree : Agree R table image) (nodup : (Table.keys table).Nodup)
    (nodup' : (Table.keys image).Nodup) : table.length = image.length := by
  obtain ⟨ordered, related, permuted⟩ := agree.exists_related nodup nodup'
  rw [related.length_eq, permuted.length_eq]

end Agree

theorem agree_of_get? {table image : List (κ × α)} (same : ∀ key, get? key table = get? key image) :
    Agree (· = ·) table image := by
  refine ⟨fun key => ⟨fun member => ?_, fun member => ?_⟩, fun key a b found found' => ?_⟩
  · obtain ⟨a, found⟩ := exists_get? member
    exact mem_keys_of_get? (same key ▸ found)
  · obtain ⟨a, found⟩ := exists_get? member
    exact mem_keys_of_get? ((same key).trans found)
  · exact Option.some.inj (found.symm.trans ((same key).trans found'))

/-- To compare tables of the same size in one direction is enough: the keys of the first are among
those of the second, and they are as many. -/
theorem agree_of_found (nodup : (keys table).Nodup) (length : table.length = image.length)
    (found : ∀ entry ∈ table, ∃ b, get? entry.1 image = some b ∧ R entry.2 b) :
    Agree R table image := by
  have within : keys table ⊆ keys image := by
    intro key member
    obtain ⟨entry, listed, rfl⟩ := List.mem_map.1 member
    obtain ⟨b, there, -⟩ := found entry listed
    exact mem_keys_of_get? there
  have same : (keys table).Perm (keys image) :=
    (List.subperm_of_subset nodup within).perm_of_length_le (by simp [keys, length])
  refine ⟨fun key => same.mem_iff, fun key a b here there => ?_⟩
  obtain ⟨b', there', related⟩ := found _ (mem_of_get? here)
  rw [there] at there'
  exact Option.some.inj there' ▸ related

end

end MonkeyLanguage.Table
