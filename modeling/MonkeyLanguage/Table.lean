/-!
# Tables

Association lists that hold each key once. Setting a key that is present replaces its value in
place, so a table lists its keys in the order in which they were first set.
-/

namespace MonkeyLanguage.Table

variable {κ α : Type} [DecidableEq κ]

def get? (key : κ) : List (κ × α) → Option α
  | [] => none
  | (k, a) :: rest => if k = key then some a else get? key rest

def set (key : κ) (a : α) : List (κ × α) → List (κ × α)
  | [] => [(key, a)]
  | (k, b) :: rest => if k = key then (key, a) :: rest else (k, b) :: set key a rest

def keys (table : List (κ × α)) : List κ := table.map Prod.fst

@[simp] theorem get?_nil (key : κ) : get? key ([] : List (κ × α)) = none := rfl

theorem get?_set (key other : κ) (a : α) (table : List (κ × α)) :
    get? other (set key a table) = if key = other then some a else get? other table := by
  induction table with
  | nil => simp [set, get?]
  | cons entry rest ih =>
    obtain ⟨k, b⟩ := entry
    by_cases h : k = key
    · subst h; by_cases h' : k = other <;> simp [set, get?, h']
    · by_cases h' : k = other
      · subst h'; simp [set, get?, h, Ne.symm h]
      · simp [set, get?, h, h', ih]

@[simp] theorem get?_set_self (key : κ) (a : α) (table : List (κ × α)) :
    get? key (set key a table) = some a := by simp [get?_set]

theorem get?_set_of_ne {key other : κ} (h : key ≠ other) (a : α) (table : List (κ × α)) :
    get? other (set key a table) = get? other table := by simp [get?_set, h]

theorem mem_keys_set {key other : κ} {a : α} {table : List (κ × α)} :
    other ∈ keys (set key a table) ↔ other = key ∨ other ∈ keys table := by
  induction table with
  | nil => simp [set, keys]
  | cons entry rest ih =>
    obtain ⟨k, b⟩ := entry
    simp only [keys] at ih ⊢
    by_cases h : k = key
    · subst h; simp [set]
    · simp [set, h, ih]; grind

/-- No operation repeats a key. -/
theorem nodup_keys_set {key : κ} {a : α} {table : List (κ × α)} (h : (keys table).Nodup) :
    (keys (set key a table)).Nodup := by
  induction table with
  | nil => simp [set, keys]
  | cons entry rest ih =>
    obtain ⟨k, b⟩ := entry
    simp only [keys, List.map_cons, List.nodup_cons] at h
    by_cases hk : k = key
    · subst hk; simpa [set, keys] using h
    · have fresh : k ∉ keys (set key a rest) := by
        rw [mem_keys_set]; rintro (rfl | member)
        · exact hk rfl
        · exact h.1 member
      simpa [set, hk, keys] using ⟨by simpa [keys] using fresh, ih h.2⟩

theorem mem_of_get? {key : κ} {a : α} {table : List (κ × α)} (found : get? key table = some a) :
    (key, a) ∈ table := by
  induction table with
  | nil => simp at found
  | cons entry rest ih =>
    obtain ⟨k, b⟩ := entry
    simp only [get?] at found
    split at found
    · rename_i same
      obtain rfl := Option.some.inj found
      simp [same]
    · exact List.mem_cons_of_mem _ (ih found)

theorem map_set {β : Type} (f : α → β) (key : κ) (a : α) (table : List (κ × α)) :
    (set key a table).map (fun entry => (entry.1, f entry.2)) =
      set key (f a) (table.map fun entry => (entry.1, f entry.2)) := by
  induction table with
  | nil => rfl
  | cons entry rest ih =>
    obtain ⟨k, b⟩ := entry
    by_cases h : k = key
    · simp [set, h]
    · simp [set, h, ih]

theorem get?_of_mem {key : κ} {a : α} {table : List (κ × α)} (nodup : (keys table).Nodup)
    (member : (key, a) ∈ table) : get? key table = some a := by
  induction table with
  | nil => simp at member
  | cons entry rest ih =>
    obtain ⟨k, b⟩ := entry
    simp only [keys, List.map_cons, List.nodup_cons] at nodup
    rcases List.mem_cons.1 member with same | member
    · obtain ⟨rfl, rfl⟩ := Prod.mk.inj same
      simp [get?]
    · have other : k ≠ key := by
        rintro rfl
        exact nodup.1 (List.mem_map_of_mem member)
      simp only [get?, if_neg other]
      exact ih nodup.2 member

theorem mem_set {key other : κ} {a b : α} {table : List (κ × α)}
    (member : (other, b) ∈ set key a table) : other = key ∧ b = a ∨ (other, b) ∈ table := by
  induction table with
  | nil =>
    simp only [set, List.mem_singleton, Prod.mk.injEq] at member
    exact Or.inl member
  | cons entry rest ih =>
    obtain ⟨k, c⟩ := entry
    simp only [set] at member
    split at member
    · rcases List.mem_cons.1 member with same | member
      · exact Or.inl (Prod.mk.inj same)
      · exact Or.inr (List.mem_cons_of_mem _ member)
    · rcases List.mem_cons.1 member with same | member
      · exact Or.inr (same ▸ List.mem_cons_self)
      · exact (ih member).imp_right (List.mem_cons_of_mem _)

end MonkeyLanguage.Table
