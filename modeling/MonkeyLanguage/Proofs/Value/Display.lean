import Mathlib.Data.Prod.Lex
import Mathlib.Data.String.Basic
import MonkeyLanguage.Proofs.Value.Same

/-!
# Equal values look the same

The entries of a hash are displayed in the order of their texts, the text of the value deciding
where keys look alike. Entries that the order does not tell apart have the same text, so the order
in which entries were inserted does not show in the display of a hash, nor around it.
-/

namespace MonkeyLanguage

/-! ### The order of texts -/

section

variable {a b c : String × String}

theorem textLe_iff : textLe a b = true ↔ toLex a ≤ toLex b := by
  simp only [textLe, Prod.Lex.toLex_le_toLex, Bool.or_eq_true, Bool.and_eq_true, beq_iff_eq,
    decide_eq_true_eq, Bool.not_eq_true', decide_eq_false_iff_not, not_lt]

theorem textLe_trans (first : textLe a b = true) (second : textLe b c = true) :
    textLe a c = true :=
  textLe_iff.2 ((textLe_iff.1 first).trans (textLe_iff.1 second))

theorem textLe_total (a b : String × String) : (textLe a b || textLe b a) = true := by
  rw [Bool.or_eq_true, textLe_iff, textLe_iff]
  exact le_total _ _

theorem textLe_antisymm (first : textLe a b = true) (second : textLe b a = true) : a = b :=
  toLex_inj.1 ((textLe_iff.1 first).antisymm (textLe_iff.1 second))

end

/-- Sorting takes every order of the texts to the same one. -/
theorem displayEntries_of_perm {texts texts' : List (String × String)}
    (permuted : texts.Perm texts') : displayEntries texts = displayEntries texts' := by
  have sorted : ∀ texts : List (String × String),
      (texts.mergeSort textLe).Pairwise fun a b => textLe a b = true :=
    List.pairwise_mergeSort (fun _ _ _ => textLe_trans) textLe_total
  have same : texts.mergeSort textLe = texts'.mergeSort textLe :=
    List.Perm.eq_of_pairwise (fun _ _ _ _ => textLe_antisymm) (sorted texts) (sorted texts')
      ((List.mergeSort_perm ..).trans (permuted.trans (List.mergeSort_perm ..).symm))
  rw [displayEntries, displayEntries, same]

namespace Value

/-! ### The text of a hash -/

theorem entryTexts_eq_map (entries : List (HashKey × Value)) :
    entryTexts entries = entries.map fun entry => (entry.1.display, entry.2.display) := by
  induction entries with
  | nil => rfl
  | cons entry entries ih => rw [entryTexts, ih, List.map_cons]

section

variable {table image order : List (HashKey × Value)}

theorem hash_display_of_perm (permuted : table.Perm image) :
    (hash table).display = (hash image).display := by
  rw [display, display]
  apply displayEntries_of_perm
  rw [entryTexts_eq_map, entryTexts_eq_map]
  exact permuted.map _

theorem hash_display_of_related (permuted : image.Perm order)
    (values : Table.Related (fun v w : Value => v.display = w.display) table image) :
    (hash table).display = (hash order).display :=
  (hash_display_eq values).trans (hash_display_of_perm permuted)

theorem hash_display_of_agree (nodup : (Table.keys table).Nodup)
    (nodup' : (Table.keys image).Nodup)
    (alike : Table.Agree (fun v w : Value => v.display = w.display) table image) :
    (hash table).display = (hash image).display := by
  obtain ⟨ordered, values, permuted⟩ := alike.exists_related nodup nodup'
  exact hash_display_of_related permuted values

/-- What stands under the keys decides the text of a hash. -/
theorem hash_display_of_get? (nodup : (Table.keys table).Nodup)
    (nodup' : (Table.keys image).Nodup)
    (found : ∀ key, Table.get? key table = Table.get? key image) :
    (hash table).display = (hash image).display := by
  have agree := Table.agree_of_get? found
  exact hash_display_of_agree nodup nodup' (agree.imp fun _ _ _ _ _ => congrArg display)

end

/-! ### Looks -/

theorem type_eq_of_same {a b : Value} (same : a.same b = true) : a.type = b.type := by
  cases a <;> cases b <;> simp_all [Value.same, type]

theorem isTruthy_eq_of_same {a b : Value} (same : a.same b = true) : a.isTruthy = b.isTruthy := by
  cases a <;> cases b <;> simp_all [Value.same, isTruthy]

theorem hashKey?_eq_of_same {a b : Value} (same : a.same b = true) : a.hashKey? = b.hashKey? := by
  cases a <;> cases b <;> simp_all [Value.same, hashKey?]

theorem Keyed.display_eq {a b : Value} (keyed : a.Keyed) (keyed' : b.Keyed)
    (same : a.same b = true) : a.display = b.display := by
  refine keyed.same_ind (motive := fun a b => a.display = b.display) keyed' same (fun _ _ => rfl)
    (fun _ _ => array_display_eq) (fun _ _ => hash_display_of_agree) fun v w inside => ?_
  rw [display, display, inside]

theorem Reordered.display_eq {v w : Value} (h : v.Reordered w) : v.display = w.display := by
  refine h.ind (motive := fun v w => v.display = w.display) (fun _ => rfl)
    (fun _ _ => array_display_eq) ?hash (fun _ _ => id)
  case hash =>
    intro entries image order distinct values permuted
    have distinct' : (Table.keys image).Nodup := values.keys_eq ▸ distinct
    rw [Table.filled_of_nodup distinct,
      Table.filled_of_nodup (Table.nodup_keys_of_perm permuted distinct')]
    exact hash_display_of_related permuted values

/-- Equal values have the same type, truth, key and text. The text of a hash depends on its mapping
only, and the order of insertion shows nowhere in a value. -/
theorem equal_values_look_the_same :
    (∀ a b : Value, a.Keyed → b.Keyed → a.same b = true → a.type = b.type ∧
      a.isTruthy = b.isTruthy ∧ a.hashKey? = b.hashKey? ∧ a.display = b.display) ∧
    (∀ table image : List (HashKey × Value), (Table.keys table).Nodup → (Table.keys image).Nodup →
      (∀ key, Table.get? key table = Table.get? key image) →
      (hash table).display = (hash image).display) ∧
    ∀ v w : Value, v.Reordered w → v.display = w.display :=
  ⟨fun _ _ keyed keyed' same => ⟨type_eq_of_same same, isTruthy_eq_of_same same,
      hashKey?_eq_of_same same, keyed.display_eq keyed' same⟩,
    fun _ _ => hash_display_of_get?, fun _ _ => Reordered.display_eq⟩

theorem equal_values_look_the_same_backwards :
    (forwards.type = backwards.type ∧ forwards.isTruthy = backwards.isTruthy ∧
      forwards.hashKey? = backwards.hashKey? ∧ forwards.display = backwards.display) ∧
    (hash [(.integer 1, .null), (.string "1", .boolean true)]).display =
      (hash [(.string "1", .boolean true), (.integer 1, .null)]).display ∧
    forwards.display = backwards.display := by
  obtain ⟨keyed, same⟩ := forwards_keyed.reordered forwards_reordered
  obtain ⟨alike, mapping, order⟩ := equal_values_look_the_same
  exact ⟨alike _ _ forwards_keyed keyed same,
    mapping _ _ (by decide) (by decide) (Table.get?_of_perm (by decide) (.swap ..)),
    order _ _ forwards_reordered⟩

end Value
end MonkeyLanguage
