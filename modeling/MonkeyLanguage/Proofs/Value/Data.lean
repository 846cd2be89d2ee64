import MonkeyLanguage.Proofs.Eval.Run
import MonkeyLanguage.Proofs.Syntax.RoundTrip
import MonkeyLanguage.Proofs.Value.Display

/-!
# Data is read back

The text of data is read as an expression that yields the data again wherever it is evaluated. A
negative number comes back as a negation, and the entries of a hash are inserted in the order of
their texts.
-/

namespace MonkeyLanguage

/-! ### Data -/

/-- Numbers, truth values, arrays of data, and hashes of data whose keys are data. The lowest number
is left out, since the digits behind its sign are too large for a number. -/
inductive Value.Data : Value → Prop where
  | integer {n : Int64} (negatable : n ≠ Int64.minValue) : Data (.integer n)
  | boolean (b : Bool) : Data (.boolean b)
  | array {vs : List Value} (elements : ∀ v ∈ vs, Data v) : Data (.array vs)
  | hash {entries : List (HashKey × Value)} (nodup : (Table.keys entries).Nodup)
    (keys : ∀ entry ∈ entries, Data entry.1.value) (values : ∀ entry ∈ entries, Data entry.2) :
    Data (.hash entries)

theorem Value.Data.keyed {v : Value} (data : v.Data) : v.Keyed := by
  induction data with
  | integer | boolean => exact .simple rfl
  | array _ ih => exact .array ih
  | hash nodup _ _ _ ih => exact .hash nodup ih

/-! ### Texts of values -/

/-- The expression yields this value in every environment, and has no effect. -/
structure Expr.Yields (e : Expr) (v : Value) : Prop where
  value : v.isSignal = false
  eval : ∀ call scope store, e.eval call scope store = some (v, store)

/-- The text is read as an expression that yields this value. -/
def Denotes (text : String) (v : Value) : Prop :=
  ∃ e : Expr, Writes text.toList (Derives · (.expression e)) ∧ e.Yields v

/-- What is displayed is read as a value that is equal but for the order of insertion. -/
def Value.ReadsBack (v : Value) : Prop := ∃ w, v.Reordered w ∧ Denotes v.display w

theorem Denotes.program {text : String} {v : Value} (denotes : Denotes text v) :
    ∃ program : Program, parse text = (program, []) ∧
      ∀ depth scope store, program.eval depth scope store = some (v, store) := by
  obtain ⟨e, ⟨ts, scans, derives⟩, yields⟩ := denotes
  refine ⟨[.expression e], ?_, fun depth scope store => ?_⟩
  · have whole := completes_nil ts _ (.bare derives)
    rw [List.append_nil] at whole
    rw [parse_eq_iff, scans.tokens_eq]
    exact whole
  · refine Program.eval_eq_some.2 ⟨v, ?_, (Value.arrived_of_value yields.value).symm⟩
    exact onValue_of_value (yields.eval ..) yields.value _

/-! ### Literals -/

theorem toInt_neg_of_ne_minValue {n : Int64} (negatable : n ≠ Int64.minValue) :
    (-n).toInt = -n.toInt := by
  have lower := n.le_toInt
  have upper := n.toInt_lt
  have apart : n.toInt ≠ -2 ^ 63 := fun same => negatable (Int64.toInt_inj.1 same)
  rw [Int64.toInt_neg]
  exact Int.bmod_eq_of_le (by omega) (by omega)

/-- The sign comes before the numeral of the opposite number. -/
theorem ofInt64_of_neg {n : Int64} (negatable : n ≠ Int64.minValue) (negative : n.toInt < 0) :
    (Decimal.ofInt64 n).toList = '-' :: (Decimal.ofInt64 (-n)).toList := by
  have opposite : 0 ≤ -n.toInt := by omega
  rw [Decimal.ofInt64, Decimal.ofInt64, toInt_neg_of_ne_minValue negatable, Int.toString_eq_repr,
    Int.toString_eq_repr, Int.repr_eq_if, Int.repr_eq_if, if_neg (Int.not_le.2 negative),
    if_pos opposite]
  simp

theorem integer_denotes {n : Int64} (negatable : n ≠ Int64.minValue) :
    Denotes (Decimal.ofInt64 n) (.integer n) := by
  by_cases positive : 0 ≤ n.toInt
  · exact ⟨.integer n, expression_writes (ofInt64_writes positive), rfl, fun _ _ _ => rfl⟩
  · have negative := Int.not_le.1 positive
    have opposite : 0 ≤ (-n).toInt := by
      rw [toInt_neg_of_ne_minValue negatable]
      omega
    obtain ⟨ts, scans, read⟩ := ofInt64_writes opposite
    refine ⟨.unary .negate (.integer (-n)), ⟨_, (scans.mark .minus).of_eq ?_, read.signed rfl⟩,
      rfl, fun call scope store => ?_⟩
    · exact ofInt64_of_neg negatable negative
    · have negated : UnaryOp.apply .negate (.integer (-n)) = .integer n := by
        rw [UnaryOp.apply, Int64.neg_neg]
      rw [← negated]
      rfl

theorem boolean_denotes (b : Bool) : Denotes (Value.boolean b).display (.boolean b) := by
  have same : (Value.boolean b).display = (Expr.boolean b).render := by cases b <;> rfl
  exact ⟨.boolean b, same ▸ expression_writes (boolean_writes b), rfl, fun _ _ _ => rfl⟩

/-! ### Elements and entries -/

theorem Expr.evalAll_of_yields {e : Expr} {es : List Expr} {w : Value} {ws : List Value}
    {call : Call} {scope : Scope} {store : Store} (first : e.Yields w)
    (rest : Expr.evalAll call scope es store = some (.ok ws, store)) :
    Expr.evalAll call scope (e :: es) store = some (.ok (w :: ws), store) := by
  rw [Expr.evalAll, bind_eq_some]
  refine ⟨w, store, first.eval .., ?_⟩
  rw [if_neg (by simp [first.value]), bind_eq_some]
  exact ⟨_, _, rest, rfl⟩

theorem items_read_back {vs : List Value} (each : ∀ v ∈ vs, v.ReadsBack) :
    ∃ ws es, List.Forall₂ Value.Reordered vs ws ∧
      Writes (trailing ',' (Value.displayAll vs)) (Derives · (.moreItems es)) ∧
      Writes (", ".intercalate (Value.displayAll vs)).toList (Derives · (.items es)) ∧
      ∀ call scope store, Expr.evalAll call scope es store = some (.ok ws, store) := by
  induction vs with
  | nil => exact ⟨[], [], .nil, ⟨[], .nil, .lastItem⟩, ⟨[], .nil, .noItem⟩, fun _ _ _ => rfl⟩
  | cons v vs ih =>
    obtain ⟨⟨w, order, e, reads, yields⟩, others⟩ := List.forall_mem_cons.1 each
    obtain ⟨ws, es, orders, more, -, evals⟩ := ih others
    exact ⟨w :: ws, e :: es, .cons order orders, moreItems_writes reads more,
      items_writes reads more, fun _ _ _ => Expr.evalAll_of_yields yields (evals ..)⟩

theorem Expr.evalPairs_of_yields {k e : Expr} {key : HashKey} {w : Value} {call : Call}
    {scope : Scope} {store : Store} (first : k.Yields key.value) (second : e.Yields w)
    (entries : List (HashKey × Value)) (ps : List (Expr × Expr)) :
    Expr.evalPairs call scope entries ((k, e) :: ps) store =
      Expr.evalPairs call scope (Table.set key w entries) ps store := by
  rw [Expr.evalPairs, onValue_of_value (first.eval ..) first.value, HashKey.hashKey?_value]
  exact onValue_of_value (second.eval ..) second.value _

/-- The part of a displayed hash that stands for this entry. -/
def entryText (entry : HashKey × Value) : String := entry.1.display ++ ": " ++ entry.2.display

theorem pairs_read_back {entries : List (HashKey × Value)}
    (keys : ∀ entry ∈ entries, Denotes entry.1.display entry.1.value)
    (values : ∀ entry ∈ entries, entry.2.ReadsBack) :
    ∃ table ps, Table.Related Value.Reordered entries table ∧
      Writes (trailing ',' (entries.map entryText)) (Derives · (.morePairs ps)) ∧
      Writes (", ".intercalate (entries.map entryText)).toList (Derives · (.pairs ps)) ∧
      ∀ call scope before store, Expr.evalPairs call scope before ps store =
        some (.hash (table.foldl (fun table entry => Table.set entry.1 entry.2 table) before),
          store) := by
  induction entries with
  | nil => exact ⟨[], [], .nil, ⟨[], .nil, .lastPair⟩, ⟨[], .nil, .noPair⟩, fun _ _ _ _ => rfl⟩
  | cons entry entries ih =>
    obtain ⟨⟨k, keyReads, keyYields⟩, otherKeys⟩ := List.forall_mem_cons.1 keys
    obtain ⟨⟨w, order, e, reads, yields⟩, others⟩ := List.forall_mem_cons.1 values
    obtain ⟨table, ps, orders, more, -, evals⟩ := ih otherKeys others
    refine ⟨(entry.1, w) :: table, (k, e) :: ps, .cons order orders,
      morePairs_writes keyReads reads more, pairs_writes keyReads reads more, ?_⟩
    intro call scope before store
    rw [Expr.evalPairs_of_yields keyYields yields]
    exact evals ..

/-! ### Values -/

/-- A key has nothing in it that could have been inserted in another order. -/
theorem HashKey.denotes {key : HashKey} (back : key.value.ReadsBack) :
    Denotes key.display key.value := by
  obtain ⟨w, order, denotes⟩ := back
  have same : w = key.value := by cases key <;> cases order <;> rfl
  rwa [same, HashKey.display_value] at denotes

/-- A hash is displayed like a literal of its entries in some order. -/
theorem Value.display_hash (entries : List (HashKey × Value)) :
    ∃ sorted : List (HashKey × Value), sorted.Perm entries ∧ (Value.hash entries).display =
      "\x7b" ++ ", ".intercalate (sorted.map entryText) ++ "\x7d" := by
  let texts (entry : HashKey × Value) : String × String := (entry.1.display, entry.2.display)
  let before (a b : HashKey × Value) : Bool := textLe (texts a) (texts b)
  have sorted : (entries.mergeSort before).map texts = (entries.map texts).mergeSort textLe :=
    List.map_mergeSort fun _ _ _ _ => rfl
  refine ⟨entries.mergeSort before, List.mergeSort_perm .., ?_⟩
  rw [Value.display, Value.entryTexts_eq_map, displayEntries, ← sorted, List.map_map]
  rfl

theorem Value.array_readsBack {vs : List Value} (each : ∀ v ∈ vs, v.ReadsBack) :
    (array vs).ReadsBack := by
  obtain ⟨ws, es, orders, -, reads, evals⟩ := items_read_back each
  refine ⟨.array ws, .array orders, .array es, expression_writes (array_writes reads), rfl, ?_⟩
  intro call scope store
  rw [Expr.eval, bind_eq_some]
  exact ⟨_, _, evals .., rfl⟩

theorem Value.hash_readsBack {entries : List (HashKey × Value)}
    (nodup : (Table.keys entries).Nodup) (keys : ∀ entry ∈ entries, entry.1.value.ReadsBack)
    (values : ∀ entry ∈ entries, entry.2.ReadsBack) : (hash entries).ReadsBack := by
  obtain ⟨sorted, permuted, text⟩ := display_hash entries
  have nodup' := Table.nodup_keys_of_perm permuted.symm nodup
  have inside : ∀ entry ∈ sorted, entry ∈ entries := fun entry => permuted.mem_iff.1
  obtain ⟨table, ps, orders, -, reads, evals⟩ := pairs_read_back
    (fun entry member => HashKey.denotes (keys entry (inside entry member)))
    fun entry member => values entry (inside entry member)
  -- The literal fills the table in the order of the text. Its entries are those of the hash in
  -- another order, which is all that a reordering asks for.
  have agree := (orders.agree.flip.of_perm nodup' permuted).flip
  obtain ⟨image, related, permuted'⟩ := agree.exists_related nodup (orders.keys_eq ▸ nodup')
  have order := Reordered.hash nodup related permuted'
  rw [Table.filled_of_nodup nodup] at order
  exact ⟨_, order, .hash ps, text ▸ expression_writes (hash_writes reads), rfl,
    fun _ _ _ => evals ..⟩

theorem Value.Data.readsBack {v : Value} (data : v.Data) : v.ReadsBack := by
  induction data with
  | integer negatable => exact ⟨_, .refl _, integer_denotes negatable⟩
  | boolean b => exact ⟨_, .refl _, boolean_denotes b⟩
  | array _ ih => exact array_readsBack ih
  | hash nodup _ _ keys values => exact hash_readsBack nodup keys values

/-- Data that is printed can be typed back in: its text is read without an error, and the program
yields equal data in every environment and changes nothing. -/
theorem Value.display_reads_back {v : Value} (data : v.Data) :
    ∃ (program : Program) (w : Value), parse v.display = (program, []) ∧
      (∀ depth scope store, program.eval depth scope store = some (w, store)) ∧
      w.same v = true := by
  obtain ⟨w, order, denotes⟩ := data.readsBack
  obtain ⟨program, read, evals⟩ := denotes.program
  obtain ⟨keyed, same⟩ := data.keyed.reordered order
  exact ⟨program, w, read, evals, data.keyed.same_symm keyed same⟩

/-- The entries are not in the order of their texts, where a minus sign comes first, and ten before
nine. -/
def Value.unsorted : Value :=
  .hash [(.boolean true, .array [.integer (-7), .hash [(.integer 9, .boolean false),
    (.integer 10, .array [])]]), (.integer (-1), .integer 0)]

theorem Value.unsorted_data : unsorted.Data := by
  have inner : (hash [(.integer 9, .boolean false), (.integer 10, .array [])]).Data := by
    refine .hash (by decide) ?keys ?values
    case keys => simpa using ⟨.integer (by decide), .integer (by decide)⟩
    case values => simpa using ⟨.boolean false, .array (by simp)⟩
  have elements : (array [.integer (-7), hash [(.integer 9, .boolean false),
      (.integer 10, .array [])]]).Data := by
    refine .array ?_
    simpa using ⟨.integer (by decide), inner⟩
  refine .hash (by decide) ?keys ?values
  case keys => simpa using ⟨.boolean true, .integer (by decide)⟩
  case values => simpa using ⟨elements, .integer (by decide)⟩

theorem Value.display_reads_back_unsorted :
    unsorted.Data ∧ ∃ (program : Program) (w : Value), parse unsorted.display = (program, []) ∧
      (∀ depth scope store, program.eval depth scope store = some (w, store)) ∧
      w.same unsorted = true :=
  ⟨unsorted_data, display_reads_back unsorted_data⟩

end MonkeyLanguage
