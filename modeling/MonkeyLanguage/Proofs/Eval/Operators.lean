import MonkeyLanguage.Eval.Builtin
import MonkeyLanguage.Proofs.Value.Related

/-!
# Operators on corresponding values

Operators, indexing and builtins give corresponding values for corresponding operands: none of them
looks into a function or makes one, and equality only asks whether two functions are the same.
-/

namespace MonkeyLanguage

variable {R : Closure → Closure → Prop} {v w v' w' : Value}

/-! ### Operators -/

theorem UnaryOp.apply_related (op : UnaryOp) (h : v.Related R w) :
    (op.apply v).Related R (op.apply w) := by
  cases op with
  | not =>
    simp only [UnaryOp.apply, h.isTruthy_eq]
    exact .boolean _
  | negate => cases h <;> first | exact .integer _ | exact .error _

theorem BinaryOp.onIntegers_related (op : BinaryOp) (m n : Int64) :
    (op.onIntegers m n).Related R (op.onIntegers m n) := by
  cases op with
  | plus | minus | multiply => exact .integer _
  | divide =>
    simp only [BinaryOp.onIntegers]
    split
    · exact .error _
    · exact .integer _
  | lessThan | greaterThan | equal | notEqual => exact .boolean _

theorem BinaryOp.onStrings_related (op : BinaryOp) (s t : String) :
    (op.onStrings s t).Related R (op.onStrings s t) := by
  cases op with
  | plus => exact .string _
  | lessThan | greaterThan | equal | notEqual => exact .boolean _
  | minus | multiply | divide => exact .error _

theorem Value.type_eq_integer : v.type = .integer ↔ ∃ n, v = .integer n := by
  cases v <;> simp [type]

theorem Value.type_eq_string : v.type = .string ↔ ∃ s, v = .string s := by
  cases v <;> simp [type]

/-- Of operands that are neither two integers nor two strings, only the types count, and whether
they are equal. -/
theorem BinaryOp.apply_mixed (op : BinaryOp) {a b : Value}
    (integers : ¬ (a.type = .integer ∧ b.type = .integer))
    (strings : ¬ (a.type = .string ∧ b.type = .string)) :
    op.apply a b =
      match op with
      | .equal => .boolean (a.same b)
      | .notEqual => .boolean !a.same b
      | op =>
        if a.type = b.type then (Fault.unknownBinary op a.type b.type).value
        else (Fault.typeMismatch op a.type b.type).value := by
  unfold BinaryOp.apply
  split
  · exact absurd ⟨rfl, rfl⟩ integers
  · exact absurd ⟨rfl, rfl⟩ strings
  · rfl

theorem BinaryOp.apply_related (op : BinaryOp) (separates : Closure.Separates R)
    (h : v.Related R w) (h' : v'.Related R w') : (op.apply v v').Related R (op.apply w w') := by
  by_cases integers : v.type = .integer ∧ v'.type = .integer
  · obtain ⟨⟨m, rfl⟩, ⟨n, rfl⟩⟩ := integers.imp Value.type_eq_integer.1 Value.type_eq_integer.1
    cases h
    cases h'
    exact op.onIntegers_related m n
  by_cases strings : v.type = .string ∧ v'.type = .string
  · obtain ⟨⟨s, rfl⟩, ⟨t, rfl⟩⟩ := strings.imp Value.type_eq_string.1 Value.type_eq_string.1
    cases h
    cases h'
    exact op.onStrings_related s t
  rw [op.apply_mixed integers strings, op.apply_mixed (by rwa [h.type_eq, h'.type_eq])
    (by rwa [h.type_eq, h'.type_eq]), h.same_eq separates h', h.type_eq, h'.type_eq]
  split
  · exact .boolean _
  · exact .boolean _
  · split <;> exact .error _

/-! ### Indexing -/

theorem Value.getD_related {found found' : Option Value}
    (h : Option.Rel (Value.Related R) found found') (fault : Fault) :
    (found.getD fault.value).Related R (found'.getD fault.value) := by
  cases h with
  | none => exact .error _
  | some h => exact h

theorem getElem?_related {α β : Type} {R : α → β → Prop} {as : List α} {bs : List β}
    (h : List.Forall₂ R as bs) (i : Nat) : Option.Rel R as[i]? bs[i]? := by
  induction h generalizing i with
  | nil => exact .none
  | cons first _ ih =>
    cases i with
    | zero => exact .some first
    | succ i => exact ih i

theorem elementAt_related {vs ws : List Value} (h : List.Forall₂ (Value.Related R) vs ws)
    (position : Int64) : (elementAt vs position).Related R (elementAt ws position) := by
  unfold elementAt
  rw [h.length_eq]
  refine Value.getD_related ?_ _
  split
  · exact getElem?_related h _
  · exact .none

theorem entryAt_related {table image : List (HashKey × Value)}
    (entries : Table.Related (Value.Related R) table image) (h : v.Related R w) :
    (entryAt table v).Related R (entryAt image w) := by
  unfold entryAt
  rw [h.hashKey?_eq, h.type_eq]
  split
  · exact .error _
  · exact Value.getD_related (entries.get? _) _

theorem Value.at_related (h : v.Related R w) (h' : v'.Related R w') :
    (v.at v').Related R (w.at w') := by
  cases h with
  | array elements =>
    cases h' with
    | integer n => exact elementAt_related elements n
    | _ => exact .error _
  | hash entries => exact entryAt_related entries h'
  | _ => exact .error _

/-! ### Builtins -/

namespace Builtin

theorem onArray_related (builtin : Builtin) (h : v.Related R w) {f g : List Value → Value}
    (made : ∀ vs ws, List.Forall₂ (Value.Related R) vs ws → (f vs).Related R (g ws)) :
    (onArray builtin v f).Related R (onArray builtin w g) := by
  cases h with
  | array elements => exact made _ _ elements
  | _ => exact .error _

theorem apply_of_length_ne {builtin : Builtin} {args : List Value}
    (wrong : args.length ≠ builtin.arity) :
    builtin.apply args = (Fault.builtinArgumentCount args.length builtin.arity).value := by
  unfold apply
  split
  case h_6 => rfl
  all_goals exact absurd rfl wrong

theorem apply_related (builtin : Builtin) {vs ws : List Value}
    (h : List.Forall₂ (Value.Related R) vs ws) :
    (builtin.apply vs).Related R (builtin.apply ws) := by
  by_cases right : vs.length = builtin.arity
  · cases builtin with
    | len =>
      match vs, ws, h, right with
      | [v], [w], .cons operand .nil, _ =>
        change (length v).Related R (length w)
        cases operand with
        | string s => exact .integer _
        | array elements =>
          simp only [length, elements.length_eq]
          exact .integer _
        | _ => exact .error _
    | first =>
      match vs, ws, h, right with
      | [v], [w], .cons array .nil, _ =>
        refine onArray_related .first array fun vs ws elements => ?_
        cases elements with
        | nil => exact .null
        | cons first _ => exact first
    | last =>
      match vs, ws, h, right with
      | [v], [w], .cons array .nil, _ =>
        refine onArray_related .last array fun vs ws elements => ?_
        have found := getElem?_related elements (vs.length - 1)
        simp only [List.getLast?_eq_getElem?, ← elements.length_eq]
        generalize vs[vs.length - 1]? = a, ws[vs.length - 1]? = b at found ⊢
        cases found with
        | none => exact .null
        | some h => exact h
    | rest =>
      match vs, ws, h, right with
      | [v], [w], .cons array .nil, _ =>
        refine onArray_related .rest array fun vs ws elements => ?_
        cases elements with
        | nil => exact .null
        | cons _ rest => exact .array rest
    | push =>
      match vs, ws, h, right with
      | [v, v'], [w, w'], .cons array (.cons extra .nil), _ =>
        refine onArray_related .push array fun vs ws elements => ?_
        exact .array (List.rel_append elements (.cons extra .nil))
  · rw [apply_of_length_ne right, apply_of_length_ne (h.length_eq ▸ right), h.length_eq]
    exact .error _

end Builtin

/-! ### Functions with a property -/

-- A property of all functions in the operands is the relation of each to itself.
section

variable {p : Closure → Prop}

theorem Value.all_fault (fault : Fault) : fault.value.All p := Value.all_of_closures rfl

theorem UnaryOp.apply_all (op : UnaryOp) (h : v.All p) : (op.apply v).All p :=
  (op.apply_related h.self).all_of_self

theorem BinaryOp.apply_all (op : BinaryOp) (h : v.All p) (h' : w.All p) : (op.apply v w).All p := by
  refine (op.apply_related ?_ h.self h'.self).all_of_self
  rintro f _ f' _ ⟨rfl, -⟩ ⟨rfl, -⟩
  rfl

theorem Value.All.at (h : v.All p) (h' : w.All p) : (v.at w).All p :=
  (Value.at_related h.self h'.self).all_of_self

theorem Builtin.apply_all (builtin : Builtin) {args : List Value} (h : ∀ v ∈ args, v.All p) :
    (builtin.apply args).All p :=
  (builtin.apply_related (List.forall₂_same.2 fun v member => (h v member).self)).all_of_self

theorem Value.All.arrived (h : v.All p) : v.arrived.All p := h.self.arrived.all_of_self

end

end MonkeyLanguage
