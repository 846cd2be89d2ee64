import MonkeyLanguage.Proofs.Syntax.Completeness

/-!
# How operators group

The parser reads a chain of operands from the left, and goes back for what binds tighter. `Groups`
describes the same tree from the outside: the loosest operator of the chain, and of several the one
furthest to the right, stands at the root, and what is on its sides groups in the same way.
-/

namespace MonkeyLanguage

/-! ### Splitting a chain -/

inductive Groups : Expr → List (BinaryOp × Expr) → Expr → Prop
  | leaf (operand : Expr) : Groups operand [] operand
  | split {first next left right : Expr} {op : BinaryOp} {before after : List (BinaryOp × Expr)}
      (lowest : ∀ p ∈ before, op.precedence.level ≤ p.1.precedence.level)
      (rightmost : ∀ p ∈ after, op.precedence.level < p.1.precedence.level)
      (onLeft : Groups first before left) (onRight : Groups next after right) :
      Groups first (before ++ (op, next) :: after) (.binary op left right)

theorem exists_split {rest : List (BinaryOp × Expr)} (nonempty : rest ≠ []) :
    ∃ before op next after, rest = before ++ (op, next) :: after ∧
      (∀ p ∈ before, op.precedence.level ≤ p.1.precedence.level) ∧
      ∀ p ∈ after, op.precedence.level < p.1.precedence.level := by
  induction rest with
  | nil => exact absurd rfl nonempty
  | cons p rest ih =>
    obtain ⟨op, next⟩ := p
    by_cases last : rest = []
    · subst last
      exact ⟨[], op, next, [], rfl, by simp, by simp⟩
    · obtain ⟨before, op', next', after, rfl, lowest, rightmost⟩ := ih last
      -- The first operator moves the root only if it is looser than all the others.
      by_cases looser : op.precedence.level < op'.precedence.level
      · refine ⟨[], op, next, before ++ (op', next') :: after, rfl, by simp, fun p member => ?_⟩
        simp only [List.mem_append, List.mem_cons] at member
        rcases member with inside | rfl | inside
        · exact Nat.lt_of_lt_of_le looser (lowest p inside)
        · exact looser
        · exact Nat.lt_trans looser (rightmost p inside)
      · refine ⟨(op, next) :: before, op', next', after, rfl, ?_, rightmost⟩
        exact List.forall_mem_cons.2 ⟨Nat.not_lt.1 looser, lowest⟩

/-! ### The spine -/

namespace Spine

/-- The operator that a spine begins with, if it has any, binds at least this tightly. -/
def Tight (level : Nat) : Spine → Prop
  | leaf _ => True
  | node _ op _ => level ≤ op.precedence.level

theorem Tight.extend {level : Nat} {s : Spine} (tight : s.Tight level) {p : BinaryOp × Expr}
    (tight' : level ≤ p.1.precedence.level) : (s.extend p).Tight level := by
  cases s with
  | leaf operand => exact tight'
  | node left op right =>
    rw [Spine.extend]
    split
    · exact tight
    · exact tight'

theorem Tight.foldl_extend {level : Nat} {s : Spine} (tight : s.Tight level)
    {rest : List (BinaryOp × Expr)} (tight' : ∀ p ∈ rest, level ≤ p.1.precedence.level) :
    (rest.foldl Spine.extend s).Tight level := by
  induction rest generalizing s with
  | nil => exact tight
  | cons p rest ih =>
    obtain ⟨here, behind⟩ := List.forall_mem_cons.1 tight'
    exact ih (tight.extend here) behind

/-- An operator takes all that is at least as tight as its left operand. -/
theorem Tight.extend_eq {s : Spine} {op : BinaryOp} (tight : s.Tight op.precedence.level)
    (next : Expr) : s.extend (op, next) = .node s.expr op (.leaf next) := by
  cases s with
  | leaf operand => rfl
  | node left op' right =>
    have tight : op.precedence.level ≤ op'.precedence.level := tight
    rw [Spine.extend, if_neg (by omega)]

end Spine

theorem chain_append_cons {before after : List (BinaryOp × Expr)} {op : BinaryOp}
    (lowest : ∀ p ∈ before, op.precedence.level ≤ p.1.precedence.level)
    (rightmost : ∀ p ∈ after, op.precedence.level < p.1.precedence.level) (first next : Expr) :
    chain first (before ++ (op, next) :: after) =
      .binary op (chain first before) (chain next after) := by
  have start : (Spine.leaf first).Tight op.precedence.level := trivial
  have tight := start.foldl_extend lowest
  rw [chain, List.foldl_append, List.foldl_cons, tight.extend_eq, foldl_extend_node rightmost]
  rfl

theorem Groups.eq_chain {first tree : Expr} {rest : List (BinaryOp × Expr)}
    (h : Groups first rest tree) : tree = chain first rest := by
  induction h with
  | leaf operand => rfl
  | split lowest rightmost _ _ ih ih' =>
    rw [chain_append_cons lowest rightmost, ← ih, ← ih']

theorem groups_chain (first : Expr) (rest : List (BinaryOp × Expr)) :
    Groups first rest (chain first rest) := by
  induction size : rest.length using Nat.strongRecOn generalizing first rest with
  | ind _ ih =>
    by_cases empty : rest = []
    · subst empty
      exact .leaf first
    · obtain ⟨before, op, next, after, rfl, lowest, rightmost⟩ := exists_split empty
      simp only [List.length_append, List.length_cons] at size
      rw [chain_append_cons lowest rightmost]
      exact .split lowest rightmost (ih _ (by omega) first before rfl)
        (ih _ (by omega) next after rfl)

/-! ### Operands and operators in a row -/

/-- Unary operators, then a primary expression with its suffixes, which are parsed as `e` alone. -/
def IsOperand (ts : List Token) (e : Expr) : Prop :=
  (∃ e', Derives ts (.unary e')) ∧ Parser.program ts = ([.expression e], [])

inductive Operations : List Token → List (BinaryOp × Expr) → Prop
  | nil : Operations [] []
  | cons {ts more : List Token} {t : Token} {op : BinaryOp} {e : Expr}
      {rest : List (BinaryOp × Expr)} (operator : t.kind = op.tokenKind)
      (operand : IsOperand ts e) (operations : Operations more rest) :
      Operations (t :: ts ++ more) ((op, e) :: rest)

theorem program_eq_of_expression {ts : List Token} {e : Expr} (h : Derives ts (.expression e)) :
    Parser.program ts = ([.expression e], []) := by
  have alone : Derives (ts ++ []) (.statements [.expression e]) :=
    .unclosed (.bare h) nofun .noStatement
  rw [List.append_nil] at alone
  exact (Parser.accepts_of_derives alone).1

theorem isOperand_iff {ts : List Token} {e : Expr} :
    IsOperand ts e ↔ Derives ts (.unary e) := by
  have read : ∀ e', Derives ts (.unary e') → Parser.program ts = ([.expression e'], []) :=
    fun e' unary => program_eq_of_expression unary.alone
  constructor
  · rintro ⟨⟨e', unary⟩, parsed⟩
    rw [read e' unary] at parsed
    obtain rfl : e' = e := by simpa using parsed
    exact unary
  · exact fun unary => ⟨⟨e, unary⟩, read e unary⟩

theorem Operations.derives {ts : List Token} {rest : List (BinaryOp × Expr)}
    (h : Operations ts rest) : Derives ts (.operations rest) := by
  induction h with
  | nil => exact .noOperation
  | cons operator operand _ ih => exact .operation operator (isOperand_iff.1 operand) ih

/-- A chain is read without errors, as the one tree that splitting it gives. -/
theorem chain_parses_by_splitting {ts more : List Token} {first : Expr}
    {rest : List (BinaryOp × Expr)} (operand : IsOperand ts first)
    (operations : Operations more rest) :
    ∃ tree, Parser.program (ts ++ more) = ([.expression tree], []) ∧
      ∀ tree', Groups first rest tree' ↔ tree' = tree := by
  refine ⟨chain first rest, ?_, fun tree' => ⟨Groups.eq_chain, ?_⟩⟩
  · exact program_eq_of_expression (.expression (isOperand_iff.1 operand) operations.derives)
  · rintro rfl
    exact groups_chain first rest

/-- The loosest operator is the root, and of the two signs on its left the second one. -/
theorem chain_parses_by_splitting_signs :
    IsOperand [⟨.identifier, "a"⟩] (.identifier "a") ∧
      Operations [⟨.minus, "-"⟩, ⟨.identifier, "b"⟩, ⟨.minus, "-"⟩, ⟨.minus, "-"⟩,
          ⟨.identifier, "c"⟩, ⟨.less, "<"⟩, ⟨.identifier, "d"⟩]
        [(.minus, .identifier "b"), (.minus, .unary .negate (.identifier "c")),
          (.lessThan, .identifier "d")] ∧
      parse "a - b - -c < d" = ([.expression (.binary .lessThan
        (.binary .minus (.binary .minus (.identifier "a") (.identifier "b"))
          (.unary .negate (.identifier "c"))) (.identifier "d"))], []) := by
  have name (literal : String) : Derives [⟨.identifier, literal⟩] (.unary (.identifier literal)) :=
    .suffixed (.identifier rfl) .noSuffix
  have first : IsOperand [⟨.identifier, "a"⟩] (.identifier "a") := isOperand_iff.2 (name "a")
  have operations : Operations [⟨.minus, "-"⟩, ⟨.identifier, "b"⟩, ⟨.minus, "-"⟩, ⟨.minus, "-"⟩,
      ⟨.identifier, "c"⟩, ⟨.less, "<"⟩, ⟨.identifier, "d"⟩]
      [(.minus, .identifier "b"), (.minus, .unary .negate (.identifier "c")),
        (.lessThan, .identifier "d")] :=
    .cons rfl (isOperand_iff.2 (name "b"))
      (.cons rfl (isOperand_iff.2 (.unary rfl (name "c")))
        (.cons rfl (isOperand_iff.2 (name "d")) .nil))
  obtain ⟨tree, read, only⟩ := chain_parses_by_splitting first operations
  have inner : Groups (.identifier "a") ([] ++ (.minus, .identifier "b") :: [])
      (.binary .minus (.identifier "a") (.identifier "b")) :=
    .split (by simp) (by simp) (.leaf _) (.leaf _)
  have signs : Groups (.identifier "a")
      ([(.minus, .identifier "b")] ++ (.minus, .unary .negate (.identifier "c")) :: [])
      (.binary .minus (.binary .minus (.identifier "a") (.identifier "b"))
        (.unary .negate (.identifier "c"))) :=
    .split (by simp) (by simp) inner (.leaf _)
  have whole : Groups (.identifier "a")
      ([(.minus, .identifier "b"), (.minus, .unary .negate (.identifier "c"))] ++
        (.lessThan, .identifier "d") :: [])
      (.binary .lessThan (.binary .minus (.binary .minus (.identifier "a") (.identifier "b"))
        (.unary .negate (.identifier "c"))) (.identifier "d")) :=
    .split (by decide) (by simp) signs (.leaf _)
  obtain rfl := (only _).1 whole
  have scanned : tokens "a - b - -c < d" = [⟨.identifier, "a"⟩, ⟨.minus, "-"⟩,
      ⟨.identifier, "b"⟩, ⟨.minus, "-"⟩, ⟨.minus, "-"⟩, ⟨.identifier, "c"⟩, ⟨.less, "<"⟩,
      ⟨.identifier, "d"⟩] := by decide +kernel
  refine ⟨first, operations, ?_⟩
  rw [parse, scanned]
  exact read

end MonkeyLanguage
