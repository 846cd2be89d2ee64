import MonkeyLanguage.Proofs.Syntax.RoundTrip
import MonkeyLanguage.Proofs.Token.Maximal

/-!
# What is read is printable

The literal of a token keeps what the kind of the token promises. A reading hands these promises on
to the tree, and to the tokens that it leaves, also when it fails: a statement that is dropped takes
its tree with it, and those after it are read from proper tokens again.
-/

namespace MonkeyLanguage

/-! ### Proper tokens -/

/-- An identifier is a name, and a string holds no quote. -/
def Token.Proper (t : Token) : Prop :=
  (t.kind = .identifier → IsName t.literal) ∧ (t.kind = .string → '"' ∉ t.literal.toList)

theorem Spells.isName {text : List Char} (spelled : Spells .identifier text) :
    isWord text = true ∧ text ∉ keywords.map Prod.fst := by
  have noSymbol : ∀ entry ∈ symbols, entry.2 ≠ .identifier := by decide
  have noKeyword : ∀ entry ∈ keywords, entry.2 ≠ .identifier := by decide
  cases spelled with
  | symbol listed => exact absurd rfl (noSymbol _ listed)
  | keyword listed => exact absurd rfl (noKeyword _ listed)
  | name word ordinary => exact ⟨word, ordinary⟩

theorem Munches.proper {ahead : List Char} {t : Token} (h : Munches ahead t) : t.Proper := by
  cases h with
  | longest spelled =>
    refine ⟨fun name => ?_, fun string => ?_⟩
    · have written : t.written = t.literal.toList := by simp [Token.written, name]
      rw [name, written] at spelled
      exact spelled.isName
    · rw [string] at spelled
      obtain ⟨inside, plain, written⟩ := spelled.string
      rw [Token.written, if_pos string] at written
      obtain rfl := List.append_cancel_right (List.cons.inj written).2
      exact plain
  | unterminated | other => simp [Token.Proper]

/-- Every token is proper. -/
def Proper (ts : List Token) : Prop := ∀ t ∈ ts, t.Proper

namespace Proper

variable {t : Token} {ts : List Token}

theorem nil : Proper [] := by simp [Proper]

theorem cons_iff : Proper (t :: ts) ↔ t.Proper ∧ Proper ts := List.forall_mem_cons

theorem of_suffix {more : List Token} (proper : Proper ts) (suffix : more <:+ ts) : Proper more :=
  fun t member => proper t (suffix.mem member)

theorem tail (proper : Proper ts) : Proper ts.tail := proper.of_suffix ts.tail_suffix

theorem skipSemicolon (proper : Proper ts) : Proper (Parser.skipSemicolon ts) := by
  unfold Parser.skipSemicolon
  split
  · exact nil
  · split
    · exact (cons_iff.1 proper).2
    · exact proper

end Proper

theorem Splits.proper {source : List Char} {ts : List Token} (h : Splits source ts) :
    Proper ts := by
  induction h with
  | ends => exact .nil
  | token _ _ munched _ ih => exact Proper.cons_iff.2 ⟨munched.proper, ih⟩

/-! ### Readings -/

/-- Everything in the tree can be written. -/
abbrev Expr.Printable : Expr → Prop := Expr.Every Expr.IsPrintable Stmt.IsPrintable

abbrev Expr.AllPrintable : List Expr → Prop := Expr.EveryIn Expr.IsPrintable Stmt.IsPrintable

abbrev Expr.PairsPrintable : List (Expr × Expr) → Prop :=
  Expr.EveryPair Expr.IsPrintable Stmt.IsPrintable

abbrev Stmt.Printable : Stmt → Prop := Stmt.Every Expr.IsPrintable Stmt.IsPrintable

theorem Decimal.toInt64?_nonneg {digits : List Char} {value : Int64}
    (converted : Decimal.toInt64? digits = some value) : 0 ≤ value.toInt := by
  simp only [Decimal.toInt64?, Option.ite_none_right_eq_some, Option.some.injEq] at converted
  obtain ⟨small, rfl⟩ := converted
  rw [Int64.toInt_ofNat_of_lt (by rw [Decimal.int64Max] at small; omega)]
  exact Int.natCast_nonneg _

/-- What is read satisfies `p`, if anything is, and the tokens left are proper in any case. -/
structure Reading.Meets {α : Type} {start : List Token} (r : Reading α start) (p : α → Prop) :
    Prop where
  result : ∀ a, r.result = .ok a → p a
  rest : Proper r.rest

namespace Reading

variable {α β : Type} {first start : List Token} {p : α → Prop} {q : β → Prop}

theorem done_meets {a : α} {rest : List Token} {h : Within rest start} (holds : p a)
    (proper : Proper rest) : (done a rest h).Meets p :=
  ⟨fun _ same => Except.ok.inj same ▸ holds, proper⟩

theorem fail_meets {e : ParseError} {rest : List Token} {h : Within rest start}
    (proper : Proper rest) : (fail e rest h : Reading α start).Meets p :=
  ⟨nofun, proper⟩

theorem Meets.andThen {r : Reading α first} (meets : r.Meets p) {h : Within first start}
    {next : α → (rest : List Token) → Within rest first → Reading β start}
    (further : ∀ a rest le, p a → Proper rest → (next a rest le).Meets q) :
    (r.andThen h next).Meets q := by
  obtain ⟨result, dropped, rest, within⟩ := r
  cases result with
  | ok a =>
    have after := further a rest within (meets.result a rfl) meets.rest
    exact ⟨after.result, after.rest⟩
  | error e => exact ⟨nofun, meets.rest⟩

theorem Meets.map {r : Reading α start} (meets : r.Meets p) {f : α → β}
    (preserved : ∀ a, p a → q (f a)) : (r.map f).Meets q := by
  obtain ⟨result, dropped, rest, within⟩ := r
  cases result with
  | ok a =>
    refine ⟨?_, meets.rest⟩
    rintro _ ⟨⟩
    exact preserved a (meets.result a rfl)
  | error e => exact ⟨nofun, meets.rest⟩

theorem Meets.before {r : Reading α first} (meets : r.Meets p) {ps : List α → Prop}
    (cons : ∀ a more, p a → ps more → ps (a :: more))
    {next : (rest : List Token) → Within rest first → Reading (List α) start}
    (further : ∀ rest le, Proper rest → (next rest le).Meets ps) : (r.before next).Meets ps := by
  obtain ⟨result, dropped, rest, within⟩ := r
  have after := further rest within meets.rest
  cases result with
  | ok a =>
    have joined := after.map fun more => cons a more (meets.result a rfl)
    exact ⟨joined.result, joined.rest⟩
  | error e => exact ⟨after.result, after.rest⟩

end Reading

namespace Parser

variable {α : Type} {start : List Token} {p : α → Prop}

theorem expect_meets {kind : TokenKind} {tokens : List Token} {h : Within tokens start}
    {next : Token → (rest : List Token) → rest.length < tokens.length → Reading α start}
    (proper : Proper tokens)
    (further : ∀ t rest lt, t.kind = kind → t.Proper → Proper rest → (next t rest lt).Meets p) :
    (expect kind tokens h next).Meets p := by
  cases tokens with
  | nil => exact Reading.fail_meets proper
  | cons t rest =>
    rw [expect]
    split
    · rename_i found
      obtain ⟨here, behind⟩ := Proper.cons_iff.1 proper
      exact further t rest _ found here behind
    · exact Reading.fail_meets proper

theorem moreParams_meets {tokens : List Token} {h : Within tokens start}
    (proper : Proper tokens) : (moreParams tokens h).Meets fun names => ∀ n ∈ names, IsName n := by
  unfold moreParams
  split
  · refine expect_meets (Proper.cons_iff.1 proper).2 fun name rest lt kind here behind => ?_
    exact (moreParams_meets behind).map fun names others =>
      List.forall_mem_cons.2 ⟨here.1 kind, others⟩
  · exact expect_meets proper fun _ _ _ _ _ behind => Reading.done_meets (by simp) behind
termination_by tokens.length
decreasing_by subst_vars; simp only [List.length_cons]; omega

theorem params_meets {tokens : List Token} {h : Within tokens start} (proper : Proper tokens) :
    (params tokens h).Meets fun names => ∀ n ∈ names, IsName n := by
  unfold params
  split
  · exact Reading.done_meets (by simp) proper.tail
  · refine expect_meets proper fun name rest lt kind here behind => ?_
    exact (moreParams_meets behind).map fun names others =>
      List.forall_mem_cons.2 ⟨here.1 kind, others⟩

mutual

theorem expression_meets (floor : Precedence) {tokens start : List Token}
    (h : Within tokens start) (proper : Proper tokens) :
    (expression floor tokens h).Meets Expr.Printable := by
  unfold expression
  cases tokens with
  | nil => exact Reading.fail_meets proper
  | cons t rest =>
    obtain ⟨here, behind⟩ := Proper.cons_iff.1 proper
    exact expressionFrom_meets floor _ here behind
termination_by 8 * tokens.length
decreasing_by subst_vars; simp only [List.length_cons]; omega

theorem expressionFrom_meets (floor : Precedence) {t : Token} {tokens start : List Token}
    (h : Within tokens start) (here : t.Proper) (proper : Proper tokens) :
    (expressionFrom floor t tokens h).Meets Expr.Printable := by
  unfold expressionFrom
  exact (operand_meets _ here proper).andThen fun left rest le printable behind =>
    climb_meets floor _ printable behind
termination_by 8 * tokens.length + 4
decreasing_by all_goals omega

theorem climb_meets (floor : Precedence) {left : Expr} {tokens start : List Token}
    (h : Within tokens start) (printable : left.Printable) (proper : Proper tokens) :
    (climb floor left tokens h).Meets Expr.Printable := by
  unfold climb
  cases tokens with
  | nil => exact Reading.done_meets printable proper
  | cons t rest =>
    have behind := (Proper.cons_iff.1 proper).2
    simp only
    split
    · exact Reading.done_meets printable proper
    · split
      · split
        · refine (items_meets _ _ behind).andThen fun args rest₁ le inside behind₁ => ?_
          exact climb_meets floor _ ⟨trivial, printable, inside⟩ behind₁
        · refine (expression_meets _ _ behind).andThen fun position rest₁ le inside behind₁ => ?_
          refine expect_meets behind₁ fun _ rest₂ lt _ _ behind₂ => ?_
          exact climb_meets floor _ ⟨trivial, printable, inside⟩ behind₂
        · refine (expression_meets _ _ behind).andThen fun right rest₁ le inside behind₁ => ?_
          exact climb_meets floor _ ⟨trivial, printable, inside⟩ behind₁
      · exact Reading.done_meets printable proper
termination_by 8 * tokens.length
decreasing_by all_goals subst_vars; simp only [List.length_cons]; omega

theorem operand_meets {t : Token} {tokens start : List Token} (h : Within tokens start)
    (here : t.Proper) (proper : Proper tokens) :
    (operand t tokens h).Meets Expr.Printable := by
  unfold operand
  -- The cases are the kinds of `t`, in the order in which `operand` lists them.
  split
  · rename_i kind
    exact Reading.done_meets (here.1 kind) proper
  · split
    · rename_i value converted
      exact Reading.done_meets (Decimal.toInt64?_nonneg converted) proper
    · exact Reading.fail_meets proper
  · rename_i kind
    exact Reading.done_meets (here.2 kind) proper
  · exact Reading.done_meets trivial proper
  · exact Reading.done_meets trivial proper
  · exact (expression_meets _ _ proper).map fun _ inside => ⟨trivial, inside⟩
  · exact (expression_meets _ _ proper).map fun _ inside => ⟨trivial, inside⟩
  · refine (expression_meets _ _ proper).andThen fun inner rest le inside behind => ?_
    exact expect_meets behind fun _ _ _ _ _ behind₁ => Reading.done_meets inside behind₁
  · exact conditional_meets _ proper
  · refine expect_meets proper fun _ rest₁ lt₁ _ _ behind₁ => ?_
    refine (params_meets behind₁).andThen fun names rest₂ le₂ declared behind₂ => ?_
    refine expect_meets behind₂ fun _ rest₃ lt₃ _ _ behind₃ => ?_
    exact (block_meets _ behind₃).map fun _ inside => ⟨declared, inside⟩
  · exact (items_meets _ _ proper).map fun _ inside => ⟨trivial, inside⟩
  · exact (pairs_meets _ proper).map fun _ inside => ⟨trivial, inside⟩
  · exact Reading.fail_meets proper
termination_by 8 * tokens.length + 3
decreasing_by all_goals omega

theorem conditional_meets {tokens start : List Token} (h : Within tokens start)
    (proper : Proper tokens) : (conditional tokens h).Meets Expr.Printable := by
  unfold conditional
  refine expect_meets proper fun _ rest₁ lt₁ _ _ behind₁ => ?_
  refine (expression_meets _ _ behind₁).andThen fun condition rest₂ le₂ tested behind₂ => ?_
  refine expect_meets behind₂ fun _ rest₃ lt₃ _ _ behind₃ => ?_
  refine expect_meets behind₃ fun _ rest₄ lt₄ _ _ behind₄ => ?_
  refine (block_meets _ behind₄).andThen fun consequence rest₅ le₅ taken behind₅ => ?_
  simp only
  split
  · refine expect_meets behind₅.tail fun _ rest₆ lt₆ _ _ behind₆ => ?_
    exact (block_meets _ behind₆).map fun _ otherwise => ⟨trivial, tested, taken, otherwise⟩
  · exact Reading.done_meets ⟨trivial, tested, taken, trivial⟩ behind₅
termination_by 8 * tokens.length + 2
decreasing_by all_goals (try simp only [List.length_tail] at *); omega

theorem items_meets (closing : TokenKind) {tokens start : List Token} (h : Within tokens start)
    (proper : Proper tokens) : (items closing tokens h).Meets Expr.AllPrintable := by
  unfold items
  split
  · exact Reading.done_meets trivial proper.tail
  · refine (expression_meets _ _ proper).andThen fun first rest le inside behind => ?_
    exact (moreItems_meets _ _ behind).map fun _ others => ⟨inside, others⟩
termination_by 8 * tokens.length + 2
decreasing_by all_goals omega

theorem moreItems_meets (closing : TokenKind) {tokens start : List Token}
    (h : Within tokens start) (proper : Proper tokens) :
    (moreItems closing tokens h).Meets Expr.AllPrintable := by
  unfold moreItems
  split
  · refine (expression_meets _ _ (Proper.cons_iff.1 proper).2).andThen
      fun item rest₁ le inside behind => ?_
    exact (moreItems_meets _ _ behind).map fun _ others => ⟨inside, others⟩
  · exact expect_meets proper fun _ _ _ _ _ behind => Reading.done_meets trivial behind
termination_by 8 * tokens.length
decreasing_by all_goals subst_vars; simp only [List.length_cons]; omega

theorem pairs_meets {tokens start : List Token} (h : Within tokens start)
    (proper : Proper tokens) : (pairs tokens h).Meets Expr.PairsPrintable := by
  unfold pairs
  split
  · exact Reading.done_meets trivial proper.tail
  · refine (expression_meets _ _ proper).andThen fun key rest₁ le₁ first behind₁ => ?_
    refine expect_meets behind₁ fun _ rest₂ lt₂ _ _ behind₂ => ?_
    refine (expression_meets _ _ behind₂).andThen fun value rest₃ le₃ second behind₃ => ?_
    simp only
    split
    · exact Reading.done_meets ⟨first, second, trivial⟩ behind₃.tail
    · refine expect_meets behind₃ fun _ rest₄ lt₄ _ _ behind₄ => ?_
      exact (pairs_meets _ behind₄).map fun _ others => ⟨first, second, others⟩
termination_by 8 * tokens.length + 2
decreasing_by all_goals omega

theorem block_meets {tokens start : List Token} (h : Within tokens start)
    (proper : Proper tokens) : (block tokens h).Meets Program.Printable := by
  unfold block
  cases tokens with
  | nil => exact Reading.fail_meets proper
  | cons t rest =>
    obtain ⟨here, behind⟩ := Proper.cons_iff.1 proper
    simp only
    split
    · exact Reading.done_meets trivial behind
    · exact (statement_meets _ here behind).before (fun _ _ first others => ⟨first, others⟩)
        fun rest₁ le behind₁ => block_meets _ behind₁
termination_by 8 * tokens.length + 1
decreasing_by all_goals subst_vars; simp only [List.length_cons]; omega

theorem statement_meets {t : Token} {tokens start : List Token} (h : Within tokens start)
    (here : t.Proper) (proper : Proper tokens) :
    (statement t tokens h).Meets Stmt.Printable := by
  unfold statement
  split
  · refine expect_meets proper fun name rest₁ lt₁ kind named behind₁ => ?_
    refine expect_meets behind₁ fun _ rest₂ lt₂ _ _ behind₂ => ?_
    refine (expression_meets _ _ behind₂).andThen fun value rest₃ le₃ given behind₃ => ?_
    exact Reading.done_meets ⟨named.1 kind, given⟩ behind₃.skipSemicolon
  · refine (expression_meets _ _ proper).andThen fun value rest le returned behind => ?_
    exact Reading.done_meets ⟨trivial, returned⟩ behind.skipSemicolon
  · refine (expressionFrom_meets _ _ here proper).andThen fun value rest le read behind => ?_
    exact Reading.done_meets ⟨trivial, read⟩ behind.skipSemicolon
termination_by 8 * tokens.length + 5
decreasing_by all_goals omega

end

theorem program_printable {tokens : List Token} (proper : Proper tokens) :
    (program tokens).1.Printable := by
  cases tokens with
  | nil =>
    rw [program]
    trivial
  | cons t rest =>
    rw [program]
    obtain ⟨here, behind⟩ := Proper.cons_iff.1 proper
    have first := statement_meets (.refl rest) here behind
    have others := program_printable first.rest
    simp only
    split
    · rename_i s read
      exact ⟨first.result s read, others⟩
    · exact others
termination_by tokens.length
decreasing_by subst_vars; exact Nat.lt_succ_of_le (Reading.within _)

end Parser

/-- Also where the text has errors, and from wherever in it the parser starts. -/
theorem parse_makes_printable (source : String) :
    (parse source).1.Printable ∧
      ∀ k, Program.Printable (Parser.program ((tokens source).drop k)).1 := by
  have proper : Proper (tokens source) := (splits_lexemes source.toList).proper
  exact ⟨Parser.program_printable proper, fun k =>
    Parser.program_printable (proper.of_suffix (List.drop_suffix k _))⟩

end MonkeyLanguage
