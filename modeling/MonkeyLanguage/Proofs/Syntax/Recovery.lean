import MonkeyLanguage.Proofs.Syntax.Accounting
import MonkeyLanguage.Proofs.Syntax.Soundness
import MonkeyLanguage.Proofs.Token.Maximal

/-!
# Every dropped statement is reported once

Phrase by phrase, the machine does what the parser does. So it reads every source to the end, each
statement that it drops is accounted for by one error, and the errors are those of the parser.
-/

namespace MonkeyLanguage

/-! ### Operators -/

namespace RawParser

theorem infixPrecedence_eq (kind : TokenKind) :
    infixPrecedence kind = (kind.continuation?.map Continuation.precedence).getD .lowest := by
  cases kind <;> rfl

theorem infixOperator?_eq {kind : TokenKind} {op : BinaryOp}
    (next : kind.continuation? = some (.binary op)) : infixOperator? kind = some op := by
  obtain rfl := continuation?_eq_binary.1 next
  cases op <;> rfl

/-- The loop goes on where an operator or a bracket binds tighter, and no semicolon does. -/
theorem goesOn_iff {floor : Precedence} {kind : TokenKind} :
    (kind ≠ .semicolon ∧ floor.level < (infixPrecedence kind).level) ↔
      ∃ next, kind.continuation? = some next ∧ floor.level < next.precedence.level := by
  rw [infixPrecedence_eq]
  cases announced : kind.continuation? with
  | none => simp [Precedence.level]
  | some next =>
    have noSemicolon : kind ≠ .semicolon := by
      rintro rfl
      cases announced
    simp [noSemicolon]

/-! ### Phrases -/

variable {start tokens : List Token} {s : RawParser}

theorem headKind_ne {kind : TokenKind} {h : Within tokens start}
    (other : ∀ literal rest (h' : Within (⟨kind, literal⟩ :: rest) start),
      tokens = ⟨kind, literal⟩ :: rest → h ≍ h' → False) (proper : kind ≠ .endOfInput) :
    Parser.headKind tokens ≠ kind := by
  cases tokens with
  | nil => exact proper.symm
  | cons t rest =>
    rintro rfl
    exact other t.literal rest h rfl .rfl

/-- A list may be closed at once. -/
theorem close_mirrors {α : Type} {a : α} {h : Within tokens.tail start}
    (behind : s.ahead.tail = tokens) :
    Mirrors (do advance; return a) s (.done a tokens.tail h) tokens :=
  .advance behind (.done rfl (List.tail_suffix tokens))

theorem moreParams_mirrors (fuel : Nat) {tokens start : List Token} {h : Within tokens start}
    {s : RawParser} (whole : NoEnd tokens) (behind : s.ahead.tail = tokens)
    (room : tokens.length < fuel) :
    Mirrors (moreParams fuel) s (Parser.moreParams tokens h) tokens := by
  match fuel with
  | fuel + 1 =>
    unfold Parser.moreParams
    split
    · refine .peekIs behind rfl (.advance behind (.widen ?_ (List.suffix_cons _ _)))
      refine .expect (by decide) whole.of_cons rfl fun _ more lt whole => ?_
      refine .current rfl (moreParams_mirrors fuel whole rfl ?_).map
      simp only [List.length_cons] at room
      omega
    · rename_i other
      have noComma : Parser.headKind tokens ≠ .comma := headKind_ne other (by decide)
      refine .peekOther behind noComma (.expect (by decide) whole behind fun _ rest lt _ => ?_)
      exact .done rfl (List.suffix_refl _)

theorem params_mirrors (fuel : Nat) {h : Within tokens start} (whole : NoEnd tokens)
    (behind : s.ahead.tail = tokens) (room : tokens.length < fuel) :
    Mirrors (params fuel) s (Parser.params tokens h) tokens := by
  unfold Parser.params
  split
  · rename_i closed
    exact .peekIs behind closed (close_mirrors behind)
  · rename_i other
    refine .peekOther behind other (.expect (by decide) whole behind fun _ more lt whole => ?_)
    exact .current rfl (moreParams_mirrors fuel whole rfl (by omega)).map

theorem integer_mirrors {literal : String} {h : Within tokens start}
    (behind : s.ahead.tail = tokens) :
    Mirrors (integer literal) s
      (match Decimal.toInt64? literal.toList with
      | some value => .done (.integer value) tokens h
      | none => .fail (.invalidInteger literal) tokens h) tokens := by
  rw [integer]
  cases Decimal.toInt64? literal.toList with
  | some value => exact .done behind (List.suffix_refl _)
  | none => exact .fail behind (List.suffix_refl _)

-- The induction is on the fuel. Fewer than eight calls are nested in one another before a token is
-- passed, so eight for every token ahead are enough.
mutual

theorem expression_mirrors (floor : Precedence) (fuel : Nat) {tokens start : List Token}
    {h : Within tokens start} {s : RawParser} (whole : NoEnd tokens) (here : s.ahead = tokens)
    (room : 8 * tokens.length + 1 < fuel) :
    Mirrors (expression floor fuel) s (Parser.expression floor tokens h) tokens := by
  unfold Parser.expression
  cases tokens with
  | nil =>
    obtain ⟨_, errors, attempts⟩ := s
    subst here
    match fuel with
    | fuel + 2 => exact .fail rfl (List.suffix_refl _)
  | cons t rest =>
    simp only [List.length_cons] at room
    exact (expressionFrom_mirrors floor fuel whole.of_cons here (by omega)).widen
      (List.suffix_cons t rest)
termination_by 2 * fuel + 1

theorem expressionFrom_mirrors (floor : Precedence) (fuel : Nat) {t : Token}
    {tokens start : List Token} {h : Within tokens start} {s : RawParser} (whole : NoEnd tokens)
    (here : s.ahead = t :: tokens) (room : 8 * tokens.length + 9 < fuel) :
    Mirrors (expression floor fuel) s (Parser.expressionFrom floor t tokens h) tokens := by
  match fuel with
  | fuel + 1 =>
    unfold Parser.expressionFrom
    refine (operand_mirrors fuel whole here (by omega)).andThen whole
      fun left rest le s' behind whole => ?_
    exact climb_mirrors floor fuel whole behind (by have := le; omega)
termination_by 2 * fuel

theorem climb_mirrors (floor : Precedence) (fuel : Nat) {left : Expr} {tokens start : List Token}
    {h : Within tokens start} {s : RawParser} (whole : NoEnd tokens)
    (behind : s.ahead.tail = tokens) (room : 8 * tokens.length < fuel) :
    Mirrors (climb floor left fuel) s (Parser.climb floor left tokens h) tokens := by
  match fuel with
  | fuel + 1 =>
    rw [climb]
    unfold Parser.climb
    cases tokens with
    | nil =>
      have stays : ¬ (Parser.headKind [] ≠ .semicolon ∧
          floor.level < (infixPrecedence (Parser.headKind [])).level) := by
        rw [goesOn_iff]
        rintro ⟨_, none, -⟩
        cases none
      refine .peekKind behind ?_
      rw [if_neg stays]
      exact .done behind (List.suffix_refl _)
    | cons t rest =>
      simp only [List.length_cons] at room
      refine .peekNext behind ?_
      simp only [goesOn_iff]
      cases announced : t.kind.continuation? with
      | none =>
        rw [if_neg (by simp)]
        exact .done behind (List.suffix_refl _)
      | some next =>
        simp only [Option.some.injEq, exists_eq_left']
        split
        · have whole := whole.of_cons
          refine .widen ?_ (List.suffix_cons t rest)
          cases next with
          | call =>
            rw [if_pos (continuation?_eq_call.1 announced)]
            refine .advance behind ?_
            refine (items_mirrors .rightParen (by decide) fuel whole rfl (by omega)).andThen whole
              fun args rest₁ le s' behind whole => ?_
            exact climb_mirrors floor fuel whole behind (by have := le; omega)
          | index =>
            have bracket := continuation?_eq_index.1 announced
            rw [if_neg (by rw [bracket]; decide), if_pos bracket]
            refine .advance behind (.advance rfl ?_)
            refine (expression_mirrors .lowest fuel whole rfl (by omega)).andThen whole
              fun position rest₁ le s' behind whole => ?_
            refine .expect (by decide) whole behind fun _ rest₂ lt whole => ?_
            exact climb_mirrors floor fuel whole rfl (by have := le; omega)
          | binary op =>
            have operator := infixOperator?_eq announced
            have binds : infixPrecedence t.kind = op.precedence := by
              rw [infixPrecedence_eq, announced]
              rfl
            rw [if_neg (fun paren => by simp [paren, infixOperator?] at operator),
              if_neg (fun bracket => by simp [bracket, infixOperator?] at operator), operator,
              binds]
            refine .advance behind (.advance rfl ?_)
            refine (expression_mirrors op.precedence fuel whole rfl (by omega)).andThen whole
              fun right rest₁ le s' behind whole => ?_
            exact climb_mirrors floor fuel whole behind (by have := le; omega)
        · exact .done behind (List.suffix_refl _)
termination_by 2 * fuel

theorem operand_mirrors (fuel : Nat) {t : Token} {tokens start : List Token}
    {h : Within tokens start} {s : RawParser} (whole : NoEnd tokens) (here : s.ahead = t :: tokens)
    (room : 8 * tokens.length + 8 < fuel) :
    Mirrors (operand fuel) s (Parser.operand t tokens h) tokens := by
  match fuel with
  | fuel + 1 =>
    have behind : s.ahead.tail = tokens := by rw [here]; rfl
    rw [operand]
    refine .current here ?_
    unfold Parser.operand
    cases kind : t.kind
    case identifier | string | trueWord | falseWord => exact .done behind (List.suffix_refl _)
    case integer => exact integer_mirrors behind
    case bang | minus =>
      exact .advance behind (expression_mirrors .unary fuel whole rfl (by omega)).map
    case leftParen =>
      refine .advance behind ?_
      refine (expression_mirrors .lowest fuel whole rfl (by omega)).andThen whole
        fun inner rest le s' behind whole => ?_
      exact .expect (by decide) whole behind fun _ rest lt _ => .done rfl (List.suffix_refl _)
    case ifWord => exact conditional_mirrors fuel whole behind (by omega)
    case functionWord =>
      refine .expect (by decide) whole behind fun _ rest lt whole => ?_
      refine (params_mirrors fuel whole rfl (by omega)).andThen whole
        fun names rest₂ le₂ s' behind whole => ?_
      refine .expect (by decide) whole behind fun _ rest₃ lt₃ whole => ?_
      exact (block_mirrors fuel whole rfl (by have := le₂; omega)).map
    case leftBracket =>
      exact (items_mirrors .rightBracket (by decide) fuel whole behind (by omega)).map
    case leftBrace => exact (pairs_mirrors fuel whole behind (by omega)).map
    all_goals exact .fail behind (List.suffix_refl _)
termination_by 2 * fuel

theorem conditional_mirrors (fuel : Nat) {tokens start : List Token} {h : Within tokens start}
    {s : RawParser} (whole : NoEnd tokens) (behind : s.ahead.tail = tokens)
    (room : 8 * tokens.length + 2 < fuel) :
    Mirrors (conditional fuel) s (Parser.conditional tokens h) tokens := by
  match fuel with
  | fuel + 1 =>
    unfold Parser.conditional
    refine .expect (by decide) whole behind fun _ rest₁ lt₁ whole => .advance rfl ?_
    refine (expression_mirrors .lowest fuel whole rfl (by omega)).andThen whole
      fun condition rest₂ le₂ s' behind whole => ?_
    refine .expect (by decide) whole behind fun _ rest₃ lt₃ whole => ?_
    refine .expect (by decide) whole rfl fun _ rest₄ lt₄ whole => ?_
    have := le₂
    refine (block_mirrors fuel whole rfl (by omega)).andThen whole
      fun consequence rest₅ le₅ s' behind whole => ?_
    have := le₅
    have := rest₅.length_tail
    simp only
    split
    · rename_i otherwise
      refine .peekIs behind otherwise (.advance behind (.widen ?_ (List.tail_suffix rest₅)))
      refine .expect (by decide) (whole.of_suffix (List.tail_suffix rest₅)) rfl
        fun _ rest₆ lt₆ whole => ?_
      exact (block_mirrors fuel whole rfl (by omega)).map
    · rename_i other
      exact .peekOther behind other (.done behind (List.suffix_refl _))
termination_by 2 * fuel

theorem items_mirrors (closing : TokenKind) (proper : closing ≠ .endOfInput) (fuel : Nat)
    {tokens start : List Token} {h : Within tokens start} {s : RawParser} (whole : NoEnd tokens)
    (behind : s.ahead.tail = tokens) (room : 8 * tokens.length + 2 < fuel) :
    Mirrors (items closing fuel) s (Parser.items closing tokens h) tokens := by
  match fuel with
  | fuel + 1 =>
    unfold Parser.items
    split
    · rename_i closed
      exact .peekIs behind closed (close_mirrors behind)
    · rename_i other
      refine .peekOther behind other (.advance behind ?_)
      refine (expression_mirrors .lowest fuel whole rfl (by omega)).andThen whole
        fun first rest le s' behind whole => ?_
      exact (moreItems_mirrors closing proper fuel whole behind (by have := le; omega)).map
termination_by 2 * fuel

theorem moreItems_mirrors (closing : TokenKind) (proper : closing ≠ .endOfInput) (fuel : Nat)
    {tokens start : List Token} {h : Within tokens start} {s : RawParser} (whole : NoEnd tokens)
    (behind : s.ahead.tail = tokens) (room : 8 * tokens.length < fuel) :
    Mirrors (moreItems closing fuel) s (Parser.moreItems closing tokens h) tokens := by
  match fuel with
  | fuel + 1 =>
    unfold Parser.moreItems
    split
    · simp only [List.length_cons] at room
      refine .peekIs behind rfl (.advance behind (.advance rfl (.widen ?_ (List.suffix_cons _ _))))
      refine (expression_mirrors .lowest fuel whole.of_cons rfl (by omega)).andThen whole.of_cons
        fun item rest le s' behind whole => ?_
      exact (moreItems_mirrors closing proper fuel whole behind (by have := le; omega)).map
    · rename_i other
      have noComma : Parser.headKind tokens ≠ .comma := headKind_ne other (by decide)
      refine .peekOther behind noComma (.expect proper whole behind fun _ rest lt _ => ?_)
      exact .done rfl (List.suffix_refl _)
termination_by 2 * fuel

theorem pairs_mirrors (fuel : Nat) {tokens start : List Token} {h : Within tokens start}
    {s : RawParser} (whole : NoEnd tokens) (behind : s.ahead.tail = tokens)
    (room : 8 * tokens.length + 2 < fuel) :
    Mirrors (pairs fuel) s (Parser.pairs tokens h) tokens := by
  match fuel with
  | fuel + 1 =>
    unfold Parser.pairs
    split
    · rename_i closed
      exact .peekIs behind closed
        (.expectIs behind closed (.done rfl (List.tail_suffix tokens)))
    · rename_i other
      refine .peekOther behind other (.advance behind ?_)
      refine (expression_mirrors .lowest fuel whole rfl (by omega)).andThen whole
        fun key rest₁ le₁ s' behind whole => ?_
      have := le₁
      refine .expect (by decide) whole behind fun _ rest₂ lt₂ whole => .advance rfl ?_
      refine (expression_mirrors .lowest fuel whole rfl (by omega)).andThen whole
        fun value rest₃ le₃ s' behind whole => ?_
      have := le₃
      refine .peekKind behind ?_
      simp only
      split
      · rename_i closed
        have ends : Parser.pairs rest₃ (.refl rest₃) =
            .done [] rest₃.tail (Within.refl rest₃).tail := by
          unfold Parser.pairs
          rw [if_pos closed]
        have closes := pairs_mirrors (h := .refl rest₃) fuel whole behind (by omega)
        rw [ends] at closes
        exact closes.map
      · refine .expect (by decide) whole behind fun _ rest₄ lt₄ whole => ?_
        exact (pairs_mirrors fuel whole rfl (by omega)).map
termination_by 2 * fuel

theorem block_mirrors (fuel : Nat) {tokens start : List Token} {h : Within tokens start}
    {s : RawParser} (whole : NoEnd tokens) (behind : s.ahead.tail = tokens)
    (room : 8 * tokens.length + 4 < fuel) :
    Mirrors (block fuel) s (Parser.block tokens h) tokens := by
  match fuel with
  | fuel + 1 => exact .advance behind (blockRest_mirrors fuel whole rfl (by omega))
termination_by 2 * fuel

theorem blockRest_mirrors (fuel : Nat) {tokens start : List Token} {h : Within tokens start}
    {s : RawParser} (whole : NoEnd tokens) (here : s.ahead = tokens)
    (room : 8 * tokens.length + 3 < fuel) :
    Mirrors (blockRest fuel) s (Parser.block tokens h) tokens := by
  match fuel with
  | fuel + 1 =>
    unfold Parser.block
    cases tokens with
    | nil =>
      obtain ⟨_, errors, attempts⟩ := s
      subst here
      exact .fail rfl (List.suffix_refl _)
    | cons t rest =>
      have behind : s.ahead.tail = rest := by rw [here]; rfl
      have inside : t.kind ≠ .endOfInput := (List.forall_mem_cons.1 whole).1
      simp only [List.length_cons] at room
      refine .current here ?_
      simp only
      split
      · exact .done behind (List.suffix_cons t rest)
      · refine (statement_tries fuel whole.of_cons here (by omega)).before whole
          fun rest₁ le s' here whole => ?_
        exact blockRest_mirrors fuel whole here (by have := le; omega)
termination_by 2 * fuel

theorem statement_tries (fuel : Nat) {t : Token} {tokens start : List Token}
    {h : Within tokens start} {s : RawParser} (whole : NoEnd tokens) (here : s.ahead = t :: tokens)
    (room : 8 * tokens.length + 10 < fuel) :
    Tries (statement fuel) s (Parser.statement t tokens h) (t :: tokens) := by
  match fuel with
  | fuel + 1 =>
    have behind : s.ahead.tail = tokens := by rw [here]; rfl
    rw [statement]
    refine Mirrors.tries here (.current here ?_)
    unfold Parser.statement
    cases kind : t.kind
    case letWord =>
      refine .expect (by decide) whole behind fun name rest₁ lt₁ whole => .current rfl ?_
      refine .expect (by decide) whole rfl fun _ rest₂ lt₂ whole => .advance rfl ?_
      refine (expression_mirrors .lowest fuel whole rfl (by omega)).andThen whole
        fun value rest₃ le₃ s' behind whole => ?_
      exact .skipSemicolon behind
    case returnWord =>
      refine .advance behind ?_
      refine (expression_mirrors .lowest fuel whole rfl (by omega)).andThen whole
        fun value rest le s' behind whole => ?_
      exact .skipSemicolon behind
    all_goals
      refine (expressionFrom_mirrors (s := { s with attempts := [] }) .lowest fuel whole here
        (by omega)).andThen whole fun value rest le s' behind whole => ?_
      exact .skipSemicolon behind
termination_by 2 * fuel

end

/-! ### Programs -/

theorem program_cons (t : Token) (rest : List Token) :
    Parser.program (t :: rest) =
      ((Parser.statement t rest (.refl rest)).result.toOption.toList ++
          (Parser.program (Parser.statement t rest (.refl rest)).rest).1,
        (Parser.statement t rest (.refl rest)).dropped ++
          (Parser.statement t rest (.refl rest)).own ++
          (Parser.program (Parser.statement t rest (.refl rest)).rest).2) := by
  rw [Parser.program]
  obtain ⟨result, dropped, left, within⟩ := Parser.statement t rest (.refl rest)
  cases result <;> simp [Reading.own, Except.toOption]

theorem program_mirrors (fuel : Nat) {tokens : List Token} {s : RawParser} (whole : NoEnd tokens)
    (here : s.ahead = tokens) (room : 8 * tokens.length + 3 < fuel) :
    ∃ s' attempts, program fuel s = .ok (Parser.program tokens).1 s' ∧ s'.ahead = [] ∧
      Accounts s s' tokens (Parser.program tokens).2 [] attempts := by
  match fuel with
  | fuel + 1 =>
    cases tokens with
    | nil =>
      obtain ⟨_, errors, attempts⟩ := s
      subst here
      rw [Parser.program]
      exact ⟨_, [], rfl, rfl, .still (List.suffix_refl _) (List.append_nil _).symm rfl⟩
    | cons t rest =>
      have inside : t.kind ≠ .endOfInput := (List.forall_mem_cons.1 whole).1
      simp only [List.length_cons] at room
      rw [program_cons]
      obtain ⟨s₁, a, ended, ends, accounts⟩ :=
        (statement_tries fuel (h := .refl rest) whole.of_cons here (by omega)).orNone
      generalize Parser.statement t rest (.refl rest) = first at *
      obtain ⟨result, dropped, left, within⟩ := first
      subst ends
      obtain ⟨s', attempts, ran, done, accounts'⟩ :=
        program_mirrors fuel (s := { s₁ with ahead := s₁.ahead.tail })
          (whole.of_suffix accounts.suffix) rfl (by have := within; omega)
      refine ⟨s', [a] ++ attempts, ?_, done, accounts.trans accounts'.moved⟩
      rw [program, bind_of_ok (current_eq here), if_neg inside, bind_of_ok ended]
      exact bind_of_ok ran

end RawParser

theorem tokens_noEnd (source : String) : NoEnd (tokens source) := fun t member =>
  ((splits_lexemes source.toList).consume t member).1

/-- The machine reads every source to its end and finds what the parser finds; started again, it
finds nothing more. Each attempt is made at a token of its own, and reports what those nested in it
report and, if it fails, one error more. So there are as many errors as attempts that failed, and
no more than tokens. -/
theorem every_drop_is_reported (source : String) (fuel : Nat)
    (enough : 8 * (tokens source).length + 3 < fuel) :
    ∃ s, RawParser.program fuel (.initial (tokens source)) = .ok (parse source).1 s ∧
      s.errors = (parse source).2 ∧ s.ahead = [] ∧
      (∀ more, RawParser.program (more + 1) s = .ok [] s) ∧
      (∀ a ∈ allAttempts s.attempts, a.Accounted ∧ a.start <:+ tokens source ∧
        ∃ t rest, a.start = t :: rest ∧ t.kind ≠ .endOfInput) ∧
      (allAttempts s.attempts).Pairwise (fun a b => b.start.length < a.start.length) ∧
      s.errors.length = (allAttempts s.attempts).countP Attempt.failed ∧
      s.errors.length ≤ (tokens source).length := by
  obtain ⟨s, attempts, ran, done, accounts⟩ :=
    RawParser.program_mirrors (s := .initial (tokens source)) fuel (tokens_noEnd source) rfl enough
  have errors : s.errors = (parse source).2 := by
    rw [accounts.errors, List.append_nil]
    rfl
  have logged : s.attempts = attempts := accounts.logged
  have counted : s.errors.length = (allAttempts s.attempts).countP Attempt.failed := by
    rw [logged, ← length_reported_attempts attempts accounts.accounted, accounts.reported, errors]
    rfl
  refine ⟨s, ran, errors, done, ?_, ?_, ?_, counted, ?_⟩
  · obtain ⟨_, errors, attempts⟩ := s
    subst done
    exact fun more => rfl
  · rw [logged]
    intro a member
    obtain ⟨suffix, inside⟩ := accounts.inside a member
    refine ⟨accounts.accounted a member, suffix, ?_⟩
    obtain ⟨t, rest, start⟩ := List.exists_cons_of_length_pos (Nat.zero_lt_of_lt inside)
    exact ⟨t, rest, start, tokens_noEnd source t (suffix.mem (start ▸ List.mem_cons_self))⟩
  · rw [logged]
    exact accounts.descending
  · rw [counted, logged]
    refine Nat.le_trans List.countP_le_length (length_le_of_descending accounts.descending ?_)
    intro a member
    obtain ⟨suffix, inside⟩ := accounts.inside a member
    exact ⟨Nat.zero_lt_of_lt inside, suffix.length_le⟩

/-- The source `let; if (x) \x7b let 1`, which ends inside of a block. -/
def unclosed : String := "let; if (x) \x7b let 1"

theorem every_drop_is_reported_unclosed :
    8 * (tokens unclosed).length + 3 < 80 ∧
      ∃ s, RawParser.program 80 (.initial (tokens unclosed)) = .ok (parse unclosed).1 s ∧
        s.errors = (parse unclosed).2 ∧ s.errors.length = 4 ∧
        (allAttempts s.attempts).map (fun a => (a.start.length, a.failed)) =
          [(9, true), (8, true), (7, true), (2, true), (1, false)] := by
  have scanned : tokens unclosed = [⟨.letWord, "let"⟩, ⟨.semicolon, ";"⟩, ⟨.ifWord, "if"⟩,
      ⟨.leftParen, "("⟩, ⟨.identifier, "x"⟩, ⟨.rightParen, ")"⟩, ⟨.leftBrace, "\x7b"⟩,
      ⟨.letWord, "let"⟩, ⟨.integer, "1"⟩] := by decide +kernel
  have enough : 8 * (tokens unclosed).length + 3 < 80 := by rw [scanned]; decide
  have log : (match RawParser.program 80 (.initial (tokens unclosed)) with
      | .ok _ s => some (s.errors.length,
          (allAttempts s.attempts).map fun a => (a.start.length, a.failed))
      | .error _ _ => none) =
        some (4, [(9, true), (8, true), (7, true), (2, true), (1, false)]) := by
    rw [scanned]
    decide +kernel
  obtain ⟨s, ran, errors, -⟩ := every_drop_is_reported unclosed 80 enough
  rw [ran] at log
  obtain ⟨four, tried⟩ := Prod.mk.inj (Option.some.inj log)
  exact ⟨enough, s, ran, errors, four, tried⟩

end MonkeyLanguage
