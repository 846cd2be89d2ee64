import MonkeyLanguage.Proofs.Syntax.Grammar
import MonkeyLanguage.Proofs.Syntax.Reads

/-!
# What the parser reads is derived

A clean reading has consumed a phrase of the grammar.
-/

namespace MonkeyLanguage.Parser

theorem moreParams_derives {tokens start rest : List Token} {h : Within tokens start}
    {names : List String} (reads : (moreParams tokens h).Reads names rest) :
    ∃ ts r, tokens = ts ++ r :: rest ∧ r.kind = .rightParen ∧ Derives ts (.moreParams names) := by
  unfold moreParams at reads
  split at reads
  · rename_i literal more within
    obtain ⟨name, rest₁, rfl, named, reads⟩ := expect_reads.1 reads
    obtain ⟨names', others, rfl⟩ := Reading.map_reads.1 reads
    obtain ⟨ts, r, rfl, shut, derives⟩ := moreParams_derives others
    exact ⟨_ :: name :: ts, r, rfl, shut, .moreParams rfl named derives⟩
  · obtain ⟨r, more, rfl, shut, reads⟩ := expect_reads.1 reads
    obtain ⟨rfl, rfl⟩ := Reading.done_reads.1 reads
    exact ⟨[], r, rfl, shut, .lastParam⟩
termination_by tokens.length
decreasing_by simp_all only [List.length_cons]; omega

theorem eq_cons_of_headKind {tokens : List Token} {kind : TokenKind} (same : headKind tokens = kind)
    (proper : kind ≠ .endOfInput) : ∃ t, tokens = t :: tokens.tail ∧ t.kind = kind := by
  cases tokens with
  | nil => exact absurd same.symm proper
  | cons t more => exact ⟨t, rfl, same⟩

theorem params_derives {tokens start rest : List Token} {h : Within tokens start}
    {names : List String} (reads : (params tokens h).Reads names rest) :
    ∃ ts r, tokens = ts ++ r :: rest ∧ r.kind = .rightParen ∧ Derives ts (.params names) := by
  unfold params at reads
  split at reads
  · rename_i shut
    obtain ⟨rfl, rfl⟩ := Reading.done_reads.1 reads
    obtain ⟨r, same, shut⟩ := eq_cons_of_headKind shut nofun
    exact ⟨[], r, same, shut, .noParam⟩
  · obtain ⟨name, more, rfl, named, reads⟩ := expect_reads.1 reads
    obtain ⟨names', others, rfl⟩ := Reading.map_reads.1 reads
    obtain ⟨ts, r, rfl, shut, derives⟩ := moreParams_derives others
    exact ⟨name :: ts, r, rfl, shut, .params named derives⟩

/-! ### Ends of phrases -/

theorem morePairs_of_pairs {comma : Token} {ts : List Token} {ps : List (Expr × Expr)}
    (kind : comma.kind = .comma) (h : Derives ts (.pairs ps)) :
    Derives (comma :: ts) (.morePairs ps) := by
  cases h with
  | noPair => exact .trailingComma kind
  | pairs first colon second rest => exact .morePairs kind first colon second rest

theorem derives_block {l r : Token} {ts : List Token} {body : List Stmt}
    (opened : l.kind = .leftBrace) (inside : Derives ts (.statements body))
    (shut : r.kind = .rightBrace) : Derives (l :: (ts ++ [r])) (.block body) :=
  .block opened inside shut

/-- A statement is closed by a semicolon, or followed by what cannot continue it. -/
def Closes (tokens ts rest : List Token) : Prop :=
  (∃ semicolon : Token, semicolon.kind = .semicolon ∧ tokens = ts ++ semicolon :: rest) ∨
    tokens = ts ++ rest ∧ Ends rest

theorem closes_skipSemicolon (ts : List Token) {rest : List Token} (ends : Ends rest) :
    Closes (ts ++ rest) ts (skipSemicolon rest) := by
  cases rest with
  | nil => exact Or.inr ⟨rfl, ends⟩
  | cons t rest =>
    by_cases semicolon : t.kind = .semicolon
    · simp only [skipSemicolon, if_pos semicolon]
      exact Or.inl ⟨t, semicolon, rfl⟩
    · simp only [skipSemicolon, if_neg semicolon]
      exact Or.inr ⟨rfl, ends⟩

theorem Closes.cons {tokens ts rest : List Token} (h : Closes tokens ts rest) (t : Token) :
    Closes (t :: tokens) (t :: ts) rest := by
  rcases h with ⟨semicolon, kind, rfl⟩ | ⟨rfl, ends⟩
  · exact Or.inl ⟨semicolon, kind, rfl⟩
  · exact Or.inr ⟨rfl, ends⟩

theorem Closes.derives {tokens ts rest more : List Token} {s : Stmt} {body : List Stmt}
    (closes : Closes tokens ts (rest ++ more)) (first : Derives ts (.statement s))
    (others : Derives rest (.statements body)) :
    ∃ ts', tokens = ts' ++ more ∧ Derives ts' (.statements (s :: body)) := by
  rcases closes with ⟨semicolon, kind, rfl⟩ | ⟨rfl, ends⟩
  · exact ⟨ts ++ semicolon :: rest, by simp, .closed first kind others⟩
  · refine ⟨ts ++ rest, by simp, .unclosed first ?_ others⟩
    intro t ahead
    cases rest with
    | nil => cases ahead
    | cons t' rest => exact ends t ahead

/-! ### Expressions and statements -/

theorem level_le_unary (op : BinaryOp) : op.precedence.level ≤ Precedence.unary.level := by
  cases op <;> decide

/-- An operand and tighter operators with theirs have been read, and no such operator follows. -/
def ReadsChain (floor : Precedence) (tokens : List Token) (e : Expr) (rest : List Token) : Prop :=
  ∃ ts more first ops, tokens = ts ++ (more ++ rest) ∧ Derives ts (.unary first) ∧
    Derives more (.operations ops) ∧ (∀ p ∈ ops, floor.level < p.1.precedence.level) ∧
    e = chain first ops ∧ Stops floor rest

theorem ReadsChain.derives {tokens rest : List Token} {e : Expr}
    (h : ReadsChain .lowest tokens e rest) :
    ∃ ts, tokens = ts ++ rest ∧ Derives ts (.expression e) ∧ Ends rest := by
  obtain ⟨ts, more, first, ops, rfl, operand, operations, -, rfl, stops⟩ := h
  exact ⟨ts ++ more, (List.append_assoc _ _ _).symm, .expression operand operations,
    stops_lowest_iff.1 stops⟩

theorem ReadsChain.unary {tokens rest : List Token} {e : Expr}
    (h : ReadsChain .unary tokens e rest) :
    ∃ ts, tokens = ts ++ rest ∧ Derives ts (.unary e) ∧ Stops .unary rest := by
  obtain ⟨ts, more, first, ops, rfl, operand, operations, tighter, rfl, stops⟩ := h
  cases operations with
  | noOperation => exact ⟨ts, rfl, operand, stops⟩
  | @operation _ _ _ op _ rest' =>
    have bound := tighter _ (List.mem_cons_self)
    have low := level_le_unary op
    simp only at bound
    omega

/-- Suffixes begin with a token that binds tighter than any operator. -/
theorem eq_nil_of_suffixes {ts rest : List Token} {floor : Precedence} {e e' : Expr}
    (derives : Derives ts (.suffixes e e')) (stops : Stops floor (ts ++ rest))
    (low : floor.level ≤ Precedence.unary.level) : ts = [] ∧ e' = e := by
  cases derives with
  | noSuffix => exact ⟨rfl, rfl⟩
  | call opened =>
    have bound := stops _ rfl .call (continuation?_eq_call.2 opened)
    simp only [Continuation.precedence, Precedence.level] at bound low
    omega
  | index opened =>
    have bound := stops _ rfl .index (continuation?_eq_index.2 opened)
    simp only [Continuation.precedence, Precedence.level] at bound low
    omega

theorem operations_append {first second : List Token} {ops ops' : List (BinaryOp × Expr)}
    (h : Derives first (.operations ops)) (h' : Derives second (.operations ops')) :
    Derives (first ++ second) (.operations (ops ++ ops')) := by
  induction ops generalizing first with
  | nil =>
    cases h
    exact h'
  | cons p ops ih =>
    cases h with
    | operation operator operand rest =>
      have joined := Derives.operation operator operand (ih rest)
      simpa using joined

theorem looser_of_stops {more rest : List Token} {floor : Precedence}
    {ops : List (BinaryOp × Expr)} (h : Derives more (.operations ops))
    (stops : Stops floor (more ++ rest)) :
    ∀ p, ops.head? = some p → p.1.precedence.level ≤ floor.level := by
  cases h with
  | noOperation => nofun
  | operation operator =>
    rintro _ ⟨⟩
    exact stops _ rfl (.binary _) (continuation?_eq_binary.2 operator)

/-- Expressions and blocks are derived when they are read from at most `n` tokens. -/
structure DerivesUpTo (n : Nat) : Prop where
  expression : ∀ {floor : Precedence} {tokens start rest : List Token} {h : Within tokens start}
    {e : Expr}, tokens.length ≤ n → (expression floor tokens h).Reads e rest →
    ReadsChain floor tokens e rest
  block : ∀ {tokens start rest : List Token} {h : Within tokens start} {body : List Stmt},
    tokens.length ≤ n → (block tokens h).Reads body rest →
    ∃ ts r, tokens = ts ++ r :: rest ∧ r.kind = .rightBrace ∧ Derives ts (.statements body)

section
variable {n : Nat} (shorter : DerivesUpTo n)
include shorter

theorem moreItems_derives {closing : TokenKind} {tokens start rest : List Token}
    {h : Within tokens start} {es : List Expr} (bound : tokens.length ≤ n)
    (reads : (moreItems closing tokens h).Reads es rest) :
    ∃ ts r, tokens = ts ++ r :: rest ∧ r.kind = closing ∧ Derives ts (.moreItems es) := by
  induction len : tokens.length using Nat.strongRecOn generalizing tokens es with
  | ind _ ih =>
    unfold moreItems at reads
    split at reads
    · rename_i literal more within
      simp only [List.length_cons] at bound len
      obtain ⟨next, middle, le, read, listed⟩ := Reading.andThen_reads.1 reads
      obtain ⟨es', others, rfl⟩ := Reading.map_reads.1 listed
      obtain ⟨ts, r, same, shut, derives⟩ := ih _ (by omega) (by omega) others rfl
      obtain ⟨ts', rfl, inside, -⟩ := (shorter.expression (by omega) read).derives
      exact ⟨⟨.comma, literal⟩ :: ts' ++ ts, r, by rw [same]; simp, shut,
        .moreItems rfl inside derives⟩
    · obtain ⟨r, more, rfl, shut, ended⟩ := expect_reads.1 reads
      obtain ⟨rfl, rfl⟩ := Reading.done_reads.1 ended
      exact ⟨[], r, rfl, shut, .lastItem⟩

theorem items_derives {closing : TokenKind} (proper : closing ≠ .endOfInput)
    {tokens start rest : List Token} {h : Within tokens start} {es : List Expr}
    (bound : tokens.length ≤ n) (reads : (items closing tokens h).Reads es rest) :
    ∃ ts r, tokens = ts ++ r :: rest ∧ r.kind = closing ∧ Derives ts (.items es) := by
  unfold items at reads
  split at reads
  · rename_i shut
    obtain ⟨rfl, rfl⟩ := Reading.done_reads.1 reads
    obtain ⟨r, same, shut⟩ := eq_cons_of_headKind shut proper
    exact ⟨[], r, same, shut, .noItem⟩
  · obtain ⟨first, middle, le, read, listed⟩ := Reading.andThen_reads.1 reads
    obtain ⟨es', others, rfl⟩ := Reading.map_reads.1 listed
    obtain ⟨ts, r, same, shut, derives⟩ := moreItems_derives shorter (by omega) others
    obtain ⟨ts', rfl, inside, -⟩ := (shorter.expression bound read).derives
    exact ⟨ts' ++ ts, r, by rw [same, List.append_assoc], shut, .items inside derives⟩

theorem pairs_derives {tokens start rest : List Token} {h : Within tokens start}
    {ps : List (Expr × Expr)} (bound : tokens.length ≤ n)
    (reads : (pairs tokens h).Reads ps rest) :
    ∃ ts r, tokens = ts ++ r :: rest ∧ r.kind = .rightBrace ∧ Derives ts (.pairs ps) := by
  induction len : tokens.length using Nat.strongRecOn generalizing tokens ps with
  | ind _ ih =>
    unfold pairs at reads
    split at reads
    · rename_i shut
      obtain ⟨rfl, rfl⟩ := Reading.done_reads.1 reads
      obtain ⟨r, same, shut⟩ := eq_cons_of_headKind shut nofun
      exact ⟨[], r, same, shut, .noPair⟩
    · obtain ⟨key, rest₁, le₁, first, reads₁⟩ := Reading.andThen_reads.1 reads
      obtain ⟨colon, rest₂, rfl, kind, reads₂⟩ := expect_reads.1 reads₁
      obtain ⟨value, rest₃, le₃, second, reads₃⟩ := Reading.andThen_reads.1 reads₂
      simp only [Within, List.length_cons] at le₁
      obtain ⟨ts, same₁, derives, -⟩ := (shorter.expression bound first).derives
      obtain ⟨ts', rfl, derives', -⟩ := (shorter.expression (by omega) second).derives
      rw [same₁]
      split at reads₃
      · rename_i shut
        obtain ⟨rfl, rfl⟩ := Reading.done_reads.1 reads₃
        obtain ⟨r, same, shut⟩ := eq_cons_of_headKind shut nofun
        refine ⟨ts ++ colon :: ts' ++ [], r, ?_, shut, .pairs derives kind derives' .lastPair⟩
        rw [same]
        simp
      · obtain ⟨comma, rest₄, rfl, kind', reads₄⟩ := expect_reads.1 reads₃
        obtain ⟨ps', others, rfl⟩ := Reading.map_reads.1 reads₄
        simp only [Within, List.length_cons] at le₃
        obtain ⟨ts'', r, rfl, shut, derives''⟩ := ih _ (by omega) (by omega) others rfl
        exact ⟨ts ++ colon :: ts' ++ comma :: ts'', r, by simp, shut,
          .pairs derives kind derives' (morePairs_of_pairs kind' derives'')⟩

theorem conditional_derives {t : Token} (word : t.kind = .ifWord)
    {tokens start rest : List Token} {h : Within tokens start} {e : Expr}
    (bound : tokens.length ≤ n) (reads : (conditional tokens h).Reads e rest) :
    ∃ ts, tokens = ts ++ rest ∧ Derives (t :: ts) (.primary e) := by
  unfold conditional at reads
  obtain ⟨l, rest₁, rfl, opened, reads₁⟩ := expect_reads.1 reads
  obtain ⟨condition, rest₂, le₂, tested, reads₂⟩ := Reading.andThen_reads.1 reads₁
  obtain ⟨r, rest₃, rfl, shut, reads₃⟩ := expect_reads.1 reads₂
  obtain ⟨l', rest₄, rfl, opened', reads₄⟩ := expect_reads.1 reads₃
  obtain ⟨consequence, rest₅, le₅, entered, reads₅⟩ := Reading.andThen_reads.1 reads₄
  simp only [Within, List.length_cons] at bound le₂ le₅
  obtain ⟨ts, rfl, test, -⟩ := (shorter.expression (by omega) tested).derives
  obtain ⟨ts', r', rfl, shut', inside⟩ := shorter.block (by omega) entered
  have taken := derives_block opened' inside shut'
  split at reads₅
  · rename_i word'
    obtain ⟨l'', rest₆, same, opened'', reads₆⟩ := expect_reads.1 reads₅
    obtain ⟨alternative, otherwise, rfl⟩ := Reading.map_reads.1 reads₆
    obtain ⟨orElse, whole, word'⟩ := eq_cons_of_headKind word' nofun
    have size := congrArg List.length whole
    rw [same] at size
    simp only [List.length_cons] at size
    obtain ⟨ts'', r'', rfl, shut'', inside'⟩ := shorter.block (by omega) otherwise
    rw [whole, same]
    exact ⟨l :: ts ++ r :: (l' :: (ts' ++ [r'])) ++ orElse :: (l'' :: (ts'' ++ [r''])), by simp,
      .alternative word opened test shut taken word' (derives_block opened'' inside' shut'')⟩
  · obtain ⟨rfl, rfl⟩ := Reading.done_reads.1 reads₅
    exact ⟨l :: ts ++ r :: (l' :: (ts' ++ [r'])), by simp,
      .conditional word opened test shut taken⟩

theorem operand_derives {t : Token} {tokens start rest : List Token} {h : Within tokens start}
    {e : Expr} (bound : tokens.length ≤ n) (reads : (operand t tokens h).Reads e rest) :
    ∃ ts, t :: tokens = ts ++ rest ∧
      (Derives ts (.primary e) ∨ Derives ts (.unary e) ∧ Stops .unary rest) := by
  unfold operand at reads
  -- The cases are the kinds of `t`, in the order in which `operand` lists them.
  split at reads
  · rename_i kind
    obtain ⟨rfl, rfl⟩ := Reading.done_reads.1 reads
    exact ⟨[t], rfl, Or.inl (.identifier kind)⟩
  · rename_i kind
    split at reads
    · rename_i value converted
      obtain ⟨rfl, rfl⟩ := Reading.done_reads.1 reads
      simp only [Decimal.toInt64?, Option.ite_none_right_eq_some, Option.some.injEq] at converted
      obtain ⟨small, rfl⟩ := converted
      exact ⟨[t], rfl, Or.inl (.integer kind small)⟩
    · exact absurd reads (by simp)
  · rename_i kind
    obtain ⟨rfl, rfl⟩ := Reading.done_reads.1 reads
    exact ⟨[t], rfl, Or.inl (.string kind)⟩
  · rename_i kind
    obtain ⟨rfl, rfl⟩ := Reading.done_reads.1 reads
    exact ⟨[t], rfl, Or.inl (.trueWord kind)⟩
  · rename_i kind
    obtain ⟨rfl, rfl⟩ := Reading.done_reads.1 reads
    exact ⟨[t], rfl, Or.inl (.falseWord kind)⟩
  · rename_i kind
    obtain ⟨inner, read, rfl⟩ := Reading.map_reads.1 reads
    obtain ⟨ts, rfl, derives, stops⟩ := (shorter.expression bound read).unary
    exact ⟨t :: ts, rfl, Or.inr ⟨.unary kind derives, stops⟩⟩
  · rename_i kind
    obtain ⟨inner, read, rfl⟩ := Reading.map_reads.1 reads
    obtain ⟨ts, rfl, derives, stops⟩ := (shorter.expression bound read).unary
    exact ⟨t :: ts, rfl, Or.inr ⟨.unary kind derives, stops⟩⟩
  · rename_i kind
    obtain ⟨inner, middle, le, read, closed⟩ := Reading.andThen_reads.1 reads
    obtain ⟨r, rest', rfl, shut, ended⟩ := expect_reads.1 closed
    obtain ⟨rfl, rfl⟩ := Reading.done_reads.1 ended
    obtain ⟨ts, rfl, derives, -⟩ := (shorter.expression bound read).derives
    exact ⟨t :: ts ++ [r], by simp, Or.inl (.grouped kind derives shut)⟩
  · rename_i kind
    obtain ⟨ts, rfl, derives⟩ := conditional_derives shorter kind bound reads
    exact ⟨t :: ts, rfl, Or.inl derives⟩
  · rename_i kind
    obtain ⟨l, rest₁, rfl, opened, reads₁⟩ := expect_reads.1 reads
    obtain ⟨names, rest₂, le₂, declared, reads₂⟩ := Reading.andThen_reads.1 reads₁
    obtain ⟨brace, rest₃, rfl, braced, reads₃⟩ := expect_reads.1 reads₂
    obtain ⟨body, inside, rfl⟩ := Reading.map_reads.1 reads₃
    obtain ⟨ts, r, rfl, shut, params⟩ := params_derives declared
    simp only [Within, List.length_append, List.length_cons] at bound le₂
    obtain ⟨ts', r', rfl, shut', derives⟩ := shorter.block (by omega) inside
    exact ⟨t :: l :: ts ++ r :: (brace :: (ts' ++ [r'])), by simp,
      Or.inl (.function kind opened params shut (derives_block braced derives shut'))⟩
  · rename_i kind
    obtain ⟨es, listed, rfl⟩ := Reading.map_reads.1 reads
    obtain ⟨ts, r, rfl, shut, derives⟩ := items_derives shorter (by decide) bound listed
    exact ⟨t :: ts ++ [r], by simp, Or.inl (.array kind derives shut)⟩
  · rename_i kind
    obtain ⟨ps, listed, rfl⟩ := Reading.map_reads.1 reads
    obtain ⟨ts, r, rfl, shut, derives⟩ := pairs_derives shorter bound listed
    exact ⟨t :: ts ++ [r], by simp, Or.inl (.hash kind derives shut)⟩
  · exact absurd reads (by simp)

/-- What climbing past `left` comes to: suffixes of `left`, then tighter operators. -/
def ReadsOn (floor : Precedence) (left : Expr) (tokens : List Token) (e : Expr)
    (rest : List Token) : Prop :=
  ∃ ss more left' ops, tokens = ss ++ (more ++ rest) ∧ Derives ss (.suffixes left left') ∧
    Derives more (.operations ops) ∧ (∀ p ∈ ops, floor.level < p.1.precedence.level) ∧
    e = chain left' ops ∧ Stops floor rest

omit shorter in
theorem ReadsOn.refl {floor : Precedence} {left : Expr} {tokens : List Token}
    (stops : Stops floor tokens) : ReadsOn floor left tokens left tokens :=
  ⟨[], [], left, [], rfl, .noSuffix, .noOperation, by simp, rfl, stops⟩

omit shorter in
theorem ReadsOn.binary {floor : Precedence} {left right e : Expr} {t : Token} {op : BinaryOp}
    {tokens middle rest : List Token} (operator : t.kind = op.tokenKind)
    (tighter : floor.level < op.precedence.level)
    (operand : ReadsChain op.precedence tokens right middle)
    (extended : ReadsOn floor (.binary op left right) middle e rest) :
    ReadsOn floor left (t :: tokens) e rest := by
  obtain ⟨ts, inner, first, ops, rfl, unary, operations, tighter', rfl, stops⟩ := operand
  obtain ⟨ss, outer, left', ops', rfl, suffixes, operations', tighter'', rfl, stops'⟩ := extended
  obtain ⟨rfl, rfl⟩ := eq_nil_of_suffixes suffixes stops (level_le_unary op)
  have grouped := chain_split left first tighter' (looser_of_stops operations' stops)
  refine ⟨[], t :: ts ++ (inner ++ outer), left, (op, first) :: (ops ++ ops'), by simp,
    .noSuffix, .operation operator unary (operations_append operations operations'), ?_,
    grouped.symm, stops'⟩
  intro p member
  simp only [List.mem_cons, List.mem_append] at member
  rcases member with rfl | member | member
  · exact tighter
  · exact Nat.lt_trans tighter (tighter' p member)
  · exact tighter'' p member

omit shorter in
theorem ReadsOn.call {floor : Precedence} {left e : Expr} {args : List Expr} {l r : Token}
    {ts tokens rest : List Token} (extended : ReadsOn floor (.call left args) tokens e rest)
    (opened : l.kind = .leftParen) (inside : Derives ts (.items args))
    (shut : r.kind = .rightParen) : ReadsOn floor left (l :: (ts ++ r :: tokens)) e rest := by
  obtain ⟨ss, more, left', ops, rfl, suffixes, others⟩ := extended
  exact ⟨l :: ts ++ r :: ss, more, left', ops, by simp, .call opened inside shut suffixes, others⟩

omit shorter in
theorem ReadsOn.index {floor : Precedence} {left position e : Expr} {l r : Token}
    {ts tokens rest : List Token} (extended : ReadsOn floor (.index left position) tokens e rest)
    (opened : l.kind = .leftBracket) (inside : Derives ts (.expression position))
    (shut : r.kind = .rightBracket) : ReadsOn floor left (l :: (ts ++ r :: tokens)) e rest := by
  obtain ⟨ss, more, left', ops, rfl, suffixes, others⟩ := extended
  exact ⟨l :: ts ++ r :: ss, more, left', ops, by simp, .index opened inside shut suffixes, others⟩

theorem climb_derives {floor : Precedence} {left : Expr} {tokens start rest : List Token}
    {h : Within tokens start} {e : Expr} (bound : tokens.length ≤ n + 1)
    (reads : (climb floor left tokens h).Reads e rest) : ReadsOn floor left tokens e rest := by
  induction len : tokens.length using Nat.strongRecOn generalizing left tokens with
  | ind _ ih =>
    unfold climb at reads
    cases tokens with
    | nil =>
      obtain ⟨rfl, rfl⟩ := Reading.done_reads.1 reads
      exact .refl nofun
    | cons t more =>
      simp only at reads
      simp only [List.length_cons] at bound len
      split at reads
      · rename_i none
        obtain ⟨rfl, rfl⟩ := Reading.done_reads.1 reads
        refine .refl ?_
        rintro _ ⟨⟩ next found
        simp [none] at found
      · rename_i next found
        split at reads
        · rename_i tighter
          cases next with
          | call =>
            obtain ⟨args, middle, le, listed, extended⟩ := Reading.andThen_reads.1 reads
            have further := ih _ (by omega) (by omega) extended rfl
            obtain ⟨ts, r, rfl, shut, inside⟩ :=
              items_derives shorter (by decide) (by omega) listed
            exact further.call (continuation?_eq_call.1 found) inside shut
          | index =>
            obtain ⟨position, middle, le, indexed, closed⟩ := Reading.andThen_reads.1 reads
            obtain ⟨r, middle', rfl, shut, extended⟩ := expect_reads.1 closed
            obtain ⟨ts, rfl, inside, -⟩ := (shorter.expression (by omega) indexed).derives
            simp only [Within, List.length_cons] at le
            have further := ih _ (by omega) (by omega) extended rfl
            exact further.index (continuation?_eq_index.1 found) inside shut
          | binary op =>
            obtain ⟨right, middle, le, operand, extended⟩ := Reading.andThen_reads.1 reads
            exact .binary (continuation?_eq_binary.1 found) tighter
              (shorter.expression (by omega) operand) (ih _ (by omega) (by omega) extended rfl)
        · rename_i loose
          obtain ⟨rfl, rfl⟩ := Reading.done_reads.1 reads
          refine .refl ?_
          rintro _ ⟨⟩ next' found'
          rw [found] at found'
          cases found'
          omega

theorem expressionFrom_derives {floor : Precedence} {t : Token} {tokens start rest : List Token}
    {h : Within tokens start} {e : Expr} (bound : tokens.length ≤ n)
    (reads : (expressionFrom floor t tokens h).Reads e rest) :
    ReadsChain floor (t :: tokens) e rest := by
  unfold expressionFrom at reads
  obtain ⟨left, middle, le, first, extended⟩ := Reading.andThen_reads.1 reads
  obtain ⟨ts, same, derived⟩ := operand_derives shorter bound first
  obtain ⟨ss, more, left', ops, rfl, suffixes, operations, tighter, rfl, stops⟩ :=
    climb_derives shorter (by omega) extended
  rw [same]
  rcases derived with primary | ⟨unary, ends⟩
  · exact ⟨ts ++ ss, more, left', ops, by simp, .suffixed primary suffixes, operations, tighter,
      rfl, stops⟩
  · obtain ⟨rfl, rfl⟩ := eq_nil_of_suffixes suffixes ends (Nat.le_refl _)
    exact ⟨ts, more, _, ops, by simp, unary, operations, tighter, rfl, stops⟩

theorem statement_derives {t : Token} {tokens start rest : List Token} {h : Within tokens start}
    {s : Stmt} (bound : tokens.length ≤ n) (reads : (statement t tokens h).Reads s rest) :
    ∃ ts, Derives ts (.statement s) ∧ Closes (t :: tokens) ts rest := by
  unfold statement at reads
  split at reads
  · rename_i word
    obtain ⟨name, rest₁, rfl, named, reads₁⟩ := expect_reads.1 reads
    obtain ⟨sign, rest₂, rfl, assign, reads₂⟩ := expect_reads.1 reads₁
    obtain ⟨value, rest₃, le₃, given, reads₃⟩ := Reading.andThen_reads.1 reads₂
    obtain ⟨rfl, rfl⟩ := Reading.done_reads.1 reads₃
    simp only [List.length_cons] at bound
    obtain ⟨ts, rfl, derives, ends⟩ := (shorter.expression (by omega) given).derives
    exact ⟨t :: name :: sign :: ts, .bind word named assign derives,
      (((closes_skipSemicolon ts ends).cons sign).cons name).cons t⟩
  · rename_i word
    obtain ⟨value, rest₁, le₁, returned, reads₁⟩ := Reading.andThen_reads.1 reads
    obtain ⟨rfl, rfl⟩ := Reading.done_reads.1 reads₁
    obtain ⟨ts, rfl, derives, ends⟩ := (shorter.expression bound returned).derives
    exact ⟨t :: ts, .ret word derives, (closes_skipSemicolon ts ends).cons t⟩
  · obtain ⟨value, rest₁, le₁, read, reads₁⟩ := Reading.andThen_reads.1 reads
    obtain ⟨rfl, rfl⟩ := Reading.done_reads.1 reads₁
    obtain ⟨ts, same, derives, ends⟩ := (expressionFrom_derives shorter bound read).derives
    rw [same]
    exact ⟨ts, .bare derives, closes_skipSemicolon ts ends⟩

theorem block_derives {tokens start rest : List Token} {h : Within tokens start}
    {body : List Stmt} (bound : tokens.length ≤ n + 1) (reads : (block tokens h).Reads body rest) :
    ∃ ts r, tokens = ts ++ r :: rest ∧ r.kind = .rightBrace ∧ Derives ts (.statements body) := by
  induction len : tokens.length using Nat.strongRecOn generalizing tokens body with
  | ind _ ih =>
    unfold block at reads
    cases tokens with
    | nil => exact absurd reads (by simp)
    | cons t more =>
      simp only at reads
      simp only [List.length_cons] at bound len
      split at reads
      · rename_i shut
        obtain ⟨rfl, rfl⟩ := Reading.done_reads.1 reads
        exact ⟨[], t, rfl, shut, .noStatement⟩
      · obtain ⟨s, middle, body', le, first, others, rfl⟩ := Reading.before_reads.1 reads
        obtain ⟨ts', derives', closes⟩ := statement_derives shorter (by omega) first
        obtain ⟨ts, r, rfl, shut, derives⟩ := ih _ (by omega) (by omega) others rfl
        obtain ⟨ts'', same, derived⟩ := closes.derives derives' derives
        exact ⟨ts'', r, same, shut, derived⟩

end

theorem derivesUpTo (n : Nat) : DerivesUpTo n := by
  induction n with
  | zero =>
    refine ⟨fun {floor tokens start rest h e} bound reads => ?_,
      fun {tokens start rest h body} bound reads => ?_⟩
    · obtain rfl := List.length_eq_zero_iff.1 (Nat.le_zero.1 bound)
      unfold expression at reads
      exact absurd reads (by simp)
    · obtain rfl := List.length_eq_zero_iff.1 (Nat.le_zero.1 bound)
      unfold block at reads
      exact absurd reads (by simp)
  | succ n ih =>
    refine ⟨fun {floor tokens start rest h e} bound reads => ?_,
      fun bound reads => block_derives ih bound reads⟩
    unfold expression at reads
    cases tokens with
    | nil => exact absurd reads (by simp)
    | cons t more =>
      simp only [List.length_cons] at bound
      exact expressionFrom_derives ih (by omega) reads

theorem program_derives {tokens : List Token} {statements : List Stmt}
    (clean : program tokens = (statements, [])) : Derives tokens (.statements statements) := by
  induction len : tokens.length using Nat.strongRecOn generalizing tokens statements with
  | ind _ ih =>
    cases tokens with
    | nil =>
      rw [program] at clean
      cases clean
      exact .noStatement
    | cons t tokens =>
      obtain ⟨s, middle, body, within, first, others, rfl⟩ := program_cons_eq.1 clean
      simp only [List.length_cons] at len
      have rest := ih _ (by omega) others rfl
      obtain ⟨ts, derives, closes⟩ := statement_derives (derivesUpTo _) (Nat.le_refl _) first
      rw [← List.append_nil middle] at closes
      obtain ⟨ts', same, derived⟩ := closes.derives derives rest
      rw [same, List.append_nil]
      exact derived

end MonkeyLanguage.Parser
