import MonkeyLanguage.Proofs.Syntax.Soundness

/-!
# What is derived the parser reads

Every phrase of the grammar is read cleanly, up to where it ends, whenever what follows could not
belong to it.
-/

namespace MonkeyLanguage

namespace Parser

/-! ### Readings that succeed -/

/-- The reading is clean, whatever the bound on what it may leave. -/
def Succeeds {α : Type} {tokens : List Token}
    (read : {start : List Token} → Within tokens start → Reading α start) (a : α)
    (rest : List Token) : Prop :=
  ∀ (start : List Token) (h : Within tokens start), (read h).Reads a rest

theorem andThen_succeeds {α β : Type} {first start middle rest : List Token} {a : α} {b : β}
    {r : Reading α first} {h : Within first start}
    {next : α → (rest : List Token) → Within rest first → Reading β start}
    (read : r.Reads a middle) (go : ∀ le, (next a middle le).Reads b rest) :
    (r.andThen h next).Reads b rest := by
  have le : Within middle first := read.2.2 ▸ r.within
  exact Reading.andThen_reads.2 ⟨a, middle, le, read, go le⟩

theorem before_succeeds {α : Type} {first start middle rest : List Token} {a : α} {as : List α}
    {s : Reading α first} {next : (rest : List Token) → Within rest first → Reading (List α) start}
    (read : s.Reads a middle) (go : ∀ le, (next middle le).Reads as rest) :
    (s.before next).Reads (a :: as) rest := by
  have le : Within middle first := read.2.2 ▸ s.within
  exact Reading.before_reads.2 ⟨a, middle, as, le, read, go le, rfl⟩

theorem expect_succeeds {α : Type} {kind : TokenKind} {t : Token} {tokens start rest : List Token}
    {h : Within (t :: tokens) start} {a : α}
    {next : Token → (rest : List Token) → rest.length < (t :: tokens).length → Reading α start}
    (found : t.kind = kind) (go : ∀ lt, (next t tokens lt).Reads a rest) :
    (expect kind (t :: tokens) h next).Reads a rest :=
  expect_reads.2 ⟨t, tokens, rfl, found, go _⟩

theorem map_succeeds {α β : Type} {start rest : List Token} {a : α} {f : α → β}
    {r : Reading α start} (read : r.Reads a rest) : (r.map f).Reads (f a) rest :=
  Reading.map_reads.2 ⟨a, read, rfl⟩

theorem expression_succeeds {floor : Precedence} {t : Token} {tokens rest : List Token} {e : Expr}
    (read : Succeeds (expressionFrom floor t tokens) e rest) :
    Succeeds (expression floor (t :: tokens)) e rest := by
  intro start h
  show (expression floor (t :: tokens) h).Reads e rest
  unfold expression
  exact read _ _

theorem expressionFrom_succeeds {floor : Precedence} {t : Token}
    {tokens middle rest : List Token} {left e : Expr}
    (first : Succeeds (operand t tokens) left middle)
    (climbs : Succeeds (climb floor left middle) e rest) :
    Succeeds (expressionFrom floor t tokens) e rest := by
  intro start h
  show (expressionFrom floor t tokens h).Reads e rest
  unfold expressionFrom
  exact andThen_succeeds (first _ _) fun le => climbs _ _

/-! ### What may follow -/

/-- Nothing ahead could belong to the expression before it. -/
structure Follows (tokens : List Token) : Prop where
  ends : Ends tokens
  noElse : headKind tokens ≠ .elseWord

theorem Follows.of_kind {t : Token} {rest : List Token} {kind : TokenKind} (same : t.kind = kind)
    (stops : kind.continuation? = none) (noElse : kind ≠ .elseWord) : Follows (t :: rest) := by
  refine ⟨?_, by rwa [headKind, same]⟩
  rintro _ ⟨⟩ continues
  obtain ⟨next, found⟩ := continues_iff.1 continues
  rw [same, stops] at found
  cases found

theorem follows_nil : Follows [] := ⟨by simp [Ends], by decide⟩

theorem follows_of_opened {tokens : List Token} (opened : Opened TokenKind.opensStatement tokens)
    (ends : Ends tokens) : Follows tokens := by
  refine ⟨ends, ?_⟩
  obtain ⟨t, rest, rfl, opens⟩ := opened
  intro same
  rw [headKind] at same
  rw [same] at opens
  cases opens

/-- After statements comes what closes them, or a statement that cannot be a continuation. -/
theorem follows_append {more ahead : List Token}
    (opened : more = [] ∨ Opened TokenKind.opensStatement more) (ends : Ends more)
    (follows : Follows ahead) : Follows (more ++ ahead) := by
  rcases opened with rfl | opened
  · exact follows
  · refine follows_of_opened (opened.append _) ?_
    obtain ⟨t, rest, rfl, -⟩ := opened
    exact ends

theorem skipSemicolon_append {more ahead : List Token}
    (opened : more = [] ∨ Opened TokenKind.opensStatement more)
    (other : skipSemicolon ahead = ahead) : skipSemicolon (more ++ ahead) = more ++ ahead := by
  rcases opened with rfl | ⟨t, rest, rfl, opens⟩
  · exact other
  · have proper : t.kind ≠ .semicolon := by
      intro same
      rw [same] at opens
      cases opens
    simp only [List.cons_append, skipSemicolon, if_neg proper]

/-! ### Climbing -/

theorem climb_stops {floor : Precedence} {left : Expr} {rest : List Token}
    (stops : Stops floor rest) : Succeeds (climb floor left rest) left rest := by
  intro start h
  show (climb floor left rest h).Reads left rest
  unfold climb
  cases rest with
  | nil => exact Reading.done_reads.2 ⟨rfl, rfl⟩
  | cons t rest =>
    cases found : t.kind.continuation? with
    | none => simp [found]
    | some next =>
      have low := stops t rfl next found
      simp [found, Nat.not_lt.2 low]

theorem climb_call {floor : Precedence} {left e : Expr} {args : List Expr} {l : Token}
    {tokens middle rest : List Token} (low : floor.level ≤ Precedence.unary.level)
    (opened : l.kind = .leftParen) (listed : Succeeds (items .rightParen tokens) args middle)
    (extended : Succeeds (climb floor (.call left args) middle) e rest) :
    Succeeds (climb floor left (l :: tokens)) e rest := by
  intro start h
  show (climb floor left (l :: tokens) h).Reads e rest
  unfold climb
  have tighter : floor.level < Continuation.call.precedence.level :=
    Nat.lt_of_le_of_lt low (by decide)
  simp only [continuation?_eq_call.2 opened, if_pos tighter]
  exact andThen_succeeds (listed _ _) fun le => extended _ _

theorem climb_index {floor : Precedence} {left position e : Expr} {l r : Token}
    {tokens middle rest : List Token} (low : floor.level ≤ Precedence.unary.level)
    (opened : l.kind = .leftBracket)
    (inside : Succeeds (expression .lowest tokens) position (r :: middle))
    (shut : r.kind = .rightBracket)
    (extended : Succeeds (climb floor (.index left position) middle) e rest) :
    Succeeds (climb floor left (l :: tokens)) e rest := by
  intro start h
  show (climb floor left (l :: tokens) h).Reads e rest
  unfold climb
  have tighter : floor.level < Continuation.index.precedence.level :=
    Nat.lt_of_le_of_lt low (by decide)
  simp only [continuation?_eq_index.2 opened, if_pos tighter]
  exact andThen_succeeds (inside _ _) fun le => expect_succeeds shut fun lt => extended _ _

theorem climb_binary {floor : Precedence} {left right e : Expr} {t : Token} {op : BinaryOp}
    {tokens middle rest : List Token} (operator : t.kind = op.tokenKind)
    (tighter : floor.level < op.precedence.level)
    (operand : Succeeds (expression op.precedence tokens) right middle)
    (extended : Succeeds (climb floor (.binary op left right) middle) e rest) :
    Succeeds (climb floor left (t :: tokens)) e rest := by
  intro start h
  show (climb floor left (t :: tokens) h).Reads e rest
  unfold climb
  have tighter' : floor.level < (Continuation.binary op).precedence.level := tighter
  simp only [continuation?_eq_binary.2 operator, if_pos tighter']
  exact andThen_succeeds (operand _ _) fun le => extended _ _

def ReadsOperand (tokens : List Token) (e : Expr) : Prop :=
  ∃ t tail, tokens = t :: tail ∧ ∀ {floor : Precedence} {ahead rest : List Token} {result : Expr},
    floor.level ≤ Precedence.unary.level → Stops .unary ahead → headKind ahead ≠ .elseWord →
    Succeeds (climb floor e ahead) result rest →
    Succeeds (expressionFrom floor t (tail ++ ahead)) result rest

inductive ReadsOperations : List Token → List (BinaryOp × Expr) → Prop
  | nil : ReadsOperations [] []
  | cons {ts more : List Token} {t : Token} {op : BinaryOp} {e : Expr}
      {ops : List (BinaryOp × Expr)} (operator : t.kind = op.tokenKind)
      (operand : ReadsOperand ts e) (operations : ReadsOperations more ops) :
      ReadsOperations (t :: ts ++ more) ((op, e) :: ops)

def tighterThan (floor : Precedence) (p : BinaryOp × Expr) : Bool :=
  floor.level < p.1.precedence.level

theorem Follows.stops {rest : List Token} (follows : Follows rest) (floor : Precedence) :
    Stops floor rest := by
  intro t ahead next found
  exact absurd (continues_iff.2 ⟨next, found⟩) (follows.ends t ahead)

theorem ReadsOperations.stops {ts rest : List Token} {ops : List (BinaryOp × Expr)}
    (h : ReadsOperations ts ops) (follows : Follows rest) {floor : Precedence}
    (loose : ∀ p, ops.head? = some p → p.1.precedence.level ≤ floor.level) :
    Stops floor (ts ++ rest) := by
  cases h with
  | nil => exact follows.stops floor
  | @cons _ _ _ op _ _ operator =>
    rintro _ ⟨⟩ next found
    rw [continuation?_eq_binary.2 operator] at found
    cases found
    exact loose _ rfl

theorem ReadsOperations.noElse {ts rest : List Token} {ops : List (BinaryOp × Expr)}
    (h : ReadsOperations ts ops) (follows : Follows rest) :
    headKind (ts ++ rest) ≠ .elseWord := by
  cases h with
  | nil => exact follows.noElse
  | @cons _ _ _ op _ _ operator =>
    show _ ≠ TokenKind.elseWord
    rw [List.append_assoc, List.cons_append, headKind, operator]
    cases op <;> decide

/-- The operations that bind tighter than a floor are also those that do so among the ones left
by a higher floor, after the ones taken by it. -/
theorem takeWhile_tighter {floor level : Precedence} (higher : floor.level ≤ level.level)
    (ops : List (BinaryOp × Expr)) :
    ops.takeWhile (tighterThan floor) = ops.takeWhile (tighterThan level) ++
        (ops.dropWhile (tighterThan level)).takeWhile (tighterThan floor) ∧
      ops.dropWhile (tighterThan floor) =
        (ops.dropWhile (tighterThan level)).dropWhile (tighterThan floor) := by
  induction ops with
  | nil => exact ⟨rfl, rfl⟩
  | cons p ops ih =>
    by_cases tight : tighterThan level p = true
    · have tight' : tighterThan floor p = true := by
        simp only [tighterThan, decide_eq_true_eq] at tight ⊢
        omega
      simpa [tight, tight'] using ih
    · simp [tight]

theorem tighter_of_takeWhile {floor : Precedence} {ops : List (BinaryOp × Expr)} :
    ∀ p ∈ ops.takeWhile (tighterThan floor), floor.level < p.1.precedence.level := by
  intro p member
  have tight := List.all_eq_true.1 List.all_takeWhile p member
  simpa [tighterThan] using tight

theorem loose_of_dropWhile {floor level : Precedence} {ops : List (BinaryOp × Expr)} :
    ∀ p, ((ops.dropWhile (tighterThan level)).takeWhile (tighterThan floor)).head? = some p →
      p.1.precedence.level ≤ level.level := by
  intro p ahead
  have failed := List.head?_dropWhile_not (tighterThan level) ops
  rw [List.head?_takeWhile, Option.filter_eq_some_iff] at ahead
  rw [ahead.1] at failed
  simpa [tighterThan] using failed

/-- Climbing takes the operations that bind tighter than the floor and leaves the others. -/
theorem ReadsOperations.climb {ts rest : List Token} {ops : List (BinaryOp × Expr)}
    (h : ReadsOperations ts ops) {floor : Precedence} (left : Expr)
    (low : floor.level ≤ Precedence.unary.level) (follows : Follows rest) :
    ∃ others, ReadsOperations others (ops.dropWhile (tighterThan floor)) ∧
      Succeeds (Parser.climb floor left (ts ++ rest))
        (chain left (ops.takeWhile (tighterThan floor))) (others ++ rest) := by
  induction size : ops.length using Nat.strongRecOn generalizing ts ops floor left with
  | ind _ ih =>
    cases h with
    | nil => exact ⟨[], .nil, climb_stops (follows.stops floor)⟩
    | @cons ts more t op e ops operator operand operations =>
      by_cases tight : floor.level < op.precedence.level
      · -- The operator takes the tighter ones after it, and climbing goes on behind them.
        simp only [List.length_cons] at size
        obtain ⟨t', tail, rfl, reads⟩ := operand
        have low' := level_le_unary op
        obtain ⟨others, operations', inner⟩ := ih _ (by omega) operations e low' rfl
        have fewer := (List.dropWhile_sublist (tighterThan op.precedence) (l := ops)).length_le
        obtain ⟨others', operations'', outer⟩ := ih _ (by omega) operations'
          (.binary op left (chain e (ops.takeWhile (tighterThan op.precedence)))) low rfl
        have ahead : Stops .unary (more ++ rest) :=
          operations.stops follows fun p _ => level_le_unary p.1
        have right := expression_succeeds (reads low' ahead (operations.noElse follows) inner)
        have taken : tighterThan floor (op, e) = true := by simpa [tighterThan] using tight
        obtain ⟨same, same'⟩ := takeWhile_tighter (Nat.le_of_lt tight) ops
        refine ⟨others', ?_, ?_⟩
        · rw [List.dropWhile_cons_of_pos taken, same']
          exact operations''
        · rw [List.takeWhile_cons_of_pos taken, same, ← List.cons_append,
            chain_split left e tighter_of_takeWhile loose_of_dropWhile]
          have place : t :: t' :: tail ++ more ++ rest = t :: t' :: (tail ++ (more ++ rest)) := by
            simp
          rw [place]
          exact climb_binary operator tight right outer
      · have loose : tighterThan floor (op, e) = false := by simpa [tighterThan] using tight
        refine ⟨t :: ts ++ more, ?_, ?_⟩
        · simpa [loose] using cons operator operand operations
        · simp only [List.takeWhile_cons, loose]
          refine climb_stops ((cons operator operand operations).stops follows ?_)
          rintro _ ⟨⟩
          exact Nat.not_lt.1 tight

/-! ### Phrases -/

/-- How the tokens of a phrase are read. -/
def Accepts : Phrase → List Token → Prop
  | .statements body, ts =>
    (program ts = (body, [])) ∧
      ∀ r rest, r.kind = .rightBrace → Succeeds (block (ts ++ r :: rest)) body rest
  | .statement s, ts => ∃ t tail, ts = t :: tail ∧ ∀ rest, Follows rest →
      Succeeds (statement t (tail ++ rest)) s (skipSemicolon rest)
  | .block body, ts => ∃ l tail, ts = l :: tail ∧ l.kind = .leftBrace ∧
      ∀ rest, Succeeds (block (tail ++ rest)) body rest
  | .expression e, ts => ∃ t tail, ts = t :: tail ∧ ∀ rest, Follows rest →
      Succeeds (expressionFrom .lowest t (tail ++ rest)) e rest
  | .operations ops, ts => ReadsOperations ts ops
  | .unary e, ts => ReadsOperand ts e
  | .primary e, ts => ∃ t tail, ts = t :: tail ∧ ∀ rest, headKind rest ≠ .elseWord →
      Succeeds (operand t (tail ++ rest)) e rest
  | .suffixes e e', ts => (∀ rest, headKind rest ≠ .elseWord → headKind (ts ++ rest) ≠ .elseWord) ∧
      ∀ {floor ahead rest result}, floor.level ≤ Precedence.unary.level →
        Succeeds (climb floor e' ahead) result rest →
          Succeeds (climb floor e (ts ++ ahead)) result rest
  | .items es, ts => ∀ closing r rest, closing = .rightParen ∨ closing = .rightBracket →
      r.kind = closing → Succeeds (items closing (ts ++ r :: rest)) es rest
  | .moreItems es, ts => ∀ closing r rest, closing = .rightParen ∨ closing = .rightBracket →
      r.kind = closing →
        Follows (ts ++ r :: rest) ∧ Succeeds (moreItems closing (ts ++ r :: rest)) es rest
  | .pairs ps, ts => ∀ r rest, r.kind = .rightBrace → Succeeds (pairs (ts ++ r :: rest)) ps rest
  | .morePairs ps, ts => ps = [] ∧ ts = [] ∨
      ∃ comma tail, ts = comma :: tail ∧ comma.kind = .comma ∧
        ∀ r rest, r.kind = .rightBrace → Succeeds (pairs (tail ++ r :: rest)) ps rest
  | .params names, ts => ∀ r rest, r.kind = .rightParen →
      Succeeds (params (ts ++ r :: rest)) names rest
  | .moreParams names, ts => ∀ r rest, r.kind = .rightParen →
      Succeeds (moreParams (ts ++ r :: rest)) names rest

theorem Accepts.succeeds {e : Expr} {ts rest : List Token} (h : Accepts (.expression e) ts)
    (follows : Follows rest) : Succeeds (expression .lowest (ts ++ rest)) e rest := by
  obtain ⟨t, tail, rfl, reads⟩ := h
  exact expression_succeeds (reads rest follows)

/-! ### Statements -/

theorem block_nil {r : Token} {rest : List Token} (shut : r.kind = .rightBrace) :
    Succeeds (block (r :: rest)) [] rest := by
  intro start h
  show (block (r :: rest) h).Reads [] rest
  unfold block
  simp [shut]

theorem block_cons {t : Token} {tokens middle rest : List Token} {s : Stmt} {body : List Stmt}
    (opened : t.kind.opensStatement = true) (first : Succeeds (statement t tokens) s middle)
    (others : Succeeds (block middle) body rest) :
    Succeeds (block (t :: tokens)) (s :: body) rest := by
  intro start h
  show (block (t :: tokens) h).Reads (s :: body) rest
  have inside : t.kind ≠ .rightBrace := by
    intro same
    rw [same] at opened
    cases opened
  unfold block
  simp only [if_neg inside]
  exact before_succeeds (first _ _) fun le => others _ _

theorem program_cons {t : Token} {tokens middle : List Token} {s : Stmt} {body : List Stmt}
    (first : Succeeds (statement t tokens) s middle) (others : program middle = (body, [])) :
    program (t :: tokens) = (s :: body, []) := by
  have read := first tokens (.refl _)
  have le : Within middle tokens := read.2.2 ▸ Reading.within _
  exact program_cons_eq.2 ⟨s, middle, body, le, read, others, rfl⟩

theorem accepts_closed {ts more : List Token} {t : Token} {s : Stmt} {body : List Stmt}
    (semicolon : t.kind = .semicolon) (opened : Opened TokenKind.opensStatement ts)
    (first : Accepts (.statement s) ts) (rest : Accepts (.statements body) more) :
    Accepts (.statements (s :: body)) (ts ++ t :: more) := by
  obtain ⟨t', tail, rfl, reads⟩ := first
  obtain ⟨_, _, ⟨⟩, opens⟩ := opened
  have skipped : ∀ ahead, skipSemicolon (t :: ahead) = ahead := by
    intro ahead
    simp only [skipSemicolon, if_pos semicolon]
  have reads' : ∀ ahead, Succeeds (statement t' (tail ++ t :: ahead)) s ahead := by
    intro ahead
    have read := reads (t :: ahead) (.of_kind semicolon rfl (by decide))
    rwa [skipped] at read
  refine ⟨program_cons (reads' more) rest.1, fun r rest' shut => ?_⟩
  have place : t' :: tail ++ t :: more ++ r :: rest' =
      t' :: (tail ++ t :: (more ++ r :: rest')) := by simp
  rw [place]
  exact block_cons opens (reads' _) (rest.2 r rest' shut)

theorem accepts_unclosed {ts more : List Token} {s : Stmt} {body : List Stmt} (ends : Ends more)
    (opened : Opened TokenKind.opensStatement ts)
    (opened' : more = [] ∨ Opened TokenKind.opensStatement more)
    (first : Accepts (.statement s) ts) (rest : Accepts (.statements body) more) :
    Accepts (.statements (s :: body)) (ts ++ more) := by
  obtain ⟨t', tail, rfl, reads⟩ := first
  obtain ⟨_, _, ⟨⟩, opens⟩ := opened
  have reads' : ∀ ahead, Follows ahead → skipSemicolon ahead = ahead →
      Succeeds (statement t' (tail ++ (more ++ ahead))) s (more ++ ahead) := by
    intro ahead follows same
    have read := reads (more ++ ahead) (follows_append opened' ends follows)
    rwa [skipSemicolon_append opened' same] at read
  constructor
  · have read := reads' [] follows_nil rfl
    rw [List.append_nil] at read
    exact program_cons read rest.1
  · intro r rest' shut
    have place : t' :: tail ++ more ++ r :: rest' = t' :: (tail ++ (more ++ r :: rest')) := by simp
    rw [place]
    exact block_cons opens
      (reads' (r :: rest') (.of_kind shut rfl (by decide)) (by simp [skipSemicolon, shut]))
      (rest.2 r rest' shut)

theorem accepts_bind {ts : List Token} {t name sign : Token} {e : Expr} (word : t.kind = .letWord)
    (named : name.kind = .identifier) (assign : sign.kind = .assign)
    (value : Accepts (.expression e) ts) :
    Accepts (.statement (.bind name.literal e)) (t :: name :: sign :: ts) := by
  refine ⟨t, name :: sign :: ts, rfl, fun rest follows start h => ?_⟩
  show (statement t (name :: sign :: (ts ++ rest)) h).Reads _ _
  unfold statement
  simp only [word]
  refine expect_succeeds named fun lt => expect_succeeds assign fun lt' => ?_
  exact andThen_succeeds (value.succeeds follows _ _) fun le => Reading.done_reads.2 ⟨rfl, rfl⟩

theorem accepts_ret {ts : List Token} {t : Token} {e : Expr} (word : t.kind = .returnWord)
    (value : Accepts (.expression e) ts) : Accepts (.statement (.ret e)) (t :: ts) := by
  refine ⟨t, ts, rfl, fun rest follows start h => ?_⟩
  show (statement t (ts ++ rest) h).Reads _ _
  unfold statement
  simp only [word]
  exact andThen_succeeds (value.succeeds follows _ _) fun le => Reading.done_reads.2 ⟨rfl, rfl⟩

theorem accepts_bare {ts : List Token} {e : Expr} (opened : Opened TokenKind.opensExpression ts)
    (value : Accepts (.expression e) ts) : Accepts (.statement (.expression e)) ts := by
  obtain ⟨t, tail, rfl, reads⟩ := value
  obtain ⟨_, _, ⟨⟩, opens⟩ := opened
  refine ⟨t, tail, rfl, fun rest follows start h => ?_⟩
  show (statement t (tail ++ rest) h).Reads _ _
  unfold statement
  split
  · rename_i word
    rw [word] at opens
    cases opens
  · rename_i word
    rw [word] at opens
    cases opens
  · exact andThen_succeeds (reads rest follows _ _) fun le => Reading.done_reads.2 ⟨rfl, rfl⟩

theorem accepts_block {ts : List Token} {l r : Token} {body : List Stmt}
    (opened : l.kind = .leftBrace) (inside : Accepts (.statements body) ts)
    (shut : r.kind = .rightBrace) : Accepts (.block body) (l :: ts ++ [r]) := by
  refine ⟨l, ts ++ [r], rfl, opened, fun rest => ?_⟩
  rw [List.append_assoc]
  exact inside.2 r rest shut

/-! ### Operators and suffixes -/

theorem accepts_expression {ts more : List Token} {first : Expr} {ops : List (BinaryOp × Expr)}
    (operand : Accepts (.unary first) ts) (operations : Accepts (.operations ops) more) :
    Accepts (.expression (chain first ops)) (ts ++ more) := by
  obtain ⟨t, tail, rfl, reads⟩ := operand
  refine ⟨t, tail ++ more, rfl, fun rest follows => ?_⟩
  have low : Precedence.lowest.level ≤ Precedence.unary.level := by decide
  obtain ⟨others, operations', climbs⟩ := ReadsOperations.climb operations first low follows
  have all : ∀ p ∈ ops, tighterThan .lowest p = true := by
    rintro ⟨op, e⟩ -
    cases op <;> rfl
  have none : ops.dropWhile (tighterThan .lowest) = [] := by
    rw [← List.append_nil ops, List.dropWhile_append_of_pos all]
    rfl
  have whole : ops.takeWhile (tighterThan .lowest) = ops := by
    have joined := List.takeWhile_append_dropWhile (p := tighterThan .lowest) (l := ops)
    rwa [none, List.append_nil] at joined
  rw [none] at operations'
  rw [whole] at climbs
  cases operations'
  rw [List.append_assoc]
  exact reads low (operations.stops follows fun p _ => level_le_unary p.1)
    (operations.noElse follows) climbs

theorem accepts_unary {ts : List Token} {t : Token} {op : UnaryOp} {e : Expr}
    (operator : t.kind = op.tokenKind) (inner : Accepts (.unary e) ts) :
    Accepts (.unary (.unary op e)) (t :: ts) := by
  obtain ⟨t', tail, rfl, reads⟩ := inner
  refine ⟨t, t' :: tail, rfl, fun {floor ahead rest result} low stops noElse climbs => ?_⟩
  have read : Succeeds (expression .unary (t' :: (tail ++ ahead))) e ahead :=
    expression_succeeds (reads (Nat.le_refl _) stops noElse (climb_stops stops))
  have operated : Succeeds (operand t (t' :: (tail ++ ahead))) (.unary op e) ahead := by
    intro start h
    show (operand t (t' :: (tail ++ ahead)) h).Reads _ _
    unfold operand
    cases op with
    | not =>
      simp only [operator, UnaryOp.tokenKind]
      exact map_succeeds (read _ _)
    | negate =>
      simp only [operator, UnaryOp.tokenKind]
      exact map_succeeds (read _ _)
  exact expressionFrom_succeeds operated climbs

theorem accepts_suffixed {ts more : List Token} {e e' : Expr} (first : Accepts (.primary e) ts)
    (rest : Accepts (.suffixes e e') more) : Accepts (.unary e') (ts ++ more) := by
  obtain ⟨t, tail, rfl, reads⟩ := first
  refine ⟨t, tail ++ more, rfl, fun {floor ahead rest' result} low stops noElse climbs => ?_⟩
  rw [List.append_assoc]
  exact expressionFrom_succeeds (reads (more ++ ahead) (rest.1 ahead noElse))
    (rest.2 low climbs)

theorem accepts_call {ts more : List Token} {l r : Token} {e e' : Expr} {args : List Expr}
    (opened : l.kind = .leftParen) (inside : Accepts (.items args) ts)
    (shut : r.kind = .rightParen) (rest : Accepts (.suffixes (.call e args) e') more) :
    Accepts (.suffixes e e') (l :: ts ++ r :: more) := by
  refine ⟨fun ahead _ => by rw [List.cons_append, List.cons_append, headKind, opened]; decide,
    fun {floor ahead rest' result} low climbs => ?_⟩
  have place : l :: ts ++ r :: more ++ ahead = l :: (ts ++ r :: (more ++ ahead)) := by simp
  rw [place]
  exact climb_call low opened (inside .rightParen r _ (Or.inl rfl) shut) (rest.2 low climbs)

theorem accepts_index {ts more : List Token} {l r : Token} {e e' position : Expr}
    (opened : l.kind = .leftBracket) (inside : Accepts (.expression position) ts)
    (shut : r.kind = .rightBracket) (rest : Accepts (.suffixes (.index e position) e') more) :
    Accepts (.suffixes e e') (l :: ts ++ r :: more) := by
  refine ⟨fun ahead _ => by rw [List.cons_append, List.cons_append, headKind, opened]; decide,
    fun {floor ahead rest' result} low climbs => ?_⟩
  have place : l :: ts ++ r :: more ++ ahead = l :: (ts ++ r :: (more ++ ahead)) := by simp
  rw [place]
  exact climb_index low opened (inside.succeeds (.of_kind shut rfl (by decide))) shut
    (rest.2 low climbs)

/-! ### Primary expressions -/

theorem accepts_token {t : Token} {e : Expr}
    (read : ∀ tokens, Succeeds (operand t tokens) e tokens) : Accepts (.primary e) [t] :=
  ⟨t, [], rfl, fun rest _ => read rest⟩

theorem accepts_identifier {t : Token} (kind : t.kind = .identifier) :
    Accepts (.primary (.identifier t.literal)) [t] := by
  refine accepts_token fun tokens start h => ?_
  show (operand t tokens h).Reads _ _
  unfold operand
  simp [kind]

theorem accepts_integer {t : Token} (kind : t.kind = .integer)
    (small : Decimal.value t.literal.toList ≤ Decimal.int64Max) :
    Accepts (.primary (.integer (Int64.ofNat (Decimal.value t.literal.toList)))) [t] := by
  refine accepts_token fun tokens start h => ?_
  show (operand t tokens h).Reads _ _
  unfold operand
  simp [kind, Decimal.toInt64?, small]

theorem accepts_string {t : Token} (kind : t.kind = .string) :
    Accepts (.primary (.string t.literal)) [t] := by
  refine accepts_token fun tokens start h => ?_
  show (operand t tokens h).Reads _ _
  unfold operand
  simp [kind]

theorem accepts_boolean {t : Token} {b : Bool}
    (kind : t.kind = if b then .trueWord else .falseWord) :
    Accepts (.primary (.boolean b)) [t] := by
  refine accepts_token fun tokens start h => ?_
  show (operand t tokens h).Reads _ _
  unfold operand
  cases b <;> simp_all

theorem accepts_grouped {ts : List Token} {l r : Token} {e : Expr} (opened : l.kind = .leftParen)
    (inside : Accepts (.expression e) ts) (shut : r.kind = .rightParen) :
    Accepts (.primary e) (l :: ts ++ [r]) := by
  refine ⟨l, ts ++ [r], rfl, fun rest _ => ?_⟩
  rw [List.append_assoc]
  intro start h
  show (operand l (ts ++ r :: rest) h).Reads e rest
  unfold operand
  simp only [opened]
  refine andThen_succeeds (inside.succeeds (.of_kind shut rfl (by decide)) _ _) fun le => ?_
  exact expect_succeeds shut fun lt => Reading.done_reads.2 ⟨rfl, rfl⟩

theorem accepts_array {ts : List Token} {l r : Token} {es : List Expr}
    (opened : l.kind = .leftBracket) (inside : Accepts (.items es) ts)
    (shut : r.kind = .rightBracket) : Accepts (.primary (.array es)) (l :: ts ++ [r]) := by
  refine ⟨l, ts ++ [r], rfl, fun rest _ => ?_⟩
  rw [List.append_assoc]
  intro start h
  show (operand l (ts ++ r :: rest) h).Reads _ rest
  unfold operand
  simp only [opened]
  exact map_succeeds (inside .rightBracket r rest (Or.inr rfl) shut _ _)

theorem accepts_hash {ts : List Token} {l r : Token} {ps : List (Expr × Expr)}
    (opened : l.kind = .leftBrace) (inside : Accepts (.pairs ps) ts)
    (shut : r.kind = .rightBrace) : Accepts (.primary (.hash ps)) (l :: ts ++ [r]) := by
  refine ⟨l, ts ++ [r], rfl, fun rest _ => ?_⟩
  rw [List.append_assoc]
  intro start h
  show (operand l (ts ++ r :: rest) h).Reads _ rest
  unfold operand
  simp only [opened]
  exact map_succeeds (inside r rest shut _ _)

theorem operand_conditional {t : Token} {tokens rest : List Token} {e : Expr}
    (word : t.kind = .ifWord) (reads : Succeeds (conditional tokens) e rest) :
    Succeeds (operand t tokens) e rest := by
  intro start h
  show (operand t tokens h).Reads e rest
  unfold operand
  simp only [word]
  exact reads _ _

theorem accepts_conditional {ts body : List Token} {t l r : Token} {e : Expr}
    {consequence : List Stmt} (word : t.kind = .ifWord) (opened : l.kind = .leftParen)
    (condition : Accepts (.expression e) ts) (shut : r.kind = .rightParen)
    (taken : Accepts (.block consequence) body) :
    Accepts (.primary (.conditional e consequence none)) (t :: l :: ts ++ r :: body) := by
  obtain ⟨brace, tail, rfl, opened', reads⟩ := taken
  refine ⟨t, l :: ts ++ r :: brace :: tail, rfl, fun rest noElse => operand_conditional word ?_⟩
  have place : l :: ts ++ r :: brace :: tail ++ rest =
      l :: (ts ++ r :: brace :: (tail ++ rest)) := by simp
  rw [place]
  intro start h
  show (conditional (l :: (ts ++ r :: brace :: (tail ++ rest))) h).Reads _ rest
  unfold conditional
  refine expect_succeeds opened fun lt => ?_
  refine andThen_succeeds (condition.succeeds (.of_kind shut rfl (by decide)) _ _) fun le => ?_
  refine expect_succeeds shut fun lt => expect_succeeds opened' fun lt => ?_
  refine andThen_succeeds (reads rest _ _) fun le => ?_
  simp [noElse]

theorem accepts_alternative {ts body other : List Token} {t l r orElse : Token} {e : Expr}
    {consequence alternative : List Stmt} (word : t.kind = .ifWord) (opened : l.kind = .leftParen)
    (condition : Accepts (.expression e) ts) (shut : r.kind = .rightParen)
    (taken : Accepts (.block consequence) body) (word' : orElse.kind = .elseWord)
    (otherwise : Accepts (.block alternative) other) :
    Accepts (.primary (.conditional e consequence (some alternative)))
      (t :: l :: ts ++ r :: body ++ orElse :: other) := by
  obtain ⟨brace, tail, rfl, opened', reads⟩ := taken
  obtain ⟨brace', tail', rfl, opened'', reads'⟩ := otherwise
  refine ⟨t, l :: ts ++ r :: brace :: tail ++ orElse :: brace' :: tail', rfl,
    fun rest _ => operand_conditional word ?_⟩
  have place : l :: ts ++ r :: brace :: tail ++ orElse :: brace' :: tail' ++ rest =
      l :: (ts ++ r :: brace :: (tail ++ orElse :: brace' :: (tail' ++ rest))) := by simp
  rw [place]
  intro start h
  show (conditional _ h).Reads _ rest
  unfold conditional
  refine expect_succeeds opened fun lt => ?_
  refine andThen_succeeds (condition.succeeds (.of_kind shut rfl (by decide)) _ _) fun le => ?_
  refine expect_succeeds shut fun lt => expect_succeeds opened' fun lt => ?_
  refine andThen_succeeds (reads _ _ _) fun le => ?_
  have ahead : headKind (orElse :: brace' :: (tail' ++ rest)) = .elseWord := word'
  simp only [if_pos ahead, List.tail_cons]
  exact expect_succeeds opened'' fun lt => map_succeeds (reads' rest _ _)

theorem accepts_function {ts body : List Token} {t l r : Token} {names : List String}
    {inside : List Stmt} (word : t.kind = .functionWord) (opened : l.kind = .leftParen)
    (declared : Accepts (.params names) ts) (shut : r.kind = .rightParen)
    (run : Accepts (.block inside) body) :
    Accepts (.primary (.function names inside)) (t :: l :: ts ++ r :: body) := by
  obtain ⟨brace, tail, rfl, opened', reads⟩ := run
  refine ⟨t, l :: ts ++ r :: brace :: tail, rfl, fun rest _ => ?_⟩
  have place : l :: ts ++ r :: brace :: tail ++ rest =
      l :: (ts ++ r :: brace :: (tail ++ rest)) := by simp
  rw [place]
  intro start h
  show (operand t _ h).Reads _ rest
  unfold operand
  simp only [word]
  refine expect_succeeds opened fun lt => ?_
  refine andThen_succeeds (declared r _ shut _ _) fun le => ?_
  exact expect_succeeds opened' fun lt => map_succeeds (reads rest _ _)

/-! ### Lists -/

theorem headKind_append {p : TokenKind → Bool} {tokens : List Token} (opened : Opened p tokens)
    {kind : TokenKind} (other : p kind = false) (more : List Token) :
    headKind (tokens ++ more) ≠ kind := by
  obtain ⟨t, rest, rfl, opens⟩ := opened
  intro same
  rw [List.cons_append, headKind] at same
  rw [same, other] at opens
  cases opens

theorem accepts_noItem : Accepts (.items []) [] := by
  intro closing r rest _ shut start h
  show (items closing (r :: rest) h).Reads [] rest
  unfold items
  simp [headKind, shut]

theorem accepts_items {ts more : List Token} {e : Expr} {es : List Expr}
    (opened : Opened TokenKind.opensExpression ts) (first : Accepts (.expression e) ts)
    (rest : Accepts (.moreItems es) more) : Accepts (.items (e :: es)) (ts ++ more) := by
  intro closing r rest' closes shut
  rw [List.append_assoc]
  intro start h
  show (items closing (ts ++ (more ++ r :: rest')) h).Reads (e :: es) rest'
  have other : headKind (ts ++ (more ++ r :: rest')) ≠ closing := by
    rcases closes with rfl | rfl <;> exact headKind_append opened rfl _
  obtain ⟨follows, reads⟩ := rest closing r rest' closes shut
  unfold items
  simp only [if_neg other]
  exact andThen_succeeds (first.succeeds follows _ _) fun le => map_succeeds (reads _ _)

theorem moreItems_closing {closing : TokenKind} {r : Token} {rest : List Token}
    (proper : closing ≠ .comma) (shut : r.kind = closing) :
    Succeeds (moreItems closing (r :: rest)) [] rest := by
  intro start h
  show (moreItems closing (r :: rest) h).Reads [] rest
  unfold moreItems
  split
  · rename_i same _
    injection same with same
    rw [same] at shut
    exact absurd shut.symm proper
  · exact expect_succeeds shut fun lt => Reading.done_reads.2 ⟨rfl, rfl⟩

theorem accepts_lastItem : Accepts (.moreItems []) [] := by
  intro closing r rest closes shut
  rcases closes with rfl | rfl
  · exact ⟨.of_kind shut rfl (by decide), moreItems_closing (by decide) shut⟩
  · exact ⟨.of_kind shut rfl (by decide), moreItems_closing (by decide) shut⟩

theorem accepts_moreItems {ts more : List Token} {t : Token} {e : Expr} {es : List Expr}
    (comma : t.kind = .comma) (next : Accepts (.expression e) ts)
    (rest : Accepts (.moreItems es) more) :
    Accepts (.moreItems (e :: es)) (t :: ts ++ more) := by
  intro closing r rest' closes shut
  obtain ⟨follows, reads⟩ := rest closing r rest' closes shut
  obtain ⟨kind, literal⟩ := t
  obtain rfl : kind = .comma := comma
  have comma : (TokenKind.comma) ≠ .elseWord := by decide
  refine ⟨.of_kind rfl rfl comma, ?_⟩
  have place : (⟨.comma, literal⟩ : Token) :: ts ++ more ++ r :: rest' =
      ⟨.comma, literal⟩ :: (ts ++ (more ++ r :: rest')) := by simp
  rw [place]
  intro start h
  show (moreItems closing (⟨.comma, literal⟩ :: (ts ++ (more ++ r :: rest'))) h).Reads _ rest'
  unfold moreItems
  exact andThen_succeeds (next.succeeds follows _ _) fun le => map_succeeds (reads _ _)

theorem accepts_noPair : Accepts (.pairs []) [] := by
  intro r rest shut start h
  show (pairs (r :: rest) h).Reads [] rest
  unfold pairs
  simp [headKind, shut]

theorem accepts_pairs {ts ts' more : List Token} {t : Token} {key value : Expr}
    {ps : List (Expr × Expr)} (opened : Opened TokenKind.opensExpression ts)
    (first : Accepts (.expression key) ts) (colon : t.kind = .colon)
    (second : Accepts (.expression value) ts') (rest : Accepts (.morePairs ps) more) :
    Accepts (.pairs ((key, value) :: ps)) (ts ++ t :: ts' ++ more) := by
  intro r rest' shut
  have place : ts ++ t :: ts' ++ more ++ r :: rest' = ts ++ t :: (ts' ++ (more ++ r :: rest')) := by
    simp
  rw [place]
  intro start h
  show (pairs (ts ++ t :: (ts' ++ (more ++ r :: rest'))) h).Reads ((key, value) :: ps) rest'
  have other : headKind (ts ++ t :: (ts' ++ (more ++ r :: rest'))) ≠ .rightBrace :=
    headKind_append opened rfl _
  unfold pairs
  simp only [if_neg other]
  refine andThen_succeeds (first.succeeds (.of_kind colon rfl (by decide)) _ _) fun le => ?_
  refine expect_succeeds colon fun lt => ?_
  rcases rest with ⟨rfl, rfl⟩ | ⟨comma, tail, rfl, kind, reads⟩
  · refine andThen_succeeds (second.succeeds (.of_kind shut rfl (by decide)) _ _) fun le => ?_
    simp [headKind, shut]
  · have follows : Follows (comma :: tail ++ r :: rest') := .of_kind kind rfl (by decide)
    refine andThen_succeeds (second.succeeds follows _ _) fun le => ?_
    have other : headKind (comma :: tail ++ r :: rest') ≠ .rightBrace := by
      rw [List.cons_append, headKind, kind]
      decide
    rw [if_neg other]
    exact expect_succeeds kind fun lt => map_succeeds (reads r rest' shut _ _)

theorem accepts_noParam : Accepts (.params []) [] := by
  intro r rest shut start h
  show (params (r :: rest) h).Reads [] rest
  unfold params
  simp [headKind, shut]

theorem accepts_params {more : List Token} {t : Token} {names : List String}
    (named : t.kind = .identifier) (rest : Accepts (.moreParams names) more) :
    Accepts (.params (t.literal :: names)) (t :: more) := by
  intro r rest' shut start h
  show (params (t :: (more ++ r :: rest')) h).Reads _ rest'
  have other : headKind (t :: (more ++ r :: rest')) ≠ .rightParen := by
    rw [headKind, named]
    decide
  unfold params
  simp only [if_neg other]
  exact expect_succeeds named fun lt => map_succeeds (rest r rest' shut _ _)

theorem accepts_lastParam : Accepts (.moreParams []) [] := by
  intro r rest shut start h
  show (moreParams (r :: rest) h).Reads [] rest
  unfold moreParams
  split
  · rename_i same _
    injection same with same
    rw [same] at shut
    cases shut
  · exact expect_succeeds shut fun lt => Reading.done_reads.2 ⟨rfl, rfl⟩

theorem accepts_moreParams {more : List Token} {t' t : Token} {names : List String}
    (comma : t'.kind = .comma) (named : t.kind = .identifier)
    (rest : Accepts (.moreParams names) more) :
    Accepts (.moreParams (t.literal :: names)) (t' :: t :: more) := by
  obtain ⟨kind, literal⟩ := t'
  obtain rfl : kind = .comma := comma
  intro r rest' shut start h
  show (moreParams (⟨.comma, literal⟩ :: t :: (more ++ r :: rest')) h).Reads _ rest'
  unfold moreParams
  exact expect_succeeds named fun lt => map_succeeds (rest r rest' shut _ _)

/-! ### All phrases -/

theorem accepts_of_derives {ts : List Token} {phrase : Phrase} (h : Derives ts phrase) :
    Accepts phrase ts := by
  induction h with
  | noStatement => exact ⟨by rw [program], fun r rest shut => block_nil shut⟩
  | closed first semicolon rest ih ih' => exact accepts_closed semicolon first.starts ih ih'
  | unclosed first ends rest ih ih' => exact accepts_unclosed ends first.starts rest.starts ih ih'
  | bind word named assign value ih => exact accepts_bind word named assign ih
  | ret word value ih => exact accepts_ret word ih
  | bare value ih => exact accepts_bare value.starts ih
  | block opened inside shut ih => exact accepts_block opened ih shut
  | expression operand operations ih ih' => exact accepts_expression ih ih'
  | noOperation => exact .nil
  | operation operator operand operations ih ih' => exact .cons operator ih ih'
  | unary operator operand ih => exact accepts_unary operator ih
  | suffixed first rest ih ih' => exact accepts_suffixed ih ih'
  | noSuffix => exact ⟨fun rest noElse => noElse, fun low climbs => climbs⟩
  | call opened inside shut rest ih ih' => exact accepts_call opened ih shut ih'
  | index opened inside shut rest ih ih' => exact accepts_index opened ih shut ih'
  | identifier kind => exact accepts_identifier kind
  | integer kind small => exact accepts_integer kind small
  | string kind => exact accepts_string kind
  | trueWord kind => exact accepts_boolean kind
  | falseWord kind => exact accepts_boolean kind
  | grouped opened inside shut ih => exact accepts_grouped opened ih shut
  | array opened inside shut ih => exact accepts_array opened ih shut
  | hash opened inside shut ih => exact accepts_hash opened ih shut
  | conditional word opened condition shut taken ih ih' =>
    exact accepts_conditional word opened ih shut ih'
  | alternative word opened condition shut taken word' otherwise ih ih' ih'' =>
    exact accepts_alternative word opened ih shut ih' word' ih''
  | function word opened declared shut run ih ih' => exact accepts_function word opened ih shut ih'
  | noItem => exact accepts_noItem
  | items first rest ih ih' => exact accepts_items first.starts ih ih'
  | lastItem => exact accepts_lastItem
  | moreItems comma next rest ih ih' => exact accepts_moreItems comma ih ih'
  | noPair => exact accepts_noPair
  | pairs first colon second rest ih ih' ih'' =>
    exact accepts_pairs first.starts ih colon ih' ih''
  | lastPair => exact Or.inl ⟨rfl, rfl⟩
  | trailingComma comma => exact Or.inr ⟨_, [], rfl, comma, accepts_noPair⟩
  | morePairs comma first colon second rest ih ih' ih'' =>
    exact Or.inr ⟨_, _, by rw [List.cons_append, List.cons_append], comma,
      accepts_pairs first.starts ih colon ih' ih''⟩
  | noParam => exact accepts_noParam
  | params named rest ih => exact accepts_params named ih
  | lastParam => exact accepts_lastParam
  | moreParams comma named rest ih => exact accepts_moreParams comma named ih

end Parser

/-- A source text is parsed as a program without errors just if its tokens derive the program. -/
theorem parse_eq_iff {source : String} {statements : Program} :
    parse source = (statements, []) ↔ Derives (tokens source) (.statements statements) :=
  ⟨Parser.program_derives, fun derives => (Parser.accepts_of_derives derives).1⟩

/-- The parser accepts exactly the grammar, and so no text with an illegal token. -/
theorem parse_accepts_grammar (source : String) :
    ((parse source).2 = [] ↔ ∃ statements, Derives (tokens source) (.statements statements)) ∧
      ((parse source).2 = [] → ∀ t ∈ tokens source, t.kind ≠ .illegal) := by
  have accepted : (parse source).2 = [] ↔
      ∃ statements, Derives (tokens source) (.statements statements) := by
    constructor
    · intro clean
      exact ⟨(parse source).1, parse_eq_iff.1 (Prod.ext rfl clean)⟩
    · rintro ⟨statements, derives⟩
      rw [parse_eq_iff.2 derives]
  refine ⟨accepted, fun clean => ?_⟩
  obtain ⟨statements, derives⟩ := accepted.1 clean
  exact derives.legal

end MonkeyLanguage
