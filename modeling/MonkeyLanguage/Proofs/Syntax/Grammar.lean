import MonkeyLanguage.Syntax.Precedence
import MonkeyLanguage.Text.Decimal

/-!
# The grammar

`Derives tokens phrase` says that a phrase of the grammar is written with these tokens. A phrase
carries the tree that it stands for. The rules know nothing of precedence: an expression is a chain
of operands and operators, and `Spine` says how a chain groups.
-/

namespace MonkeyLanguage

/-! ### Chains of operators -/

/-- What has been read of a chain: operators that wait for their right operand, each with its left
one, and the operand read last. -/
inductive Spine where
  | leaf (operand : Expr)
  | node (left : Expr) (op : BinaryOp) (right : Spine)

namespace Spine

def expr : Spine → Expr
  | leaf operand => operand
  | node left op right => .binary op left right.expr

/-- The next operator takes as its left operand all that binds at least as tightly. -/
def extend : Spine → BinaryOp × Expr → Spine
  | leaf operand, (op, next) => node operand op (leaf next)
  | node left op' right, (op, next) =>
    if op'.precedence.level < op.precedence.level then node left op' (right.extend (op, next))
    else node (node left op' right).expr op (leaf next)

end Spine

def chain (first : Expr) (rest : List (BinaryOp × Expr)) : Expr :=
  (rest.foldl Spine.extend (.leaf first)).expr

@[simp] theorem chain_single (first : Expr) (op : BinaryOp) (next : Expr) :
    chain first [(op, next)] = .binary op first next := rfl

theorem foldl_extend_node {left : Expr} {op : BinaryOp} {right : Spine}
    {rest : List (BinaryOp × Expr)}
    (tighter : ∀ p ∈ rest, op.precedence.level < p.1.precedence.level) :
    rest.foldl Spine.extend (.node left op right) =
      .node left op (rest.foldl Spine.extend right) := by
  induction rest generalizing right with
  | nil => rfl
  | cons p rest ih =>
    have first := tighter p (by simp)
    simp only [List.foldl_cons, Spine.extend, if_pos first]
    exact ih fun p' member => tighter p' (by simp [member])

/-- An operator takes the tighter ones that follow it; all of that is the left operand of the
first one that is not tighter. -/
theorem chain_split (first next : Expr) {op : BinaryOp} {inner outer : List (BinaryOp × Expr)}
    (tighter : ∀ p ∈ inner, op.precedence.level < p.1.precedence.level)
    (looser : ∀ p, outer.head? = some p → p.1.precedence.level ≤ op.precedence.level) :
    chain first ((op, next) :: inner ++ outer) =
      chain (.binary op first (chain next inner)) outer := by
  have grouped : ((op, next) :: inner).foldl Spine.extend (.leaf first) =
      .node first op (inner.foldl Spine.extend (.leaf next)) := foldl_extend_node tighter
  rw [chain, List.foldl_append, grouped]
  cases outer with
  | nil => rfl
  | cons p outer =>
    obtain ⟨op', next'⟩ := p
    have stops : op'.precedence.level ≤ op.precedence.level := looser _ rfl
    rw [List.foldl_cons, Spine.extend, if_neg (by omega)]
    rfl

/-! ### Tokens of operators -/

def UnaryOp.tokenKind : UnaryOp → TokenKind
  | .not => .bang
  | .negate => .minus

def BinaryOp.tokenKind : BinaryOp → TokenKind
  | .plus => .plus
  | .minus => .minus
  | .multiply => .asterisk
  | .divide => .slash
  | .lessThan => .less
  | .greaterThan => .greater
  | .equal => .equalEqual
  | .notEqual => .bangEqual

/-- The tokens that could continue an expression. -/
inductive TokenKind.Continues : TokenKind → Prop
  | operator (op : BinaryOp) : Continues op.tokenKind
  | leftParen : Continues .leftParen
  | leftBracket : Continues .leftBracket

/-- What comes next, if anything does, could not continue an expression. -/
def Ends (tokens : List Token) : Prop := ∀ t, tokens.head? = some t → ¬ t.kind.Continues

theorem continuation?_eq_binary {kind : TokenKind} {op : BinaryOp} :
    kind.continuation? = some (.binary op) ↔ kind = op.tokenKind := by
  constructor
  · intro h
    cases kind <;> simp only [TokenKind.continuation?, reduceCtorEq, Option.some.injEq,
      Continuation.binary.injEq] at h <;> subst h <;> rfl
  · rintro rfl
    cases op <;> rfl

theorem continuation?_eq_call {kind : TokenKind} :
    kind.continuation? = some .call ↔ kind = .leftParen := by
  cases kind <;> simp [TokenKind.continuation?]

theorem continuation?_eq_index {kind : TokenKind} :
    kind.continuation? = some .index ↔ kind = .leftBracket := by
  cases kind <;> simp [TokenKind.continuation?]

theorem continues_iff {kind : TokenKind} :
    kind.Continues ↔ ∃ next, kind.continuation? = some next := by
  constructor
  · rintro (op | _ | _)
    · exact ⟨_, continuation?_eq_binary.2 rfl⟩
    · exact ⟨_, continuation?_eq_call.2 rfl⟩
    · exact ⟨_, continuation?_eq_index.2 rfl⟩
  · rintro ⟨next, found⟩
    cases next with
    | call => exact continuation?_eq_call.1 found ▸ .leftParen
    | index => exact continuation?_eq_index.1 found ▸ .leftBracket
    | binary op => exact continuation?_eq_binary.1 found ▸ .operator op

/-- What comes next, if anything does, does not bind tighter than `floor`. -/
def Stops (floor : Precedence) (tokens : List Token) : Prop :=
  ∀ t, tokens.head? = some t → ∀ next, t.kind.continuation? = some next →
    next.precedence.level ≤ floor.level

theorem stops_lowest_iff {tokens : List Token} : Stops .lowest tokens ↔ Ends tokens := by
  constructor
  · intro stops t ahead continues
    obtain ⟨next, found⟩ := continues_iff.1 continues
    have low := stops t ahead next found
    cases next with
    | call | index => simp [Continuation.precedence, Precedence.level] at low
    | binary op =>
      cases op <;>
        simp [Continuation.precedence, BinaryOp.precedence, Precedence.level] at low
  · intro ends t ahead next found
    exact absurd (continues_iff.2 ⟨next, found⟩) (ends t ahead)

/-! ### Phrases -/

inductive Phrase where
  | statements (body : List Stmt)
  /-- A statement without the semicolon that may close it. -/
  | statement (s : Stmt)
  | block (body : List Stmt)
  | expression (e : Expr)
  /-- Operators, each followed by an operand. -/
  | operations (rest : List (BinaryOp × Expr))
  | unary (e : Expr)
  | primary (e : Expr)
  /-- Calls and indices that make the second expression of the first. -/
  | suffixes (before after : Expr)
  | items (es : List Expr)
  | moreItems (es : List Expr)
  | pairs (ps : List (Expr × Expr))
  | morePairs (ps : List (Expr × Expr))
  | params (names : List String)
  | moreParams (names : List String)

inductive Derives : List Token → Phrase → Prop
  -- Statements
  | noStatement : Derives [] (.statements [])
  | closed {ts more : List Token} {t : Token} {s : Stmt} {body : List Stmt}
      (first : Derives ts (.statement s)) (semicolon : t.kind = .semicolon)
      (rest : Derives more (.statements body)) :
      Derives (ts ++ t :: more) (.statements (s :: body))
  | unclosed {ts more : List Token} {s : Stmt} {body : List Stmt}
      (first : Derives ts (.statement s)) (ends : Ends more)
      (rest : Derives more (.statements body)) : Derives (ts ++ more) (.statements (s :: body))
  | bind {ts : List Token} {t name sign : Token} {e : Expr} (word : t.kind = .letWord)
      (named : name.kind = .identifier) (assign : sign.kind = .assign)
      (value : Derives ts (.expression e)) :
      Derives (t :: name :: sign :: ts) (.statement (.bind name.literal e))
  | ret {ts : List Token} {t : Token} {e : Expr} (word : t.kind = .returnWord)
      (value : Derives ts (.expression e)) : Derives (t :: ts) (.statement (.ret e))
  | bare {ts : List Token} {e : Expr} (value : Derives ts (.expression e)) :
      Derives ts (.statement (.expression e))
  | block {ts : List Token} {l r : Token} {body : List Stmt} (opened : l.kind = .leftBrace)
      (inside : Derives ts (.statements body)) (shut : r.kind = .rightBrace) :
      Derives (l :: ts ++ [r]) (.block body)
  -- Operators
  | expression {ts more : List Token} {first : Expr} {rest : List (BinaryOp × Expr)}
      (operand : Derives ts (.unary first)) (operations : Derives more (.operations rest)) :
      Derives (ts ++ more) (.expression (chain first rest))
  | noOperation : Derives [] (.operations [])
  | operation {ts more : List Token} {t : Token} {op : BinaryOp} {e : Expr}
      {rest : List (BinaryOp × Expr)} (operator : t.kind = op.tokenKind)
      (operand : Derives ts (.unary e)) (operations : Derives more (.operations rest)) :
      Derives (t :: ts ++ more) (.operations ((op, e) :: rest))
  | unary {ts : List Token} {t : Token} {op : UnaryOp} {e : Expr} (operator : t.kind = op.tokenKind)
      (operand : Derives ts (.unary e)) : Derives (t :: ts) (.unary (.unary op e))
  | suffixed {ts more : List Token} {e e' : Expr} (first : Derives ts (.primary e))
      (rest : Derives more (.suffixes e e')) : Derives (ts ++ more) (.unary e')
  | noSuffix {e : Expr} : Derives [] (.suffixes e e)
  | call {ts more : List Token} {l r : Token} {e e' : Expr} {args : List Expr}
      (opened : l.kind = .leftParen) (inside : Derives ts (.items args))
      (shut : r.kind = .rightParen) (rest : Derives more (.suffixes (.call e args) e')) :
      Derives (l :: ts ++ r :: more) (.suffixes e e')
  | index {ts more : List Token} {l r : Token} {e e' position : Expr}
      (opened : l.kind = .leftBracket) (inside : Derives ts (.expression position))
      (shut : r.kind = .rightBracket) (rest : Derives more (.suffixes (.index e position) e')) :
      Derives (l :: ts ++ r :: more) (.suffixes e e')
  -- Primary expressions
  | identifier {t : Token} (kind : t.kind = .identifier) :
      Derives [t] (.primary (.identifier t.literal))
  | integer {t : Token} (kind : t.kind = .integer)
      (small : Decimal.value t.literal.toList ≤ Decimal.int64Max) :
      Derives [t] (.primary (.integer (Int64.ofNat (Decimal.value t.literal.toList))))
  | string {t : Token} (kind : t.kind = .string) : Derives [t] (.primary (.string t.literal))
  | trueWord {t : Token} (kind : t.kind = .trueWord) : Derives [t] (.primary (.boolean true))
  | falseWord {t : Token} (kind : t.kind = .falseWord) : Derives [t] (.primary (.boolean false))
  | grouped {ts : List Token} {l r : Token} {e : Expr} (opened : l.kind = .leftParen)
      (inside : Derives ts (.expression e)) (shut : r.kind = .rightParen) :
      Derives (l :: ts ++ [r]) (.primary e)
  | array {ts : List Token} {l r : Token} {es : List Expr} (opened : l.kind = .leftBracket)
      (inside : Derives ts (.items es)) (shut : r.kind = .rightBracket) :
      Derives (l :: ts ++ [r]) (.primary (.array es))
  | hash {ts : List Token} {l r : Token} {ps : List (Expr × Expr)} (opened : l.kind = .leftBrace)
      (inside : Derives ts (.pairs ps)) (shut : r.kind = .rightBrace) :
      Derives (l :: ts ++ [r]) (.primary (.hash ps))
  | conditional {ts body : List Token} {t l r : Token} {e : Expr} {consequence : List Stmt}
      (word : t.kind = .ifWord) (opened : l.kind = .leftParen)
      (condition : Derives ts (.expression e)) (shut : r.kind = .rightParen)
      (taken : Derives body (.block consequence)) :
      Derives (t :: l :: ts ++ r :: body) (.primary (.conditional e consequence none))
  | alternative {ts body other : List Token} {t l r orElse : Token} {e : Expr}
      {consequence alternative : List Stmt} (word : t.kind = .ifWord) (opened : l.kind = .leftParen)
      (condition : Derives ts (.expression e)) (shut : r.kind = .rightParen)
      (taken : Derives body (.block consequence)) (word' : orElse.kind = .elseWord)
      (otherwise : Derives other (.block alternative)) :
      Derives (t :: l :: ts ++ r :: body ++ orElse :: other)
        (.primary (.conditional e consequence (some alternative)))
  | function {ts body : List Token} {t l r : Token} {names : List String} {inside : List Stmt}
      (word : t.kind = .functionWord) (opened : l.kind = .leftParen)
      (declared : Derives ts (.params names)) (shut : r.kind = .rightParen)
      (run : Derives body (.block inside)) :
      Derives (t :: l :: ts ++ r :: body) (.primary (.function names inside))
  -- Lists
  | noItem : Derives [] (.items [])
  | items {ts more : List Token} {e : Expr} {es : List Expr} (first : Derives ts (.expression e))
      (rest : Derives more (.moreItems es)) : Derives (ts ++ more) (.items (e :: es))
  | lastItem : Derives [] (.moreItems [])
  | moreItems {ts more : List Token} {t : Token} {e : Expr} {es : List Expr}
      (comma : t.kind = .comma) (next : Derives ts (.expression e))
      (rest : Derives more (.moreItems es)) :
      Derives (t :: ts ++ more) (.moreItems (e :: es))
  | noPair : Derives [] (.pairs [])
  | pairs {ts ts' more : List Token} {t : Token} {key value : Expr} {ps : List (Expr × Expr)}
      (first : Derives ts (.expression key)) (colon : t.kind = .colon)
      (second : Derives ts' (.expression value)) (rest : Derives more (.morePairs ps)) :
      Derives (ts ++ t :: ts' ++ more) (.pairs ((key, value) :: ps))
  | lastPair : Derives [] (.morePairs [])
  | trailingComma {t : Token} (comma : t.kind = .comma) : Derives [t] (.morePairs [])
  | morePairs {ts ts' more : List Token} {t' t : Token} {key value : Expr}
      {ps : List (Expr × Expr)} (comma : t'.kind = .comma) (first : Derives ts (.expression key))
      (colon : t.kind = .colon) (second : Derives ts' (.expression value))
      (rest : Derives more (.morePairs ps)) :
      Derives (t' :: ts ++ t :: ts' ++ more) (.morePairs ((key, value) :: ps))
  | noParam : Derives [] (.params [])
  | params {more : List Token} {t : Token} {names : List String} (named : t.kind = .identifier)
      (rest : Derives more (.moreParams names)) : Derives (t :: more) (.params (t.literal :: names))
  | lastParam : Derives [] (.moreParams [])
  | moreParams {more : List Token} {t' t : Token} {names : List String} (comma : t'.kind = .comma)
      (named : t.kind = .identifier) (rest : Derives more (.moreParams names)) :
      Derives (t' :: t :: more) (.moreParams (t.literal :: names))

/-- An operand is an expression also without any operator behind it. -/
theorem Derives.alone {ts : List Token} {e : Expr} (h : Derives ts (.unary e)) :
    Derives ts (.expression e) := by
  have whole := Derives.expression h .noOperation
  rwa [List.append_nil] at whole

/-! ### First tokens -/

/-- The tokens that an expression can start with. -/
def TokenKind.opensExpression : TokenKind → Bool
  | .identifier | .integer | .string | .minus | .bang | .leftParen | .leftBrace | .leftBracket
  | .functionWord | .trueWord | .falseWord | .ifWord => true
  | _ => false

def TokenKind.opensStatement (kind : TokenKind) : Bool :=
  kind.opensExpression || kind == .letWord || kind == .returnWord

def Opened (p : TokenKind → Bool) (tokens : List Token) : Prop :=
  ∃ t rest, tokens = t :: rest ∧ p t.kind = true

theorem Opened.of_kind {p : TokenKind → Bool} {t : Token} {rest : List Token} {kind : TokenKind}
    (same : t.kind = kind) (opens : p kind = true) : Opened p (t :: rest) :=
  ⟨t, rest, rfl, by rw [same, opens]⟩

theorem Opened.append {p : TokenKind → Bool} {tokens : List Token} (h : Opened p tokens)
    (more : List Token) : Opened p (tokens ++ more) := by
  obtain ⟨t, rest, rfl, opens⟩ := h
  exact ⟨t, rest ++ more, rfl, opens⟩

def Phrase.Starts : Phrase → List Token → Prop
  | .statements _, tokens => tokens = [] ∨ Opened TokenKind.opensStatement tokens
  | .statement _, tokens => Opened TokenKind.opensStatement tokens
  | .expression _, tokens | .unary _, tokens | .primary _, tokens =>
    Opened TokenKind.opensExpression tokens
  | _, _ => True

theorem Derives.starts {tokens : List Token} {phrase : Phrase} (h : Derives tokens phrase) :
    phrase.Starts tokens := by
  induction h with
  | noStatement => exact Or.inl rfl
  | closed first semicolon rest opened _ => exact Or.inr (opened.append _)
  | unclosed first ends rest opened _ => exact Or.inr (opened.append _)
  | bind word | ret word => exact .of_kind word rfl
  | bare _ opened =>
    obtain ⟨t, rest, rfl, opens⟩ := opened
    exact ⟨t, rest, rfl, by rw [TokenKind.opensStatement, opens]; rfl⟩
  | expression _ _ opened _ | suffixed _ _ opened _ => exact opened.append _
  | @unary _ _ op _ operator => exact .of_kind operator (by cases op <;> rfl)
  | identifier kind | integer kind | string kind | trueWord kind | falseWord kind =>
    exact .of_kind kind rfl
  | grouped kind | array kind | hash kind | conditional kind | alternative kind | function kind =>
    exact .of_kind kind rfl
  | _ => trivial

/-- What is not a token of the language is in no phrase. -/
theorem Derives.legal {tokens : List Token} {phrase : Phrase} (h : Derives tokens phrase) :
    ∀ t ∈ tokens, t.kind ≠ .illegal := by
  have operator : ∀ {t : Token} {op : BinaryOp}, t.kind = op.tokenKind → t.kind ≠ .illegal := by
    intro t op same
    rw [same]
    cases op <;> decide
  have sign : ∀ {t : Token} {op : UnaryOp}, t.kind = op.tokenKind → t.kind ≠ .illegal := by
    intro t op same
    rw [same]
    cases op <;> decide
  induction h with
  | operation is _ _ first second =>
    simp only [List.cons_append, List.forall_mem_cons, List.forall_mem_append]
    exact ⟨operator is, first, second⟩
  | unary is _ first =>
    simp only [List.forall_mem_cons]
    exact ⟨sign is, first⟩
  | _ => simp_all [or_imp]

end MonkeyLanguage
