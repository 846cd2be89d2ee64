import MonkeyLanguage.Syntax.Parser

/-!
# The parser as a machine

The parser with a state of its own: a current token, one token of lookahead, and a list of errors
to which each is added where it arises. A phrase that fails leaves the state as it is then, and the
statement around it is left out.

The machine also keeps a log of the statements it tries to read, which nothing that it does depends
on. Its loops are bounded by fuel.
-/

namespace MonkeyLanguage

/-- One try to read a statement. -/
structure Attempt where
  /-- The tokens ahead when it began, the current one first. -/
  start : List Token
  outcome : Option Stmt
  /-- The errors added meanwhile. -/
  reported : List ParseError
  nested : List Attempt

/-- The tokens ahead begin with the current one. Where there are none, the current token is the end
of input, and so is every later one. -/
structure RawParser where
  ahead : List Token
  errors : List ParseError
  attempts : List Attempt

inductive Stop where
  /-- The phrase cannot be read, for which an error has been added. -/
  | failed
  | outOfFuel

abbrev RawParse (α : Type) := EStateM Stop RawParser α

namespace RawParser

def initial (tokens : List Token) : RawParser := ⟨tokens, [], []⟩

/-! ### Steps -/

def outOfFuel {α : Type} : RawParse α := fun s => .error .outOfFuel s

def report {α : Type} (e : ParseError) : RawParse α := fun s =>
  .error .failed { s with errors := s.errors ++ [e] }

def current : RawParse Token := fun s => .ok (s.ahead.headD .endOfInput) s

def peekKind : RawParse TokenKind := fun s => .ok (Parser.headKind s.ahead.tail) s

def advance : RawParse Unit := fun s => .ok () { s with ahead := s.ahead.tail }

def expectPeek (kind : TokenKind) : RawParse Unit := do
  let found ← peekKind
  if found = kind then advance else report (.unexpectedToken kind found)

def skipSemicolon : RawParse Unit := do
  let found ← peekKind
  if found = .semicolon then advance else pure ()

/-- Goes on after a phrase that failed. -/
def orNone {α : Type} (read : RawParse α) : RawParse (Option α) := fun s =>
  match read s with
  | .ok value s' => .ok (some value) s'
  | .error .failed s' => .ok none s'
  | .error .outOfFuel s' => .error .outOfFuel s'

/-- Adds an attempt to the log of `before`, which ended with `outcome` in the state `after`. -/
def note (before : RawParser) (outcome : Option Stmt) (after : RawParser) : RawParser :=
  { after with
    attempts := before.attempts ++
      [⟨before.ahead, outcome, after.errors.drop before.errors.length, after.attempts⟩] }

def attempt (read : RawParse Stmt) : RawParse Stmt := fun s =>
  match read { s with attempts := [] } with
  | .ok value s' => .ok value (s.note (some value) s')
  | .error .failed s' => .error .failed (s.note none s')
  | .error .outOfFuel s' => .error .outOfFuel s'

/-! ### Operators -/

def infixPrecedence : TokenKind → Precedence
  | .equalEqual | .bangEqual => .equality
  | .less | .greater => .comparison
  | .plus | .minus => .sum
  | .asterisk | .slash => .product
  | .leftParen => .call
  | .leftBracket => .index
  | _ => .lowest

def infixOperator? : TokenKind → Option BinaryOp
  | .plus => some .plus
  | .minus => some .minus
  | .asterisk => some .multiply
  | .slash => some .divide
  | .less => some .lessThan
  | .greater => some .greaterThan
  | .equalEqual => some .equal
  | .bangEqual => some .notEqual
  | _ => none

/-! ### Phrases

A phrase begins at the current token, or behind it where the current token opens the phrase, and
ends with its last token as the current one. -/

def moreParams : Nat → RawParse (List String)
  | 0 => outOfFuel
  | fuel + 1 => do
    let kind ← peekKind
    if kind = .comma then
      advance
      expectPeek .identifier
      let name ← current
      let more ← moreParams fuel
      return name.literal :: more
    else
      expectPeek .rightParen
      return []

def params (fuel : Nat) : RawParse (List String) := do
  let kind ← peekKind
  if kind = .rightParen then
    advance
    return []
  else
    expectPeek .identifier
    let name ← current
    let more ← moreParams fuel
    return name.literal :: more

def integer (literal : String) : RawParse Expr :=
  match Decimal.toInt64? literal.toList with
  | some value => pure (.integer value)
  | none => report (.invalidInteger literal)

mutual

def expression (floor : Precedence) : Nat → RawParse Expr
  | 0 => outOfFuel
  | fuel + 1 => do
    let left ← operand fuel
    climb floor left fuel

/-- Goes on while an operator that binds tighter than `floor` is next. -/
def climb (floor : Precedence) (left : Expr) : Nat → RawParse Expr
  | 0 => outOfFuel
  | fuel + 1 => do
    let kind ← peekKind
    if kind ≠ .semicolon ∧ floor.level < (infixPrecedence kind).level then
      if kind = .leftParen then
        advance
        let args ← items .rightParen fuel
        climb floor (.call left args) fuel
      else if kind = .leftBracket then
        advance
        advance
        let position ← expression .lowest fuel
        expectPeek .rightBracket
        climb floor (.index left position) fuel
      else
        match infixOperator? kind with
        | none => return left
        | some op =>
          advance
          advance
          let right ← expression (infixPrecedence kind) fuel
          climb floor (.binary op left right) fuel
    else return left

def operand : Nat → RawParse Expr
  | 0 => outOfFuel
  | fuel + 1 => do
    let t ← current
    match t.kind with
    | .identifier => return .identifier t.literal
    | .integer => integer t.literal
    | .string => return .string t.literal
    | .trueWord => return .boolean true
    | .falseWord => return .boolean false
    | .bang =>
      advance
      let inner ← expression .unary fuel
      return .unary .not inner
    | .minus =>
      advance
      let inner ← expression .unary fuel
      return .unary .negate inner
    | .leftParen =>
      advance
      let inner ← expression .lowest fuel
      expectPeek .rightParen
      return inner
    | .ifWord => conditional fuel
    | .functionWord =>
      expectPeek .leftParen
      let names ← params fuel
      expectPeek .leftBrace
      let body ← block fuel
      return .function names body
    | .leftBracket =>
      let elements ← items .rightBracket fuel
      return .array elements
    | .leftBrace =>
      let entries ← pairs fuel
      return .hash entries
    | kind => report (.noPrefixRule kind)

def conditional : Nat → RawParse Expr
  | 0 => outOfFuel
  | fuel + 1 => do
    expectPeek .leftParen
    advance
    let condition ← expression .lowest fuel
    expectPeek .rightParen
    expectPeek .leftBrace
    let consequence ← block fuel
    let kind ← peekKind
    if kind = .elseWord then
      advance
      expectPeek .leftBrace
      let alternative ← block fuel
      return .conditional condition consequence (some alternative)
    else return .conditional condition consequence none

/-- Expressions with commas between them, from behind the opening token to the closing one. -/
def items (closing : TokenKind) : Nat → RawParse (List Expr)
  | 0 => outOfFuel
  | fuel + 1 => do
    let kind ← peekKind
    if kind = closing then
      advance
      return []
    else
      advance
      let first ← expression .lowest fuel
      let more ← moreItems closing fuel
      return first :: more

def moreItems (closing : TokenKind) : Nat → RawParse (List Expr)
  | 0 => outOfFuel
  | fuel + 1 => do
    let kind ← peekKind
    if kind = .comma then
      advance
      advance
      let item ← expression .lowest fuel
      let more ← moreItems closing fuel
      return item :: more
    else
      expectPeek closing
      return []

def pairs : Nat → RawParse (List (Expr × Expr))
  | 0 => outOfFuel
  | fuel + 1 => do
    let kind ← peekKind
    if kind = .rightBrace then
      expectPeek .rightBrace
      return []
    else
      advance
      let key ← expression .lowest fuel
      expectPeek .colon
      advance
      let value ← expression .lowest fuel
      let next ← peekKind
      if next = .rightBrace then pure () else expectPeek .comma
      let more ← pairs fuel
      return (key, value) :: more

/-- The current token is the opening brace. -/
def block : Nat → RawParse Block
  | 0 => outOfFuel
  | fuel + 1 => do
    advance
    blockRest fuel

def blockRest : Nat → RawParse Block
  | 0 => outOfFuel
  | fuel + 1 => do
    let t ← current
    if t.kind = .rightBrace then return []
    else if t.kind = .endOfInput then report (.unexpectedToken .rightBrace .endOfInput)
    else
      let outcome ← orNone (statement fuel)
      advance
      let more ← blockRest fuel
      return outcome.toList ++ more

def statement : Nat → RawParse Stmt
  | 0 => outOfFuel
  | fuel + 1 => attempt do
    let t ← current
    match t.kind with
    | .letWord =>
      expectPeek .identifier
      let name ← current
      expectPeek .assign
      advance
      let value ← expression .lowest fuel
      skipSemicolon
      return .bind name.literal value
    | .returnWord =>
      advance
      let value ← expression .lowest fuel
      skipSemicolon
      return .ret value
    | _ =>
      let value ← expression .lowest fuel
      skipSemicolon
      return .expression value

end

/-- Reads statements up to the end of input. -/
def program : Nat → RawParse Program
  | 0 => outOfFuel
  | fuel + 1 => do
    let t ← current
    if t.kind = .endOfInput then return []
    else
      let outcome ← orNone (statement fuel)
      advance
      let more ← program fuel
      return outcome.toList ++ more

end RawParser

end MonkeyLanguage
