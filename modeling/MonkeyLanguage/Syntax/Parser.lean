import MonkeyLanguage.Text.Decimal
import MonkeyLanguage.Token.Scanner
import MonkeyLanguage.Syntax.Precedence
import MonkeyLanguage.Syntax.Reading

/-!
# Parsing

A recursive descent over tokens, with precedence climbing for operators. A statement that cannot
be read is dropped for one error, and reading goes on at the token where it stopped.
-/

namespace MonkeyLanguage

namespace Parser

/-! ### Parameters -/

/-- The parameters after the first, up to the closing parenthesis. -/
def moreParams (tokens : List Token) {start : List Token} (h : Within tokens start) :
    Reading (List String) start :=
  match tokens, h with
  | ⟨.comma, _⟩ :: rest, h =>
    expect .identifier rest h.of_cons fun name rest₁ lt =>
      (moreParams rest₁ (h.of_cons.of_lt lt)).map (name.literal :: ·)
  | tokens, h => expect .rightParen tokens h fun _ rest lt => .done [] rest (h.of_lt lt)
termination_by tokens.length
decreasing_by simp only [List.length_cons]; omega

def params (tokens : List Token) {start : List Token} (h : Within tokens start) :
    Reading (List String) start :=
  if headKind tokens = .rightParen then .done [] tokens.tail h.tail
  else
    expect .identifier tokens h fun name rest lt =>
      (moreParams rest (h.of_lt lt)).map (name.literal :: ·)

/-! ### Expressions and statements -/

mutual

/-- An expression in which every operator binds tighter than `floor`. -/
def expression (floor : Precedence) (tokens : List Token) {start : List Token}
    (h : Within tokens start) : Reading Expr start :=
  match tokens, h with
  | [], h => .fail (.noPrefixRule .endOfInput) [] h
  | t :: rest, h => expressionFrom floor t rest h.of_cons
termination_by 8 * tokens.length
decreasing_by simp only [List.length_cons]; omega

def expressionFrom (floor : Precedence) (t : Token) (tokens : List Token) {start : List Token}
    (h : Within tokens start) : Reading Expr start :=
  (operand t tokens (.refl _)).andThen h fun left rest le => climb floor left rest (le.trans h)
termination_by 8 * tokens.length + 4
decreasing_by all_goals omega

/-- Extends `left` as long as the tokens ahead bind tighter than `floor`. -/
def climb (floor : Precedence) (left : Expr) (tokens : List Token) {start : List Token}
    (h : Within tokens start) : Reading Expr start :=
  match tokens, h with
  | [], h => .done left [] h
  | t :: rest, h =>
    match t.kind.continuation? with
    | none => .done left (t :: rest) h
    | some next =>
      if floor.level < next.precedence.level then
        match next with
        | .call =>
          (items .rightParen rest (.refl _)).andThen h.of_cons fun args rest₁ le =>
            climb floor (.call left args) rest₁ (le.trans h.of_cons)
        | .index =>
          (expression .lowest rest (.refl _)).andThen h.of_cons fun position rest₁ le =>
          expect .rightBracket rest₁ (le.trans h.of_cons) fun _ rest₂ lt =>
            climb floor (.index left position) rest₂ ((le.trans h.of_cons).of_lt lt)
        | .binary op =>
          (expression op.precedence rest (.refl _)).andThen h.of_cons fun right rest₁ le =>
            climb floor (.binary op left right) rest₁ (le.trans h.of_cons)
      else .done left (t :: rest) h
termination_by 8 * tokens.length
decreasing_by all_goals simp only [List.length_cons]; omega

/-- The operand that opens with the token `t`: a literal, a name, a bracketed phrase, or a unary
operator with what it applies to. -/
def operand (t : Token) (tokens : List Token) {start : List Token} (h : Within tokens start) :
    Reading Expr start :=
  match t.kind with
  | .identifier => .done (.identifier t.literal) tokens h
  | .integer =>
    match Decimal.toInt64? t.literal.toList with
    | some value => .done (.integer value) tokens h
    | none => .fail (.invalidInteger t.literal) tokens h
  | .string => .done (.string t.literal) tokens h
  | .trueWord => .done (.boolean true) tokens h
  | .falseWord => .done (.boolean false) tokens h
  | .bang => (expression .unary tokens h).map (.unary .not)
  | .minus => (expression .unary tokens h).map (.unary .negate)
  | .leftParen =>
    (expression .lowest tokens (.refl _)).andThen h fun inner rest le =>
    expect .rightParen rest (le.trans h) fun _ rest₁ lt =>
      .done inner rest₁ ((le.trans h).of_lt lt)
  | .ifWord => conditional tokens h
  | .functionWord =>
    expect .leftParen tokens h fun _ rest₁ lt₁ =>
    (params rest₁ (.refl _)).andThen (h.of_lt lt₁) fun names rest₂ le₂ =>
    expect .leftBrace rest₂ (le₂.trans (h.of_lt lt₁)) fun _ rest₃ lt₃ =>
      (block rest₃ ((le₂.trans (h.of_lt lt₁)).of_lt lt₃)).map (.function names)
  | .leftBracket => (items .rightBracket tokens h).map .array
  | .leftBrace => (pairs tokens h).map .hash
  | kind => .fail (.noPrefixRule kind) tokens h
termination_by 8 * tokens.length + 3
decreasing_by all_goals omega

/-- An `if` expression after its keyword, up to the end of its last block. -/
def conditional (tokens : List Token) {start : List Token} (h : Within tokens start) :
    Reading Expr start :=
  expect .leftParen tokens h fun _ rest₁ lt₁ =>
  (expression .lowest rest₁ (.refl _)).andThen (h.of_lt lt₁) fun condition rest₂ le₂ =>
  expect .rightParen rest₂ (le₂.trans (h.of_lt lt₁)) fun _ rest₃ lt₃ =>
  expect .leftBrace rest₃ ((le₂.trans (h.of_lt lt₁)).of_lt lt₃) fun _ rest₄ lt₄ =>
  (block rest₄ (.refl _)).andThen (((le₂.trans (h.of_lt lt₁)).of_lt lt₃).of_lt lt₄)
    fun consequence rest₅ le₅ =>
      let h₅ := le₅.trans (((le₂.trans (h.of_lt lt₁)).of_lt lt₃).of_lt lt₄)
      if headKind rest₅ = .elseWord then
        expect .leftBrace rest₅.tail h₅.tail fun _ rest₆ lt₆ =>
          (block rest₆ (h₅.tail.of_lt lt₆)).map (.conditional condition consequence ∘ some)
      else .done (.conditional condition consequence none) rest₅ h₅
termination_by 8 * tokens.length + 2
decreasing_by all_goals (try simp only [List.length_tail] at *); omega

/-- Expressions separated by commas, up to the token that closes the list. -/
def items (closing : TokenKind) (tokens : List Token) {start : List Token}
    (h : Within tokens start) : Reading (List Expr) start :=
  if headKind tokens = closing then .done [] tokens.tail h.tail
  else
    (expression .lowest tokens (.refl _)).andThen h fun first rest le =>
      (moreItems closing rest (le.trans h)).map (first :: ·)
termination_by 8 * tokens.length + 2
decreasing_by all_goals omega

def moreItems (closing : TokenKind) (tokens : List Token) {start : List Token}
    (h : Within tokens start) : Reading (List Expr) start :=
  match tokens, h with
  | ⟨.comma, _⟩ :: rest, h =>
    (expression .lowest rest (.refl _)).andThen h.of_cons fun item rest₁ le =>
      (moreItems closing rest₁ (le.trans h.of_cons)).map (item :: ·)
  | tokens, h => expect closing tokens h fun _ rest lt => .done [] rest (h.of_lt lt)
termination_by 8 * tokens.length
decreasing_by all_goals simp only [List.length_cons]; omega

/-- The pairs of a hash literal after its opening brace; a comma may follow the last. -/
def pairs (tokens : List Token) {start : List Token} (h : Within tokens start) :
    Reading (List (Expr × Expr)) start :=
  if headKind tokens = .rightBrace then .done [] tokens.tail h.tail
  else
    (expression .lowest tokens (.refl _)).andThen h fun key rest₁ le₁ =>
    expect .colon rest₁ (le₁.trans h) fun _ rest₂ lt₂ =>
    (expression .lowest rest₂ (.refl _)).andThen ((le₁.trans h).of_lt lt₂) fun value rest₃ le₃ =>
      let h₃ := le₃.trans ((le₁.trans h).of_lt lt₂)
      if headKind rest₃ = .rightBrace then .done [(key, value)] rest₃.tail h₃.tail
      else
        expect .comma rest₃ h₃ fun _ rest₄ lt₄ =>
          (pairs rest₄ (h₃.of_lt lt₄)).map ((key, value) :: ·)
termination_by 8 * tokens.length + 2
decreasing_by all_goals omega

/-- The statements of a block after its opening brace, up to the closing one. -/
def block (tokens : List Token) {start : List Token} (h : Within tokens start) :
    Reading Block start :=
  match tokens, h with
  | [], h => .fail (.unexpectedToken .rightBrace .endOfInput) [] h
  | t :: rest, h =>
    if t.kind = .rightBrace then .done [] rest h.of_cons
    else (statement t rest (.refl _)).before fun rest₁ le => block rest₁ (le.trans h.of_cons)
termination_by 8 * tokens.length + 1
decreasing_by all_goals simp only [List.length_cons]; omega

def statement (t : Token) (tokens : List Token) {start : List Token} (h : Within tokens start) :
    Reading Stmt start :=
  match t.kind with
  | .letWord =>
    expect .identifier tokens h fun name rest₁ lt₁ =>
    expect .assign rest₁ (h.of_lt lt₁) fun _ rest₂ lt₂ =>
    (expression .lowest rest₂ (.refl _)).andThen ((h.of_lt lt₁).of_lt lt₂) fun value rest₃ le₃ =>
      .done (.bind name.literal value) (skipSemicolon rest₃)
        (le₃.trans ((h.of_lt lt₁).of_lt lt₂)).skipSemicolon
  | .returnWord =>
    (expression .lowest tokens (.refl _)).andThen h fun value rest le =>
      .done (.ret value) (skipSemicolon rest) (le.trans h).skipSemicolon
  | _ =>
    (expressionFrom .lowest t tokens (.refl _)).andThen h fun value rest le =>
      .done (.expression value) (skipSemicolon rest) (le.trans h).skipSemicolon
termination_by 8 * tokens.length + 5
decreasing_by all_goals omega

end

/-! ### Programs -/

/-- The statements that could be read, and the errors of all that were dropped, in order. -/
def program (tokens : List Token) : Program × List ParseError :=
  match tokens with
  | [] => ([], [])
  | t :: rest =>
    let first := statement t rest (.refl _)
    let (statements, errors) := program first.rest
    match first.result with
    | .ok s => (s :: statements, first.dropped ++ errors)
    | .error e => (statements, first.dropped ++ e :: errors)
termination_by tokens.length
decreasing_by exact Nat.lt_succ_of_le first.within

end Parser

/-- Parses a source text. The program is whole only if there are no errors. -/
def parse (source : String) : Program × List ParseError :=
  Parser.program (tokens source)

end MonkeyLanguage
