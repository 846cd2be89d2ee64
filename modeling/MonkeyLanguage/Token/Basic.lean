/-!
# Tokens

A token is a kind together with its literal text. The keywords are words with a kind of their
own.
-/

namespace MonkeyLanguage

inductive TokenKind where
  | illegal
  | endOfInput
  | identifier
  | integer
  | string
  | assign
  | plus
  | minus
  | bang
  | asterisk
  | slash
  | less
  | greater
  | equalEqual
  | bangEqual
  | comma
  | semicolon
  | colon
  | leftParen
  | rightParen
  | leftBrace
  | rightBrace
  | leftBracket
  | rightBracket
  | functionWord
  | letWord
  | trueWord
  | falseWord
  | ifWord
  | elseWord
  | returnWord
  deriving DecidableEq

namespace TokenKind

/-- The name under which messages speak of a kind; a symbol goes by its spelling. -/
def name : TokenKind → String
  | illegal => "ILLEGAL"
  | endOfInput => "EOF"
  | identifier => "IDENT"
  | integer => "INT"
  | string => "STRING"
  | assign => "="
  | plus => "+"
  | minus => "-"
  | bang => "!"
  | asterisk => "*"
  | slash => "/"
  | less => "<"
  | greater => ">"
  | equalEqual => "=="
  | bangEqual => "!="
  | comma => ","
  | semicolon => ";"
  | colon => ":"
  | leftParen => "("
  | rightParen => ")"
  | leftBrace => "\x7b"
  | rightBrace => "\x7d"
  | leftBracket => "["
  | rightBracket => "]"
  | functionWord => "FUNCTION"
  | letWord => "LET"
  | trueWord => "TRUE"
  | falseWord => "FALSE"
  | ifWord => "IF"
  | elseWord => "ELSE"
  | returnWord => "RETURN"

end TokenKind

structure Token where
  kind : TokenKind
  literal : String
  deriving DecidableEq

/-- What is read wherever no token is left. -/
def Token.endOfInput : Token := ⟨.endOfInput, ""⟩

def keywords : List (List Char × TokenKind) :=
  [(['f', 'n'], .functionWord),
    (['l', 'e', 't'], .letWord),
    (['t', 'r', 'u', 'e'], .trueWord),
    (['f', 'a', 'l', 's', 'e'], .falseWord),
    (['i', 'f'], .ifWord),
    (['e', 'l', 's', 'e'], .elseWord),
    (['r', 'e', 't', 'u', 'r', 'n'], .returnWord)]

/-- A word is a keyword only as a whole, and an identifier otherwise. -/
def wordKind (word : List Char) : TokenKind :=
  (keywords.lookup word).getD .identifier

def symbols : List (List Char × TokenKind) :=
  [(['='], .assign),
    (['+'], .plus),
    (['-'], .minus),
    (['!'], .bang),
    (['*'], .asterisk),
    (['/'], .slash),
    (['<'], .less),
    (['>'], .greater),
    ([','], .comma),
    ([';'], .semicolon),
    ([':'], .colon),
    (['('], .leftParen),
    ([')'], .rightParen),
    (['{'], .leftBrace),
    (['}'], .rightBrace),
    (['['], .leftBracket),
    ([']'], .rightBracket),
    (['=', '='], .equalEqual),
    (['!', '='], .bangEqual)]

def isWordStart (c : Char) : Bool := c.isAlpha || c == '_'

def isWordPart (c : Char) : Bool := c.isAlphanum || c == '_'

end MonkeyLanguage
