import MonkeyLanguage.Token.Basic
import MonkeyLanguage.Syntax.Basic

/-!
# Precedence

How tightly each token that can follow an operand binds. Operators of equal precedence group to
the left.
-/

namespace MonkeyLanguage

inductive Precedence where
  | lowest
  | equality
  | comparison
  | sum
  | product
  | unary
  | call
  | index
  deriving DecidableEq

def Precedence.level : Precedence → Nat
  | lowest => 0
  | equality => 1
  | comparison => 2
  | sum => 3
  | product => 4
  | unary => 5
  | call => 6
  | index => 7

def BinaryOp.precedence : BinaryOp → Precedence
  | equal | notEqual => .equality
  | lessThan | greaterThan => .comparison
  | plus | minus => .sum
  | multiply | divide => .product

inductive Continuation where
  | call
  | index
  | binary (op : BinaryOp)
  deriving DecidableEq

def Continuation.precedence : Continuation → Precedence
  | call => .call
  | index => .index
  | binary op => op.precedence

/-- The extension that a token announces. -/
def TokenKind.continuation? : TokenKind → Option Continuation
  | leftParen => some .call
  | leftBracket => some .index
  | plus => some (.binary .plus)
  | minus => some (.binary .minus)
  | asterisk => some (.binary .multiply)
  | slash => some (.binary .divide)
  | less => some (.binary .lessThan)
  | greater => some (.binary .greaterThan)
  | equalEqual => some (.binary .equal)
  | bangEqual => some (.binary .notEqual)
  | _ => none

end MonkeyLanguage
