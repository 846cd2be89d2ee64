/-!
# Syntax trees

A program is a list of statements. Blocks may also stand as statements of their own, though no
source text is read as one.
-/

namespace MonkeyLanguage

inductive UnaryOp where
  | not
  | negate
  deriving DecidableEq

inductive BinaryOp where
  | plus
  | minus
  | multiply
  | divide
  | lessThan
  | greaterThan
  | equal
  | notEqual
  deriving DecidableEq

mutual

inductive Expr where
  | identifier (name : String)
  | integer (value : Int64)
  | string (value : String)
  | boolean (value : Bool)
  | array (elements : List Expr)
  /-- A hash literal keeps its pairs in source order. -/
  | hash (pairs : List (Expr × Expr))
  | function (params : List String) (body : List Stmt)
  | unary (op : UnaryOp) (operand : Expr)
  | binary (op : BinaryOp) (left right : Expr)
  | index (left position : Expr)
  | conditional (condition : Expr) (consequence : List Stmt) (alternative : Option (List Stmt))
  | call (callee : Expr) (args : List Expr)

inductive Stmt where
  | bind (name : String) (value : Expr)
  | ret (value : Expr)
  | expression (value : Expr)
  | block (body : List Stmt)

end

abbrev Block := List Stmt

abbrev Program := List Stmt

instance : Inhabited Expr := ⟨.boolean false⟩

instance : Inhabited Stmt := ⟨.block []⟩

def UnaryOp.spelling : UnaryOp → String
  | not => "!"
  | negate => "-"

def BinaryOp.spelling : BinaryOp → String
  | plus => "+"
  | minus => "-"
  | multiply => "*"
  | divide => "/"
  | lessThan => "<"
  | greaterThan => ">"
  | equal => "=="
  | notEqual => "!="

/-- What messages call an expression. -/
def Expr.kind : Expr → String
  | identifier _ => "identifier"
  | integer _ => "integer literal"
  | string _ => "string literal"
  | boolean _ => "boolean literal"
  | array _ => "array literal"
  | hash _ => "hash literal"
  | function _ _ => "function literal"
  | unary _ _ => "prefix expression"
  | binary _ _ _ => "infix expression"
  | index _ _ => "index expression"
  | conditional _ _ _ => "if expression"
  | call _ _ => "call expression"

def Stmt.kind : Stmt → String
  | bind _ _ => "let statement"
  | ret _ => "return statement"
  | expression _ => "expression statement"
  | block _ => "block statement"

end MonkeyLanguage
