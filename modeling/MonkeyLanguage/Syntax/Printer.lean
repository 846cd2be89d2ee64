import MonkeyLanguage.Syntax.Basic
import MonkeyLanguage.Text.Decimal

/-!
# Written form of syntax trees

Operators are written fully parenthesised, so the written form needs no rule of precedence.
Statements are separated by semicolons.
-/

namespace MonkeyLanguage

/-- A block from the written forms of its statements. -/
def braced (statements : List String) : String :=
  match statements with
  | [] => "\x7b \x7d"
  | statements => "\x7b " ++ "; ".intercalate statements ++ " \x7d"

mutual

def Expr.render : Expr → String
  | .identifier name => name
  | .integer value => Decimal.ofInt64 value
  | .string value => "\"" ++ value ++ "\""
  | .boolean true => "true"
  | .boolean false => "false"
  | .array elements => "[" ++ ", ".intercalate (Expr.renderAll elements) ++ "]"
  | .hash pairs => "\x7b" ++ ", ".intercalate (Expr.renderPairs pairs) ++ "\x7d"
  | .function params body =>
    "fn(" ++ ", ".intercalate params ++ ") " ++ braced (Stmt.renderAll body)
  | .unary op operand => "(" ++ op.spelling ++ operand.render ++ ")"
  | .binary op left right =>
    "(" ++ left.render ++ " " ++ op.spelling ++ " " ++ right.render ++ ")"
  | .index left position => "(" ++ left.render ++ "[" ++ position.render ++ "])"
  | .conditional condition consequence none =>
    "if (" ++ condition.render ++ ") " ++ braced (Stmt.renderAll consequence)
  | .conditional condition consequence (some alternative) =>
    "if (" ++ condition.render ++ ") " ++ braced (Stmt.renderAll consequence) ++ " else " ++
      braced (Stmt.renderAll alternative)
  | .call callee args =>
    callee.render ++ "(" ++ ", ".intercalate (Expr.renderAll args) ++ ")"

def Expr.renderAll : List Expr → List String
  | [] => []
  | e :: es => e.render :: Expr.renderAll es

def Expr.renderPairs : List (Expr × Expr) → List String
  | [] => []
  | (key, value) :: pairs => (key.render ++ ": " ++ value.render) :: Expr.renderPairs pairs

def Stmt.render : Stmt → String
  | .bind name value => "let " ++ name ++ " = " ++ value.render
  | .ret value => "return " ++ value.render
  | .expression value => value.render
  | .block body => braced (Stmt.renderAll body)

def Stmt.renderAll : List Stmt → List String
  | [] => []
  | s :: ss => s.render :: Stmt.renderAll ss

end

def Block.render (block : Block) : String := braced (Stmt.renderAll block)

def Program.render (program : Program) : String := "; ".intercalate (Stmt.renderAll program)

end MonkeyLanguage
