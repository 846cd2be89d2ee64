import MonkeyLanguage.Syntax.Basic

/-!
# Properties of all nodes

`Expr.Every p q` says that every expression in a tree satisfies `p`, and every statement `q`.
Fragments of the language are given by what their nodes are.
-/

namespace MonkeyLanguage

section
variable (p : Expr → Prop) (q : Stmt → Prop)

mutual

def Expr.Every : Expr → Prop
  | .identifier name => p (.identifier name)
  | .integer value => p (.integer value)
  | .string value => p (.string value)
  | .boolean value => p (.boolean value)
  | .array elements => p (.array elements) ∧ Expr.EveryIn elements
  | .hash pairs => p (.hash pairs) ∧ Expr.EveryPair pairs
  | .function params body => p (.function params body) ∧ Stmt.EveryIn body
  | .unary op operand => p (.unary op operand) ∧ operand.Every
  | .binary op left right => p (.binary op left right) ∧ left.Every ∧ right.Every
  | .index left position => p (.index left position) ∧ left.Every ∧ position.Every
  | .conditional condition consequence alternative =>
    p (.conditional condition consequence alternative) ∧ condition.Every ∧
      Stmt.EveryIn consequence ∧ Stmt.EveryElse alternative
  | .call callee args => p (.call callee args) ∧ callee.Every ∧ Expr.EveryIn args

def Expr.EveryIn : List Expr → Prop
  | [] => True
  | e :: es => e.Every ∧ Expr.EveryIn es

def Expr.EveryPair : List (Expr × Expr) → Prop
  | [] => True
  | (key, value) :: pairs => key.Every ∧ value.Every ∧ Expr.EveryPair pairs

def Stmt.Every : Stmt → Prop
  | .bind name value => q (.bind name value) ∧ value.Every
  | .ret value => q (.ret value) ∧ value.Every
  | .expression value => q (.expression value) ∧ value.Every
  | .block body => q (.block body) ∧ Stmt.EveryIn body

def Stmt.EveryIn : List Stmt → Prop
  | [] => True
  | s :: rest => s.Every ∧ Stmt.EveryIn rest

def Stmt.EveryElse : Option (List Stmt) → Prop
  | none => True
  | some body => Stmt.EveryIn body

end

end

/-! ### What compiles -/

def Expr.IsCompilable : Expr → Prop
  | .integer _ | .boolean _ | .unary _ _ | .binary _ _ _ | .conditional _ _ _ => True
  | _ => False

def Stmt.IsExpression : Stmt → Prop
  | .expression _ => True
  | _ => False

def Stmt.IsCompilable : Stmt → Prop
  | .expression _ | .block _ => True
  | _ => False

/-- Programs of expression statements only, also inside branches, over integers, booleans,
operators and conditionals. -/
def Program.Plain (program : Program) : Prop :=
  Stmt.EveryIn Expr.IsCompilable Stmt.IsExpression program

end MonkeyLanguage
