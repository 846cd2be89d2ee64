import Mathlib.Order.MinMax
import MonkeyLanguage.Proofs.Eval.Simulation

/-!
# Function literals inside function literals

`Literal.Nested` says which literals stand around one, and `Stmt.nestingIn` how many of them there
can be.
-/

namespace MonkeyLanguage

structure Literal where
  params : List String
  body : Block

def Closure.literal (f : Closure) : Literal := ⟨f.params, f.body⟩

namespace Literal

/-- The literal is part of the block, and of no other literal in it. -/
def StandsIn (l : Literal) (block : Block) : Prop :=
  .capture l.params l.body ∈ Stmt.accessesIn block

/-- The literal occurs in the program, and those around it are the ones listed, innermost first. -/
inductive Nested (program : Program) : List Literal → Literal → Prop where
  | outermost {l : Literal} : l.StandsIn program → Nested program [] l
  | inside {path : List Literal} {outer l : Literal} : Nested program path outer →
    l.StandsIn outer.body → Nested program (outer :: path) l

end Literal

/-! ### Depth of nesting -/

mutual

/-- How deep function literals are nested in the tree. -/
def Expr.nesting : Expr → Nat
  | .identifier _ | .integer _ | .string _ | .boolean _ => 0
  | .function _ body => Stmt.nestingIn body + 1
  | .array elements => Expr.nestingIn elements
  | .hash pairs => Expr.nestingPairs pairs
  | .unary _ operand => operand.nesting
  | .binary _ left right => max left.nesting right.nesting
  | .index left position => max left.nesting position.nesting
  | .conditional condition consequence alternative =>
    max (max condition.nesting (Stmt.nestingIn consequence)) (Stmt.nestingElse alternative)
  | .call callee args => max callee.nesting (Expr.nestingIn args)

def Expr.nestingIn : List Expr → Nat
  | [] => 0
  | e :: es => max e.nesting (Expr.nestingIn es)

def Expr.nestingPairs : List (Expr × Expr) → Nat
  | [] => 0
  | (key, value) :: pairs => max (max key.nesting value.nesting) (Expr.nestingPairs pairs)

def Stmt.nesting : Stmt → Nat
  | .bind _ value | .ret value | .expression value => value.nesting
  | .block body => Stmt.nestingIn body

def Stmt.nestingIn : List Stmt → Nat
  | [] => 0
  | s :: rest => max s.nesting (Stmt.nestingIn rest)

def Stmt.nestingElse : Option (List Stmt) → Nat
  | none => 0
  | some body => Stmt.nestingIn body

end

section

variable {params : List String} {body : Block}

mutual

theorem Expr.lt_nesting (e : Expr) (member : .capture params body ∈ e.accesses) :
    Stmt.nestingIn body < e.nesting := by
  match e with
  | .identifier _ | .integer _ | .string _ | .boolean _ => simp [Expr.accesses] at member
  | .function _ _ =>
    simp only [Expr.accesses, List.mem_singleton, Access.capture.injEq] at member
    obtain ⟨-, rfl⟩ := member
    exact Nat.lt_succ_self _
  | .array elements => exact Expr.lt_nestingIn elements member
  | .hash pairs => exact Expr.lt_nestingPairs pairs member
  | .unary _ operand => exact Expr.lt_nesting operand member
  | .binary _ left right | .index left right =>
    simp only [Expr.accesses, List.mem_append] at member
    exact lt_max_iff.2 (member.imp left.lt_nesting right.lt_nesting)
  | .conditional condition consequence alternative =>
    simp only [Expr.accesses, List.mem_append] at member
    simp only [Expr.nesting, lt_max_iff]
    exact member.imp (Or.imp condition.lt_nesting (Stmt.lt_nestingIn consequence))
      (Stmt.lt_nestingElse alternative)
  | .call callee args =>
    simp only [Expr.accesses, List.mem_append] at member
    exact lt_max_iff.2 (member.imp callee.lt_nesting (Expr.lt_nestingIn args))

theorem Expr.lt_nestingIn (es : List Expr) (member : .capture params body ∈ Expr.accessesIn es) :
    Stmt.nestingIn body < Expr.nestingIn es := by
  match es with
  | [] => simp [Expr.accessesIn] at member
  | e :: es =>
    simp only [Expr.accessesIn, List.mem_append] at member
    exact lt_max_iff.2 (member.imp e.lt_nesting (Expr.lt_nestingIn es))

theorem Expr.lt_nestingPairs (pairs : List (Expr × Expr))
    (member : .capture params body ∈ Expr.accessesPairs pairs) :
    Stmt.nestingIn body < Expr.nestingPairs pairs := by
  match pairs with
  | [] => simp [Expr.accessesPairs] at member
  | (key, value) :: pairs =>
    simp only [Expr.accessesPairs, List.mem_append] at member
    simp only [Expr.nestingPairs, lt_max_iff]
    exact member.imp (Or.imp key.lt_nesting value.lt_nesting) (Expr.lt_nestingPairs pairs)

theorem Stmt.lt_nesting (s : Stmt) (member : .capture params body ∈ s.accesses) :
    Stmt.nestingIn body < s.nesting := by
  match s with
  | .bind _ value =>
    simp only [Stmt.accesses, List.mem_cons, reduceCtorEq, false_or] at member
    exact value.lt_nesting member
  | .ret value => exact value.lt_nesting member
  | .expression value => exact value.lt_nesting member
  | .block block => exact Stmt.lt_nestingIn block member

theorem Stmt.lt_nestingIn (block : List Stmt)
    (member : .capture params body ∈ Stmt.accessesIn block) :
    Stmt.nestingIn body < Stmt.nestingIn block := by
  match block with
  | [] => simp [Stmt.accessesIn] at member
  | s :: rest =>
    simp only [Stmt.accessesIn, List.mem_append] at member
    exact lt_max_iff.2 (member.imp s.lt_nesting (Stmt.lt_nestingIn rest))

theorem Stmt.lt_nestingElse (alternative : Option (List Stmt))
    (member : .capture params body ∈ Stmt.accessesElse alternative) :
    Stmt.nestingIn body < Stmt.nestingElse alternative := by
  match alternative with
  | none => simp [Stmt.accessesElse] at member
  | some block => exact Stmt.lt_nestingIn block member

end

end

/-- Around a literal there are fewer literals than the program nests, by those inside it. -/
theorem Literal.Nested.length_lt {program : Program} {path : List Literal} {l : Literal}
    (nested : l.Nested program path) :
    path.length + Stmt.nestingIn l.body < Stmt.nestingIn program := by
  induction nested with
  | outermost stands =>
    have inside := Stmt.lt_nestingIn _ stands
    simpa using inside
  | inside _ stands ih =>
    have inside := Stmt.lt_nestingIn _ stands
    simp only [List.length_cons]
    omega

end MonkeyLanguage
