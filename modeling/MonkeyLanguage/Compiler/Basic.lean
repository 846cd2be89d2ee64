import MonkeyLanguage.Code.Listing
import MonkeyLanguage.Syntax.Basic

/-!
# Compilation

The compiler appends instructions as it walks the tree. The target of a jump is not known when the
jump is emitted, so a placeholder is written and patched later.

A compiler can go on after a failure: what was emitted before it stays.
-/

namespace MonkeyLanguage

inductive CompileError where
  | unsupportedNode (kind : String)
  | tooManyConstants
  | jumpOutOfRange (target : Nat)
  deriving DecidableEq

def CompileError.message : CompileError → String
  | unsupportedNode kind => "cannot compile " ++ kind
  | tooManyConstants => "too many constants, at most 65536 fit in one program"
  | jumpOutOfRange target =>
    "jump target " ++ toString target ++ " does not fit in a 2-byte operand"

structure Emitted where
  op : OpCode
  position : Nat
  deriving DecidableEq

/-- What has been compiled so far, and the last two instructions emitted. -/
structure Compiler where
  code : Code
  constants : Array Value
  last : Option Emitted
  previous : Option Emitted

def Compiler.empty : Compiler := ⟨#[], #[], none, none⟩

def Compiler.bytecode (c : Compiler) : Bytecode := ⟨c.code, c.constants⟩

/-- A step of the compiler; after an error the state stays as it was left. -/
abbrev Compile (α : Type) := EStateM CompileError Compiler α

/-- The target written into a jump before it is known. -/
def placeholder : Nat := 9999

def emit (op : OpCode) (operands : List Nat) (fits : op.Fits operands) : Compile Nat := fun c =>
  let position := c.code.size
  .ok position
    { c with
      code := c.code ++ encode op operands fits
      last := some ⟨op, position⟩
      previous := c.last }

def emitPlain (op : OpCode) (plain : op.operandWidths = []) : Compile Unit := do
  let _ ← emit op [] (by rw [OpCode.Fits, plain]; rfl)

theorem misfit?_word {n : Nat} (h : n ≤ 65535) : misfit? [2] [n] = none := by
  have : n < 256 ^ 2 := by omega
  exact if_pos this

def emitJump (op : OpCode) (jump : op.operandWidths = [2]) : Compile Nat :=
  emit op [placeholder] (by rw [OpCode.Fits, jump]; exact misfit?_word (by decide))

/-- Adds a constant and the instruction that loads it. Equal constants are not shared. -/
def emitConstant (constant : Value) : Compile Unit := fun c =>
  let index := c.constants.size
  if h : index ≤ 65535 then
    let c := { c with constants := c.constants.push constant }
    match emit .constant [index] (misfit?_word h) c with
    | .ok _ c => .ok () c
    | .error e c => .error e c
  else .error .tooManyConstants c

def overwrite (code : Code) (position : Nat) : List UInt8 → Code
  | [] => code
  | b :: bytes => overwrite (code.setIfInBounds position b) (position + 1) bytes

/-- Lets the jump at a position lead to the end of the code so far. -/
def patchJump (op : OpCode) (jump : op.operandWidths = [2]) (position : Nat) : Compile Unit :=
  fun c =>
    let target := c.code.size
    if h : target ≤ 65535 then
      let bytes := encode op [target] (by rw [OpCode.Fits, jump]; exact misfit?_word h)
      .ok () { c with code := overwrite c.code position bytes }
    else .error (.jumpOutOfRange target) c

/-- Makes the code of a branch leave its last value on the stack: its final pop goes, and where
there is none a null is pushed. -/
def keepLastValue : Compile Unit := fun c =>
  match c.last with
  | some ⟨.pop, position⟩ =>
    .ok () { c with code := c.code.shrink position, last := c.previous }
  | _ => emitPlain .pushNull rfl c

def UnaryOp.opCode : UnaryOp → OpCode
  | .not => .bang
  | .negate => .minus

/-- There is one instruction for both orders: `a < b` is computed as `b > a`. -/
def BinaryOp.opCode : BinaryOp → OpCode
  | .plus => .add
  | .minus => .sub
  | .multiply => .mul
  | .divide => .div
  | .lessThan => .greaterThan
  | .greaterThan => .greaterThan
  | .equal => .equal
  | .notEqual => .notEqual

theorem UnaryOp.operandWidths_opCode (op : UnaryOp) : op.opCode.operandWidths = [] := by
  cases op <;> rfl

theorem BinaryOp.operandWidths_opCode (op : BinaryOp) : op.opCode.operandWidths = [] := by
  cases op <;> rfl

mutual

def Expr.compile : Expr → Compile Unit
  | .integer value => emitConstant (.integer value)
  | .boolean true => emitPlain .pushTrue rfl
  | .boolean false => emitPlain .pushFalse rfl
  | .unary op operand => do
    operand.compile
    emitPlain op.opCode op.operandWidths_opCode
  | .binary op left right => do
    if op = .lessThan then
      right.compile
      left.compile
    else
      left.compile
      right.compile
    emitPlain op.opCode op.operandWidths_opCode
  | .conditional condition consequence none => do
    condition.compile
    let toAlternative ← emitJump .jumpNotTruthy rfl
    Stmt.compileAll consequence
    keepLastValue
    let toEnd ← emitJump .jump rfl
    patchJump .jumpNotTruthy rfl toAlternative
    emitPlain .pushNull rfl
    patchJump .jump rfl toEnd
  | .conditional condition consequence (some alternative) => do
    condition.compile
    let toAlternative ← emitJump .jumpNotTruthy rfl
    Stmt.compileAll consequence
    keepLastValue
    let toEnd ← emitJump .jump rfl
    patchJump .jumpNotTruthy rfl toAlternative
    Stmt.compileAll alternative
    keepLastValue
    patchJump .jump rfl toEnd
  | .identifier name => throw (.unsupportedNode (Expr.identifier name).kind)
  | .string value => throw (.unsupportedNode (Expr.string value).kind)
  | .array elements => throw (.unsupportedNode (Expr.array elements).kind)
  | .hash pairs => throw (.unsupportedNode (Expr.hash pairs).kind)
  | .function params body => throw (.unsupportedNode (Expr.function params body).kind)
  | .index left position => throw (.unsupportedNode (Expr.index left position).kind)
  | .call callee args => throw (.unsupportedNode (Expr.call callee args).kind)

def Stmt.compile : Stmt → Compile Unit
  | .expression value => do
    value.compile
    emitPlain .pop rfl
  | .block body => Stmt.compileAll body
  | .bind name value => throw (.unsupportedNode (Stmt.bind name value).kind)
  | .ret value => throw (.unsupportedNode (Stmt.ret value).kind)

def Stmt.compileAll : List Stmt → Compile Unit
  | [] => pure ()
  | s :: rest => do
    s.compile
    Stmt.compileAll rest

end

def Compiler.add (c : Compiler) (program : Program) : Except CompileError Unit × Compiler :=
  match Stmt.compileAll program c with
  | .ok () c => (.ok (), c)
  | .error e c => (.error e, c)

def compile (program : Program) : Except CompileError Bytecode :=
  match Stmt.compileAll program .empty with
  | .ok () c => .ok c.bytecode
  | .error e _ => .error e

end MonkeyLanguage
