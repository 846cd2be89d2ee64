import MonkeyLanguage.Store
import MonkeyLanguage.Eval.Builtin

/-!
# Evaluation

Evaluation follows the tree. It is given the meaning of calls as a parameter, so a tree without
calls needs nothing else to end; `callWithin` ties the knot by a bound on the depth of nested
calls. To run out of that depth is neither a value nor an error of the language.

Signals are handed on by `onValue`, and from lists of expressions by `Expr.evalAll`.
-/

namespace MonkeyLanguage

/-- A computation on the store, or `none` when calls are nested deeper than allowed. -/
abbrev Eval (α : Type) := StateT Store Option α

/-- What a call of a function with as many arguments as it has parameters gives. -/
abbrev Call := Closure → List Value → Eval Value

/-- Goes on with a value, and hands a signal on as it is. -/
@[inline] def onValue (first : Eval Value) (next : Value → Eval Value) : Eval Value := do
  let v ← first
  if v.isSignal then pure v else next v

/-- A name means its nearest binding, else the builtin of that name. -/
def lookupName (scope : Scope) (name : String) : Eval Value := fun store =>
  match store.lookup name scope with
  | some v => some (v, store)
  | none =>
    match Builtin.named? name with
    | some b => some (.builtin b, store)
    | none => some ((Fault.identifierNotFound name).value, store)

def newFunction (scope : Scope) (params : List String) (body : Block) : Eval Value := fun store =>
  let (closure, store) := store.newClosure params body scope
  some (.function closure, store)

def bindName (scope : Scope) (name : String) (v : Value) : Eval Value := fun store =>
  some (v, store.bind scope name v)

/-- Calls a value that has been evaluated, as its arguments have. -/
def applyValue (call : Call) (callee : Value) (args : List Value) : Eval Value :=
  match callee with
  | .function f =>
    if f.params.length = args.length then call f args
    else pure (Fault.argumentCount f.params.length args.length).value
  | .builtin b => pure (b.apply args)
  | callee => pure (Fault.notAFunction callee.type).value

mutual

def Expr.eval (call : Call) (scope : Scope) : Expr → Eval Value
  | .identifier name => lookupName scope name
  | .integer value => pure (.integer value)
  | .string value => pure (.string value)
  | .boolean value => pure (.boolean value)
  | .array elements => do
    match ← Expr.evalAll call scope elements with
    | .ok values => pure (.array values)
    | .error signal => pure signal
  | .hash pairs => Expr.evalPairs call scope [] pairs
  | .function params body => newFunction scope params body
  | .unary op operand =>
    onValue (operand.eval call scope) fun v => pure (op.apply v)
  | .binary op left right =>
    onValue (left.eval call scope) fun a =>
    onValue (right.eval call scope) fun b => pure (op.apply a b)
  | .index left position =>
    onValue (left.eval call scope) fun v =>
    onValue (position.eval call scope) fun p => pure (v.at p)
  | .conditional condition consequence none =>
    onValue (condition.eval call scope) fun v =>
      if v.isTruthy then Stmt.evalAll call scope .null consequence else pure .null
  | .conditional condition consequence (some alternative) =>
    onValue (condition.eval call scope) fun v =>
      if v.isTruthy then Stmt.evalAll call scope .null consequence
      else Stmt.evalAll call scope .null alternative
  | .call callee args =>
    onValue (callee.eval call scope) fun f => do
      match ← Expr.evalAll call scope args with
      | .ok values => applyValue call f values
      | .error signal => pure signal

/-- The values of expressions from left to right, or the first signal among them. -/
def Expr.evalAll (call : Call) (scope : Scope) : List Expr → Eval (Except Value (List Value))
  | [] => pure (.ok [])
  | e :: es => do
    let v ← e.eval call scope
    if v.isSignal then pure (.error v)
    else
      match ← Expr.evalAll call scope es with
      | .ok values => pure (.ok (v :: values))
      | .error signal => pure (.error signal)

/-- Adds the pairs of a hash literal to `entries`. A key is checked before its value is
evaluated. -/
def Expr.evalPairs (call : Call) (scope : Scope) (entries : List (HashKey × Value)) :
    List (Expr × Expr) → Eval Value
  | [] => pure (.hash entries)
  | (k, e) :: pairs =>
    onValue (k.eval call scope) fun keyValue =>
      match keyValue.hashKey? with
      | none => pure (Fault.unhashable keyValue.type).value
      | some key =>
        onValue (e.eval call scope) fun v =>
          Expr.evalPairs call scope (Table.set key v entries) pairs

def Stmt.eval (call : Call) (scope : Scope) : Stmt → Eval Value
  | .bind name value => onValue (value.eval call scope) fun v => bindName scope name v
  | .ret value => onValue (value.eval call scope) fun v => pure (.returning v)
  | .expression value => value.eval call scope
  | .block body => Stmt.evalAll call scope .null body

/-- Statements in order, up to a signal. Without one the last value counts, and `last` if there
is no statement. -/
def Stmt.evalAll (call : Call) (scope : Scope) (last : Value) : List Stmt → Eval Value
  | [] => pure last
  | s :: rest => onValue (s.eval call scope) fun v => Stmt.evalAll call scope v rest

end

/-- Calls nested at most `depth` deep. The body runs in a scope of its own inside that of the
function, where a value on its way back arrives. -/
def callWithin : Nat → Call
  | 0, _, _ => fun _ => none
  | depth + 1, f, args => fun store =>
    let (scope, store) := store.enclose f.scope
    let store := store.bindAll scope f.params args
    match Stmt.evalAll (callWithin depth) scope .null f.body store with
    | some (v, store) => some (v.arrived, store)
    | none => none

def Program.eval (depth : Nat) (scope : Scope) (program : Program) : Eval Value := do
  let v ← Stmt.evalAll (callWithin depth) scope .null program
  pure v.arrived

end MonkeyLanguage
