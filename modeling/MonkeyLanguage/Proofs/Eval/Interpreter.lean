import MonkeyLanguage.Proofs.Eval.Layout
import MonkeyLanguage.Proofs.Eval.Signal
import MonkeyLanguage.Proofs.Eval.Untouched

/-!
# Interpreters with a current scope

Evaluation is given its scope. An interpreter has a current scope instead, which a call replaces by
that of the body and puts back when the body has ended. Both compute the same, so the current scope
is the old one after every tree, whatever was called on the way.

`only_current_scope_written` says what evaluation may change in the scopes there were before.
-/

namespace MonkeyLanguage

structure Interpreter where
  /-- The scope in which names are looked up and bound just now. -/
  scope : Scope
  store : Store

/-- A computation of an interpreter, or `none` when calls are nested deeper than allowed. -/
abbrev Run (α : Type) := StateT Interpreter Option α

abbrev RunCall := Closure → List Value → Run Value

namespace Interpreter

/-- Works on the store in the current scope, which stays the current one. -/
def here {α : Type} (m : Scope → Eval α) : Run α := fun i =>
  (m i.scope i.store).map fun (a, store) => (a, ⟨i.scope, store⟩)

/-- Makes another scope the current one until the computation has ended. -/
def inScope {α : Type} (scope : Scope) (m : Run α) : Run α := fun i =>
  (m ⟨scope, i.store⟩).map fun (a, j) => (a, ⟨i.scope, j.store⟩)

/-- Goes on with a value, and hands a signal on as it is. -/
def unlessSignal (first : Run Value) (next : Value → Run Value) : Run Value := do
  let v ← first
  if v.isSignal then pure v else next v

/-- Opens the scope of a call and binds its parameters there. -/
def enter (f : Closure) (args : List Value) : Run Scope := fun i =>
  some (f.entered i.store, ⟨i.scope, f.opened args i.store⟩)

def apply (call : RunCall) (callee : Value) (args : List Value) : Run Value :=
  match callee with
  | .function f =>
    if f.params.length = args.length then call f args
    else pure (Fault.argumentCount f.params.length args.length).value
  | .builtin b => pure (b.apply args)
  | callee => pure (Fault.notAFunction callee.type).value

end Interpreter

open Interpreter in
mutual

def Expr.run (call : RunCall) : Expr → Run Value
  | .identifier name => here (lookupName · name)
  | .integer value => pure (.integer value)
  | .string value => pure (.string value)
  | .boolean value => pure (.boolean value)
  | .array elements => do
    match ← Expr.runAll call elements with
    | .ok values => pure (.array values)
    | .error signal => pure signal
  | .hash pairs => Expr.runPairs call [] pairs
  | .function params body => here (newFunction · params body)
  | .unary op operand => unlessSignal (operand.run call) fun v => pure (op.apply v)
  | .binary op left right =>
    unlessSignal (left.run call) fun a => unlessSignal (right.run call) fun b => pure (op.apply a b)
  | .index left position =>
    unlessSignal (left.run call) fun v => unlessSignal (position.run call) fun p => pure (v.at p)
  | .conditional condition consequence alternative =>
    unlessSignal (condition.run call) fun v =>
      if v.isTruthy then Stmt.runAll call .null consequence else Stmt.runElse call alternative
  | .call callee args =>
    unlessSignal (callee.run call) fun f => do
      match ← Expr.runAll call args with
      | .ok values => Interpreter.apply call f values
      | .error signal => pure signal

def Expr.runAll (call : RunCall) : List Expr → Run (Except Value (List Value))
  | [] => pure (.ok [])
  | e :: es => do
    let v ← e.run call
    if v.isSignal then pure (.error v)
    else
      match ← Expr.runAll call es with
      | .ok values => pure (.ok (v :: values))
      | .error signal => pure (.error signal)

def Expr.runPairs (call : RunCall) (entries : List (HashKey × Value)) :
    List (Expr × Expr) → Run Value
  | [] => pure (.hash entries)
  | (k, e) :: pairs =>
    unlessSignal (k.run call) fun keyValue =>
      match keyValue.hashKey? with
      | none => pure (Fault.unhashable keyValue.type).value
      | some key =>
        unlessSignal (e.run call) fun v => Expr.runPairs call (Table.set key v entries) pairs

def Stmt.run (call : RunCall) : Stmt → Run Value
  | .bind name value => unlessSignal (value.run call) fun v => here (bindName · name v)
  | .ret value => unlessSignal (value.run call) fun v => pure (.returning v)
  | .expression value => value.run call
  | .block body => Stmt.runAll call .null body

def Stmt.runAll (call : RunCall) (last : Value) : List Stmt → Run Value
  | [] => pure last
  | s :: rest => unlessSignal (s.run call) fun v => Stmt.runAll call v rest

def Stmt.runElse (call : RunCall) : Option (List Stmt) → Run Value
  | none => pure .null
  | some body => Stmt.runAll call .null body

end

namespace Interpreter

/-- Calls nested at most `depth` deep. -/
def runWithin : Nat → RunCall
  | 0, _, _ => fun _ => none
  | depth + 1, f, args => do
    let scope ← enter f args
    let v ← inScope scope (Stmt.runAll (runWithin depth) .null f.body)
    pure v.arrived

def runTree (call : RunCall) : {kind : Kind} → kind.Tree → Run Value
  | .expr, e => e.run call
  | .stmt, s => s.run call
  | .block, body => Stmt.runAll call .null body

def runProgram (depth : Nat) (program : Program) : Run Value := do
  let v ← Stmt.runAll (runWithin depth) .null program
  pure v.arrived

/-! ### Both ways to evaluate -/

/-- The interpreter does what the computation does in the current scope, which stays the current
one. -/
def Tracks {α : Type} (m' : Run α) (m : Scope → Eval α) : Prop := m' = here m

namespace Tracks

variable {α β : Type}

theorem pure (a : α) : Tracks (Pure.pure a) fun _ => Pure.pure a := rfl

theorem bind {m' : Run α} {m : Scope → Eval α} {f' : α → Run β} {f : α → Scope → Eval β}
    (first : Tracks m' m) (next : ∀ a, Tracks (f' a) (f a)) :
    Tracks (m' >>= f') fun scope => m scope >>= fun a => f a scope := by
  obtain rfl := first
  obtain rfl : f' = fun a => here (f a) := funext next
  funext i
  change ((m i.scope i.store).map _).bind _ = ((m i.scope i.store).bind _).map _
  cases m i.scope i.store <;> rfl

theorem ended {m' : Run α} {m : Scope → Eval α} (tracks : Tracks m' m) {scope : Scope}
    {store store' : Store} {a : α} (h : m scope store = some (a, store')) :
    m' ⟨scope, store⟩ = some (a, ⟨scope, store'⟩) := by
  obtain rfl := tracks
  simp [here, h]

theorem unlessSignal {first' : Run Value} {first : Scope → Eval Value} {next' : Value → Run Value}
    {next : Value → Scope → Eval Value} (h : Tracks first' first)
    (rest : ∀ v, Tracks (next' v) (next v)) :
    Tracks (unlessSignal first' next')
      fun scope => onValue (first scope) fun v => next v scope := by
  refine h.bind fun v => ?_
  split
  · exact .pure v
  · exact rest v

end Tracks

theorem apply_tracks {call' : RunCall} {call : Call}
    (h : ∀ f args, Tracks (call' f args) fun _ => call f args) (callee : Value)
    (args : List Value) :
    Tracks (apply call' callee args) fun _ => applyValue call callee args := by
  cases callee with
  | function f =>
    simp only [apply, applyValue]
    split
    · exact h f args
    · exact .pure _
  | _ => exact .pure _

end Interpreter

open Interpreter

section

set_option linter.unusedSectionVars false

variable {call' : RunCall} {call : Call} (h : ∀ f args, Tracks (call' f args) fun _ => call f args)
include h

mutual

theorem Expr.run_tracks (e : Expr) : Tracks (e.run call') fun scope => e.eval call scope := by
  match e with
  | .identifier _ | .function _ _ => rfl
  | .integer _ | .string _ | .boolean _ => exact .pure _
  | .array elements =>
    simp only [Expr.run, Expr.eval]
    refine (Expr.runAll_tracks elements).bind fun result => ?_
    cases result <;> exact .pure _
  | .hash pairs =>
    simp only [Expr.run, Expr.eval]
    exact Expr.runPairs_tracks [] pairs
  | .unary op operand =>
    simp only [Expr.run, Expr.eval]
    exact operand.run_tracks.unlessSignal fun v => .pure _
  | .binary op left right =>
    simp only [Expr.run, Expr.eval]
    exact left.run_tracks.unlessSignal fun a => right.run_tracks.unlessSignal fun b => .pure _
  | .index left position =>
    simp only [Expr.run, Expr.eval]
    exact left.run_tracks.unlessSignal fun v => position.run_tracks.unlessSignal fun p => .pure _
  | .conditional condition consequence alternative =>
    simp only [Expr.run, Expr.eval_conditional]
    refine condition.run_tracks.unlessSignal fun v => ?_
    split
    · exact Stmt.runAll_tracks .null consequence
    · exact Stmt.runElse_tracks alternative
  | .call callee args =>
    simp only [Expr.run, Expr.eval]
    refine callee.run_tracks.unlessSignal fun f => (Expr.runAll_tracks args).bind fun result => ?_
    cases result with
    | ok values => exact apply_tracks h f values
    | error signal => exact .pure _

theorem Expr.runAll_tracks (es : List Expr) :
    Tracks (Expr.runAll call' es) fun scope => Expr.evalAll call scope es := by
  match es with
  | [] => exact .pure _
  | e :: es =>
    simp only [Expr.runAll, Expr.evalAll]
    refine e.run_tracks.bind fun v => ?_
    split
    · exact .pure _
    · refine (Expr.runAll_tracks es).bind fun result => ?_
      cases result <;> exact .pure _

theorem Expr.runPairs_tracks (entries : List (HashKey × Value)) (pairs : List (Expr × Expr)) :
    Tracks (Expr.runPairs call' entries pairs)
      fun scope => Expr.evalPairs call scope entries pairs := by
  match pairs with
  | [] => exact .pure _
  | (k, e) :: pairs =>
    simp only [Expr.runPairs, Expr.evalPairs]
    refine k.run_tracks.unlessSignal fun keyValue => ?_
    cases keyValue.hashKey? with
    | none => exact .pure _
    | some key => exact e.run_tracks.unlessSignal fun v => Expr.runPairs_tracks _ pairs

theorem Stmt.run_tracks (s : Stmt) : Tracks (s.run call') fun scope => s.eval call scope := by
  match s with
  | .bind name value =>
    simp only [Stmt.run, Stmt.eval]
    exact value.run_tracks.unlessSignal fun v => rfl
  | .ret value =>
    simp only [Stmt.run, Stmt.eval]
    exact value.run_tracks.unlessSignal fun v => .pure _
  | .expression value =>
    simp only [Stmt.run, Stmt.eval]
    exact value.run_tracks
  | .block body =>
    simp only [Stmt.run, Stmt.eval]
    exact Stmt.runAll_tracks .null body

theorem Stmt.runAll_tracks (last : Value) (body : List Stmt) :
    Tracks (Stmt.runAll call' last body) fun scope => Stmt.evalAll call scope last body := by
  match body with
  | [] => exact .pure _
  | s :: rest =>
    simp only [Stmt.runAll, Stmt.evalAll]
    exact s.run_tracks.unlessSignal fun v => Stmt.runAll_tracks v rest

theorem Stmt.runElse_tracks (alternative : Option (List Stmt)) :
    Tracks (Stmt.runElse call' alternative) fun scope => Stmt.evalElse call scope alternative := by
  match alternative with
  | none => exact .pure _
  | some body => exact Stmt.runAll_tracks .null body

end

end

namespace Interpreter

/-- A call goes back to the scope it came from. -/
theorem runWithin_tracks (depth : Nat) (f : Closure) (args : List Value) :
    Tracks (runWithin depth f args) fun _ => callWithin depth f args := by
  induction depth generalizing f args with
  | zero => rfl
  | succ depth ih =>
    have body := Stmt.runAll_tracks ih .null f.body
    funext ⟨scope, store⟩
    change (inScope (f.entered store) (Stmt.runAll (runWithin depth) .null f.body)
      ⟨scope, f.opened args store⟩).bind _ = (callWithin (depth + 1) f args store).map _
    rw [callWithin_succ, Program.eval, inScope, body, here]
    change _ = ((Stmt.evalAll (callWithin depth) (f.entered store) .null f.body
      (f.opened args store)).bind _).map _
    cases Stmt.evalAll (callWithin depth) (f.entered store) .null f.body (f.opened args store) <;>
      rfl

theorem runTree_tracks (depth : Nat) {kind : Kind} (tree : kind.Tree) :
    Tracks (runTree (runWithin depth) tree)
      fun scope => evalTree (callWithin depth) scope tree := by
  cases kind with
  | expr => exact Expr.run_tracks (runWithin_tracks depth) tree
  | stmt => exact Stmt.run_tracks (runWithin_tracks depth) tree
  | block => exact Stmt.runAll_tracks (runWithin_tracks depth) .null tree

theorem runProgram_tracks (depth : Nat) (program : Program) :
    Tracks (runProgram depth program) fun scope => program.eval depth scope :=
  (Stmt.runAll_tracks (runWithin_tracks depth) .null program).bind fun v => .pure v.arrived

end Interpreter

/-! ### What evaluation writes -/

/-- What a computation may do to the scopes there are when it begins: bind names in frames that
`written` allows. Every other frame has the bindings it had, and no frame has another outer one. The
values `given` are those that the computation starts from besides the store. -/
structure Store.Advances (written : Nat → Prop) (scope : Scope) (given : List Value)
    (store : Store) (v : Value) (store' : Store) : Prop where
  spares : ∀ frame < store.frames.size, ¬ written frame → store.Spares frame store'
  links : ∀ layout, scope.Fits layout → store.Fits layout → (∀ w ∈ given, w.Fits layout) →
    ∃ layout', layout.Grows layout' ∧ scope.Fits layout' ∧ store'.Fits layout' ∧ v.Fits layout'

theorem Store.Advances.of_parts {written : Nat → Prop} {scope : Scope} {given : List Value}
    {m : Eval Value} {store store' : Store} {v : Value} (ended : m store = some (v, store'))
    (leaves : ∀ frame, ¬ written frame → Leaves frame m)
    (grows : ∀ layout, scope.Fits layout → (∀ w ∈ given, w.Fits layout) →
      GrowsTo layout Value.Fits m) :
    store.Advances written scope given v store' := by
  refine ⟨fun frame inside spared => leaves frame spared _ _ _ inside ended, ?_⟩
  intro layout home fits fitsGiven
  obtain ⟨layout', grows, fits', result⟩ := grows layout home fitsGiven _ _ _ fits ended
  exact ⟨layout', grows, home.mono grows, fits', result⟩

/-- Evaluation writes to no scope but the current one, which is the current one again when it has
ended; to apply a function that has been evaluated writes to none of the scopes there were. -/
theorem only_current_scope_written {depth : Nat} {scope : Scope} {store store' : Store}
    {v : Value} :
    (∀ {kind : Kind} (tree : kind.Tree),
      evalTree (callWithin depth) scope tree store = some (v, store') →
        Interpreter.runTree (Interpreter.runWithin depth) tree ⟨scope, store⟩ =
            some (v, ⟨scope, store'⟩) ∧
          store.Advances (· = scope.frame) scope [] v store') ∧
    (∀ program : Program, program.eval depth scope store = some (v, store') →
      Interpreter.runProgram depth program ⟨scope, store⟩ = some (v, ⟨scope, store'⟩) ∧
        store.Advances (· = scope.frame) scope [] v store') ∧
    ∀ (callee : Value) (args : List Value),
      applyValue (callWithin depth) callee args store = some (v, store') →
        Interpreter.apply (Interpreter.runWithin depth) callee args ⟨scope, store⟩ =
            some (v, ⟨scope, store'⟩) ∧
          store.Advances (fun _ => False) scope (callee :: args) v store' := by
  refine ⟨fun tree ended => ⟨?_, ?_⟩, fun program ended => ⟨?_, ?_⟩,
    fun callee args ended => ⟨?_, ?_⟩⟩
  · exact (Interpreter.runTree_tracks depth tree).ended ended
  · exact .of_parts ended (fun frame other => evalTree_leaves (Ne.symm other) depth tree)
      fun layout home _ => evalTree_growsTo home depth tree
  · exact (Interpreter.runProgram_tracks depth program).ended ended
  · refine .of_parts ended (fun frame other => ?_) fun layout home _ => ?_
    · exact Program.eval_leaves depth (.inl (Ne.symm other))
    · exact Program.eval_growsTo depth home program
  · exact (Interpreter.apply_tracks (Interpreter.runWithin_tracks depth) callee args).ended ended
  · refine .of_parts ended (fun frame _ => ?_) fun layout home fits => ?_
    · exact applyValue_leaves frame depth callee args
    · exact applyValue_growsTo depth (fits callee (by simp))
        fun w member => fits w (by simp [member])

/-- `fn(x) { let y = x; let x = 2; return y; }`, made in the outermost scope. -/
def rebinding : Closure :=
  ⟨0, ["x"], [.bind "y" (.identifier "x"), .bind "x" (.integer 2), .ret (.identifier "y")],
    .root 0⟩

def rebindingStore : Store := ⟨#[[("f", .function rebinding), ("x", .integer 1)], []], 1⟩

theorem rebindingStore_fits : rebindingStore.Fits ⟨[none, some 0], 1⟩ := by
  refine ⟨rfl, rfl, fun frame name v member => ?_⟩
  match frame with
  | 0 =>
    have listed : (name, v) ∈ [("f", Value.function rebinding), ("x", .integer 1)] := member
    rcases List.mem_cons.1 listed with same | listed
    · obtain ⟨-, rfl⟩ := Prod.mk.inj same
      exact Value.all_function.2 ⟨rfl, by decide⟩
    · obtain ⟨-, rfl⟩ := Prod.mk.inj (List.mem_singleton.1 listed)
      exact Value.all_of_closures rfl
  | 1 => nomatch member
  | n + 2 => nomatch member

/-- `let z = f(x);` -/
def callRebinding : Kind.block.Tree := [.bind "z" (.call (.identifier "f") [.identifier "x"])]

theorem only_current_scope_written_call :
    let scope : Scope := .enclosed 1 (.root 0)
    ∃ store', evalTree (callWithin 1) scope callRebinding rebindingStore =
        some (.integer 1, store') ∧
      Interpreter.runTree (Interpreter.runWithin 1) callRebinding ⟨scope, rebindingStore⟩ =
        some (.integer 1, ⟨scope, store'⟩) ∧
      store'.bindings 0 = rebindingStore.bindings 0 ∧ store'.lookup "z" scope = some (.integer 1) ∧
      ∃ layout, Layout.Grows ⟨[none, some 0], 1⟩ layout ∧ store'.Fits layout := by
  have ended : evalTree (callWithin 1) (.enclosed 1 (.root 0)) callRebinding rebindingStore =
      some (.integer 1, _) := rfl
  obtain ⟨trees, -⟩ := only_current_scope_written
  obtain ⟨ran, spares, links⟩ := trees callRebinding ended
  have home : Scope.Fits ⟨[none, some 0], 1⟩ (.enclosed 1 (.root 0)) := ⟨rfl, rfl⟩
  obtain ⟨layout, grows, -, fits, -⟩ := links _ home rebindingStore_fits (by simp)
  exact ⟨_, ended, ran, (spares 0 (by decide) (by decide)).same, rfl, layout, grows, fits⟩

end MonkeyLanguage
