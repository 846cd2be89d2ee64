import MonkeyLanguage.Proofs.Compiler.Parity
import MonkeyLanguage.Proofs.Compiler.StackSafety

/-!
# What compiled code computes

The rules of the machine on trees: what the code of a tree computes, or how it fails, on a stack of
a given height. Operands are computed in the order in which they are compiled, and every value takes
a place on the stack.

The machine keeps to these rules exactly, so the outcome of a run is known from the program.
-/

namespace MonkeyLanguage

/-! ### The rules -/

/-- A value takes a place on a stack of the given height. -/
def Machine.hold (height : Nat) (value : Value) : Except RuntimeError Value :=
  if height < Stack.capacity then .ok value else .error .stackOverflow

/-- The value of a branch: that of its last expression, or null. -/
def Machine.leave (height : Nat) : Option Value → Except RuntimeError Value
  | some value => .ok value
  | none => hold height .null

def UnaryOp.compute : UnaryOp → Value → Except RuntimeError Value
  | .not, operand => .ok (.boolean !operand.isTruthy)
  | .negate, .integer n => .ok (.integer (-n))
  | .negate, operand => .error (.unsupportedNegation operand.type)

mutual

/-- What the code of an expression computes on a stack of the given height. -/
def Expr.compute : Expr → Nat → Except RuntimeError Value
  | .integer value, height => Machine.hold height (.integer value)
  | .boolean value, height => Machine.hold height (.boolean value)
  | .unary op operand, height => do
    let v ← operand.compute height
    op.compute v
  | .binary op left right, height =>
    if op = .lessThan then do
      let b ← right.compute height
      let a ← left.compute (height + 1)
      Machine.combine op.opCode b a
    else do
      let a ← left.compute height
      let b ← right.compute (height + 1)
      Machine.combine op.opCode a b
  | .conditional condition consequence alternative, height => do
    let v ← condition.compute height
    if v.isTruthy then
      let last ← Stmt.computeAll consequence height
      Machine.leave height last
    else Stmt.computeElse alternative height
  | _, _ => .ok .null

/-- The value that a statement pops last, if it pops any. -/
def Stmt.compute : Stmt → Nat → Except RuntimeError (Option Value)
  | .expression value, height => do
    let v ← value.compute height
    pure (some v)
  | .block body, height => Stmt.computeAll body height
  | _, _ => .ok none

def Stmt.computeAll : List Stmt → Nat → Except RuntimeError (Option Value)
  | [], _ => .ok none
  | s :: rest, height => do
    let first ← s.compute height
    let last ← Stmt.computeAll rest height
    pure (last.or first)

def Stmt.computeElse : Option (List Stmt) → Nat → Except RuntimeError Value
  | none, height => Machine.hold height .null
  | some body, height => do
    let last ← Stmt.computeAll body height
    Machine.leave height last

end

/-! ### Outcomes on the machine -/

namespace Machine

variable {bytecode : Bytecode} {m : Machine} {stack : List Value}

/-- From `m` the machine comes to `stop` with the value on top of `stack`, or fails as said. -/
def Performs (bytecode : Bytecode) (m : Machine) (stop : Nat) (stack : List Value) :
    Except RuntimeError Value → Prop
  | .ok value => ∃ m', Steps bytecode m m' ∧ m'.ip = stop ∧ m'.stack.values = stack ++ [value]
  | .error e => Fails bytecode m e

theorem Performs.of_steps {m' : Machine} {stop : Nat} {outcome : Except RuntimeError Value}
    (reached : Steps bytecode m m') (h : Performs bytecode m' stop stack outcome) :
    Performs bytecode m stop stack outcome := by
  cases outcome with
  | ok value =>
    obtain ⟨m'', further, there⟩ := h
    exact ⟨m'', reached.trans further, there⟩
  | error e => exact reached.fails h

/-- A computation goes on from where another one came to, and fails if that fails. -/
theorem Performs.bind {middle stop : Nat} {stack' : List Value}
    {first : Except RuntimeError Value} {next : Value → Except RuntimeError Value}
    (h : Performs bytecode m middle stack' first)
    (rest : ∀ value m', m'.ip = middle → m'.stack.values = stack' ++ [value] →
      Performs bytecode m' stop stack (next value)) :
    Performs bytecode m stop stack (first >>= next) := by
  cases first with
  | ok value =>
    obtain ⟨m', reached, place, top⟩ := h
    exact (rest value m' place top).of_steps reached
  | error e => exact h

theorem height_of_values {m' : Machine} {value : Value}
    (top : m'.stack.values = m.stack.values ++ [value]) :
    m'.stack.height = m.stack.height + 1 := by
  have length := congrArg List.length top
  simpa using length

theorem performs_push {i : Instruction} {value : Value} (m' : Machine)
    (has : bytecode.code.Has m.ip i.bytes) (same : step bytecode m = push value m')
    (place : m'.ip = m.ip + i.width) (stack : m'.stack = m.stack) :
    Performs bytecode m (m.ip + i.width) m.stack.values (hold m.stack.height value) := by
  unfold hold
  split
  · rename_i room
    obtain ⟨m'', pushed, ip, values⟩ := push_of_height value (stack ▸ room)
    exact ⟨m'', .single has.lt_size (same.trans pushed), ip.trans place, by rw [values, stack]⟩
  · have full : m'.stack.height = Stack.capacity := by
      have bound := m'.stack.height_le
      rw [stack] at bound ⊢
      omega
    refine ⟨m, m', .refl, has.lt_size, ?_⟩
    rw [same]
    simp only [push, Stack.push_full value full]

theorem performs_plain_push {op : OpCode} {value : Value}
    (has : bytecode.code.Has m.ip (Instruction.plain op).bytes)
    (wellFormed : (Instruction.plain op).WellFormed)
    (pushes : execute bytecode op m.ip = push value) (width : op.width = 1) :
    Performs bytecode m (m.ip + 1) m.stack.values (hold m.stack.height value) := by
  have performs := performs_push ⟨m.stack, m.ip + 1⟩ has
    ((step_eq has wellFormed).trans (congrFun pushes _)) (by rw [← width]; rfl) rfl
  rwa [show (Instruction.plain op).width = 1 from width] at performs

theorem performs_constant {n : Nat} {value : Value}
    (has : bytecode.code.Has m.ip (Instruction.mk .constant [n]).bytes)
    (wellFormed : (Instruction.mk .constant [n]).WellFormed)
    (found : bytecode.constants[n]? = some value) :
    Performs bytecode m (m.ip + 3) m.stack.values (hold m.stack.height value) := by
  refine performs_push ⟨m.stack, m.ip + 3⟩ has ?_ rfl rfl
  rw [step_eq has wellFormed]
  simp only [execute]
  rw [bind_of_ok (fetchOperand_of_has rfl has wellFormed)]
  simp only [found]

theorem performs_unary {op : UnaryOp} {operand : Value}
    (has : bytecode.code.Has m.ip (Instruction.plain op.opCode).bytes)
    (top : m.stack.values = stack ++ [operand]) :
    Performs bytecode m (m.ip + 1) stack (op.compute operand) := by
  have same := step_eq has
    (Instruction.wellFormed_plain op.operandWidths_opCode (by cases op <;> decide))
  obtain ⟨m₁, popped, ip, values, -⟩ := pop_of_values (m := ⟨m.stack, m.ip + 1⟩) top
  have delivers : ∀ value, step bytecode m = push value m₁ →
      Performs bytecode m (m.ip + 1) stack (.ok value) := by
    intro value stepped
    obtain ⟨m₂, pushed, ip', values'⟩ := push_of_height value (height_lt top values)
    exact ⟨m₂, .single has.lt_size (stepped.trans pushed), ip'.trans ip, by rw [values', values]⟩
  cases op with
  | not =>
    refine delivers _ ?_
    simp only [same, UnaryOp.opCode, Instruction.plain, execute]
    rw [bind_of_ok popped]
  | negate =>
    simp only [UnaryOp.opCode, Instruction.plain, execute] at same
    rw [bind_of_ok popped] at same
    cases operand with
    | integer n => exact delivers _ same
    | _ => exact ⟨m, m₁, .refl, has.lt_size, same⟩

theorem performs_binary {op : OpCode} {left right : Value}
    (has : bytecode.code.Has m.ip (Instruction.plain op).bytes)
    (wellFormed : (Instruction.plain op).WellFormed)
    (executes : execute bytecode op m.ip = binary op)
    (top : m.stack.values = stack ++ [left] ++ [right]) :
    Performs bytecode m (m.ip + 1) stack (combine op left right) := by
  have same := (step_eq has wellFormed).trans (congrFun executes _)
  obtain ⟨m₁, popped, ip, values, -⟩ := pop_of_values (m := ⟨m.stack, m.ip + 1⟩) top
  obtain ⟨m₂, popped', ip', values', -⟩ := pop_of_values values
  simp only [binary] at same
  rw [bind_of_ok popped, bind_of_ok popped'] at same
  cases result : combine op left right with
  | ok value =>
    obtain ⟨m₃, pushed, ip'', values''⟩ := push_of_height value (height_lt values values')
    simp only [result] at same
    exact ⟨m₃, .single has.lt_size (same.trans pushed), ip''.trans (ip'.trans ip),
      by rw [values'', values']⟩
  | error e =>
    simp only [result] at same
    exact ⟨m, m₂, .refl, has.lt_size, same⟩

/-! ### Stretches of code -/

/-- The code from `start` on has this outcome on any stack, depending only on its height. -/
def Realizes (bytecode : Bytecode) (code : List Instruction) (start : Nat)
    (compute : Nat → Except RuntimeError Value) : Prop :=
  ∀ m : Machine, m.ip = start →
    Performs bytecode m (start + totalWidth code) m.stack.values (compute m.stack.height)

namespace Realizes

variable {code code' : List Instruction} {start : Nat}
  {compute compute' : Nat → Except RuntimeError Value}

theorem plain {op : OpCode} {value : Value} {ks : List Value} {pool : Nat}
    (loaded : bytecode.Loaded [.plain op] ks start pool)
    (pushes : execute bytecode op start = push value) (width : op.width = 1) :
    Realizes bytecode [.plain op] start fun height => hold height value := by
  obtain ⟨has, wellFormed⟩ := loaded.head
  rintro m rfl
  simpa [show (Instruction.plain op).width = 1 from width] using
    performs_plain_push has wellFormed pushes width

theorem constant {value : Value} {pool : Nat}
    (loaded : bytecode.Loaded [⟨.constant, [pool]⟩] [value] start pool) :
    Realizes bytecode [⟨.constant, [pool]⟩] start fun height => hold height value := by
  rintro m rfl
  obtain ⟨has, wellFormed⟩ := loaded.head
  obtain ⟨rest, same⟩ := loaded.available
  have found : bytecode.constants[pool]? = some value := by
    rw [← Array.getElem?_toList, ← Nat.add_zero pool, ← List.getElem?_drop, ← same]
    rfl
  exact performs_constant has wellFormed found

theorem unary {op : UnaryOp} (h : Realizes bytecode code start compute)
    (has : bytecode.code.Has (start + totalWidth code) (Instruction.plain op.opCode).bytes) :
    Realizes bytecode (code ++ [.plain op.opCode]) start (fun height => do
      let v ← compute height
      op.compute v) := by
  intro m place
  refine (h m place).bind fun value m' place' top => ?_
  rw [← place'] at has
  simp only [totalWidth_append, totalWidth_cons, totalWidth_nil, Instruction.width_plain_unary]
  rw [← Nat.add_assoc, ← place']
  exact performs_unary has top

theorem binary {middle : Nat} {op : OpCode} (h : Realizes bytecode code start compute)
    (h' : Realizes bytecode code' middle compute') (joint : middle = start + totalWidth code)
    (has : bytecode.code.Has (start + totalWidth (code ++ code')) (Instruction.plain op).bytes)
    (wellFormed : (Instruction.plain op).WellFormed)
    (executes : ∀ offset, execute bytecode op offset = Machine.binary op) (width : op.width = 1) :
    Realizes bytecode (code ++ code' ++ [.plain op]) start (fun height => do
      let a ← compute height
      let b ← compute' (height + 1)
      combine op a b) := by
  intro m place
  refine (h m place).bind fun a m₁ place₁ top₁ => ?_
  have second := h' m₁ (place₁.trans joint.symm)
  rw [height_of_values top₁] at second
  refine second.bind fun b m₂ place₂ top₂ => ?_
  have next : m₂.ip = start + totalWidth (code ++ code') := by
    rw [place₂, joint, totalWidth_append, Nat.add_assoc]
  have stop : start + totalWidth (code ++ code' ++ [.plain op]) = m₂.ip + 1 := by
    rw [next, totalWidth_append (code ++ code'), totalWidth_cons, totalWidth_nil,
      show (Instruction.plain op).width = 1 from width]
    rfl
  rw [top₁] at top₂
  rw [← next] at has
  rw [stop]
  exact performs_binary has wellFormed (executes _) top₂

theorem conditional {test body other : List Instruction} {ks : List Value}
    {inside outside pool : Nat} {condition taken left : Nat → Except RuntimeError Value}
    (loaded : bytecode.Loaded
      (test ++ [⟨.jumpNotTruthy, [outside]⟩] ++ body ++ [⟨.jump, [outside + totalWidth other]⟩] ++
        other) ks start pool)
    (entry : inside = start + totalWidth test + 3)
    (place : outside = inside + totalWidth body + 3)
    (tested : Realizes bytecode test start condition)
    (enters : Realizes bytecode body inside taken)
    (falls : Realizes bytecode other outside left) :
    Realizes bytecode
      (test ++ [⟨.jumpNotTruthy, [outside]⟩] ++ body ++ [⟨.jump, [outside + totalWidth other]⟩] ++
        other) start (fun height => do
      let v ← condition height
      if v.isTruthy then taken height else left height) := by
  have skip : (Instruction.mk .jumpNotTruthy [outside]).width = 3 := rfl
  have leave : (Instruction.mk .jump [outside + totalWidth other]).width = 3 := rfl
  have stop : start + totalWidth (test ++ [⟨.jumpNotTruthy, [outside]⟩] ++ body ++
      [⟨.jump, [outside + totalWidth other]⟩] ++ other) = outside + totalWidth other := by
    simp only [totalWidth_append, totalWidth_cons, totalWidth_nil, skip, leave]
    omega
  have first : bytecode.code.Has (start + totalWidth test)
      (Instruction.mk .jumpNotTruthy [outside]).bytes ∧
      (Instruction.mk .jumpNotTruthy [outside]).WellFormed := by
    simp only [List.append_assoc, List.singleton_append] at loaded
    exact loaded.instruction
  have second : bytecode.code.Has (inside + totalWidth body)
      (Instruction.mk .jump [outside + totalWidth other]).bytes ∧
      (Instruction.mk .jump [outside + totalWidth other]).WellFormed := by
    rw [List.append_assoc _ [_] other] at loaded
    have found := loaded.instruction
    simpa only [totalWidth_append, totalWidth_cons, totalWidth_nil, skip, Nat.add_zero,
      Nat.add_assoc, entry] using found
  intro m at_start
  rw [stop]
  refine (tested m at_start).bind fun v m₁ place₁ top => ?_
  rw [← place₁] at first
  obtain ⟨m₂, jumped, values, place₂⟩ := steps_jumpNotTruthy first.1 first.2 top
  have height : m₂.stack.height = m.stack.height := by
    rw [← Stack.length_values, values, Stack.length_values]
  refine Performs.of_steps jumped ?_
  rw [← values, ← height]
  cases truthy : v.isTruthy with
  | true =>
    rw [truthy, if_pos rfl, place₁, ← entry] at place₂
    rw [if_pos rfl]
    have performs := enters m₂ place₂
    cases outcome : taken m₂.stack.height with
    | ok value =>
      rw [outcome] at performs
      obtain ⟨m₃, reached, place₃, top'⟩ := performs
      rw [← place₃] at second
      exact ⟨⟨m₃.stack, _⟩, reached.trans (steps_jump second.1 second.2), rfl, top'⟩
    | error e =>
      rw [outcome] at performs
      exact performs
  | false =>
    rw [truthy, if_neg (by decide)] at place₂
    rw [if_neg (by decide)]
    exact falls m₂ place₂

/-- A value is popped, and the computation goes on from the same height. -/
theorem dropped (h : Realizes bytecode code start compute)
    (has : bytecode.code.Has (start + totalWidth code) (Instruction.plain .pop).bytes)
    (h' : Realizes bytecode code' (start + totalWidth code + 1) compute') :
    Realizes bytecode (code ++ [.plain .pop] ++ code') start (fun height => do
      let _ ← compute height
      compute' height) := by
  intro m place
  refine (h m place).bind fun value m₁ place₁ top => ?_
  rw [← place₁] at has
  obtain ⟨m₂, popped, place₂, values, -⟩ := steps_pop has top
  have height : m₂.stack.height = m.stack.height := by
    rw [← Stack.length_values, values, Stack.length_values]
  have performs := h' m₂ (by rw [place₂, place₁])
  rw [values, height] at performs
  have stop : start + totalWidth (code ++ [.plain .pop] ++ code') =
      start + totalWidth code + 1 + totalWidth code' := by
    simp only [totalWidth_append, totalWidth_cons, totalWidth_nil, Instruction.width_plain_pop]
    omega
  rw [stop]
  exact performs.of_steps popped

end Realizes

/-- The code of a block is empty, and then no value is popped; or it computes a value and pops it
last. -/
def RealizesBlock (bytecode : Bytecode) (code : List Instruction) (literals : List Value)
    (start pool : Nat) (compute : Nat → Except RuntimeError (Option Value)) : Prop :=
  (code = [] ∧ compute = fun _ => .ok none) ∨
    ∃ front last, code = front ++ [.plain .pop] ∧
      compute = (fun height => (last height).map some) ∧
      (bytecode.Loaded front literals start pool → Realizes bytecode front start last)

namespace RealizesBlock

variable {first second : List Instruction} {ks ls : List Value} {start pool : Nat}
  {compute compute' : Nat → Except RuntimeError (Option Value)}

theorem append (h : RealizesBlock bytecode first ks start pool compute)
    (h' : RealizesBlock bytecode second ls (start + totalWidth first) (pool + ks.length) compute') :
    RealizesBlock bytecode (first ++ second) (ks ++ ls) start pool (fun height => do
      let value ← compute height
      let last ← compute' height
      pure (last.or value)) := by
  rcases h with ⟨rfl, rfl⟩ | ⟨front, last, rfl, rfl, realizes⟩ <;>
    rcases h' with ⟨rfl, rfl⟩ | ⟨front', last', rfl, rfl, realizes'⟩
  · exact Or.inl ⟨rfl, rfl⟩
  · refine Or.inr ⟨front', last', rfl, ?_, fun loaded => realizes' ?_⟩
    · funext height
      dsimp only
      cases last' height <;> rfl
    · exact (show bytecode.Loaded ([] ++ front') (ks ++ ls) start pool from loaded).append.2
  · refine Or.inr ⟨front, last, List.append_nil _, ?_, fun loaded => realizes ?_⟩
    · funext height
      dsimp only
      cases last height <;> rfl
    · rw [← List.append_nil front] at loaded
      exact loaded.append.1
  · refine Or.inr ⟨front ++ [.plain .pop] ++ front', fun height => do
      let _ ← last height
      last' height, by simp, ?_, fun loaded => ?_⟩
    · funext height
      dsimp only
      cases last height with
      | error e => rfl
      | ok value => cases last' height <;> rfl
    · obtain ⟨before, after⟩ := loaded.append
      have further := realizes' after
      rw [totalWidth_append, ← Nat.add_assoc] at further
      exact (realizes before.front).dropped before.instruction.1 further

theorem branch (h : RealizesBlock bytecode first ks start pool compute)
    (loaded : bytecode.Loaded (branchCode first) ks start pool) :
    Realizes bytecode (branchCode first) start (fun height => do
      let last ← compute height
      leave height last) := by
  rcases h with ⟨rfl, rfl⟩ | ⟨front, last, rfl, rfl, realizes⟩
  · exact .plain loaded rfl rfl
  · have same : (fun height => do let v ← (last height).map some; leave height v) = last := by
      funext height
      cases last height <;> rfl
    have kept : branchCode (front ++ [.plain .pop]) = front := by simp [branchCode]
    rw [kept] at loaded ⊢
    rw [same]
    exact realizes loaded

end RealizesBlock

end Machine

/-! ### Trees -/

open Machine in
mutual

theorem Expr.realizes (e : Expr) (compilable : e.Every Expr.IsCompilable Stmt.IsCompilable)
    {bytecode : Bytecode} {start pool : Nat}
    (loaded : bytecode.Loaded (e.translate start pool) e.literals start pool) :
    Realizes bytecode (e.translate start pool) start e.compute := by
  match e with
  | .integer value => exact .constant loaded
  | .boolean true | .boolean false => exact .plain loaded rfl rfl
  | .unary op operand =>
    exact (operand.realizes compilable.2 loaded.front).unary loaded.instruction.1
  | .binary op left right =>
    obtain ⟨-, leftCompilable, rightCompilable⟩ := compilable
    have executes : ∀ {bytecode} offset, execute bytecode op.opCode offset = binary op.opCode :=
      fun _ => by cases op <;> rfl
    have width : op.opCode.width = 1 := by cases op <;> rfl
    by_cases less : op = .lessThan
    · simp only [Expr.translate, Expr.literals, if_pos less] at loaded ⊢
      obtain ⟨front, back⟩ := loaded.front.append
      rw [right.totalWidth_translate] at back
      have realizes := (right.realizes rightCompilable front).binary
        (left.realizes leftCompilable back) (by rw [right.totalWidth_translate])
        loaded.instruction.1 loaded.instruction.2 executes width
      simpa only [Expr.compute, if_pos less] using realizes
    · simp only [Expr.translate, Expr.literals, if_neg less] at loaded ⊢
      obtain ⟨front, back⟩ := loaded.front.append
      rw [left.totalWidth_translate] at back
      have realizes := (left.realizes leftCompilable front).binary
        (right.realizes rightCompilable back) (by rw [left.totalWidth_translate])
        loaded.instruction.1 loaded.instruction.2 executes width
      simpa only [Expr.compute, if_neg less] using realizes
  | .conditional condition consequence alternative =>
    obtain ⟨-, testCompilable, bodyCompilable, otherCompilable⟩ := compilable
    have width : ∀ start pool, totalWidth (branchCode (Stmt.translateAll consequence start pool)) =
        branchSize (Stmt.sizeAll consequence) := by
      intro start pool
      rw [totalWidth_branchCode (Stmt.translateAll_endsInPop _ _ _), Stmt.totalWidth_translateAll]
    simp only [Expr.translate, Expr.literals] at loaded ⊢
    rw [← Stmt.totalWidth_translateElse alternative
      (start + condition.size + 3 + branchSize (Stmt.sizeAll consequence) + 3)
      (pool + condition.literals.length + (Stmt.literalsAll consequence).length)] at loaded ⊢
    obtain ⟨first, second, third⟩ := loaded.conditional (by rw [condition.totalWidth_translate])
      (by rw [width])
    exact .conditional loaded (by rw [condition.totalWidth_translate]) (by rw [width])
      (condition.realizes testCompilable first)
      ((Stmt.realizesAll consequence bodyCompilable _ _ _).branch second)
      (Stmt.realizesElse alternative otherCompilable third)
  | .identifier _ | .string _ | .array _ | .hash _ | .function _ _ | .index _ _ | .call _ _ =>
    simp [Expr.Every, Expr.IsCompilable] at compilable

theorem Stmt.realizes (s : Stmt) (compilable : s.Every Expr.IsCompilable Stmt.IsCompilable)
    (bytecode : Bytecode) (start pool : Nat) :
    RealizesBlock bytecode (s.translate start pool) s.literals start pool s.compute := by
  match s with
  | .expression value =>
    refine Or.inr ⟨value.translate start pool, value.compute, rfl, ?_,
      fun loaded => value.realizes compilable.2 loaded⟩
    funext height
    simp only [Stmt.compute]
    cases value.compute height <;> rfl
  | .block body => exact Stmt.realizesAll body compilable.2 bytecode start pool
  | .bind _ _ | .ret _ => simp [Stmt.Every, Stmt.IsCompilable] at compilable

theorem Stmt.realizesAll (body : List Stmt)
    (compilable : Stmt.EveryIn Expr.IsCompilable Stmt.IsCompilable body)
    (bytecode : Bytecode) (start pool : Nat) :
    RealizesBlock bytecode (Stmt.translateAll body start pool) (Stmt.literalsAll body) start pool
      (Stmt.computeAll body) := by
  match body with
  | [] => exact Or.inl ⟨rfl, rfl⟩
  | s :: rest =>
    have others := Stmt.realizesAll rest compilable.2 bytecode (start + s.size)
      (pool + s.literals.length)
    rw [← s.totalWidth_translate start pool] at others
    have realizes := (s.realizes compilable.1 bytecode start pool).append others
    rw [s.totalWidth_translate] at realizes
    exact realizes

theorem Stmt.realizesElse (alternative : Option (List Stmt))
    (compilable : Stmt.EveryElse Expr.IsCompilable Stmt.IsCompilable alternative)
    {bytecode : Bytecode} {start pool : Nat}
    (loaded : bytecode.Loaded (Stmt.translateElse alternative start pool)
      (Stmt.literalsElse alternative) start pool) :
    Realizes bytecode (Stmt.translateElse alternative start pool) start
      (Stmt.computeElse alternative) := by
  match alternative with
  | none => exact .plain loaded rfl rfl
  | some body => exact (Stmt.realizesAll body compilable bytecode start pool).branch loaded

end

/-! ### Programs -/

namespace Machine

variable {bytecode : Bytecode} {program : Program}

/-- A run comes to the end of the code with this value popped last, or fails as it is said. -/
def Ends (bytecode : Bytecode) : Except RuntimeError (Option Value) → Prop
  | .ok last => ∃ m, Steps bytecode .initial m ∧ bytecode.code.size ≤ m.ip ∧
      m.stack.lastPopped = last.getD .null
  | .error e => Fails bytecode .initial e

theorem ends_of_translates (translates : bytecode.Translates program) :
    Ends bytecode (Stmt.computeAll program 0) := by
  have size := translates.size_eq
  rcases Stmt.realizesAll program translates.compilable bytecode 0 0 with
    ⟨empty, computes⟩ | ⟨front, last, code, computes, realizes⟩
  · rw [computes]
    refine ⟨.initial, .refl, by rw [size, empty]; exact Nat.le_refl 0, ?_⟩
    simp [Machine.initial, Stack.lastPopped, Stack.empty]
  · have loaded : bytecode.Loaded (front ++ [.plain .pop]) (Stmt.literalsAll program) 0 0 := by
      refine ⟨?_, ?_, ?_⟩
      · rw [← code, ← translates.code]
        exact Code.has_self _
      · rw [← translates.constants]
        exact List.prefix_refl _
      · rw [← code]
        exact translates.wellFormed
    have performs := realizes loaded.front .initial rfl
    rw [computes]
    change Ends bytecode ((last Machine.initial.stack.height).map some)
    cases outcome : last Machine.initial.stack.height with
    | ok value =>
      rw [outcome] at performs
      obtain ⟨m, reached, place, top⟩ := performs
      have has := loaded.instruction.1
      rw [← place] at has
      obtain ⟨m', popped, place', -, popped_last⟩ := steps_pop has top
      refine ⟨m', reached.trans popped, ?_, popped_last⟩
      rw [size, code, place', place]
      simp
    | error e =>
      rw [outcome] at performs
      exact performs

/-- What a run of a compiled program came to is what the rules say. -/
theorem compute_of_run (compiled : compile program = .ok bytecode) {steps : Nat} {m : Machine} :
    (run bytecode steps .initial = (.halted, m) →
      ∃ last, Stmt.computeAll program 0 = .ok last ∧ m.stack.lastPopped = last.getD .null) ∧
    ∀ e, run bytecode steps .initial = (.failed e, m) → Stmt.computeAll program 0 = .error e := by
  have ends := ends_of_translates (translates_of_compile compiled)
  cases outcome : Stmt.computeAll program 0 with
  | ok last =>
    rw [outcome] at ends
    obtain ⟨m', reached, outside, popped⟩ := ends
    obtain ⟨count, halts⟩ := reached.run_halted outside
    refine ⟨fun halted => ?_, fun e failed => ?_⟩
    · obtain ⟨-, rfl⟩ := run_unique (halts 0) nofun halted nofun
      exact ⟨last, rfl, popped⟩
    · cases (run_unique (halts 0) nofun failed nofun).1
  | error e =>
    rw [outcome] at ends
    obtain ⟨count, m', fails⟩ := Fails.run_failed ends
    refine ⟨fun halted => ?_, fun e' failed => ?_⟩
    · cases (run_unique (fails 0) nofun halted nofun).1
    · cases (run_unique (fails 0) nofun failed nofun).1
      rfl

theorem exists_run_halted (compiled : compile program = .ok bytecode) {last : Option Value}
    (computes : Stmt.computeAll program 0 = .ok last) :
    ∃ steps m, run bytecode steps .initial = (.halted, m) ∧
      m.stack.lastPopped = last.getD .null := by
  have ends := ends_of_translates (translates_of_compile compiled)
  rw [computes] at ends
  obtain ⟨m, reached, outside, popped⟩ := ends
  obtain ⟨count, halts⟩ := reached.run_halted outside
  exact ⟨_, m, halts 0, popped⟩

/-- Compiled code is run to an end within some number of steps. -/
theorem exists_run_ended (compiled : compile program = .ok bytecode) :
    ∃ steps, (run bytecode steps .initial).1 ≠ .running := by
  cases outcome : Stmt.computeAll program 0 with
  | ok last =>
    obtain ⟨steps, m, halted, -⟩ := exists_run_halted compiled outcome
    exact ⟨steps, by rw [halted]; nofun⟩
  | error e =>
    have ends := ends_of_translates (translates_of_compile compiled)
    rw [outcome] at ends
    obtain ⟨count, m, fails⟩ := Fails.run_failed ends
    exact ⟨_, by rw [fails 0]; nofun⟩

end Machine

end MonkeyLanguage
