import MonkeyLanguage.Proofs.Machine.Run
import MonkeyLanguage.Proofs.Machine.Step

/-!
# Computations on the stack

A stretch of code computes a value when it leaves the value on top of what was on the stack. Where
the value is an error the machine fails instead, and it may always fail in ways of its own.
-/

namespace MonkeyLanguage

/-- The values that programs over integers and booleans have. -/
def Value.IsBasic : Value → Prop
  | .integer _ | .boolean _ | .null => True
  | _ => False

/-- The failures that only the machine knows: its stack is bounded, and it compares values of one
type only. -/
def RuntimeError.IsOfMachine : RuntimeError → Prop
  | .stackOverflow | .unsupportedTypes .equal _ _ | .unsupportedTypes .notEqual _ _ => True
  | _ => False

theorem RuntimeError.isOfMachine_iff {e : RuntimeError} :
    e.IsOfMachine ↔ e = .stackOverflow ∨
      ∃ op left right, e = .unsupportedTypes op left right ∧ (op = .equal ∨ op = .notEqual) := by
  cases e with
  | unsupportedTypes op left right => cases op <;> simp [RuntimeError.IsOfMachine]
  | _ => simp [RuntimeError.IsOfMachine]

namespace Machine

variable {bytecode : Bytecode} {m : Machine} {stack : List Value} {value : Value}

/-- From `m` the machine comes to `stop` with the value on top of `stack`, or fails. -/
def Yields (bytecode : Bytecode) (m : Machine) (stop : Nat) (stack : List Value) (value : Value) :
    Prop :=
  (value.IsBasic ∧
      ∃ m', Steps bytecode m m' ∧ m'.ip = stop ∧ m'.stack.values = stack ++ [value]) ∨
    ∃ e, Fails bytecode m e ∧ (value.isError = true ∨ e.IsOfMachine)

theorem Yields.of_steps {m' : Machine} {stop : Nat} (reached : Steps bytecode m m')
    (h : Yields bytecode m' stop stack value) : Yields bytecode m stop stack value := by
  rcases h with ⟨basic, m'', further, there⟩ | ⟨e, failed, reason⟩
  · exact Or.inl ⟨basic, m'', reached.trans further, there⟩
  · exact Or.inr ⟨e, reached.fails failed, reason⟩

/-- A computation goes on with the value of another one, and is in error if that is. -/
theorem Yields.bind {first : Value} {middle stop : Nat} {stack' : List Value}
    (h : Yields bytecode m middle stack' first)
    (handed : first.isError = true → value.isError = true)
    (next : first.IsBasic → ∀ m', m'.ip = middle → m'.stack.values = stack' ++ [first] →
      Yields bytecode m' stop stack value) : Yields bytecode m stop stack value := by
  rcases h with ⟨basic, m', reached, place, top⟩ | ⟨e, failed, isError | reason⟩
  · exact (next basic m' place top).of_steps reached
  · exact Or.inr ⟨e, failed, Or.inl (handed isError)⟩
  · exact Or.inr ⟨e, failed, Or.inr reason⟩

/-! ### Actions -/

theorem pop_of_values {rest : List Value} (top : m.stack.values = rest ++ [value]) :
    ∃ m', pop m = .ok value m' ∧ m'.ip = m.ip ∧ m'.stack.values = rest ∧
      m'.stack.lastPopped = value := by
  obtain ⟨s, ip⟩ := m
  obtain ⟨s', popped, values, last⟩ := Stack.pop_eq top
  exact ⟨⟨s', ip⟩, by simp only [pop, popped], rfl, values, last⟩

theorem push_of_height (value : Value) (room : m.stack.height < Stack.capacity) :
    ∃ m', push value m = .ok () m' ∧ m'.ip = m.ip ∧
      m'.stack.values = m.stack.values ++ [value] := by
  obtain ⟨s, ip⟩ := m
  obtain ⟨s', pushed, values⟩ := Stack.push_eq value room
  exact ⟨⟨s', ip⟩, by simp only [push, pushed], rfl, values⟩

theorem height_lt {s s' : Stack} {rest : List Value} (top : s.values = rest ++ value :: stack)
    (values : s'.values = rest) : s'.height < Stack.capacity := by
  have height := congrArg List.length top
  have height' := congrArg List.length values
  have bound := s.height_le
  simp only [Stack.length_values, List.length_append, List.length_cons] at height height'
  omega

/-! ### Instructions -/

theorem yields_push {i : Instruction} (m' : Machine) (has : bytecode.code.Has m.ip i.bytes)
    (same : step bytecode m = push value m') (place : m'.ip = m.ip + i.width)
    (stack : m'.stack = m.stack) (basic : value.IsBasic) :
    Yields bytecode m (m.ip + i.width) m.stack.values value := by
  by_cases room : m'.stack.height < Stack.capacity
  · obtain ⟨m'', pushed, ip, values⟩ := push_of_height value room
    exact Or.inl ⟨basic, m'', .single has.lt_size (same.trans pushed), ip.trans place,
      by rw [values, stack]⟩
  · have full : m'.stack.height = Stack.capacity := Nat.le_antisymm m'.stack.height_le (by omega)
    refine Or.inr ⟨.stackOverflow, ⟨m, m', .refl, has.lt_size, ?_⟩, Or.inr trivial⟩
    rw [same]
    simp only [push, Stack.push_full value full]

theorem yields_plain_push {op : OpCode} (has : bytecode.code.Has m.ip (Instruction.plain op).bytes)
    (wellFormed : (Instruction.plain op).WellFormed)
    (pushes : execute bytecode op m.ip = push value) (width : op.width = 1)
    (basic : value.IsBasic) : Yields bytecode m (m.ip + 1) m.stack.values value := by
  have yields := yields_push ⟨m.stack, m.ip + 1⟩ has
    ((step_eq has wellFormed).trans (congrFun pushes _)) (by rw [← width]; rfl) rfl basic
  rwa [show (Instruction.plain op).width = 1 from width] at yields

theorem yields_constant {n : Nat}
    (has : bytecode.code.Has m.ip (Instruction.mk .constant [n]).bytes)
    (wellFormed : (Instruction.mk .constant [n]).WellFormed)
    (found : bytecode.constants[n]? = some value) (basic : value.IsBasic) :
    Yields bytecode m (m.ip + 3) m.stack.values value := by
  refine yields_push ⟨m.stack, m.ip + 3⟩ has ?_ rfl rfl basic
  rw [step_eq has wellFormed]
  simp only [execute]
  rw [bind_of_ok (fetchOperand_of_has rfl has wellFormed)]
  simp only [found]

theorem yields_bang {operand : Value} (has : bytecode.code.Has m.ip (Instruction.plain .bang).bytes)
    (top : m.stack.values = stack ++ [operand]) :
    Yields bytecode m (m.ip + 1) stack (.boolean !operand.isTruthy) := by
  have same := step_eq has (Instruction.wellFormed_plain rfl (by decide))
  obtain ⟨m₁, popped, ip, values, -⟩ := pop_of_values (m := ⟨m.stack, m.ip + 1⟩) top
  obtain ⟨m₂, pushed, ip', values'⟩ := push_of_height (.boolean !operand.isTruthy)
    (height_lt top values)
  refine Or.inl ⟨trivial, m₂, .single has.lt_size ?_, ip'.trans ip, by rw [values', values]⟩
  simp only [same, Instruction.plain, execute]
  rw [bind_of_ok popped, pushed]

/-- Negation yields what is demanded if that is an error for all but integers. -/
theorem yields_minus {operand : Value}
    (has : bytecode.code.Has m.ip (Instruction.plain .minus).bytes)
    (top : m.stack.values = stack ++ [operand])
    (negated : ∀ n, operand = .integer n → value = .integer (-n))
    (refused : (∀ n, operand ≠ .integer n) → value.isError = true) :
    Yields bytecode m (m.ip + 1) stack value := by
  have same := step_eq has (Instruction.wellFormed_plain rfl (by decide))
  obtain ⟨m₁, popped, ip, values, -⟩ := pop_of_values (m := ⟨m.stack, m.ip + 1⟩) top
  simp only [Instruction.plain, execute] at same
  rw [bind_of_ok popped] at same
  by_cases integer : ∃ n, operand = .integer n
  · obtain ⟨n, rfl⟩ := integer
    obtain rfl := negated n rfl
    obtain ⟨m₂, pushed, ip', values'⟩ := push_of_height (.integer (-n)) (height_lt top values)
    exact Or.inl ⟨trivial, m₂, .single has.lt_size (same.trans pushed), ip'.trans ip,
      by rw [values', values]⟩
  · have other : ∀ n, operand ≠ .integer n := fun n is => integer ⟨n, is⟩
    refine Or.inr ⟨.unsupportedNegation operand.type, ⟨m, m₁, .refl, has.lt_size, ?_⟩,
      Or.inl (refused other)⟩
    rw [same]
    cases operand with
    | integer n => exact absurd rfl (other n)
    | _ => rfl

theorem yields_binary {op : OpCode} {left right : Value}
    (has : bytecode.code.Has m.ip (Instruction.plain op).bytes)
    (wellFormed : (Instruction.plain op).WellFormed)
    (executes : execute bytecode op m.ip = binary op)
    (top : m.stack.values = stack ++ [left] ++ [right])
    (combined : ∀ v, combine op left right = .ok v → v = value ∧ v.IsBasic)
    (refused : ∀ e, combine op left right = .error e → value.isError = true ∨ e.IsOfMachine) :
    Yields bytecode m (m.ip + 1) stack value := by
  have same := (step_eq has wellFormed).trans (congrFun executes _)
  obtain ⟨m₁, popped, ip, values, -⟩ := pop_of_values (m := ⟨m.stack, m.ip + 1⟩) top
  obtain ⟨m₂, popped', ip', values', -⟩ := pop_of_values values
  simp only [binary] at same
  rw [bind_of_ok popped, bind_of_ok popped'] at same
  cases result : combine op left right with
  | ok v =>
    obtain ⟨rfl, basic⟩ := combined v result
    obtain ⟨m₃, pushed, ip'', values''⟩ := push_of_height v (height_lt values values')
    simp only [result] at same
    exact Or.inl ⟨basic, m₃, .single has.lt_size (same.trans pushed), ip''.trans (ip'.trans ip),
      by rw [values'', values']⟩
  | error e =>
    simp only [result] at same
    exact Or.inr ⟨e, ⟨m, m₂, .refl, has.lt_size, same⟩, refused e result⟩

/-! ### Jumps and pops -/

theorem steps_jump {n : Nat} (has : bytecode.code.Has m.ip (Instruction.mk .jump [n]).bytes)
    (wellFormed : (Instruction.mk .jump [n]).WellFormed) :
    Steps bytecode m ⟨m.stack, n⟩ := by
  refine .single has.lt_size ?_
  rw [step_eq has wellFormed]
  simp only [execute]
  rw [bind_of_ok (fetchOperand_of_has rfl has wellFormed)]
  rfl

theorem steps_jumpNotTruthy {n : Nat} {condition : Value}
    (has : bytecode.code.Has m.ip (Instruction.mk .jumpNotTruthy [n]).bytes)
    (wellFormed : (Instruction.mk .jumpNotTruthy [n]).WellFormed)
    (top : m.stack.values = stack ++ [condition]) :
    ∃ m', Steps bytecode m m' ∧ m'.stack.values = stack ∧
      m'.ip = if condition.isTruthy then m.ip + 3 else n := by
  have same := step_eq has wellFormed
  obtain ⟨⟨s, ip⟩, popped, place, values, -⟩ := pop_of_values (m := ⟨m.stack, m.ip + 3⟩) top
  simp only [execute] at same
  rw [bind_of_ok (fetchOperand_of_has rfl has wellFormed), bind_of_ok popped] at same
  by_cases truthy : condition.isTruthy = true
  · rw [if_pos truthy] at same
    exact ⟨⟨s, ip⟩, .single has.lt_size same, values, by rw [if_pos truthy]; exact place⟩
  · rw [if_neg truthy] at same
    exact ⟨⟨s, n⟩, .single has.lt_size same, values, by rw [if_neg truthy]⟩

theorem steps_pop (has : bytecode.code.Has m.ip (Instruction.plain .pop).bytes)
    (top : m.stack.values = stack ++ [value]) :
    ∃ m', Steps bytecode m m' ∧ m'.ip = m.ip + 1 ∧ m'.stack.values = stack ∧
      m'.stack.lastPopped = value := by
  have same := step_eq has (Instruction.wellFormed_plain rfl (by decide))
  obtain ⟨m₁, popped, ip, values, last⟩ := pop_of_values (m := ⟨m.stack, m.ip + 1⟩) top
  refine ⟨m₁, .single has.lt_size ?_, ip, values, last⟩
  simp only [same, Instruction.plain, execute]
  rw [bind_of_ok popped]
  rfl

end Machine

end MonkeyLanguage
