import MonkeyLanguage.Machine.Basic

/-!
# The machine on raw memory

The stack of a machine carries the proofs of its bounds. The raw machine has a plain array of slots
and a plain height instead, and panics wherever it reads or writes out of bounds without having
checked. Both do the same on every bytecode, so the raw machine never panics.

A panic is an ending of its own. What the machine checks is answered by a runtime error in both.
-/

namespace MonkeyLanguage

/-- What the raw machine takes for granted and does not find. -/
inductive Panic where
  | codeByte (offset : Nat)
  | codeSlice (start : Nat)
  | slot (index : Nat)
  | sentinel

inductive RawFailure where
  | error (error : RuntimeError)
  | panic (panic : Panic)

structure RawMachine where
  slots : Array Value
  height : Nat
  ip : Nat

abbrev RawAction (α : Type) := EStateM RawFailure RawMachine α

namespace RawMachine

def initial : RawMachine := ⟨Array.replicate Stack.capacity .null, 0, 0⟩

/-! ### The stack -/

def readSlot (index : Nat) : RawAction Value := fun m =>
  match m.slots[index]? with
  | some value => .ok value m
  | none => .error (.panic (.slot index)) m

def writeSlot (index : Nat) (value : Value) : RawAction Unit := fun m =>
  if index < m.slots.size then .ok () { m with slots := m.slots.setIfInBounds index value }
  else .error (.panic (.slot index)) m

def push (value : Value) : RawAction Unit := fun m =>
  if Stack.capacity ≤ m.height then .error (.error .stackOverflow) m
  else
    match writeSlot m.height value m with
    | .ok () m => .ok () { m with height := m.height + 1 }
    | .error e m => .error e m

/-- The height is lowered first, and the slot read at the new height. -/
def pop : RawAction Value := fun m =>
  if m.height = 0 then .error (.error .stackUnderflow) m
  else readSlot (m.height - 1) { m with height := m.height - 1 }

def top : RawAction (Option Value) := fun m =>
  if m.height = 0 then .ok none m
  else
    match readSlot (m.height - 1) m with
    | .ok value m => .ok (some value) m
    | .error e m => .error e m

/-- The slot above the stack, if there is one. -/
def lastPopped : RawAction Value := fun m => .ok (m.slots[m.height]?.getD .null) m

/-! ### Execution -/

def readByte (code : Code) : RawAction UInt8 := fun m =>
  match code[m.ip]? with
  | some byte => .ok byte { m with ip := m.ip + 1 }
  | none => .error (.panic (.codeByte m.ip)) m

/-- A slice may begin where the code ends, and not behind that. -/
def readOperand (code : Code) (op : OpCode) (offset : Nat) : RawAction Nat := fun m =>
  if code.size < m.ip then .error (.panic (.codeSlice m.ip)) m
  else
    match readWord (code.toList.drop m.ip) with
    | some operand => .ok operand { m with ip := m.ip + 2 }
    | none => .error (.error (.decode (.truncated op offset))) m

def jump (target : Nat) : RawAction Unit := modify fun m => { m with ip := target }

def binary (op : OpCode) : RawAction Unit := do
  let right ← pop
  let left ← pop
  match Machine.combine op left right with
  | .ok value => push value
  | .error e => throw (.error e)

def execute (bytecode : Bytecode) (op : OpCode) (offset : Nat) : RawAction Unit :=
  match op with
  | .constant => do
    let index ← readOperand bytecode.code op offset
    match bytecode.constants[index]? with
    | some constant => push constant
    | none => throw (.error (.missingConstant index))
  | .pushTrue => push (.boolean true)
  | .pushFalse => push (.boolean false)
  | .pushNull => push .null
  | .add | .sub | .mul | .div | .equal | .notEqual | .greaterThan => binary op
  | .bang => do
    let value ← pop
    push (.boolean !value.isTruthy)
  | .minus => do
    match ← pop with
    | .integer n => push (.integer (-n))
    | value => throw (.error (.unsupportedNegation value.type))
  | .pop => do
    let _ ← pop
  | .jump => do
    let target ← readOperand bytecode.code op offset
    jump target
  | .jumpNotTruthy => do
    let target ← readOperand bytecode.code op offset
    let condition ← pop
    if condition.isTruthy then pure () else jump target
  | .sentinel => throw (.panic .sentinel)

def step (bytecode : Bytecode) : RawAction Unit := do
  let m ← get
  let byte ← readByte bytecode.code
  match decodeOpCode byte with
  | .ok op => execute bytecode op m.ip
  | .error e => throw (.error (.decode e))

inductive Ending where
  | running
  | halted
  | failed (error : RuntimeError)
  | panicked (panic : Panic)

def run (bytecode : Bytecode) : Nat → RawMachine → Ending × RawMachine
  | 0, m => (if m.ip < bytecode.code.size then .running else .halted, m)
  | steps + 1, m =>
    if m.ip < bytecode.code.size then
      match step bytecode m with
      | .ok () m => run bytecode steps m
      | .error (.error e) m => (.failed e, m)
      | .error (.panic p) m => (.panicked p, m)
    else (.halted, m)

/-- Runs one after another, each for the number of steps given and from where the one before ended,
whether it failed, halted or was only broken off. -/
def runs (bytecode : Bytecode) : List Nat → RawMachine → List Ending × RawMachine
  | [], m => ([], m)
  | steps :: rest, m =>
    let (ending, m) := run bytecode steps m
    let (endings, m) := runs bytecode rest m
    (ending :: endings, m)

end RawMachine

namespace Machine

def runs (bytecode : Bytecode) : List Nat → Machine → List Status × Machine
  | [], m => ([], m)
  | steps :: rest, m =>
    let (status, m) := run bytecode steps m
    let (statuses, m) := runs bytecode rest m
    (status :: statuses, m)

/-- The memory of a machine, without the proofs. -/
def raw (m : Machine) : RawMachine := ⟨m.stack.slots.toArray, m.stack.height, m.ip⟩

def Status.ending : Status → RawMachine.Ending
  | running => .running
  | halted => .halted
  | failed e => .failed e

/-! ### Both machines -/

/-- In this machine the raw action does what the action does, and leaves the pointer within the
limit. -/
def Mirrors {α : Type} (limit : Nat) (raw : RawAction α) (action : Action α) (m : Machine) : Prop :=
  match action m with
  | .ok a m' => raw m.raw = .ok a m'.raw ∧ m'.ip ≤ limit
  | .error e m' => raw m.raw = .error (.error e) m'.raw ∧ m'.ip ≤ limit

variable {limit : Nat} {m : Machine} {α β : Type}

namespace Mirrors

theorem pure (a : α) (bound : m.ip ≤ limit) : Mirrors limit (Pure.pure a) (Pure.pure a) m :=
  ⟨rfl, bound⟩

theorem throw (e : RuntimeError) (bound : m.ip ≤ limit) :
    Mirrors (α := α) limit (MonadExcept.throw (.error e)) (MonadExcept.throw e) m :=
  ⟨rfl, bound⟩

theorem bind {raw : RawAction α} {action : Action α} {raw' : α → RawAction β}
    {action' : α → Action β} (first : Mirrors limit raw action m)
    (next : ∀ a m', action m = .ok a m' → m'.ip ≤ limit → Mirrors limit (raw' a) (action' a) m') :
    Mirrors limit (raw >>= raw') (action >>= action') m := by
  unfold Mirrors at first ⊢
  change match EStateM.bind action action' m with
    | .ok a m' => EStateM.bind raw raw' m.raw = .ok a m'.raw ∧ m'.ip ≤ limit
    | .error e m' => EStateM.bind raw raw' m.raw = .error (.error e) m'.raw ∧ m'.ip ≤ limit
  simp only [EStateM.bind]
  cases ended : action m with
  | ok a m' =>
    simp only [ended] at first
    rw [first.1]
    exact next a m' ended first.2
  | error e m' =>
    simp only [ended] at first
    rw [first.1]
    exact ⟨rfl, first.2⟩

theorem of_eq {raw raw' : RawAction α} {action action' : Action α} {m' : Machine}
    (same : raw m.raw = raw' m'.raw) (same' : action m = action' m')
    (h : Mirrors limit raw' action' m') : Mirrors limit raw action m := by
  rw [Mirrors, same, same']
  exact h

end Mirrors

theorem readSlot_eq (memory : RawMachine) {index : Nat} (inside : index < memory.slots.size) :
    RawMachine.readSlot index memory = .ok memory.slots[index] memory := by
  simp only [RawMachine.readSlot, Array.getElem?_eq_getElem inside]

theorem push_mirrors (value : Value) (bound : m.ip ≤ limit) :
    Mirrors limit (RawMachine.push value) (push value) m := by
  obtain ⟨⟨slots, height, height_le⟩, ip⟩ := m
  by_cases room : height < Stack.capacity
  · have inside : height < slots.toArray.size := by simpa using room
    simp only [Mirrors, push, Stack.push, dif_pos room]
    refine ⟨?_, bound⟩
    simp only [RawMachine.push, raw, if_neg (Nat.not_le.2 room), RawMachine.writeSlot,
      if_pos inside, Vector.toArray_set, Array.setIfInBounds_def, dif_pos inside]
  · have full : Stack.capacity ≤ height := Nat.not_lt.1 room
    simp only [Mirrors, push, Stack.push, dif_neg room]
    exact ⟨if_pos full, bound⟩

theorem pop_mirrors (bound : m.ip ≤ limit) : Mirrors limit RawMachine.pop pop m := by
  obtain ⟨⟨slots, height, height_le⟩, ip⟩ := m
  cases height with
  | zero => exact ⟨rfl, bound⟩
  | succ height =>
    have inside : height < slots.toArray.size := by
      rw [Vector.size_toArray]
      exact height_le
    exact ⟨readSlot_eq ⟨slots.toArray, height, ip⟩ inside, bound⟩

theorem jump_mirrors {target : Nat} (bound : target ≤ limit) :
    Mirrors limit (RawMachine.jump target) (jump target) m :=
  ⟨rfl, bound⟩

theorem binary_mirrors (op : OpCode) (bound : m.ip ≤ limit) :
    Mirrors limit (RawMachine.binary op) (binary op) m := by
  refine (pop_mirrors bound).bind fun right _ _ bound => (pop_mirrors bound).bind ?_
  intro left _ _ bound
  cases combine op left right with
  | ok value => exact push_mirrors value bound
  | error e => exact .throw e bound

theorem readWord_drop (code : Code) (ip : Nat) :
    readWord (code.toList.drop ip) =
      match code[ip]?, code[ip + 1]? with
      | some high, some low => some (256 * high.toNat + low.toNat)
      | _, _ => none := by
  have first : code[ip]? = (code.toList.drop ip)[0]? := by simp
  have second : code[ip + 1]? = (code.toList.drop ip)[1]? := by simp
  rw [first, second]
  match code.toList.drop ip with
  | [] | [_] | _ :: _ :: _ => rfl

theorem fetchOperand_mirrors {code : Code} (inside : m.ip ≤ code.size) (size : code.size ≤ limit)
    (op : OpCode) (offset : Nat) :
    Mirrors limit (RawMachine.readOperand code op offset) (fetchOperand code op offset) m := by
  obtain ⟨stack, ip⟩ := m
  have bound : ip ≤ limit := Nat.le_trans inside size
  have sliced : ¬ code.size < ip := Nat.not_lt.2 inside
  simp only [Mirrors, fetchOperand, RawMachine.readOperand, raw, if_neg sliced, readWord_drop]
  cases high : code[ip]? with
  | none => exact ⟨rfl, bound⟩
  | some high =>
    cases low : code[ip + 1]? with
    | none => exact ⟨rfl, bound⟩
    | some low =>
      have last : ip + 1 < code.size := (Array.getElem?_eq_some_iff.1 low).1
      exact ⟨rfl, Nat.le_trans last size⟩

theorem fetchOperand_le {code : Code} {op : OpCode} {offset operand : Nat} {m' : Machine}
    (fetched : fetchOperand code op offset m = .ok operand m') : operand ≤ 65535 := by
  simp only [fetchOperand] at fetched
  split at fetched
  · rename_i high low _ _
    cases fetched
    have := high.toNat_lt
    have := low.toNat_lt
    omega
  · cases fetched

theorem execute_mirrors {bytecode : Bytecode} {op : OpCode} (decodable : op ≠ .sentinel)
    (inside : m.ip ≤ bytecode.code.size) (size : bytecode.code.size ≤ limit) (words : 65535 ≤ limit)
    (offset : Nat) :
    Mirrors limit (RawMachine.execute bytecode op offset) (execute bytecode op offset) m := by
  have bound : m.ip ≤ limit := Nat.le_trans inside size
  cases op with
  | constant =>
    refine (fetchOperand_mirrors inside size _ _).bind fun index _ _ bound => ?_
    cases bytecode.constants[index]? with
    | some constant => exact push_mirrors constant bound
    | none => exact .throw _ bound
  | pushTrue | pushFalse | pushNull => exact push_mirrors _ bound
  | add | sub | mul | div | equal | notEqual | greaterThan => exact binary_mirrors _ bound
  | bang => exact (pop_mirrors bound).bind fun value _ _ bound => push_mirrors _ bound
  | minus =>
    refine (pop_mirrors bound).bind fun value _ _ bound => ?_
    cases value with
    | integer n => exact push_mirrors _ bound
    | _ => exact .throw _ bound
  | pop => exact (pop_mirrors bound).bind fun _ _ _ bound => .pure () bound
  | jump =>
    refine (fetchOperand_mirrors inside size _ _).bind fun target _ fetched _ => ?_
    exact jump_mirrors (Nat.le_trans (fetchOperand_le fetched) words)
  | jumpNotTruthy =>
    refine (fetchOperand_mirrors inside size _ _).bind fun target _ fetched bound => ?_
    refine (pop_mirrors bound).bind fun condition _ _ bound => ?_
    split
    · exact .pure () bound
    · exact jump_mirrors (Nat.le_trans (fetchOperand_le fetched) words)
  | sentinel => exact absurd rfl decodable

/-! ### Steps and runs -/

theorem decodeOpCode_ne_sentinel {byte : UInt8} {op : OpCode}
    (decoded : decodeOpCode byte = .ok op) : op ≠ .sentinel := by
  rintro rfl
  unfold decodeOpCode at decoded
  split at decoded
  · rename_i op found
    obtain rfl := Except.ok.inj decoded
    have listed : OpCode.sentinel ∈ OpCode.decodable := List.mem_of_getElem? found
    exact absurd listed (by decide)
  · cases decoded

variable {bytecode : Bytecode}

theorem step_mirrors (inside : m.ip < bytecode.code.size) (size : bytecode.code.size ≤ limit)
    (words : 65535 ≤ limit) : Mirrors limit (RawMachine.step bytecode) (step bytecode) m := by
  obtain ⟨stack, ip⟩ := m
  have found : bytecode.code[ip]? = some bytecode.code[ip] := Array.getElem?_eq_getElem inside
  have read : RawMachine.step bytecode (raw ⟨stack, ip⟩) =
      match decodeOpCode bytecode.code[ip] with
      | .ok op => RawMachine.execute bytecode op ip (raw ⟨stack, ip + 1⟩)
      | .error e => .error (.error (.decode e)) (raw ⟨stack, ip + 1⟩) := by
    change EStateM.bind _ _ _ = _
    simp only [RawMachine.readByte, raw, EStateM.bind, found]
    cases decodeOpCode bytecode.code[ip] <;> rfl
  have fetched : step bytecode ⟨stack, ip⟩ =
      match decodeOpCode bytecode.code[ip] with
      | .ok op => execute bytecode op ip ⟨stack, ip + 1⟩
      | .error e => .error (.decode e) ⟨stack, ip + 1⟩ := by
    simp only [step, pointer, fetchOpCode, bind, EStateM.bind, found]
    cases decodeOpCode bytecode.code[ip] <;> rfl
  cases decoded : decodeOpCode bytecode.code[ip] with
  | ok op =>
    rw [decoded] at read fetched
    have passed : (⟨stack, ip + 1⟩ : Machine).ip ≤ bytecode.code.size := inside
    exact .of_eq read fetched
      (execute_mirrors (decodeOpCode_ne_sentinel decoded) passed size words ip)
  | error e =>
    rw [decoded] at read fetched
    rw [Mirrors, fetched]
    exact ⟨read, Nat.le_trans inside size⟩

theorem run_mirrors (size : bytecode.code.size ≤ limit) (words : 65535 ≤ limit) (steps : Nat)
    (bound : m.ip ≤ limit) :
    RawMachine.run bytecode steps m.raw =
        ((run bytecode steps m).1.ending, (run bytecode steps m).2.raw) ∧
      (run bytecode steps m).2.ip ≤ limit := by
  induction steps generalizing m with
  | zero =>
    simp only [RawMachine.run, run]
    refine ⟨?_, bound⟩
    by_cases inside : m.ip < bytecode.code.size
    · rw [if_pos inside, if_pos (show m.raw.ip < bytecode.code.size from inside), Status.ending]
    · rw [if_neg inside, if_neg (show ¬ m.raw.ip < bytecode.code.size from inside), Status.ending]
  | succ steps ih =>
    simp only [RawMachine.run, run]
    by_cases inside : m.ip < bytecode.code.size
    · have mirrored := step_mirrors inside size words
      unfold Mirrors at mirrored
      rw [if_pos inside, if_pos (show m.raw.ip < bytecode.code.size from inside)]
      cases stepped : step bytecode m with
      | ok _ m' =>
        rw [stepped] at mirrored
        rw [mirrored.1]
        exact ih mirrored.2
      | error e m' =>
        rw [stepped] at mirrored
        rw [mirrored.1]
        exact ⟨rfl, mirrored.2⟩
    · rw [if_neg inside, if_neg (show ¬ m.raw.ip < bytecode.code.size from inside)]
      exact ⟨rfl, bound⟩

theorem runs_mirrors (size : bytecode.code.size ≤ limit) (words : 65535 ≤ limit)
    (budgets : List Nat) (bound : m.ip ≤ limit) :
    RawMachine.runs bytecode budgets m.raw =
        ((runs bytecode budgets m).1.map Status.ending, (runs bytecode budgets m).2.raw) ∧
      (runs bytecode budgets m).2.ip ≤ limit := by
  induction budgets generalizing m with
  | nil => exact ⟨rfl, bound⟩
  | cons steps rest ih =>
    obtain ⟨same, bound⟩ := run_mirrors size words steps bound
    obtain ⟨same', bound'⟩ := ih bound
    refine ⟨?_, bound'⟩
    simp only [RawMachine.runs, runs, same, same', List.map_cons]

/-! ### Safety -/

theorem top_raw (m : Machine) : RawMachine.top m.raw = .ok m.stack.top? m.raw := by
  obtain ⟨⟨slots, height, height_le⟩, ip⟩ := m
  cases height with
  | zero => rfl
  | succ height =>
    have inside : height < slots.toArray.size := by
      rw [Vector.size_toArray]
      exact height_le
    have read := readSlot_eq (raw ⟨⟨slots, height + 1, height_le⟩, ip⟩) inside
    change (match RawMachine.readSlot height _ with
      | .ok value m => _
      | .error e m => _) = _
    rw [read]
    rfl

theorem lastPopped_raw (m : Machine) :
    RawMachine.lastPopped m.raw = .ok m.stack.lastPopped m.raw := by
  obtain ⟨⟨slots, height, height_le⟩, ip⟩ := m
  by_cases room : height < Stack.capacity
  · simp [RawMachine.lastPopped, raw, Stack.lastPopped, room]
  · simp [RawMachine.lastPopped, raw, Stack.lastPopped, room]

/-- No bytes and constants make the raw machine panic, in however many runs. It does what the
machine does, the stack stays within its slots, and what is on top of it or was popped last can be
read at any time. -/
theorem no_bytecode_panics (bytecode : Bytecode) (budgets : List Nat) :
    ∃ endings memory, RawMachine.runs bytecode budgets .initial = (endings, memory) ∧
      (∀ p, .panicked p ∉ endings) ∧
      memory.height ≤ 2048 ∧ memory.slots.size = 2048 ∧ memory.ip ≤ max bytecode.code.size 65535 ∧
      ∃ statuses m, runs bytecode budgets .initial = (statuses, m) ∧
        endings = statuses.map Status.ending ∧ memory = m.raw ∧
        RawMachine.top memory = .ok m.stack.top? memory ∧
        RawMachine.lastPopped memory = .ok m.stack.lastPopped memory := by
  have size : bytecode.code.size ≤ max bytecode.code.size 65535 := Nat.le_max_left _ _
  have words : 65535 ≤ max bytecode.code.size 65535 := Nat.le_max_right _ _
  obtain ⟨same, bound⟩ :=
    runs_mirrors (m := .initial) size words budgets (Nat.zero_le _)
  refine ⟨_, _, same, fun p member => ?_, ?_, ?_, bound, _, _, rfl, rfl, rfl, top_raw _,
    lastPopped_raw _⟩
  · obtain ⟨status, -, panicked⟩ := List.mem_map.1 member
    cases status <;> cases panicked
  · exact (runs bytecode budgets .initial).2.stack.height_le
  · exact Vector.size_toArray _

end Machine

end MonkeyLanguage
