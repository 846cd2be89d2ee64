import MonkeyLanguage.Proofs.Machine.Step

/-!
# The stack is a bounded list

Whatever is pushed and popped, the stack answers as a list of at most so many values does, at whose
end values are appended and removed. An operation that fails changes no slot, so the slot above the
stack keeps the value that was popped last until another one is pushed.
-/

namespace MonkeyLanguage.Stack

inductive Operation where
  | push (value : Value)
  | pop

/-- A push answers nothing and a pop its value, or there is a reason why the operation fails. -/
abbrev Answer := Except RuntimeError (Option Value)

def Operation.perform : Operation → Stack → Answer × Stack
  | .push value, s =>
    match s.push value with
    | .ok () s' => (.ok none, s')
    | .error e s' => (.error e, s')
  | .pop, s =>
    match s.pop with
    | .ok value s' => (.ok (some value), s')
    | .error e s' => (.error e, s')

/-- The same operation on a list that takes up to `capacity` values. -/
def Operation.onList (capacity : Nat) : Operation → List Value → Answer × List Value
  | .push value, values =>
    if values.length < capacity then (.ok none, values ++ [value])
    else (.error .stackOverflow, values)
  | .pop, values =>
    match values.getLast? with
    | some value => (.ok (some value), values.dropLast)
    | none => (.error .stackUnderflow, values)

/-- Performs operations one after another, also after one has failed. -/
def performAll {State : Type} (perform : Operation → State → Answer × State) :
    List Operation → State → List Answer × State
  | [], s => ([], s)
  | op :: rest, s =>
    let (answer, s') := perform op s
    let (answers, s'') := performAll perform rest s'
    (answer :: answers, s'')

/-- What the most recent of the successful operations answered. -/
def latestSuccess (answers : List Answer) : Option (Option Value) :=
  (answers.filterMap Except.toOption).getLast?

theorem latestSuccess_cons (answer : Answer) (answers : List Answer) :
    latestSuccess (answer :: answers) = (latestSuccess answers).or answer.toOption := by
  cases answer with
  | ok result =>
    simp only [latestSuccess, Except.toOption, List.filterMap_cons, List.getLast?_cons]
    cases (List.filterMap Except.toOption answers).getLast? <;> rfl
  | error e => simp [latestSuccess, Except.toOption]

theorem latestSuccess_append (answers later : List Answer) :
    latestSuccess (answers ++ later) = (latestSuccess later).or (latestSuccess answers) := by
  rw [latestSuccess, List.filterMap_append, List.getLast?_append]
  rfl

/-! ### One operation -/

variable {s : Stack}

theorem top?_eq_getLast? (s : Stack) : s.top? = s.values.getLast? := by
  obtain ⟨slots, height, bound⟩ := s
  cases height with
  | zero => rfl
  | succ n =>
    have inside : n < slots.toList.length := by
      rw [Vector.length_toList]
      exact bound
    simp [top?, values, List.take_succ_eq_append_getElem inside]

theorem pop_empty (empty : s.values = []) : s.pop = .error .stackUnderflow s := by
  obtain ⟨slots, height, bound⟩ := s
  have height_eq := congrArg List.length empty
  rw [length_values] at height_eq
  obtain rfl : height = 0 := height_eq
  rfl

/-- All that an operation can do. -/
inductive Does (s : Stack) : Operation → Answer × Stack → Prop
  | pushed {value : Value} {s' : Stack} (room : s.values.length < capacity)
      (grown : s'.values = s.values ++ [value]) : Does s (.push value) (.ok none, s')
  | full {value : Value} (full : s.values.length = capacity) :
      Does s (.push value) (.error .stackOverflow, s)
  | popped {value : Value} {s' : Stack} (top : s.values = s'.values ++ [value])
      (last : s'.lastPopped = value) : Does s .pop (.ok (some value), s')
  | empty (empty : s.values = []) : Does s .pop (.error .stackUnderflow, s)

theorem does_perform (s : Stack) (op : Operation) : Does s op (op.perform s) := by
  cases op with
  | push value =>
    by_cases room : s.height < capacity
    · obtain ⟨s', pushed, grown⟩ := push_eq value room
      simp only [Operation.perform, pushed]
      exact .pushed (by rwa [length_values]) grown
    · have full : s.height = capacity := Nat.le_antisymm s.height_le (Nat.not_lt.1 room)
      simp only [Operation.perform, push_full value full]
      exact .full (by rwa [length_values])
  | pop =>
    cases top : s.values.getLast? with
    | none =>
      have empty := List.getLast?_eq_none_iff.1 top
      simp only [Operation.perform, pop_empty empty]
      exact .empty empty
    | some value =>
      obtain ⟨rest, top⟩ := List.getLast?_eq_some_iff.1 top
      obtain ⟨s', popped, rfl, last⟩ := pop_eq top
      simp only [Operation.perform, popped]
      exact .popped top last

theorem Does.onList {op : Operation} {r : Answer × Stack} (h : Does s op r) :
    op.onList capacity s.values = (r.1, r.2.values) := by
  cases h with
  | pushed room grown => rw [Operation.onList, if_pos room, grown]
  | full full => rw [Operation.onList, if_neg (by omega)]
  | popped top last => simp only [Operation.onList, top, List.getLast?_concat, List.dropLast_concat]
  | empty empty => simp only [Operation.onList, empty, List.getLast?_nil]

theorem Does.unchanged {op : Operation} {r : Answer × Stack} (h : Does s op r)
    (failed : r.1.toOption = none) : r.2 = s := by
  cases h with
  | pushed | popped => cases failed
  | full | empty => rfl

theorem Does.lastPopped_eq {op : Operation} {r : Answer × Stack} {value : Value} (h : Does s op r)
    (success : r.1.toOption = some (some value)) : r.2.lastPopped = value := by
  cases h with
  | popped top last =>
    cases success
    exact last
  | pushed | full | empty => cases success

/-! ### Histories -/

variable {history : List Operation}

theorem performAll_onList (history : List Operation) (s : Stack) :
    performAll (Operation.onList capacity) history s.values =
      ((performAll Operation.perform history s).1,
        (performAll Operation.perform history s).2.values) := by
  induction history generalizing s with
  | nil => rfl
  | cons op rest ih => simp only [performAll, (does_perform s op).onList, ih]

theorem performAll_unchanged
    (failed : latestSuccess (performAll Operation.perform history s).1 = none) :
    (performAll Operation.perform history s).2 = s := by
  induction history generalizing s with
  | nil => rfl
  | cons op rest ih =>
    simp only [performAll, latestSuccess_cons, Option.or_eq_none_iff] at failed ⊢
    rw [ih failed.1, (does_perform s op).unchanged failed.2]

theorem performAll_lastPopped {value : Value}
    (latest : latestSuccess (performAll Operation.perform history s).1 = some (some value)) :
    (performAll Operation.perform history s).2.lastPopped = value := by
  induction history generalizing s with
  | nil => cases latest
  | cons op rest ih =>
    simp only [performAll, latestSuccess_cons] at latest ⊢
    cases later : latestSuccess (performAll Operation.perform rest (op.perform s).2).1 with
    | some result =>
      rw [later, Option.some_or] at latest
      exact ih (later.trans latest)
    | none =>
      -- All later operations have failed, so the stack is still the one after this operation.
      rw [later, Option.none_or] at latest
      rw [performAll_unchanged later]
      exact (does_perform s op).lastPopped_eq latest

theorem performAll_append {State : Type} {perform : Operation → State → Answer × State}
    {first second : List Operation} {s s' s'' : State} {answers answers' : List Answer}
    (done : performAll perform first s = (answers, s'))
    (done' : performAll perform second s' = (answers', s'')) :
    performAll perform (first ++ second) s = (answers ++ answers', s'') := by
  induction first generalizing s answers with
  | nil =>
    obtain ⟨rfl, rfl⟩ := Prod.mk.inj done
    exact done'
  | cons op rest ih =>
    simp only [performAll, Prod.mk.injEq] at done
    obtain ⟨rfl, last⟩ := done
    have remaining := ih (Prod.ext rfl last)
    simp only [List.cons_append, performAll, remaining]

/-- As many values as there is room for can be pushed one after another. -/
theorem performAll_pushes {capacity n : Nat} {values : List Value} (value : Value)
    (room : values.length + n ≤ capacity) :
    performAll (Operation.onList capacity) (List.replicate n (.push value)) values =
      (List.replicate n (.ok none), values ++ List.replicate n value) := by
  induction n generalizing values with
  | zero => simp [performAll]
  | succ n ih =>
    have next : values.length < capacity := by omega
    have remaining : (values ++ [value]).length + n ≤ capacity := by
      rw [List.length_append, List.length_singleton]
      omega
    have grown := ih remaining
    simp only [List.replicate_succ, performAll, Operation.onList, if_pos next, grown,
      List.append_assoc, List.singleton_append]

/-- The last place is given and taken back, and between these nothing more can be pushed. -/
theorem performAll_overfull {capacity : Nat} {values : List Value} (a b : Value)
    (last : values.length + 1 = capacity) :
    performAll (Operation.onList capacity) [.push a, .push b, .pop] values =
      ([.ok none, .error .stackOverflow, .ok (some a)], values) := by
  have room : values.length < capacity := by omega
  have full : ¬ (values ++ [a]).length < capacity := by
    rw [List.length_append, List.length_singleton]
    omega
  simp only [performAll, Operation.onList, if_pos room, if_neg full, List.getLast?_concat,
    List.dropLast_concat]

/-- After every history of operations on a new stack, failed ones included, the answers and the
values are those of a list of at most 2048 values, the top is its last value, and what was popped
last can still be seen if nothing has been pushed since. A failed operation leaves the whole stack
as it was. -/
theorem stack_is_bounded_list (history : List Operation) :
    ∃ answers s, performAll Operation.perform history .empty = (answers, s) ∧
      performAll (Operation.onList 2048) history [] = (answers, s.values) ∧
      s.top? = s.values.getLast? ∧
      (∀ value, latestSuccess answers = some (some value) → s.lastPopped = value) ∧
      ∀ (op : Operation) e s', op.perform s = (.error e, s') → s' = s := by
  refine ⟨_, _, rfl, performAll_onList history .empty, top?_eq_getLast? _,
    fun value => performAll_lastPopped, fun op e s' failed => ?_⟩
  have unchanged := (does_perform _ op).unchanged (by rw [failed]; rfl)
  rwa [failed] at unchanged

/-- Fills the stack, pushes one value more, and pops. -/
def overfilling : List Operation :=
  List.replicate 2047 (.push .null) ++ [.push (.integer 2), .push (.integer 1), .pop]

/-- The value popped last is seen through a pop that fails. At the other end of the capacity a push
that fails leaves no trace. -/
theorem stack_is_bounded_list_emptied :
    (∃ s, performAll Operation.perform [.push (.integer 1), .push .null, .pop, .pop, .pop] .empty =
        ([.ok none, .ok none, .ok (some .null), .ok (some (.integer 1)),
          .error .stackUnderflow], s) ∧
      s.values = [] ∧ s.lastPopped = .integer 1) ∧
    ∃ s, performAll Operation.perform overfilling .empty =
        (List.replicate 2047 (.ok none) ++
          [.ok none, .error .stackOverflow, .ok (some (.integer 2))], s) ∧
      s.values = List.replicate 2047 .null ∧ s.top? = some .null ∧ s.lastPopped = .integer 2 := by
  constructor
  · obtain ⟨answers, s, performed, listed, -, last, -⟩ :=
      stack_is_bounded_list [.push (.integer 1), .push .null, .pop, .pop, .pop]
    obtain ⟨rfl, values⟩ := Prod.mk.inj (listed.symm.trans rfl)
    exact ⟨s, performed, values, last _ rfl⟩
  · obtain ⟨answers, s, performed, listed, top, last, -⟩ := stack_is_bounded_list overfilling
    have filled : performAll (Operation.onList 2048) (List.replicate 2047 (.push .null)) [] =
        (List.replicate 2047 (.ok none), List.replicate 2047 .null) :=
      performAll_pushes .null (by decide)
    have overfull := performAll_overfull (.integer 2) (.integer 1)
      (congrArg (· + 1) (List.length_replicate (n := 2047) (a := Value.null)))
    obtain ⟨rfl, values⟩ := Prod.mk.inj (listed.symm.trans (performAll_append filled overfull))
    refine ⟨s, performed, values, ?_, last _ ?_⟩
    · rw [top, values, List.getLast?_replicate, if_neg (by decide)]
    · rw [latestSuccess_append]
      rfl

end MonkeyLanguage.Stack
