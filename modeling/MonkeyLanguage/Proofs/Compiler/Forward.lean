import MonkeyLanguage.Proofs.Code.Stream
import MonkeyLanguage.Proofs.Compiler.StackSafety
import MonkeyLanguage.Proofs.Machine.Pointer

/-!
# Compiled code runs forward

Every jump of compiled code leads to a later instruction. So whatever the machine does next stands
behind what it has done, and a run has no more steps than the code has instructions.
-/

namespace MonkeyLanguage

/-! ### Places in the code -/

/-- From `offset` on, `after` remains of the code. -/
structure Remains (code : List Instruction) (offset : Nat) (after : List Instruction) : Prop where
  suffix : after <:+ code
  offset_eq : offset + totalWidth after = totalWidth code

namespace Remains

variable {code after later : List Instruction} {i : Instruction} {offset target : Nat}

theorem whole (code : List Instruction) : Remains code 0 code :=
  ⟨List.suffix_refl _, Nat.zero_add _⟩

theorem next (h : Remains code offset (i :: after)) : Remains code (offset + i.width) after :=
  ⟨(List.suffix_cons i after).trans h.suffix, by
    rw [← h.offset_eq, totalWidth_cons, Nat.add_assoc]⟩

/-- The less remains, the further on it is. -/
theorem lt (h : Remains code offset (i :: after)) (rest : later <:+ after)
    (h' : Remains code target later) : offset < target := by
  obtain ⟨between, rfl⟩ := rest
  have here := h.offset_eq
  have there := h'.offset_eq
  have wide := i.width_pos
  simp only [totalWidth_cons, totalWidth_append] at here
  omega

theorem exists_cons (h : Remains code offset after) (inside : offset < totalWidth code) :
    ∃ i rest, after = i :: rest := by
  refine List.exists_cons_of_ne_nil ?_
  rintro rfl
  have last := h.offset_eq
  simp only [totalWidth_nil, Nat.add_zero] at last
  omega

end Remains

theorem mem_placed {code : List Instruction} {start offset : Nat} {d : Decoded} :
    (offset, d) ∈ placed start code ↔ ∃ i after, i :: after <:+ code ∧
      offset + totalWidth (i :: after) = start + totalWidth code ∧ d = i.decoded := by
  induction code generalizing start with
  | nil => simp [placed]
  | cons j rest ih =>
    rw [placed, List.mem_cons, ih, Prod.mk.injEq]
    constructor
    · rintro (⟨rfl, rfl⟩ | ⟨i, after, suffix, place, same⟩)
      · exact ⟨j, rest, List.suffix_refl _, rfl, rfl⟩
      · refine ⟨i, after, suffix.trans (List.suffix_cons j rest), ?_, same⟩
        rw [place, totalWidth_cons j, Nat.add_assoc]
    · rintro ⟨i, after, suffix, place, same⟩
      rcases List.suffix_cons_iff.1 suffix with whole | suffix
      · obtain ⟨rfl, rfl⟩ := List.cons.inj whole
        exact .inl ⟨Nat.add_right_cancel place, same⟩
      · refine .inr ⟨i, after, suffix, ?_, same⟩
        rw [place, totalWidth_cons j, Nat.add_assoc]

theorem length_placed (start : Nat) (code : List Instruction) :
    (placed start code).length = code.length := by
  induction code generalizing start with
  | nil => rfl
  | cons i rest ih => simp [placed, ih]

/-- One of the instructions starts at the offset. -/
def Starts (listed : List (Nat × Decoded)) (offset : Nat) : Prop := offset ∈ listed.map Prod.fst

theorem Remains.starts {code after : List Instruction} {i : Instruction} {offset : Nat}
    (h : Remains code offset (i :: after)) : Starts (placed 0 code) offset := by
  have listed : (offset, i.decoded) ∈ placed 0 code :=
    mem_placed.2 ⟨i, after, h.suffix, by rw [h.offset_eq, Nat.zero_add], rfl⟩
  exact List.mem_map_of_mem listed

theorem Remains.starts_or_ends {code after : List Instruction} {offset : Nat}
    (h : Remains code offset after) :
    Starts (placed 0 code) offset ∨ offset = totalWidth code := by
  cases after with
  | nil => exact .inr (by simpa using h.offset_eq)
  | cons i after => exact .inl h.starts

/-! ### Jumps -/

theorem Instruction.WellFormed.exists_target {i : Instruction} (wellFormed : i.WellFormed)
    (jump : i.op = .jump ∨ i.op = .jumpNotTruthy) :
    ∃ target, i.operands = [target] ∧ target ∈ i.targets := by
  have one : i.operands.length = 1 := by
    rw [wellFormed.declared]
    rcases jump with jump | jump <;> rw [jump] <;> rfl
  obtain ⟨target, operands⟩ := List.length_eq_one_iff.1 one
  exact ⟨target, operands, by rw [targets, if_pos jump, operands]; exact List.mem_cons_self⟩

/-- Every jump leads to a later instruction of the code. -/
def JumpsAhead (code : List Instruction) : Prop :=
  ∀ {offset i after}, Remains code offset (i :: after) → ∀ target ∈ i.targets,
    ∃ j later, j :: later <:+ after ∧ Remains code target (j :: later)

theorem Balanced.lands {code after : List Instruction} {i : Instruction} {offset target : Nat}
    {height : Int} (h : Balanced code 0 height) (remains : Remains code offset (i :: after))
    (member : target ∈ i.targets) : ∃ later, later <:+ after ∧ Remains code target later := by
  obtain ⟨⟨before, rfl⟩, place⟩ := remains
  obtain ⟨-, lands, -⟩ := h.of_append
  obtain ⟨between, later, rfl, rfl, -⟩ := lands target member
  refine ⟨later, List.suffix_append _ _, ⟨before ++ i :: between, by simp⟩, ?_⟩
  simp only [totalWidth_append, totalWidth_cons]
  omega

/-- Where code ends that a pop follows, there is the pop. -/
theorem Balanced.jumpsAhead {front : List Instruction} {height : Int}
    (h : Balanced front 0 height) : JumpsAhead (front ++ [.plain .pop]) := by
  intro offset i after remains target member
  obtain ⟨suffix, place⟩ := remains
  obtain none | ⟨front', split, behind⟩ := List.suffix_concat_iff.1 suffix
  · cases none
  cases front' with
  | nil =>
    obtain ⟨rfl, -⟩ := List.cons.inj split
    simp [Instruction.plain, Instruction.targets] at member
  | cons i' inside =>
    rw [List.cons_append] at split
    obtain ⟨rfl, rfl⟩ := List.cons.inj split
    rw [← List.cons_append, totalWidth_append, totalWidth_append, ← Nat.add_assoc] at place
    obtain ⟨later, suffix', remains⟩ := h.lands ⟨behind, Nat.add_right_cancel place⟩ member
    have extended : Remains (front ++ [.plain .pop]) target (later ++ [.plain .pop]) :=
      ⟨List.suffix_append_self_iff.2 remains.suffix, by
        rw [totalWidth_append, totalWidth_append, ← Nat.add_assoc, remains.offset_eq]⟩
    have more : later ++ [.plain .pop] <:+ inside ++ [.plain .pop] :=
      List.suffix_append_self_iff.2 suffix'
    cases later with
    | nil => exact ⟨_, _, more, extended⟩
    | cons j later => exact ⟨_, _, more, extended⟩

namespace Bytecode.Translates

variable {bytecode : Bytecode} {program : Program}

theorem jumpsAhead (h : bytecode.Translates program) :
    JumpsAhead (Stmt.translateAll program 0 0) := by
  rcases Stmt.deliversAll program h.compilable 0 0 (Int.le_refl 0) with none | ⟨front, same, ends⟩
  · rw [none]
    intro offset i after remains
    cases List.suffix_nil.1 remains.suffix
  · rw [same]
    exact ends.balanced.jumpsAhead

theorem instructions_eq (h : bytecode.Translates program) :
    bytecode.code.instructions = .ok (placed 0 (Stmt.translateAll program 0 0)) :=
  Code.instructionsFrom_of_assemble h.wellFormed (by rw [List.drop_zero, h.code])

/-! ### Steps -/

/-- A step leads to a place from which on less remains. -/
theorem step_remains (h : bytecode.Translates program) {m : Machine} {i : Instruction}
    {after : List Instruction}
    (remains : Remains (Stmt.translateAll program 0 0) m.ip (i :: after)) :
    Machine.MovesTo
      (fun ip => ∃ later, later <:+ after ∧ Remains (Stmt.translateAll program 0 0) ip later)
      (Machine.step bytecode m) := by
  have member : i ∈ Stmt.translateAll program 0 0 := remains.suffix.mem List.mem_cons_self
  have has : bytecode.code.Has m.ip i.bytes := by
    obtain ⟨⟨before, split⟩, place⟩ := remains
    rw [← split, totalWidth_append] at place
    rw [Nat.add_right_cancel place]
    exact h.has split.symm
  refine (Machine.step_moves has (h.wellFormed i member)).mono ?_
  rintro ip (rfl | jumped)
  · exact ⟨after, List.suffix_refl _, remains.next⟩
  · obtain ⟨j, later, suffix, landed⟩ := h.jumpsAhead remains ip jumped
    exact ⟨j :: later, suffix, landed⟩

end Bytecode.Translates

/-! ### Runs -/

namespace Machine

variable {bytecode : Bytecode} {program : Program} {m m' : Machine} {after : List Instruction}

theorem Steps.remains (h : bytecode.Translates program) (reached : Steps bytecode m m')
    (remains : Remains (Stmt.translateAll program 0 0) m.ip after) :
    ∃ later, later <:+ after ∧ Remains (Stmt.translateAll program 0 0) m'.ip later ∧
      m.ip ≤ m'.ip := by
  induction reached with
  | refl => exact ⟨after, List.suffix_refl _, remains, Nat.le_refl _⟩
  | tail _ inside stepped ih =>
    obtain ⟨later, suffix, here, before⟩ := ih
    rw [h.size_eq] at inside
    obtain ⟨i, rest, rfl⟩ := here.exists_cons inside
    have moved := h.step_remains here
    rw [stepped] at moved
    obtain ⟨left, suffix', there⟩ := moved
    exact ⟨left, suffix'.trans ((List.suffix_cons i rest).trans suffix), there,
      Nat.le_trans before (Nat.le_of_lt (here.lt suffix' there))⟩

theorem run_ends (h : bytecode.Translates program) {steps : Nat}
    (remains : Remains (Stmt.translateAll program 0 0) m.ip after) (enough : after.length ≤ steps) :
    (run bytecode steps m).1 ≠ .running := by
  induction steps generalizing m after with
  | zero =>
    obtain rfl := List.length_eq_zero_iff.1 (Nat.le_zero.1 enough)
    have outside : bytecode.code.size ≤ m.ip := by
      rw [h.size_eq, ← remains.offset_eq]
      exact Nat.le_refl _
    simp [run_outside outside]
  | succ steps ih =>
    by_cases inside : m.ip < bytecode.code.size
    · obtain ⟨i, rest, rfl⟩ := remains.exists_cons (h.size_eq ▸ inside)
      have moved := h.step_remains remains
      cases stepped : step bytecode m with
      | ok a next =>
        rw [stepped] at moved
        obtain ⟨later, suffix, there⟩ := moved
        have fewer := suffix.length_le
        rw [run_succ inside stepped]
        exact ih there (by rw [List.length_cons] at enough; omega)
      | error e next =>
        simp [run, inside, stepped]
    · simp [run_outside (Nat.not_lt.1 inside)]

/-- Every jump of compiled code leads to the start of a later instruction. So the pointer always
stands at a start or at the end, each step moves it forward, nothing is executed twice, and a run
ends within as many steps as there are instructions. -/
theorem compiled_runs_forward (compiled : compile program = .ok bytecode) :
    ∃ listed, bytecode.code.instructions = .ok listed ∧
      (∀ offset d, (offset, d) ∈ listed → d.op = .jump ∨ d.op = .jumpNotTruthy →
        ∃ target, d.operands = [target] ∧ offset < target ∧ Starts listed target) ∧
      (∀ m, Steps bytecode .initial m →
        (Starts listed m.ip ∨ m.ip = bytecode.code.size) ∧
          (m.ip < bytecode.code.size →
            MovesTo (fun ip => m.ip < ip ∧ (Starts listed ip ∨ ip = bytecode.code.size))
              (step bytecode m))) ∧
      (∀ m m' m'', Steps bytecode .initial m → m.ip < bytecode.code.size →
        step bytecode m = .ok () m' → Steps bytecode m' m'' → m.ip < m''.ip) ∧
      (run bytecode listed.length .initial).1 ≠ .running := by
  have translates := translates_of_compile compiled
  have arrives : ∀ m, Steps bytecode .initial m →
      ∃ after, Remains (Stmt.translateAll program 0 0) m.ip after := by
    intro m reached
    obtain ⟨after, -, remains, -⟩ := reached.remains translates (.whole _)
    exact ⟨after, remains⟩
  have moves : ∀ m, Steps bytecode .initial m → m.ip < bytecode.code.size →
      MovesTo (fun ip => m.ip < ip ∧
        ∃ later, Remains (Stmt.translateAll program 0 0) ip later) (step bytecode m) := by
    intro m reached inside
    obtain ⟨after, remains⟩ := arrives m reached
    obtain ⟨i, rest, rfl⟩ := remains.exists_cons (translates.size_eq ▸ inside)
    refine (translates.step_remains remains).mono ?_
    rintro ip ⟨later, suffix, there⟩
    exact ⟨remains.lt suffix there, later, there⟩
  refine ⟨_, translates.instructions_eq, ?_, ?_, ?_, ?_⟩
  · intro offset d listed jump
    obtain ⟨i, after, suffix, place, rfl⟩ := mem_placed.1 listed
    have remains : Remains (Stmt.translateAll program 0 0) offset (i :: after) :=
      ⟨suffix, by rw [place, Nat.zero_add]⟩
    have wellFormed := translates.wellFormed i (suffix.mem List.mem_cons_self)
    obtain ⟨target, operands, member⟩ := wellFormed.exists_target jump
    obtain ⟨j, later, further, landed⟩ := translates.jumpsAhead remains target member
    exact ⟨target, operands, remains.lt further landed, landed.starts⟩
  · intro m reached
    obtain ⟨after, remains⟩ := arrives m reached
    refine ⟨translates.size_eq ▸ remains.starts_or_ends, fun inside => ?_⟩
    refine (moves m reached inside).mono ?_
    rintro ip ⟨ahead, later, there⟩
    exact ⟨ahead, translates.size_eq ▸ there.starts_or_ends⟩
  · intro m m' m'' reached inside stepped further
    have moved := moves m reached inside
    rw [stepped] at moved
    obtain ⟨ahead, later, there⟩ := moved
    obtain ⟨-, -, -, behind⟩ := further.remains translates there
    exact Nat.lt_of_lt_of_le ahead behind
  · exact run_ends translates (.whole _) (by rw [length_placed])

theorem compiled_runs_forward_choice :
    compile choice = .ok choiceCode ∧ ∃ listed, choiceCode.code.instructions = .ok listed ∧
      (7, ⟨.jumpNotTruthy, [16], 3⟩) ∈ listed ∧ Starts listed 16 ∧
      (run choiceCode listed.length .initial).1 ≠ .running := by
  obtain ⟨listed, read, jumps, -, -, ends⟩ := compiled_runs_forward compile_choice
  have jump : (7, ⟨.jumpNotTruthy, [16], 3⟩) ∈ listed := by
    have same := read.symm.trans (translates_of_compile compile_choice).instructions_eq
    rw [Except.ok.inj same]
    decide
  obtain ⟨target, operands, -, starts⟩ := jumps _ _ jump (.inr rfl)
  obtain rfl : 16 = target := List.singleton_inj.1 operands
  exact ⟨compile_choice, listed, read, jump, starts, ends⟩

end Machine

end MonkeyLanguage
