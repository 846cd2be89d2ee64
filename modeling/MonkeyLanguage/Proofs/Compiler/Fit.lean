import MonkeyLanguage.Proofs.Compiler.Emission

/-!
# What fits

Operands have two bytes. A constant is loaded by its index, so 65536 of them can be loaded; a jump
leads to an offset, so the code of a conditional, whose last jump leads to its end, may end at
65535. Nothing else limits what the compiler accepts of the nodes that it knows.
-/

namespace MonkeyLanguage

/-! ### Where conditionals start -/

mutual

/-- The conditionals of an expression whose code starts at `start`, each with the offset at which
its own code starts. -/
def Expr.conditionals : Expr → Nat → List (Nat × Expr)
  | .unary _ operand, start => operand.conditionals start
  | .binary op left right, start =>
    if op = .lessThan then
      right.conditionals start ++ left.conditionals (start + right.size)
    else left.conditionals start ++ right.conditionals (start + left.size)
  | .conditional condition consequence alternative, start =>
    let inside := start + condition.size + 3
    let outside := inside + branchSize (Stmt.sizeAll consequence) + 3
    condition.conditionals start ++
      (Stmt.conditionalsAll consequence inside ++ Stmt.conditionalsElse alternative outside) ++
      [(start, .conditional condition consequence alternative)]
  | _, _ => []

def Stmt.conditionals : Stmt → Nat → List (Nat × Expr)
  | .expression value, start => value.conditionals start
  | .block body, start => Stmt.conditionalsAll body start
  | _, _ => []

def Stmt.conditionalsAll : List Stmt → Nat → List (Nat × Expr)
  | [], _ => []
  | s :: rest, start => s.conditionals start ++ Stmt.conditionalsAll rest (start + s.size)

def Stmt.conditionalsElse : Option (List Stmt) → Nat → List (Nat × Expr)
  | none, _ => []
  | some body, start => Stmt.conditionalsAll body start

end

/-- Conditionals that end where a jump can lead, and constants that can all be loaded. -/
structure Fits (places : List (Nat × Expr)) (constants : Nat) : Prop where
  reach : ∀ place ∈ places, place.1 + place.2.size ≤ 65535
  count : constants ≤ 65536

theorem fits_nil {constants : Nat} : Fits [] constants ↔ constants ≤ 65536 :=
  ⟨fun h => h.count, fun h => ⟨by simp, h⟩⟩

theorem fits_append {first second : List (Nat × Expr)} {pool a b : Nat} :
    Fits (first ++ second) (pool + (a + b)) ↔
      Fits first (pool + a) ∧ Fits second (pool + a + b) := by
  constructor
  · intro h
    have count := h.count
    exact ⟨⟨fun place member => h.reach place (List.mem_append_left _ member), by omega⟩,
      ⟨fun place member => h.reach place (List.mem_append_right _ member), by omega⟩⟩
  · rintro ⟨h, h'⟩
    have count := h'.count
    refine ⟨fun place member => ?_, by omega⟩
    exact (List.mem_append.1 member).elim (h.reach place) (h'.reach place)

theorem fits_conditional {e : Expr} {places : List (Nat × Expr)} {start constants : Nat} :
    Fits (places ++ [(start, e)]) constants ↔
      Fits places constants ∧ start + e.size ≤ 65535 := by
  constructor
  · intro h
    exact ⟨⟨fun place member => h.reach place (List.mem_append_left _ member), h.count⟩,
      h.reach (start, e) (by simp)⟩
  · rintro ⟨h, last⟩
    refine ⟨fun place member => ?_, h.count⟩
    rcases List.mem_append.1 member with member | member
    · exact h.reach place member
    · obtain rfl := List.mem_singleton.1 member
      exact last

theorem length_literals_conditional (condition : Expr) (consequence : List Stmt)
    (alternative : Option (List Stmt)) :
    (Expr.conditional condition consequence alternative).literals.length =
      condition.literals.length +
        ((Stmt.literalsAll consequence).length + (Stmt.literalsElse alternative).length) := by
  simp [Expr.literals]

/-! ### Code that can be encoded fits -/

theorem wellFormed_of_branchCode {code : List Instruction} (endsInPop : EndsInPop code)
    (wellFormed : ∀ i ∈ branchCode code, i.WellFormed) : ∀ i ∈ code, i.WellFormed := by
  rcases endsInPop with rfl | ⟨front, rfl⟩
  · simp
  · intro i member
    rcases List.mem_append.1 member with member | member
    · exact wellFormed i (by simpa [branchCode] using member)
    · obtain rfl := List.mem_singleton.1 member
      exact Instruction.wellFormed_plain rfl (by decide)

mutual

theorem Expr.fits_of_wellFormed (e : Expr) {start pool : Nat} (room : pool ≤ 65536)
    (wellFormed : ∀ i ∈ e.translate start pool, i.WellFormed) :
    Fits (e.conditionals start) (pool + e.literals.length) := by
  match e with
  | .integer value =>
    have small := (wellFormed ⟨.constant, [pool]⟩ (by simp [Expr.translate])).small pool (by simp)
    exact fits_nil.2 (by simp only [Expr.literals, List.length_singleton]; omega)
  | .unary op operand =>
    simp only [Expr.translate, List.forall_mem_append] at wellFormed
    exact operand.fits_of_wellFormed room wellFormed.1
  | .binary op left right =>
    simp only [Expr.translate, Expr.conditionals, Expr.literals] at wellFormed ⊢
    split at wellFormed
    all_goals
      rename_i order
      simp only [order, if_true, if_false, List.length_append]
      simp only [List.forall_mem_append] at wellFormed
      obtain ⟨⟨first, second⟩, -⟩ := wellFormed
    · have fits := right.fits_of_wellFormed room first
      exact fits_append.2 ⟨fits, left.fits_of_wellFormed fits.count second⟩
    · have fits := left.fits_of_wellFormed room first
      exact fits_append.2 ⟨fits, right.fits_of_wellFormed fits.count second⟩
  | .conditional condition consequence alternative =>
    simp only [Expr.translate, List.forall_mem_append, List.forall_mem_singleton] at wellFormed
    obtain ⟨⟨⟨⟨tests, -⟩, enters⟩, leaves⟩, falls⟩ := wellFormed
    have test := condition.fits_of_wellFormed room tests
    have inside := Stmt.fits_of_wellFormedAll consequence test.count
      (wellFormed_of_branchCode (Stmt.translateAll_endsInPop _ _ _) enters)
    have outside := Stmt.fits_of_wellFormedElse alternative inside.count falls
    have ends := leaves.small _ (List.mem_singleton_self _)
    rw [Expr.conditionals, length_literals_conditional]
    refine fits_conditional.2 ⟨fits_append.2 ⟨test, fits_append.2 ⟨inside, outside⟩⟩, ?_⟩
    simp only [Expr.size]
    omega
  | .boolean _ | .identifier _ | .string _ | .array _ | .hash _ | .function _ _ | .index _ _
  | .call _ _ => exact fits_nil.2 room

theorem Stmt.fits_of_wellFormed (s : Stmt) {start pool : Nat} (room : pool ≤ 65536)
    (wellFormed : ∀ i ∈ s.translate start pool, i.WellFormed) :
    Fits (s.conditionals start) (pool + s.literals.length) := by
  match s with
  | .expression value =>
    simp only [Stmt.translate, List.forall_mem_append] at wellFormed
    exact value.fits_of_wellFormed room wellFormed.1
  | .block body => exact Stmt.fits_of_wellFormedAll body room wellFormed
  | .bind _ _ | .ret _ => exact fits_nil.2 room

theorem Stmt.fits_of_wellFormedAll (body : List Stmt) {start pool : Nat} (room : pool ≤ 65536)
    (wellFormed : ∀ i ∈ Stmt.translateAll body start pool, i.WellFormed) :
    Fits (Stmt.conditionalsAll body start) (pool + (Stmt.literalsAll body).length) := by
  match body with
  | [] => exact fits_nil.2 room
  | s :: rest =>
    simp only [Stmt.translateAll, List.forall_mem_append] at wellFormed
    have fits := s.fits_of_wellFormed room wellFormed.1
    simp only [Stmt.conditionalsAll, Stmt.literalsAll, List.length_append]
    exact fits_append.2 ⟨fits, Stmt.fits_of_wellFormedAll rest fits.count wellFormed.2⟩

theorem Stmt.fits_of_wellFormedElse (alternative : Option (List Stmt)) {start pool : Nat}
    (room : pool ≤ 65536)
    (wellFormed : ∀ i ∈ Stmt.translateElse alternative start pool, i.WellFormed) :
    Fits (Stmt.conditionalsElse alternative start)
      (pool + (Stmt.literalsElse alternative).length) := by
  match alternative with
  | none => exact fits_nil.2 room
  | some body =>
    exact Stmt.fits_of_wellFormedAll body room
      (wellFormed_of_branchCode (Stmt.translateAll_endsInPop _ _ _) wellFormed)

end

/-! ### What fits compiles -/

/-- So many bytes of code and so many constants were added. -/
structure Compiler.Grows (c c' : Compiler) (width count : Nat) : Prop where
  code : c'.code.size = c.code.size + width
  constants : c'.constants.size = c.constants.size + count

theorem Compiler.Emits.grows {c c' : Compiler} {code : List Instruction} {constants : List Value}
    (h : c.Emits c' code constants) : c.Grows c' (totalWidth code) constants.length :=
  ⟨h.size, h.pool⟩

theorem Expr.grows_of_compile {e : Expr} {c c' : Compiler} (h : e.compile c = .ok () c') :
    c.Grows c' e.size e.literals.length := by
  simpa only [e.totalWidth_translate] using (e.compile_eq_ok h).grows

theorem exists_emitPlain (op : OpCode) (none : op.operandWidths = []) (c : Compiler) :
    ∃ c', emitPlain op none c = .ok () c' := ⟨_, rfl⟩

theorem exists_emitConstant (constant : Value) {c : Compiler} (small : c.constants.size ≤ 65535) :
    ∃ c', emitConstant constant c = .ok () c' := by
  simp only [emitConstant, dif_pos small]
  exact ⟨_, rfl⟩

/-- A pop that ends the code is known to the compiler, so after any other instruction none is. -/
def Compiler.Fresh (c : Compiler) : Prop := ∀ position, c.last ≠ some ⟨.pop, position⟩

theorem exists_emitJump (op : OpCode) (jump : op.operandWidths = [2]) (plain : op ≠ .constant)
    (c : Compiler) :
    ∃ c', emitJump op jump c = .ok c.code.size c' ∧ c.Grows c' 3 0 ∧ c'.Fresh := by
  have emitted : emitJump op jump c = .ok c.code.size _ := rfl
  obtain ⟨-, emits, last⟩ := emitJump_eq_ok plain emitted
  have width : (Instruction.mk op [placeholder]).width = 3 := by
    rw [← Instruction.length_bytes, Instruction.bytes_word jump]
    rfl
  refine ⟨_, emitted, by simpa [width] using emits.grows, fun position popped => ?_⟩
  have same := last.symm.trans popped
  simp only [Option.some.injEq, Emitted.mk.injEq] at same
  simp [same.1, OpCode.operandWidths] at jump

theorem size_overwrite (code : Code) (position : Nat) (bytes : List UInt8) :
    (overwrite code position bytes).size = code.size := by
  induction bytes generalizing code position with
  | nil => rfl
  | cons b bytes ih => rw [overwrite, ih, Array.size_setIfInBounds]

theorem exists_patchJump (op : OpCode) (jump : op.operandWidths = [2]) (position : Nat)
    {c : Compiler} (small : c.code.size ≤ 65535) :
    ∃ c', patchJump op jump position c = .ok () c' ∧ c.Grows c' 0 0 ∧ c'.last = c.last := by
  simp only [patchJump, dif_pos small]
  exact ⟨_, rfl, ⟨size_overwrite _ _ _, rfl⟩, rfl⟩

theorem exists_keepLastValue (c : Compiler) : ∃ c', keepLastValue c = .ok () c' := by
  unfold keepLastValue
  split
  · exact ⟨_, rfl⟩
  · exact exists_emitPlain _ _ c

theorem exists_compile_branch {body : List Stmt} {c c' : Compiler} (fresh : c.Fresh)
    (h : Stmt.compileAll body c = .ok () c') :
    ∃ c'', keepLastValue c' = .ok () c'' ∧
      c.Grows c'' (branchSize (Stmt.sizeAll body)) (Stmt.literalsAll body).length := by
  obtain ⟨c'', kept⟩ := exists_keepLastValue c'
  have emits := keepLastValue_eq_ok (Stmt.compileAll_eq_ok body h) fresh kept
  refine ⟨c'', kept, ?_⟩
  simpa only [totalWidth_branchCode (Stmt.translateAll_endsInPop _ _ _),
    Stmt.totalWidth_translateAll] using emits.grows

theorem exists_compile_operands {first second : Expr} {op : OpCode} {plain : op.operandWidths = []}
    {c : Compiler} (compiles : ∃ m, first.compile c = .ok () m)
    (compiles' : ∀ m, c.Grows m first.size first.literals.length →
      ∃ m', second.compile m = .ok () m') :
    ∃ c', (do first.compile; second.compile; emitPlain op plain : Compile Unit) c = .ok () c' := by
  obtain ⟨m, compiled⟩ := compiles
  obtain ⟨m', compiled'⟩ := compiles' m (Expr.grows_of_compile compiled)
  obtain ⟨c', emitted⟩ := exists_emitPlain op plain m'
  exact ⟨c', bind_eq_ok.2 ⟨(), m, compiled, bind_eq_ok.2 ⟨(), m', compiled', emitted⟩⟩⟩

/-- If its parts compile where they stand, a conditional compiles whose end a jump can reach. -/
theorem exists_compile_conditional {condition : Expr} {consequence : List Stmt}
    {alternative : Option (List Stmt)} {c : Compiler}
    (reach : c.code.size + (Expr.conditional condition consequence alternative).size ≤ 65535)
    (tests : ∃ m, condition.compile c = .ok () m)
    (enters : ∀ m, c.Grows m (condition.size + 3) condition.literals.length →
      ∃ m', Stmt.compileAll consequence m = .ok () m')
    (falls : ∀ m, c.Grows m (condition.size + 3 + branchSize (Stmt.sizeAll consequence) + 3)
        (condition.literals.length + (Stmt.literalsAll consequence).length) → m.Fresh →
      ∃ m', Stmt.compileElse alternative m = .ok () m' ∧
        m'.code.size = m.code.size + Stmt.sizeElse alternative) :
    ∃ c', (Expr.conditional condition consequence alternative).compile c = .ok () c' := by
  simp only [Expr.size] at reach
  obtain ⟨c₁, tested⟩ := tests
  have test := Expr.grows_of_compile tested
  obtain ⟨c₂, jumped, jump, fresh⟩ := exists_emitJump .jumpNotTruthy rfl (by decide) c₁
  have code := jump.code
  have constants := jump.constants
  rw [test.code] at code
  rw [test.constants] at constants
  obtain ⟨c₃, entered⟩ := enters c₂ ⟨by omega, by omega⟩
  obtain ⟨c₄, kept, branch⟩ := exists_compile_branch fresh entered
  obtain ⟨c₅, left, leave, fresh'⟩ := exists_emitJump .jump rfl (by decide) c₄
  have code' := leave.code
  have constants' := leave.constants
  rw [branch.code] at code'
  rw [branch.constants] at constants'
  obtain ⟨c₆, patched, patch, last⟩ :=
    exists_patchJump .jumpNotTruthy rfl c₁.code.size (c := c₅) (by omega)
  have code'' := patch.code
  have constants'' := patch.constants
  obtain ⟨c₇, otherwise, ends⟩ := falls c₆ ⟨by omega, by omega⟩
    (fun position => last ▸ fresh' position)
  obtain ⟨c₈, finished, -, -⟩ :=
    exists_patchJump .jump rfl c₄.code.size (c := c₇) (by omega)
  refine ⟨c₈, ?_⟩
  rw [Expr.compile_conditional]
  exact bind_eq_ok.2 ⟨_, _, tested, bind_eq_ok.2 ⟨_, _, jumped, bind_eq_ok.2 ⟨_, _, entered,
    bind_eq_ok.2 ⟨_, _, kept, bind_eq_ok.2 ⟨_, _, left, bind_eq_ok.2 ⟨_, _, patched,
      bind_eq_ok.2 ⟨_, _, otherwise, finished⟩⟩⟩⟩⟩⟩⟩

mutual

theorem Expr.exists_compile (e : Expr) (compilable : e.Every Expr.IsCompilable Stmt.IsCompilable)
    {c : Compiler} {start pool : Nat} (code : c.code.size = start)
    (constants : c.constants.size = pool)
    (fits : Fits (e.conditionals start) (pool + e.literals.length)) :
    ∃ c', e.compile c = .ok () c' := by
  match e with
  | .integer value =>
    have count := fits.count
    simp only [Expr.literals, List.length_singleton] at count
    exact exists_emitConstant _ (by omega)
  | .boolean true | .boolean false => exact exists_emitPlain _ _ c
  | .unary op operand =>
    obtain ⟨m, compiled⟩ := operand.exists_compile compilable.2 code constants fits
    obtain ⟨c', emitted⟩ := exists_emitPlain op.opCode op.operandWidths_opCode m
    exact ⟨c', bind_eq_ok.2 ⟨(), m, compiled, emitted⟩⟩
  | .binary op left right =>
    obtain ⟨-, onLeft, onRight⟩ := compilable
    simp only [Expr.compile, Expr.conditionals, Expr.literals] at fits ⊢
    split at fits
    all_goals
      rename_i order
      simp only [order, if_true, if_false, List.length_append] at fits ⊢
      obtain ⟨first, second⟩ := fits_append.1 fits
    · refine exists_compile_operands (right.exists_compile onRight code constants first)
        (fun m grows => ?_)
      exact left.exists_compile onLeft (by rw [grows.code, code])
        (by rw [grows.constants, constants]) second
    · refine exists_compile_operands (left.exists_compile onLeft code constants first)
        (fun m grows => ?_)
      exact right.exists_compile onRight (by rw [grows.code, code])
        (by rw [grows.constants, constants]) second
  | .conditional condition consequence alternative =>
    obtain ⟨-, onCondition, onConsequence, onAlternative⟩ := compilable
    rw [Expr.conditionals, length_literals_conditional] at fits
    obtain ⟨parts, reach⟩ := fits_conditional.1 fits
    obtain ⟨test, parts⟩ := fits_append.1 parts
    obtain ⟨inside, outside⟩ := fits_append.1 parts
    refine exists_compile_conditional (by omega)
      (condition.exists_compile onCondition code constants test)
      (fun m grows => ?_) (fun m grows fresh => ?_)
    · have code' := grows.code
      have constants' := grows.constants
      exact Stmt.exists_compileAll consequence onConsequence (by omega) (by omega) inside
    · have code' := grows.code
      have constants' := grows.constants
      obtain ⟨m', compiled⟩ := Stmt.exists_compileElse alternative onAlternative (c := m)
        (by omega) (by omega) outside
      refine ⟨m', compiled, ?_⟩
      rw [(Stmt.compileElse_eq_ok alternative fresh compiled).size,
        Stmt.totalWidth_translateElse]

theorem Stmt.exists_compile (s : Stmt) (compilable : s.Every Expr.IsCompilable Stmt.IsCompilable)
    {c : Compiler} {start pool : Nat} (code : c.code.size = start)
    (constants : c.constants.size = pool)
    (fits : Fits (s.conditionals start) (pool + s.literals.length)) :
    ∃ c', s.compile c = .ok () c' := by
  match s with
  | .expression value =>
    obtain ⟨m, compiled⟩ := value.exists_compile compilable.2 code constants fits
    obtain ⟨c', emitted⟩ := exists_emitPlain .pop rfl m
    exact ⟨c', bind_eq_ok.2 ⟨(), m, compiled, emitted⟩⟩
  | .block body => exact Stmt.exists_compileAll body compilable.2 code constants fits
  | .bind _ _ | .ret _ => exact absurd compilable.1 (by simp [Stmt.IsCompilable])

theorem Stmt.exists_compileAll (body : List Stmt)
    (compilable : Stmt.EveryIn Expr.IsCompilable Stmt.IsCompilable body) {c : Compiler}
    {start pool : Nat} (code : c.code.size = start) (constants : c.constants.size = pool)
    (fits : Fits (Stmt.conditionalsAll body start) (pool + (Stmt.literalsAll body).length)) :
    ∃ c', Stmt.compileAll body c = .ok () c' := by
  match body with
  | [] => exact ⟨c, rfl⟩
  | s :: rest =>
    simp only [Stmt.conditionalsAll, Stmt.literalsAll, List.length_append] at fits
    obtain ⟨first, second⟩ := fits_append.1 fits
    obtain ⟨m, compiled⟩ := s.exists_compile compilable.1 code constants first
    have emits := (s.compile_eq_ok compiled).toEmits
    have code' := emits.size
    have constants' := emits.pool
    rw [s.totalWidth_translate] at code'
    obtain ⟨c', compiled'⟩ := Stmt.exists_compileAll rest compilable.2 (c := m)
      (by omega) (by omega) second
    exact ⟨c', bind_eq_ok.2 ⟨(), m, compiled, compiled'⟩⟩

theorem Stmt.exists_compileElse (alternative : Option (List Stmt))
    (compilable : Stmt.EveryElse Expr.IsCompilable Stmt.IsCompilable alternative) {c : Compiler}
    {start pool : Nat} (code : c.code.size = start) (constants : c.constants.size = pool)
    (fits : Fits (Stmt.conditionalsElse alternative start)
      (pool + (Stmt.literalsElse alternative).length)) :
    ∃ c', Stmt.compileElse alternative c = .ok () c' := by
  match alternative with
  | none => exact exists_emitPlain .pushNull rfl c
  | some body =>
    obtain ⟨m, compiled⟩ := Stmt.exists_compileAll body compilable code constants fits
    obtain ⟨c', kept⟩ := exists_keepLastValue m
    exact ⟨c', bind_eq_ok.2 ⟨(), m, compiled, kept⟩⟩

end

/-! ### Whole programs -/

/-- What compiles is what fits, and its size is known from the tree. -/
theorem compiles_iff_fits (program : Program) :
    ((∃ bytecode, compile program = .ok bytecode) ↔
      Stmt.EveryIn Expr.IsCompilable Stmt.IsCompilable program ∧
        (Stmt.literalsAll program).length ≤ 65536 ∧
        ∀ start e, (start, e) ∈ Stmt.conditionalsAll program 0 → start + e.size ≤ 65535) ∧
      ∀ bytecode, compile program = .ok bytecode → bytecode.code.size = Stmt.sizeAll program := by
  refine ⟨⟨?_, ?_⟩, fun bytecode h => ?_⟩
  · rintro ⟨bytecode, h⟩
    have translates := translates_of_compile h
    have fits := Stmt.fits_of_wellFormedAll program (Nat.zero_le _) translates.wellFormed
    exact ⟨translates.compilable, by simpa using fits.count,
      fun start e member => fits.reach (start, e) member⟩
  · rintro ⟨compilable, count, reach⟩
    have fits : Fits (Stmt.conditionalsAll program 0) (0 + (Stmt.literalsAll program).length) :=
      ⟨fun place member => reach place.1 place.2 member, by simpa using count⟩
    obtain ⟨c, compiled⟩ := Stmt.exists_compileAll program compilable (c := .empty) rfl rfl fits
    exact ⟨c.bytecode, by rw [compile, compiled]⟩
  · have same := congrArg List.length (translates_of_compile h).code
    simpa [Stmt.totalWidth_translateAll] using same

/-- So many statements `0;`. -/
def zeros (n : Nat) : Program := List.replicate n (.expression (.integer 0))

theorem zeros_measures (n start : Nat) :
    Stmt.EveryIn Expr.IsCompilable Stmt.IsCompilable (zeros n) ∧
      (Stmt.literalsAll (zeros n)).length = n ∧ Stmt.conditionalsAll (zeros n) start = [] ∧
      Stmt.sizeAll (zeros n) = 4 * n := by
  induction n generalizing start with
  | zero => exact ⟨trivial, rfl, rfl, rfl⟩
  | succ n ih =>
    obtain ⟨compilable, count, none, size⟩ := ih (start + 4)
    refine ⟨⟨⟨trivial, trivial⟩, compilable⟩, ?_, none, ?_⟩
    · rw [zeros, List.replicate_succ, Stmt.literalsAll, List.length_append, ← zeros, count]
      exact Nat.add_comm _ _
    · change 4 + Stmt.sizeAll (zeros n) = 4 * (n + 1)
      omega

/-- `if (condition) { 0; … 0; }` -/
def guarded (condition : Expr) (n : Nat) : Expr := .conditional condition (zeros n) none

theorem size_guarded (condition : Expr) {n : Nat} (some : 0 < n) :
    (guarded condition n).size = condition.size + 4 * n + 6 := by
  obtain ⟨-, -, -, size⟩ := zeros_measures n 0
  simp only [guarded, Expr.size, branchSize, size, Stmt.sizeElse]
  split
  · omega
  · omega

/-- Where the condition has no constant and no jump, the guard is the only conditional, and it fits
when it ends in reach of a jump. -/
theorem guarded_fits_iff (condition : Expr) (n : Nat)
    (compilable : condition.Every Expr.IsCompilable Stmt.IsCompilable)
    (plain : condition.literals = []) (straight : condition.conditionals 0 = []) :
    (Stmt.EveryIn Expr.IsCompilable Stmt.IsCompilable [.expression (guarded condition n)] ∧
        (Stmt.literalsAll [.expression (guarded condition n)]).length ≤ 65536 ∧
        ∀ start e, (start, e) ∈ Stmt.conditionalsAll [.expression (guarded condition n)] 0 →
          start + e.size ≤ 65535) ↔
      n ≤ 65536 ∧ (guarded condition n).size ≤ 65535 := by
  obtain ⟨zeros, count, none, -⟩ := zeros_measures n (0 + condition.size + 3)
  have literals : (Stmt.literalsAll [.expression (guarded condition n)]).length = n := by
    simp [guarded, Stmt.literalsAll, Stmt.literals, Expr.literals, Stmt.literalsElse, plain, count]
  have place : Stmt.conditionalsAll [.expression (guarded condition n)] 0 =
      [(0, guarded condition n)] := by
    simp only [guarded, Stmt.conditionalsAll, Stmt.conditionals, Expr.conditionals,
      Stmt.conditionalsElse, straight, none, List.nil_append, List.append_nil]
  rw [literals, place]
  constructor
  · rintro ⟨-, few, reach⟩
    have inside := reach 0 _ (List.mem_singleton_self _)
    exact ⟨few, by omega⟩
  · rintro ⟨few, inside⟩
    refine ⟨⟨⟨trivial, trivial, compilable, zeros, trivial⟩, trivial⟩, few, ?_⟩
    intro start e member
    obtain ⟨rfl, rfl⟩ := Prod.mk.inj (List.mem_singleton.1 member)
    omega

/-- Each limit is met exactly and then passed by one: the number of constants, and the end of a
conditional. -/
theorem compiles_iff_fits_zeros :
    (∃ bytecode, compile (zeros 65536) = .ok bytecode) ∧
      (¬ ∃ bytecode, compile (zeros 65537) = .ok bytecode) ∧
      (∃ bytecode, compile [.expression (guarded (.boolean true) 16382)] = .ok bytecode ∧
        bytecode.code.size = 65536) ∧
      ¬ ∃ bytecode,
        compile [.expression (guarded (.unary .not (.boolean true)) 16382)] = .ok bytecode := by
  refine ⟨?_, fun h => ?_, ?_, fun h => ?_⟩
  · obtain ⟨compilable, count, none, -⟩ := zeros_measures 65536 0
    exact (compiles_iff_fits _).1.2 ⟨compilable, Nat.le_of_eq count, by simp [none]⟩
  · have few := ((compiles_iff_fits _).1.1 h).2.1
    rw [(zeros_measures 65537 0).2.1] at few
    omega
  · have size : (guarded (.boolean true) 16382).size = 65535 := size_guarded _ (by decide)
    have fits := (guarded_fits_iff (.boolean true) 16382 trivial rfl rfl).2
      ⟨by decide, Nat.le_of_eq size⟩
    obtain ⟨bytecode, compiled⟩ := (compiles_iff_fits _).1.2 fits
    refine ⟨bytecode, compiled, ?_⟩
    rw [(compiles_iff_fits _).2 bytecode compiled, Stmt.sizeAll, Stmt.sizeAll, Stmt.size, size]
  · have size : (guarded (.unary .not (.boolean true)) 16382).size = 65536 :=
      size_guarded _ (by decide)
    have fits := (compiles_iff_fits _).1.1 h
    have inside := (guarded_fits_iff (.unary .not (.boolean true)) 16382 ⟨trivial, trivial⟩
      rfl rfl).1 fits
    omega

end MonkeyLanguage
