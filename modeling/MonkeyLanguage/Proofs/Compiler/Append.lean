import MonkeyLanguage.Proofs.Compiler.Fit

/-!
# The compiler only appends

Whether a compilation succeeds or fails, what was there before stays, and whole instructions with
their constants come behind it. A failure leaves jumps without their targets, but no half of an
instruction and no load without its constant.
-/

namespace MonkeyLanguage

/-! ### Loads -/

/-- The operands of the loads in a code, in order. -/
def loaded (code : List Instruction) : List (List Nat) :=
  (code.filter (·.op = .constant)).map Instruction.operands

/-- What `count` loads have for operands that load one constant after another. -/
def consecutive (first count : Nat) : List (List Nat) := (List.range' first count).map ([·])

@[simp] theorem loaded_append (first second : List Instruction) :
    loaded (first ++ second) = loaded first ++ loaded second := by
  simp [loaded]

theorem loaded_singleton {i : Instruction} (other : i.op ≠ .constant) : loaded [i] = [] := by
  simp [loaded, other]

theorem consecutive_append (first count more : Nat) :
    consecutive first count ++ consecutive (first + count) more =
      consecutive first (count + more) := by
  simp [consecutive, ← List.map_append, List.range'_append_1]

theorem loaded_branchCode {code : List Instruction} (endsInPop : EndsInPop code) :
    loaded (branchCode code) = loaded code := by
  rcases endsInPop with rfl | ⟨front, rfl⟩
  · rfl
  · simp [branchCode, loaded_singleton (i := .plain .pop) (by decide)]

theorem UnaryOp.opCode_ne_constant (op : UnaryOp) : op.opCode ≠ .constant := by
  cases op <;> decide

theorem BinaryOp.opCode_ne_constant (op : BinaryOp) : op.opCode ≠ .constant := by
  cases op <;> decide

theorem loaded_operands {first second : List Instruction} {op : OpCode} {pool a b : Nat}
    (h : loaded first = consecutive pool a) (h' : loaded second = consecutive (pool + a) b)
    (other : op ≠ .constant) :
    loaded (first ++ second ++ [.plain op]) = consecutive pool (a + b) := by
  rw [loaded_append, loaded_append, loaded_singleton (i := .plain op) other, h, h', List.append_nil,
    consecutive_append]

mutual

/-- The loads of a translation are numbered as its constants are. -/
theorem Expr.loaded_translate (e : Expr) (start pool : Nat) :
    loaded (e.translate start pool) = consecutive pool e.literals.length := by
  match e with
  | .integer _ | .boolean true | .boolean false | .identifier _ | .string _ | .array _ | .hash _
  | .function _ _ | .index _ _ | .call _ _ => rfl
  | .unary op operand =>
    rw [Expr.translate, loaded_append, operand.loaded_translate,
      loaded_singleton (i := .plain op.opCode) op.opCode_ne_constant, List.append_nil,
      Expr.literals]
  | .binary op left right =>
    rw [Expr.translate, Expr.literals]
    split
    all_goals
      rw [List.length_append]
      exact loaded_operands (Expr.loaded_translate _ _ _) (Expr.loaded_translate _ _ _)
        op.opCode_ne_constant
  | .conditional condition consequence alternative =>
    simp only [Expr.translate, Expr.literals, loaded_append, List.length_append]
    rw [loaded_branchCode (Stmt.translateAll_endsInPop _ _ _), condition.loaded_translate,
      Stmt.loaded_translateAll, Stmt.loaded_translateElse,
      loaded_singleton (i := ⟨.jumpNotTruthy, _⟩) nofun,
      loaded_singleton (i := ⟨.jump, _⟩) nofun, List.append_nil, List.append_nil,
      consecutive_append, Nat.add_assoc pool, consecutive_append]

theorem Stmt.loaded_translate (s : Stmt) (start pool : Nat) :
    loaded (s.translate start pool) = consecutive pool s.literals.length := by
  match s with
  | .expression value =>
    rw [Stmt.translate, loaded_append, value.loaded_translate,
      loaded_singleton (i := .plain .pop) (by decide), List.append_nil, Stmt.literals]
  | .block body => exact Stmt.loaded_translateAll body start pool
  | .bind _ _ | .ret _ => rfl

theorem Stmt.loaded_translateAll (body : List Stmt) (start pool : Nat) :
    loaded (Stmt.translateAll body start pool) =
      consecutive pool (Stmt.literalsAll body).length := by
  match body with
  | [] => rfl
  | s :: rest =>
    rw [Stmt.translateAll, loaded_append, s.loaded_translate, Stmt.loaded_translateAll rest,
      consecutive_append, Stmt.literalsAll, List.length_append]

theorem Stmt.loaded_translateElse (alternative : Option (List Stmt)) (start pool : Nat) :
    loaded (Stmt.translateElse alternative start pool) =
      consecutive pool (Stmt.literalsElse alternative).length := by
  match alternative with
  | none => rfl
  | some body =>
    rw [Stmt.translateElse, loaded_branchCode (Stmt.translateAll_endsInPop _ _ _),
      Stmt.loaded_translateAll body, Stmt.literalsElse]

end

/-! ### What is added -/

/-- `c'` has these instructions and constants after those of `c`, and loads each of the new
constants once and in order. -/
structure Compiler.Adds (c c' : Compiler) (code : List Instruction) (constants : List Value) :
    Prop extends c.Emits c' code constants where
  numbered : loaded code = consecutive c.constants.size constants.length

/-- `c'` has what `c` has, and behind it whole instructions and the constants they load. -/
def Compiler.Extends (c c' : Compiler) : Prop := ∃ code constants, c.Adds c' code constants

namespace Compiler

variable {c c' c'' : Compiler} {first second : List Instruction} {ks ls : List Value}

theorem Adds.extends (h : c.Adds c' first ks) : c.Extends c' := ⟨_, _, h⟩

theorem Adds.refl (c : Compiler) : c.Adds c [] [] := ⟨.refl c, rfl⟩

theorem Adds.trans (h : c.Adds c' first ks) (h' : c'.Adds c'' second ls) :
    c.Adds c'' (first ++ second) (ks ++ ls) := by
  refine ⟨h.toEmits.trans h'.toEmits, ?_⟩
  rw [loaded_append, h.numbered, h'.numbered, h.pool, consecutive_append, List.length_append]

theorem Extends.refl (c : Compiler) : c.Extends c := (Adds.refl c).extends

theorem Extends.trans (h : c.Extends c') (h' : c'.Extends c'') : c.Extends c'' := by
  obtain ⟨_, _, added⟩ := h
  obtain ⟨_, _, added'⟩ := h'
  exact (added.trans added').extends

theorem Extends.size_le (h : c.Extends c') : c.code.size ≤ c'.code.size := by
  obtain ⟨_, _, added⟩ := h
  rw [added.size]
  exact Nat.le_add_right _ _

theorem Emits.adds_plain {i : Instruction} (h : c.Emits c' [i] []) (other : i.op ≠ .constant) :
    c.Adds c' [i] [] := ⟨h, loaded_singleton other⟩

theorem Adds.patch {op : OpCode} {jump : op.operandWidths = [2]} {position old : Nat}
    (plain : op ≠ .constant) (adds : c.Adds c' (first ++ [⟨op, [old]⟩] ++ second) ks)
    (place : position = c.code.size + totalWidth first)
    (h : patchJump op jump position c' = .ok () c'') :
    c.Adds c'' (first ++ [⟨op, [c'.code.size]⟩] ++ second) ks ∧ c''.last = c'.last := by
  obtain ⟨emits, last⟩ := adds.toEmits.patch plain place h
  refine ⟨⟨emits, ?_⟩, last⟩
  have numbered := adds.numbered
  rw [loaded_append, loaded_append, loaded_singleton (i := ⟨op, _⟩) plain] at numbered ⊢
  exact numbered

end Compiler

theorem patchJump_keeps {op : OpCode} {jump : op.operandWidths = [2]} {position : Nat}
    {c c' : Compiler} (h : patchJump op jump position c = .ok () c') :
    c'.code.size = c.code.size ∧ c'.last = c.last := by
  simp only [patchJump] at h
  split at h
  · cases h
    exact ⟨size_overwrite _ _ _, rfl⟩
  · cases h

theorem Expr.adds_of_compile {e : Expr} {c c' : Compiler} (h : e.compile c = .ok () c') :
    c.Adds c' (e.translate c.code.size c.constants.size) e.literals :=
  ⟨e.compile_eq_ok h, e.loaded_translate _ _⟩

theorem branch_adds {body : List Stmt} {c c' c'' : Compiler} (fresh : c.Fresh)
    (h : Stmt.compileAll body c = .ok () c') (kept : keepLastValue c' = .ok () c'') :
    c.Adds c'' (branchCode (Stmt.translateAll body c.code.size c.constants.size))
      (Stmt.literalsAll body) := by
  have block := Stmt.compileAll_eq_ok body h
  refine ⟨keepLastValue_eq_ok block fresh kept, ?_⟩
  rw [loaded_branchCode block.endsInPop, Stmt.loaded_translateAll]

/-! ### However a step ends -/

/-- The state that the step leaves, with or without an error, is one of these. -/
def EndsIn {α : Type} (P : Compiler → Prop) (step : Compile α) (c : Compiler) : Prop :=
  match step c with
  | .ok _ c' | .error _ c' => P c'

namespace EndsIn

variable {α β : Type} {P : Compiler → Prop} {c c' : Compiler}

theorem of_ok {step : Compile α} {a : α} (h : step c = .ok a c') (holds : P c') :
    EndsIn P step c := by
  rw [EndsIn, h]
  exact holds

theorem throw (e : CompileError) (holds : P c) :
    EndsIn P (MonadExcept.throw e : Compile α) c := holds

theorem bind {step : Compile α} {next : α → Compile β} (first : EndsIn P step c)
    (second : ∀ a m, step c = .ok a m → P m → EndsIn P (next a) m) :
    EndsIn P (step >>= next) c := by
  unfold EndsIn at first ⊢
  change match EStateM.bind step next c with
    | .ok _ c' | .error _ c' => P c'
  simp only [EStateM.bind]
  cases ended : step c with
  | ok a m =>
    rw [ended] at first
    exact second a m ended first
  | error e m =>
    rw [ended] at first
    exact first

theorem bind_ok {step : Compile α} {next : α → Compile β} {a : α} (h : step c = .ok a c')
    (second : EndsIn P (next a) c') : EndsIn P (step >>= next) c := by
  unfold EndsIn at second ⊢
  change match EStateM.bind step next c with
    | .ok _ c' | .error _ c' => P c'
  simpa only [EStateM.bind, h] using second

/-- What was added before counts too. -/
theorem after {step : Compile α} (before : c.Extends c') (h : EndsIn c'.Extends step c') :
    EndsIn c.Extends step c' := by
  unfold EndsIn at h ⊢
  cases ended : step c' with
  | ok a m | error e m =>
    rw [ended] at h
    exact before.trans h

end EndsIn

theorem emitPlain_extends {op : OpCode} (none : op.operandWidths = []) (decodable : op ≠ .sentinel)
    (c : Compiler) : EndsIn c.Extends (emitPlain op none) c := by
  obtain ⟨c', emitted⟩ := exists_emitPlain op none c
  have other : op ≠ .constant := by rintro rfl; cases none
  exact .of_ok emitted ((emitPlain_eq_ok decodable emitted).1.adds_plain other).extends

theorem exists_emitJump_adds (op : OpCode) (jump : op.operandWidths = [2]) (plain : op ≠ .constant)
    (c : Compiler) :
    ∃ c', emitJump op jump c = .ok c.code.size c' ∧ c.Adds c' [⟨op, [placeholder]⟩] [] ∧
      c'.Fresh := by
  obtain ⟨c', emitted, -, fresh⟩ := exists_emitJump op jump plain c
  exact ⟨c', emitted, (emitJump_eq_ok plain emitted).2.1.adds_plain plain, fresh⟩

theorem emitConstant_extends (constant : Value) (c : Compiler) :
    EndsIn c.Extends (emitConstant constant) c := by
  by_cases small : c.constants.size ≤ 65535
  · obtain ⟨c', emitted⟩ := exists_emitConstant constant small
    have adds : c.Adds c' [⟨.constant, [c.constants.size]⟩] [constant] :=
      ⟨emitConstant_eq_ok emitted, rfl⟩
    exact .of_ok emitted adds.extends
  · rw [EndsIn, emitConstant, dif_neg small]
    exact .refl c

theorem operands_extend {first second : Expr} {op : OpCode} {none : op.operandWidths = []}
    (h : ∀ c, EndsIn c.Extends first.compile c) (h' : ∀ c, EndsIn c.Extends second.compile c)
    (decodable : op ≠ .sentinel) (c : Compiler) :
    EndsIn c.Extends (do first.compile; second.compile; emitPlain op none : Compile Unit) c :=
  (h c).bind fun _ m _ extended => ((h' m).after extended).bind fun _ m' _ extended =>
    (emitPlain_extends none decodable m').after extended

theorem branch_extends {body : List Stmt} (enters : ∀ c, EndsIn c.Extends (Stmt.compileAll body) c)
    {c : Compiler} (fresh : c.Fresh) :
    EndsIn c.Extends (do Stmt.compileAll body; keepLastValue) c := by
  refine (enters c).bind fun _ m entered _ => ?_
  obtain ⟨c', kept⟩ := exists_keepLastValue m
  exact .of_ok kept (branch_adds fresh entered kept).extends

/-- A jump is patched inside of what was added, or not at all. -/
theorem patchJump_extends {op : OpCode} {jump : op.operandWidths = [2]} {position old : Nat}
    {c c' : Compiler} {first second : List Instruction} {ks : List Value} (plain : op ≠ .constant)
    (adds : c.Adds c' (first ++ [⟨op, [old]⟩] ++ second) ks)
    (place : position = c.code.size + totalWidth first) :
    EndsIn c.Extends (patchJump op jump position) c' := by
  by_cases small : c'.code.size ≤ 65535
  · obtain ⟨c'', patched, -⟩ := exists_patchJump op jump position small
    exact .of_ok patched (adds.patch plain place patched).1.extends
  · rw [EndsIn, patchJump, dif_neg small]
    exact adds.extends

theorem conditional_extends {condition : Expr} {consequence : List Stmt}
    {alternative : Option (List Stmt)} (tests : ∀ c, EndsIn c.Extends condition.compile c)
    (enters : ∀ c, EndsIn c.Extends (Stmt.compileAll consequence) c)
    (falls : ∀ {c : Compiler}, c.Fresh → EndsIn c.Extends (Stmt.compileElse alternative) c)
    (c : Compiler) :
    EndsIn c.Extends (Expr.conditional condition consequence alternative).compile c := by
  rw [Expr.compile_conditional]
  refine (tests c).bind fun _ c₁ tested _ => ?_
  have test := Expr.adds_of_compile tested
  obtain ⟨c₂, jumped, jump, fresh⟩ := exists_emitJump_adds .jumpNotTruthy rfl (by decide) c₁
  have entering := (test.trans jump).extends
  refine .bind_ok jumped (((enters c₂).after entering).bind fun _ c₃ entered _ => ?_)
  obtain ⟨c₄, kept⟩ := exists_keepLastValue c₃
  have branch := branch_adds fresh entered kept
  obtain ⟨c₅, left, leave, fresh⟩ := exists_emitJump_adds .jump rfl (by decide) c₄
  refine .bind_ok kept (.bind_ok left ?_)
  -- The first jump is patched before the other branch is emitted, the second one after it.
  have both := (test.trans jump).trans (branch.trans leave)
  refine (patchJump_extends (by decide) both test.size).bind fun _ c₆ patched _ => ?_
  obtain ⟨half, last⟩ := both.patch (by decide) test.size patched
  have falling : c₆.Fresh := fun position popped => fresh position (last.symm.trans popped)
  refine ((falls falling).after half.extends).bind fun _ c₇ otherwise _ => ?_
  obtain ⟨other, constants, added⟩ : c₆.Extends c₇ := by
    have ended := falls falling
    rwa [EndsIn, otherwise] at ended
  have whole := half.trans added
  rw [← List.append_assoc _ (branchCode _)] at whole
  have place := ((test.trans jump).trans branch).size
  exact patchJump_extends (by decide) whole (by simpa [Instruction.width] using place)

mutual

theorem Expr.compile_extends (e : Expr) (c : Compiler) : EndsIn c.Extends e.compile c := by
  match e with
  | .integer value => exact emitConstant_extends _ c
  | .boolean true | .boolean false => exact emitPlain_extends rfl (by decide) c
  | .unary op operand =>
    exact (operand.compile_extends c).bind fun _ m _ extended =>
      (emitPlain_extends op.operandWidths_opCode (by cases op <;> decide) m).after extended
  | .binary op left right =>
    have decodable : op.opCode ≠ .sentinel := by cases op <;> decide
    rw [Expr.compile]
    split
    · exact operands_extend (right.compile_extends ·) (left.compile_extends ·) decodable c
    · exact operands_extend (left.compile_extends ·) (right.compile_extends ·) decodable c
  | .conditional condition consequence alternative =>
    exact conditional_extends (condition.compile_extends ·) (Stmt.compileAll_extends consequence ·)
      (Stmt.compileElse_extends alternative ·) c
  | .identifier _ | .string _ | .array _ | .hash _ | .function _ _ | .index _ _ | .call _ _ =>
    exact .throw _ (.refl c)

theorem Stmt.compile_extends (s : Stmt) (c : Compiler) : EndsIn c.Extends s.compile c := by
  match s with
  | .expression value =>
    exact (value.compile_extends c).bind fun _ m _ extended =>
      (emitPlain_extends rfl (by decide) m).after extended
  | .block body => exact Stmt.compileAll_extends body c
  | .bind _ _ | .ret _ => exact .throw _ (.refl c)

theorem Stmt.compileAll_extends (body : List Stmt) (c : Compiler) :
    EndsIn c.Extends (Stmt.compileAll body) c := by
  match body with
  | [] => exact Compiler.Extends.refl c
  | s :: rest =>
    exact (s.compile_extends c).bind fun _ m _ extended =>
      (Stmt.compileAll_extends rest m).after extended

theorem Stmt.compileElse_extends (alternative : Option (List Stmt)) {c : Compiler}
    (fresh : c.Fresh) : EndsIn c.Extends (Stmt.compileElse alternative) c := by
  match alternative with
  | none => exact emitPlain_extends OpCode.operandWidths_pushNull (by decide) c
  | some body => exact branch_extends (Stmt.compileAll_extends body ·) fresh

end

end MonkeyLanguage
