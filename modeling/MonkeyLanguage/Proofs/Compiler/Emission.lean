import MonkeyLanguage.Machine.Basic
import MonkeyLanguage.Proofs.Compiler.Translation
import MonkeyLanguage.Proofs.Syntax.Every

/-!
# What the compiler emits

A compilation that succeeds appends the translation of its program: placeholders are patched with
the targets that the translation has from the start, and the pop that ends a branch is taken back.
-/

namespace MonkeyLanguage

/-! ### Steps of the compiler -/

theorem bind_eq_ok {ε σ α β : Type} {x : EStateM ε σ α} {f : α → EStateM ε σ β} {s t : σ} {b : β} :
    (x >>= f) s = .ok b t ↔ ∃ a m, x s = .ok a m ∧ f a m = .ok b t := by
  simp only [bind, EStateM.bind]
  cases x s with
  | ok a m => simp [and_assoc]
  | error e m => simp

theorem throw_ne_ok {ε σ α : Type} {e : ε} {s t : σ} {a : α} :
    (throw e : EStateM ε σ α) s ≠ .ok a t := by
  intro h
  cases h

/-- `c'` has these instructions and constants after those of `c`. -/
structure Compiler.Emits (c c' : Compiler) (code : List Instruction) (constants : List Value) :
    Prop where
  emitted : c'.code.toList = c.code.toList ++ assemble code
  added : c'.constants.toList = c.constants.toList ++ constants
  wellFormed : ∀ i ∈ code, i.WellFormed
  loads : ∀ i ∈ code, i.LoadsBelow c'.constants.size

namespace Compiler.Emits

variable {c c' c'' : Compiler} {first second : List Instruction} {ks ls : List Value}

theorem refl (c : Compiler) : Emits c c [] [] := ⟨by simp, by simp, by simp, by simp⟩

theorem size (h : Emits c c' first ks) : c'.code.size = c.code.size + totalWidth first := by
  have same := congrArg List.length h.emitted
  simpa using same

theorem pool (h : Emits c c' first ks) : c'.constants.size = c.constants.size + ks.length := by
  have same := congrArg List.length h.added
  simpa using same

theorem trans (h : Emits c c' first ks) (h' : Emits c' c'' second ls) :
    Emits c c'' (first ++ second) (ks ++ ls) := by
  refine ⟨by rw [h'.emitted, h.emitted, assemble_append, List.append_assoc],
    by rw [h'.added, h.added, List.append_assoc], ?_, ?_⟩
  · intro i member
    exact (List.mem_append.1 member).elim (h.wellFormed i) (h'.wellFormed i)
  · intro i member load n operand
    rcases List.mem_append.1 member with member | member
    · have below := h.loads i member load n operand
      have grown := h'.pool
      omega
    · exact h'.loads i member load n operand

end Compiler.Emits

theorem emit_eq_ok {op : OpCode} {operands : List Nat} {fits : op.Fits operands}
    {c c' : Compiler} {position : Nat} (wellFormed : (Instruction.mk op operands).WellFormed)
    (plain : op ≠ .constant) (h : emit op operands fits c = .ok position c') :
    position = c.code.size ∧ c.Emits c' [⟨op, operands⟩] [] ∧
      c'.last = some ⟨op, c.code.size⟩ := by
  simp only [emit, EStateM.Result.ok.injEq] at h
  obtain ⟨rfl, rfl⟩ := h
  exact ⟨rfl, ⟨by simp [encode_eq_bytes], by simp, by simpa using wellFormed,
    by simp [Instruction.LoadsBelow, plain]⟩, rfl⟩

theorem emitPlain_eq_ok {op : OpCode} {none : op.operandWidths = []} {c c' : Compiler}
    (decodable : op ≠ .sentinel) (h : emitPlain op none c = .ok () c') :
    c.Emits c' [.plain op] [] ∧ c'.last = some ⟨op, c.code.size⟩ := by
  obtain ⟨position, m, emitted, same⟩ := bind_eq_ok.1 h
  cases same
  exact (emit_eq_ok (Instruction.wellFormed_plain none decodable)
    (by rintro rfl; simp [OpCode.operandWidths] at none) emitted).2

theorem emitJump_eq_ok {op : OpCode} {jump : op.operandWidths = [2]} {c c' : Compiler}
    {position : Nat} (plain : op ≠ .constant) (h : emitJump op jump c = .ok position c') :
    position = c.code.size ∧ c.Emits c' [⟨op, [placeholder]⟩] [] ∧
      c'.last = some ⟨op, c.code.size⟩ :=
  emit_eq_ok (Instruction.wellFormed_word jump (by decide)) plain h

theorem emitConstant_eq_ok {constant : Value} {c c' : Compiler}
    (h : emitConstant constant c = .ok () c') :
    c.Emits c' [⟨.constant, [c.constants.size]⟩] [constant] := by
  simp only [emitConstant] at h
  split at h
  · rename_i small
    simp only [emit, EStateM.Result.ok.injEq, true_and] at h
    subst h
    refine ⟨?_, by simp, by simpa using Instruction.wellFormed_word rfl small,
      by simp [Instruction.LoadsBelow]⟩
    simp only [assemble_cons, assemble_nil, List.append_nil, Array.toList_appendList]
    rfl
  · simp at h

/-! ### Patching -/

theorem toList_overwrite {front old back new : List UInt8} {code : Code}
    (stands : code.toList = front ++ old ++ back) (same : new.length = old.length) :
    (overwrite code front.length new).toList = front ++ new ++ back := by
  induction new generalizing front old code with
  | nil =>
    obtain rfl := List.length_eq_zero_iff.1 same.symm
    simpa [overwrite] using stands
  | cons b new ih =>
    cases old with
    | nil => simp at same
    | cons a old =>
      have moved : (code.setIfInBounds front.length b).toList = (front ++ [b]) ++ old ++ back := by
        simp [Array.toList_setIfInBounds, stands]
      have rest := ih moved (by simpa using same)
      simpa [overwrite] using rest

/-- A patched jump leads to the end of the code; nothing else changes. -/
theorem Compiler.Emits.patch {op : OpCode} {jump : op.operandWidths = [2]} {position old : Nat}
    {c c' c'' : Compiler} {first second : List Instruction} {constants : List Value}
    (plain : op ≠ .constant)
    (emits : c.Emits c' (first ++ [⟨op, [old]⟩] ++ second) constants)
    (place : position = c.code.size + totalWidth first)
    (h : patchJump op jump position c' = .ok () c'') :
    c.Emits c'' (first ++ [⟨op, [c'.code.size]⟩] ++ second) constants ∧ c''.last = c'.last := by
  simp only [patchJump] at h
  split at h
  · rename_i small
    simp only [EStateM.Result.ok.injEq, true_and] at h
    subst h
    have others : ∀ i ∈ first ++ [⟨op, [c'.code.size]⟩] ++ second,
        i = ⟨op, [c'.code.size]⟩ ∨ i ∈ first ++ [⟨op, [old]⟩] ++ second := by
      intro i member
      simp only [List.mem_append, List.mem_singleton] at member ⊢
      rcases member with (member | same) | member
      · exact Or.inr (Or.inl (Or.inl member))
      · exact Or.inl same
      · exact Or.inr (Or.inr member)
    refine ⟨⟨?_, emits.added, ?_, ?_⟩, rfl⟩
    · have front : position = (c.code.toList ++ assemble first).length := by simp [place]
      have stands : c'.code.toList = (c.code.toList ++ assemble first) ++
          (Instruction.mk op [old]).bytes ++ assemble second := by simp [emits.emitted]
      simp only [encode_eq_bytes, front]
      rw [toList_overwrite stands (by simp [Instruction.bytes_word jump])]
      simp
    · intro i member
      rcases others i member with rfl | member
      · exact Instruction.wellFormed_word jump small
      · exact emits.wellFormed i member
    · intro i member
      rcases others i member with rfl | member
      · exact fun load => absurd load plain
      · exact emits.loads i member
  · simp at h

/-! ### Branches -/

/-- Code that ends in a pop was emitted, and the pop is known as the last instruction; or nothing
was emitted at all. -/
structure Compiler.EmitsBlock (c c' : Compiler) (code : List Instruction)
    (constants : List Value) : Prop extends c.Emits c' code constants where
  endsInPop : EndsInPop code
  last : if code = [] then c'.last = c.last else c'.last = some ⟨.pop, c'.code.size - 1⟩

theorem Compiler.EmitsBlock.trans {c c' c'' : Compiler} {first second : List Instruction}
    {ks ls : List Value} (h : c.EmitsBlock c' first ks) (h' : c'.EmitsBlock c'' second ls) :
    c.EmitsBlock c'' (first ++ second) (ks ++ ls) := by
  refine ⟨h.toEmits.trans h'.toEmits, h.endsInPop.append h'.endsInPop, ?_⟩
  have last := h.last
  have last' := h'.last
  by_cases empty : second = []
  · have size := h'.size
    simp only [empty, if_true, totalWidth_nil, Nat.add_zero, List.append_nil] at last' size ⊢
    rwa [last', size]
  · simpa [empty] using last'

/-- After a branch its value is on the stack. -/
theorem keepLastValue_eq_ok {c c' c'' : Compiler} {code : List Instruction}
    {constants : List Value} (block : c.EmitsBlock c' code constants)
    (fresh : ∀ position, c.last ≠ some ⟨.pop, position⟩)
    (h : keepLastValue c' = .ok () c'') : c.Emits c'' (branchCode code) constants := by
  have last := block.last
  rcases block.endsInPop with rfl | ⟨front, rfl⟩
  · rw [if_pos rfl] at last
    have emitted : emitPlain .pushNull rfl c' = .ok () c'' := by
      unfold keepLastValue at h
      split at h
      · rename_i position popped
        exact absurd (last.symm.trans popped) (fresh position)
      · exact h
    have null := block.toEmits.trans (emitPlain_eq_ok (by decide) emitted).1
    simpa [branchCode] using null
  · rw [if_neg (by simp)] at last
    simp only [keepLastValue, last, EStateM.Result.ok.injEq, true_and] at h
    subst h
    have emitted := block.emitted
    have size := block.size
    simp only [totalWidth_append, totalWidth_cons, totalWidth_nil, Instruction.width_plain_pop]
      at size
    have fewer : ∀ i ∈ branchCode (front ++ [.plain .pop]), i ∈ front ++ [.plain .pop] := by
      intro i member
      simp only [branchCode] at member
      simp_all
    refine ⟨?_, block.added, fun i member => block.wellFormed i (fewer i member),
      fun i member => block.loads i (fewer i member)⟩
    have kept : c'.code.size - 1 = (c.code.toList ++ assemble front).length := by
      simp only [List.length_append, Array.length_toList, length_assemble]
      omega
    simp only [Array.toList_shrink, emitted, branchCode, kept]
    simp [← List.append_assoc]

/-! ### Trees -/

theorem OpCode.operandWidths_pushNull : OpCode.pushNull.operandWidths = [] := rfl

/-- Code for the case that the condition of an `if` fails. -/
def Stmt.compileElse : Option (List Stmt) → Compile Unit
  | none => emitPlain .pushNull OpCode.operandWidths_pushNull
  | some body => do
    Stmt.compileAll body
    keepLastValue

theorem Expr.compile_conditional (condition : Expr) (consequence : List Stmt)
    (alternative : Option (List Stmt)) :
    (Expr.conditional condition consequence alternative).compile = (do
      condition.compile
      let toAlternative ← emitJump .jumpNotTruthy rfl
      Stmt.compileAll consequence
      keepLastValue
      let toEnd ← emitJump .jump rfl
      patchJump .jumpNotTruthy rfl toAlternative
      Stmt.compileElse alternative
      patchJump .jump rfl toEnd) := by
  cases alternative with
  | none => simp only [Expr.compile, Stmt.compileElse]
  | some body => simp only [Expr.compile, Stmt.compileElse, bind_assoc]

/-- Compilation, where it succeeds, emits the translation. -/
def Expr.EmitsTranslation (e : Expr) : Prop :=
  ∀ {c c' : Compiler}, e.compile c = .ok () c' →
    c.Emits c' (e.translate c.code.size c.constants.size) e.literals

def Stmt.AllEmitTranslation (body : List Stmt) : Prop :=
  ∀ {c c' : Compiler}, Stmt.compileAll body c = .ok () c' →
    c.EmitsBlock c' (Stmt.translateAll body c.code.size c.constants.size) (Stmt.literalsAll body)

theorem operands_emit {first second : Expr} {op : OpCode} (plain : op.operandWidths = [])
    (decodable : op ≠ .sentinel) (emits : first.EmitsTranslation)
    (emits' : second.EmitsTranslation) {c c' : Compiler}
    (h : (do first.compile; second.compile; emitPlain op plain : Compile Unit) c = .ok () c') :
    c.Emits c' (first.translate c.code.size c.constants.size ++
      second.translate (c.code.size + first.size) (c.constants.size + first.literals.length) ++
        [.plain op]) (first.literals ++ second.literals) := by
  obtain ⟨⟨⟩, m, compiled, h⟩ := bind_eq_ok.1 h
  obtain ⟨⟨⟩, m', compiled', last⟩ := bind_eq_ok.1 h
  have a := emits compiled
  have b := emits' compiled'
  rw [a.size, a.pool, first.totalWidth_translate] at b
  have operator := (emitPlain_eq_ok decodable last).1
  simpa using (a.trans b).trans operator

theorem conditional_emits {condition : Expr} {consequence : List Stmt}
    {alternative : Option (List Stmt)} (tests : condition.EmitsTranslation)
    (enters : Stmt.AllEmitTranslation consequence)
    (falls : ∀ {c c' : Compiler}, (∀ position, c.last ≠ some ⟨.pop, position⟩) →
      Stmt.compileElse alternative c = .ok () c' →
      c.Emits c' (Stmt.translateElse alternative c.code.size c.constants.size)
        (Stmt.literalsElse alternative)) :
    (Expr.conditional condition consequence alternative).EmitsTranslation := by
  intro c c' h
  rw [Expr.compile_conditional] at h
  obtain ⟨⟨⟩, c₁, tested, h⟩ := bind_eq_ok.1 h
  obtain ⟨toAlternative, c₂, jumped, h⟩ := bind_eq_ok.1 h
  obtain ⟨⟨⟩, c₃, entered, h⟩ := bind_eq_ok.1 h
  obtain ⟨⟨⟩, c₄, kept, h⟩ := bind_eq_ok.1 h
  obtain ⟨toEnd, c₅, left, h⟩ := bind_eq_ok.1 h
  obtain ⟨⟨⟩, c₆, patched, h⟩ := bind_eq_ok.1 h
  obtain ⟨⟨⟩, c₇, otherwise, finished⟩ := bind_eq_ok.1 h
  have test := tests tested
  obtain ⟨rfl, jump, last⟩ := emitJump_eq_ok (by decide) jumped
  have branch := keepLastValue_eq_ok (enters entered)
    (by simp [last]) kept
  obtain ⟨rfl, leave, last'⟩ := emitJump_eq_ok (by decide) left
  -- The first jump is patched before the other branch is emitted, the second one after it.
  have both := (test.trans jump).trans (branch.trans leave)
  obtain ⟨half, last⟩ := both.patch (by decide) test.size patched
  have other := falls (by simp [last, last']) otherwise
  have whole := half.trans other
  have inside : c₂.code.size = c.code.size + condition.size + 3 := by
    rw [jump.size, test.size, condition.totalWidth_translate]; rfl
  have poolInside : c₂.constants.size = c.constants.size + condition.literals.length := by
    rw [jump.pool, test.pool]; rfl
  have kept : c₄.code.size = c₂.code.size + branchSize (Stmt.sizeAll consequence) := by
    rw [branch.size, totalWidth_branchCode (Stmt.translateAll_endsInPop _ _ _),
      Stmt.totalWidth_translateAll]
  have outside : c₅.code.size = c₄.code.size + 3 := leave.size
  have same : c₆.code.size = c₅.code.size := by
    rw [half.size, both.size]
    simp only [totalWidth_append, totalWidth_cons]; rfl
  have poolOutside : c₆.constants.size =
      c₂.constants.size + (Stmt.literalsAll consequence).length := by
    rw [half.pool, poolInside]; simp; omega
  have ends : c₇.code.size = c₆.code.size + Stmt.sizeElse alternative := by
    rw [other.size, Stmt.totalWidth_translateElse]
  rw [← List.append_assoc _ (branchCode _)] at whole
  have place := ((test.trans jump).trans branch).size
  obtain ⟨done, -⟩ := whole.patch (by decide) (by simpa [Instruction.width] using place) finished
  rw [ends, poolOutside, same, outside, kept, inside, poolInside] at done
  simpa [Expr.translate, Expr.literals] using done

mutual

theorem Expr.compile_eq_ok (e : Expr) {c c' : Compiler} (h : e.compile c = .ok () c') :
    c.Emits c' (e.translate c.code.size c.constants.size) e.literals := by
  match e with
  | .integer value => exact emitConstant_eq_ok (by simpa only [Expr.compile] using h)
  | .boolean true | .boolean false =>
    exact (emitPlain_eq_ok (by decide) (by simpa only [Expr.compile] using h)).1
  | .unary op operand =>
    simp only [Expr.compile] at h
    obtain ⟨⟨⟩, m, first, last⟩ := bind_eq_ok.1 h
    simpa [Expr.translate, Expr.literals] using
      (operand.compile_eq_ok first).trans (emitPlain_eq_ok (by cases op <;> decide) last).1
  | .binary op left right =>
    have plain : op.opCode.operandWidths = [] := by cases op <;> rfl
    have decodable : op.opCode ≠ .sentinel := by cases op <;> decide
    simp only [Expr.compile] at h
    by_cases less : op = .lessThan
    · rw [if_pos less] at h
      have emits := operands_emit plain decodable (right.compile_eq_ok ·) (left.compile_eq_ok ·) h
      simpa [Expr.translate, Expr.literals, less] using emits
    · rw [if_neg less] at h
      have emits := operands_emit plain decodable (left.compile_eq_ok ·) (right.compile_eq_ok ·) h
      simpa [Expr.translate, Expr.literals, less] using emits
  | .conditional condition consequence alternative =>
    exact conditional_emits (condition.compile_eq_ok ·) (Stmt.compileAll_eq_ok consequence ·)
      (Stmt.compileElse_eq_ok alternative · ·) h
  | .identifier _ | .string _ | .array _ | .hash _ | .function _ _ | .index _ _ | .call _ _ =>
    simp only [Expr.compile] at h
    exact absurd h throw_ne_ok

theorem Stmt.compile_eq_ok (s : Stmt) {c c' : Compiler} (h : s.compile c = .ok () c') :
    c.EmitsBlock c' (s.translate c.code.size c.constants.size) s.literals := by
  match s with
  | .expression value =>
    simp only [Stmt.compile] at h
    obtain ⟨⟨⟩, m, first, last⟩ := bind_eq_ok.1 h
    obtain ⟨pop, last⟩ := emitPlain_eq_ok (by decide) last
    have emits := (value.compile_eq_ok first).trans pop
    refine ⟨by simpa [Stmt.translate, Stmt.literals] using emits,
      Stmt.translate_endsInPop _ _ _, ?_⟩
    have size := pop.size
    simp only [totalWidth_cons, totalWidth_nil, Instruction.width_plain_pop] at size
    simp [Stmt.translate, last, size]
  | .block body =>
    simp only [Stmt.compile] at h
    simpa only [Stmt.translate, Stmt.literals] using Stmt.compileAll_eq_ok body h
  | .bind _ _ | .ret _ =>
    simp only [Stmt.compile] at h
    exact absurd h throw_ne_ok

theorem Stmt.compileAll_eq_ok (body : List Stmt) {c c' : Compiler}
    (h : Stmt.compileAll body c = .ok () c') :
    c.EmitsBlock c' (Stmt.translateAll body c.code.size c.constants.size)
      (Stmt.literalsAll body) := by
  match body with
  | [] =>
    simp only [Stmt.compileAll] at h
    cases h
    exact ⟨.refl c, Stmt.translateAll_endsInPop _ _ _, by simp [Stmt.translateAll]⟩
  | s :: rest =>
    simp only [Stmt.compileAll] at h
    obtain ⟨⟨⟩, m, first, second⟩ := bind_eq_ok.1 h
    have a := s.compile_eq_ok first
    have b := Stmt.compileAll_eq_ok rest second
    rw [a.size, a.pool, s.totalWidth_translate] at b
    simpa only [Stmt.translateAll, Stmt.literalsAll] using a.trans b

theorem Stmt.compileElse_eq_ok (alternative : Option (List Stmt)) {c c' : Compiler}
    (fresh : ∀ position, c.last ≠ some ⟨.pop, position⟩)
    (h : Stmt.compileElse alternative c = .ok () c') :
    c.Emits c' (Stmt.translateElse alternative c.code.size c.constants.size)
      (Stmt.literalsElse alternative) := by
  match alternative with
  | none =>
    have emitted : emitPlain .pushNull rfl c = .ok () c' := h
    exact (emitPlain_eq_ok (by decide) emitted).1
  | some body =>
    simp only [Stmt.compileElse] at h
    obtain ⟨⟨⟩, m, first, kept⟩ := bind_eq_ok.1 h
    exact keepLastValue_eq_ok (Stmt.compileAll_eq_ok body first) fresh kept

end

/-! ### Whole programs -/

mutual

theorem Expr.isCompilable_of_compile (e : Expr) {c c' : Compiler} (h : e.compile c = .ok () c') :
    e.Every Expr.IsCompilable Stmt.IsCompilable := by
  match e with
  | .integer _ | .boolean _ => trivial
  | .unary op operand =>
    simp only [Expr.compile] at h
    obtain ⟨⟨⟩, m, first, -⟩ := bind_eq_ok.1 h
    exact ⟨trivial, operand.isCompilable_of_compile first⟩
  | .binary op left right =>
    simp only [Expr.compile] at h
    split at h
    all_goals
      obtain ⟨⟨⟩, m, first, h⟩ := bind_eq_ok.1 h
      obtain ⟨⟨⟩, m', second, -⟩ := bind_eq_ok.1 h
    · exact ⟨trivial, left.isCompilable_of_compile second, right.isCompilable_of_compile first⟩
    · exact ⟨trivial, left.isCompilable_of_compile first, right.isCompilable_of_compile second⟩
  | .conditional condition consequence alternative =>
    rw [Expr.compile_conditional] at h
    obtain ⟨⟨⟩, c₁, tested, h⟩ := bind_eq_ok.1 h
    obtain ⟨_, c₂, -, h⟩ := bind_eq_ok.1 h
    obtain ⟨⟨⟩, c₃, entered, h⟩ := bind_eq_ok.1 h
    obtain ⟨⟨⟩, c₄, -, h⟩ := bind_eq_ok.1 h
    obtain ⟨_, c₅, -, h⟩ := bind_eq_ok.1 h
    obtain ⟨⟨⟩, c₆, -, h⟩ := bind_eq_ok.1 h
    obtain ⟨⟨⟩, c₇, otherwise, -⟩ := bind_eq_ok.1 h
    exact ⟨trivial, condition.isCompilable_of_compile tested,
      Stmt.isCompilable_of_compileAll consequence entered,
      Stmt.isCompilable_of_compileElse alternative otherwise⟩
  | .identifier _ | .string _ | .array _ | .hash _ | .function _ _ | .index _ _ | .call _ _ =>
    simp only [Expr.compile] at h
    exact absurd h throw_ne_ok

theorem Stmt.isCompilable_of_compile (s : Stmt) {c c' : Compiler} (h : s.compile c = .ok () c') :
    s.Every Expr.IsCompilable Stmt.IsCompilable := by
  match s with
  | .expression value =>
    simp only [Stmt.compile] at h
    obtain ⟨⟨⟩, m, first, -⟩ := bind_eq_ok.1 h
    exact ⟨trivial, value.isCompilable_of_compile first⟩
  | .block body =>
    simp only [Stmt.compile] at h
    exact ⟨trivial, Stmt.isCompilable_of_compileAll body h⟩
  | .bind _ _ | .ret _ =>
    simp only [Stmt.compile] at h
    exact absurd h throw_ne_ok

theorem Stmt.isCompilable_of_compileAll (body : List Stmt) {c c' : Compiler}
    (h : Stmt.compileAll body c = .ok () c') :
    Stmt.EveryIn Expr.IsCompilable Stmt.IsCompilable body := by
  match body with
  | [] => trivial
  | s :: rest =>
    simp only [Stmt.compileAll] at h
    obtain ⟨⟨⟩, m, first, second⟩ := bind_eq_ok.1 h
    exact ⟨s.isCompilable_of_compile first, Stmt.isCompilable_of_compileAll rest second⟩

theorem Stmt.isCompilable_of_compileElse (alternative : Option (List Stmt)) {c c' : Compiler}
    (h : Stmt.compileElse alternative c = .ok () c') :
    Stmt.EveryElse Expr.IsCompilable Stmt.IsCompilable alternative := by
  match alternative with
  | none => trivial
  | some body =>
    simp only [Stmt.compileElse] at h
    obtain ⟨⟨⟩, m, first, -⟩ := bind_eq_ok.1 h
    exact Stmt.isCompilable_of_compileAll body first

end

structure Bytecode.Translates (bytecode : Bytecode) (program : Program) : Prop where
  code : bytecode.code.toList = assemble (Stmt.translateAll program 0 0)
  constants : bytecode.constants.toList = Stmt.literalsAll program
  wellFormed : ∀ i ∈ Stmt.translateAll program 0 0, i.WellFormed
  loads : ∀ i ∈ Stmt.translateAll program 0 0, i.LoadsBelow bytecode.constants.size
  compilable : Stmt.EveryIn Expr.IsCompilable Stmt.IsCompilable program

theorem translates_of_compile {program : Program} {bytecode : Bytecode}
    (h : compile program = .ok bytecode) : bytecode.Translates program := by
  unfold compile at h
  split at h
  · rename_i c compiled
    simp only [Except.ok.injEq] at h
    subst h
    have emits := Stmt.compileAll_eq_ok program compiled
    exact ⟨by simpa [Compiler.empty, Compiler.bytecode] using emits.emitted,
      by simpa [Compiler.empty, Compiler.bytecode] using emits.added,
      emits.wellFormed, emits.loads, Stmt.isCompilable_of_compileAll program compiled⟩
  · simp at h

/-- The program `if (1 < 2) { 10 } else { true }`. -/
def choice : Program :=
  [.expression (.conditional (.binary .lessThan (.integer 1) (.integer 2))
    [.expression (.integer 10)] (some [.expression (.boolean true)]))]

def choiceCode : Bytecode :=
  ⟨#[0, 0, 0, 0, 0, 1, 9, 14, 0, 16, 0, 0, 2, 13, 0, 17, 5, 12],
    #[.integer 2, .integer 1, .integer 10]⟩

theorem compile_choice : compile choice = .ok choiceCode := by
  simp [compile, choice, choiceCode, Stmt.compileAll, Stmt.compile, Expr.compile, bind,
    EStateM.bind, pure, EStateM.pure, emitConstant, emitJump, emitPlain, emit, keepLastValue,
    patchJump, overwrite, placeholder, encode, encodeOperands, bigEndian, OpCode.operandWidths,
    OpCode.byte, BinaryOp.opCode, Compiler.empty, Compiler.bytecode]

theorem Machine.run_choice :
    ∃ m, run choiceCode 8 .initial = (.halted, m) ∧ m.stack.lastPopped = .integer 10 :=
  ⟨_, rfl, rfl⟩

end MonkeyLanguage
