import MonkeyLanguage.Proofs.Compiler.Emission

/-!
# Compiling one program after another

A compiler that has compiled other programs, or has failed on them, appends to what is there. What
it appends for a program that compiles is the translation of the program for that place.
-/

namespace MonkeyLanguage

/-- The first jump of a conditional leads right behind the second one, and that right behind the
other branch. -/
theorem Expr.translate_conditional (condition : Expr) (consequence : List Stmt)
    (alternative : Option (List Stmt)) (start pool : Nat) :
    ∃ test branch other outside stop,
      (Expr.conditional condition consequence alternative).translate start pool =
        test ++ [⟨.jumpNotTruthy, [outside]⟩] ++ branch ++ [⟨.jump, [stop]⟩] ++ other ∧
      test = condition.translate start pool ∧
      branch = branchCode (Stmt.translateAll consequence (start + totalWidth test + 3)
        (pool + condition.literals.length)) ∧
      other = Stmt.translateElse alternative outside
        (pool + condition.literals.length + (Stmt.literalsAll consequence).length) ∧
      outside = start + totalWidth test + 3 + totalWidth branch + 3 ∧
      stop = outside + totalWidth other := by
  refine ⟨_, _, _, _, _, rfl, rfl, ?_, rfl, ?_, ?_⟩
  · rw [condition.totalWidth_translate]
  · rw [condition.totalWidth_translate,
      totalWidth_branchCode (Stmt.translateAll_endsInPop consequence _ _),
      Stmt.totalWidth_translateAll]
  · rw [Stmt.totalWidth_translateElse]

/-- Whatever a compiler has been through, a program that compiles is appended as its translation
for the place where the code ends and for the constants that are there. -/
theorem Compiler.add_appends_translation {c c' : Compiler} {program : Program}
    (h : c.add program = (.ok (), c')) :
    c'.code.toList =
        c.code.toList ++ assemble (Stmt.translateAll program c.code.size c.constants.size) ∧
      c'.constants.toList = c.constants.toList ++ Stmt.literalsAll program := by
  have compiled : Stmt.compileAll program c = .ok () c' := by
    unfold Compiler.add at h
    split at h
    · rename_i done
      obtain ⟨-, rfl⟩ := Prod.mk.inj h
      exact done
    · simp at h
  have emits := Stmt.compileAll_eq_ok program compiled
  exact ⟨emits.emitted, emits.added⟩

/-- The program `if (true) { 7; x }`, which fails after the first statement of its branch. -/
def unfinished : Program :=
  [.expression (.conditional (.boolean true)
    [.expression (.integer 7), .expression (.identifier "x")] none)]

/-- What is left of it: a jump without its target, and a pop as the last instruction. -/
def unfinishedCompiler : Compiler :=
  ⟨#[5, 14, 39, 15, 0, 0, 0, 12], #[.integer 7], some ⟨.pop, 7⟩, some ⟨.constant, 4⟩⟩

theorem Compiler.add_appends_translation_unfinished :
    Compiler.empty.add unfinished =
        (.error (.unsupportedNode "identifier"), unfinishedCompiler) ∧
      ∃ c', unfinishedCompiler.add choice = (.ok (), c') ∧
      c'.code.toList = unfinishedCompiler.code.toList ++
        assemble [⟨.constant, [1]⟩, ⟨.constant, [2]⟩, .plain .greaterThan,
          ⟨.jumpNotTruthy, [24]⟩, ⟨.constant, [3]⟩, ⟨.jump, [25]⟩, .plain .pushTrue,
          .plain .pop] ∧
      c'.constants.toList = [.integer 7, .integer 2, .integer 1, .integer 10] := by
  obtain ⟨c', added⟩ : ∃ c', unfinishedCompiler.add choice = (.ok (), c') := by
    simp [Compiler.add, choice, unfinishedCompiler, Stmt.compileAll, Stmt.compile, Expr.compile,
      bind, EStateM.bind, pure, EStateM.pure, emitConstant, emitJump, emitPlain, emit,
      keepLastValue, patchJump, overwrite, placeholder, encode, encodeOperands, bigEndian,
      OpCode.operandWidths, OpCode.byte, BinaryOp.opCode]
  obtain ⟨code, constants⟩ := Compiler.add_appends_translation added
  exact ⟨rfl, c', added, code, constants⟩

end MonkeyLanguage
