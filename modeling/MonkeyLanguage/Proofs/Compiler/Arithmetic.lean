import Mathlib.Algebra.Group.Nat.Defs
import MonkeyLanguage.Proofs.Compiler.Outcome

/-!
# Arithmetic is exact modulo 2^64

Expressions of numbers, signs, sums, differences and products have a value among the integers. Both
engines reckon in 64 bits and wrap around at every operator, which comes to the same as reducing the
integer once at the end: `Int64.ofInt` respects the operators.
-/

namespace MonkeyLanguage

inductive Arithmetic where
  | literal (n : Int64)
  | negation (a : Arithmetic)
  | sum (a b : Arithmetic)
  | difference (a b : Arithmetic)
  | product (a b : Arithmetic)

namespace Arithmetic

def expr : Arithmetic → Expr
  | literal n => .integer n
  | negation a => .unary .negate a.expr
  | sum a b => .binary .plus a.expr b.expr
  | difference a b => .binary .minus a.expr b.expr
  | product a b => .binary .multiply a.expr b.expr

/-- The value of the whole tree among the integers, however large it is. -/
def value : Arithmetic → Int
  | literal n => n.toInt
  | negation a => -a.value
  | sum a b => a.value + b.value
  | difference a b => a.value - b.value
  | product a b => a.value * b.value

/-- The value reduced once. -/
def word (a : Arithmetic) : Int64 := Int64.ofInt a.value

theorem toInt_word (a : Arithmetic) : a.word.toInt = a.value.bmod (2 ^ 64) := Int64.toInt_ofInt

/-! ### Wrapping at every step -/

section

variable (a b : Arithmetic)

theorem word_literal (n : Int64) : (literal n).word = n := Int64.ofInt_toInt n

theorem word_negation : (negation a).word = -a.word := Int64.ofInt_neg _

theorem word_sum : (sum a b).word = a.word + b.word := Int64.ofInt_add _ _

theorem word_difference : (difference a b).word = a.word - b.word := Int64.ofInt_sub _ _

theorem word_product : (product a b).word = a.word * b.word := Int64.ofInt_mul _ _

end

/-! ### Evaluation -/

theorem eval_expr (a : Arithmetic) (call : Call) (scope : Scope) :
    a.expr.eval call scope = pure (.integer a.word) := by
  induction a with
  | literal n => rw [word_literal]; rfl
  | negation a ih => rw [word_negation, expr, Expr.eval, ih]; rfl
  | sum a b iha ihb => rw [word_sum, expr, Expr.eval, iha, ihb]; rfl
  | difference a b iha ihb => rw [word_difference, expr, Expr.eval, iha, ihb]; rfl
  | product a b iha ihb => rw [word_product, expr, Expr.eval, iha, ihb]; rfl

/-! ### The machine -/

/-- The value is computed, unless there is no room for it. -/
def Comes (value : Value) (outcome : Except RuntimeError Value) : Prop :=
  outcome = .ok value ∨ outcome = .error .stackOverflow

theorem Comes.bind {first last : Value} {outcome : Except RuntimeError Value}
    {next : Value → Except RuntimeError Value} (h : Comes first outcome)
    (rest : Comes last (next first)) : Comes last (outcome >>= next) := by
  rcases h with rfl | rfl
  · exact rest
  · exact Or.inr rfl

/-- Operands that are computed one above the other are combined. -/
theorem Comes.combine {left right : Expr} {op : BinaryOp} {u v w : Value} {height : Nat}
    (ordered : op ≠ .lessThan) (first : ∀ height, Comes u (left.compute height))
    (second : ∀ height, Comes v (right.compute height))
    (combined : Machine.combine op.opCode u v = .ok w) :
    Comes w ((Expr.binary op left right).compute height) := by
  rw [Expr.compute, if_neg ordered]
  exact (first height).bind ((second (height + 1)).bind (Or.inl combined))

theorem compute_expr (a : Arithmetic) (height : Nat) :
    Comes (.integer a.word) (a.expr.compute height) := by
  induction a generalizing height with
  | literal n =>
    rw [word_literal, expr, Expr.compute, Machine.hold]
    split
    · exact Or.inl rfl
    · exact Or.inr rfl
  | negation a ih => exact (ih height).bind (Or.inl (by rw [word_negation]; rfl))
  | sum a b iha ihb => exact .combine nofun iha ihb (by rw [word_sum]; rfl)
  | difference a b iha ihb => exact .combine nofun iha ihb (by rw [word_difference]; rfl)
  | product a b iha ihb => exact .combine nofun iha ihb (by rw [word_product]; rfl)

theorem computeAll_expr (a : Arithmetic) :
    Stmt.computeAll [.expression a.expr] 0 = .ok (some (.integer a.word)) ∨
      Stmt.computeAll [.expression a.expr] 0 = .error .stackOverflow := by
  rw [Stmt.computeAll, Stmt.compute]
  rcases a.compute_expr 0 with computed | full
  · rw [computed]
    exact Or.inl rfl
  · rw [full]
    exact Or.inr rfl

end Arithmetic

namespace Machine

/-- Arithmetic on 64 bits is exact modulo 2^64. Evaluation yields the one number of 64 bits that is
congruent to the integer value of the whole tree. Compiled code is run to an end and leaves the same
number, unless the stack overflows; it fails in no other way. -/
theorem arithmetic_is_exact (a : Arithmetic) :
    ∃ w : Int64, w.toInt = a.value.bmod (2 ^ 64) ∧
      (∀ depth scope store,
        Program.eval depth scope [.expression a.expr] store = some (.integer w, store)) ∧
      ∀ bytecode, compile [.expression a.expr] = .ok bytecode →
        (∃ steps, (run bytecode steps .initial).1 ≠ .running) ∧
        (∀ steps m, run bytecode steps .initial = (.halted, m) →
          m.stack.lastPopped = .integer w) ∧
        ∀ steps e m, run bytecode steps .initial = (.failed e, m) → e = .stackOverflow := by
  refine ⟨a.word, a.toInt_word, fun depth scope store => ?_, fun bytecode compiled => ?_⟩
  · refine Program.eval_eq_some.2 ⟨.integer a.word, ?_, rfl⟩
    rw [Stmt.evalAll, Stmt.eval, a.eval_expr]
    rfl
  · refine ⟨exists_run_ended compiled, fun steps m halted => ?_, fun steps e m failed => ?_⟩
    · obtain ⟨last, computes, popped⟩ := (compute_of_run compiled).1 halted
      rcases a.computeAll_expr with same | full
      · cases computes.symm.trans same
        exact popped
      · cases computes.symm.trans full
    · have fails := (compute_of_run compiled).2 e failed
      rcases a.computeAll_expr with same | full
      · cases fails.symm.trans same
      · cases fails.symm.trans full
        rfl

/-- `9223372036854775807 * 9223372036854775807 - -(-9223372036854775808)`, far out of range. -/
def overflowing : Arithmetic :=
  .difference (.product (.literal Int64.maxValue) (.literal Int64.maxValue))
    (.negation (.literal Int64.minValue))

def overflowingCode : Bytecode :=
  ⟨#[0, 0, 0, 0, 0, 1, 3, 0, 0, 2, 10, 2, 12],
    #[.integer Int64.maxValue, .integer Int64.maxValue, .integer Int64.minValue]⟩

theorem compile_overflowing :
    compile [.expression overflowing.expr] = .ok overflowingCode := by
  simp [compile, overflowing, Arithmetic.expr, overflowingCode, Stmt.compileAll, Stmt.compile,
    Expr.compile, bind, EStateM.bind, pure, EStateM.pure, emitConstant, emitPlain, emit, encode,
    encodeOperands, bigEndian, OpCode.operandWidths, OpCode.byte, BinaryOp.opCode, UnaryOp.opCode,
    Compiler.empty, Compiler.bytecode]

theorem arithmetic_is_exact_overflowing :
    overflowing.value = 85070591730234615838173535747377725441 ∧
      Program.eval 0 (.root 0) [.expression overflowing.expr] .empty =
        some (.integer (-9223372036854775807), .empty) ∧
      ∃ steps m, run overflowingCode steps .initial = (.halted, m) ∧
        m.stack.lastPopped = .integer (-9223372036854775807) := by
  obtain ⟨w, reduced, evaluates, runs⟩ := arithmetic_is_exact overflowing
  have same : w = -9223372036854775807 := Int64.toInt_inj.1 (reduced.trans (by decide))
  subst same
  have computes : Stmt.computeAll [.expression overflowing.expr] 0 =
      .ok (some (.integer overflowing.word)) := rfl
  obtain ⟨steps, m, halted, -⟩ := exists_run_halted compile_overflowing computes
  exact ⟨by decide, evaluates .., steps, m, halted,
    (runs _ compile_overflowing).2.1 steps m halted⟩

end Machine

end MonkeyLanguage
