import MonkeyLanguage.Compiler.Basic
import MonkeyLanguage.Proofs.Code.Instruction

/-!
# Translation without patching

The code of a program as a function of where it starts and of how many constants there are
already. Sizes are known from the tree, so jumps are written with their targets at once.

What does not compile translates to nothing.
-/

namespace MonkeyLanguage

/-! ### Sizes -/

/-- The size of a branch from that of its block, which ends in a pop unless it is empty. -/
def branchSize (size : Nat) : Nat := if size = 0 then 1 else size - 1

mutual

def Expr.size : Expr → Nat
  | .integer _ => 3
  | .boolean _ => 1
  | .unary _ operand => operand.size + 1
  | .binary _ left right => left.size + right.size + 1
  | .conditional condition consequence alternative =>
    condition.size + 3 + branchSize (Stmt.sizeAll consequence) + 3 + Stmt.sizeElse alternative
  | _ => 0

def Stmt.size : Stmt → Nat
  | .expression value => value.size + 1
  | .block body => Stmt.sizeAll body
  | _ => 0

def Stmt.sizeAll : List Stmt → Nat
  | [] => 0
  | s :: rest => s.size + Stmt.sizeAll rest

def Stmt.sizeElse : Option (List Stmt) → Nat
  | none => 1
  | some body => branchSize (Stmt.sizeAll body)

end

/-! ### Constants -/

mutual

/-- The constants of an expression in the order of their instructions. -/
def Expr.literals : Expr → List Value
  | .integer value => [.integer value]
  | .unary _ operand => operand.literals
  | .binary op left right =>
    if op = .lessThan then right.literals ++ left.literals else left.literals ++ right.literals
  | .conditional condition consequence alternative =>
    condition.literals ++ Stmt.literalsAll consequence ++ Stmt.literalsElse alternative
  | _ => []

def Stmt.literals : Stmt → List Value
  | .expression value => value.literals
  | .block body => Stmt.literalsAll body
  | _ => []

def Stmt.literalsAll : List Stmt → List Value
  | [] => []
  | s :: rest => s.literals ++ Stmt.literalsAll rest

def Stmt.literalsElse : Option (List Stmt) → List Value
  | none => []
  | some body => Stmt.literalsAll body

end

/-! ### Code -/

/-- The code of a branch keeps the last value of its block, and is a null for an empty one. -/
def branchCode (block : List Instruction) : List Instruction :=
  if block = [] then [.plain .pushNull] else block.dropLast

mutual

/-- The code of an expression that starts at `start`, with `pool` constants before its own. -/
def Expr.translate : Expr → Nat → Nat → List Instruction
  | .integer _, _, pool => [⟨.constant, [pool]⟩]
  | .boolean true, _, _ => [.plain .pushTrue]
  | .boolean false, _, _ => [.plain .pushFalse]
  | .unary op operand, start, pool => operand.translate start pool ++ [.plain op.opCode]
  | .binary op left right, start, pool =>
    if op = .lessThan then
      right.translate start pool ++
        left.translate (start + right.size) (pool + right.literals.length) ++
        [.plain op.opCode]
    else
      left.translate start pool ++
        right.translate (start + left.size) (pool + left.literals.length) ++
        [.plain op.opCode]
  | .conditional condition consequence alternative, start, pool =>
    let inside := start + condition.size + 3
    let outside := inside + branchSize (Stmt.sizeAll consequence) + 3
    let poolInside := pool + condition.literals.length
    let poolOutside := poolInside + (Stmt.literalsAll consequence).length
    condition.translate start pool ++ [⟨.jumpNotTruthy, [outside]⟩] ++
      branchCode (Stmt.translateAll consequence inside poolInside) ++
      [⟨.jump, [outside + Stmt.sizeElse alternative]⟩] ++
      Stmt.translateElse alternative outside poolOutside
  | .identifier _, _, _ | .string _, _, _ | .array _, _, _ | .hash _, _, _ | .function _ _, _, _
  | .index _ _, _, _ | .call _ _, _, _ => []

def Stmt.translate : Stmt → Nat → Nat → List Instruction
  | .expression value, start, pool => value.translate start pool ++ [.plain .pop]
  | .block body, start, pool => Stmt.translateAll body start pool
  | _, _, _ => []

def Stmt.translateAll : List Stmt → Nat → Nat → List Instruction
  | [], _, _ => []
  | s :: rest, start, pool =>
    s.translate start pool ++
      Stmt.translateAll rest (start + s.size) (pool + s.literals.length)

def Stmt.translateElse : Option (List Stmt) → Nat → Nat → List Instruction
  | none, _, _ => [.plain .pushNull]
  | some body, start, pool => branchCode (Stmt.translateAll body start pool)

end

/-! ### Blocks end in a pop -/

def EndsInPop (code : List Instruction) : Prop :=
  code = [] ∨ ∃ front, code = front ++ [.plain .pop]

theorem EndsInPop.append {first second : List Instruction} (h : EndsInPop first)
    (h' : EndsInPop second) : EndsInPop (first ++ second) := by
  rcases h' with rfl | ⟨front, rfl⟩
  · simpa using h
  · exact Or.inr ⟨first ++ front, by simp⟩

mutual

theorem Stmt.translate_endsInPop (s : Stmt) (start pool : Nat) :
    EndsInPop (s.translate start pool) := by
  match s with
  | .expression value => exact Or.inr ⟨value.translate start pool, by simp [Stmt.translate]⟩
  | .block body => simpa only [Stmt.translate] using Stmt.translateAll_endsInPop body start pool
  | .bind _ _ | .ret _ => exact Or.inl (by simp [Stmt.translate])

theorem Stmt.translateAll_endsInPop (body : List Stmt) (start pool : Nat) :
    EndsInPop (Stmt.translateAll body start pool) := by
  match body with
  | [] => exact Or.inl (by simp [Stmt.translateAll])
  | s :: rest =>
    simp only [Stmt.translateAll]
    exact (s.translate_endsInPop _ _).append (Stmt.translateAll_endsInPop rest _ _)

end

/-! ### Widths -/

@[simp] theorem Instruction.width_plain_unary (op : UnaryOp) :
    (Instruction.plain op.opCode).width = 1 := by cases op <;> rfl

@[simp] theorem Instruction.width_plain_binary (op : BinaryOp) :
    (Instruction.plain op.opCode).width = 1 := by cases op <;> rfl

@[simp] theorem Instruction.width_plain_pop : (Instruction.plain .pop).width = 1 := rfl

theorem totalWidth_eq_zero_iff {code : List Instruction} : totalWidth code = 0 ↔ code = [] := by
  cases code with
  | nil => simp
  | cons i rest => simpa using fun empty => absurd empty (Nat.ne_of_gt i.width_pos)

theorem totalWidth_branchCode {code : List Instruction} (h : EndsInPop code) :
    totalWidth (branchCode code) = branchSize (totalWidth code) := by
  rcases h with rfl | ⟨front, rfl⟩
  · rfl
  · simp [branchCode, branchSize]

mutual

theorem Expr.totalWidth_translate (e : Expr) (start pool : Nat) :
    totalWidth (e.translate start pool) = e.size := by
  match e with
  | .integer _ => rfl
  | .boolean true | .boolean false => rfl
  | .unary op operand =>
    simp [Expr.translate, Expr.size, operand.totalWidth_translate]
  | .binary op left right =>
    simp only [Expr.translate, Expr.size]
    split <;> simp [left.totalWidth_translate, right.totalWidth_translate] <;> omega
  | .conditional condition consequence alternative =>
    have branch := totalWidth_branchCode (Stmt.translateAll_endsInPop consequence
      (start + condition.size + 3) (pool + condition.literals.length))
    have jump : ∀ op operand, op = .jump ∨ op = .jumpNotTruthy →
        (Instruction.mk op [operand]).width = 3 := by
      rintro op operand (rfl | rfl) <;> rfl
    simp only [Expr.translate, Expr.size, totalWidth_append, totalWidth_cons, totalWidth_nil,
      condition.totalWidth_translate, branch, Stmt.totalWidth_translateAll consequence,
      Stmt.totalWidth_translateElse alternative]
    rw [jump _ _ (Or.inl rfl), jump _ _ (Or.inr rfl)]
  | .identifier _ | .string _ | .array _ | .hash _ | .function _ _ | .index _ _ | .call _ _ =>
    simp [Expr.translate, Expr.size]

theorem Stmt.totalWidth_translate (s : Stmt) (start pool : Nat) :
    totalWidth (s.translate start pool) = s.size := by
  match s with
  | .expression value => simp [Stmt.translate, Stmt.size, value.totalWidth_translate]
  | .block body => simp [Stmt.translate, Stmt.size, Stmt.totalWidth_translateAll body]
  | .bind _ _ | .ret _ => simp [Stmt.translate, Stmt.size]

theorem Stmt.totalWidth_translateAll (body : List Stmt) (start pool : Nat) :
    totalWidth (Stmt.translateAll body start pool) = Stmt.sizeAll body := by
  match body with
  | [] => simp [Stmt.translateAll, Stmt.sizeAll]
  | s :: rest =>
    simp [Stmt.translateAll, Stmt.sizeAll, s.totalWidth_translate,
      Stmt.totalWidth_translateAll rest]

theorem Stmt.totalWidth_translateElse (alternative : Option (List Stmt)) (start pool : Nat) :
    totalWidth (Stmt.translateElse alternative start pool) = Stmt.sizeElse alternative := by
  match alternative with
  | none => rfl
  | some body =>
    simp only [Stmt.translateElse, Stmt.sizeElse]
    rw [totalWidth_branchCode (Stmt.translateAll_endsInPop body start pool),
      Stmt.totalWidth_translateAll body]

end

end MonkeyLanguage
