import MonkeyLanguage.Proofs.Code.Stream
import MonkeyLanguage.Proofs.Compiler.Append

/-!
# The compiler without its proofs

The compiler carries proofs that operands fit, and patches only bytes that are there. The raw
compiler has no such proofs and panics instead: at an operand too large for its width, at a patch
outside of the code, at the instruction for an operator that has none. Both do the same on every
program and in every state, so the raw compiler never panics.

Compiling one program after another therefore only ever adds to the code, whatever became of the
programs before, and the code can be listed at any time.
-/

namespace MonkeyLanguage

/-- What the raw compiler takes for granted and does not find. -/
inductive CompilePanic where
  | largeOperand (operand width : Nat)
  | operandWidth (width : Nat)
  | slice (start stop : Nat)
  | operator (op : BinaryOp)

inductive CompileFailure where
  | error (error : CompileError)
  | panic (panic : CompilePanic)

abbrev RawCompile (α : Type) := EStateM CompileFailure Compiler α

namespace RawCompiler

/-! ### Instructions -/

def operandBytes (width operand : Nat) : Except CompilePanic (List UInt8) :=
  if operand < 2 ^ (8 * width) then
    match width with
    | 1 => .ok [UInt8.ofNat operand]
    | 2 => .ok [UInt8.ofNat (operand / 256), UInt8.ofNat operand]
    | width => .error (.operandWidth width)
  else .error (.largeOperand operand width)

/-- Missing operands are written as zero. -/
def operandsBytes : List Nat → List Nat → Except CompilePanic (List UInt8)
  | [], _ => .ok []
  | width :: widths, operands => do
    let first ← operandBytes width (operands.headD 0)
    let rest ← operandsBytes widths operands.tail
    return first ++ rest

def make (op : OpCode) (operands : List Nat) : Except CompilePanic (List UInt8) := do
  let bytes ← operandsBytes op.operandWidths operands
  return op.byte :: bytes

/-! ### Steps -/

def emit (op : OpCode) (operands : List Nat) : RawCompile Nat := fun c =>
  match make op operands with
  | .error p => .error (.panic p) c
  | .ok bytes =>
    let position := c.code.size
    .ok position
      { c with
        code := c.code ++ bytes
        last := some ⟨op, position⟩
        previous := c.last }

def emitOnly (op : OpCode) (operands : List Nat) : RawCompile Unit := do
  let _ ← emit op operands

def addConstant (constant : Value) : RawCompile Nat := fun c =>
  let index := c.constants.size
  if 65535 < index then .error (.error .tooManyConstants) c
  else .ok index { c with constants := c.constants.push constant }

def lastIs (op : OpCode) (c : Compiler) : Bool := c.last.any (·.op = op)

/-- The last instruction goes, whatever it is. -/
def removeLast : RawCompile Unit := modify fun c =>
  match c.last with
  | some last => { c with code := c.code.shrink last.position, last := c.previous }
  | none => c

def changeOperand (position : Nat) (op : OpCode) (operand : Nat) : RawCompile Unit := fun c =>
  if 65535 < operand then .error (.error (.jumpOutOfRange operand)) c
  else
    match make op [operand] with
    | .error p => .error (.panic p) c
    | .ok bytes =>
      if position + bytes.length ≤ c.code.size then
        .ok () { c with code := overwrite c.code position bytes }
      else .error (.panic (.slice position (position + bytes.length))) c

def patch (position : Nat) (op : OpCode) : RawCompile Unit := do
  let c ← get
  changeOperand position op c.code.size

def keepLastValue : RawCompile Unit := do
  let c ← get
  if lastIs .pop c then removeLast else emitOnly .pushNull []

/-- The operands of `<` are exchanged before it comes to this. -/
def operator : BinaryOp → RawCompile OpCode
  | .plus => pure .add
  | .minus => pure .sub
  | .multiply => pure .mul
  | .divide => pure .div
  | .greaterThan => pure .greaterThan
  | .equal => pure .equal
  | .notEqual => pure .notEqual
  | .lessThan => throw (.panic (.operator .lessThan))

/-! ### Trees -/

mutual

def expression : Expr → RawCompile Unit
  | .integer value => do
    let index ← addConstant (.integer value)
    emitOnly .constant [index]
  | .boolean true => emitOnly .pushTrue []
  | .boolean false => emitOnly .pushFalse []
  | .unary op operand => do
    expression operand
    emitOnly op.opCode []
  | .binary .lessThan left right => do
    expression right
    expression left
    emitOnly .greaterThan []
  | .binary op left right => do
    expression left
    expression right
    let op ← operator op
    emitOnly op []
  | .conditional condition consequence alternative => do
    expression condition
    let toAlternative ← emit .jumpNotTruthy [placeholder]
    block consequence
    keepLastValue
    let toEnd ← emit .jump [placeholder]
    patch toAlternative .jumpNotTruthy
    otherwise alternative
    patch toEnd .jump
  | .identifier name => throw (.error (.unsupportedNode (Expr.identifier name).kind))
  | .string value => throw (.error (.unsupportedNode (Expr.string value).kind))
  | .array elements => throw (.error (.unsupportedNode (Expr.array elements).kind))
  | .hash pairs => throw (.error (.unsupportedNode (Expr.hash pairs).kind))
  | .function params body => throw (.error (.unsupportedNode (Expr.function params body).kind))
  | .index left position => throw (.error (.unsupportedNode (Expr.index left position).kind))
  | .call callee args => throw (.error (.unsupportedNode (Expr.call callee args).kind))

def statement : Stmt → RawCompile Unit
  | .expression value => do
    expression value
    emitOnly .pop []
  | .block body => block body
  | .bind name value => throw (.error (.unsupportedNode (Stmt.bind name value).kind))
  | .ret value => throw (.error (.unsupportedNode (Stmt.ret value).kind))

def block : List Stmt → RawCompile Unit
  | [] => pure ()
  | s :: rest => do
    statement s
    block rest

def otherwise : Option (List Stmt) → RawCompile Unit
  | none => emitOnly .pushNull []
  | some body => do
    block body
    keepLastValue

end

/-! ### Both compilers -/

/-- In this state the raw step does what the step does. -/
def Mirrors {α : Type} (raw : RawCompile α) (step : Compile α) (c : Compiler) : Prop :=
  match step c with
  | .ok a c' => raw c = .ok a c'
  | .error e c' => raw c = .error (.error e) c'

variable {α β : Type} {c c' : Compiler}

namespace Mirrors

theorem throw (e : CompileError) (c : Compiler) :
    Mirrors (α := α) (MonadExcept.throw (.error e)) (MonadExcept.throw e) c := rfl

theorem bind {raw : RawCompile α} {step : Compile α} {raw' : α → RawCompile β}
    {step' : α → Compile β} (first : Mirrors raw step c)
    (next : ∀ a c', step c = .ok a c' → Mirrors (raw' a) (step' a) c') :
    Mirrors (raw >>= raw') (step >>= step') c := by
  unfold Mirrors at first ⊢
  change match EStateM.bind step step' c with
    | .ok a c' => EStateM.bind raw raw' c = .ok a c'
    | .error e c' => EStateM.bind raw raw' c = .error (.error e) c'
  simp only [EStateM.bind]
  cases ended : step c with
  | ok a c' =>
    rw [ended] at first
    rw [first]
    exact next a c' ended
  | error e c' =>
    rw [ended] at first
    rw [first]

end Mirrors

theorem operandBytes_eq {width operand : Nat} (readable : width = 1 ∨ width = 2)
    (small : operand < 256 ^ width) :
    operandBytes width operand = .ok (bigEndian width operand) := by
  have fits : operand < 2 ^ (8 * width) := by rwa [Nat.pow_mul]
  rcases readable with rfl | rfl
  · exact if_pos fits
  · exact if_pos fits

theorem operandsBytes_eq {widths operands : List Nat}
    (readable : ∀ width ∈ widths, width = 1 ∨ width = 2) (fits : misfit? widths operands = none) :
    operandsBytes widths operands = .ok (encodeOperands widths operands) := by
  induction widths generalizing operands with
  | nil => rfl
  | cons width widths ih =>
    change (if operands.headD 0 < 256 ^ width then misfit? widths operands.tail
      else some (operands.headD 0, width)) = none at fits
    split at fits
    · rename_i small
      rw [operandsBytes, operandBytes_eq (readable width (by simp)) small,
        ih (fun w member => readable w (by simp [member])) fits]
      rfl
    · cases fits

theorem make_eq {op : OpCode} {operands : List Nat} (fits : op.Fits operands) :
    make op operands = .ok (encode op operands fits) := by
  rw [make, operandsBytes_eq op.operandWidths_readable fits]
  rfl

theorem emit_mirrors {op : OpCode} {operands : List Nat} (fits : op.Fits operands) (c : Compiler) :
    Mirrors (emit op operands) (MonkeyLanguage.emit op operands fits) c := by
  simp only [Mirrors, MonkeyLanguage.emit, emit, make_eq fits]

theorem emitOnly_mirrors {op : OpCode} (none : op.operandWidths = []) (c : Compiler) :
    Mirrors (emitOnly op []) (emitPlain op none) c :=
  (emit_mirrors _ c).bind fun _ _ _ => rfl

theorem emitJump_mirrors {op : OpCode} (jump : op.operandWidths = [2]) (c : Compiler) :
    Mirrors (emit op [placeholder]) (emitJump op jump) c :=
  emit_mirrors _ c

theorem bind_of_ok {raw : RawCompile α} {next : α → RawCompile β} {a : α}
    (h : raw c = .ok a c') : (raw >>= next) c = next a c' := by
  change EStateM.bind raw next c = _
  rw [EStateM.bind, h]

theorem bind_of_error {raw : RawCompile α} {next : α → RawCompile β} {e : CompileFailure}
    (h : raw c = .error e c') : (raw >>= next) c = .error e c' := by
  change EStateM.bind raw next c = _
  rw [EStateM.bind, h]

theorem emitConstant_mirrors (constant : Value) (c : Compiler) :
    Mirrors (do let index ← addConstant constant; emitOnly .constant [index])
      (emitConstant constant) c := by
  by_cases small : c.constants.size ≤ 65535
  · have added : addConstant constant c =
        .ok c.constants.size { c with constants := c.constants.push constant } :=
      if_neg (Nat.not_lt.2 small)
    have fits : OpCode.constant.Fits [c.constants.size] := misfit?_word small
    have emitted : emit .constant [c.constants.size] _ = .ok c.code.size _ :=
      emit_mirrors fits { c with constants := c.constants.push constant }
    rw [Mirrors, emitConstant, dif_pos small]
    exact (bind_of_ok added).trans (bind_of_ok emitted)
  · have full : addConstant constant c = .error (.error .tooManyConstants) c :=
      if_pos (Nat.not_le.1 small)
    rw [Mirrors, emitConstant, dif_neg small]
    exact bind_of_error full

/-- There are three bytes to be written. -/
theorem patch_mirrors {op : OpCode} (jump : op.operandWidths = [2]) {position : Nat}
    (inside : position + 3 ≤ c.code.size) :
    Mirrors (patch position op) (patchJump op jump position) c := by
  change Mirrors (changeOperand position op c.code.size) (patchJump op jump position) c
  by_cases small : c.code.size ≤ 65535
  · have fits : op.Fits [c.code.size] := by rw [OpCode.Fits, jump]; exact misfit?_word small
    have three : (encode op [c.code.size] fits).length = 3 := by
      rw [encode_eq_bytes, Instruction.bytes_word jump]
      rfl
    simp only [Mirrors, patchJump, dif_pos small, changeOperand, if_neg (Nat.not_lt.2 small),
      make_eq fits, three, if_pos inside]
  · simp only [Mirrors, patchJump, dif_neg small, changeOperand, if_pos (Nat.not_le.1 small)]

theorem keepLastValue_mirrors (c : Compiler) :
    Mirrors keepLastValue MonkeyLanguage.keepLastValue c := by
  change Mirrors (if lastIs .pop c then removeLast else emitOnly .pushNull [])
    MonkeyLanguage.keepLastValue c
  by_cases popped : ∃ position, c.last = some ⟨.pop, position⟩
  · obtain ⟨position, last⟩ := popped
    have found : lastIs .pop c = true := by rw [lastIs, last]; rfl
    have removed : removeLast c =
        .ok () { c with code := c.code.shrink position, last := c.previous } := by
      change EStateM.Result.ok () (match c.last with
        | some last => { c with code := c.code.shrink last.position, last := c.previous }
        | none => c) = _
      rw [last]
    simpa only [Mirrors, MonkeyLanguage.keepLastValue, last, if_pos found] using removed
  · have other : ¬ lastIs .pop c = true := by
      intro found
      obtain ⟨⟨op, position⟩, last, pop⟩ := (Option.any_eq_true _ _).1 found
      obtain rfl : op = .pop := by simpa using pop
      exact popped ⟨position, last⟩
    have kept : MonkeyLanguage.keepLastValue c = emitPlain .pushNull rfl c := by
      unfold MonkeyLanguage.keepLastValue
      split
      · rename_i position last
        exact absurd ⟨position, last⟩ popped
      · rfl
    rw [if_neg other, Mirrors, kept]
    exact emitOnly_mirrors rfl c

/-! ### Trees of both -/

theorem operands_mirror {first second : Expr} {op : OpCode} {none : op.operandWidths = []}
    (h : ∀ c, Mirrors (expression first) first.compile c)
    (h' : ∀ c, Mirrors (expression second) second.compile c) (c : Compiler) :
    Mirrors (do expression first; expression second; emitOnly op [])
      (do first.compile; second.compile; emitPlain op none) c :=
  (h c).bind fun _ c _ => (h' c).bind fun _ c _ => emitOnly_mirrors none c

theorem conditional_mirrors {condition : Expr} {consequence : List Stmt}
    {alternative : Option (List Stmt)}
    (tests : ∀ c, Mirrors (expression condition) condition.compile c)
    (enters : ∀ c, Mirrors (block consequence) (Stmt.compileAll consequence) c)
    (falls : ∀ c, Mirrors (otherwise alternative) (Stmt.compileElse alternative) c)
    (c : Compiler) :
    Mirrors (expression (.conditional condition consequence alternative))
      (Expr.conditional condition consequence alternative).compile c := by
  rw [Expr.compile_conditional, expression]
  refine (tests c).bind fun _ c₁ _ => ?_
  refine (emitJump_mirrors rfl c₁).bind fun toAlternative c₂ jumped => ?_
  refine (enters c₂).bind fun _ c₃ entered => ?_
  refine (keepLastValue_mirrors c₃).bind fun _ c₄ kept => ?_
  refine (emitJump_mirrors rfl c₄).bind fun toEnd c₅ left => ?_
  obtain ⟨rfl, jump, last⟩ := emitJump_eq_ok (by decide) jumped
  obtain ⟨rfl, leave, last'⟩ := emitJump_eq_ok (by decide) left
  have branch := branch_adds (by simp [Compiler.Fresh, last]) entered kept
  have sizes : c₂.code.size = c₁.code.size + 3 := jump.size
  have grown : c₂.code.size ≤ c₄.code.size := branch.extends.size_le
  have sizes' : c₅.code.size = c₄.code.size + 3 := leave.size
  refine (patch_mirrors rfl (by omega)).bind fun _ c₆ patched => ?_
  obtain ⟨same, last⟩ := patchJump_keeps patched
  refine (falls c₆).bind fun _ c₇ fallen => patch_mirrors rfl ?_
  have added : c₆.Extends c₇ := by
    have fresh : c₆.Fresh := by simp [Compiler.Fresh, last, last']
    have ended := Stmt.compileElse_extends alternative fresh
    rwa [EndsIn, fallen] at ended
  have grown' := added.size_le
  omega

mutual

theorem expression_mirrors (e : Expr) (c : Compiler) : Mirrors (expression e) e.compile c := by
  match e with
  | .integer value => exact emitConstant_mirrors _ c
  | .boolean true | .boolean false => exact emitOnly_mirrors rfl c
  | .unary op operand =>
    exact (expression_mirrors operand c).bind fun _ c _ => emitOnly_mirrors _ c
  | .binary .lessThan left right =>
    exact operands_mirror (expression_mirrors right ·) (expression_mirrors left ·) c
  | .binary .plus left right | .binary .minus left right | .binary .multiply left right
  | .binary .divide left right | .binary .greaterThan left right | .binary .equal left right
  | .binary .notEqual left right =>
    exact operands_mirror (expression_mirrors left ·) (expression_mirrors right ·) c
  | .conditional condition consequence alternative =>
    exact conditional_mirrors (expression_mirrors condition ·) (block_mirrors consequence ·)
      (otherwise_mirrors alternative ·) c
  | .identifier _ | .string _ | .array _ | .hash _ | .function _ _ | .index _ _ | .call _ _ =>
    exact .throw _ c

theorem statement_mirrors (s : Stmt) (c : Compiler) : Mirrors (statement s) s.compile c := by
  match s with
  | .expression value =>
    exact (expression_mirrors value c).bind fun _ c _ => emitOnly_mirrors rfl c
  | .block body => exact block_mirrors body c
  | .bind _ _ | .ret _ => exact .throw _ c

theorem block_mirrors (body : List Stmt) (c : Compiler) :
    Mirrors (block body) (Stmt.compileAll body) c := by
  match body with
  | [] => exact rfl
  | s :: rest => exact (statement_mirrors s c).bind fun _ c _ => block_mirrors rest c

theorem otherwise_mirrors (alternative : Option (List Stmt)) (c : Compiler) :
    Mirrors (otherwise alternative) (Stmt.compileElse alternative) c := by
  match alternative with
  | none => exact emitOnly_mirrors OpCode.operandWidths_pushNull c
  | some body => exact (block_mirrors body c).bind fun _ c _ => keepLastValue_mirrors c

end

/-! ### One program after another -/

def add (c : Compiler) (program : Program) : Except CompileFailure Unit × Compiler :=
  match block program c with
  | .ok () c => (.ok (), c)
  | .error e c => (.error e, c)

/-- Compiles these programs one after another, whatever becomes of each. -/
def addAll (programs : List Program) (c : Compiler) : Compiler :=
  programs.foldl (fun c program => (add c program).2) c

theorem add_eq (c : Compiler) (program : Program) :
    add c program = ((c.add program).1.mapError .error, (c.add program).2) := by
  have mirrored := block_mirrors program c
  unfold Mirrors at mirrored
  unfold add Compiler.add
  cases compiled : Stmt.compileAll program c with
  | ok a c' | error e c' =>
    rw [compiled] at mirrored
    rw [mirrored]
    rfl

theorem add_ne_panic (c : Compiler) (program : Program) (p : CompilePanic) :
    (add c program).1 ≠ .error (.panic p) := by
  rw [add_eq]
  cases (c.add program).1 <;> nofun

theorem add_extends (c : Compiler) (program : Program) : c.Extends (add c program).2 := by
  have extended := Stmt.compileAll_extends program c
  unfold EndsIn at extended
  rw [add_eq, Compiler.add]
  cases compiled : Stmt.compileAll program c with
  | ok a c' | error e c' =>
    rw [compiled] at extended
    exact extended

theorem addAll_extends (programs : List Program) (c : Compiler) :
    c.Extends (addAll programs c) := by
  induction programs generalizing c with
  | nil => exact .refl c
  | cons program rest ih => exact (add_extends c program).trans (ih _)

/-- The operands of the loads that a listing shows, in order. -/
def listedLoads (listed : List (Nat × Decoded)) : List (List Nat) :=
  (listed.filter (·.2.op = .constant)).map (·.2.operands)

theorem listedLoads_placed (offset : Nat) (code : List Instruction) :
    listedLoads (placed offset code) = loaded code := by
  induction code generalizing offset with
  | nil => rfl
  | cons i rest ih =>
    have ih := ih (offset + i.width)
    by_cases load : i.op = .constant
    · simpa [listedLoads, loaded, placed, Instruction.decoded, load] using ih
    · simpa [listedLoads, loaded, placed, Instruction.decoded, load] using ih

/-- The code can be listed, and loads every constant once, in the order of the constants. -/
def Whole (c : Compiler) : Prop :=
  (∃ text, c.code.listing = .ok text) ∧
    ∃ listed, c.code.instructions = .ok listed ∧
      listedLoads listed = (List.range c.constants.size).map ([·])

theorem whole_of_extends (h : Compiler.empty.Extends c) : Whole c := by
  obtain ⟨code, constants, added⟩ := h
  have stands : c.code.toList = assemble code := by simpa [Compiler.empty] using added.emitted
  have pool : c.constants.size = constants.length := by simpa [Compiler.empty] using added.pool
  have read : c.code.instructions = .ok (placed 0 code) :=
    Code.instructionsFrom_of_assemble added.wellFormed (by simpa using stands)
  refine ⟨?_, _, read, ?_⟩
  · rw [Code.listing, read]
    exact ⟨_, rfl⟩
  · rw [listedLoads_placed, added.numbered, pool, List.range_eq_range']
    rfl

/-- However the programs before ended, compiling one more does not panic, and only adds to the code
and to the constants. -/
theorem compiling_only_appends (programs : List Program) (program : Program) :
    ∃ c outcome c', addAll programs .empty = c ∧ add c program = (outcome, c') ∧
      (∀ p, outcome ≠ .error (.panic p)) ∧
      (outcome, c') = ((c.add program).1.mapError .error, (c.add program).2) ∧
      c.code.toList <+: c'.code.toList ∧ c.constants.toList <+: c'.constants.toList ∧
      Whole c ∧ Whole c' := by
  have reached := addAll_extends programs .empty
  obtain ⟨code, constants, added⟩ := add_extends (addAll programs .empty) program
  exact ⟨_, _, _, rfl, rfl, add_ne_panic _ program, add_eq _ program, ⟨_, added.emitted.symm⟩,
    ⟨_, added.added.symm⟩, whole_of_extends reached, whole_of_extends (reached.trans added.extends)⟩

end RawCompiler

end MonkeyLanguage
