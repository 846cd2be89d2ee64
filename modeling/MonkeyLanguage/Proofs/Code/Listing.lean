import MonkeyLanguage.Proofs.Code.Stream
import MonkeyLanguage.Proofs.Text.Decimal

/-!
# Reading a listing back

Lines end in line feeds and words are divided by spaces, and neither stands inside a word of a
listing. So the lines of the text are those that were written, and the words of a line are the
numeral of the offset, the mnemonic and the numerals of the operands. Each of them can be read back,
so the text determines the instructions, and these determine the bytes.
-/

namespace MonkeyLanguage

/-! ### Lines and words -/

theorem splitOn_append_cons {divider : Char} {word : List Char} (free : divider ∉ word)
    (rest : List Char) :
    (word ++ divider :: rest).splitOn divider = word :: rest.splitOn divider := by
  refine List.splitOnP_append_cons_of_forall_mem (fun c member => ?_) divider (by simp) rest
  rw [beq_eq_false_iff_ne]
  rintro rfl
  exact free member

theorem splitOn_lines {lines : List (List Char)} (whole : ∀ line ∈ lines, '\n' ∉ line) :
    (lines.flatMap (· ++ ['\n'])).splitOn '\n' = lines ++ [[]] := by
  induction lines with
  | nil => rfl
  | cons line rest ih =>
    rw [List.flatMap_cons, List.append_assoc, List.singleton_append,
      splitOn_append_cons (whole line (by simp)), ih fun l member => whole l (by simp [member])]
    rfl

theorem intercalate_cons (divider : Char) (word : List Char) (words : List (List Char)) :
    [divider].intercalate (word :: words) = word ++ words.flatMap (divider :: ·) := by
  induction words generalizing word with
  | nil => simp
  | cons next words ih => simp [List.intercalate_cons_cons, ih]

/-! ### Reading a line -/

/-- The number that opens a line. -/
def openingNumber (line : List Char) : Nat := Decimal.value (line.takeWhile Char.isDigit)

/-- The instruction that the words behind the first one show. -/
def shownInstruction? (line : List Char) : Option Instruction :=
  match line.splitOn ' ' with
  | _ :: mnemonic :: operands =>
    (OpCode.ofMnemonic? (String.ofList mnemonic)).map fun op => ⟨op, operands.map Decimal.value⟩
  | _ => none

/-- A line without its line feed. -/
def lineText (offset : Nat) (i : Instruction) : List Char :=
  (Decimal.fourDigits offset).toList ++ ' ' ::
    (i.op.mnemonic.toList ++ i.operands.flatMap fun operand => ' ' :: Nat.toDigits 10 operand)

theorem toList_line (offset : Nat) (i : Instruction) :
    (Code.line offset i.decoded).toList = lineText offset i ++ ['\n'] := by
  simp [Code.line, lineText, Instruction.decoded, List.flatMap_map]

theorem OpCode.ofMnemonic?_mnemonic (op : OpCode) : OpCode.ofMnemonic? op.mnemonic = some op := by
  cases op <;> decide

theorem OpCode.isAlpha_of_mem_mnemonic (op : OpCode) :
    ∀ c ∈ op.mnemonic.toList, c.isAlpha = true := by
  have letters : op.mnemonic.toList.all Char.isAlpha = true := by cases op <;> decide
  exact List.all_eq_true.1 letters

/-- Words are made of letters and digits. -/
theorem not_mem_words (divider : Char) (other : divider.isAlphanum = false) :
    (∀ n, divider ∉ (Decimal.fourDigits n).toList) ∧ (∀ n, divider ∉ Nat.toDigits 10 n) ∧
      ∀ op : OpCode, divider ∉ op.mnemonic.toList := by
  simp only [Char.isAlphanum, Bool.or_eq_false_iff] at other
  refine ⟨fun n member => ?_, fun n member => ?_, fun op member => ?_⟩
  · rw [Decimal.isDigit_of_mem_fourDigits member] at other
    exact absurd other.2 (by simp)
  · rw [Decimal.isDigit_of_mem_toDigits member] at other
    exact absurd other.2 (by simp)
  · rw [op.isAlpha_of_mem_mnemonic _ member] at other
    exact absurd other.1 (by simp)

variable (offset : Nat) (i : Instruction)

theorem openingNumber_lineText : openingNumber (lineText offset i) = offset := by
  have digits : ∀ c ∈ (Decimal.fourDigits offset).toList, c.isDigit = true := fun _ =>
    Decimal.isDigit_of_mem_fourDigits
  rw [openingNumber, lineText, List.takeWhile_append_of_pos digits,
    List.takeWhile_cons_of_neg (by decide), List.append_nil, Decimal.value_fourDigits]

theorem splitOn_lineText : (lineText offset i).splitOn ' ' =
    (Decimal.fourDigits offset).toList :: i.op.mnemonic.toList ::
      i.operands.map (Nat.toDigits 10) := by
  obtain ⟨number, operand, mnemonic⟩ := not_mem_words ' ' (by decide)
  have free : ∀ word ∈ i.op.mnemonic.toList :: i.operands.map (Nat.toDigits 10), ' ' ∉ word := by
    simpa using ⟨mnemonic i.op, fun n _ => operand n⟩
  rw [lineText, splitOn_append_cons (number offset), ← List.flatMap_map, ← intercalate_cons,
    List.splitOn_intercalate ' ' free (by simp)]

theorem shownInstruction?_lineText : shownInstruction? (lineText offset i) = some i := by
  simp only [shownInstruction?, splitOn_lineText, String.ofList_toList, OpCode.ofMnemonic?_mnemonic,
    List.map_map, Function.comp_def, Decimal.value_toDigits, Option.map_some, List.map_id']

theorem newline_not_mem_lineText : '\n' ∉ lineText offset i := by
  obtain ⟨number, operand, mnemonic⟩ := not_mem_words '\n' (by decide)
  simp [lineText, number, operand, mnemonic]

/-! ### Reading all lines -/

/-- The lines of instructions that stand one after another, the first at `offset`. -/
def lineTexts (offset : Nat) : List Instruction → List (List Char)
  | [] => []
  | i :: rest => lineText offset i :: lineTexts (offset + i.width) rest

variable {offset} {instructions : List Instruction}

theorem toList_lines : (String.join ((placed offset instructions).map fun d =>
    Code.line d.1 d.2)).toList = (lineTexts offset instructions).flatMap (· ++ ['\n']) := by
  induction instructions generalizing offset with
  | nil => rfl
  | cons i rest ih =>
    rw [placed, lineTexts, List.map_cons, String.join_cons, String.toList_append, toList_line, ih,
      List.flatMap_cons]

theorem newline_not_mem_lineTexts : ∀ line ∈ lineTexts offset instructions, '\n' ∉ line := by
  induction instructions generalizing offset with
  | nil => simp [lineTexts]
  | cons i rest ih => simpa [lineTexts] using ⟨newline_not_mem_lineText offset i, ih⟩

theorem map_shownInstruction?_lineTexts (offset : Nat) (instructions : List Instruction) :
    (lineTexts offset instructions).map shownInstruction? = instructions.map some := by
  induction instructions generalizing offset with
  | nil => rfl
  | cons i rest ih => rw [lineTexts, List.map_cons, List.map_cons, shownInstruction?_lineText, ih]

theorem openingNumber_of_getElem? {k : Nat} {line : List Char}
    (found : (lineTexts offset instructions)[k]? = some line) :
    openingNumber line = offset + totalWidth (instructions.take k) := by
  induction instructions generalizing offset k with
  | nil => simp [lineTexts] at found
  | cons i rest ih =>
    cases k with
    | zero =>
      obtain rfl : lineText offset i = line := by simpa [lineTexts] using found
      rw [openingNumber_lineText]
      rfl
    | succ k =>
      rw [ih (by simpa [lineTexts] using found), List.take_succ_cons, totalWidth_cons,
        Nat.add_assoc]

theorem openingNumber_increases :
    ((lineTexts offset instructions).map openingNumber).Pairwise (· < ·) := by
  induction instructions generalizing offset with
  | nil => exact .nil
  | cons i rest ih =>
    refine List.pairwise_cons.2 ⟨fun n member => ?_, ih⟩
    obtain ⟨line, inside, rfl⟩ := List.mem_map.1 member
    obtain ⟨k, found⟩ := List.getElem?_of_mem inside
    have advanced := i.width_pos
    rw [openingNumber_lineText, openingNumber_of_getElem? found]
    omega

theorem lineTexts_append_singleton (i : Instruction) : lineTexts offset (instructions ++ [i]) =
    lineTexts offset instructions ++ [lineText (offset + totalWidth instructions) i] := by
  induction instructions generalizing offset with
  | nil => rfl
  | cons j rest ih => simp [lineTexts, ih, Nat.add_assoc]

/-- The last line is about the last bytes. -/
theorem openingNumber_of_getLast? {line : List Char} {i : Instruction}
    (last : instructions.getLast? = some i)
    (lastLine : (lineTexts offset instructions).getLast? = some line) :
    openingNumber line + i.width = offset + totalWidth instructions := by
  obtain ⟨before, rfl⟩ := List.getLast?_eq_some_iff.1 last
  rw [lineTexts_append_singleton, List.getLast?_concat, Option.some.injEq] at lastLine
  subst lastLine
  rw [openingNumber_lineText]
  simp [Nat.add_assoc]

theorem totalWidth_eq_sum (instructions : List Instruction) :
    totalWidth instructions = (instructions.map fun i => i.op.width).sum := by
  induction instructions with
  | nil => rfl
  | cons i rest ih => rw [totalWidth_cons, ih, List.map_cons, List.sum_cons, Instruction.width]

namespace Code

variable {code : Code} {text : String}

theorem lines_of_listing (listed : code.listing = .ok text) :
    ∃ instructions, (∀ i ∈ instructions, Instruction.WellFormed i) ∧
      code.toList = assemble instructions ∧
      text.toList.splitOn '\n' = lineTexts 0 instructions ++ [[]] := by
  unfold listing at listed
  split at listed
  · rename_i decoded walked
    obtain ⟨instructions, wellFormed, stands, rfl⟩ := assemble_of_instructionsFrom walked
    obtain rfl := Except.ok.inj listed
    refine ⟨instructions, wellFormed, by simpa using stands, ?_⟩
    rw [toList_lines, splitOn_lines newline_not_mem_lineTexts]
  · cases listed

/-- The instructions are read off the text alone. -/
theorem eq_of_listing_eq {code' : Code} (listed : code.listing = .ok text)
    (listed' : code'.listing = .ok text) : code = code' := by
  obtain ⟨instructions, -, stands, lines⟩ := lines_of_listing listed
  obtain ⟨instructions', -, stands', lines'⟩ := lines_of_listing listed'
  have same : lineTexts 0 instructions = lineTexts 0 instructions' :=
    List.append_cancel_right (lines.symm.trans lines')
  have shown : instructions.map some = instructions'.map some := by
    rw [← map_shownInstruction?_lineTexts 0, same, map_shownInstruction?_lineTexts 0]
  obtain rfl := (List.map_inj_right fun _ _ => Option.some.inj).1 shown
  exact Array.toList_inj.1 (stands.trans stands'.symm)

end Code

/-- The listing of a stream has a line for each of its instructions, in order, opened by the widths
of the instructions before it. No other stream has the same listing. -/
theorem listing_determines_code :
    (∀ (code : Code) (text : String), code.listing = .ok text →
      ∃ (instructions : List Instruction) (lines : List (List Char)),
        (∀ i ∈ instructions, i.WellFormed) ∧ encodeAll? instructions = some code.toList ∧
        text.toList.splitOn '\n' = lines ++ [[]] ∧
        lines.map shownInstruction? = instructions.map some ∧
        (∀ k line, lines[k]? = some line →
          openingNumber line = ((instructions.take k).map fun i => i.op.width).sum) ∧
        (lines.map openingNumber).Pairwise (· < ·) ∧
        ∀ line i, lines.getLast? = some line → instructions.getLast? = some i →
          openingNumber line + i.op.width = code.size) ∧
    ∀ (code code' : Code) (text : String), code.listing = .ok text → code'.listing = .ok text →
      code = code' := by
  refine ⟨fun code text listed => ?_, fun code code' text => Code.eq_of_listing_eq⟩
  obtain ⟨instructions, wellFormed, stands, split⟩ := Code.lines_of_listing listed
  refine ⟨instructions, lineTexts 0 instructions, wellFormed, ?_, split,
    map_shownInstruction?_lineTexts 0 _, fun k line found => ?_, openingNumber_increases,
    fun line i lastLine last => ?_⟩
  · rw [encodeAll?_eq_assemble wellFormed, stands]
  · rw [openingNumber_of_getElem? found, Nat.zero_add, totalWidth_eq_sum]
  · have reached := openingNumber_of_getLast? last lastLine
    have size := congrArg List.length stands
    rw [Array.length_toList, length_assemble] at size
    rw [size, ← Nat.zero_add (totalWidth instructions), ← reached, Instruction.width]

def lookalikeListing : String := "0000 OpJump 3341\n0003 OpNull\n0004 OpConstant 65535\n"

theorem listing_determines_code_lookalike :
    lookalikeCode.listing = .ok lookalikeListing ∧
      Code.listing (assemble lookalike).toArray = .ok lookalikeListing ∧
      (∃ lines, lookalikeListing.toList.splitOn '\n' = lines ++ [[]] ∧
        (lines.map openingNumber).Pairwise (· < ·)) ∧
      lookalikeCode = (assemble lookalike).toArray := by
  have text : String.join ((placed 0 lookalike).map fun d => Code.line d.1 d.2) =
      lookalikeListing := by decide
  have listed : lookalikeCode.listing = .ok lookalikeListing := by
    rw [Code.listing_of_assemble lookalike_wellFormed (by decide), text]
  have listed' : Code.listing (assemble lookalike).toArray = .ok lookalikeListing := by
    rw [Code.listing_of_assemble lookalike_wellFormed List.toList_toArray, text]
  obtain ⟨lines_of, unique⟩ := listing_determines_code
  obtain ⟨-, lines, -, -, split, -, -, increasing, -⟩ := lines_of _ _ listed
  exact ⟨listed, listed', ⟨lines, split, increasing⟩, unique _ _ _ listed listed'⟩

end MonkeyLanguage
