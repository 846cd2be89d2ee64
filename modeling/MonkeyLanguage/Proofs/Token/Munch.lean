import MonkeyLanguage.Token.Scanner
import Mathlib.Data.List.TakeWhile

/-!
# Maximal munch

The rules of the scanner recognise lexemes that start differently, so the first character of a text
chooses the rule and only the symbols compete. `Scans text ts` says that a text is read as the
tokens `ts` whatever follows it, as long as what follows breaks off the last lexeme.
-/

namespace MonkeyLanguage

/-! ### The longest lexeme -/

/-- Nothing else that is found is as long as `found`. -/
def Lexeme.Tops (found : Lexeme) (best : Option Lexeme) : Prop :=
  ∀ other, best = some other → other = found ∨ other.text.length < found.text.length

theorem Lexeme.Tops.longer {found : Lexeme} {a b : Option Lexeme} (first : found.Tops a)
    (second : found.Tops b) : found.Tops (Lexeme.longer a b) := by
  cases a with
  | none => exact second
  | some a =>
    cases b with
    | none => exact first
    | some b =>
      rw [Lexeme.longer]
      split
      · exact second
      · exact first

theorem Lexeme.Tops.wins {found : Lexeme} {best : Option Lexeme} (tops : found.Tops best) :
    Lexeme.longer best (some found) = some found ∧
      Lexeme.longer (some found) best = some found := by
  cases best with
  | none => exact ⟨rfl, rfl⟩
  | some other =>
    rcases tops other rfl with rfl | shorter
    · exact ⟨by simp [Lexeme.longer], by simp [Lexeme.longer]⟩
    · exact ⟨if_pos shorter, if_neg (by omega)⟩

theorem longest_of_tops {rules : List Rule} {rule : Rule} {source : List Char} {found : Lexeme}
    (listed : rule ∈ rules) (finds : rule source = some found)
    (tops : ∀ other ∈ rules, found.Tops (other source)) : longest rules source = some found := by
  suffices general : ∀ (rs : List Rule) (best : Option Lexeme), (∀ r ∈ rs, r ∈ rules) →
      found.Tops best → rule ∈ rs ∨ best = some found →
      rs.foldl (fun best r => Lexeme.longer best (r source)) best = some found from
    general rules none (fun _ member => member) (by simp [Lexeme.Tops]) (Or.inl listed)
  intro rs
  induction rs with
  | nil => simp
  | cons r rs ih =>
    intro best within below present
    have topsHere := tops r (within r (by simp))
    refine ih _ (fun r' member => within r' (by simp [member])) (below.longer topsHere) ?_
    rcases present with member | rfl
    · rcases List.mem_cons.1 member with rfl | later
      · exact Or.inr (by simpa only [finds] using below.wins.1)
      · exact Or.inl later
    · exact Or.inr topsHere.wins.2

/-! ### What each rule finds -/

theorem Rule.symbol_eq_some {spelling source : List Char} {kind : TokenKind} {found : Lexeme} :
    Rule.symbol spelling kind source = some found ↔
      spelling <+: source ∧ found = ⟨kind, spelling⟩ := by
  rw [Rule.symbol, ← List.isPrefixOf_iff_prefix]
  split
  · simp_all only [Option.some.injEq, true_and]
    exact eq_comm
  · simp_all

theorem Rule.word_eq_some {c : Char} {rest : List Char} {found : Lexeme} :
    Rule.word (c :: rest) = some found ↔ isWordStart c = true ∧
      found = ⟨wordKind (c :: rest.takeWhile isWordPart), c :: rest.takeWhile isWordPart⟩ := by
  rw [Rule.word]
  split
  · simp_all only [Option.some.injEq, true_and]
    exact eq_comm
  · simp_all

theorem Rule.digits_eq_some {c : Char} {rest : List Char} {found : Lexeme} :
    Rule.digits (c :: rest) = some found ↔ c.isDigit = true ∧
      found = ⟨.integer, c :: rest.takeWhile Char.isDigit⟩ := by
  rw [Rule.digits, List.takeWhile_cons]
  cases c.isDigit <;> simp [eq_comm]

theorem Rule.quoted_cons {c : Char} {rest : List Char} {found : Lexeme}
    (finds : Rule.quoted (c :: rest) = some found) : c = '"' := by
  unfold Rule.quoted at finds
  split at finds
  · simp_all
  · simp at finds

theorem Rule.quoted_closed {text rest : List Char} (inside : '"' ∉ text) :
    Rule.quoted ('"' :: (text ++ '"' :: rest)) = some ⟨.string, '"' :: (text ++ ['"'])⟩ := by
  have plain : ∀ c ∈ text, (c != '"') = true := by
    intro c member
    simp only [bne_iff_ne]
    rintro rfl
    exact inside member
  simp [Rule.quoted, List.dropWhile_append_of_pos plain, List.takeWhile_append_of_pos plain]

/-! ### First characters -/

theorem isDigit_iff {c : Char} : c.isDigit = true ↔ 48 ≤ c.toNat ∧ c.toNat ≤ 57 := by
  simp [Char.isDigit, UInt32.le_iff_toNat_le]

theorem isWordStart_iff {c : Char} : isWordStart c = true ↔
    65 ≤ c.toNat ∧ c.toNat ≤ 90 ∨ 97 ≤ c.toNat ∧ c.toNat ≤ 122 ∨ c.toNat = 95 := by
  have underscore : c = '_' ↔ c.toNat = 95 := Char.toNat_inj.symm
  have upper : c.isUpper = decide (c.val ≥ 65 ∧ c.val ≤ 90) := rfl
  have lower : c.isLower = (decide (c.val ≥ 97) && decide (c.val ≤ 122)) := rfl
  have letter : c.isAlpha = (c.isUpper || c.isLower) := rfl
  simp [isWordStart, letter, upper, lower, UInt32.le_iff_toNat_le, underscore, or_assoc]

theorem range_of_isBlank {c : Char} (blank : isBlank c = true) :
    c.toNat ≤ 32 ∨ 133 ≤ c.toNat := by
  simp [isBlank, blankRanges] at blank
  omega

theorem isDigit_eq_false_of_isWordStart {c : Char} (start : isWordStart c = true) :
    c.isDigit = false := by
  have range := isWordStart_iff.1 start
  apply Bool.eq_false_iff.2
  intro digit
  have low := isDigit_iff.1 digit
  omega

theorem isBlank_eq_false {c : Char} (start : isWordStart c = true ∨ c.isDigit = true) :
    isBlank c = false := by
  apply Bool.eq_false_iff.2
  intro blank
  have outside := range_of_isBlank blank
  rcases start with start | digit
  · have range := isWordStart_iff.1 start
    omega
  · have range := isDigit_iff.1 digit
    omega

theorem symbols_head : ∀ entry ∈ symbols, ∀ c, entry.1.head? = some c →
    isWordStart c = false ∧ c ≠ '"' ∧ c.isDigit = false ∧ isBlank c = false := by
  have heads : ∀ entry ∈ symbols, entry.1.head?.all (fun c =>
      !isWordStart c && c != '"' && !c.isDigit && !isBlank c) = true := by decide
  intro entry listed c head
  have here := heads entry listed
  rw [head] at here
  simpa [and_assoc] using here

/-- What may be found in `c :: rest`, by what `c` is. -/
inductive Found (c : Char) (rest : List Char) : Lexeme → Prop
  | symbol (entry : List Char × TokenKind) (listed : entry ∈ symbols)
      (ahead : entry.1 <+: c :: rest) : Found c rest ⟨entry.2, entry.1⟩
  | word (start : isWordStart c = true) :
      Found c rest ⟨wordKind (c :: rest.takeWhile isWordPart), c :: rest.takeWhile isWordPart⟩
  | quoted {found : Lexeme} (quote : c = '"') (finds : Rule.quoted (c :: rest) = some found) :
      Found c rest found
  | digits (digit : c.isDigit = true) : Found c rest ⟨.integer, c :: rest.takeWhile Char.isDigit⟩

theorem found_of_rule {c : Char} {rest : List Char} {rule : Rule} {found : Lexeme}
    (listed : rule ∈ lexicalRules) (finds : rule (c :: rest) = some found) :
    Found c rest found := by
  simp only [lexicalRules, List.mem_append, List.mem_map, List.mem_cons, List.not_mem_nil,
    or_false] at listed
  rcases listed with ⟨entry, inSymbols, rfl⟩ | rfl | rfl | rfl
  · obtain ⟨ahead, rfl⟩ := Rule.symbol_eq_some.1 finds
    exact .symbol entry inSymbols ahead
  · obtain ⟨start, rfl⟩ := Rule.word_eq_some.1 finds
    exact .word start
  · exact .quoted (Rule.quoted_cons finds) finds
  · obtain ⟨digit, rfl⟩ := Rule.digits_eq_some.1 finds
    exact .digits digit

theorem Found.head_symbol {c : Char} {rest : List Char} {entry : List Char × TokenKind}
    (listed : entry ∈ symbols) (ahead : entry.1 <+: c :: rest) : entry.1.head? = some c := by
  have nonempty := symbols_ne_nil entry listed
  obtain ⟨more, whole⟩ := ahead
  cases spelled : entry.1 with
  | nil => exact absurd spelled nonempty
  | cons d tail =>
    rw [spelled, List.cons_append, List.cons.injEq] at whole
    rw [whole.1]
    rfl

theorem lexemeAt_of_rule {c : Char} {rest : List Char} (rule : Rule) {found : Lexeme}
    (listed : rule ∈ lexicalRules) (finds : rule (c :: rest) = some found)
    (tops : ∀ other, Found c rest other → other = found ∨ other.text.length < found.text.length) :
    lexemeAt c rest = found := by
  have longest : longest lexicalRules (c :: rest) = some found :=
    longest_of_tops listed finds fun _ listed other finds =>
      tops other (found_of_rule listed finds)
  rw [lexemeAt, longest]
  rfl

theorem lexemeAt_word {c : Char} {rest : List Char} (start : isWordStart c = true) :
    lexemeAt c rest =
      ⟨wordKind (c :: rest.takeWhile isWordPart), c :: rest.takeWhile isWordPart⟩ := by
  refine lexemeAt_of_rule Rule.word (by simp [lexicalRules])
    (Rule.word_eq_some.2 ⟨start, rfl⟩) fun other found => ?_
  cases found with
  | symbol entry listed ahead =>
    have apart := (symbols_head entry listed c (Found.head_symbol listed ahead)).1
    rw [start] at apart
    contradiction
  | word _ => exact Or.inl rfl
  | quoted quote _ =>
    rw [quote] at start
    contradiction
  | digits digit =>
    rw [isDigit_eq_false_of_isWordStart start] at digit
    contradiction

theorem lexemeAt_digits {c : Char} {rest : List Char} (digit : c.isDigit = true) :
    lexemeAt c rest = ⟨.integer, c :: rest.takeWhile Char.isDigit⟩ := by
  have notWord : isWordStart c ≠ true := fun start => by
    rw [isDigit_eq_false_of_isWordStart start] at digit
    contradiction
  refine lexemeAt_of_rule Rule.digits (by simp [lexicalRules])
    (Rule.digits_eq_some.2 ⟨digit, rfl⟩) fun other found => ?_
  cases found with
  | symbol entry listed ahead =>
    have apart := (symbols_head entry listed c (Found.head_symbol listed ahead)).2.2.1
    rw [digit] at apart
    contradiction
  | word start => exact absurd start notWord
  | quoted quote _ =>
    rw [quote] at digit
    contradiction
  | digits _ => exact Or.inl rfl

theorem lexemeAt_quoted {text rest : List Char} (inside : '"' ∉ text) :
    lexemeAt '"' (text ++ '"' :: rest) = ⟨.string, '"' :: (text ++ ['"'])⟩ := by
  refine lexemeAt_of_rule Rule.quoted (by simp [lexicalRules])
    (Rule.quoted_closed inside) fun other found => ?_
  cases found with
  | symbol entry listed ahead =>
    exact absurd rfl (symbols_head entry listed '"' (Found.head_symbol listed ahead)).2.1
  | word start => contradiction
  | quoted _ finds =>
    rw [Rule.quoted_closed inside, Option.some.injEq] at finds
    exact Or.inl finds.symm
  | digits digit => contradiction

/-- Symbols compete with each other only by one more equality sign. -/
theorem symbols_prefix : ∀ entry ∈ symbols, ∀ other ∈ symbols, entry.1 <+: other.1 →
    other = entry ∨ (other.1.drop entry.1.length).head? = some '=' := by decide

theorem symbols_shorter : ∀ entry ∈ symbols, ∀ other ∈ symbols, other.1 <+: entry.1 →
    other = entry ∨ other.1.length < entry.1.length := by decide

theorem lexemeAt_symbol {entry : List Char × TokenKind} {c : Char} {text rest : List Char}
    (listed : entry ∈ symbols) (spelled : entry.1 = c :: text) (plain : rest.head? ≠ some '=') :
    lexemeAt c (text ++ rest) = ⟨entry.2, entry.1⟩ := by
  have whole : entry.1 ++ rest = c :: (text ++ rest) := by rw [spelled, List.cons_append]
  have apart := symbols_head entry listed c (by rw [spelled]; rfl)
  refine lexemeAt_of_rule (Rule.symbol entry.1 entry.2) ?_
    (Rule.symbol_eq_some.2 ⟨⟨rest, whole⟩, rfl⟩) fun other found => ?_
  · simp only [lexicalRules, List.mem_append, List.mem_map]
    exact Or.inl ⟨entry, listed, rfl⟩
  cases found with
  | word start => simp [apart.1] at start
  | quoted quote _ => exact absurd quote apart.2.1
  | digits digit => simp [apart.2.2.1] at digit
  | symbol entry' listed' ahead =>
    rw [← whole] at ahead
    rcases List.prefix_or_prefix_of_prefix ahead (List.prefix_append entry.1 rest) with
      shorter | longer
    · rcases symbols_shorter entry listed entry' listed' shorter with rfl | shorter
      · exact Or.inl rfl
      · exact Or.inr shorter
    · rcases symbols_prefix entry listed entry' listed' longer with rfl | equals
      · exact Or.inl rfl
      · obtain ⟨more, extended⟩ := longer
        rw [← extended, List.prefix_append_right_inj] at ahead
        obtain ⟨tail, split⟩ := ahead
        rw [← extended, List.drop_left] at equals
        rw [← split, List.head?_append, equals] at plain
        simp at plain

/-! ### Texts and their tokens -/

theorem lexemes_eq_cons {source rest : List Char} {l : Lexeme}
    (next : nextLexeme source = some (l, rest)) : lexemes source = l :: lexemes rest := by
  rw [lexemes]
  split <;> simp_all

theorem lexemes_eq_nil_iff {source : List Char} :
    lexemes source = [] ↔ nextLexeme source = none := by
  rw [lexemes]
  split <;> simp_all

theorem nextLexeme_eq_none_iff {source : List Char} :
    nextLexeme source = none ↔ source.dropWhile isBlank = [] := by
  rw [nextLexeme]
  split <;> simp_all

theorem lexemes_blank {c : Char} {rest : List Char} (blank : isBlank c = true) :
    lexemes (c :: rest) = lexemes rest := by
  have same : nextLexeme (c :: rest) = nextLexeme rest := by
    rw [nextLexeme, List.dropWhile_cons_of_pos blank, nextLexeme]
  rw [lexemes, same, ← lexemes]

theorem lexemes_append {c : Char} {text rest : List Char} {kind : TokenKind}
    (visible : isBlank c = false) (taken : lexemeAt c (text ++ rest) = ⟨kind, c :: text⟩) :
    lexemes (c :: text ++ rest) = ⟨kind, c :: text⟩ :: lexemes rest := by
  apply lexemes_eq_cons
  rw [nextLexeme, List.cons_append, List.dropWhile_cons_of_neg (by simp [visible])]
  simp [taken]

/-- What follows does not lengthen the last lexeme. -/
def Breaks (rest : List Char) : Prop :=
  ∀ c, rest.head? = some c → isWordPart c = false ∧ c ≠ '='

theorem breaks_nil : Breaks [] := by simp [Breaks]

theorem breaks_cons {c : Char} {rest : List Char} (part : isWordPart c = false) (sign : c ≠ '=') :
    Breaks (c :: rest) := by
  intro d head
  obtain rfl : c = d := by simpa using head
  exact ⟨part, sign⟩

theorem Breaks.append {text rest : List Char} (first : Breaks text) (second : Breaks rest) :
    Breaks (text ++ rest) := by
  cases text with
  | nil => exact second
  | cons c text => exact first

theorem Breaks.takeWhile {p : Char → Bool} {text rest : List Char} (inside : ∀ c ∈ text, p c = true)
    (breaks : Breaks rest) (part : ∀ c, p c = true → isWordPart c = true) :
    (text ++ rest).takeWhile p = text := by
  rw [List.takeWhile_append_of_pos inside]
  cases rest with
  | nil => simp
  | cons c rest =>
    have outside : ¬ p c = true := fun inside => by
      have apart := (breaks c rfl).1
      rw [part c inside] at apart
      contradiction
    rw [List.takeWhile_cons_of_neg outside, List.append_nil]

/-- A symbol of one character that may follow a word or a symbol at once. -/
abbrev Punctuation (c : Char) (kind : TokenKind) : Prop :=
  ([c], kind) ∈ symbols ∧ isWordPart c = false ∧ c ≠ '='

namespace Punctuation

theorem comma : Punctuation ',' .comma := by decide

theorem semicolon : Punctuation ';' .semicolon := by decide

theorem colon : Punctuation ':' .colon := by decide

theorem leftParen : Punctuation '(' .leftParen := by decide

theorem rightParen : Punctuation ')' .rightParen := by decide

theorem leftBracket : Punctuation '[' .leftBracket := by decide

theorem rightBracket : Punctuation ']' .rightBracket := by decide

theorem leftBrace : Punctuation '{' .leftBrace := by decide

theorem rightBrace : Punctuation '}' .rightBrace := by decide

theorem bang : Punctuation '!' .bang := by decide

theorem minus : Punctuation '-' .minus := by decide

end Punctuation

def isWord : List Char → Bool
  | [] => false
  | c :: rest => isWordStart c && rest.all isWordPart

theorem keywords_spelled : ∀ entry ∈ keywords,
    isWord entry.1 = true ∧ wordKind entry.1 = entry.2 := by decide

theorem wordKind_mem (word : List Char) :
    wordKind word ∈ TokenKind.identifier :: keywords.map Prod.snd := by
  rw [wordKind]
  cases found : keywords.lookup word with
  | none => exact List.mem_cons_self
  | some kind =>
    obtain ⟨before, after, split, _⟩ := List.lookup_eq_some_iff.1 found
    rw [split]
    simp

theorem wordKind_ne_string (word : List Char) : wordKind word ≠ .string := by
  have listed := wordKind_mem word
  intro same
  rw [same] at listed
  exact absurd listed (by decide)

theorem wordKind_of_not_keyword {word : List Char} (ordinary : word ∉ keywords.map Prod.fst) :
    wordKind word = .identifier := by
  have missing : keywords.lookup word = none := by
    rw [List.lookup_eq_none_iff]
    intro entry listed
    rw [bne_iff_ne]
    rintro rfl
    exact ordinary (List.mem_map_of_mem listed)
  rw [wordKind, missing]
  rfl

theorem symbols_ne_string : ∀ entry ∈ symbols, entry.2 ≠ .string := by decide

/-- The text is read as these tokens, whatever breaks may follow. It does not start with what would
lengthen a symbol before it. -/
structure Scans (text : List Char) (ts : List Token) : Prop where
  plain : text.head? ≠ some '='
  reads : ∀ rest, Breaks rest →
    (lexemes (text ++ rest)).map Lexeme.token = ts ++ (lexemes rest).map Lexeme.token

namespace Scans

variable {text more : List Char} {ts us : List Token}

theorem of_eq (scans : Scans text ts) (same : more = text) : Scans more ts := same ▸ scans

theorem nil : Scans [] [] := ⟨by simp, fun _ _ => rfl⟩

theorem append (first : Scans text ts) (breaks : Breaks more) (second : Scans more us) :
    Scans (text ++ more) (ts ++ us) := by
  refine ⟨?_, fun rest after => ?_⟩
  · cases text with
    | nil => exact second.plain
    | cons c text => exact first.plain
  · rw [List.append_assoc, first.reads _ (breaks.append after), second.reads rest after,
      List.append_assoc]

theorem blank (after : Scans text ts) : Scans (' ' :: text) ts := by
  refine ⟨by simp, fun rest breaks => ?_⟩
  rw [List.cons_append, lexemes_blank (by decide)]
  exact after.reads rest breaks

theorem plain_append (after : Scans text ts) {rest : List Char} (breaks : Breaks rest) :
    (text ++ rest).head? ≠ some '=' := by
  cases text with
  | nil => exact fun head => (breaks _ head).2 rfl
  | cons c text => exact after.plain

theorem symbol_reads (spelling : List Char) (kind : TokenKind) (listed : (spelling, kind) ∈ symbols)
    (after : Scans text ts) {rest : List Char} (breaks : Breaks rest) :
    (lexemes (spelling ++ text ++ rest)).map Lexeme.token =
      ⟨kind, String.ofList spelling⟩ :: ts ++ (lexemes rest).map Lexeme.token := by
  have nonempty := symbols_ne_nil _ listed
  obtain ⟨c, tail, rfl⟩ := List.exists_cons_of_ne_nil nonempty
  have visible := (symbols_head _ listed c rfl).2.2.2
  have taken := lexemeAt_symbol listed rfl (after.plain_append breaks)
  rw [List.append_assoc, lexemes_append visible taken, List.map_cons, after.reads rest breaks,
    Lexeme.token, if_neg (symbols_ne_string _ listed)]
  rfl

theorem mark {c : Char} {kind : TokenKind} (punctuation : Punctuation c kind)
    (after : Scans text ts) : Scans (c :: text) (⟨kind, String.ofList [c]⟩ :: ts) := by
  obtain ⟨listed, _, other⟩ := punctuation
  refine ⟨?_, fun rest breaks => after.symbol_reads [c] kind listed breaks⟩
  intro head
  exact other (by simpa using head)

theorem padded (inside : Scans text ts) : Scans (' ' :: (text ++ [' '])) ts := by
  have closed := inside.append (breaks_cons (by decide) (by decide)) nil.blank
  rw [List.append_nil] at closed
  exact closed.blank

theorem enclosed {l r : Char} {kind kind' : TokenKind} (opening : Punctuation l kind)
    (inside : Scans text ts) (closing : Punctuation r kind') :
    Scans (l :: (text ++ [r]))
      (⟨kind, String.ofList [l]⟩ :: (ts ++ [⟨kind', String.ofList [r]⟩])) := by
  have closed := inside.append (breaks_cons closing.2.1 closing.2.2) (nil.mark closing)
  exact closed.mark opening

/-- A symbol between blanks may also be an equality sign. -/
theorem spaced (spelling : List Char) (kind : TokenKind) (listed : (spelling, kind) ∈ symbols)
    (after : Scans text ts) :
    Scans (' ' :: (spelling ++ ' ' :: text)) (⟨kind, String.ofList spelling⟩ :: ts) := by
  refine ⟨by simp, fun rest breaks => ?_⟩
  rw [List.cons_append, lexemes_blank (by decide)]
  exact after.blank.symbol_reads spelling kind listed breaks

theorem word (word : isWord text = true) :
    Scans text [⟨wordKind text, String.ofList text⟩] := by
  cases text with
  | nil => contradiction
  | cons c text =>
    simp only [isWord, Bool.and_eq_true, List.all_eq_true] at word
    obtain ⟨start, part⟩ := word
    refine ⟨?_, fun rest breaks => ?_⟩
    · rintro head
      obtain rfl : c = '=' := by simpa using head
      contradiction
    · have taken := @lexemeAt_word c (text ++ rest) start
      rw [breaks.takeWhile part fun _ inside => inside] at taken
      rw [lexemes_append (isBlank_eq_false (.inl start)) taken, List.map_cons, Lexeme.token,
        if_neg (wordKind_ne_string _)]
      rfl

theorem keyword (spelling : List Char) (kind : TokenKind) (listed : (spelling, kind) ∈ keywords) :
    Scans spelling [⟨kind, String.ofList spelling⟩] := by
  obtain ⟨spelled, same⟩ := keywords_spelled _ listed
  have scans := word spelled
  rwa [same] at scans

theorem digits {c : Char} (all : ∀ d ∈ c :: text, d.isDigit = true) :
    Scans (c :: text) [⟨.integer, String.ofList (c :: text)⟩] := by
  have digit : c.isDigit = true := all c (by simp)
  refine ⟨?_, fun rest breaks => ?_⟩
  · rintro head
    obtain rfl : c = '=' := by simpa using head
    contradiction
  · have part : ∀ d, d.isDigit = true → isWordPart d = true := fun d digit => by
      simp [isWordPart, Char.isAlphanum, digit]
    have taken := @lexemeAt_digits c (text ++ rest) digit
    rw [breaks.takeWhile (fun d member => all d (by simp [member])) part] at taken
    rw [lexemes_append (isBlank_eq_false (.inr digit)) taken]
    rfl

theorem quoted (inside : '"' ∉ text) :
    Scans ('"' :: (text ++ ['"'])) [⟨.string, String.ofList text⟩] := by
  refine ⟨by simp, fun rest _ => ?_⟩
  have taken := @lexemeAt_quoted text rest inside
  rw [← List.singleton_append, ← List.append_assoc] at taken
  rw [lexemes_append (by decide) taken, List.map_cons, Lexeme.token, if_pos rfl]
  simp

theorem tokens_eq {source : String} (scans : Scans source.toList ts) : tokens source = ts := by
  have whole := scans.reads [] breaks_nil
  have none : lexemes [] = [] := lexemes_eq_nil_iff.2 rfl
  rw [none, List.append_nil, List.map_nil, List.append_nil] at whole
  exact whole

end Scans

end MonkeyLanguage
