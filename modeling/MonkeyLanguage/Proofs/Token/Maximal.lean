import MonkeyLanguage.Proofs.Token.Seam

/-!
# Lossless maximal munch

`Spells` lists how the tokens of each kind are written, `Munches` says which token a text opens
with, and `Splits` cuts a whole text into blanks and tokens without leaving anything out. A text is
split in one way only, into the tokens that the scanner finds.
-/

namespace MonkeyLanguage

/-! ### How tokens are written -/

/-- The text that a token is read from; a string stands there with its quotes. -/
def Token.written (t : Token) : List Char :=
  if t.kind = .string then '"' :: (t.literal.toList ++ ['"']) else t.literal.toList

inductive Spells : TokenKind → List Char → Prop
  | symbol {kind : TokenKind} {text : List Char} (listed : (text, kind) ∈ symbols) :
      Spells kind text
  | keyword {kind : TokenKind} {text : List Char} (listed : (text, kind) ∈ keywords) :
      Spells kind text
  | name {text : List Char} (word : isWord text = true) (ordinary : text ∉ keywords.map Prod.fst) :
      Spells .identifier text
  | number {text : List Char} (nonempty : text ≠ []) (digits : ∀ c ∈ text, c.isDigit = true) :
      Spells .integer text
  | quoted {inside : List Char} (plain : '"' ∉ inside) : Spells .string ('"' :: (inside ++ ['"']))

/-- The token that a text opens with: the longest that is spelled there, or an illegal one. -/
inductive Munches : List Char → Token → Prop
  | longest {ahead : List Char} {t : Token} (spelled : Spells t.kind t.written)
      (opens : t.written <+: ahead)
      (most : ∀ kind text, Spells kind text → text <+: ahead → text.length ≤ t.written.length) :
      Munches ahead t
  | unterminated {rest : List Char} (unclosed : '"' ∉ rest) :
      Munches ('"' :: rest) ⟨.illegal, String.ofList ('"' :: rest)⟩
  | other {c : Char} {rest : List Char} (noQuote : c ≠ '"')
      (nothing : ∀ kind text, Spells kind text → ¬ text <+: c :: rest) :
      Munches (c :: rest) ⟨.illegal, String.ofList [c]⟩

/-- The text is blanks and tokens in turn. Each gap reaches up to a visible character, and each
token is what the text behind the gap opens with. -/
inductive Splits : List Char → List Token → Prop
  | ends {gap : List Char} (blank : ∀ c ∈ gap, isBlank c = true) : Splits gap []
  | token {gap rest : List Char} {t : Token} {ts : List Token}
      (blank : ∀ c ∈ gap, isBlank c = true)
      (visible : ∀ c, t.written.head? = some c → isBlank c = false)
      (munched : Munches (t.written ++ rest) t) (others : Splits rest ts) :
      Splits (gap ++ (t.written ++ rest)) (t :: ts)

/-! ### Spellings and rules -/

theorem spells_word {text : List Char} (word : isWord text = true) :
    Spells (wordKind text) text := by
  by_cases reserved : text ∈ keywords.map Prod.fst
  · obtain ⟨⟨text, kind⟩, listed, rfl⟩ := List.mem_map.1 reserved
    rw [(keywords_spelled _ listed).2]
    exact .keyword listed
  · rw [wordKind_of_not_keyword reserved]
    exact .name word reserved

theorem prefix_takeWhile {p : Char → Bool} {text source : List Char}
    (inside : ∀ c ∈ text, p c = true) (opens : text <+: source) : text <+: source.takeWhile p := by
  obtain ⟨rest, rfl⟩ := opens
  rw [List.takeWhile_append_of_pos inside]
  exact List.prefix_append _ _

/-- What is spelled at the start of a text, a rule finds, or something longer. -/
theorem Spells.found {kind : TokenKind} {text : List Char} {c : Char} {rest : List Char}
    (spelled : Spells kind text) (opens : text <+: c :: rest) :
    ∃ rule ∈ lexicalRules, ∃ l, rule (c :: rest) = some l ∧ text.length ≤ l.text.length := by
  have words : isWord text = true →
      ∃ rule ∈ lexicalRules, ∃ l, rule (c :: rest) = some l ∧ text.length ≤ l.text.length := by
    intro word
    cases text with
    | nil => contradiction
    | cons d text =>
      obtain ⟨rfl, ahead⟩ := List.cons_prefix_cons.1 opens
      simp only [isWord, Bool.and_eq_true, List.all_eq_true] at word
      have within := (prefix_takeWhile word.2 ahead).length_le
      exact ⟨Rule.word, by simp [lexicalRules], _, Rule.word_eq_some.2 ⟨word.1, rfl⟩,
        Nat.succ_le_succ within⟩
  cases spelled with
  | symbol listed =>
    refine ⟨Rule.symbol text kind, ?_, _, Rule.symbol_eq_some.2 ⟨opens, rfl⟩, Nat.le_refl _⟩
    exact List.mem_append_left _ (List.mem_map.2 ⟨_, listed, rfl⟩)
  | keyword listed => exact words (keywords_spelled _ listed).1
  | name word => exact words word
  | number nonempty digits =>
    cases text with
    | nil => exact absurd rfl nonempty
    | cons d text =>
      obtain ⟨rfl, ahead⟩ := List.cons_prefix_cons.1 opens
      have inside : ∀ e ∈ text, e.isDigit = true := fun e member => digits e (by simp [member])
      have within := (prefix_takeWhile inside ahead).length_le
      exact ⟨Rule.digits, by simp [lexicalRules], _,
        Rule.digits_eq_some.2 ⟨digits d (by simp), rfl⟩, Nat.succ_le_succ within⟩
  | @quoted inside plain =>
    obtain ⟨rfl, more, rfl⟩ := List.cons_prefix_cons.1 opens
    rw [List.append_assoc, List.singleton_append]
    exact ⟨Rule.quoted, by simp [lexicalRules], _, Rule.quoted_closed plain, Nat.le_refl _⟩

/-- What a rule finds: something spelled at the start of the text, or all of a text that opens a
string and does not close it. -/
inductive Recognised (source : List Char) : Lexeme → Prop
  | spelled {l : Lexeme} (spelled : Spells l.kind l.text) (opens : l.text <+: source) :
      Recognised source l
  | unterminated {rest : List Char} (opened : source = '"' :: rest) (unclosed : '"' ∉ rest) :
      Recognised source ⟨.illegal, '"' :: rest⟩

theorem Found.recognised {c : Char} {rest : List Char} {l : Lexeme} (found : Found c rest l) :
    Recognised (c :: rest) l := by
  cases found with
  | symbol entry listed ahead => exact .spelled (.symbol listed) ahead
  | word start =>
    refine .spelled (spells_word ?_) (List.cons_prefix_cons.2 ⟨rfl, List.takeWhile_prefix _⟩)
    simp [isWord, start]
  | quoted quote finds =>
    subst quote
    by_cases closed : '"' ∈ rest
    · obtain ⟨inside, behind, rfl, plain⟩ := List.eq_append_cons_of_mem closed
      obtain rfl := Option.some.inj ((Rule.quoted_closed plain).symm.trans finds)
      exact .spelled (.quoted plain) ⟨behind, by simp⟩
    · obtain rfl := Option.some.inj ((Rule.quoted_open closed).symm.trans finds)
      exact .unterminated rfl closed
  | digits digit =>
    refine .spelled (.number (List.cons_ne_nil _ _) ?_)
      (List.cons_prefix_cons.2 ⟨rfl, List.takeWhile_prefix _⟩)
    intro d member
    rcases List.mem_cons.1 member with rfl | member
    · exact digit
    · exact List.all_eq_true.1 List.all_takeWhile d member

/-- What is spelled is one lexeme when it stands alone. -/
theorem Spells.lexemeAt_eq {kind : TokenKind} {c : Char} {text : List Char}
    (spelled : Spells kind (c :: text)) : lexemeAt c text = ⟨kind, c :: text⟩ := by
  have words : isWord (c :: text) = true →
      lexemeAt c text = ⟨wordKind (c :: text), c :: text⟩ := by
    intro word
    simp only [isWord, Bool.and_eq_true, List.all_eq_true] at word
    rw [lexemeAt_word word.1, List.takeWhile_eq_self_iff.2 word.2]
  generalize whole : c :: text = source at spelled words ⊢
  cases spelled with
  | symbol listed =>
    subst whole
    have alone : lexemeAt c (text ++ []) = ⟨kind, c :: text⟩ :=
      lexemeAt_symbol listed rfl (by simp)
    rwa [List.append_nil] at alone
  | keyword listed =>
    obtain ⟨word, same⟩ := keywords_spelled _ listed
    rw [words word, same]
  | name word ordinary => rw [words word, wordKind_of_not_keyword ordinary]
  | number nonempty digits =>
    subst whole
    rw [lexemeAt_digits (digits c (by simp)),
      List.takeWhile_eq_self_iff.2 fun d member => digits d (by simp [member])]
  | quoted plain =>
    obtain ⟨rfl, rfl⟩ := List.cons.inj whole
    exact lexemeAt_quoted plain

theorem Spells.ne_nil {kind : TokenKind} {text : List Char} (spelled : Spells kind text) :
    text ≠ [] := by
  cases spelled with
  | symbol listed => exact symbols_ne_nil _ listed
  | keyword listed =>
    rintro rfl
    have word := (keywords_spelled _ listed).1
    contradiction
  | name word =>
    rintro rfl
    contradiction
  | number nonempty => exact nonempty
  | quoted => exact List.cons_ne_nil _ _

/-- No text is spelled as two kinds of token. -/
theorem Spells.unique {kind kind' : TokenKind} {text : List Char} (spelled : Spells kind text)
    (spelled' : Spells kind' text) : kind = kind' := by
  obtain ⟨c, rest, rfl⟩ := List.exists_cons_of_ne_nil spelled.ne_nil
  have same := spelled.lexemeAt_eq.symm.trans spelled'.lexemeAt_eq
  exact congrArg Lexeme.kind same

/-- Only a closed string is spelled where a quote stands. -/
theorem Spells.closed {kind : TokenKind} {text rest : List Char} (spelled : Spells kind text)
    (opens : text <+: '"' :: rest) : '"' ∈ rest := by
  obtain ⟨c, tail, rfl⟩ := List.exists_cons_of_ne_nil spelled.ne_nil
  obtain ⟨rfl, ahead⟩ := List.cons_prefix_cons.1 opens
  generalize whole : '"' :: tail = source at spelled
  cases spelled with
  | symbol listed => exact absurd rfl (symbols_head _ listed '"' (by rw [← whole]; rfl)).2.1
  | keyword listed =>
    have word := (keywords_spelled _ listed).1
    rw [← whole] at word
    contradiction
  | name word =>
    rw [← whole] at word
    contradiction
  | number _ digits => exact absurd (digits '"' (by simp [← whole])) (by decide)
  | quoted =>
    obtain ⟨-, rfl⟩ := List.cons.inj whole
    exact ahead.mem (by simp)

/-! ### The order of the rules -/

theorem Recognised.closing {rest : List Char} {l : Lexeme} (h : Recognised ('"' :: rest) l)
    (unclosed : '"' ∉ rest) : l = ⟨.illegal, '"' :: rest⟩ := by
  cases h with
  | spelled spelled opens => exact absurd (spelled.closed opens) unclosed
  | unterminated opened => rw [opened]

/-- Two finds of the same length are the same. -/
theorem Recognised.eq_of_length {source : List Char} {l l' : Lexeme} (h : Recognised source l)
    (h' : Recognised source l') (same : l.text.length = l'.text.length) : l = l' := by
  cases h with
  | spelled spelled opens =>
    cases h' with
    | spelled spelled' opens' =>
      have within := List.prefix_of_prefix_length_le opens opens' (Nat.le_of_eq same)
      obtain ⟨kind, text⟩ := l
      obtain ⟨kind', text'⟩ := l'
      obtain rfl : text = text' := within.eq_of_length same
      obtain rfl : kind = kind' := spelled.unique spelled'
      rfl
    | unterminated opened unclosed =>
      subst opened
      exact (Recognised.spelled spelled opens).closing unclosed
  | unterminated opened unclosed =>
    subst opened
    exact (h'.closing unclosed).symm

theorem recognised_of_rule {rule : Rule} {source : List Char} {l : Lexeme}
    (listed : rule ∈ lexicalRules) (finds : rule source = some l) : Recognised source l := by
  cases source with
  | nil =>
    have nothing : ∀ rule ∈ lexicalRules, rule [] = none := by decide
    rw [nothing rule listed] at finds
    cases finds
  | cons c rest => exact (found_of_rule listed finds).recognised

theorem longest_eq_none {rules : List Rule} {source : List Char}
    (none : longest rules source = none) : ∀ rule ∈ rules, rule source = Option.none := by
  intro rule listed
  refine Option.eq_none_iff_forall_ne_some.2 fun l finds => ?_
  obtain ⟨l', found, -⟩ := covered_by_longest listed finds
  rw [none] at found
  cases found

/-- No two rules tie, so it does not matter which of them is tried first. -/
theorem longest_of_perm {rules : List Rule} (perm : rules.Perm lexicalRules)
    (source : List Char) : longest rules source = longest lexicalRules source := by
  cases taken : longest lexicalRules source with
  | none =>
    refine Option.eq_none_iff_forall_ne_some.2 fun l found => ?_
    obtain ⟨rule, listed, finds⟩ := longest_eq_some found
    rw [longest_eq_none taken rule (perm.mem_iff.1 listed)] at finds
    cases finds
  | some l =>
    obtain ⟨rule, listed, finds⟩ := longest_eq_some taken
    refine longest_of_tops (perm.mem_iff.2 listed) finds fun other listed' l' finds' => ?_
    obtain ⟨l'', found, le⟩ := covered_by_longest (perm.mem_iff.1 listed') finds'
    obtain rfl := Option.some.inj (taken.symm.trans found)
    rcases Nat.lt_or_eq_of_le le with shorter | same
    · exact .inr shorter
    · exact .inl ((recognised_of_rule (perm.mem_iff.1 listed') finds').eq_of_length
        (recognised_of_rule listed finds) same)

/-! ### The token that a text opens with -/

theorem Spells.string {text : List Char} (spelled : Spells .string text) :
    ∃ inside, '"' ∉ inside ∧ text = '"' :: (inside ++ ['"']) := by
  cases spelled with
  | symbol listed => exact absurd rfl (symbols_ne_string _ listed)
  | keyword listed => exact absurd (keywords_spelled _ listed).2 (wordKind_ne_string _)
  | quoted plain => exact ⟨_, plain, rfl⟩

/-- A token is written as the text of the lexeme that it comes from. -/
theorem Recognised.written_eq {source : List Char} {l : Lexeme} (h : Recognised source l) :
    l.token.written = l.text := by
  cases h with
  | spelled spelled =>
    obtain ⟨kind, text⟩ := l
    by_cases string : kind = .string
    · subst string
      obtain ⟨inside, -, rfl⟩ := spelled.string
      simp [Lexeme.token, Token.written]
    · simp [Lexeme.token, Token.written, string]
  | unterminated => simp [Lexeme.token, Token.written]

theorem munches_lexemeAt (c : Char) (rest : List Char) :
    Munches (c :: rest) (lexemeAt c rest).token ∧
      (lexemeAt c rest).token.written = (lexemeAt c rest).text := by
  rw [lexemeAt]
  cases taken : longest lexicalRules (c :: rest) with
  | none =>
    have none := longest_eq_none taken
    refine ⟨.other ?_ fun kind text spelled opens => ?_, by simp [Lexeme.token, Token.written]⟩
    · rintro rfl
      have refused := none Rule.quoted (by simp [lexicalRules])
      by_cases closed : '"' ∈ rest
      · obtain ⟨inside, behind, rfl, plain⟩ := List.eq_append_cons_of_mem closed
        rw [Rule.quoted_closed plain] at refused
        cases refused
      · rw [Rule.quoted_open closed] at refused
        cases refused
    · obtain ⟨rule, listed, l, finds, -⟩ := spelled.found opens
      rw [none rule listed] at finds
      cases finds
  | some l =>
    obtain ⟨rule, listed, finds⟩ := longest_eq_some taken
    have recognised := recognised_of_rule listed finds
    have written := recognised.written_eq
    refine ⟨?_, written⟩
    rw [Option.getD_some]
    cases recognised with
    | spelled spelled opens =>
      refine .longest (by rwa [written]) (by rwa [written]) fun kind text spelled' opens' => ?_
      obtain ⟨rule', listed', l', finds', le⟩ := spelled'.found opens'
      obtain ⟨l'', found, le'⟩ := covered_by_longest listed' finds'
      obtain rfl := Option.some.inj (taken.symm.trans found)
      rw [written]
      exact Nat.le_trans le le'
    | unterminated opened unclosed =>
      obtain ⟨rfl, rfl⟩ := List.cons.inj opened
      exact .unterminated unclosed

theorem Token.ext_written {t t' : Token} (same : t.kind = t'.kind)
    (written : t.written = t'.written) : t = t' := by
  obtain ⟨kind, literal⟩ := t
  obtain ⟨kind', literal'⟩ := t'
  obtain rfl : kind = kind' := same
  by_cases string : kind = .string
  · simpa [Token.written, string, String.toList_inj] using written
  · simpa [Token.written, string, String.toList_inj] using written

theorem Munches.unique {ahead : List Char} {t t' : Token} (h : Munches ahead t)
    (h' : Munches ahead t') : t = t' := by
  cases h with
  | longest spelled opens most =>
    cases h' with
    | longest spelled' opens' most' =>
      have same := Nat.le_antisymm (most' _ _ spelled opens) (most _ _ spelled' opens')
      have within := List.prefix_of_prefix_length_le opens opens' (Nat.le_of_eq same)
      have written := within.eq_of_length same
      exact Token.ext_written (spelled.unique (written ▸ spelled')) written
    | unterminated unclosed => exact absurd (spelled.closed opens) unclosed
    | other _ nothing => exact absurd opens (nothing _ _ spelled)
  | unterminated unclosed =>
    cases h' with
    | longest spelled opens => exact absurd (spelled.closed opens) unclosed
    | unterminated => rfl
    | other noQuote => exact absurd rfl noQuote
  | other noQuote nothing =>
    cases h' with
    | longest spelled opens => exact absurd opens (nothing _ _ spelled)
    | unterminated => exact absurd rfl noQuote
    | other => rfl

/-! ### Whole texts -/

theorem Spells.ne_endOfInput {kind : TokenKind} {text : List Char} (spelled : Spells kind text) :
    kind ≠ .endOfInput := by
  have noSymbol : ∀ entry ∈ symbols, entry.2 ≠ .endOfInput := by decide
  have noKeyword : ∀ entry ∈ keywords, entry.2 ≠ .endOfInput := by decide
  cases spelled with
  | symbol listed => exact noSymbol _ listed
  | keyword listed => exact noKeyword _ listed
  | name | number | quoted => exact nofun

theorem Munches.ne_endOfInput {ahead : List Char} {t : Token} (h : Munches ahead t) :
    t.kind ≠ .endOfInput := by
  cases h with
  | longest spelled => exact spelled.ne_endOfInput
  | unterminated | other => exact nofun

theorem Munches.written_ne_nil {ahead : List Char} {t : Token} (h : Munches ahead t) :
    t.written ≠ [] := by
  cases h with
  | longest spelled => exact spelled.ne_nil
  | unterminated | other => simp [Token.written]

theorem Munches.opens {ahead : List Char} {t : Token} (h : Munches ahead t) :
    t.written <+: ahead := by
  cases h with
  | longest _ opens => exact opens
  | unterminated | other => simp [Token.written]

theorem nextLexeme_eq_none_iff_blank {source : List Char} :
    nextLexeme source = none ↔ ∀ c ∈ source, isBlank c = true := by
  rw [nextLexeme_eq_none_iff, List.dropWhile_eq_nil_iff]

theorem splits_lexemes (source : List Char) :
    Splits source ((lexemes source).map Lexeme.token) := by
  fun_induction lexemes source with
  | case1 source ended => exact .ends (nextLexeme_eq_none_iff_blank.1 ended)
  | case2 source l rest taken ih =>
    unfold nextLexeme at taken
    split at taken
    · cases taken
    · rename_i c text visible
      obtain ⟨rfl, rfl⟩ := Prod.mk.inj (Option.some.inj taken)
      obtain ⟨munched, written⟩ := munches_lexemeAt c text
      obtain ⟨rest, split⟩ := munched.opens
      have behind : (c :: text).drop (lexemeAt c text).text.length = rest := by
        rw [← written, ← split, List.drop_left]
      rw [behind] at ih
      rw [← split] at munched
      have whole : source =
          source.takeWhile isBlank ++ ((lexemeAt c text).token.written ++ rest) := by
        rw [split, ← visible, List.takeWhile_append_dropWhile]
      rw [whole, behind]
      refine .token (List.all_eq_true.1 List.all_takeWhile) (fun d head => ?_) munched ih
      have start : isBlank c = false := by
        have stops := List.head?_dropWhile_not isBlank source
        rwa [visible] at stops
      have first : ((lexemeAt c text).token.written ++ rest).head? = some d := by
        rw [List.head?_append, head, Option.some_or]
      rw [split] at first
      rwa [← Option.some.inj first]

theorem Splits.eq_lexemes {source : List Char} {ts : List Token} (h : Splits source ts) :
    ts = (lexemes source).map Lexeme.token := by
  induction h with
  | ends blank => rw [lexemes_eq_nil_iff.2 (nextLexeme_eq_none_iff_blank.2 blank), List.map_nil]
  | @token gap rest t ts blank visible munched others ih =>
    obtain ⟨c, text, written⟩ := List.exists_cons_of_ne_nil munched.written_ne_nil
    have ahead : (gap ++ (t.written ++ rest)).dropWhile isBlank = c :: (text ++ rest) := by
      rw [List.dropWhile_append_of_pos blank, written, List.cons_append,
        List.dropWhile_cons_of_neg (by simp [visible c (by simp [written])])]
    have whole : t.written ++ rest = c :: (text ++ rest) := by rw [written, List.cons_append]
    rw [whole] at munched
    obtain ⟨munched', written'⟩ := munches_lexemeAt c (text ++ rest)
    obtain rfl := munched.unique munched'
    have next := nextLexeme_eq ahead
    rw [← written', ← whole, List.drop_left] at next
    rw [lexemes_eq_cons next, List.map_cons, ih]

theorem pullTokens_eq (n : Nat) (source : List Char) :
    pullTokens n source = ((lexemes source).map Lexeme.token).take n ++
      List.replicate (n - (lexemes source).length) .endOfInput := by
  induction n generalizing source with
  | zero => simp [pullTokens]
  | succ n ih =>
    rw [pullTokens, pullToken]
    cases next : nextLexeme source with
    | none =>
      have none : lexemes [] = [] := lexemes_eq_nil_iff.2 rfl
      rw [lexemes_eq_nil_iff.2 next]
      simp [ih, none, List.replicate_succ]
    | some found =>
      obtain ⟨l, rest⟩ := found
      rw [lexemes_eq_cons next]
      simp [ih]

theorem length_lexemes_le (source : List Char) : (lexemes source).length ≤ source.length := by
  fun_induction lexemes source with
  | case1 => exact Nat.zero_le _
  | case2 source l rest taken ih =>
    have shorter := nextLexeme_rest_lt taken
    rw [List.length_cons]
    omega

theorem Splits.consume {source : List Char} {ts : List Token} (h : Splits source ts) :
    ∀ t ∈ ts, t.kind ≠ .endOfInput ∧ t.written ≠ [] := by
  induction h with
  | ends => simp
  | token _ _ munched _ ih =>
    exact List.forall_mem_cons.2 ⟨⟨munched.ne_endOfInput, munched.written_ne_nil⟩, ih⟩

/-- There is one way to split a text, into the tokens that are read. Each of them takes something
of the text, then only the end of input follows, and no order of the rules changes what is found. -/
theorem scanning_is_maximal_munch (source : String) :
    (∀ ts, Splits source.toList ts ↔ ts = tokens source) ∧
      (∀ t ∈ tokens source, t.kind ≠ .endOfInput ∧ t.written ≠ []) ∧
      (tokens source).length ≤ source.length ∧
      (∀ n, pullTokens n source.toList = (tokens source).take n ++
        List.replicate (n - (tokens source).length) .endOfInput) ∧
      (∀ kind kind' text, Spells kind text → Spells kind' text → kind = kind') ∧
      ∀ rules : List Rule, rules.Perm lexicalRules →
        ∀ text, longest rules text = longest lexicalRules text := by
  refine ⟨fun ts => ⟨Splits.eq_lexemes, ?_⟩, (splits_lexemes source.toList).consume, ?_, ?_,
    fun _ _ _ => Spells.unique, fun _ => longest_of_perm⟩
  · rintro rfl
    exact splits_lexemes source.toList
  · rw [tokens, List.length_map, ← String.length_toList]
    exact length_lexemes_le source.toList
  · intro n
    rw [pullTokens_eq, tokens, List.length_map]

theorem scanning_unclosed_string :
    (∀ ts, Splits "le let==\"x é".toList ts ↔ ts = [⟨.identifier, "le"⟩, ⟨.letWord, "let"⟩,
        ⟨.equalEqual, "=="⟩, ⟨.illegal, "\"x é"⟩]) ∧
      (tokens "le let==\"x é").length ≤ 12 ∧
      pullTokens 6 "le let==\"x é".toList = [⟨.identifier, "le"⟩, ⟨.letWord, "let"⟩,
        ⟨.equalEqual, "=="⟩, ⟨.illegal, "\"x é"⟩, .endOfInput, .endOfInput] ∧
      (Token.mk .letWord "let").written ≠ [] ∧
      Spells .letWord ['l', 'e', 't'] ∧ ¬ Spells .identifier ['l', 'e', 't'] ∧
      longest lexicalRules.reverse "==1".toList = some ⟨.equalEqual, ['=', '=']⟩ := by
  have read : tokens "le let==\"x é" = [⟨.identifier, "le"⟩, ⟨.letWord, "let"⟩,
      ⟨.equalEqual, "=="⟩, ⟨.illegal, "\"x é"⟩] := by decide +kernel
  obtain ⟨splits, consumed, bound, pulled, kinds, order⟩ :=
    scanning_is_maximal_munch "le let==\"x é"
  have word : Spells .letWord ['l', 'e', 't'] := .keyword (by decide)
  rw [read] at splits
  refine ⟨splits, bound.trans (by decide), ?_, (consumed _ (by simp [read])).2, word,
    fun name => absurd (kinds _ _ _ word name) (by decide), ?_⟩
  · rw [pulled 6, read]
    rfl
  · rw [order _ lexicalRules.reverse_perm]
    decide

end MonkeyLanguage
