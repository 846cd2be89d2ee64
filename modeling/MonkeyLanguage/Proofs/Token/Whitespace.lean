import MonkeyLanguage.Proofs.Token.Maximal
import MonkeyLanguage.Syntax.Parser

/-!
# Tokens over white space

No token but a string holds a blank. So where white space follows a text, its tokens are those that
it has alone, unless a string is still open there; and which white space it is makes no difference.
-/

namespace MonkeyLanguage

/-- White space of at least one character. -/
def Blank (text : List Char) : Prop := text ≠ [] ∧ ∀ c ∈ text, isBlank c = true

instance (text : List Char) : Decidable (Blank text) :=
  decidable_of_iff (text ≠ [] ∧ text.all isBlank = true) (by rw [List.all_eq_true, Blank])

/-- The rest of a text behind a quote that nothing closes. -/
abbrev Token.IsOpenString (t : Token) : Prop :=
  t.kind = .illegal ∧ t.literal.toList.head? = some '"'

/-! ### Blanks and tokens -/

theorem isBlank_eq_false_of_isWordPart {c : Char} (part : isWordPart c = true) :
    isBlank c = false := by
  simp only [isWordPart, Char.isAlphanum, Bool.or_eq_true] at part
  rcases part with (letter | digit) | underscore
  · exact isBlank_eq_false (.inl (by simp [isWordStart, letter]))
  · exact isBlank_eq_false (.inr digit)
  · exact isBlank_eq_false (.inl (by simp [isWordStart, underscore]))

theorem isBlank_eq_false_of_isWord {text : List Char} (word : isWord text = true) :
    ∀ c ∈ text, isBlank c = false := by
  cases text with
  | nil => exact nofun
  | cons c rest =>
    simp only [isWord, Bool.and_eq_true, List.all_eq_true] at word
    exact List.forall_mem_cons.2 ⟨isBlank_eq_false (.inl word.1), fun d member =>
      isBlank_eq_false_of_isWordPart (word.2 d member)⟩

/-- Blanks stand in strings only. -/
theorem Spells.eq_string_of_blank {kind : TokenKind} {text : List Char} {c : Char}
    (spelled : Spells kind text) (member : c ∈ text) (blank : isBlank c = true) :
    kind = .string := by
  have visible : (∀ d ∈ text, isBlank d = false) → kind = .string := fun visible => by
    rw [visible c member] at blank
    contradiction
  have plain : ∀ entry ∈ symbols, (entry.1.all fun d => !isBlank d) = true := by decide
  cases spelled with
  | symbol listed => exact visible (by simpa using plain _ listed)
  | keyword listed => exact visible (isBlank_eq_false_of_isWord (keywords_spelled _ listed).1)
  | name word => exact visible (isBlank_eq_false_of_isWord word)
  | number _ digits => exact visible fun d member => isBlank_eq_false (.inr (digits d member))
  | quoted => rfl

theorem Spells.ne_illegal {kind : TokenKind} {text : List Char} (spelled : Spells kind text) :
    kind ≠ .illegal := by
  have noSymbol : ∀ entry ∈ symbols, entry.2 ≠ .illegal := by decide
  have noKeyword : ∀ entry ∈ keywords, entry.2 ≠ .illegal := by decide
  cases spelled with
  | symbol listed => exact noSymbol _ listed
  | keyword listed => exact noKeyword _ listed
  | name | number | quoted => exact nofun

theorem Spells.eq_string_of_quote {kind : TokenKind} {rest : List Char}
    (spelled : Spells kind ('"' :: rest)) : kind = .string := by
  have closed := spelled.closed (List.prefix_refl _)
  obtain ⟨inside, behind, rfl, plain⟩ := List.eq_append_cons_of_mem closed
  have taken := spelled.lexemeAt_eq
  rw [lexemeAt_quoted plain] at taken
  exact (congrArg Lexeme.kind taken).symm

/-- Two strings that open the same text are the same, for the first quote inside closes both. -/
theorem Spells.string_unique {text text' source : List Char} (spelled : Spells .string text)
    (spelled' : Spells .string text') (opens : text <+: source) (opens' : text' <+: source) :
    text = text' := by
  obtain ⟨inside, plain, rfl⟩ := spelled.string
  obtain ⟨inside', plain', rfl⟩ := spelled'.string
  have whole : ∀ inside : List Char, '"' ∉ inside → '"' :: (inside ++ ['"']) <+: source →
      (source.drop 1).takeWhile (· != '"') = inside := by
    rintro inside plain ⟨rest, rfl⟩
    have passed : ∀ c ∈ inside, (c != '"') = true := fun c member =>
      bne_iff_ne.2 fun quote => plain (quote ▸ member)
    simp [List.takeWhile_append_of_pos passed]
  rw [← whole inside plain opens, ← whole inside' plain' opens']

/-- What is spelled across a blank is a string, which a text before it opens. -/
theorem Spells.across {kind : TokenKind} {text front more : List Char} {d : Char}
    (spelled : Spells kind text) (blank : isBlank d = true)
    (opens : text <+: front ++ d :: more) : text <+: front ∨ kind = .string := by
  rcases List.prefix_or_prefix_of_prefix opens (List.prefix_append front _) with within | beyond
  · exact .inl within
  · obtain ⟨tail, rfl⟩ := beyond
    rw [List.prefix_append_right_inj] at opens
    cases tail with
    | nil => exact .inl (by simp)
    | cons e tail =>
      obtain ⟨rfl, -⟩ := List.cons_prefix_cons.1 opens
      exact .inr (spelled.eq_string_of_blank (c := e) (by simp) blank)

/-- A token that white space follows is the one that is read without it. -/
theorem Munches.before_blank {t : Token} {rest more : List Char} {d : Char}
    (munched : Munches (t.written ++ rest) t) (closed : ¬ t.IsOpenString)
    (blank : isBlank d = true) : Munches (t.written ++ (rest ++ d :: more)) t := by
  rw [← List.append_assoc]
  generalize ahead : t.written ++ rest = front at munched ⊢
  cases munched with
  | longest spelled opens most =>
    have opens' := opens.trans (List.prefix_append front (d :: more))
    refine .longest spelled opens' fun kind text spelled' seen => ?_
    rcases spelled'.across blank seen with within | rfl
    · exact most kind text spelled' within
    · -- The text opens with a quote, so the token does, and both end at the next one.
      obtain ⟨c, tail, written⟩ := List.exists_cons_of_ne_nil spelled.ne_nil
      obtain ⟨behind, whole⟩ := opens'
      obtain ⟨inside, -, quoted⟩ := spelled'.string
      have quote : '"' = c := by
        rw [quoted, ← whole, written] at seen
        exact (List.cons_prefix_cons.1 seen).1
      have string : t.kind = .string := by
        rw [written, ← quote] at spelled
        exact spelled.eq_string_of_quote
      rw [string] at spelled
      rw [spelled'.string_unique spelled seen ⟨behind, whole⟩]
  | unterminated unclosed => exact absurd ⟨rfl, by simp⟩ closed
  | @other c text noQuote nothing =>
    refine .other noQuote fun kind text' spelled seen => ?_
    change text' <+: c :: text ++ d :: more at seen
    rcases spelled.across blank seen with within | rfl
    · exact nothing kind text' spelled within
    · obtain ⟨inside, -, rfl⟩ := spelled.string
      exact noQuote (List.cons_prefix_cons.1 seen).1.symm

/-! ### Texts that are put together -/

theorem Splits.behind_blanks {gap text : List Char} {ts : List Token}
    (blank : ∀ c ∈ gap, isBlank c = true) (h : Splits text ts) : Splits (gap ++ text) ts := by
  cases h with
  | ends blank' => exact .ends (List.forall_mem_append.2 ⟨blank, blank'⟩)
  | token blank' visible munched others =>
    rw [← List.append_assoc]
    exact .token (List.forall_mem_append.2 ⟨blank, blank'⟩) visible munched others

theorem Splits.append {first gap second : List Char} {ts us : List Token} (h : Splits first ts)
    (closed : ∀ t ∈ ts, ¬ t.IsOpenString) (blank : Blank gap) (h' : Splits second us) :
    Splits (first ++ (gap ++ second)) (ts ++ us) := by
  obtain ⟨nonempty, blank⟩ := blank
  induction h with
  | ends blank' => exact (h'.behind_blanks blank).behind_blanks blank'
  | token blank' visible munched _ ih =>
    obtain ⟨here, behind⟩ := List.forall_mem_cons.1 closed
    obtain ⟨d, more, rfl⟩ := List.exists_cons_of_ne_nil nonempty
    rw [List.append_assoc, List.append_assoc, List.cons_append]
    exact .token blank' visible
      (munched.before_blank here (blank d List.mem_cons_self)) (ih behind)

/-- With `after` behind it, `before` is cut into blanks and tokens, and a token ends where `after`
begins. -/
inductive Leads : List Char → List Char → List Token → Prop
  | start {after : List Char} : Leads [] after []
  | token {gap before after : List Char} {t : Token} {ts : List Token}
      (blank : ∀ c ∈ gap, isBlank c = true)
      (visible : ∀ c, t.written.head? = some c → isBlank c = false)
      (munched : Munches (t.written ++ (before ++ after)) t) (others : Leads before after ts) :
      Leads (gap ++ (t.written ++ before)) after (t :: ts)

/-- The tokens of a text lead one after another to the rest of it. -/
theorem Splits.leads {text : List Char} {ts us : List Token} (h : Splits text (ts ++ us)) :
    ∃ before after, text = before ++ after ∧ Leads before after ts ∧ Splits after us := by
  induction ts generalizing text with
  | nil => exact ⟨[], text, rfl, .start, h⟩
  | cons t ts ih =>
    cases h with
    | token blank visible munched others =>
      obtain ⟨before, after, rfl, leads, rest⟩ := ih others
      exact ⟨_, after, by simp, .token blank visible munched leads, rest⟩

/-- A token that ends before the end of a text leaves no string open, and is read without what comes
after it as well. -/
theorem Munches.without {t : Token} {rest more : List Char}
    (munched : Munches (t.written ++ (rest ++ more)) t) (nonempty : more ≠ []) :
    Munches (t.written ++ rest) t ∧ ¬ t.IsOpenString := by
  rw [← List.append_assoc] at munched
  have shorter : t.written ++ rest <+: t.written ++ rest ++ more := List.prefix_append _ _
  generalize whole : t.written ++ rest ++ more = ahead at munched shorter
  cases munched with
  | longest spelled opens most =>
    refine ⟨.longest spelled (List.prefix_append _ _) fun kind text spelled' seen => ?_,
      fun unclosed => spelled.ne_illegal unclosed.1⟩
    exact most kind text spelled' (seen.trans shorter)
  | unterminated =>
    have beyond : rest = [] ∧ more = [] := by simpa [Token.written] using whole
    exact absurd beyond.2 nonempty
  | @other c text noQuote nothing =>
    have written : Token.written ⟨.illegal, String.ofList [c]⟩ = [c] := by simp [Token.written]
    rw [written, List.singleton_append] at shorter ⊢
    refine ⟨.other noQuote fun kind text' spelled seen => ?_, fun unclosed => ?_⟩
    · exact nothing kind text' spelled (seen.trans shorter)
    · have opened := unclosed.2
      rw [String.toList_ofList] at opened
      exact noQuote (Option.some.inj opened)

theorem Leads.splits {before after : List Char} {ts : List Token} (h : Leads before after ts)
    (nonempty : after ≠ []) : Splits before ts ∧ ∀ t ∈ ts, ¬ t.IsOpenString := by
  induction h with
  | start => exact ⟨.ends nofun, nofun⟩
  | token blank visible munched _ ih =>
    obtain ⟨others, closed⟩ := ih nonempty
    obtain ⟨alone, here⟩ := munched.without nonempty
    exact ⟨.token blank visible alone others, List.forall_mem_cons.2 ⟨here, closed⟩⟩

/-! ### Sources -/

theorem tokens_splits (source : String) : Splits source.toList (tokens source) :=
  splits_lexemes source.toList

theorem tokens_append_blank {first gap second : String}
    (closed : ∀ t ∈ tokens first, ¬ t.IsOpenString) (blank : Blank gap.toList) :
    tokens (first ++ gap ++ second) = tokens first ++ tokens second := by
  have joined := (tokens_splits first).append closed blank (tokens_splits second)
  rw [joined.eq_lexemes, tokens, String.toList_append, String.toList_append, List.append_assoc]

theorem Leads.tokens_eq {before gap after : String} {ts : List Token}
    (h : Leads before.toList (gap ++ after).toList ts) (blank : Blank gap.toList) :
    ts = tokens before ∧ ∀ t ∈ ts, ¬ t.IsOpenString := by
  have nonempty : (gap ++ after).toList ≠ [] := by
    rw [String.toList_append]
    exact List.append_ne_nil_of_left_ne_nil blank.1 _
  obtain ⟨alone, closed⟩ := h.splits nonempty
  exact ⟨alone.eq_lexemes, closed⟩

/-- Texts with white space between them have the tokens of the one and then those of the other,
unless a string of the first is still open. So the white space between two tokens of a source, which
the first of them leads to, can be any other without changing what is parsed. -/
theorem scanning_composes_over_blanks :
    (∀ first gap second : String, (∀ t ∈ tokens first, ¬ t.IsOpenString) → Blank gap.toList →
      tokens (first ++ gap ++ second) = tokens first ++ tokens second) ∧
    (∀ (source : String) (k : Nat), ∃ before after : String, source = before ++ after ∧
      Leads before.toList after.toList ((tokens source).take k) ∧
        tokens after = (tokens source).drop k) ∧
    ∀ (before gap gap' after : String) (ts : List Token),
      Leads before.toList (gap ++ after).toList ts → Blank gap.toList → Blank gap'.toList →
      parse (before ++ gap' ++ after) = parse (before ++ gap ++ after) := by
  refine ⟨fun _ _ _ => tokens_append_blank, fun source k => ?_, ?_⟩
  · have whole := tokens_splits source
    rw [← List.take_append_drop k (tokens source)] at whole
    obtain ⟨before, after, same, leads, rest⟩ := whole.leads
    refine ⟨String.ofList before, String.ofList after, ?_, ?_, ?_⟩
    · rw [← String.toList_inj, String.toList_append, String.toList_ofList, String.toList_ofList,
        same]
    · simpa only [String.toList_ofList] using leads
    · rw [rest.eq_lexemes, tokens, String.toList_ofList]
  · intro before gap gap' after ts leads blank blank'
    obtain ⟨rfl, closed⟩ := leads.tokens_eq blank
    rw [parse, parse, tokens_append_blank closed blank', tokens_append_blank closed blank]

/-- An equality sign that white space cuts in two. -/
theorem leads_assign :
    Leads "x=".toList (" " ++ "=5").toList [⟨.identifier, "x"⟩, ⟨.assign, "="⟩] := by
  have name := (munches_lexemeAt 'x' "= =5".toList).1
  have sign := (munches_lexemeAt '=' " =5".toList).1
  rw [show (lexemeAt 'x' "= =5".toList).token = ⟨.identifier, "x"⟩ by decide] at name
  rw [show (lexemeAt '=' " =5".toList).token = ⟨.assign, "="⟩ by decide] at sign
  have last : Leads "=".toList (" " ++ "=5").toList [⟨.assign, "="⟩] := by
    refine @Leads.token [] [] _ ⟨.assign, "="⟩ _ nofun ?_ sign .start
    exact fun c head => Option.some.inj head ▸ by decide
  refine @Leads.token [] _ _ ⟨.identifier, "x"⟩ _ nofun ?_ name last
  exact fun c head => Option.some.inj head ▸ by decide

theorem scanning_composes_over_blanks_equals :
    tokens ("x =" ++ "\u00a0" ++ "= \"a b") =
        [⟨.identifier, "x"⟩, ⟨.assign, "="⟩, ⟨.assign, "="⟩, ⟨.illegal, "\"a b"⟩] ∧
      parse ("x=" ++ "\t\n" ++ "=5") = parse ("x=" ++ " " ++ "=5") := by
  obtain ⟨composes, -, replaces⟩ := scanning_composes_over_blanks
  have first : tokens "x =" = [⟨.identifier, "x"⟩, ⟨.assign, "="⟩] := by decide +kernel
  have second : tokens "= \"a b" = [⟨.assign, "="⟩, ⟨.illegal, "\"a b"⟩] := by decide +kernel
  refine ⟨?_, replaces _ _ _ _ _ leads_assign (by decide) (by decide)⟩
  rw [composes _ _ _ (by rw [first]; decide) (by decide), first, second]
  rfl

end MonkeyLanguage
