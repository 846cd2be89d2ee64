import MonkeyLanguage.Proofs.Token.Munch

/-!
# Tokens over a seam

A lexeme that is taken before the end of a text does not depend on what comes after the text, for
every rule stops at a character it has seen. A semicolon does not grow at all. So a text that ends
with a semicolon keeps its tokens when another one is put behind it.
-/

namespace MonkeyLanguage

/-! ### One lexeme -/

/-- Something at least as long has been found. -/
def Lexeme.Covered (l : Lexeme) (best : Option Lexeme) : Prop :=
  ∃ found, best = some found ∧ l.text.length ≤ found.text.length

theorem Lexeme.Covered.longer {l : Lexeme} {a b : Option Lexeme}
    (covered : l.Covered a ∨ l.Covered b) : l.Covered (Lexeme.longer a b) := by
  cases a with
  | none => exact covered.resolve_left fun ⟨_, same, _⟩ => nomatch same
  | some a =>
    cases b with
    | none => exact covered.resolve_right fun ⟨_, same, _⟩ => nomatch same
    | some b =>
      rw [Lexeme.longer]
      rcases covered with ⟨found, same, le⟩ | ⟨found, same, le⟩ <;>
        obtain rfl := Option.some.inj same
      · split
        · exact ⟨b, rfl, by omega⟩
        · exact ⟨a, rfl, le⟩
      · split
        · exact ⟨b, rfl, le⟩
        · exact ⟨a, rfl, by omega⟩

theorem covered_by_longest {rules : List Rule} {rule : Rule} {source : List Char} {l : Lexeme}
    (listed : rule ∈ rules) (finds : rule source = some l) : l.Covered (longest rules source) := by
  suffices general : ∀ (rs : List Rule) (best : Option Lexeme), rule ∈ rs ∨ l.Covered best →
      l.Covered (rs.foldl (fun best r => Lexeme.longer best (r source)) best) from
    general rules none (.inl listed)
  intro rs
  induction rs with
  | nil => exact fun best present => present.resolve_left (by simp)
  | cons r rs ih =>
    intro best present
    apply ih
    rcases present with member | covered
    · rcases List.mem_cons.1 member with rfl | later
      · exact .inr (.longer (.inr ⟨l, finds, Nat.le_refl _⟩))
      · exact .inl later
    · exact .inr (.longer (.inl covered))

theorem longest_congr {rules : List Rule} {source source' : List Char}
    (same : ∀ rule ∈ rules, rule source = rule source') :
    longest rules source = longest rules source' := by
  suffices general : ∀ (rs : List Rule) (best : Option Lexeme), (∀ r ∈ rs, r ∈ rules) →
      rs.foldl (fun best r => Lexeme.longer best (r source)) best =
        rs.foldl (fun best r => Lexeme.longer best (r source')) best from
    general rules none fun _ member => member
  intro rs
  induction rs with
  | nil => exact fun _ _ => rfl
  | cons r rs ih =>
    intro best within
    rw [List.foldl_cons, List.foldl_cons, same r (within r (by simp))]
    exact ih _ fun r' member => within r' (by simp [member])

theorem takeWhile_append_of_stops {p : Char → Bool} {text rest : List Char}
    (stops : text.takeWhile p ≠ text) : (text ++ rest).takeWhile p = text.takeWhile p := by
  rw [List.takeWhile_append, if_neg]
  intro all
  exact stops ((List.takeWhile_prefix p).eq_of_length all)

theorem Rule.quoted_open {text : List Char} (inside : '"' ∉ text) :
    Rule.quoted ('"' :: text) = some ⟨.illegal, '"' :: text⟩ := by
  have none : text.dropWhile (· != '"') = [] := by
    rw [List.dropWhile_eq_nil_iff]
    rintro c member
    simp only [bne_iff_ne]
    rintro rfl
    exact inside member
  simp [Rule.quoted, none]

theorem Rule.quoted_kind {source : List Char} {l : Lexeme} (finds : Rule.quoted source = some l) :
    l.kind = .illegal ∨ l.kind = .string := by
  unfold Rule.quoted at finds
  split at finds
  · split at finds
    · exact .inl (Option.some.inj finds ▸ rfl)
    · exact .inr (Option.some.inj finds ▸ rfl)
  · cases finds

theorem symbols_length : ∀ entry ∈ symbols, entry.1.length ≤ 2 := by decide

/-- A rule that does not take all of a text finds the same in every longer one. -/
theorem rule_append {rule : Rule} (listed : rule ∈ lexicalRules) {c d : Char}
    {text rest : List Char}
    (partly : ∀ l, rule (c :: d :: text) = some l → l.text.length < (c :: d :: text).length) :
    rule (c :: d :: text ++ rest) = rule (c :: d :: text) := by
  simp only [lexicalRules, List.mem_append, List.mem_map, List.mem_cons, List.not_mem_nil,
    or_false] at listed
  rcases listed with ⟨entry, inSymbols, rfl⟩ | rfl | rfl | rfl
  · have short := symbols_length entry inSymbols
    have seen : entry.1 <+: c :: d :: text ++ rest ↔ entry.1 <+: c :: d :: text :=
      ⟨fun ahead => List.prefix_of_prefix_length_le ahead (List.prefix_append _ _)
        (by simp only [List.length_cons]; omega), fun ahead => ahead.trans (List.prefix_append _ _)⟩
    simp only [Rule.symbol, List.isPrefixOf_iff_prefix, seen]
  · refine Option.ext fun l => ?_
    rw [List.cons_append, Rule.word_eq_some, Rule.word_eq_some]
    refine and_congr_right fun start => ?_
    have stops := partly _ (Rule.word_eq_some.2 ⟨start, rfl⟩)
    rw [takeWhile_append_of_stops fun all => by simp [all] at stops]
  · by_cases quote : c = '"'
    · subst quote
      by_cases closed : '"' ∈ d :: text
      · obtain ⟨inside, behind, split, plain⟩ := List.eq_append_cons_of_mem closed
        rw [split, List.cons_append, List.append_assoc, List.cons_append, Rule.quoted_closed plain,
          Rule.quoted_closed plain]
      · exact absurd (partly _ (Rule.quoted_open closed)) (Nat.lt_irrefl _)
    · have nothing (more : List Char) : Rule.quoted (c :: more) = none :=
        Option.eq_none_iff_forall_ne_some.2 fun l finds => quote (Rule.quoted_cons finds)
      rw [List.cons_append, nothing, nothing]
  · refine Option.ext fun l => ?_
    rw [List.cons_append, Rule.digits_eq_some, Rule.digits_eq_some]
    refine and_congr_right fun digit => ?_
    have stops := partly _ (Rule.digits_eq_some.2 ⟨digit, rfl⟩)
    rw [takeWhile_append_of_stops fun all => by simp [all] at stops]

theorem lexemeAt_append {c : Char} {text rest : List Char}
    (inside : (lexemeAt c text).text.length < (c :: text).length) :
    lexemeAt c (text ++ rest) = lexemeAt c text := by
  cases text with
  | nil =>
    have positive := List.length_pos_iff.2 (lexemeAt_text_ne_nil c [])
    simp only [List.length_singleton] at inside
    omega
  | cons d text =>
    have same : longest lexicalRules (c :: d :: text ++ rest) =
        longest lexicalRules (c :: d :: text) := by
      refine longest_congr fun rule listed => rule_append listed fun l finds => ?_
      obtain ⟨found, taken, le⟩ := covered_by_longest listed finds
      rw [lexemeAt, taken] at inside
      exact Nat.lt_of_le_of_lt le inside
    rw [lexemeAt, lexemeAt, ← same]
    rfl

theorem lexemeAt_semicolon (rest : List Char) : lexemeAt ';' rest = ⟨.semicolon, [';']⟩ := by
  have only : ∀ entry ∈ symbols, entry.1.head? = some ';' → entry = ([';'], .semicolon) := by decide
  refine lexemeAt_of_rule (Rule.symbol [';'] .semicolon) (by simp [lexicalRules, symbols])
    (Rule.symbol_eq_some.2 ⟨⟨rest, rfl⟩, rfl⟩) fun other found => ?_
  cases found with
  | symbol entry listed ahead =>
    rw [only entry listed (Found.head_symbol listed ahead)]
    exact .inl rfl
  | word start | digits digit => contradiction
  | quoted quote _ => contradiction

theorem lexemeAt_eq_semicolon {c : Char} {rest : List Char}
    (kind : (lexemeAt c rest).kind = .semicolon) : c = ';' := by
  have only : ∀ entry ∈ symbols, entry.2 = .semicolon → entry.1 = [';'] := by decide
  rw [lexemeAt] at kind
  cases taken : longest lexicalRules (c :: rest) with
  | none =>
    rw [taken] at kind
    contradiction
  | some l =>
    rw [taken] at kind
    obtain ⟨rule, listed, finds⟩ := longest_eq_some taken
    cases found_of_rule listed finds with
    | symbol entry listed ahead =>
      have head := Found.head_symbol listed ahead
      rw [only entry listed kind] at head
      exact (Option.some.inj head).symm
    | word start =>
      have listed := wordKind_mem (c :: rest.takeWhile isWordPart)
      have kind : wordKind (c :: rest.takeWhile isWordPart) = .semicolon := kind
      rw [kind] at listed
      exact absurd listed (by decide)
    | quoted quote finds =>
      rcases Rule.quoted_kind finds with other | other <;> simp [other] at kind
    | digits digit => contradiction

/-! ### Whole texts -/

theorem nextLexeme_append_of_blank {source rest : List Char}
    (blank : source.dropWhile isBlank = []) : nextLexeme (source ++ rest) = nextLexeme rest := by
  rw [nextLexeme, nextLexeme, List.dropWhile_append, if_pos (by rw [blank]; rfl)]

theorem nextLexeme_eq {source text : List Char} {c : Char}
    (visible : source.dropWhile isBlank = c :: text) :
    nextLexeme source =
      some (lexemeAt c text, (c :: text).drop (lexemeAt c text).text.length) := by
  rw [nextLexeme, visible]

/-- A lexeme stays as it is if it is a semicolon or not the end of the text. -/
theorem nextLexeme_append {source tail rest : List Char} {l : Lexeme}
    (taken : nextLexeme source = some (l, tail)) (kept : l.kind = .semicolon ∨ tail ≠ []) :
    nextLexeme (source ++ rest) = some (l, tail ++ rest) := by
  unfold nextLexeme at taken
  split at taken
  · cases taken
  rename_i c text visible
  obtain ⟨rfl, rfl⟩ := Prod.mk.inj (Option.some.inj taken)
  have visible' : (source ++ rest).dropWhile isBlank = c :: (text ++ rest) := by
    rw [List.dropWhile_append, if_neg (by simp [visible]), visible, List.cons_append]
  have same : lexemeAt c (text ++ rest) = lexemeAt c text ∧
      (lexemeAt c text).text.length ≤ (c :: text).length := by
    rcases kept with semicolon | inside
    · obtain rfl := lexemeAt_eq_semicolon semicolon
      rw [lexemeAt_semicolon, lexemeAt_semicolon]
      exact ⟨rfl, by simp⟩
    · have shorter : (lexemeAt c text).text.length < (c :: text).length := by
        rw [ne_eq, List.drop_eq_nil_iff] at inside
        omega
      exact ⟨lexemeAt_append shorter, Nat.le_of_lt shorter⟩
  rw [nextLexeme_eq visible', same.1, ← List.cons_append, List.drop_append_of_le_length same.2]

theorem lexemes_append_of_eq_nil {source rest : List Char} (none : lexemes source = []) :
    lexemes (source ++ rest) = lexemes rest := by
  have blank := nextLexeme_eq_none_iff.1 (lexemes_eq_nil_iff.1 none)
  rw [lexemes, nextLexeme_append_of_blank blank, ← lexemes]

theorem lexemes_append_of_semicolon {source rest : List Char} {l : Lexeme}
    (last : (lexemes source).getLast? = some l) (semicolon : l.kind = .semicolon) :
    lexemes (source ++ rest) = lexemes source ++ lexemes rest := by
  fun_induction lexemes source with
  | case1 source ended => cases last
  | case2 source first tail taken ih =>
    cases others : lexemes tail with
    | nil =>
      rw [others] at last
      obtain rfl : first = l := Option.some.inj last
      rw [lexemes_eq_cons (nextLexeme_append taken (.inl semicolon)),
        lexemes_append_of_eq_nil others]
      rfl
    | cons l' ls =>
      have inside : tail ≠ [] := by
        rintro rfl
        rw [lexemes_eq_nil_iff.2 rfl] at others
        cases others
      rw [others, List.getLast?_cons_cons, ← others] at last
      rw [lexemes_eq_cons (nextLexeme_append taken (.inr inside)), ih last, others]
      rfl

/-- The tokens end with a semicolon. -/
def EndsClosed (tokens : List Token) : Prop :=
  ∃ t, tokens.getLast? = some t ∧ t.kind = .semicolon

theorem tokens_append {first second : String} (closed : EndsClosed (tokens first)) :
    tokens (first ++ second) = tokens first ++ tokens second := by
  obtain ⟨t, last, semicolon⟩ := closed
  rw [tokens, List.getLast?_map] at last
  obtain ⟨l, closing, rfl⟩ := Option.map_eq_some_iff.1 last
  rw [tokens, String.toList_append, lexemes_append_of_semicolon closing semicolon, List.map_append]
  rfl

end MonkeyLanguage
