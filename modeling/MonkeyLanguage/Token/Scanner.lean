import MonkeyLanguage.Text.Blank
import MonkeyLanguage.Token.Basic

/-!
# Scanning

A source text is split by maximal munch: after the blanks, the longest lexeme that some rule
recognises is taken. What no rule recognises becomes a lexeme of one character and of illegal
kind, so scanning never stops before the end of the text.

`nextLexeme_rest_lt` is the progress that makes `lexemes` end.
-/

namespace MonkeyLanguage

/-- A stretch of source text and the kind of token it stands for. -/
structure Lexeme where
  kind : TokenKind
  text : List Char
  deriving DecidableEq

/-- The token of a lexeme; a string goes without its quotes. -/
def Lexeme.token (l : Lexeme) : Token :=
  ⟨l.kind, String.ofList (if l.kind = .string then (l.text.drop 1).dropLast else l.text)⟩

abbrev Rule := List Char → Option Lexeme

namespace Rule

def symbol (spelling : List Char) (kind : TokenKind) : Rule := fun source =>
  if spelling.isPrefixOf source then some ⟨kind, spelling⟩ else none

def word : Rule
  | [] => none
  | c :: rest =>
    if isWordStart c then
      let text := c :: rest.takeWhile isWordPart
      some ⟨wordKind text, text⟩
    else none

/-- A string runs to the next quote. Without one, all the rest is a single illegal lexeme. -/
def quoted : Rule
  | '"' :: rest =>
    match rest.dropWhile (· != '"') with
    | [] => some ⟨.illegal, '"' :: rest⟩
    | _ :: _ => some ⟨.string, '"' :: (rest.takeWhile (· != '"') ++ ['"'])⟩
  | _ => none

def digits : Rule := fun source =>
  match source.takeWhile Char.isDigit with
  | [] => none
  | text => some ⟨.integer, text⟩

end Rule

def lexicalRules : List Rule :=
  symbols.map (fun (spelling, kind) => Rule.symbol spelling kind) ++
    [Rule.word, Rule.quoted, Rule.digits]

/-- Keeps what was found before, unless the next find is longer. -/
def Lexeme.longer : Option Lexeme → Option Lexeme → Option Lexeme
  | some a, some b => if a.text.length < b.text.length then some b else some a
  | some a, none => some a
  | none, found => found

/-- The longest lexeme that one of the rules recognises, and the earliest of equally long ones. -/
def longest (rules : List Rule) (source : List Char) : Option Lexeme :=
  rules.foldl (fun best rule => Lexeme.longer best (rule source)) none

/-- The lexeme that `c :: rest` opens with. -/
def lexemeAt (c : Char) (rest : List Char) : Lexeme :=
  (longest lexicalRules (c :: rest)).getD ⟨.illegal, [c]⟩

/-- Skips blanks and takes one lexeme, if there is any. -/
def nextLexeme (source : List Char) : Option (Lexeme × List Char) :=
  match source.dropWhile isBlank with
  | [] => none
  | c :: rest =>
    let lexeme := lexemeAt c rest
    some (lexeme, (c :: rest).drop lexeme.text.length)

/-! ### Progress -/

theorem longest_eq_some {rules : List Rule} {found : Lexeme} {source : List Char} :
    longest rules source = some found → ∃ rule ∈ rules, rule source = some found := by
  suffices general : ∀ (rs : List Rule) (best : Option Lexeme),
      rs.foldl (fun best rule => Lexeme.longer best (rule source)) best = some found →
      best = some found ∨ ∃ rule ∈ rs, rule source = some found by
    intro h
    rcases general rules none h with h | h
    · simp at h
    · exact h
  intro rs
  induction rs with
  | nil => intro best h; exact Or.inl h
  | cons rule rs ih =>
    intro best h
    rcases ih _ h with h | ⟨r, hr, h⟩
    · rcases best with _ | a
      · exact Or.inr ⟨rule, by simp, by simpa [Lexeme.longer] using h⟩
      · rcases hb : rule source with _ | b
        · exact Or.inl (by simpa [Lexeme.longer, hb] using h)
        · simp only [Lexeme.longer, hb] at h
          split at h
          · exact Or.inr ⟨rule, by simp, by rw [hb, h]⟩
          · exact Or.inl h
    · exact Or.inr ⟨r, by simp [hr], h⟩

theorem symbols_ne_nil : ∀ entry ∈ symbols, entry.1 ≠ [] := by decide

theorem text_ne_nil_of_mem_lexicalRules {rule : Rule} (member : rule ∈ lexicalRules)
    {source : List Char} {found : Lexeme} (h : rule source = some found) : found.text ≠ [] := by
  simp only [lexicalRules, List.mem_append, List.mem_map, List.mem_cons, List.not_mem_nil, or_false]
    at member
  rcases member with ⟨entry, inSymbols, rfl⟩ | rfl | rfl | rfl
  · have spelled := symbols_ne_nil entry inSymbols
    simp only [Rule.symbol] at h
    split at h <;> simp_all
    exact h ▸ spelled
  · rcases source with _ | ⟨c, rest⟩
    · simp [Rule.word] at h
    · simp only [Rule.word] at h
      split at h <;> simp_all
      exact h ▸ by simp
  · unfold Rule.quoted at h
    split at h
    · split at h <;> simp only [Option.some.injEq] at h <;> exact h ▸ by simp
    · simp at h
  · simp only [Rule.digits] at h
    split at h
    · simp at h
    · rename_i nonempty
      simp only [Option.some.injEq] at h
      exact h ▸ nonempty

theorem lexemeAt_text_ne_nil (c : Char) (rest : List Char) : (lexemeAt c rest).text ≠ [] := by
  unfold lexemeAt
  rcases h : longest lexicalRules (c :: rest) with _ | found
  · simp
  · obtain ⟨rule, member, h⟩ := longest_eq_some h
    exact text_ne_nil_of_mem_lexicalRules member h

theorem length_dropWhile_le {α : Type} (p : α → Bool) (l : List α) :
    (l.dropWhile p).length ≤ l.length :=
  (List.dropWhile_sublist p).length_le

theorem nextLexeme_rest_lt {source rest : List Char} {lexeme : Lexeme}
    (h : nextLexeme source = some (lexeme, rest)) : rest.length < source.length := by
  have bound := length_dropWhile_le isBlank source
  unfold nextLexeme at h
  split at h
  · simp at h
  · rename_i c tail split
    simp only [Option.some.injEq, Prod.mk.injEq] at h
    obtain ⟨-, rfl⟩ := h
    have := List.length_pos_iff.2 (lexemeAt_text_ne_nil c tail)
    rw [split] at bound
    simp only [List.length_drop, List.length_cons] at bound ⊢
    omega

/-! ### Whole texts -/

def lexemes (source : List Char) : List Lexeme :=
  match _h : nextLexeme source with
  | none => []
  | some (lexeme, rest) => lexeme :: lexemes rest
termination_by source.length
decreasing_by exact nextLexeme_rest_lt _h

/-- The tokens of a text in order, up to the end of input and without it. -/
def tokens (source : String) : List Token := (lexemes source.toList).map Lexeme.token

/-- Takes the next token; at the end of the text that is the end of input, any number of times. -/
def pullToken (source : List Char) : Token × List Char :=
  match nextLexeme source with
  | none => (.endOfInput, [])
  | some (lexeme, rest) => (lexeme.token, rest)

def pullTokens : Nat → List Char → List Token
  | 0, _ => []
  | n + 1, source =>
    let (token, rest) := pullToken source
    token :: pullTokens n rest

end MonkeyLanguage
