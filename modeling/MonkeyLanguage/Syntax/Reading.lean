import MonkeyLanguage.Token.Basic

/-!
# Readings

Reading a phrase consumes tokens from the front of a list. It ends with the phrase or with the
error that stopped it. Statements nested in the phrase may be dropped on the way, each for an
error of its own, while the phrase as a whole is still read.

A reading never leaves more tokens than it starts from, which is why the parser ends.
-/

namespace MonkeyLanguage

inductive ParseError where
  | unexpectedToken (expected found : TokenKind)
  | noPrefixRule (kind : TokenKind)
  | invalidInteger (literal : String)
  deriving DecidableEq

def ParseError.message : ParseError → String
  | unexpectedToken expected found =>
    "expected next token to be " ++ expected.name ++ ", got " ++ found.name ++ " instead"
  | noPrefixRule kind => "no prefix parse function for " ++ kind.name ++ " found"
  | invalidInteger literal => "could not parse \"" ++ literal ++ "\" as integer"

/-- No more tokens are left than there were at `start`. -/
abbrev Within (rest start : List Token) : Prop := rest.length ≤ start.length

theorem Within.refl (tokens : List Token) : Within tokens tokens := Nat.le_refl _

theorem Within.trans {a b c : List Token} (first : Within a b) (second : Within b c) : Within a c :=
  Nat.le_trans first second

theorem Within.of_cons {t : Token} {rest start : List Token} (h : Within (t :: rest) start) :
    Within rest start := Nat.le_of_succ_le h

theorem Within.of_lt {rest tokens start : List Token} (h : Within tokens start)
    (shorter : rest.length < tokens.length) : Within rest start :=
  Nat.le_trans (Nat.le_of_lt shorter) h

theorem Within.tail {tokens start : List Token} (h : Within tokens start) :
    Within tokens.tail start :=
  Nat.le_trans (by rw [List.length_tail]; exact Nat.sub_le _ _) h

/-- What reading a phrase gives, with no more tokens left than `start` has. -/
structure Reading (α : Type) (start : List Token) where
  result : Except ParseError α
  /-- The errors of the statements dropped inside the phrase. -/
  dropped : List ParseError
  rest : List Token
  within : Within rest start

namespace Reading

variable {α β : Type} {first start : List Token}

@[inline] def done (a : α) (rest : List Token) (h : Within rest start) : Reading α start :=
  ⟨.ok a, [], rest, h⟩

@[inline] def fail (e : ParseError) (rest : List Token) (h : Within rest start) : Reading α start :=
  ⟨.error e, [], rest, h⟩

@[inline] def andThen (r : Reading α first) (h : Within first start)
    (next : α → (rest : List Token) → Within rest first → Reading β start) : Reading β start :=
  match r.result with
  | .ok a =>
    let s := next a r.rest r.within
    ⟨s.result, r.dropped ++ s.dropped, s.rest, s.within⟩
  | .error e => ⟨.error e, r.dropped, r.rest, r.within.trans h⟩

@[inline] def map (f : α → β) (r : Reading α start) : Reading β start :=
  ⟨r.result.map f, r.dropped, r.rest, r.within⟩

/-- Puts a statement in front of those read after it. One that failed is dropped for its error,
and reading goes on where it stopped. -/
@[inline] def before (s : Reading α first)
    (next : (rest : List Token) → Within rest first → Reading (List α) start) :
    Reading (List α) start :=
  let more := next s.rest s.within
  match s.result with
  | .ok a => ⟨more.result.map (a :: ·), s.dropped ++ more.dropped, more.rest, more.within⟩
  | .error e => ⟨more.result, s.dropped ++ e :: more.dropped, more.rest, more.within⟩

end Reading

namespace Parser

def headKind : List Token → TokenKind
  | [] => .endOfInput
  | t :: _ => t.kind

/-- Consumes a token of the kind given, or fails without consuming anything. -/
@[inline] def expect {α : Type} {start : List Token} (kind : TokenKind) (tokens : List Token)
    (h : Within tokens start)
    (next : Token → (rest : List Token) → rest.length < tokens.length → Reading α start) :
    Reading α start :=
  match tokens with
  | t :: rest =>
    if t.kind = kind then next t rest (Nat.lt_succ_self _)
    else .fail (.unexpectedToken kind t.kind) (t :: rest) h
  | [] => .fail (.unexpectedToken kind .endOfInput) [] h

/-- Statements may be closed by one semicolon. -/
def skipSemicolon : List Token → List Token
  | [] => []
  | t :: rest => if t.kind = .semicolon then rest else t :: rest

end Parser

theorem Within.skipSemicolon {tokens start : List Token} (h : Within tokens start) :
    Within (Parser.skipSemicolon tokens) start := by
  unfold Parser.skipSemicolon
  split
  · exact h
  · split
    · exact h.of_cons
    · exact h

end MonkeyLanguage
