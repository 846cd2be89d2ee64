import MonkeyLanguage.Proofs.Syntax.Completeness
import MonkeyLanguage.Proofs.Token.Seam
import Mathlib.Data.List.Basic

/-!
# Programs one after another

A statement does not end with a semicolon of its own, so a semicolon at the end of a text closes the
last statement. What is written behind it cannot continue that statement, and the statements of both
texts are those of the whole.
-/

namespace MonkeyLanguage

/-! ### Last tokens -/

theorem not_endsClosed_nil : ¬ EndsClosed [] := by
  rintro ⟨t, last, -⟩
  cases last

theorem endsClosed_of_append (ts : List Token) {more : List Token} (nonempty : more ≠ [])
    (closed : EndsClosed (ts ++ more)) : EndsClosed more := by
  obtain ⟨t, last, semicolon⟩ := closed
  rw [List.getLast?_append_of_ne_nil _ nonempty] at last
  exact ⟨t, last, semicolon⟩

theorem not_endsClosed_append {ts more : List Token} (first : ¬ EndsClosed ts)
    (second : ¬ EndsClosed more) : ¬ EndsClosed (ts ++ more) := by
  cases more with
  | nil => rwa [List.append_nil]
  | cons t more => exact fun closed => second (endsClosed_of_append _ (List.cons_ne_nil _ _) closed)

theorem not_endsClosed_cons {more : List Token} {t : Token} {kind : TokenKind}
    (same : t.kind = kind) (other : kind ≠ .semicolon) (rest : ¬ EndsClosed more) :
    ¬ EndsClosed (t :: more) := by
  have alone : ¬ EndsClosed [t] := by
    rintro ⟨u, last, semicolon⟩
    obtain rfl : t = u := Option.some.inj last
    exact other (same.symm.trans semicolon)
  exact not_endsClosed_append alone rest

/-- Nothing before a token matters for what follows it. -/
theorem not_endsClosed_after (ts : List Token) {more : List Token} {t : Token} {kind : TokenKind}
    (same : t.kind = kind) (other : kind ≠ .semicolon) (rest : ¬ EndsClosed more) :
    ¬ EndsClosed (ts ++ t :: more) := fun closed =>
  not_endsClosed_cons same other rest (endsClosed_of_append _ (List.cons_ne_nil _ _) closed)

theorem UnaryOp.tokenKind_ne_semicolon (op : UnaryOp) : op.tokenKind ≠ .semicolon := by
  cases op <;> decide

theorem BinaryOp.tokenKind_ne_semicolon (op : BinaryOp) : op.tokenKind ≠ .semicolon := by
  cases op <;> decide

/-- Only a list of statements may end with a semicolon. -/
def Phrase.EndsOpen : Phrase → List Token → Prop
  | .statements _, _ => True
  | _, tokens => ¬ EndsClosed tokens

theorem Derives.endsOpen {tokens : List Token} {phrase : Phrase} (h : Derives tokens phrase) :
    phrase.EndsOpen tokens := by
  have none := not_endsClosed_nil
  induction h with
  | noStatement | closed | unclosed => trivial
  | bind _ _ assign _ ih => exact not_endsClosed_after [_, _] assign (by decide) ih
  | ret word _ ih => exact not_endsClosed_cons word (by decide) ih
  | bare _ ih => exact ih
  | block _ _ shut | grouped _ _ shut | array _ _ shut | hash _ _ shut =>
    exact not_endsClosed_after _ shut (by decide) none
  | expression _ _ ih ih' | suffixed _ _ ih ih' | items _ _ ih ih' =>
    exact not_endsClosed_append ih ih'
  | noOperation | noSuffix | noItem | lastItem | noPair | lastPair | noParam | lastParam =>
    exact none
  | @operation _ _ _ op _ _ operator _ _ ih ih' =>
    exact not_endsClosed_append
      (not_endsClosed_cons operator op.tokenKind_ne_semicolon ih) ih'
  | @unary _ _ op _ operator _ ih =>
    exact not_endsClosed_cons operator op.tokenKind_ne_semicolon ih
  | call _ _ shut _ _ ih | index _ _ shut _ _ ih | function _ _ _ shut _ _ ih =>
    exact not_endsClosed_after _ shut (by decide) ih
  | conditional _ _ _ shut _ _ ih => exact not_endsClosed_after _ shut (by decide) ih
  | alternative _ _ _ _ _ word _ _ _ ih => exact not_endsClosed_after _ word (by decide) ih
  | identifier kind | integer kind | string kind | trueWord kind | falseWord kind =>
    exact not_endsClosed_cons kind (by decide) none
  | trailingComma comma => exact not_endsClosed_cons comma (by decide) none
  | moreItems comma _ _ ih ih' =>
    exact not_endsClosed_append (not_endsClosed_cons comma (by decide) ih) ih'
  | pairs _ colon _ _ _ ih ih' | morePairs _ _ colon _ _ _ ih ih' =>
    exact not_endsClosed_append (not_endsClosed_after _ colon (by decide) ih) ih'
  | params named _ ih => exact not_endsClosed_cons named (by decide) ih
  | moreParams _ named _ ih => exact not_endsClosed_after [_] named (by decide) ih

/-! ### Statements of two texts -/

theorem derives_nil_iff {body : List Stmt} : Derives [] (.statements body) ↔ body = [] := by
  constructor
  · intro derives
    have read := (Parser.accepts_of_derives derives).1
    rw [Parser.program] at read
    exact (Prod.mk.inj read).1.symm
  · rintro rfl
    exact .noStatement

theorem Derives.statements_append {first second : List Token} {p q : List Stmt}
    (h : Derives first (.statements p)) (closed : EndsClosed first)
    (h' : Derives second (.statements q)) : Derives (first ++ second) (.statements (p ++ q)) := by
  generalize same : Phrase.statements p = phrase at h
  induction h generalizing p with
  | noStatement => exact absurd closed not_endsClosed_nil
  | @closed ts more t s body statement semicolon rest _ ih =>
    obtain rfl := Phrase.statements.inj same
    rw [List.append_assoc, List.cons_append, List.cons_append]
    refine .closed statement semicolon ?_
    cases more with
    | nil =>
      obtain rfl := derives_nil_iff.1 rest
      exact h'
    | cons u more =>
      rw [← List.singleton_append, ← List.append_assoc] at closed
      exact ih (endsClosed_of_append _ (List.cons_ne_nil _ _) closed) rfl
  | @unclosed ts more s body statement ends rest _ ih =>
    obtain rfl := Phrase.statements.inj same
    cases more with
    | nil =>
      rw [List.append_nil] at closed
      exact absurd closed statement.endsOpen
    | cons u more =>
      rw [List.append_assoc]
      exact .unclosed statement ends (ih (endsClosed_of_append _ (List.cons_ne_nil _ _) closed) rfl)
  | _ => cases same

/-- A text that parses without errors and whose last token is a semicolon. -/
structure Complete (text : String) : Prop where
  clean : (parse text).2 = []
  closed : EndsClosed (tokens text)

theorem Complete.derives {text : String} (complete : Complete text) :
    Derives (tokens text) (.statements (parse text).1) :=
  parse_eq_iff.1 (Prod.ext rfl complete.clean)

theorem Complete.program_ne_nil {text : String} (complete : Complete text) :
    (parse text).1 ≠ [] := by
  intro none
  have derives := complete.derives
  have closed := complete.closed
  rw [none] at derives
  generalize tokens text = ts at derives closed
  cases derives
  exact not_endsClosed_nil closed

theorem parse_append {first second : String} (complete : Complete first)
    (clean : (parse second).2 = []) :
    parse (first ++ second) = ((parse first).1 ++ (parse second).1, []) := by
  have derives := parse_eq_iff.1 (Prod.ext rfl clean : parse second = ((parse second).1, []))
  rw [parse_eq_iff, tokens_append complete.closed]
  exact complete.derives.statements_append complete.closed derives

theorem parse_join {texts : List String} (complete : ∀ text ∈ texts, Complete text) :
    parse (String.join texts) = (texts.flatMap fun text => (parse text).1, []) := by
  induction texts with
  | nil => cbv
  | cons text texts ih =>
    have rest := ih fun other member => complete other (List.mem_cons_of_mem _ member)
    rw [String.join_cons, parse_append (complete text List.mem_cons_self) (by rw [rest]), rest,
      List.flatMap_cons]

end MonkeyLanguage
