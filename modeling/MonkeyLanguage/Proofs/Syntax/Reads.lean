import MonkeyLanguage.Syntax.Parser

/-!
# Clean readings

A reading is clean when it ends with its phrase and has dropped nothing on the way. Each theorem
says when a part of the parser reads cleanly, in terms of the parts that it calls.
-/

namespace MonkeyLanguage

/-! ### Readings -/

/-- The phrase was read without an error, and `rest` is left. -/
def Reading.Reads {α : Type} {start : List Token} (r : Reading α start) (a : α)
    (rest : List Token) : Prop :=
  r.result = .ok a ∧ r.dropped = [] ∧ r.rest = rest

namespace Reading

variable {α β : Type} {first start rest : List Token} {a : α} {b : β}

@[simp] theorem done_reads {a' : α} {tokens : List Token} {h : Within tokens start} :
    (done a' tokens h).Reads a rest ↔ a' = a ∧ tokens = rest := by
  simp [Reads, done]

@[simp] theorem fail_reads {e : ParseError} {tokens : List Token} {h : Within tokens start} :
    (fail e tokens h : Reading α start).Reads a rest ↔ False := by
  simp [Reads, fail]

@[simp] theorem map_reads {f : α → β} {r : Reading α start} :
    (r.map f).Reads b rest ↔ ∃ a, r.Reads a rest ∧ f a = b := by
  obtain ⟨result, dropped, left, within⟩ := r
  cases result with
  | ok a' =>
    simp only [Reads, map, Except.map, Except.ok.injEq]
    constructor
    · rintro ⟨same, clean, ends⟩
      exact ⟨a', ⟨rfl, clean, ends⟩, same⟩
    · rintro ⟨_, ⟨rfl, clean, ends⟩, same⟩
      exact ⟨same, clean, ends⟩
  | error e => simp [Reads, map, Except.map]

theorem andThen_reads {r : Reading α first} {h : Within first start}
    {next : α → (rest : List Token) → Within rest first → Reading β start} :
    (r.andThen h next).Reads b rest ↔
      ∃ a middle, ∃ le : Within middle first,
        r.Reads a middle ∧ (next a middle le).Reads b rest := by
  obtain ⟨result, dropped, left, within⟩ := r
  cases result with
  | ok a' =>
    simp only [andThen, Reads, Except.ok.injEq, List.append_eq_nil_iff]
    constructor
    · rintro ⟨read, ⟨clean, clean'⟩, same⟩
      exact ⟨a', left, within, ⟨rfl, clean, rfl⟩, read, clean', same⟩
    · rintro ⟨_, _, _, ⟨rfl, clean, rfl⟩, read, clean', same⟩
      exact ⟨read, ⟨clean, clean'⟩, same⟩
  | error e => simp [andThen, Reads]

theorem before_reads {s : Reading α first} {as : List α}
    {next : (rest : List Token) → Within rest first → Reading (List α) start} :
    (s.before next).Reads as rest ↔
      ∃ a middle more, ∃ le : Within middle first, s.Reads a middle ∧
        (next middle le).Reads more rest ∧ as = a :: more := by
  obtain ⟨result, dropped, left, within⟩ := s
  cases result with
  | ok a' =>
    simp only [before, Reads, Except.ok.injEq, List.append_eq_nil_iff]
    constructor
    · rintro ⟨read, ⟨clean, clean'⟩, same⟩
      cases again : (next left within).result with
      | ok more =>
        simp only [again, Except.map, Except.ok.injEq] at read
        exact ⟨a', left, more, within, ⟨rfl, clean, rfl⟩, ⟨again, clean', same⟩, read.symm⟩
      | error e => simp [again, Except.map] at read
    · rintro ⟨_, _, more, _, ⟨rfl, clean, rfl⟩, ⟨read, clean', same⟩, rfl⟩
      exact ⟨by rw [read]; rfl, ⟨clean, clean'⟩, same⟩
  | error e => simp [before, Reads]

end Reading

namespace Parser

variable {α : Type} {start rest : List Token} {a : α}

theorem expect_reads {kind : TokenKind} {tokens : List Token} {h : Within tokens start}
    {next : Token → (rest : List Token) → rest.length < tokens.length → Reading α start} :
    (expect kind tokens h next).Reads a rest ↔
      ∃ t more, ∃ same : tokens = t :: more, t.kind = kind ∧
        (next t more (by rw [same]; exact Nat.lt_succ_self _)).Reads a rest := by
  cases tokens with
  | nil => simp [expect]
  | cons t more =>
    by_cases found : t.kind = kind
    · simp only [expect, if_pos found]
      constructor
      · intro read
        exact ⟨t, more, rfl, found, read⟩
      · rintro ⟨_, _, same, -, read⟩
        cases same
        exact read
    · simp only [expect, if_neg found, Reading.fail_reads, false_iff]
      rintro ⟨_, _, same, other, -⟩
      cases same
      exact found other

/-- A program is read cleanly when its first statement is, and then the others. -/
theorem program_cons_eq {t : Token} {tokens : List Token} {statements : List Stmt} :
    program (t :: tokens) = (statements, []) ↔
      ∃ s middle body, ∃ _ : Within middle tokens, (statement t tokens (.refl _)).Reads s middle ∧
        program middle = (body, []) ∧ statements = s :: body := by
  rw [program]
  obtain ⟨result, dropped, left, within⟩ := statement t tokens (.refl tokens)
  simp only [Reading.Reads]
  cases result with
  | ok s =>
    simp only [Prod.mk.injEq, List.append_eq_nil_iff, Except.ok.injEq]
    constructor
    · rintro ⟨same, clean, clean'⟩
      exact ⟨s, left, (program left).1, within, ⟨rfl, clean, rfl⟩, Prod.ext rfl clean', same.symm⟩
    · rintro ⟨_, _, body, -, ⟨rfl, clean, rfl⟩, read, rfl⟩
      simp only [read, clean, and_self]
  | error e => simp

end Parser

end MonkeyLanguage
