import MonkeyLanguage.Proofs.Syntax.Attempt

/-!
# Errors and attempts

The log of the parsing machine accounts for the errors: an attempt adds those of the attempts nested
in it and, if it fails, one of its own. `RawParser.Mirrors` says that a part of the machine does
what a reading says, and that its log accounts for it; there is a lemma for each way in which
readings are put together.
-/

namespace MonkeyLanguage

/-! ### The log -/

mutual

/-- An attempt and all that are nested in it, in the order in which they began. -/
def Attempt.all : Attempt → List Attempt
  | ⟨start, outcome, reported, nested⟩ => ⟨start, outcome, reported, nested⟩ :: allAttempts nested

def allAttempts : List Attempt → List Attempt
  | [] => []
  | a :: rest => a.all ++ allAttempts rest

end

namespace Attempt

abbrev failed (a : Attempt) : Bool := a.outcome.isNone

/-- Behind the errors of the attempts nested in it, an attempt that failed has one of its own. -/
def Accounted (a : Attempt) : Prop :=
  ∃ own, a.reported = a.nested.flatMap reported ++ own ∧ own.length = if a.failed then 1 else 0

theorem all_eq (a : Attempt) : a.all = a :: allAttempts a.nested := by
  cases a
  rw [all]

end Attempt

theorem allAttempts_append (first second : List Attempt) :
    allAttempts (first ++ second) = allAttempts first ++ allAttempts second := by
  induction first with
  | nil => rfl
  | cons a rest ih => rw [List.cons_append, allAttempts, ih, allAttempts, List.append_assoc]

theorem allAttempts_singleton (a : Attempt) : allAttempts [a] = a :: allAttempts a.nested := by
  rw [allAttempts, allAttempts, a.all_eq, List.append_nil]

mutual

/-- As many errors are reported as attempts failed. -/
theorem Attempt.length_reported (a : Attempt) (accounted : ∀ b ∈ a.all, b.Accounted) :
    a.reported.length = a.all.countP Attempt.failed := by
  match a with
  | ⟨start, outcome, reported, nested⟩ =>
    rw [Attempt.all_eq] at accounted ⊢
    obtain ⟨own, split, one⟩ := (List.forall_mem_cons.1 accounted).1
    have inside := length_reported_attempts nested (List.forall_mem_cons.1 accounted).2
    rw [split, List.length_append, inside, one, List.countP_cons]

theorem length_reported_attempts (attempts : List Attempt)
    (accounted : ∀ b ∈ allAttempts attempts, b.Accounted) :
    (attempts.flatMap Attempt.reported).length =
      (allAttempts attempts).countP Attempt.failed := by
  match attempts with
  | [] => rfl
  | a :: rest =>
    rw [allAttempts, List.forall_mem_append] at accounted
    rw [List.flatMap_cons, List.length_append, a.length_reported accounted.1,
      length_reported_attempts rest accounted.2, allAttempts, List.countP_append]

end

/-- Where every attempt begins behind the one before, there are no more of them than tokens. -/
theorem length_le_of_descending {attempts : List Attempt} {n : Nat}
    (descending : attempts.Pairwise fun a b => b.start.length < a.start.length)
    (bounded : ∀ a ∈ attempts, 0 < a.start.length ∧ a.start.length ≤ n) :
    attempts.length ≤ n := by
  induction attempts generalizing n with
  | nil => exact Nat.zero_le n
  | cons a rest ih =>
    obtain ⟨behind, descending⟩ := List.pairwise_cons.1 descending
    obtain ⟨⟨some, most⟩, bounded⟩ := List.forall_mem_cons.1 bounded
    have fewer : rest.length ≤ a.start.length - 1 := by
      refine ih descending fun b member => ⟨(bounded b member).1, ?_⟩
      have := behind b member
      omega
    rw [List.length_cons]
    omega

/-! ### From one state to another -/

/-- Between two states, these errors were added, those of attempts before `own`, and these attempts
were made on the way, each at a token of its own behind the one before. -/
structure Accounts (before after : RawParser) (window : List Token) (dropped own : List ParseError)
    (attempts : List Attempt) : Prop where
  suffix : after.ahead.tail <:+ window
  errors : after.errors = before.errors ++ dropped ++ own
  logged : after.attempts = before.attempts ++ attempts
  reported : attempts.flatMap Attempt.reported = dropped
  accounted : ∀ a ∈ allAttempts attempts, a.Accounted
  descending : (allAttempts attempts).Pairwise fun a b => b.start.length < a.start.length
  inside : ∀ a ∈ allAttempts attempts,
    a.start <:+ window ∧ after.ahead.tail.length < a.start.length

namespace Accounts

variable {s s' s'' : RawParser} {window wider : List Token}
  {dropped dropped' own : List ParseError} {attempts attempts' : List Attempt}

/-- No attempt was made. -/
theorem still (suffix : s'.ahead.tail <:+ window) (errors : s'.errors = s.errors ++ own)
    (logged : s'.attempts = s.attempts) : Accounts s s' window [] own [] :=
  ⟨suffix, by rw [errors, List.append_nil], by rw [logged, List.append_nil], rfl, nofun, .nil,
    nofun⟩

theorem widen (h : Accounts s s' window dropped own attempts) (suffix : window <:+ wider) :
    Accounts s s' wider dropped own attempts :=
  ⟨h.suffix.trans suffix, h.errors, h.logged, h.reported, h.accounted, h.descending,
    fun a member => ⟨(h.inside a member).1.trans suffix, (h.inside a member).2⟩⟩

/-- Where the machine stood does not matter, only what it had noted. -/
theorem moved {ahead : List Token} (h : Accounts { s with ahead } s' window dropped own attempts) :
    Accounts s s' window dropped own attempts :=
  ⟨h.suffix, h.errors, h.logged, h.reported, h.accounted, h.descending, h.inside⟩

theorem trans (h : Accounts s s' window dropped [] attempts)
    (h' : Accounts s' s'' s'.ahead.tail dropped' own attempts') :
    Accounts s s'' window (dropped ++ dropped') own (attempts ++ attempts') := by
  refine ⟨h'.suffix.trans h.suffix, ?_, ?_, ?_, ?_, ?_, ?_⟩
  · rw [h'.errors, h.errors]
    simp only [List.append_assoc, List.nil_append]
  · rw [h'.logged, h.logged, List.append_assoc]
  · rw [List.flatMap_append, h.reported, h'.reported]
  · rw [allAttempts_append, List.forall_mem_append]
    exact ⟨h.accounted, h'.accounted⟩
  · rw [allAttempts_append, List.pairwise_append]
    refine ⟨h.descending, h'.descending, fun a first b second => ?_⟩
    exact Nat.lt_of_le_of_lt (h'.inside b second).1.length_le (h.inside a first).2
  · rw [allAttempts_append, List.forall_mem_append]
    refine ⟨fun a first => ⟨(h.inside a first).1, ?_⟩, fun b second => ?_⟩
    · exact Nat.lt_of_le_of_lt h'.suffix.length_le (h.inside a first).2
    · exact ⟨(h'.inside b second).1.trans h.suffix, (h'.inside b second).2⟩

end Accounts

/-! ### The machine and a reading -/

namespace Reading

variable {α : Type} {start : List Token}

/-- The error that the reading ends with. -/
def own (r : Reading α start) : List ParseError :=
  match r.result with
  | .ok _ => []
  | .error e => [e]

/-- How the machine ends in this state. -/
def ending (r : Reading α start) (s : RawParser) : EStateM.Result Stop RawParser α :=
  match r.result with
  | .ok a => .ok a s
  | .error _ => .error .failed s

/-- The errors of a statement come before those of the others, its own the last of them. -/
theorem before_eq {first : List Token} (r : Reading α first)
    (next : (rest : List Token) → Within rest first → Reading (List α) start) :
    r.before next =
      ⟨(next r.rest r.within).result.map (r.result.toOption.toList ++ ·),
        r.dropped ++ r.own ++ (next r.rest r.within).dropped, (next r.rest r.within).rest,
        (next r.rest r.within).within⟩ := by
  obtain ⟨result, dropped, rest, within⟩ := r
  cases result with
  | ok a => simp [before, own, Except.toOption]
  | error e =>
    have same (more : Except ParseError (List α)) : more.map (fun s => s) = more := by
      cases more <;> rfl
    simp [before, own, Except.toOption, same]

end Reading

/-- From this state the machine does what the reading says. -/
def RawParser.Mirrors {α : Type} {start : List Token} (raw : RawParse α) (s : RawParser)
    (r : Reading α start) (window : List Token) : Prop :=
  ∃ s' attempts, raw s = r.ending s' ∧ s'.ahead.tail = r.rest ∧
    Accounts s s' window r.dropped r.own attempts

/-- None of the tokens is the end of input. -/
def NoEnd (tokens : List Token) : Prop := ∀ t ∈ tokens, t.kind ≠ .endOfInput

theorem NoEnd.of_cons {t : Token} {rest : List Token} (whole : NoEnd (t :: rest)) : NoEnd rest :=
  (List.forall_mem_cons.1 whole).2

theorem NoEnd.of_suffix {tokens rest : List Token} (whole : NoEnd tokens)
    (suffix : rest <:+ tokens) : NoEnd rest := fun t member => whole t (suffix.mem member)

theorem Parser.skipSemicolon_suffix (tokens : List Token) :
    Parser.skipSemicolon tokens <:+ tokens := by
  unfold Parser.skipSemicolon
  split
  · exact List.suffix_refl _
  · split
    · exact List.suffix_cons _ _
    · exact List.suffix_refl _

theorem RawParser.current_eq {s : RawParser} {t : Token} {rest : List Token}
    (here : s.ahead = t :: rest) : current s = .ok t s := by
  rw [current, here]
  rfl

theorem RawParser.bind_of_ok {α β : Type} {read : RawParse α} {next : α → RawParse β}
    {s s' : RawParser} {a : α} (h : read s = .ok a s') : (read >>= next) s = next a s' := by
  change EStateM.bind read next s = _
  rw [EStateM.bind, h]

theorem RawParser.bind_of_error {α β : Type} {read : RawParse α} {next : α → RawParse β}
    {s s' : RawParser} {stop : Stop} (h : read s = .error stop s') :
    (read >>= next) s = .error stop s' := by
  change EStateM.bind read next s = _
  rw [EStateM.bind, h]

namespace RawParser.Mirrors

variable {α β : Type} {first start tokens rest window wider : List Token} {s : RawParser}

theorem widen {raw : RawParse α} {r : Reading α start} (h : Mirrors raw s r window)
    (suffix : window <:+ wider) : Mirrors raw s r wider := by
  obtain ⟨s', attempts, ran, ends, accounts⟩ := h
  exact ⟨s', attempts, ran, ends, accounts.widen suffix⟩

theorem done {a : α} {h : Within rest start} (ends : s.ahead.tail = rest)
    (suffix : rest <:+ window) : Mirrors (pure a) s (.done a rest h) window :=
  ⟨s, [], rfl, ends, .still (ends ▸ suffix) (List.append_nil _).symm rfl⟩

theorem fail {e : ParseError} {h : Within rest start} (ends : s.ahead.tail = rest)
    (suffix : rest <:+ window) : Mirrors (report e : RawParse α) s (.fail e rest h) window :=
  ⟨{ s with errors := s.errors ++ [e] }, [], rfl, ends, .still (ends ▸ suffix) rfl rfl⟩

theorem andThen {raw : RawParse α} {next : α → RawParse β} {r : Reading α first}
    {h : Within first start} {next' : α → (rest : List Token) → Within rest first → Reading β start}
    (whole : NoEnd window) (here : Mirrors raw s r window)
    (further : ∀ a rest le s', s'.ahead.tail = rest → NoEnd rest →
      Mirrors (next a) s' (next' a rest le) rest) :
    Mirrors (raw >>= next) s (r.andThen h next') window := by
  obtain ⟨s', attempts, ran, ends, accounts⟩ := here
  obtain ⟨result, dropped, rest, within⟩ := r
  cases result with
  | ok a =>
    subst ends
    obtain ⟨s'', attempts', ran', ends', accounts'⟩ :=
      further a _ within s' rfl (whole.of_suffix accounts.suffix)
    exact ⟨s'', attempts ++ attempts', (bind_of_ok ran).trans ran', ends', accounts.trans accounts'⟩
  | error e => exact ⟨s', attempts, bind_of_error ran, ends, accounts⟩

theorem map {raw : RawParse α} {r : Reading α start} (here : Mirrors raw s r window) {f : α → β} :
    Mirrors (raw >>= fun a => pure (f a)) s (r.map f) window := by
  obtain ⟨s', attempts, ran, ends, accounts⟩ := here
  obtain ⟨result, dropped, rest, within⟩ := r
  cases result with
  | ok a => exact ⟨s', attempts, bind_of_ok ran, ends, accounts⟩
  | error e => exact ⟨s', attempts, bind_of_error ran, ends, accounts⟩

/-! ### Steps -/

variable {r : Reading β start}

theorem advance {next : Unit → RawParse β} (behind : s.ahead.tail = tokens)
    (h : Mirrors (next ()) { s with ahead := tokens } r window) :
    Mirrors (advance >>= next) s r window := by
  subst behind
  obtain ⟨s', attempts, ran, ends, accounts⟩ := h
  exact ⟨s', attempts, ran, ends, accounts.moved⟩

theorem peekKind {next : TokenKind → RawParse β} (behind : s.ahead.tail = tokens)
    (h : Mirrors (next (Parser.headKind tokens)) s r window) :
    Mirrors (peekKind >>= next) s r window := by
  subst behind
  exact h

theorem peekNext {next : TokenKind → RawParse β} {t : Token} (behind : s.ahead.tail = t :: tokens)
    (h : Mirrors (next t.kind) s r window) : Mirrors (RawParser.peekKind >>= next) s r window :=
  peekKind behind h

theorem peekIs {kind : TokenKind} {yes no : RawParse β} (behind : s.ahead.tail = tokens)
    (found : Parser.headKind tokens = kind) (h : Mirrors yes s r window) :
    Mirrors (do let next ← RawParser.peekKind; if next = kind then yes else no) s r window := by
  refine peekKind behind ?_
  rwa [if_pos found]

theorem peekOther {kind : TokenKind} {yes no : RawParse β} (behind : s.ahead.tail = tokens)
    (other : Parser.headKind tokens ≠ kind) (h : Mirrors no s r window) :
    Mirrors (do let next ← RawParser.peekKind; if next = kind then yes else no) s r window := by
  refine peekKind behind ?_
  rwa [if_neg other]

theorem current {next : Token → RawParse β} {t : Token} (here : s.ahead = t :: tokens)
    (h : Mirrors (next t) s r window) : Mirrors (current >>= next) s r window := by
  obtain ⟨s', attempts, ran, ends, accounts⟩ := h
  exact ⟨s', attempts, (bind_of_ok (current_eq here)).trans ran, ends, accounts⟩

theorem expect {kind : TokenKind} {next : Unit → RawParse β} {h : Within tokens start}
    {next' : Token → (rest : List Token) → rest.length < tokens.length → Reading β start}
    (proper : kind ≠ .endOfInput) (whole : NoEnd tokens) (behind : s.ahead.tail = tokens)
    (further : ∀ t rest lt, NoEnd rest →
      Mirrors (next ()) { s with ahead := t :: rest } (next' t rest lt) rest) :
    Mirrors (expectPeek kind >>= next) s (Parser.expect kind tokens h next') tokens := by
  rw [expectPeek, bind_assoc]
  refine .peekKind behind ?_
  cases tokens with
  | nil =>
    rw [if_neg (show ¬ Parser.headKind [] = kind from proper.symm)]
    exact .fail behind (List.suffix_refl _)
  | cons t rest =>
    rw [Parser.expect]
    by_cases found : t.kind = kind
    · rw [if_pos (show Parser.headKind (t :: rest) = kind from found), if_pos found]
      have after := further t rest (Nat.lt_succ_self _) (whole.of_suffix (List.suffix_cons t rest))
      exact .advance behind (after.widen (List.suffix_cons t rest))
    · rw [if_neg (show ¬ Parser.headKind (t :: rest) = kind from found), if_neg found]
      exact .fail behind (List.suffix_refl _)

theorem expectIs {kind : TokenKind} {next : Unit → RawParse β} (behind : s.ahead.tail = tokens)
    (found : Parser.headKind tokens = kind)
    (h : Mirrors (next ()) { s with ahead := tokens } r window) :
    Mirrors (expectPeek kind >>= next) s r window := by
  rw [expectPeek, bind_assoc]
  refine .peekKind behind ?_
  rw [if_pos found]
  exact .advance behind h

theorem skipSemicolon {a : β} {h : Within (Parser.skipSemicolon tokens) start}
    (behind : s.ahead.tail = tokens) :
    Mirrors (RawParser.skipSemicolon >>= fun _ => pure a) s
      (.done a (Parser.skipSemicolon tokens) h) tokens := by
  rw [RawParser.skipSemicolon, bind_assoc]
  refine .peekKind behind ?_
  cases tokens with
  | nil => exact .done behind (List.suffix_refl _)
  | cons t rest =>
    by_cases found : t.kind = .semicolon
    · have skipped : Parser.skipSemicolon (t :: rest) = rest := if_pos found
      rw [if_pos (show Parser.headKind (t :: rest) = .semicolon from found)]
      exact .advance behind (.done skipped.symm (Parser.skipSemicolon_suffix _))
    · have kept : Parser.skipSemicolon (t :: rest) = t :: rest := if_neg found
      rw [if_neg (show ¬ Parser.headKind (t :: rest) = .semicolon from found)]
      exact .done (behind.trans kept.symm) (Parser.skipSemicolon_suffix _)

end RawParser.Mirrors

/-! ### Attempts -/

/-- From this state the machine makes an attempt, in which it does what the reading says. -/
def Tries {start : List Token} (raw : RawParse Stmt) (s : RawParser) (r : Reading Stmt start)
    (window : List Token) : Prop :=
  ∃ s' a, raw s = r.ending s' ∧ s'.ahead.tail = r.rest ∧
    Accounts s s' window (r.dropped ++ r.own) [] [a]

section Attempts

variable {start tokens : List Token} {t : Token} {s : RawParser}

theorem RawParser.Mirrors.tries {raw : RawParse Stmt} {r : Reading Stmt start}
    (here : s.ahead = t :: tokens) (h : RawParser.Mirrors raw { s with attempts := [] } r tokens) :
    Tries (RawParser.attempt raw) s r (t :: tokens) := by
  obtain ⟨s', attempts, ran, ends, accounts⟩ := h
  have added : s'.errors.drop s.errors.length = r.dropped ++ r.own := by
    rw [accounts.errors, List.append_assoc, List.drop_left]
  have logged : s'.attempts = attempts := by rw [accounts.logged, List.nil_append]
  refine ⟨s.note r.result.toOption s',
    ⟨s.ahead, r.result.toOption, s'.errors.drop s.errors.length, s'.attempts⟩, ?_, ends, ?_⟩
  · rw [RawParser.attempt, ran]
    obtain ⟨result, dropped, rest, within⟩ := r
    cases result <;> rfl
  · have behind := List.suffix_cons t tokens
    refine ⟨accounts.suffix.trans behind, ?_, rfl, ?_, ?_, ?_, ?_⟩
    · change s'.errors = _
      rw [accounts.errors, List.append_nil, List.append_assoc]
    · rw [List.flatMap_singleton, added]
    · rw [allAttempts_singleton, List.forall_mem_cons, logged]
      refine ⟨⟨r.own, ?_, ?_⟩, accounts.accounted⟩
      · change s'.errors.drop s.errors.length = attempts.flatMap Attempt.reported ++ r.own
        rw [added, accounts.reported]
      · obtain ⟨result, dropped, rest, within⟩ := r
        cases result <;> rfl
    · rw [allAttempts_singleton, List.pairwise_cons, logged]
      refine ⟨fun b nested => ?_, accounts.descending⟩
      rw [here]
      exact Nat.lt_succ_of_le (accounts.inside b nested).1.length_le
    · rw [allAttempts_singleton, List.forall_mem_cons, logged, here]
      refine ⟨⟨List.suffix_refl _, Nat.lt_succ_of_le accounts.suffix.length_le⟩, fun b nested => ?_⟩
      exact ⟨(accounts.inside b nested).1.trans behind, (accounts.inside b nested).2⟩

/-- A statement that failed is left out, and its error stays. -/
theorem Tries.orNone {raw : RawParse Stmt} {r : Reading Stmt start} {window : List Token}
    (tried : Tries raw s r window) :
    ∃ s' a, RawParser.orNone raw s = .ok r.result.toOption s' ∧ s'.ahead.tail = r.rest ∧
      Accounts s s' window (r.dropped ++ r.own) [] [a] := by
  obtain ⟨s', a, ran, ends, accounts⟩ := tried
  refine ⟨s', a, ?_, ends, accounts⟩
  rw [RawParser.orNone, ran, Reading.ending]
  cases r.result <;> rfl

theorem Tries.before {raw : RawParse Stmt} {more : RawParse (List Stmt)} {r : Reading Stmt tokens}
    {next : (rest : List Token) → Within rest tokens → Reading (List Stmt) start}
    (tried : Tries raw s r (t :: tokens)) (whole : NoEnd (t :: tokens))
    (further : ∀ rest le s', s'.ahead = rest → NoEnd rest →
      RawParser.Mirrors more s' (next rest le) rest) :
    RawParser.Mirrors (do
      let outcome ← RawParser.orNone raw
      RawParser.advance
      let others ← more
      return outcome.toList ++ others) s (r.before next) (t :: tokens) := by
  obtain ⟨s', a, ended, ends, accounts⟩ := tried.orNone
  have noEnd : NoEnd r.rest := ends ▸ whole.of_suffix accounts.suffix
  obtain ⟨s'', attempts, ran', ends', accounts'⟩ :=
    (further _ r.within { s' with ahead := s'.ahead.tail } ends noEnd).map
      (f := (r.result.toOption.toList ++ ·))
  rw [Reading.before_eq]
  refine ⟨s'', [a] ++ attempts, (RawParser.bind_of_ok ended).trans ran', ends', ?_⟩
  exact accounts.trans (accounts'.moved.widen (ends ▸ List.suffix_refl _))

end Attempts

end MonkeyLanguage
