import Mathlib
import MonkeyLanguage.Session
import MonkeyLanguage.Proofs.Eval.Shift

/-!
# Lines that bind nothing

A line without a `let` outside the bodies of its functions leaves the scope of a session as it was.
What it adds to the store, no later line can reach or tell from an empty gap, so without it the
others get the same answers.
-/

namespace MonkeyLanguage

/-- The line does not parse, or no `let` stands in it outside the bodies of functions. -/
def Idle (line : String) : Prop := (parse line).2 ≠ [] ∨ Stmt.BindlessIn (parse line).1

namespace Session

/-- The answers to lines one after another: the values as they are displayed, or why there are
none. -/
def answers (depth : Nat) : Session → List String → List (Except Failure String)
  | _, [] => []
  | session, line :: rest =>
    let (result, session) := session.execute depth line
    result.map Value.display :: answers depth session rest

/-- The scope and all values of the session follow the layout. -/
inductive Fits (layout : Layout) : Session → Prop
  | eval {scope : Scope} {store : Store} (home : scope.Fits layout) (fits : store.Fits layout) :
    Fits layout (.eval scope store)

/-- The second session is the first one with a gap in its numbers. -/
inductive Shifted (gap : Gap) : Session → Session → Prop
  | eval {store image : Store} (scope : Scope) (shifted : store.Shifted gap image) :
    Shifted gap (.eval scope store) (.eval (scope.shift gap) image)

theorem start_fits : (start .eval).Fits ⟨[none], 0⟩ := by
  refine .eval rfl ⟨rfl, rfl, fun frame name v member => ?_⟩
  match frame with
  | 0 => nomatch member
  | n + 1 => nomatch member

/-! ### A line -/

section

variable (depth : Nat) {layout : Layout} {session : Session}

theorem execute_fits (fits : session.Fits layout) (line : String) :
    ∃ layout', (session.execute depth line).2.Fits layout' := by
  cases fits with
  | @eval scope store home inside =>
    by_cases clean : (parse line).2 = []
    · rw [execute_of_clean clean]
      cases ended : (parse line).1.eval depth scope store with
      | none =>
        rw [executeProgram_of_none ended]
        exact ⟨layout, .eval home inside⟩
      | some p =>
        obtain ⟨layout', grows, after, -⟩ :=
          Program.eval_growsTo depth home (parse line).1 _ _ _ inside ended
        rw [executeProgram_of_some ended]
        exact ⟨layout', .eval (home.mono grows) after⟩
    · rw [execute_of_errors clean]
      exact ⟨layout, .eval home inside⟩

/-- In both sessions a line gets the same answer, and the gap stays. -/
theorem execute_shifted {gap : Gap} {image : Session} (shifted : session.Shifted gap image)
    (line : String) :
    (image.execute depth line).1.map Value.display =
        (session.execute depth line).1.map Value.display ∧
      (session.execute depth line).2.Shifted gap (image.execute depth line).2 := by
  cases shifted with
  | @eval store image scope inside =>
    by_cases clean : (parse line).2 = []
    · rw [execute_of_clean clean, execute_of_clean clean]
      have corresponds := Program.eval_shifting gap depth scope (parse line).1
      cases ended : (parse line).1.eval depth scope store with
      | none =>
        have endless := corresponds.endless inside ended
        rw [executeProgram_of_none ended, executeProgram_of_none endless]
        exact ⟨rfl, .eval scope inside⟩
      | some p =>
        obtain ⟨v', image', ended', _, -, inside', values⟩ := corresponds.ended inside ended
        rw [executeProgram_of_some ended, executeProgram_of_some ended']
        exact ⟨congrArg Except.ok (Value.Shifted.display_eq values), .eval scope inside'⟩
    · rw [execute_of_errors clean, execute_of_errors clean]
      exact ⟨rfl, .eval scope inside⟩

theorem shifted_of_grows {scope : Scope} {store store' : Store} {layout' : Layout}
    (home : scope.Fits layout) (inside : store.Fits layout) (after : store'.Fits layout')
    (grows : layout.Grows layout')
    (spared : ∀ frame < store.frames.size, store.Spares frame store') :
    ∃ gap, (eval scope store).Shifted gap (eval scope store') := by
  have fixed : scope.shift (store.growth store') = scope :=
    home.shift_eq (Nat.le_of_eq inside.frames)
  have shifted := Shifted.eval scope (inside.shifted after grows spared)
  rw [fixed] at shifted
  exact ⟨_, shifted⟩

/-- An idle line leaves a gap behind, which may be empty. -/
theorem execute_idle (fits : session.Fits layout) {line : String} (idle : Idle line) :
    ∃ gap, session.Shifted gap (session.execute depth line).2 := by
  cases fits with
  | @eval scope store home inside =>
    have unchanged : ∃ gap, (eval scope store).Shifted gap (eval scope store) :=
      shifted_of_grows home inside inside (.refl layout) fun frame => .refl
    by_cases clean : (parse line).2 = []
    · have bindless : Stmt.BindlessIn (parse line).1 := idle.resolve_left fun errors => errors clean
      rw [execute_of_clean clean]
      cases ended : (parse line).1.eval depth scope store with
      | none =>
        rw [executeProgram_of_none ended]
        exact unchanged
      | some p =>
        obtain ⟨layout', grows, after, -⟩ :=
          Program.eval_growsTo depth home (parse line).1 _ _ _ inside ended
        rw [executeProgram_of_some ended]
        refine shifted_of_grows home inside after grows fun frame old => ?_
        exact Program.eval_leaves depth (.inr bindless) _ _ _ old ended
    · rw [execute_of_errors clean]
      exact unchanged

end

/-! ### Sequences of lines -/

section

variable {depth : Nat} {session : Session}

theorem answers_shifted {gap : Gap} {image : Session} (shifted : session.Shifted gap image)
    (lines : List String) : image.answers depth lines = session.answers depth lines := by
  induction lines generalizing session image with
  | nil => rfl
  | cons line rest ih =>
    obtain ⟨same, shifted'⟩ := execute_shifted depth shifted line
    simp only [answers, same, ih shifted']

theorem answers_eraseIdx {layout : Layout} (fits : session.Fits layout) {lines : List String}
    {i : Nat} {line : String} (listed : lines[i]? = some line) (idle : Idle line) :
    session.answers depth (lines.eraseIdx i) = (session.answers depth lines).eraseIdx i := by
  induction lines generalizing session layout i with
  | nil => rfl
  | cons first rest ih =>
    cases i with
    | zero =>
      obtain rfl : first = line := Option.some.inj listed
      obtain ⟨gap, shifted⟩ := execute_idle depth fits idle
      exact (answers_shifted shifted rest).symm
    | succ i =>
      obtain ⟨layout', fits'⟩ := execute_fits depth fits first
      simp only [List.eraseIdx_cons_succ, answers, ih fits' listed]

end

/-- A line that does not parse or that binds nothing may be left out of a session: each other line
gets the answer that it gets with it. This holds for any bound on the depth of calls, so also for
one that all lines end within. -/
theorem idle_line_changes_no_answer {depth : Nat} {lines : List String} {i : Nat} {line : String}
    (listed : lines[i]? = some line) (idle : Idle line) :
    (start .eval).answers depth (lines.eraseIdx i) =
      ((start .eval).answers depth lines).eraseIdx i :=
  answers_eraseIdx start_fits listed idle

/-- The second line makes two functions and three frames more than the others. -/
def makers : List String :=
  ["let maker = fn(x) { fn() { x } };", "maker(5)() == maker(6)", "let b = maker(2);",
    "[b == maker, b == b, b()]"]

theorem idle_line_changes_no_answer_makers :
    Idle "maker(5)() == maker(6)" ∧
      ((start .eval).answers 2 (makers.eraseIdx 1)).map Except.toOption =
        [some "fn(x) { fn() { x } }", some "fn() { x }", some "[false, true, 2]"] := by
  have idle : Idle "maker(5)() == maker(6)" := by
    refine .inr ?_
    cbv
  refine ⟨idle, ?_⟩
  rw [idle_line_changes_no_answer (rfl : makers[1]? = some "maker(5)() == maker(6)") idle]
  decide +kernel

end Session

end MonkeyLanguage
