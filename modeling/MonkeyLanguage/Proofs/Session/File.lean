import Mathlib
import MonkeyLanguage.Session
import MonkeyLanguage.Proofs.Eval.Run
import MonkeyLanguage.Proofs.Syntax.Concatenation

/-!
# Files and sessions

A file may be cut into texts wherever a semicolon closes a statement. To execute it is to execute
the texts one after another in a session, up to the first one that a signal stops.
-/

namespace MonkeyLanguage

/-! ### Two programs -/

theorem Stmt.evalAll_append {call : Call} {scope : Scope} {last : Value} {p q : List Stmt}
    {store : Store} (value : last.isSignal = false) (nonempty : q ≠ []) :
    Stmt.evalAll call scope last (p ++ q) store =
      match Stmt.evalAll call scope last p store with
      | some (v, middle) =>
        if v.isSignal then some (v, middle) else Stmt.evalAll call scope .null q middle
      | none => none := by
  induction p generalizing last store with
  | nil =>
    obtain ⟨s, rest, rfl⟩ := List.exists_cons_of_ne_nil nonempty
    have nothing : Stmt.evalAll call scope last [] store = some (last, store) := rfl
    simp only [nothing, value]
    rfl
  | cons s p ih =>
    simp only [List.cons_append, Stmt.evalAll]
    cases ended : s.eval call scope store with
    | none => rw [onValue_of_none ended, onValue_of_none ended]
    | some r =>
      obtain ⟨v, middle⟩ := r
      cases signal : v.isSignal with
      | true =>
        rw [onValue_of_signal ended signal, onValue_of_signal ended signal]
        simp only [signal, if_true]
      | false => rw [onValue_of_value ended signal, onValue_of_value ended signal, ih signal]

theorem Program.eval_append {depth : Nat} {scope : Scope} {p q : Program} {store : Store}
    (nonempty : q ≠ []) :
    Program.eval depth scope (p ++ q) store =
      match Stmt.evalAll (callWithin depth) scope .null p store with
      | some (v, middle) =>
        if v.isSignal then some (v.arrived, middle) else Program.eval depth scope q middle
      | none => none := by
  change (Stmt.evalAll (callWithin depth) scope .null (p ++ q) store).bind _ = _
  rw [Stmt.evalAll_append rfl nonempty]
  cases Stmt.evalAll (callWithin depth) scope .null p store with
  | none => rfl
  | some r =>
    obtain ⟨v, middle⟩ := r
    cases signal : v.isSignal <;> simp only [signal] <;> rfl

/-! ### Steps of a session -/

namespace Session

/-- Whether a `return` or an error at the top level stops the execution of the text. -/
def stops (depth : Nat) (session : Session) (text : String) : Bool :=
  match session with
  | .eval scope store =>
    match Stmt.evalAll (callWithin depth) scope .null (parse text).1 store with
    | some (v, _) => v.isSignal
    | none => false
  | .vm => false

/-- Executes texts one after another up to the first that is stopped, or to the last one: the result
of that step, and the session after it. -/
def upToSignal (depth : Nat) : Session → String → List String → Except Failure Value × Session
  | session, text, [] => session.execute depth text
  | session, text, next :: rest =>
    if session.stops depth text then session.execute depth text
    else upToSignal depth (session.execute depth text).2 next rest

/-- Every step comes to a value. -/
def AllFinish (depth : Nat) : Session → List String → Prop
  | _, [] => True
  | session, text :: rest =>
    (∃ v, (session.execute depth text).1 = .ok v) ∧
      AllFinish depth (session.execute depth text).2 rest

variable {depth : Nat} {scope : Scope} {store : Store}

theorem execute_of_eval {text : String} (clean : (parse text).2 = []) {v : Value} {store' : Store}
    (ended : Program.eval depth scope (parse text).1 store = some (v, store')) :
    (eval scope store).execute depth text = (.ok v, .eval scope store') := by
  rw [execute_of_clean clean, executeProgram_of_some ended]

theorem eval_of_execute {text : String} (clean : (parse text).2 = []) {v : Value}
    (finished : ((eval scope store).execute depth text).1 = .ok v) :
    ∃ store', Program.eval depth scope (parse text).1 store = some (v, store') := by
  rw [execute_of_clean clean] at finished
  cases ended : Program.eval depth scope (parse text).1 store with
  | none =>
    rw [executeProgram_of_none ended] at finished
    cases finished
  | some p =>
    rw [executeProgram_of_some ended] at finished
    obtain rfl := Except.ok.inj finished
    exact ⟨p.2, rfl⟩

theorem flatMap_program_ne_nil {text : String} {rest : List String} (complete : Complete text) :
    ((text :: rest).flatMap fun text => (parse text).1) ≠ [] := by
  rw [List.flatMap_cons]
  exact List.append_ne_nil_of_left_ne_nil complete.program_ne_nil _

/-- Where the statements of all texts come to a value, the steps get there. -/
theorem upToSignal_of_eval {text : String} {rest : List String} {v : Value} {store' : Store}
    (complete : ∀ t ∈ text :: rest, Complete t)
    (ended : Program.eval depth scope ((text :: rest).flatMap fun t => (parse t).1) store =
      some (v, store')) :
    (eval scope store).upToSignal depth text rest = (.ok v, .eval scope store') := by
  have clean := (complete text List.mem_cons_self).clean
  induction rest generalizing text store with
  | nil =>
    rw [List.flatMap_cons, List.flatMap_nil, List.append_nil] at ended
    exact execute_of_eval clean ended
  | cons next rest ih =>
    have later : ∀ t ∈ next :: rest, Complete t := fun t member =>
      complete t (List.mem_cons_of_mem _ member)
    have more := later next List.mem_cons_self
    rw [List.flatMap_cons, Program.eval_append (flatMap_program_ne_nil more)] at ended
    cases first : Stmt.evalAll (callWithin depth) scope .null (parse text).1 store with
    | none =>
      rw [first] at ended
      cases ended
    | some r =>
      obtain ⟨u, middle⟩ := r
      have step := execute_of_eval clean (Program.eval_eq_some.2 ⟨u, first, rfl⟩)
      simp only [first] at ended
      cases signal : u.isSignal with
      | true =>
        rw [signal, if_pos rfl] at ended
        obtain ⟨rfl, rfl⟩ := Prod.mk.inj (Option.some.inj ended)
        simp only [upToSignal, stops, first, signal, if_true, step]
      | false =>
        rw [signal, if_neg Bool.false_ne_true] at ended
        simp only [upToSignal, stops, first, signal, Bool.false_eq_true, if_false, step]
        exact ih later ended more.clean

/-- The steps get no further than the statements of all texts, one after another. -/
theorem eval_of_allFinish {text : String} {rest : List String}
    (complete : ∀ t ∈ text :: rest, Complete t)
    (finish : (eval scope store).AllFinish depth (text :: rest)) :
    ∃ v store', Program.eval depth scope ((text :: rest).flatMap fun t => (parse t).1) store =
      some (v, store') := by
  have clean := (complete text List.mem_cons_self).clean
  induction rest generalizing text store with
  | nil =>
    obtain ⟨⟨v, finished⟩, -⟩ := finish
    obtain ⟨store', ended⟩ := eval_of_execute clean finished
    rw [List.flatMap_cons, List.flatMap_nil, List.append_nil]
    exact ⟨v, store', ended⟩
  | cons next rest ih =>
    have later : ∀ t ∈ next :: rest, Complete t := fun t member =>
      complete t (List.mem_cons_of_mem _ member)
    have more := later next List.mem_cons_self
    obtain ⟨⟨v, finished⟩, others⟩ := finish
    obtain ⟨middle, ended⟩ := eval_of_execute clean finished
    rw [execute_of_eval clean ended] at others
    obtain ⟨u, first, rfl⟩ := Program.eval_eq_some.1 ended
    rw [List.flatMap_cons, Program.eval_append (flatMap_program_ne_nil more)]
    simp only [first]
    cases signal : u.isSignal with
    | true => exact ⟨_, _, rfl⟩
    | false => exact ih later others more.clean

/-- A file made of texts that each parse and end with a semicolon is parsed as their statements in
order. If it comes to a value, or all steps of a session with these texts do, then the value is that
of the first step that a signal stops, or else of the last one, and the file leaves the bindings
that the session has after this step. -/
theorem file_runs_as_session (depth : Nat) {text : String} {rest : List String}
    (complete : ∀ t ∈ text :: rest, Complete t) :
    parse (String.join (text :: rest)) = ((text :: rest).flatMap fun t => (parse t).1, []) ∧
      ((∃ v, ((start .eval).execute depth (String.join (text :: rest))).1 = .ok v) ∨
          (start .eval).AllFinish depth (text :: rest) →
        ∃ v session, (start .eval).execute depth (String.join (text :: rest)) = (.ok v, session) ∧
          (start .eval).upToSignal depth text rest = (.ok v, session)) := by
  have parsed := parse_join complete
  have clean : (parse (String.join (text :: rest))).2 = [] := by rw [parsed]
  refine ⟨parsed, fun terminates => ?_⟩
  have fresh : start .eval = eval (.root 0) Store.empty.newRoot.2 := rfl
  rw [fresh] at terminates ⊢
  have ended : ∃ v store', Program.eval depth (.root 0)
      ((text :: rest).flatMap fun t => (parse t).1) Store.empty.newRoot.2 = some (v, store') := by
    rcases terminates with ⟨v, finished⟩ | finish
    · obtain ⟨store', ended⟩ := eval_of_execute clean finished
      rw [parsed] at ended
      exact ⟨v, store', ended⟩
    · exact eval_of_allFinish complete finish
  obtain ⟨v, store', ended⟩ := ended
  refine ⟨v, .eval (.root 0) store', execute_of_eval clean ?_, upToSignal_of_eval complete ended⟩
  rw [parsed]
  exact ended

def firstLine : String := "let x = 1; let f = fn(y) { x + y };"

/-- The first of these is stopped and calls a function of `firstLine`, the other binds once more. -/
def laterLines : List String := ["let x = 2; return f(3);", "let x = 9;"]

theorem lines_complete : ∀ text ∈ firstLine :: laterLines, Complete text := by
  intro text member
  simp only [firstLine, laterLines, List.mem_cons, List.not_mem_nil, or_false] at member
  rcases member with rfl | rfl | rfl <;>
    exact ⟨by cbv, ⟨.semicolon, ";"⟩, by decide +kernel, rfl⟩

theorem file_runs_as_session_return :
    (∀ text ∈ firstLine :: laterLines, Complete text) ∧
      ∃ v session,
        (start .eval).execute 1 (String.join (firstLine :: laterLines)) = (.ok v, session) ∧
          (start .eval).upToSignal 1 firstLine laterLines = (.ok v, session) ∧
            v.display = "5" ∧
              ((session.execute 1 "x").1.map Value.display).toOption = some "2" := by
  have answered : (((start .eval).execute 1 (String.join (firstLine :: laterLines))).1.map
      Value.display).toOption = some "5" := by decide +kernel
  have bound : ((((start .eval).execute 1 (String.join (firstLine :: laterLines))).2.execute 1
      "x").1.map Value.display).toOption = some "2" := by decide +kernel
  have finished :
      ∃ v, ((start .eval).execute 1 (String.join (firstLine :: laterLines))).1 = .ok v := by
    cases result : ((start .eval).execute 1 (String.join (firstLine :: laterLines))).1 with
    | ok v => exact ⟨v, rfl⟩
    | error failure =>
      rw [result] at answered
      cases answered
  obtain ⟨-, same⟩ := file_runs_as_session 1 lines_complete
  obtain ⟨v, session, ran, stepped⟩ := same (.inl finished)
  rw [ran] at answered bound
  exact ⟨lines_complete, v, session, ran, stepped, Option.some.inj answered, bound⟩

end Session

end MonkeyLanguage
