import MonkeyLanguage.Compiler.Basic
import MonkeyLanguage.Eval.Basic
import MonkeyLanguage.Machine.Basic
import MonkeyLanguage.Syntax.Parser

/-!
# Sessions

A session executes source texts one after another on one of the two engines. The evaluator keeps
its global scope from text to text; the machine starts anew for each.
-/

namespace MonkeyLanguage

inductive Engine where
  | eval
  | vm
  deriving DecidableEq

inductive Failure where
  | parse (errors : List ParseError)
  | compile (error : CompileError)
  | runtime (error : RuntimeError)
  /-- The bound on nested calls was met, or the one on machine steps. -/
  | unfinished

def Failure.message : Failure → String
  | parse errors => "parser errors:" ++ String.join (errors.map fun e => "\n\t" ++ e.message)
  | compile error => "compilation failed: " ++ error.message
  | runtime error => "executing bytecode failed: " ++ error.message
  | unfinished => "execution is nested too deeply"

/-- What a program leaves behind on the machine. Compiled code has no backward jumps, so its length
bounds the steps of its run. -/
def Program.execute (program : Program) : Except Failure Value :=
  match compile program with
  | .error e => .error (.compile e)
  | .ok bytecode =>
    match Machine.run bytecode bytecode.code.size .initial with
    | (.halted, m) => .ok m.stack.lastPopped
    | (.failed e, _) => .error (.runtime e)
    | (.running, _) => .error .unfinished

inductive Session where
  | eval (scope : Scope) (store : Store)
  | vm

namespace Session

def start : Engine → Session
  | .eval =>
    let (scope, store) := Store.empty.newRoot
    .eval scope store
  | .vm => .vm

/-- Executes a program; `depth` bounds how deep its calls may nest. -/
def executeProgram (depth : Nat) (program : Program) : Session → Except Failure Value × Session
  | .eval scope store =>
    match program.eval depth scope store with
    | some (v, store) => (.ok v, .eval scope store)
    | none => (.error .unfinished, .eval scope store)
  | .vm => (program.execute, .vm)

def execute (depth : Nat) (session : Session) (source : String) : Except Failure Value × Session :=
  match parse source with
  | (program, []) => session.executeProgram depth program
  | (_, errors) => (.error (.parse errors), session)

/-! ### Results -/

variable {depth : Nat}

theorem execute_of_clean {source : String} (clean : (parse source).2 = []) (session : Session) :
    session.execute depth source = session.executeProgram depth (parse source).1 := by
  have parsed : parse source = ((parse source).1, []) := Prod.ext rfl clean
  rw [execute, parsed]

theorem execute_of_errors {source : String} (errors : (parse source).2 ≠ []) (session : Session) :
    session.execute depth source = (.error (.parse (parse source).2), session) := by
  unfold execute
  split
  · rename_i parsed
    exact absurd (congrArg Prod.snd parsed) errors
  · rename_i parsed
    rw [parsed]

section

variable {program : Program} {scope : Scope} {store store' : Store} {v : Value}

theorem executeProgram_of_some (ended : program.eval depth scope store = some (v, store')) :
    (eval scope store).executeProgram depth program = (.ok v, .eval scope store') := by
  simp only [executeProgram, ended]

theorem executeProgram_of_none (endless : program.eval depth scope store = none) :
    (eval scope store).executeProgram depth program = (.error .unfinished, .eval scope store) := by
  simp only [executeProgram, endless]

end

end Session

end MonkeyLanguage
