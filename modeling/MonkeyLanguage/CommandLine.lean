import MonkeyLanguage.Session
import MonkeyLanguage.Text.Lines

/-!
# The command line

`repl` answers line by line, `run` executes a file, `disassemble` lists the bytecode of one. What
each of them writes is a function of the bytes it reads.
-/

namespace MonkeyLanguage

inductive Command where
  | repl (engine : Engine)
  | run (file : String) (engine : Engine)
  | disassemble (file : String)
  deriving DecidableEq

inductive ReadError where
  | system (text : String) (code : Nat)
  | notUtf8

def ReadError.message : ReadError → String
  | system text code => text ++ " (os error " ++ toString code ++ ")"
  | notUtf8 => "stream did not contain valid UTF-8"

def ReadError.noSuchFile : ReadError := .system "No such file or directory" 2

def ReadError.isDirectory : ReadError := .system "Is a directory" 21

def readText (bytes : List UInt8) : Except ReadError String :=
  match textOfBytes? bytes with
  | some text => .ok text
  | none => .error .notUtf8

structure Outcome where
  code : Nat
  stdout : String
  stderr : String
  deriving DecidableEq

def Outcome.success (stdout : String) : Outcome := ⟨0, stdout, ""⟩

/-- A failing command writes one message to the error stream. -/
def Outcome.failure (stdout message : String) : Outcome := ⟨1, stdout, message ++ "\n"⟩

/-! ### The repl -/

namespace Repl

def engineTitle : Engine → String
  | .eval => "Eval"
  | .vm => "Vm"

def greeting (engine : Engine) : String :=
  "Welcome to the Monkey REPL! (" ++ engineTitle engine ++ " engine)\n" ++
    "EOF to exit. (Ctrl+D on *nix, Ctrl+Z on Windows)\n"

def prompt : String := ">> "

/-- What is written after a line; a parse error takes a line of its own. -/
def answer : Except Failure Value → String
  | .ok v => v.display ++ "\n"
  | .error (.parse errors) => String.join (errors.map fun e => "\t" ++ e.message ++ "\n")
  | .error failure => failure.message ++ "\n"

/-- Executes one line. -/
def enter (depth : Nat) (session : Session) (line : List UInt8) :
    Except ReadError (String × Session) :=
  match readText line with
  | .error e => .error e
  | .ok source =>
    let (result, session) := session.execute depth source
    .ok (answer result, session)

/-- All that is written for some lines, with a prompt before each line and before the end. -/
def transcript (depth : Nat) : Session → List (List UInt8) → String → Outcome
  | _, [], written => .success (written ++ prompt)
  | session, line :: rest, written =>
    match enter depth session line with
    | .ok (text, session) => transcript depth session rest (written ++ prompt ++ text)
    | .error e => .failure (written ++ prompt) e.message

end Repl

/-! ### Files -/

def fileText (path : String) (contents : Except ReadError (List UInt8)) : Except String String :=
  match contents.bind readText with
  | .ok text => .ok text
  | .error e => .error ("failed to read " ++ path ++ ": " ++ e.message)

def runFile (depth : Nat) (engine : Engine) (path : String)
    (contents : Except ReadError (List UInt8)) : Outcome :=
  match fileText path contents with
  | .error message => .failure "" message
  | .ok source =>
    match ((Session.start engine).execute depth source).1 with
    | .error failure => .failure "" failure.message
    | .ok v => if v.isError then .failure "" v.display else .success (v.display ++ "\n")

def disassembleFile (path : String) (contents : Except ReadError (List UInt8)) : Outcome :=
  match fileText path contents with
  | .error message => .failure "" message
  | .ok source =>
    match parse source with
    | (program, []) =>
      match compile program with
      | .ok bytecode => .success bytecode.display
      | .error e => .failure "" (Failure.compile e).message
    | (_, errors) => .failure "" (Failure.parse errors).message

/-- A whole run of a command, given the contents of files and of the input stream. -/
def Command.outcome (depth : Nat) (read : String → Except ReadError (List UInt8))
    (input : List UInt8) : Command → Outcome
  | .repl engine =>
    Repl.transcript depth (Session.start engine) (splitLines input) (Repl.greeting engine)
  | .run file engine => runFile depth engine file (read file)
  | .disassemble file => disassembleFile file (read file)

end MonkeyLanguage
