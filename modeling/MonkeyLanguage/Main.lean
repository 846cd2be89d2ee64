import MonkeyLanguage.Main.Arguments

/-!
# The program

Reads arguments, files and lines, and writes what the command line makes of them.
-/

namespace MonkeyLanguage

def callDepth : Nat := 1000000

/-- Reads up to and with a line feed, or to the end of the stream. -/
partial def readLine (stream : IO.FS.Stream) (line : List UInt8) : IO (List UInt8) := do
  let byte ← stream.read 1
  match byte.toList with
  | [] => return line.reverse
  | b :: _ => if b = 10 then return (b :: line).reverse else readLine stream (b :: line)

partial def converse (session : Session) : IO UInt32 := do
  let stdout ← IO.getStdout
  stdout.putStr Repl.prompt
  stdout.flush
  match splitLines (← readLine (← IO.getStdin) []) with
  | [] => return 0
  | line :: _ =>
    match Repl.enter callDepth session line with
    | .ok (text, session) =>
      stdout.putStr text
      converse session
    | .error e =>
      IO.eprintln e.message
      return 1

def readFile (path : String) : IO (Except ReadError (List UInt8)) := do
  try
    return .ok (← IO.FS.readBinFile path).toList
  catch
    | .noFileOrDirectory .. => return .error .noSuchFile
    | .inappropriateType .. => return .error .isDirectory
    | .permissionDenied _ code text => return .error (.system text code.toNat)
    | e => return .error (.system (toString e) 0)

def finish (outcome : Outcome) : IO UInt32 := do
  IO.print outcome.stdout
  IO.eprint outcome.stderr
  return outcome.code.toUInt32

end MonkeyLanguage

open MonkeyLanguage in
def main (args : List String) : IO UInt32 := do
  match Command.ofArguments? args with
  | none =>
    IO.eprintln "usage: [repl | run FILE] [--engine eval|vm], or disassemble FILE"
    return 2
  | some (.repl engine) =>
    IO.print (Repl.greeting engine)
    converse (Session.start engine)
  | some (.run file engine) => finish (runFile callDepth engine file (← readFile file))
  | some (.disassemble file) => finish (disassembleFile file (← readFile file))
