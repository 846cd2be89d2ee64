import MonkeyLanguage.CommandLine

/-!
# Arguments of the program

Like the program itself this is the outer layer: which command the words after the program's name
ask for. What a command does with its file and its input is the command line's, and depends on
nothing here.
-/

namespace MonkeyLanguage

namespace Command

def engineNamed? : String → Option Engine
  | "eval" => some .eval
  | "vm" => some .vm
  | _ => none

/-- Parts the arguments of a command into the positional ones and the engine, which may be named
once and anywhere before a double dash. -/
def arguments? : List String → Option (List String × Option Engine)
  | [] => some ([], none)
  | "--" :: rest => some (rest, none)
  | "--engine" :: name :: rest =>
    match engineNamed? name, arguments? rest with
    | some engine, some (files, none) => some (files, some engine)
    | _, _ => none
  | "--engine=eval" :: rest =>
    match arguments? rest with
    | some (files, none) => some (files, some .eval)
    | _ => none
  | "--engine=vm" :: rest =>
    match arguments? rest with
    | some (files, none) => some (files, some .vm)
    | _ => none
  | word :: rest =>
    if word.startsWith "-" && word != "-" then none
    else
      match arguments? rest with
      | some (files, engine) => some (word :: files, engine)
      | none => none

/-- The command that arguments ask for; without any, or with a double dash alone, it is the repl. A
word after a leading double dash names no command. -/
def ofArguments? : List String → Option Command
  | [] => some (.repl .eval)
  | ["--"] => some (.repl .eval)
  | "repl" :: rest =>
    match arguments? rest with
    | some ([], engine) => some (.repl (engine.getD .eval))
    | _ => none
  | "run" :: rest =>
    match arguments? rest with
    | some ([file], engine) => some (.run file (engine.getD .eval))
    | _ => none
  | "disassemble" :: rest =>
    match arguments? rest with
    | some ([file], none) => some (.disassemble file)
    | _ => none
  | _ => none

end Command

end MonkeyLanguage
