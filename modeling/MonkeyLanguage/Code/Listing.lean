import MonkeyLanguage.Code.Encoding
import MonkeyLanguage.Text.Decimal
import MonkeyLanguage.Value.Printer

/-!
# Listings

A listing has a line for every instruction of a stream, opened by the offset of the instruction.
-/

namespace MonkeyLanguage

structure Bytecode where
  code : Code
  constants : Array Value

namespace Code

/-- The instructions from an offset on, each with its own offset. -/
def instructionsFrom (code : Code) (offset : Nat) : Except DecodeError (List (Nat × Decoded)) :=
  if offset < code.size then
    match _h : code.decode offset with
    | .error e => .error e
    | .ok i =>
      match instructionsFrom code (offset + i.width) with
      | .error e => .error e
      | .ok rest => .ok ((offset, i) :: rest)
  else .ok []
termination_by code.size - offset
decreasing_by
  have := of_decode_eq_ok _h
  omega

def instructions (code : Code) : Except DecodeError (List (Nat × Decoded)) :=
  code.instructionsFrom 0

/-- One line: the offset in at least four digits, the mnemonic, the operands. -/
def line (offset : Nat) (i : Decoded) : String :=
  Decimal.fourDigits offset ++ " " ++ i.op.mnemonic ++
    String.join (i.operands.map fun operand => " " ++ toString operand) ++ "\n"

def listing (code : Code) : Except DecodeError String :=
  match code.instructions with
  | .ok instructions => .ok (String.join (instructions.map fun (offset, i) => line offset i))
  | .error e => .error e

/-- The listing, or in its place the reason why there is none. -/
def display (code : Code) : String :=
  match code.listing with
  | .ok text => text
  | .error e => "<" ++ e.message ++ ">"

end Code

def Bytecode.display (bytecode : Bytecode) : String :=
  "== instructions ==\n" ++ bytecode.code.display ++ "== constants ==\n" ++
    String.join (bytecode.constants.toList.zipIdx.map fun (constant, i) =>
      Decimal.fourDigits i ++ " " ++ constant.display ++ "\n")

end MonkeyLanguage
