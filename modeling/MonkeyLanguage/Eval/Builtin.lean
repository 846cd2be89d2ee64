import MonkeyLanguage.Eval.Operators

/-!
# Builtin functions

They count their arguments first and then look at the type of the first one. None of them changes
an array; `rest` and `push` give new ones.
-/

namespace MonkeyLanguage.Builtin

def arity : Builtin → Nat
  | push => 2
  | _ => 1

/-- The length of a string is that of its UTF-8 form in bytes. -/
def length : Value → Value
  | .string s => .integer (Int64.ofNat s.utf8ByteSize)
  | .array elements => .integer (Int64.ofNat elements.length)
  | v => (Fault.lenUnsupported v.type).value

/-- Applies what `f` makes of an array. -/
def onArray (builtin : Builtin) (v : Value) (f : List Value → Value) : Value :=
  match v with
  | .array elements => f elements
  | v => (Fault.arrayExpected builtin v.type).value

def apply (builtin : Builtin) (args : List Value) : Value :=
  match builtin, args with
  | len, [v] => length v
  | first, [v] => onArray first v fun elements => elements.head?.getD .null
  | last, [v] => onArray last v fun elements => elements.getLast?.getD .null
  | rest, [v] =>
    onArray rest v fun elements =>
      match elements with
      | [] => .null
      | _ :: tail => .array tail
  | push, [v, extra] => onArray push v fun elements => .array (elements ++ [extra])
  | builtin, args => (Fault.builtinArgumentCount args.length builtin.arity).value

end MonkeyLanguage.Builtin
