/-!
# Lines of a byte stream

A line ends at a line feed, which is dropped together with one carriage return before it. The last
line need not end in a line feed, and then keeps all its bytes.
-/

namespace MonkeyLanguage

def dropReturn (line : List UInt8) : List UInt8 :=
  if line.getLast? = some 13 then line.dropLast else line

def splitLines (bytes : List UInt8) : List (List UInt8) :=
  match _h : bytes.dropWhile (· != 10) with
  | [] => if bytes.isEmpty then [] else [bytes]
  | _ :: rest => dropReturn (bytes.takeWhile (· != 10)) :: splitLines rest
termination_by bytes.length
decreasing_by
  have := (List.dropWhile_sublist (fun b : UInt8 => b != 10) (l := bytes)).length_le
  rw [_h, List.length_cons] at this
  omega

/-- The text of a stream in UTF-8, if it is one. -/
def textOfBytes? (bytes : List UInt8) : Option String := String.fromUTF8? ⟨bytes.toArray⟩

end MonkeyLanguage
