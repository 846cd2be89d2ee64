import MonkeyLanguage.Syntax.Equality

/-!
# Values

The values of the language are shared by both engines. Two of them are signals: a value on its
way back from a function, and an error. Evaluation hands signals on instead of computing with
them.
-/

namespace MonkeyLanguage

/-- A scope as the chain of frames that hold its bindings, its own frame first. -/
inductive Scope where
  | root (frame : Nat)
  | enclosed (frame : Nat) (outer : Scope)
  deriving DecidableEq

/-- The frame that a binding in this scope goes to. -/
def Scope.frame : Scope → Nat
  | root frame => frame
  | enclosed frame _ => frame

def Scope.outer? : Scope → Option Scope
  | root _ => none
  | enclosed _ outer => some outer

/-- A function value. Every evaluation of a function literal draws a new identity, and a function
is equal only to itself. -/
structure Closure where
  identity : Nat
  params : List String
  body : Block
  scope : Scope
  deriving DecidableEq

inductive Builtin where
  | len
  | first
  | last
  | rest
  | push
  deriving DecidableEq

inductive HashKey where
  | integer (value : Int64)
  | string (value : String)
  | boolean (value : Bool)
  deriving DecidableEq

inductive Value where
  | integer (value : Int64)
  | string (value : String)
  | boolean (value : Bool)
  | null
  | array (elements : List Value)
  | hash (entries : List (HashKey × Value))
  | function (closure : Closure)
  | builtin (function : Builtin)
  /-- The signal of a `return` under way. -/
  | returning (value : Value)
  /-- The signal of a failed evaluation. -/
  | error (message : String)

instance : Inhabited Value := ⟨.null⟩

inductive ValueType where
  | integer
  | string
  | boolean
  | null
  | array
  | hash
  | function
  | builtin
  | returning
  | error
  deriving DecidableEq

def ValueType.name : ValueType → String
  | integer => "Integer"
  | string => "String"
  | boolean => "Boolean"
  | null => "Null"
  | array => "Array"
  | hash => "Hash"
  | function => "Function"
  | builtin => "Builtin"
  | returning => "Return"
  | error => "Error"

def Builtin.name : Builtin → String
  | len => "len"
  | first => "first"
  | last => "last"
  | rest => "rest"
  | push => "push"

def Builtin.all : List Builtin := [.len, .first, .last, .rest, .push]

def Builtin.named? (name : String) : Option Builtin := Builtin.all.find? (·.name == name)

/-- The key object of an entry; a key determines it. -/
def HashKey.value : HashKey → Value
  | integer value => .integer value
  | string value => .string value
  | boolean value => .boolean value

namespace Value

def type : Value → ValueType
  | integer _ => .integer
  | string _ => .string
  | boolean _ => .boolean
  | null => .null
  | array _ => .array
  | hash _ => .hash
  | function _ => .function
  | builtin _ => .builtin
  | returning _ => .returning
  | error _ => .error

/-- Only null and false count as false in a condition. -/
def isTruthy : Value → Bool
  | null => false
  | boolean b => b
  | _ => true

def isError : Value → Bool
  | error _ => true
  | _ => false

def isSignal : Value → Bool
  | returning _ => true
  | error _ => true
  | _ => false

def hashKey? : Value → Option HashKey
  | integer value => some (.integer value)
  | string value => some (.string value)
  | boolean value => some (.boolean value)
  | _ => none

/-- What a body or a program yields: a value on its way back has arrived. -/
def arrived : Value → Value
  | returning value => value
  | value => value

end Value

theorem Value.arrived_of_value {v : Value} (value : v.isSignal = false) : v.arrived = v := by
  cases v with
  | returning w => simp [isSignal] at value
  | _ => rfl

@[simp] theorem HashKey.hashKey?_value (key : HashKey) : key.value.hashKey? = some key := by
  cases key <;> rfl

/-- The key object is the only value with its key. -/
theorem Value.hashKey?_eq_some_iff {v : Value} {key : HashKey} :
    v.hashKey? = some key ↔ v = key.value := by
  constructor
  · intro h; cases v <;> simp_all [hashKey?] <;> subst h <;> rfl
  · rintro rfl; simp

end MonkeyLanguage
