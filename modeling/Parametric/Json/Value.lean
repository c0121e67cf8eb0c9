import Parametric.Number.Power

/-!
JSON values. Members of an object stay in the order in which they were written.
-/

namespace Parametric

inductive Json where
  | null
  | bool (value : Bool)
  | int (value : Int)
  /-- A number with a fraction or an exponent, or beyond 64 bits. -/
  | real
  | str (value : String)
  | arr (items : List Json)
  | obj (members : List (String × Json))
  /-- A value of the right form that cannot be read: text with half of a pair of code units, a
  number out of range, or a value that is nested too deep. It is as good as any other where it is
  not asked for. -/
  | unreadable
deriving Repr, Inhabited, BEq

namespace Json

def text? : Json → Option String
  | .str value => some value
  | _ => none

def bool? : Json → Option Bool
  | .bool value => some value
  | _ => none

/-- The value of a natural number below 2^64. -/
def nat? : Json → Option Nat
  | .int value => if 0 ≤ value && value < Number.wordLimit then some value.toNat else none
  | _ => none

/-- The items of an array, each read by `item`. -/
def list? {α : Type} (item : Json → Option α) : Json → Option (List α)
  | .arr items => items.mapM item
  | _ => none

/-- A value that may be `null`. -/
def nullable? {α : Type} (item : Json → Option α) : Json → Option (Option α)
  | .null => some none
  | value => (item value).map some

/-- The members of an object, each value read by `item`. -/
def members? {α : Type} (item : Json → Option α) : Json → Option (List (String × α))
  | .obj members => members.mapM fun (key, value) => (item value).map fun v => (key, v)
  | _ => none

mutual
/-- Whether all parts of a value can be read. -/
def isReadable : Json → Bool
  | .unreadable => false
  | .arr items => areReadable items
  | .obj members => haveReadable members
  | _ => true

def areReadable : List Json → Bool
  | [] => true
  | item :: rest => item.isReadable && areReadable rest

def haveReadable : List (String × Json) → Bool
  | [] => true
  | (_, value) :: rest => value.isReadable && haveReadable rest
end

/-- A word for a constant: a string, or an object with that one key and the value `null`. -/
def word? : Json → Option String
  | .str value => some value
  | .obj [(key, .null)] => some key
  | _ => none

/-- A text, or `null` where there is none. -/
def ofText? : Option String → Json
  | some value => .str value
  | none => .null

def ofTexts (values : List String) : Json := .arr (values.map .str)

def ofNat (n : Nat) : Json := .int n

/-- A member that is left out where there is no value. -/
def optionalMember (key : String) (value : Option Json) : List (String × Json) :=
  match value with
  | some v => [(key, v)]
  | none => []

end Json

end Parametric
