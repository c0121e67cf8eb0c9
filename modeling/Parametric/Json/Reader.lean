import Parametric.Json.Leaf

/-!
Reading JSON text. Arrays and objects deeper than 127 levels are checked for their form alone.
-/

namespace Parametric.Json

def skipBlanks (text : List Char) : List Char :=
  text.dropWhile fun c => c == ' ' || c == '\t' || c == '\n' || c == '\r'

/-- What the key of a member stands for, and the text after its colon. -/
def key? (text : List Char) : Option (Option String × List Char) := do
  let '"' :: rest := skipBlanks text | none
  let (key, rest) ← string? rest
  let ':' :: rest := skipBlanks rest | none
  return (key, rest)

/-! ## Form -/

inductive Bracket where
  | array
  | object
deriving DecidableEq, Repr, Inhabited

/-- The text after the next value inside brackets, its key included. -/
def afterKey? : Bracket → List Char → Option (List Char)
  | .array, text => some text
  | .object, text => (key? text).map (·.2)

def afterClosing? : Bracket → List Char → Option (List Char)
  | .array, ']' :: rest => some rest
  | .object, '\x7d' :: rest => some rest
  | _, _ => none

def opening? : List Char → Option (Bracket × List Char)
  | '[' :: rest => some (.array, rest)
  | '\x7b' :: rest => some (.object, rest)
  | _ => none

/-- The text after all open brackets, the innermost one first, are closed. `atValue` tells whether
a value is next, or what follows one. Every step reads at least one character. -/
def skip? : Nat → Bool → List Bracket → List Char → Option (List Char)
  | _, false, [], text => some text
  | 0, _, _, _ => none
  | bound + 1, true, open_, text =>
    match opening? (skipBlanks text) with
    | none =>
      match leaf? (skipBlanks text) with
      | some (_, rest) => skip? bound false open_ rest
      | none => none
    | some (bracket, rest) =>
      match afterClosing? bracket (skipBlanks rest) with
      | some rest => skip? bound false open_ rest
      | none =>
        match afterKey? bracket rest with
        | some rest => skip? bound true (bracket :: open_) rest
        | none => none
  | bound + 1, false, bracket :: open_, text =>
    match skipBlanks text with
    | ',' :: rest =>
      match afterKey? bracket rest with
      | some rest => skip? bound true (bracket :: open_) rest
      | none => none
    | text =>
      match afterClosing? bracket text with
      | some rest => skip? bound false open_ rest
      | none => none

/-! ## Values -/

/-- Items up to the closing bracket, after the items in `read`, the last one first; at most `bound`
of them. -/
def items? (item : List Char → Option (Json × List Char)) :
    Nat → List Json → List Char → Option (List Json × List Char)
  | 0, _, _ => none
  | bound + 1, read, text =>
    match item text with
    | none => none
    | some (value, rest) =>
      match skipBlanks rest with
      | ',' :: rest => items? item bound (value :: read) rest
      | ']' :: rest => some ((value :: read).reverse, rest)
      | _ => none

/-- Members up to the closing brace, after the members in `read`, the last one first; at most
`bound` of them. There are none if a key stands for nothing. -/
def readMembers? (item : List Char → Option (Json × List Char)) :
    Nat → Option (List (String × Json)) → List Char →
    Option (Option (List (String × Json)) × List Char)
  | 0, _, _ => none
  | bound + 1, read, text =>
    match key? text with
    | none => none
    | some (key, rest) =>
      match item rest with
      | none => none
      | some (value, rest) =>
        let read := key.bind fun key => read.map ((key, value) :: ·)
        match skipBlanks rest with
        | ',' :: rest => readMembers? item bound read rest
        | '\x7d' :: rest => some (read.map List.reverse, rest)
        | _ => none

def ofMembers : Option (List (String × Json)) → Json
  | some members => .obj members
  | none => .unreadable

/-- A value and the text after it; deeper than the given number of levels, only its form is checked.
`bound` is more than the length of the text. -/
def value? (bound : Nat) : Nat → List Char → Option (Json × List Char)
  | 0, text =>
    match opening? (skipBlanks text) with
    | none => leaf? (skipBlanks text)
    | some _ => (skip? bound true [] text).map fun rest => (.unreadable, rest)
  | levels + 1, text =>
    match opening? (skipBlanks text) with
    | none => leaf? (skipBlanks text)
    | some (bracket, rest) =>
      match afterClosing? bracket (skipBlanks rest), bracket with
      | some rest, .array => some (.arr [], rest)
      | some rest, .object => some (.obj [], rest)
      | none, .array =>
        (items? (value? bound levels) bound [] rest).map fun (items, rest) => (.arr items, rest)
      | none, .object =>
        (readMembers? (value? bound levels) bound (some []) rest).map fun (members, rest) =>
          (ofMembers members, rest)

/-- The deepest nesting of arrays and objects that is read. -/
def levelLimit : Nat := 127

def read? (text : String) : Option Json := do
  let (value, rest) ← value? (text.length + 1) levelLimit text.toList
  if (skipBlanks rest).isEmpty then some value else none

end Parametric.Json
