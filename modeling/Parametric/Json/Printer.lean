import Parametric.Json.Value

/-!
Text of JSON values, on one line or indented by two spaces.
-/

namespace Parametric.Json

def hexDigit (n : Nat) : Char := Nat.digitChar n

def escapeChar (c : Char) : List Char :=
  if c == '"' then ['\\', '"']
  else if c == '\\' then ['\\', '\\']
  else if c == '\x08' then ['\\', 'b']
  else if c == '\t' then ['\\', 't']
  else if c == '\n' then ['\\', 'n']
  else if c == '\x0c' then ['\\', 'f']
  else if c == '\r' then ['\\', 'r']
  else if c.toNat < 32 then ['\\', 'u', '0', '0', hexDigit (c.toNat / 16), hexDigit (c.toNat % 16)]
  else [c]

def quote (s : String) : String := .ofList ('"' :: s.toList.flatMap escapeChar ++ ['"'])

def leafText : Json → String
  | .bool true => "true"
  | .bool false => "false"
  | .int value => toString value
  | .str value => quote value
  | _ => "null"

mutual
def compact : Json → String
  | .arr items => "[" ++ compactItems items ++ "]"
  | .obj members => "\x7b" ++ compactMembers members ++ "\x7d"
  | leaf => leafText leaf

def compactItems : List Json → String
  | [] => ""
  | [item] => item.compact
  | item :: rest => item.compact ++ "," ++ compactItems rest

def compactMembers : List (String × Json) → String
  | [] => ""
  | [(key, value)] => quote key ++ ":" ++ value.compact
  | (key, value) :: rest => quote key ++ ":" ++ value.compact ++ "," ++ compactMembers rest
end

def newline (level : Nat) : String := .ofList ('\n' :: List.replicate (2 * level) ' ')

mutual
/-- The text of a value with one item or member a line; `level` is that of its parts. -/
def indented (level : Nat) : Json → String
  | .arr [] => "[]"
  | .arr items => "[" ++ newline level ++ indentedItems level items ++ newline (level - 1) ++ "]"
  | .obj [] => "\x7b\x7d"
  | .obj members =>
    "\x7b" ++ newline level ++ indentedMembers level members ++ newline (level - 1) ++ "\x7d"
  | leaf => leafText leaf

def indentedItems (level : Nat) : List Json → String
  | [] => ""
  | [item] => item.indented (level + 1)
  | item :: rest =>
    item.indented (level + 1) ++ "," ++ newline level ++ indentedItems level rest

def indentedMembers (level : Nat) : List (String × Json) → String
  | [] => ""
  | [(key, value)] => quote key ++ ": " ++ value.indented (level + 1)
  | (key, value) :: rest =>
    quote key ++ ": " ++ value.indented (level + 1) ++ "," ++ newline level ++
      indentedMembers level rest
end

def pretty (value : Json) : String := value.indented 1

mutual
/-- A value with the members of every object in the order of their keys. -/
def sorted : Json → Json
  | .arr items => .arr (sortedItems items)
  | .obj members => .obj ((sortedMembers members).mergeSort fun a b => a.1 ≤ b.1)
  | leaf => leaf

def sortedItems : List Json → List Json
  | [] => []
  | item :: rest => item.sorted :: sortedItems rest

def sortedMembers : List (String × Json) → List (String × Json)
  | [] => []
  | (key, value) :: rest => (key, value.sorted) :: sortedMembers rest
end

end Parametric.Json
