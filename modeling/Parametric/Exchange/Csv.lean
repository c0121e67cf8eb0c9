import Parametric.Definition.Basic
import Parametric.Definition.Supply
import Parametric.Failure

/-!
Tables of definitions with commas between the fields. A field with a comma, a quote or a line break
stands in quotes, with every quote in it doubled.
-/

namespace Parametric.Csv

/-! ## Writing -/

def columns : List String :=
  ["identity", "name", "value_kind", "group", "description", "is_instance", "formula"]

def needsQuotes (field : String) : Bool :=
  field.toList.any fun c => c == ',' || c == '"' || c == '\n' || c == '\r'

def doubleQuotes : List Char → List Char
  | [] => []
  | c :: rest => if c == '"' then '"' :: '"' :: doubleQuotes rest else c :: doubleQuotes rest

def quoteField (field : String) : String :=
  if needsQuotes field then .ofList ('"' :: doubleQuotes field.toList ++ ['"']) else field

def rowOf (d : Definition) : List String :=
  [d.identity.text, d.name, d.kind.name, d.group, d.description.getD "",
   if d.perElement then "true" else "false", d.formula.getD ""]

def rowText (fields : List String) : String := ",".intercalate (fields.map quoteField) ++ "\n"

/-- The text of definitions, with the names of the columns in the first row. -/
def write (definitions : List Definition) : String :=
  rowText columns ++ String.join (definitions.map fun d => rowText (rowOf d))

/-! ## Rows -/

structure Row where
  line : Nat
  fields : List String
deriving DecidableEq, Repr

/-- Where reading stands: the current field and the fields before it, both backwards, the line of
the next character and the line on which the row started. -/
structure Cursor where
  current : List Char := []
  fields : List String := []
  line : Nat := 1
  start : Nat := 1

def Cursor.push (s : Cursor) (c : Char) : Cursor := { s with current := c :: s.current }

def Cursor.allFields (s : Cursor) : List String :=
  (String.ofList s.current.reverse :: s.fields).reverse

def Cursor.nextField (s : Cursor) : Cursor :=
  { s with current := [], fields := .ofList s.current.reverse :: s.fields }

/-- The finished row, unless it has a single field that is empty. -/
def Cursor.row (s : Cursor) : List Row :=
  if s.allFields == [""] then [] else [⟨s.start, s.allFields⟩]

def Cursor.nextRow (s : Cursor) : Cursor := { line := s.line + 1, start := s.line + 1 }

/-- The rows of a text; `inQuotes` tells whether it starts inside a quoted field. The error is the
line of a row whose last quote is missing. -/
def rowsFrom (inQuotes : Bool) (s : Cursor) (text : List Char) : Except Nat (List Row) :=
  match inQuotes, text with
  | true, [] => .error s.start
  | true, '"' :: '"' :: rest => rowsFrom true (s.push '"') rest
  | true, '"' :: rest => rowsFrom false s rest
  | true, '\n' :: rest => rowsFrom true { s.push '\n' with line := s.line + 1 } rest
  | true, c :: rest => rowsFrom true (s.push c) rest
  | false, [] =>
    .ok (if s.current.isEmpty && s.fields.isEmpty then [] else [⟨s.start, s.allFields⟩])
  | false, '"' :: rest =>
    if s.current.isEmpty then rowsFrom true s rest else rowsFrom false (s.push '"') rest
  | false, ',' :: rest => rowsFrom false s.nextField rest
  | false, '\r' :: rest => rowsFrom false s rest
  | false, '\n' :: rest => (rowsFrom false s.nextRow rest).map (s.row ++ ·)
  | false, c :: rest => rowsFrom false (s.push c) rest

/-! ## Reading -/

inductive Cause where
  | unclosedQuote
  | missingColumns
  | emptyName
  | unknownKind (found : String)
  | invalidIdentity (found : String)
  | invalidInstance (found : String)
deriving DecidableEq, Repr

def Cause.message : Cause → String
  | .unclosedQuote => "quoted field is never closed"
  | .missingColumns => "header needs 'name' and 'value_kind' columns"
  | .emptyName => "name is empty"
  | .unknownKind found => s!"unknown value kind '{found}'"
  | .invalidIdentity found => s!"invalid identity token '{found}'"
  | .invalidInstance found => s!"invalid is_instance '{found}'"

def flag? (text : String) : Option Bool :=
  match Text.lowerAscii (Text.trim text) with
  | "" | "false" | "0" | "no" => some false
  | "true" | "1" | "yes" => some true
  | _ => none

def columnAt? (header : List String) (column : String) : Option Nat :=
  header.findIdx? fun h => Text.sameAscii (Text.trim h) column

/-- The trimmed field of a column, unless it is empty or missing. -/
def cell? (header fields : List String) (column : String) : Option String :=
  (((columnAt? header column).bind (fields[·]?)).map Text.trim).filter (· != "")

/-- The token of a row, or a fresh one if the row has none. -/
def readIdentity (supply : TokenSupply) (cell : Option String) :
    Except Cause (Identity × TokenSupply) :=
  match cell with
  | none => .ok supply.draw
  | some raw =>
    match Identity.parseTrimmed? raw with
    | some token => .ok (token, supply)
    | none => .error (.invalidIdentity raw)

def readInstance (cell : Option String) : Except Cause Bool :=
  match cell with
  | none => .ok false
  | some raw =>
    match flag? raw with
    | some value => .ok value
    | none => .error (.invalidInstance raw)

def readRow (now : Instant) (header : List String) (supply : TokenSupply) (fields : List String) :
    Except Cause (Definition × TokenSupply) := do
  let cell := cell? header fields
  let some name := cell "name" | throw .emptyName
  let rawKind := (cell "value_kind").getD ""
  let some kind := ValueKind.named? rawKind | throw (.unknownKind rawKind)
  let (identity, supply) ← readIdentity supply (cell "identity")
  let perElement ← readInstance (cell "is_instance")
  return ({
    identity := identity, name := name, kind := kind, group := (cell "group").getD ""
    description := cell "description", perElement := perElement, formula := cell "formula"
    createdAt := now }, supply)

def readRows (now : Instant) (header : List String) (supply : TokenSupply) :
    List Row → Except Failure (List Definition × TokenSupply)
  | [] => .ok ([], supply)
  | row :: rest =>
    match readRow now header supply row.fields with
    | .error cause => .error (.exchange row.line cause.message)
    | .ok (d, supply) => (readRows now header supply rest).map fun (ds, supply) => (d :: ds, supply)

/-- The definitions of a text, whose first row names the columns in any order. -/
def read (now : Instant) (supply : TokenSupply) (text : String) :
    Except Failure (List Definition × TokenSupply) :=
  match rowsFrom false {} text.toList with
  | .error line => .error (.exchange line Cause.unclosedQuote.message)
  | .ok [] => .ok ([], supply)
  | .ok (header :: rows) =>
    if (columnAt? header.fields "name").isNone || (columnAt? header.fields "value_kind").isNone then
      .error (.exchange header.line Cause.missingColumns.message)
    else readRows now header.fields supply rows

end Parametric.Csv
