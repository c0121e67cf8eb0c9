import Parametric.Definition.Basic
import Parametric.Issue
import Parametric.Text.Lines

/-!
Parameter exchange files: lines of fields between tabs. A line for a group gives it a number, and
the lines for parameters after it belong to it.
-/

namespace Parametric.SharedFile

/-! ## Writing -/

/-- The lines before the first group. -/
def header : List String :=
  ["# This is a parameter exchange file.",
   "# Do not edit manually.",
   "*META\tVERSION\tMINVERSION",
   "META\t2\t1",
   "*GROUP\tID\tNAME",
   "*PARAM\tGUID\tNAME\tDATATYPE\tDATACATEGORY\tGROUP\tVISIBLE\tDESCRIPTION"]

/-- Text with blanks in place of tabs and line breaks, which would end the field. -/
def fieldText (text : String) : String :=
  .ofList (text.toList.map fun c => if c == '\t' || c == '\r' || c == '\n' then ' ' else c)

def paramLine (group : Nat) (d : Definition) : String :=
  "\t".intercalate ["PARAM", d.identity.text, fieldText d.name, d.kind.exchangeWord,
    fieldText (d.category.getD ""), toString group, if d.visible then "1" else "0",
    fieldText (d.description.getD "")]

/-- The definitions of one group in the order of their names. -/
def membersOf (definitions : List Definition) (group : String) : List Definition :=
  (definitions.filter (·.group == group)).mergeSort fun a b => a.name ≤ b.name

def groupLines (definitions : List Definition) (group : String) (number : Nat) : List String :=
  ("GROUP\t" ++ toString number ++ "\t" ++ fieldText group) ::
    (membersOf definitions group).map (paramLine number)

/-- The text of definitions; groups are numbered from one in the order of their names. -/
def write (definitions : List Definition) : String :=
  let groups := sortedTexts (definitions.map (·.group))
  let body := (groups.zipIdx 1).flatMap fun (group, number) => groupLines definitions group number
  String.join ((header ++ body).map (· ++ "\n"))

/-! ## Reading -/

inductive Cause where
  | incompleteGroup
  | invalidGroupId (found : String)
  | incompleteParam (count : Nat)
  | invalidIdentity (found : String)
  | emptyName
  | unknownKind (found : String)
  | invalidVisible (found : String)
  | undefinedGroup (id : Nat)
  | unknownRecord (word : String)
deriving DecidableEq, Repr

def Cause.message : Cause → String
  | .incompleteGroup => "GROUP needs an id and a name"
  | .invalidGroupId found => s!"invalid group id '{found}'"
  | .incompleteParam count => s!"PARAM needs 7 fields, found {count}"
  | .invalidIdentity found => s!"invalid identity token '{found}'"
  | .emptyName => "parameter name is empty"
  | .unknownKind found => s!"unknown data type '{found}'"
  | .invalidVisible found => s!"visible flag must be 0 or 1, found '{found}'"
  | .undefinedGroup id => s!"group {id} is not defined"
  | .unknownRecord word => s!"unknown record type '{word}'"

/-- What has been read so far: the groups, the last of them, definitions and warnings. -/
structure Progress where
  groups : List (Nat × String) := []
  active : Option Nat := none
  definitions : List Definition := []
  warnings : List Issue := []

def nonBlank? (text : Option String) : Option String :=
  (text.map Text.trim).filter (· != "")

def readGroup (p : Progress) (fields : List String) : Except Cause Progress :=
  match fields with
  | _ :: id :: name :: _ =>
    match Text.nat? (Text.trim id) with
    | none => .error (.invalidGroupId id)
    | some number =>
      .ok { p with groups := (number, Text.trim name) :: p.groups, active := some number }
  | _ => .error .incompleteGroup

def visible? (text : String) : Except Cause Bool :=
  match Text.trim text with
  | "1" => .ok true
  | "0" => .ok false
  | found => .error (.invalidVisible found)

def orCause {α : Type} (value : Option α) (cause : Cause) : Except Cause α :=
  match value with
  | some v => .ok v
  | none => .error cause

/-- The warning about a parameter whose group is not the one it stands in. -/
def groupWarning (name : String) (line id active : Nat) : Issue :=
  .warning name s!"line {line}: group id {id} disagrees with the active group {active}"

def readParam (now : Instant) (line : Nat) (p : Progress) (fields : List String) :
    Except Cause Progress :=
  match fields with
  | _ :: identity :: name :: kind :: category :: group :: visible :: more => do
    let token ← orCause (Identity.parseTrimmed? identity) (.invalidIdentity identity)
    let name := Text.trim name
    if name == "" then throw .emptyName
    let kind ← orCause (ValueKind.named? kind) (.unknownKind kind)
    let id ← orCause (Text.nat? (Text.trim group)) (.invalidGroupId group)
    let visible ← visible? visible
    let active := p.active.getD id
    let group ← orCause (p.groups.lookup active) (.undefinedGroup active)
    let d : Definition := {
      identity := token, name := name, kind := kind, group := group, visible := visible
      category := nonBlank? (some category), description := nonBlank? more.head?
      createdAt := now }
    return { p with
      definitions := p.definitions ++ [d]
      warnings := p.warnings ++ if active = id then [] else [groupWarning name line id active] }
  | _ => .error (.incompleteParam fields.length)

/-- The warning about the version in a header line. -/
def versionWarnings (line : Nat) (fields : List String) : List Issue :=
  match fields with
  | _ :: version :: _ =>
    if Text.trim version == "2" then []
    else [⟨.warning, none, s!"line {line}: unexpected format version '{version}'"⟩]
  | _ => []

/-- Reads one line; blank lines and comments are skipped. -/
def readLine (now : Instant) (line : Nat) (p : Progress) (text : List Char) :
    Except Cause Progress :=
  if text.all Text.isBlank || text.head? == some '#' || text.head? == some '*' then .ok p
  else
    let fields := (Text.splitAt '\t' text).map String.ofList
    match fields.head?.getD "" with
    | "META" => .ok { p with warnings := p.warnings ++ versionWarnings line fields }
    | "GROUP" => readGroup p fields
    | "PARAM" => readParam now line p fields
    | word => .error (.unknownRecord word)

/-- Reads lines, counted from `line`. -/
def readLines (now : Instant) (line : Nat) (p : Progress) :
    List (List Char) → Except Failure Progress
  | [] => .ok p
  | text :: rest =>
    match readLine now line p text with
    | .error cause => .error (.exchange line cause.message)
    | .ok p => readLines now (line + 1) p rest

def read (now : Instant) (text : String) : Except Failure (List Definition × List Issue) :=
  (readLines now 1 {} (Text.lines text)).map fun p => (p.definitions, p.warnings)

end Parametric.SharedFile
