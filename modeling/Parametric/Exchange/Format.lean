import Parametric.Exchange.Csv
import Parametric.Exchange.SharedFile
import Parametric.Json.Printer
import Parametric.Json.Reader

/-!
The formats in which definitions are exchanged.
-/

namespace Parametric

inductive FileFormat where
  /-- Groups and parameters on lines of fields between tabs. -/
  | sharedFile
  | csv
  | json
deriving DecidableEq, Repr, Inhabited

def fileName? (path : String) : Option (List Char) :=
  let parts := (Text.splitAt '/' path.toList).filter fun part => !(part.isEmpty || part == ['.'])
  parts.getLast?.filter (· != ['.', '.'])

/-- The end of a file name after its last point, if something stands before the point. -/
def extension? (path : String) : Option String := do
  let name ← fileName? path
  let tail := (name.reverse.takeWhile (· != '.')).reverse
  if tail.length + 1 < name.length then some (.ofList tail) else none

namespace FileFormat

def ofPath (path : String) : FileFormat :=
  match (extension? path).map Text.lowerAscii with
  | some "csv" => .csv
  | some "json" => .json
  | _ => .sharedFile

/-- Definitions that were read, with what was noticed on the way. -/
structure Contents where
  definitions : List Definition
  warnings : List Issue := []
deriving Repr

/-- Reads definitions; those without a token in a table get fresh ones. -/
def decode (format : FileFormat) (now : Instant) (supply : TokenSupply) (text : String) :
    Except Failure (Contents × TokenSupply) :=
  match format with
  | .sharedFile => (SharedFile.read now text).map fun (ds, warnings) => (⟨ds, warnings⟩, supply)
  | .csv => (Csv.read now supply text).map fun (ds, supply) => (⟨ds, []⟩, supply)
  | .json =>
    match (Json.read? text).bind (Json.list? Definition.ofJson?) with
    | some ds => .ok (⟨ds, []⟩, supply)
    | none => .error .json

/-- The text of definitions; JSON may be indented. -/
def encode (format : FileFormat) (indented : Bool) (definitions : List Definition) : String :=
  match format with
  | .sharedFile => SharedFile.write definitions
  | .csv => Csv.write definitions
  | .json =>
    let value := Json.arr (definitions.map Definition.toJson)
    if indented then value.pretty else value.compact

end FileFormat

end Parametric
