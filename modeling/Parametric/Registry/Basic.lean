import Parametric.Definition.Basic
import Parametric.Digest.Sha256
import Parametric.Json.Printer

/-!
The registry: definitions by the keys of their names.
-/

namespace Parametric

structure Registry where
  table : SortedMap Definition := ∅
deriving DecidableEq, Repr, Inhabited

namespace Registry

def get? (r : Registry) (name : String) : Option Definition := r.table.get? (keyOf name)

def contains (r : Registry) (name : String) : Bool := r.table.contains (keyOf name)

def spelling? (r : Registry) (name : String) : Option String := (r.get? name).map (·.name)

/-- The definitions in the order of their keys. -/
def definitions (r : Registry) : List Definition := r.table.values

/-- The first definition with a token. -/
def ownerOf? (r : Registry) (identity : Identity) : Option Definition :=
  r.definitions.find? (·.identity == identity)

/-- The registry with a definition added, in place of one of the same name. -/
def put (r : Registry) (d : Definition) : Registry := ⟨r.table.insert d.key d⟩

def remove (r : Registry) (name : String) : Registry := ⟨r.table.erase (keyOf name)⟩

def modify (r : Registry) (name : String) (f : Definition → Definition) : Registry :=
  ⟨r.table.modify (keyOf name) f⟩

def ofList (ds : List Definition) : Registry := ds.foldl put {}

def size (r : Registry) : Nat := r.table.size

def names (r : Registry) : List String := r.definitions.map (·.name)

def computed (r : Registry) : List Definition := r.definitions.filter (·.isComputed)

def membersOf (r : Registry) (group : String) : List Definition :=
  r.definitions.filter fun d => Text.sameAscii d.group group

def groups (r : Registry) : List String := sortedTexts (r.definitions.map (·.group))

def toJson (r : Registry) : Json := .obj [("entries", r.table.toJson Definition.toJson)]

def ofJson? (value : Json) : Option Registry := do
  let fields ← value.fields? ["entries"]
  return ⟨← fields.required "entries" (SortedMap.ofJson? Definition.ofJson?)⟩

/-- The digest of the JSON text of a registry. -/
def checksum (r : Registry) : String := Digest.sha256 r.toJson.compact

end Registry

end Parametric
