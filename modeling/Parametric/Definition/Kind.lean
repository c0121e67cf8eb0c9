import Parametric.Text.Ascii
import Parametric.Text.Blank

/-!
Value kinds of parameters and the physical dimensions of their values.
-/

namespace Parametric

/-- The declared kind of a parameter's values. -/
inductive ValueKind where
  | text | integer | real | length | area | volume | angle | currency | boolean
  | materialReference | url | image
deriving DecidableEq, Repr, Inhabited

/-- All kinds, in the order of their declaration. -/
def ValueKind.all : List ValueKind :=
  [.text, .integer, .real, .length, .area, .volume, .angle, .currency, .boolean,
   .materialReference, .url, .image]

def ValueKind.name : ValueKind → String
  | .text => "text"
  | .integer => "integer"
  | .real => "real"
  | .length => "length"
  | .area => "area"
  | .volume => "volume"
  | .angle => "angle"
  | .currency => "currency"
  | .boolean => "boolean"
  | .materialReference => "material_reference"
  | .url => "url"
  | .image => "image"

/-- The word for a kind in parameter exchange files. -/
def ValueKind.exchangeWord : ValueKind → String
  | .text => "TEXT"
  | .integer => "INTEGER"
  | .real => "NUMBER"
  | .length => "LENGTH"
  | .area => "AREA"
  | .volume => "VOLUME"
  | .angle => "ANGLE"
  | .currency => "CURRENCY"
  | .boolean => "YESNO"
  | .materialReference => "MATERIAL"
  | .url => "URL"
  | .image => "IMAGE"

/-- The kind that a text names; case, blanks, hyphens and underscores do not matter. -/
def ValueKind.named? (text : String) : Option ValueKind :=
  let letters := (Text.trim text).toList.filter fun c => !(c == '_' || c == '-' || c == ' ')
  match Text.lowerAscii (.ofList letters) with
  | "text" | "string" => some .text
  | "integer" | "int" => some .integer
  | "real" | "number" | "double" | "float" => some .real
  | "length" => some .length
  | "area" => some .area
  | "volume" => some .volume
  | "angle" => some .angle
  | "currency" => some .currency
  | "boolean" | "bool" | "yesno" => some .boolean
  | "materialreference" | "material" => some .materialReference
  | "url" => some .url
  | "image" => some .image
  | _ => none

/-- The dimension of a value. -/
inductive Dimension where
  /-- A power of a length, such as an area for 2. -/
  | length (power : Int)
  | angle
  | currency
  | dimensionless
  | boolean
  | text
  | unknown
deriving DecidableEq, Repr, Inhabited

def Dimension.isDefinite (d : Dimension) : Bool := d != .unknown

def Dimension.describe : Dimension → String
  | .length 1 => "length"
  | .length 2 => "area"
  | .length 3 => "volume"
  | .length power => s!"length^{power}"
  | .angle => "angle"
  | .currency => "currency"
  | .dimensionless => "number"
  | .boolean => "boolean"
  | .text => "text"
  | .unknown => "unknown"

def ValueKind.dimension : ValueKind → Dimension
  | .length => .length 1
  | .area => .length 2
  | .volume => .length 3
  | .angle => .angle
  | .currency => .currency
  | .integer | .real => .dimensionless
  | .boolean => .boolean
  | .text | .materialReference | .url | .image => .text

end Parametric
