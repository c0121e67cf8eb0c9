import Parametric.Text.Blank
import Parametric.Text.Lowercase

/-!
Lookup keys: names that differ only in case or in surrounding white space share one key.
-/

namespace Parametric

/-- The key under which a name is looked up. -/
def keyOf (name : String) : String := Text.lowercase (Text.trim name)

/-- The names of a list without those whose key came before. -/
def distinctNames (names : List String) : List String :=
  go [] names
where
  /-- Names whose key is in `seen` are dropped. -/
  go (seen : List String) : List String → List String
    | [] => []
    | name :: rest =>
      let key := keyOf name
      if seen.contains key then go seen rest else name :: go (key :: seen) rest

end Parametric
