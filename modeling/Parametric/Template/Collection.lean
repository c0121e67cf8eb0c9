import Parametric.Exchange.Format
import Parametric.Template.Basic

/-!
Collections of templates.
-/

namespace Parametric

/-- Templates by their lower-case ids. -/
structure Templates where
  templates : SortedMap Template := ∅
deriving DecidableEq, Repr, Inhabited

namespace Templates

def insert (l : Templates) (t : Template) : Templates :=
  ⟨l.templates.insert (Text.lowercase t.id) t⟩

def get? (l : Templates) (id : String) : Option Template := l.templates.get? (keyOf id)

def list (l : Templates) : List Template := l.templates.values

def size (l : Templates) : Nat := l.templates.size

/-- The template in a file of a path and a text, if it is one. -/
def templateOf? (path text : String) : Option Template :=
  if extension? path == some "json" then (Json.read? text).bind Template.ofJson? else none

def load (l : Templates) (files : List (String × String)) : Nat × Templates :=
  let found := files.filterMap fun (path, text) => templateOf? path text
  (found.length, found.foldl insert l)

end Templates

end Parametric
