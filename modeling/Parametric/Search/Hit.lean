import Parametric.Registry.Basic
import Parametric.Search.Fuzzy

/-!
Search for registered definitions.
-/

namespace Parametric

structure SearchHit where
  name : String
  group : String
  score : Int
deriving DecidableEq, Repr, Inhabited

namespace SearchHit

/-- Better matches before worse ones, and equal ones by their names. -/
def le (a b : SearchHit) : Bool := b.score < a.score || (a.score == b.score && a.name ≤ b.name)

def toJson (h : SearchHit) : Json :=
  .obj [("name", .str h.name), ("group", .str h.group), ("score", .int h.score)]

end SearchHit

open Fuzzy (Matcher)

/-- How well a definition matches: by its name, or else half as well by its description. -/
def Definition.searchScore? (d : Definition) (m : Matcher) (query : String) :
    Option Int × Matcher :=
  match m.score? d.name query with
  | (some score, m) => (some score, m)
  | (none, m) =>
    let (score, m) := m.score? (d.description.getD "") query
    (score.map (Int.tdiv · 2), m)

/-- The matches among definitions, which are scored one after the other. -/
def searchHits (query : String) (m : Matcher) : List Definition → List SearchHit
  | [] => []
  | d :: rest =>
    let (score, m) := d.searchScore? m query
    (score.map fun score => (⟨d.name, d.group, score⟩ : SearchHit)).toList ++
      searchHits query m rest

def Registry.search (r : Registry) (query : String) (limit : Nat) : List SearchHit :=
  ((searchHits query {} r.definitions).mergeSort SearchHit.le).take limit

end Parametric
