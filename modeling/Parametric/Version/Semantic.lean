import Parametric.Number.Power

/-!
Semantic versions: three numbers, pre-release identifiers and build identifiers.
-/

namespace Parametric

/-- A semantic version; the last two parts are empty where they are missing. -/
structure Version where
  major : Nat
  minor : Nat
  patch : Nat
  preRelease : List String := []
  build : List String := []
deriving DecidableEq, Repr, Inhabited

inductive VersionStep where
  | major | minor | patch
deriving DecidableEq, Repr, Inhabited

namespace Version

def text (v : Version) : String :=
  s!"{v.major}.{v.minor}.{v.patch}" ++
    (if v.preRelease.isEmpty then "" else "-" ++ ".".intercalate v.preRelease) ++
    (if v.build.isEmpty then "" else "+" ++ ".".intercalate v.build)

def advance (v : Version) : VersionStep → Version
  | .major => ⟨v.major + 1, 0, 0, [], []⟩
  | .minor => ⟨v.major, v.minor + 1, 0, [], []⟩
  | .patch => ⟨v.major, v.minor, v.patch + 1, [], []⟩

def isNumeric (identifier : String) : Bool := identifier.toList.all Char.isDigit

def compareIdentifiers (a b : String) : Ordering :=
  match isNumeric a, isNumeric b with
  | false, true => .gt
  | true, false => .lt
  | false, false => compare a b
  | true, true =>
    let x := a.toList.dropWhile (· == '0')
    let y := b.toList.dropWhile (· == '0')
    (compare x.length y.length).then ((compare (String.ofList x) (String.ofList y)).then
      (compare a.length b.length))

/-- Identifiers are compared from the left, and a shorter list comes first. -/
def compareLists : List String → List String → Ordering
  | [], [] => .eq
  | [], _ :: _ => .lt
  | _ :: _, [] => .gt
  | a :: as, b :: bs => (compareIdentifiers a b).then (compareLists as bs)

def comparePreReleases : List String → List String → Ordering
  | [], [] => .eq
  | [], _ :: _ => .gt
  | _ :: _, [] => .lt
  | as, bs => compareLists as bs

/-- The order of versions: by the numbers, then the pre-releases, then the builds. -/
def compare (a b : Version) : Ordering :=
  (Ord.compare a.major b.major).then <| (Ord.compare a.minor b.minor).then <|
    (Ord.compare a.patch b.patch).then <|
      (comparePreReleases a.preRelease b.preRelease).then (compareLists a.build b.build)

/-- Text before a mark, and the text after it if there is one. -/
def cut (mark : Char) (text : List Char) : List Char × Option (List Char) :=
  match text.dropWhile (· != mark) with
  | [] => (text, none)
  | _ :: rest => (text.takeWhile (· != mark), some rest)

def splitAt (mark : Char) (text : List Char) : List (List Char) :=
  match text with
  | [] => [[]]
  | c :: rest =>
    if c = mark then [] :: splitAt mark rest
    else
      match splitAt mark rest with
      | [] => [[c]]
      | first :: others => (c :: first) :: others

/-- A number below 2^64 without leading zeros. -/
def number? (digits : List Char) : Option Nat :=
  let n := digits.foldl (fun n c => 10 * n + (c.toNat - '0'.toNat)) 0
  let leadingZero := digits.head? == some '0' && digits.length > 1
  if digits.isEmpty || !digits.all Char.isDigit || leadingZero || n ≥ Number.wordLimit then none
  else some n

/-- Identifiers between points; numbers among them may be refused leading zeros. -/
def identifiers? (zerosAllowed : Bool) (text : List Char) : Option (List String) :=
  (splitAt '.' text).mapM fun identifier =>
    let leadingZero := identifier.head? == some '0' && identifier.length > 1 &&
      identifier.all Char.isDigit
    if identifier.isEmpty || !identifier.all (fun c => c.isAlphanum || c == '-') ||
      (leadingZero && !zerosAllowed) then none
    else some (.ofList identifier)

def parse? (text : String) : Option Version := do
  let (text, build) := cut '+' text.toList
  let (numbers, preRelease) := cut '-' text
  let [major, minor, patch] ← (splitAt '.' numbers).mapM number? | none
  let preRelease ← match preRelease with
    | none => some []
    | some identifiers => identifiers? false identifiers
  let build ← match build with
    | none => some []
    | some identifiers => identifiers? true identifiers
  return ⟨major, minor, patch, preRelease, build⟩

end Version

end Parametric
