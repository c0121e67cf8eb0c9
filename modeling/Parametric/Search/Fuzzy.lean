/-!
Fuzzy matching: how well the characters of a pattern, in their order, can be found in a text.
Matches at the start of a word or next to each other count more, and gaps between them count less.

Scores are kept in two rows, one for the part of the pattern that was matched last and one for the
part before it, and each new row is written over the older one. What is not written over is still
seen: in its row by the characters after it, and its bonus even by the texts that are scored later.
-/

namespace Parametric.Fuzzy

/-- What counts for and against a match. -/
structure Weights where
  /-- A character that matches. -/
  hit : Int := 16
  /-- A match in the other letter case. -/
  caseMismatch : Int := -2
  /-- A match at the start of the text or after a bracket, a slash or a space. -/
  head : Int := 8
  /-- A match after other punctuation. -/
  punctuation : Int := 7
  /-- A capital after a small letter or a digit. -/
  camel : Int := 6
  /-- How often the place of the first character of the text counts. -/
  firstFactor : Int := 2
  /-- A match next to the one before it, at least. -/
  consecutive : Int := 4
  /-- The start of a gap. -/
  gapStart : Int := -3
  /-- Every character in a gap. -/
  gapExtension : Int := -1
deriving Repr

def weights : Weights := {}

inductive CharClass where
  | none | upper | lower | digit | hardBreak | softBreak
deriving DecidableEq, Repr

def hardBreaks : List Char := [' ', '/', '\\', '|', '(', ')', '[', ']', '\x7b', '\x7d']

def CharClass.of (c : Char) : CharClass :=
  if c == '\x00' then .none
  else if hardBreaks.contains c then .hardBreak
  else if ('!' ≤ c && c ≤ '\'') || ('*' ≤ c && c ≤ '.') || (':' ≤ c && c ≤ '@') ||
    ('^' ≤ c && c ≤ '`') || c == '~' then .softBreak
  else if c.isDigit then .digit
  else if c.isUpper then .upper
  else .lower

/-- The bonus of a place, by the classes of the character before it and of its own. -/
def placeBonus : CharClass → CharClass → Int
  | .none, _ | .hardBreak, _ => weights.head
  | .softBreak, _ => weights.punctuation
  | .lower, .upper | .digit, .upper => weights.camel
  | _, _ => 0

def bonusesAfter (previous : CharClass) : List Char → List Int
  | [] => []
  | c :: rest => placeBonus previous (.of c) :: bonusesAfter (.of c) rest

def places (text : List Char) : List (Char × Int) :=
  match text.zip (bonusesAfter .none text) with
  | [] => []
  | (c, bonus) :: rest => (c, bonus * weights.firstFactor) :: rest

/-- A score that is worse than that of any match. -/
def impossible : Int := -32768

/-- What is known about a part of a pattern in a part of a text. -/
structure Cell where
  /-- The best score with the last characters of both matched to each other. -/
  hit : Int := impossible
  /-- The best score with a gap at the end of the text. -/
  gap : Int := impossible
  /-- The bonus of the run of matches that goes on behind this place. -/
  bonus : Int := 0
deriving DecidableEq, Repr, Inhabited

def hitScore? (caseSensitive : Bool) (c p : Char) : Option Int :=
  if c == p then some weights.hit
  else if !caseSensitive && c.toLower == p.toLower then some (weights.hit + weights.caseMismatch)
  else none

/-- The places at which the characters of a pattern are found first, one after the other, where the
text starts at place `start`. -/
def firstPlaces? (caseSensitive : Bool) (start : Nat) : List Char → List Char → Option (List Nat)
  | _, [] => some []
  | [], _ :: _ => none
  | c :: text, p :: pattern =>
    if (hitScore? caseSensitive c p).isSome then
      (firstPlaces? caseSensitive (start + 1) text pattern).map (start :: ·)
    else firstPlaces? caseSensitive (start + 1) text (p :: pattern)

/-- The best score with a gap behind a cell. -/
def Cell.gapAfter (left : Cell) : Int :=
  max (left.hit + weights.gapStart + weights.gapExtension) (left.gap + weights.gapExtension)

/-- The cells of a pattern that ends in `p`, from `left` on. The cells without `p` are `befores`,
and those that are written over are `olds`; a match leaves the bonus of its place as it was. -/
def writeCells (caseSensitive : Bool) (p : Char) (left : Cell) :
    List (Char × Int) → List Cell → List Cell → List Cell
  | (c, bonus) :: places, before :: befores, old :: olds =>
    match hitScore? caseSensitive c p with
    | some score =>
      let run := max left.bonus (max bonus weights.consecutive)
      let best := max (before.hit + run) (before.gap + bonus)
      { left with bonus := run } ::
        writeCells caseSensitive p ⟨best + score, left.gapAfter, old.bonus⟩ places befores olds
    | none =>
      left :: writeCells caseSensitive p ⟨impossible, left.gapAfter, 0⟩ places befores olds
  | _, _, _ => [left]

/-- The row of a pattern that ends in `p`, which is first found at `place`, written over an older
row from there on. -/
def writeRow (caseSensitive : Bool) (places : List (Char × Int)) (before old : List Cell)
    (p : Char) (place : Nat) : List Cell :=
  old.take place ++ writeCells caseSensitive p ((old[place]?).getD {}) (places.drop place)
    (before.drop place) (old.drop (place + 1))

/-- The last two rows. -/
structure Rows where
  last : List Cell
  beforeLast : List Cell
deriving Repr

def Rows.push (caseSensitive : Bool) (places : List (Char × Int)) (r : Rows)
    (p : Char × Nat) : Rows :=
  ⟨writeRow caseSensitive places r.last r.beforeLast p.1 p.2, r.last⟩

/-- The best score in a row from a place on. -/
def bestFrom (place : Nat) (row : List Cell) : Int :=
  ((row.drop place).map (·.hit)).foldl max impossible

/-- What earlier scores have left behind: the bonuses of two rows, one after the other. -/
structure Matcher where
  bonuses : List Int := []
deriving DecidableEq, Repr, Inhabited

namespace Matcher

/-- The bonuses for a second row of `width` cells; where nothing was left behind they are zero. -/
def secondRow (m : Matcher) (width : Nat) : List Int :=
  let known := (m.bonuses.take (2 * width)).drop width
  known ++ List.replicate (width - known.length) 0

/-- The rows before the first character of a pattern, which is first found at `place`. -/
def start (m : Matcher) (width place : Nat) : Rows where
  last := List.replicate width { gap := weights.gapExtension }
  beforeLast := ((m.secondRow width).map fun bonus => ({ bonus := bonus } : Cell)).set place {}

/-- The matcher after the rows of a pattern; the two rows change places with every character. -/
def ofRows (r : Rows) (patternLength : Nat) : Matcher :=
  let rows := if patternLength % 2 = 0 then r.last ++ r.beforeLast else r.beforeLast ++ r.last
  ⟨rows.map (·.bonus)⟩

/-- The best score of a pattern in a text, if its characters can be found there. A pattern with an
ASCII capital is found in its letter case only. -/
def score? (m : Matcher) (text pattern : String) : Option Int × Matcher :=
  let chars := text.toList
  let pattern := pattern.toList
  let caseSensitive := pattern.any Char.isUpper
  match firstPlaces? caseSensitive 0 chars pattern with
  | none => (none, m)
  | some [] => (some 0, m)
  | some (first :: others) =>
    let rows := (pattern.zip (first :: others)).foldl (Rows.push caseSensitive (places chars))
      (m.start (chars.length + 1) first)
    (some (bestFrom ((first :: others).getLastD first) rows.last), ofRows rows pattern.length)

end Matcher

end Parametric.Fuzzy
