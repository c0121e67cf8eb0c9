/-!
Differences between two lists of lines: a shortest edit script, found from both ends at once.
-/

namespace Parametric.Text

/-- The lines of a text with their ends: a line feed, a carriage return, or both. -/
def linesWithEnds (text : List Char) : List (List Char) :=
  match text with
  | [] => []
  | '\r' :: '\n' :: rest => ['\r', '\n'] :: linesWithEnds rest
  | c :: rest =>
    if c == '\n' || c == '\r' then [c] :: linesWithEnds rest
    else
      match linesWithEnds rest with
      | [] => [[c]]
      | first :: others => (c :: first) :: others

end Parametric.Text

namespace Parametric.LineDiff

variable {α : Type} [BEq α]

/-- Lines that are kept, deleted or inserted together. -/
inductive Run (α : Type) where
  | keep (lines : List α)
  | delete (lines : List α)
  | insert (lines : List α)
deriving Repr

def Run.lines : Run α → List α
  | .keep lines | .delete lines | .insert lines => lines

def commonLength : List α → List α → Nat
  | a :: as, b :: bs => if a == b then commonLength as bs + 1 else 0
  | _, _ => 0

def commonEndLength (old new : List α) : Nat := commonLength old.reverse new.reverse

/-! ## Where to split -/

/-- How far a diagonal of the edit graph has been followed: it was entered after `start` old lines
and left after `stop`. The number of new lines is smaller by the number of the diagonal. -/
structure Reach where
  diagonal : Int
  start : Nat
  stop : Nat
deriving Repr

/-- The number of old lines after one edit more, made on the better of two neighbouring
diagonals. -/
def entry : Option Nat → Option Nat → Nat
  | none, none => 0
  | none, some above => above
  | some below, none => below + 1
  | some below, some above => if below < above then above else below + 1

/-- The number of new lines that go with a number of old lines on a diagonal. -/
def newLines (oldLines : Nat) (diagonal : Int) : Nat := ((oldLines : Int) - diagonal).toNat

def reachFrom (old new : List α) (start : Nat) (diagonal : Int) : Reach :=
  ⟨diagonal, start, start + commonLength (old.drop start) (new.drop (newLines start diagonal))⟩

/-- The reaches with one edit more, from a diagonal down to the lowest one. The reaches on the
diagonals between them are given from the one below the first diagonal on; `above` is the reach
above it. -/
def extendBelow (old new : List α) (above : Option Nat) (diagonal : Int) : List Reach → List Reach
  | [] => [reachFrom old new (entry none above) diagonal]
  | below :: rest =>
    reachFrom old new (entry (some below.stop) above) diagonal ::
      extendBelow old new (some below.stop) (diagonal - 2) rest

/-- The reaches on all diagonals with exactly `edits` edits, the highest diagonal first. -/
def extendAll (old new : List α) (edits : Nat) (reaches : List Reach) : List Reach :=
  extendBelow old new none edits reaches

/-- The first of the reaches, given from the highest diagonal down, that meets one from the other
end, given from the lowest diagonal up. -/
def meeting? (oldLength newLength : Nat) : List Reach → List Reach → Option Reach
  | r :: reaches, o :: opposite =>
    let gap := r.diagonal + o.diagonal - ((oldLength : Int) - newLength)
    if gap < 0 then meeting? oldLength newLength (r :: reaches) opposite
    else if gap > 0 then meeting? oldLength newLength reaches (o :: opposite)
    else if oldLength ≤ r.stop + o.stop then some r
    else meeting? oldLength newLength reaches opposite
  | _, _ => none
termination_by reaches opposite => reaches.length + opposite.length

/-- The numbers of old and new lines before a point on a shortest edit script; the search goes on
from `edits` edits at either end, with as many rounds as `rounds`. -/
def splitPointFrom (old new : List α) :
    Nat → Nat → List Reach → List Reach → Option (Nat × Nat)
  | 0, _, _, _ => none
  | rounds + 1, edits, forward, backward =>
    let n := old.length
    let m := new.length
    let isOdd := (n + m) % 2 == 1
    let forward := extendAll old new edits forward
    match if isOdd then meeting? n m forward backward.reverse else none with
    | some r => some (r.start, newLines r.start r.diagonal)
    | none =>
      let backward := extendAll old.reverse new.reverse edits backward
      match if isOdd then none else meeting? n m backward forward.reverse with
      | some r => some (n - r.stop, m - newLines r.stop r.diagonal)
      | none => splitPointFrom old new rounds (edits + 1) forward backward

def splitPoint (old new : List α) : Option (Nat × Nat) :=
  splitPointFrom old new ((old.length + new.length + 1) / 2 + 1) 0 [] []

/-! ## Edit scripts -/

def nonEmpty (run : Run α) : List (Run α) := if run.lines.isEmpty then [] else [run]

/-- The edits between two lists of lines; `depth` bounds how often they are split. -/
def scriptWithin (depth : Nat) (old new : List α) : List (Run α) :=
  let first := commonLength old new
  let oldRest := old.drop first
  let newRest := new.drop first
  let last := commonEndLength oldRest newRest
  let oldMiddle := oldRest.take (oldRest.length - last)
  let newMiddle := newRest.take (newRest.length - last)
  let replaced := nonEmpty (.delete oldMiddle) ++ nonEmpty (.insert newMiddle)
  let middle :=
    match depth with
    | 0 => replaced
    | depth + 1 =>
      if oldMiddle.isEmpty || newMiddle.isEmpty then replaced
      else
        match splitPoint oldMiddle newMiddle with
        | none => replaced
        | some (i, j) =>
          scriptWithin depth (oldMiddle.take i) (newMiddle.take j) ++
            scriptWithin depth (oldMiddle.drop i) (newMiddle.drop j)
  nonEmpty (.keep (old.take first)) ++ middle ++
    nonEmpty (.keep (oldRest.drop (oldRest.length - last)))

def script (old new : List α) : List (Run α) := scriptWithin (old.length + new.length) old new

/-! ## Moving insertions -/

def keepBefore (lines : List α) : List (Run α) → List (Run α)
  | .keep more :: rest => .keep (lines ++ more) :: rest
  | runs => .keep lines :: runs

/-- Runs, given backwards, with kept lines put after them. -/
def keepAfter (lines : List α) : List (Run α) → List (Run α)
  | .keep more :: rest => .keep (more ++ lines) :: rest
  | runs => .keep lines :: runs

/-- The place of an insertion: the runs before it, backwards, its lines, and the runs after it. -/
structure Place (α : Type) where
  before : List (Run α)
  lines : List α
  after : List (Run α)

/-- Moves an insertion up past kept lines that equal its last lines, and past other edits; on its
way it takes in other insertions. -/
def moveUp : Nat → Place α → Place α
  | 0, p => p
  | steps + 1, p =>
    match p.before with
    | [] => p
    | .delete lines :: before => moveUp steps ⟨before, p.lines, .delete lines :: p.after⟩
    | .insert lines :: before => moveUp steps ⟨before, lines ++ p.lines, p.after⟩
    | .keep lines :: before =>
      let n := commonEndLength lines p.lines
      if n = 0 then p
      else
        let kept := lines.take (lines.length - n)
        let moved := lines.drop (lines.length - n)
        moveUp steps ⟨nonEmpty (.keep kept) ++ before,
          moved ++ p.lines.take (p.lines.length - n), keepBefore moved p.after⟩

/-- Moves an insertion down past kept lines that equal its first lines, and past other edits; on
its way it takes in other insertions. -/
def moveDown : Nat → Place α → Place α
  | 0, p => p
  | steps + 1, p =>
    match p.after with
    | [] => p
    | .delete lines :: after => moveDown steps ⟨.delete lines :: p.before, p.lines, after⟩
    | .insert lines :: after => moveDown steps ⟨p.before, p.lines ++ lines, after⟩
    | .keep lines :: after =>
      let n := commonLength lines p.lines
      if n = 0 then p
      else
        moveDown steps ⟨keepAfter (lines.take n) p.before, p.lines.drop n ++ lines.take n,
          nonEmpty (.keep (lines.drop n)) ++ after⟩

/-- Moves every insertion up and then down; the runs before the next one are given backwards. -/
def settleFrom (steps : Nat) : Nat → List (Run α) → List (Run α) → List (Run α)
  | 0, before, after => before.reverse ++ after
  | _ + 1, before, [] => before.reverse
  | rounds + 1, before, .insert lines :: after =>
    let p := moveDown steps (moveUp steps ⟨before, lines, after⟩)
    settleFrom steps rounds (.insert p.lines :: p.before) p.after
  | rounds + 1, before, run :: after => settleFrom steps rounds (run :: before) after

/-- An edit script with every insertion moved up and then down as far as it can go. -/
def settle (runs : List (Run α)) : List (Run α) :=
  let bound := 2 * runs.length + 2 * (runs.flatMap Run.lines).length + 1
  settleFrom bound bound [] runs

/-! ## Writing -/

inductive Mark where
  | kept | deleted | inserted
deriving DecidableEq, Repr

/-- The lines of an edit script; of neighbouring edits the deletions come first. -/
def markedLines (deleted inserted : List α) : List (Run α) → List (Mark × α)
  | [] => deleted.map (.deleted, ·) ++ inserted.map (.inserted, ·)
  | .delete lines :: rest => markedLines (deleted ++ lines) inserted rest
  | .insert lines :: rest => markedLines deleted (inserted ++ lines) rest
  | .keep lines :: rest =>
    deleted.map (.deleted, ·) ++ inserted.map (.inserted, ·) ++ lines.map (.kept, ·) ++
      markedLines [] [] rest

def marks (old new : List α) : List (Mark × α) := markedLines [] [] (settle (script old new))

end Parametric.LineDiff
