import Parametric.Failure
import Parametric.Text.Word
import Parametric.Text.Lines

/-!
The separator of a sentence: the verb or sign between the name of a result and what it is.
-/

namespace Parametric.Sentence

inductive Cause where
  | noSeparator (sentence : String)
  | noResult (sentence : String)
  | emptyExpression
  | branchOutside
  | tooManyBranches
  | missingBranch
deriving DecidableEq, Repr, Inhabited

def Cause.message : Cause → String
  | .noSeparator sentence =>
    s!"no separator in '{sentence}': expected 'is', 'equals', 'is equal to' or '='"
  | .noResult sentence => s!"no result name before the separator in '{sentence}'"
  | .emptyExpression => "empty expression"
  | .branchOutside => "'then' or 'otherwise' without 'if'"
  | .tooManyBranches => "too many branches for one 'if'"
  | .missingBranch => "'if' needs both 'then' and 'otherwise'"

def Cause.failure (cause : Cause) : Failure := .translation cause.message

/-- The verbs that separate; an earlier one wins over a later one. -/
def verbs : List (List Char) := ["is equal to".toList, "equals".toList, "is".toList]

/-- Whether a character is a small letter or a variant of it: the capital, or the long s. -/
def isVariant (letter c : Char) : Bool := c.toLower == letter || (letter == 's' && c == 'ſ')

/-- Whether a text starts with a verb, in any letter case. -/
def startsWithVerb : List Char → List Char → Bool
  | [], _ => true
  | _ :: _, [] => false
  | letter :: verb, c :: rest => isVariant letter c && startsWithVerb verb rest

/-- The length of the separator at the head of a text that follows the character `before`; a verb
has to be a word of its own. -/
def separatorLength? (before : Option Char) (text : List Char) : Option Nat :=
  let isWhole := fun verb : List Char =>
    startsWithVerb verb text && Text.isBoundary before text.head? &&
      Text.isBoundary ((text[verb.length - 1]?)) ((text[verb.length]?))
  match verbs.find? isWhole with
  | some verb => some verb.length
  | none => if text.head? == some '=' then some 1 else none

/-- The texts around the first separator; `done` is the text before `rest`, backwards. -/
def splitFrom (done rest : List Char) : Option (List Char × List Char) :=
  match separatorLength? done.head? rest with
  | some length => some (done.reverse, rest.drop length)
  | none =>
    match rest with
    | [] => none
    | c :: rest => splitFrom (c :: done) rest

def isEndMark (c : Char) : Bool := c == '.' || c == '!' || c == '?'

/-- Text without blanks around it and without the marks that end a sentence. -/
def withoutEndMarks (text : List Char) : String :=
  .ofList (Text.stripBy Text.isBlank
    (Text.dropEndWhile isEndMark (Text.stripBy Text.isBlank text)))

/-- The texts before and after the first separator of a sentence. -/
def split (sentence : String) : Except Cause (String × String) :=
  match splitFrom [] sentence.toList with
  | some (left, right) => .ok (Text.trim (.ofList left), withoutEndMarks right)
  | none => .error (.noSeparator (Text.trim sentence))

end Parametric.Sentence
