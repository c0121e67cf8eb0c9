import Parametric.Text.Ascii
import Parametric.Text.Lines
import Parametric.Text.Word

/-!
The words of sentences, and the phrases that stand for operators and functions.
-/

namespace Parametric.Sentence

inductive Token where
  | word (text : String)
  | number (text : String)
  | symbol (text : String)
deriving DecidableEq, Repr, Inhabited

/-- The length of a fraction at the head of a text, zero if there is none. -/
def fractionLength : List Char → Nat
  | '.' :: rest =>
    let digits := (rest.takeWhile Text.isWordDigit).length
    if digits = 0 then 0 else digits + 1
  | _ => 0

def isWordStart (c : Char) : Bool := c.isAlpha || c == '_'

def isPair (a b : Char) : Bool :=
  (b == '=' && (a == '<' || a == '>' || a == '!')) || (a == '<' && b == '>')

def symbolChars : List Char := "-+*/^%<>=(),".toList

/-- The token of the character `c`, if it starts one, and how many of the characters after it
belong to it. Digits of other scripts are kept like symbols. -/
def tokenAt? (c : Char) (rest : List Char) : Option (Token × Nat) :=
  if Text.isWordDigit c then
    let whole := (rest.takeWhile Text.isWordDigit).length
    let extra := whole + fractionLength (rest.drop whole)
    let text := String.ofList (c :: rest.take extra)
    some (if c.isDigit then .number text else .symbol text, extra)
  else if isWordStart c then
    let tail := rest.takeWhile fun d => d.isAlphanum || d == '_'
    some (.word (.ofList (c :: tail)), tail.length)
  else if rest.head?.any (isPair c) then some (.symbol (.ofList (c :: rest.take 1)), 1)
  else if symbolChars.contains c then some (.symbol (.singleton c), 0)
  else none

/-- The tokens of a text; characters that start none are skipped. -/
def tokens (text : List Char) : List Token :=
  match text with
  | [] => []
  | c :: rest =>
    match tokenAt? c rest with
    | none => tokens rest
    | some (token, extra) => token :: tokens (rest.drop extra)
termination_by text.length
decreasing_by
  · simp
  · simp only [List.length_cons, List.length_drop]; omega

/-! ## Phrases -/

inductive Phrase where
  | operator (symbol : String)
  /-- A power of what stands before the phrase. -/
  | power (exponent : String)
  /-- A function of what stands after the phrase. -/
  | function (name : String)
  /-- The start of a conditional. -/
  | condition
  /-- The start of the next branch of a conditional. -/
  | branch
deriving DecidableEq, Repr, Inhabited

/-- The phrases; an earlier one wins over a later one. -/
def phrases : List (String × Phrase) :=
  [("is greater than or equal to", .operator ">="),
   ("is less than or equal to", .operator "<="),
   ("greater than or equal to", .operator ">="),
   ("less than or equal to", .operator "<="),
   ("is not equal to", .operator "<>"),
   ("absolute value of", .function "abs"),
   ("square root of", .function "sqrt"),
   ("to the power of", .operator "^"),
   ("is greater than", .operator ">"),
   ("is less than", .operator "<"),
   ("not equal to", .operator "<>"),
   ("is equal to", .operator "="),
   ("multiplied by", .operator "*"),
   ("greater than", .operator ">"),
   ("more than", .operator ">"),
   ("less than", .operator "<"),
   ("divided by", .operator "/"),
   ("equal to", .operator "="),
   ("cosine of", .function "cos"),
   ("tangent of", .function "tan"),
   ("sine of", .function "sin"),
   ("at least", .operator ">="),
   ("at most", .operator "<="),
   ("modulo", .operator "%"),
   ("times", .operator "*"),
   ("over", .operator "/"),
   ("plus", .operator "+"),
   ("minus", .operator "-"),
   ("equals", .operator "="),
   ("squared", .power "^ 2"),
   ("cubed", .power "^ 3"),
   ("if", .condition),
   ("then", .branch),
   ("otherwise", .branch),
   ("else", .branch)]

/-- Whether the first tokens are the given words, in any letter case. -/
def startsWith : List String → List Token → Bool
  | [], _ => true
  | word :: words, .word text :: rest => Text.sameAscii word text && startsWith words rest
  | _ :: _, _ => false

def phraseWords (text : String) : List String := (Text.splitAt ' ' text.toList).map .ofList

def phraseAt? (tokens : List Token) : Option (Phrase × Nat) :=
  phrases.findSome? fun (text, phrase) =>
    let words := phraseWords text
    if startsWith words tokens then some (phrase, words.length) else none

/-- The words that are left out of names. -/
def articles : List String := ["the", "a", "an"]

/-- Whether a word is an article, in any letter case. -/
def isArticle (word : String) : Bool := articles.any (Text.sameAscii · word)

end Parametric.Sentence
