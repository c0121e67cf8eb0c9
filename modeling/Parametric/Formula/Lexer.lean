import Parametric.Formula.SyntaxError
import Parametric.Number.Reading
import Parametric.Text.Alphabetic
import Parametric.Text.Blank
import Parametric.Text.Numeric

/-!
Splitting formula text into tokens: each token is the longest that starts where it stands.
-/

namespace Parametric.Formula

/-- Whether a character can stand inside a name without brackets. -/
def isNameChar (c : Char) : Bool := Text.isAlphabetic c || Text.isNumeric c || c == '_'

/-- Whether a character can start a name without brackets. -/
def isNameStart (c : Char) : Bool := Text.isAlphabetic c || c == '_'

/-- Whether a character can stand in a number before its exponent. -/
def isNumberChar (c : Char) : Bool := c.isDigit || c == '.'

/-- The length of the exponent at the head of a text, zero if there is none. -/
def exponentLength : List Char → Nat
  | [] => 0
  | mark :: after =>
    let signLength := match after with
      | sign :: _ => if sign == '+' || sign == '-' then 1 else 0
      | [] => 0
    let digits := ((after.drop signLength).takeWhile Char.isDigit).length
    if (mark == 'e' || mark == 'E') && digits > 0 then 1 + signLength + digits else 0

/-- The operator or mark that starts with the character `c`, and how many of the characters after
it belong to it. -/
def punctuation (c : Char) (next : Option Char) : Except SyntaxCause (Lexeme × Nat) :=
  match c with
  | '<' =>
    if next == some '=' then .ok (.le, 1)
    else if next == some '>' then .ok (.ne, 1)
    else .ok (.lt, 0)
  | '>' => if next == some '=' then .ok (.ge, 1) else .ok (.gt, 0)
  | '=' => if next == some '=' then .ok (.eq, 1) else .ok (.eq, 0)
  | '!' => if next == some '=' then .ok (.ne, 1) else .error (.unexpectedCharacter c)
  | '+' => .ok (.plus, 0)
  | '-' => .ok (.minus, 0)
  | '*' => .ok (.star, 0)
  | '/' => .ok (.slash, 0)
  | '%' => .ok (.percent, 0)
  | '^' => .ok (.caret, 0)
  | '(' => .ok (.leftParen, 0)
  | ')' => .ok (.rightParen, 0)
  | ',' => .ok (.comma, 0)
  | _ => .error (.unexpectedCharacter c)

/-- The token of the character `c`, and how many of the characters after it belong to it. -/
def lexeme (c : Char) (rest : List Char) : Except SyntaxCause (Lexeme × Nat) :=
  if isNumberChar c then
    let body := (rest.takeWhile isNumberChar).length
    let extra := body + exponentLength (rest.drop body)
    let text := c :: rest.take extra
    match Number.read? text with
    | some value => .ok (.number value, extra)
    | none => .error (.invalidNumber (.ofList text))
  else if c == '"' then
    let content := rest.takeWhile (· != '"')
    if content.length = rest.length then .error .unterminatedText
    else .ok (.text (.ofList content), content.length + 1)
  else if c == '[' then
    let content := rest.takeWhile (· != ']')
    let name := Text.trim (.ofList content)
    if content.length = rest.length then .error .unterminatedName
    else if name == "" then .error .emptyName
    else .ok (.bracketed name, content.length + 1)
  else if isNameStart c then
    let tail := rest.takeWhile isNameChar
    .ok (.ident (.ofList (c :: tail)), tail.length)
  else
    punctuation c rest.head?

/-- The tokens of a text that starts after `position` characters, the end included. -/
def scanFrom (position : Nat) (text : List Char) : Except SyntaxError (List Token) :=
  match text with
  | [] => .ok [⟨.eof, position⟩]
  | c :: rest =>
    if Text.isBlank c then scanFrom (position + 1) rest
    else
      match lexeme c rest with
      | .error cause => .error ⟨cause, position⟩
      | .ok (kind, extra) => do
        let tokens ← scanFrom (position + 1 + extra) (rest.drop extra)
        return ⟨kind, position⟩ :: tokens
termination_by text.length
decreasing_by
  · simp
  · simp only [List.length_cons, List.length_drop]; omega

/-- The tokens of a formula text, the end included. -/
def tokenize (source : String) : Except SyntaxError (List Token) := scanFrom 0 source.toList

end Parametric.Formula
