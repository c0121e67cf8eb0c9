import Parametric.Compilation.Plan
import Parametric.Exchange.Format

/-!
The commands of the program, and how they are read from the words of a command line.
-/

namespace Parametric.CommandLine

inductive Command where
  | normalize (names : List String)
  | compile (assignment : String) (options : CompileOptions)
  | translate (sentence : String) (options : CompileOptions)
  /-- The order in which formulas can be evaluated, or a drawing of the graph. -/
  | order (names : List String) (drawing : Bool)
  | convert (input output : String) (source target : Option FileFormat)
  /-- The conflicts among the elements in a file; with `strict` a critical one is a failure. -/
  | conflicts (elements : String) (strict : Bool)
deriving Repr

structure Invocation where
  settings : Option String := none
  /-- The directory of the store, before that of the settings. -/
  store : Option String := none
  /-- The exchange file whose definitions are created first. -/
  definitions : Option String := none
  command : Command
deriving Repr

inductive UsageError where
  | noCommand
  | unknownCommand (word : String)
  | unknownOption (word : String)
  | missingValue (option : String)
  | invalidValue (option value : String)
  | wrongArguments (command : String)
deriving DecidableEq, Repr

def UsageError.message : UsageError → String
  | .noCommand => "expected one of normalize, compile, translate, order, convert, conflicts"
  | .unknownCommand word => s!"unknown command '{word}'"
  | .unknownOption word => s!"unknown option '{word}'"
  | .missingValue option => s!"option '{option}' needs a value"
  | .invalidValue option value => s!"invalid value '{value}' for option '{option}'"
  | .wrongArguments command => s!"wrong number of arguments for '{command}'"

structure Arguments where
  plain : List String := []
  flags : List String := []
  values : List (String × String) := []
deriving Repr

namespace Arguments

def ofWords (flags valued : List String) : List String → Except UsageError Arguments
  | [] => return {}
  | word :: rest =>
    if flags.contains word then do
      let args ← ofWords flags valued rest
      return { args with flags := word :: args.flags }
    else if valued.contains word then
      match rest with
      | [] => .error (.missingValue word)
      | value :: rest => do
        let args ← ofWords flags valued rest
        return { args with values := (word, value) :: args.values }
    else if word.startsWith "--" then .error (.unknownOption word)
    else do
      let args ← ofWords flags valued rest
      return { args with plain := word :: args.plain }

def value? {α : Type} (args : Arguments) (option : String) (read : String → Option α) :
    Except UsageError (Option α) :=
  match args.values.lookup option with
  | none => .ok none
  | some text =>
    match read text with
    | some value => .ok (some value)
    | none => .error (.invalidValue option text)

/-- What is allowed when a formula is compiled. -/
def compileOptions (args : Arguments) : Except UsageError CompileOptions := do
  let kind ← args.value? "--expect" ValueKind.named?
  return {
    allowMissing := args.flags.contains "--allow-missing"
    declaredKind := kind
    preview := args.flags.contains "--preview" }

end Arguments

def format? : String → Option FileFormat
  | "shared-parameters" => some .sharedFile
  | "csv" => some .csv
  | "json" => some .json
  | _ => none

def Command.parse (name : String) (words : List String) : Except UsageError Command := do
  match name with
  | "normalize" => return .normalize (← Arguments.ofWords [] [] words).plain
  | "compile" =>
    let args ← Arguments.ofWords ["--preview", "--allow-missing"] ["--expect"] words
    let [assignment] := args.plain | throw (.wrongArguments name)
    return .compile assignment (← args.compileOptions)
  | "translate" =>
    let args ← Arguments.ofWords ["--preview", "--allow-missing"] [] words
    let [sentence] := args.plain | throw (.wrongArguments name)
    return .translate sentence (← args.compileOptions)
  | "order" =>
    let args ← Arguments.ofWords ["--dot"] [] words
    return .order args.plain (args.flags.contains "--dot")
  | "convert" =>
    let args ← Arguments.ofWords [] ["--from", "--to"] words
    let [input, output] := args.plain | throw (.wrongArguments name)
    return .convert input output (← args.value? "--from" format?) (← args.value? "--to" format?)
  | "conflicts" =>
    let args ← Arguments.ofWords ["--strict"] [] words
    let [elements] := args.plain | throw (.wrongArguments name)
    return .conflicts elements (args.flags.contains "--strict")
  | _ => throw (.unknownCommand name)

/-- Reads the words of a command line; the files come before the command. -/
def Invocation.parse : List String → Except UsageError Invocation
  | [] => .error .noCommand
  | [word] =>
    if word.startsWith "-" then .error (.missingValue word)
    else (Command.parse word []).map fun command => { command := command }
  | word :: value :: rest =>
    match word with
    | "-c" | "--config" => do return { ← parse rest with settings := some value }
    | "-s" | "--store" => do return { ← parse rest with store := some value }
    | "-p" | "--params" => do return { ← parse rest with definitions := some value }
    | _ =>
      if word.startsWith "-" then .error (.unknownOption word)
      else (Command.parse word (value :: rest)).map fun command => { command := command }

end Parametric.CommandLine
