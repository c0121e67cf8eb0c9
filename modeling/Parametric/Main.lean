import Parametric.CommandLine.Report
import Std.Time.DateTime.Timestamp

/-!
The command line program: files, the clock and the printing around the commands.
-/

namespace Parametric.CommandLine

def currentTime : IO Instant := do
  let nanos := (← Std.Time.Timestamp.now).toNanosecondsSinceUnixEpoch.val
  return ⟨nanos.ediv 1000000000, (nanos.emod 1000000000).toNat⟩

def randomSupply : IO TokenSupply := do
  let bytes ← IO.getRandomBytes 16
  return .ofSeed (bytes.toList.foldl (fun n byte => n * 256 + byte.toNat) 0)

def giveUp {α : Type} (message : String) : IO α := throw (IO.userError message)

def readSettings (path : Option String) : IO Settings := do
  let some path := path | return {}
  match (Json.read? (← IO.FS.readFile path)).bind Settings.ofJson? with
  | some settings => return settings
  | none => giveUp s!"no settings in '{path}'"

def storeFile (directory : String) : String := directory ++ "/registry.json"

def isFile (path : String) : IO Bool := do
  try
    let _ ← IO.FS.readFile path
    return true
  catch _ => return false

/-- The store of a directory; without one it is empty. -/
def readStore (now : Instant) (directory : Option String) : IO Store := do
  let some directory := directory | return {}
  let path := storeFile directory
  if !(← isFile path) then return {}
  match Store.ofText? now (← IO.FS.readFile path) with
  | some store => return store
  | none => giveUp s!"no state in '{path}'"

/-- Writes what a store holds to its directory. -/
def writeStore (directory : Option String) (store : Store) : IO Unit := do
  let some directory := directory | return ()
  let some saved := store.saved | return ()
  IO.FS.createDirAll directory
  IO.FS.writeFile (storeFile directory) saved.toJson.pretty

/-- Prints a report, and fails if it is one of a failure. -/
def print (report : Report) : IO Unit := do
  for line in report.remarks do IO.eprintln line
  IO.print report.output
  if let some message := report.failure then giveUp message

/-- Runs something on the engine of an invocation and keeps what the store then holds. -/
def onEngine (invocation : Invocation) (run : Engine → Instant → IO (Report × Engine)) :
    IO Unit := do
  let settings ← readSettings invocation.settings
  let now ← currentTime
  let directory := invocation.store <|> settings.store.path
  let mut engine := Engine.onStore settings now (← randomSupply) (← readStore now directory)
  if let some path := invocation.definitions then
    let (report, loaded) := load engine now (.ofPath path) (← IO.FS.readFile path)
    print report
    engine := loaded
  let (report, after) ← run engine now
  writeStore directory after.store
  print report

def run (invocation : Invocation) : IO Unit := do
  match invocation.command with
  | .normalize names => print (normalize (← readSettings invocation.settings).naming names)
  | .compile assignment options =>
    onEngine invocation fun e now => pure (compile e now assignment options)
  | .translate sentence options =>
    onEngine invocation fun e now => pure (translate e now sentence options)
  | .order names drawing =>
    onEngine invocation fun e _ => pure (order e.state names drawing, e)
  | .conflicts elements strict =>
    onEngine invocation fun e _ =>
      return (conflicts e (← IO.FS.readFile elements) strict, e)
  | .convert input output source target =>
    let (report, text) := convert (← readSettings invocation.settings) (← currentTime)
      (← randomSupply) (source.getD (.ofPath input)) (target.getD (.ofPath output))
      (← IO.FS.readFile input) input output
    if let some text := text then IO.FS.writeFile output text
    print report

end Parametric.CommandLine

def main (words : List String) : IO UInt32 := do
  match Parametric.CommandLine.Invocation.parse words with
  | .error error =>
    IO.eprintln ("Error: " ++ error.message)
    return 2
  | .ok invocation =>
    try
      Parametric.CommandLine.run invocation
      return 0
    catch error =>
      IO.eprintln s!"Error: {error}"
      return 1
