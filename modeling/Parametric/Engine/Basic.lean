import Parametric.Definition.Supply
import Parametric.Issue
import Parametric.Json.Reader
import Parametric.State.Basic
import Parametric.Template.Collection

/-!
Engines: a state with its settings, its templates and the store that keeps it.
-/

namespace Parametric

/-- A store, which holds the last state that was written to it. -/
structure Store where
  saved : Option StoredState := none
  /-- Why nothing can be written. -/
  fault : Option String := none
deriving DecidableEq, Repr, Inhabited

def Store.write (store : Store) (s : StoredState) : Except Failure Store :=
  match store.fault with
  | some message => .error (.persistence message)
  | none => .ok { store with saved := some s }

def Store.ofText? (now : Instant) (text : String) : Option Store :=
  ((Json.read? text).bind (StoredState.ofJson? now)).map fun s => { saved := some s }

structure Engine where
  settings : Settings := {}
  templates : Templates := {}
  state : State
  store : Store := {}
  supply : TokenSupply

namespace Engine

/-- An engine on a store; its state is the one that the store holds. -/
def onStore (settings : Settings) (now : Instant) (supply : TokenSupply) (store : Store) :
    Engine where
  settings := settings
  state := (store.saved.map State.ofStored).getD (.start now)
  store := store
  supply := supply

/-- Another engine on the same store, without templates. -/
def reload (e : Engine) (settings : Settings) (now : Instant) : Engine :=
  .onStore settings now e.supply e.store

def save (e : Engine) : Except Failure Engine :=
  (e.store.write e.state.stored).map fun store => { e with store := store }

/-- Writes the state to the store; a failure gives a warning. -/
def saveOrWarn (e : Engine) : List Issue × Engine :=
  match e.save with
  | .ok e => ([], e)
  | .error failure =>
    ([⟨.warning, none, "changes not persisted: " ++ failure.message⟩], e)

def commit (e : Engine) (s : State) : List Issue × Engine := { e with state := s }.saveOrWarn

/-- Adds a template, in place of one of the same id. -/
def addTemplate (e : Engine) (t : Template) : Engine :=
  { e with templates := e.templates.insert t }

/-- Adds the templates among the files of a directory, and counts them. -/
def addTemplateFiles (e : Engine) (files : List (String × String)) : Nat × Engine :=
  let (count, templates) := e.templates.load files
  (count, { e with templates := templates })

end Engine

end Parametric
