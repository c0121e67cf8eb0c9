import Parametric.Element.Parameter

/-!
What can be done with elements. An element may refuse any call, and its state may change with any
call that changes it.
-/

namespace Parametric

/-- The answer of an element to a change: its new state, and what went wrong if it failed. -/
structure Reply (ε : Type) where
  element : ε
  problem : Option String := none
deriving Repr

/-- Elements whose state is an `ε`. -/
class ElementAccess (ε : Type) where
  id : ε → String
  category : ε → String
  /-- The parameters of an element, or why they cannot be listed. -/
  list : ε → Except String (List CarriedParameter)
  add : ε → Definition → Reply ε
  /-- Puts the parameter of a definition in place of the one of a name. -/
  update : ε → String → Definition → Reply ε
  remove : ε → String → Reply ε
  save : ε → Reply ε
  /-- Whether the running operation is cancelled when the element is saved. -/
  cancelsOnSave : ε → Bool := fun _ => false

end Parametric
