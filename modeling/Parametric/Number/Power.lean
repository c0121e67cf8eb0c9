/-!
Powers of two and of ten.
-/

namespace Parametric.Number

def twoTo (n : Nat) : Nat := Nat.pow 2 n

def tenTo (n : Nat) : Nat := Nat.pow 10 n

def wordLimit : Nat := 0x10000000000000000

end Parametric.Number
