import Parametric.Definition.Identity
import Parametric.Number.Power

/-!
Supplies of fresh identity tokens.
-/

namespace Parametric

open Number (twoTo wordLimit)

/-- A sequence of tokens, and how many of them have been drawn. -/
structure TokenSupply where
  token : Nat → Identity
  drawn : Nat := 0

namespace TokenSupply

/-- The next token, and the supply without it. -/
def draw (s : TokenSupply) : Identity × TokenSupply :=
  (s.token s.drawn, { s with drawn := s.drawn + 1 })

/-- The supply of the tokens that start at a number. They are marked as tokens that were made
without a name or a time, and differ from each other in their low bits. -/
def ofSeed (seed : Nat) : TokenSupply where
  token n :=
    let low := (seed + n) % (wordLimit / 4)
    let middle := seed / (wordLimit / 4) % twoTo 12
    let high := seed / wordLimit % twoTo 48
    ⟨.ofNat 128 (((high * 16 + 4) * twoTo 12 + middle) * wordLimit + wordLimit / 2 + low)⟩

end TokenSupply

end Parametric
