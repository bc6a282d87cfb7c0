/-! Integers in double precision: the nearest number with 53 significant bits, a tie going to the
even one, and the bound from which a product is too large to be represented. -/

namespace TickMachine.Numeric

def roundBits (n bits : Nat) : Nat :=
  let unit := 1 <<< bits
  let below := n % unit
  let quotient := n / unit
  if 2 * below < unit ∨ (2 * below = unit ∧ quotient % 2 = 0) then quotient * unit
  else (quotient + 1) * unit

def nearestNat (n : Nat) : Nat := roundBits n (n.log2 + 1 - 53)

def nearestInt (n : Int) : Int :=
  if n < 0 then -(nearestNat n.natAbs : Int) else nearestNat n.natAbs

/-- Half a unit above the largest finite double; from here on a product rounds to infinity. -/
def overflowBound : Nat := (1 <<< 1024) - (1 <<< 970)

end TickMachine.Numeric
