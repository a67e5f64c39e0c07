/-!
# Rounding to significant bits

A number with more bits than there is room for is held by the nearest number that ends in zeros from
there on. Of two that are equally near, the one whose last kept bit is zero is taken.
-/

namespace TxnStore.Rounding

/-- A number divided by another one that is not zero, rounded to the nearest number; a half goes to
the even neighbour. -/
def divide (n m : Nat) : Nat :=
  let q := n / m
  let r := n % m
  if 2 * r < m ∨ 2 * r = m ∧ q % 2 = 0 then q else q + 1

/-- How many bits of a number there is no room for. -/
def excess (bits n : Nat) : Nat := n.log2 + 1 - bits

/-- The number that holds another one when there is room for so many significant bits. -/
def hold (bits n : Nat) : Nat := divide n (1 <<< excess bits n) <<< excess bits n

end TxnStore.Rounding
