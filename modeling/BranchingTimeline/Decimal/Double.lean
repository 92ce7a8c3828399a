namespace BranchingTimeline

/-- A double other than NaN: its sign, and its place in the ascending list of the nonnegative
doubles, which begins with zero and the least subnormal and ends with infinity. -/
structure Double where
  negative : Bool
  rank : Nat
deriving DecidableEq, Repr

namespace Double

def infinityRank : Nat := 2047 * Nat.pow 2 52

/-- A finite rank stands for `significand rank * 2 ^ exponent rank`. -/
def significand (rank : Nat) : Nat :=
  if rank < Nat.pow 2 52 then rank else rank % Nat.pow 2 52 + Nat.pow 2 52

def exponent (rank : Nat) : Int := (rank / Nat.pow 2 52 - 1 : Nat) - (1074 : Int)

/-- Both zeros have the same place among all doubles. -/
def place (d : Double) : Int := if d.negative then -(d.rank : Int) else d.rank

def beq (a b : Double) : Bool := a.place == b.place

def blt (a b : Double) : Bool := a.place < b.place

def ble (a b : Double) : Bool := a.place ≤ b.place

def bits (d : Double) : Nat := (if d.negative then Nat.pow 2 63 else 0) + d.rank

/-- A quotient rounded to an integer, a half to the even neighbour. -/
def roundDiv (num den : Nat) : Nat :=
  let q := num / den
  let r := 2 * (num % den)
  if r < den then q else if r = den then q + q % 2 else q + 1

def inUnits (num den : Nat) (e : Int) : Nat × Nat :=
  (num * Nat.pow 2 (-e).toNat, den * Nat.pow 2 e.toNat)

/-- The rank nearest to `num / den`, a tie going to the even rank. The unit is chosen so that the
quotient has 53 bits, or fewer where the doubles lie `2 ^ (-1074)` apart. -/
def nearestRank (num den : Nat) : Nat :=
  if num = 0 then 0
  else
    let guess : Int := (num.log2 : Int) - den.log2 - 52
    let (n, d) := inUnits num den guess
    let unit := max (if n < d * Nat.pow 2 52 then guess - 1 else guess) (-1074)
    let (n, d) := inUnits num den unit
    min ((unit + 1074).toNat * Nat.pow 2 52 + roundDiv n d) infinityRank

def nearestScaled (num den : Nat) (e : Int) : Nat :=
  nearestRank (num * Nat.pow 2 e.toNat) (den * Nat.pow 2 (-e).toNat)

def mulRank (a b : Nat) : Nat :=
  nearestScaled (significand a * significand b) 1 (exponent a + exponent b)

def divRank (a b : Nat) : Nat :=
  nearestScaled (significand a) (significand b) (exponent a - exponent b)

/-- The rank nearest to `coefficient * 10 ^ e`. Since `2 ^ 3 < 10`, the first two tests only catch
values beyond the largest double and values below half the least. -/
def nearestDecimal (coefficient : Nat) (e : Int) : Nat :=
  if coefficient = 0 then 0
  else if 0 ≤ e ∧ 1025 ≤ coefficient.log2 + 3 * e then infinityRank
  else if e < 0 ∧ coefficient.log2 + 3 * e < -1081 then 0
  else nearestRank (coefficient * Nat.pow 10 e.toNat) (Nat.pow 10 (-e).toNat)

end Double

end BranchingTimeline
