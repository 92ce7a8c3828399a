import BranchingTimeline.Decimal.Double

namespace BranchingTimeline.Double

/-- The reals that round to a rank, and its own value, as multiples of `2 ^ unit`. Both ends belong
to the interval exactly when the rank is even. -/
structure Rounding where
  low : Nat
  value : Nat
  high : Nat
  closed : Bool
  unit : Int

def rounding (rank : Nat) : Rounding :=
  let base := exponent rank - 1
  let multiple (r : Nat) : Nat := significand r * Nat.pow 2 (exponent r - base).toNat
  { low := multiple (rank - 1) + multiple rank
    value := 2 * multiple rank
    high := multiple rank + multiple (rank + 1)
    closed := rank % 2 = 0
    unit := base - 1 }

/-- The multiple of `10 ^ k` in the interval that is nearest to the value, a tie going to the even
one. Only the two neighbours of the value can be that multiple. -/
def Rounding.onGrid (i : Rounding) (k : Int) : Option Nat :=
  let step := Nat.pow 10 k.toNat * Nat.pow 2 (-i.unit).toNat
  let factor := Nat.pow 10 (-k).toNat * Nat.pow 2 i.unit.toNat
  let below := i.value * factor / step
  let rest := i.value * factor % step
  let fitsBelow := i.low * factor < below * step || (i.closed && i.low * factor == below * step)
  let fitsAbove :=
    (below + 1) * step < i.high * factor || (i.closed && (below + 1) * step == i.high * factor)
  let nearer :=
    if 2 * rest < step then below else if 2 * rest = step then below + below % 2 else below + 1
  match fitsBelow, fitsAbove with
  | true, true => some nearer
  | true, false => some below
  | false, true => some (below + 1)
  | false, false => none

/-- The coarsest of the grids `10 ^ k`, `10 ^ (k - 1)`, … with a point in the interval, and that point. -/
def Rounding.coarsest (i : Rounding) (k : Int) : Nat → Nat × Int
  | 0 => (0, k)
  | steps + 1 =>
    match i.onGrid k with
    | some n => (n, k)
    | none => i.coarsest (k - 1) steps

/-- `(n, k)` with the fewest digits such that `n * 10 ^ k` reads back as the rank, nearest to its
value among those. The search starts above the value and needs at most 17 digits. -/
def shortest (rank : Nat) : Nat × Int :=
  let i := rounding rank
  let bound := ((i.value.log2 : Int) + 1 + i.unit) * 30103 / 100000 + 1
  i.coarsest bound 20

end BranchingTimeline.Double
