import BranchingTimeline.Decimal.Numeral
import BranchingTimeline.Decimal.Shortest
import BranchingTimeline.Json.Basic

namespace BranchingTimeline.Number

open Numeral (isDigit natural)

def absorb (significand : Nat) : List Char → Nat × Nat
  | [] => (significand, 0)
  | c :: r =>
    let next := 10 * significand + (c.toNat - '0'.toNat)
    if next < UInt64.size then
      let (s, n) := absorb next r
      (s, n + 1)
    else (significand, 0)

def powerOfTen (k : Nat) : Nat := Double.nearestRank (Nat.pow 10 k) 1

def scale (rank : Nat) (e : Int) : Nat :=
  if rank = 0 ∨ e < -616 then 0
  else if 308 < e then Double.infinityRank
  else if 0 ≤ e then Double.mulRank rank (powerOfTen e.toNat)
  else if -308 ≤ e then Double.divRank rank (powerOfTen (-e).toNat)
  else Double.divRank (Double.divRank rank (powerOfTen 308)) (powerOfTen (-e - 308).toNat)

/-- The double of a literal: its significand as a double, then scaled. Digits that the significand
has no room for count as zeros in the whole part and are dropped from the fraction. -/
def toDouble (negative : Bool) (whole fraction : List Char) (e : Int) : Option Number :=
  let (s, n) := absorb 0 whole
  let (s, m) := absorb s fraction
  let rank := scale (Double.nearestRank s 1) (whole.length - n - m + e)
  if h : rank < Double.infinityRank then some (.double ⟨negative, rank⟩ h) else none

def ofNegNat? (n : Nat) : Option Number :=
  if h : 0 < n ∧ n ≤ Nat.pow 2 63 then some (.int (-n) ⟨by omega, by omega⟩) else none

/-- A literal without fraction and exponent is an integer if it fits, and never is `-0`. -/
def ofParts (negative : Bool) (whole : List Char) (fraction : Option (List Char))
    (e : Option Int) : Option Number :=
  let integer := if fraction = none ∧ e = none then
      if negative then ofNegNat? (natural whole) else ofNat? (natural whole)
    else none
  integer <|> toDouble negative whole (fraction.getD []) (e.getD 0)

def fractionPart : List Char → Option (Option (List Char) × List Char)
  | '.' :: cs =>
    let digits := cs.takeWhile isDigit
    if digits = [] then none else some (some digits, cs.dropWhile isDigit)
  | cs => some (none, cs)

def exponentPart : List Char → Option (Option Int)
  | [] => some none
  | c :: cs =>
    let (negative, digits) := Numeral.sign cs
    if (c = 'e' ∨ c = 'E') ∧ digits ≠ [] ∧ digits.all isDigit then
      some (some (if negative then -(natural digits : Int) else natural digits))
    else none

/-- Reads `-? (0 | [1-9][0-9]*) (. [0-9]+)? ([eE][+-]?[0-9]+)?`; there is nothing inside `some` for
a literal beyond the largest double. -/
def ofLiteral (cs : List Char) : Option (Option Number) :=
  let (negative, body) := match cs with
    | '-' :: r => (true, r)
    | r => (false, r)
  let whole := body.takeWhile isDigit
  if whole = [] ∨ (whole.head? = some '0' ∧ whole.length ≠ 1) then none
  else do
    let (fraction, rest) ← fractionPart (body.dropWhile isDigit)
    let e ← exponentPart rest
    return ofParts negative whole fraction e

structure Format where
  plainFrom : Int
  plainBelow : Int

def format : Format := ⟨-5, 16⟩

def plain (digits : List Char) (k : Int) : List Char :=
  let places := (-k).toNat
  if 0 ≤ k then digits ++ List.replicate k.toNat '0' ++ ['.', '0']
  else if places < digits.length then
    digits.take (digits.length - places) ++ '.' :: digits.drop (digits.length - places)
  else ['0', '.'] ++ List.replicate (places - digits.length) '0' ++ digits

def scientific (digits : List Char) (power : Int) : List Char :=
  let mantissa := match digits with
    | d :: c :: r => d :: '.' :: c :: r
    | ds => ds
  mantissa ++ 'e' :: (if power < 0 then '-' else '+') :: power.natAbs.repr.toList

/-- The fewest digits that read back, with at least one after a point that is written. -/
def rankText (rank : Nat) : List Char :=
  if rank = 0 then ['0', '.', '0']
  else
    let (n, k) := Double.shortest rank
    let digits := n.repr.toList
    let power := k + digits.length - 1
    if format.plainFrom ≤ power ∧ power < format.plainBelow then plain digits k
    else scientific digits power

def text : Number → String
  | .int (.ofNat n) _ => n.repr
  | .int (.negSucc n) _ => "-" ++ (n + 1).repr
  | .double d _ => String.ofList (if d.negative then '-' :: rankText d.rank else rankText d.rank)

end BranchingTimeline.Number
