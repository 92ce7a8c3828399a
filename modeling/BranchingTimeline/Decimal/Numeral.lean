import BranchingTimeline.Decimal.Double
import BranchingTimeline.Text.Space

namespace BranchingTimeline

/-- A numeral as written: a signed infinity, or digits around a point with an optional exponent. -/
inductive Numeral where
  | infinity (negative : Bool)
  | decimal (negative : Bool) (whole fraction : List Char) (exponent : Int)
deriving DecidableEq, Repr

namespace Numeral

def isDigit (c : Char) : Bool := '0' ≤ c && c ≤ '9'

def natural (digits : List Char) : Nat :=
  digits.foldl (fun n c => 10 * n + (c.toNat - '0'.toNat)) 0

def sign : List Char → Bool × List Char
  | '-' :: cs => (true, cs)
  | '+' :: cs => (false, cs)
  | cs => (false, cs)

/-- The power of ten that digits spell. Digits after the power has reached `2 ^ 16` do not count. -/
def power (digits : List Char) : Nat :=
  digits.foldl (fun n c => if n < Nat.pow 2 16 then 10 * n + (c.toNat - '0'.toNat) else n) 0

/-- An exponent counts only with a digit; otherwise its letter is left unread. -/
def exponent : List Char → Int × List Char
  | c :: cs =>
    let (negative, body) := sign cs
    let digits := body.takeWhile isDigit
    if (c = 'e' ∨ c = 'E') ∧ digits ≠ [] then
      (if negative then -(power digits : Int) else power digits, body.dropWhile isDigit)
    else (0, c :: cs)
  | [] => (0, [])

/-- The longest numeral that the characters begin with, and the characters after it. -/
def scan (cs : List Char) : Option (Numeral × List Char) :=
  let (negative, body) := sign cs
  let word := "Infinity".toList
  if word.isPrefixOf body then some (.infinity negative, body.drop word.length)
  else
    let whole := body.takeWhile isDigit
    let (fraction, rest) := match body.dropWhile isDigit with
      | '.' :: cs => (cs.takeWhile isDigit, cs.dropWhile isDigit)
      | cs => ([], cs)
    if whole = [] ∧ fraction = [] then none
    else
      let (e, rest) := exponent rest
      some (.decimal negative whole fraction e, rest)

def value : Numeral → Double
  | infinity negative => ⟨negative, Double.infinityRank⟩
  | decimal negative whole fraction e =>
    ⟨negative, Double.nearestDecimal (natural (whole ++ fraction)) (e - fraction.length)⟩

def leading (s : String) : Option Double :=
  (scan (Text.dropSpaces s.toList)).map fun (n, _) => n.value

end Numeral

end BranchingTimeline
