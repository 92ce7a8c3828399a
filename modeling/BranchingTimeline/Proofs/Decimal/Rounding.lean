import Mathlib.Algebra.Order.Field.Rat
import Mathlib.Algebra.Order.Field.Power
import Mathlib.Data.Rat.Cast.Order
import Mathlib.Order.Monotone.Basic
import Mathlib.Tactic.FieldSimp
import Mathlib.Tactic.Linarith
import Mathlib.Tactic.NormNum
import Mathlib.Tactic.Positivity
import Mathlib.Tactic.Ring
import BranchingTimeline.Decimal.Double

namespace BranchingTimeline.Double

/-- The number that a rank stands for. Infinity stands where the next double would be. -/
def magnitude (rank : Nat) : ℚ := significand rank * 2 ^ exponent rank

section Grid

variable {k q : Nat}

theorem magnitude_grid (hq : q ≤ 2 ^ 53) (hk : k = 0 ∨ 2 ^ 52 ≤ q) :
    magnitude (k * 2 ^ 52 + q) = q * 2 ^ ((k : ℤ) - 1074) := by
  have hpow : Nat.pow 2 52 = 2 ^ 52 := rfl
  by_cases hfull : q = 2 ^ 53
  · have hs : significand (k * 2 ^ 52 + q) = 2 ^ 52 := by
      simp only [significand, hpow]
      split <;> omega
    have he : exponent (k * 2 ^ 52 + q) = (k : ℤ) - 1074 + 1 := by
      simp only [exponent, hpow]
      omega
    rw [magnitude, hs, he, zpow_add_one₀ two_ne_zero, hfull]
    push_cast
    ring
  · have hs : significand (k * 2 ^ 52 + q) = q := by
      simp only [significand, hpow]
      split <;> omega
    have he : exponent (k * 2 ^ 52 + q) = (k : ℤ) - 1074 := by
      simp only [exponent, hpow]
      omega
    rw [magnitude, hs, he]

theorem le_magnitude_succ (hq : q ≤ 2 ^ 53) (hk : k = 0 ∨ 2 ^ 52 ≤ q) :
    (q + 1) * 2 ^ ((k : ℤ) - 1074) ≤ magnitude (k * 2 ^ 52 + q + 1) := by
  by_cases hfull : q = 2 ^ 53
  · have hnext := magnitude_grid (k := k + 1) (q := 2 ^ 52 + 1) (by omega) (.inr (by omega))
    have hrank : k * 2 ^ 52 + q + 1 = (k + 1) * 2 ^ 52 + (2 ^ 52 + 1) := by omega
    have he : ((k + 1 : Nat) : ℤ) - 1074 = (k : ℤ) - 1074 + 1 := by omega
    have hunit : (0 : ℚ) < 2 ^ ((k : ℤ) - 1074) := by positivity
    rw [hrank, hnext, he, zpow_add_one₀ two_ne_zero, hfull]
    push_cast
    linarith
  · rw [Nat.add_assoc, magnitude_grid (by omega) (by omega)]
    push_cast
    exact le_rfl

theorem exists_grid (rank : Nat) :
    ∃ k q, rank = k * 2 ^ 52 + q ∧ q < 2 ^ 53 ∧ (k = 0 ∨ 2 ^ 52 ≤ q) := by
  refine ⟨rank / 2 ^ 52 - 1, rank - (rank / 2 ^ 52 - 1) * 2 ^ 52, ?_, ?_, ?_⟩ <;> omega

theorem magnitude_strictMono : StrictMono magnitude := by
  apply strictMono_nat_of_lt_succ
  intro rank
  obtain ⟨k, q, rfl, hq, hk⟩ := exists_grid rank
  rw [Nat.add_assoc, magnitude_grid hq.le hk, magnitude_grid hq (by omega)]
  have hunit : (0 : ℚ) < 2 ^ ((k : ℤ) - 1074) := by positivity
  push_cast
  nlinarith

theorem magnitude_zero : magnitude 0 = 0 := by
  have h := magnitude_grid (k := 0) (q := 0) (by omega) (.inl rfl)
  simpa using h

theorem magnitude_one : magnitude 1 = 2 ^ (-1074 : ℤ) := by
  have h := magnitude_grid (k := 0) (q := 1) (by omega) (.inl rfl)
  simpa using h

theorem magnitude_infinityRank : magnitude infinityRank = 2 ^ (1024 : ℤ) := by
  have h := magnitude_grid (k := 2046) (q := 2 ^ 52) (by omega) (.inr le_rfl)
  have hrank : infinityRank = 2046 * 2 ^ 52 + 2 ^ 52 := rfl
  rw [hrank, h, Nat.cast_pow, Nat.cast_ofNat, ← zpow_natCast, ← zpow_add₀ two_ne_zero]
  rfl

end Grid

/-- The rank is that of the double nearest to a number, and the even one where two are as near. -/
structure IsNearest (x : ℚ) (rank : Nat) : Prop where
  le : rank ≤ infinityRank
  nearest : ∀ r ≤ infinityRank, r ≠ rank →
    |x - magnitude rank| < |x - magnitude r| ∨
      |x - magnitude rank| = |x - magnitude r| ∧ rank % 2 = 0

section Nearest

variable {x : ℚ} {rank : Nat}

theorem nearer_above {a b : ℚ} (hab : a < b) (h : a + b < 2 * x) : |x - b| < |x - a| := by
  rw [abs_of_pos (by linarith : 0 < x - a), abs_lt]
  constructor <;> linarith

theorem nearer_below {a b : ℚ} (hab : a < b) (h : 2 * x < a + b) : |x - a| < |x - b| := by
  rw [abs_of_neg (by linarith : x - b < 0), abs_lt]
  constructor <;> linarith

theorem as_near {a b : ℚ} (h : a + b = 2 * x) : |x - a| = |x - b| := by
  have hneg : x - a = -(x - b) := by linarith
  rw [hneg, abs_neg]

theorem IsNearest.le_dist {r : Nat} (h : IsNearest x rank) (hr : r ≤ infinityRank) :
    |x - magnitude rank| ≤ |x - magnitude r| := by
  by_cases hne : r = rank
  · rw [hne]
  · exact (h.nearest r hr hne).elim le_of_lt fun he => he.1.le

/-- Two doubles that are as near have another one between them, or only one of them is even. -/
theorem IsNearest.unique {a b : Nat} (ha : IsNearest x a) (hb : IsNearest x b) : a = b := by
  wlog hab : a ≤ b generalizing a b
  · exact (this hb ha (Nat.le_of_not_le hab)).symm
  by_contra hne
  have hdist : |x - magnitude a| = |x - magnitude b| :=
    le_antisymm (ha.le_dist hb.le) (hb.le_dist ha.le)
  have heven : a % 2 = 0 := (ha.nearest b hb.le (Ne.symm hne)).elim (fun h => absurd hdist h.ne) And.right
  have heven' : b % 2 = 0 := (hb.nearest a ha.le hne).elim (fun h => absurd hdist.symm h.ne) And.right
  have hlow : magnitude a < magnitude (a + 1) := magnitude_strictMono (by omega)
  have hhigh : magnitude (a + 1) < magnitude b := magnitude_strictMono (by omega)
  have hbetween := ha.le_dist (r := a + 1) (by have := hb.le; omega)
  have hmiddle : x - magnitude a = -(x - magnitude b) := by
    rcases abs_eq_abs.mp hdist with h | h
    · linarith
    · exact h
  have hlt : |x - magnitude (a + 1)| < |x - magnitude a| := nearer_above hlow (by linarith)
  linarith

theorem isNearest_of_middles (hle : rank ≤ infinityRank)
    (hbelow : ∀ r < rank, magnitude r + magnitude rank < 2 * x ∨
      magnitude r + magnitude rank = 2 * x ∧ rank % 2 = 0)
    (habove : ∀ r, rank < r → 2 * x < magnitude rank + magnitude r ∨
      magnitude rank + magnitude r = 2 * x ∧ rank % 2 = 0) : IsNearest x rank where
  le := hle
  nearest r _ hne := by
    rcases Nat.lt_or_gt_of_ne hne with hlt | hgt
    · rcases hbelow r hlt with h | ⟨h, heven⟩
      · exact .inl (nearer_above (magnitude_strictMono hlt) h)
      · exact .inr ⟨(as_near h).symm, heven⟩
    · rcases habove r hgt with h | ⟨h, heven⟩
      · exact .inl (nearer_below (magnitude_strictMono hgt) h)
      · exact .inr ⟨as_near h, heven⟩

theorem isNearest_zero (h : 2 * x < magnitude 1) : IsNearest x 0 := by
  refine isNearest_of_middles (Nat.zero_le _) (by omega) ?_
  intro r hr
  have hle : magnitude 1 ≤ magnitude r := magnitude_strictMono.monotone hr
  rw [magnitude_zero]
  exact .inl (by linarith)

theorem isNearest_zero_zero : IsNearest 0 0 := by
  apply isNearest_zero
  rw [magnitude_one]
  norm_num

theorem isNearest_infinityRank (h : magnitude infinityRank ≤ x) : IsNearest x infinityRank where
  le := le_rfl
  nearest r hr hne := by
    have hlt : magnitude r < magnitude infinityRank := magnitude_strictMono (by omega)
    exact .inl (nearer_above hlt (by linarith))

end Nearest

section Quotient

theorem roundDiv_near {num den : Nat} (h : 0 < den) :
    |(num / den : ℚ) - roundDiv num den| < 1 / 2 ∨
      |(num / den : ℚ) - roundDiv num den| = 1 / 2 ∧ roundDiv num den % 2 = 0 := by
  have hden : (0 : ℚ) < den := by exact_mod_cast h
  have hquotient : (num / den : ℚ) = (num / den : Nat) + (num % den : Nat) / den := by
    rw [add_div_eq_mul_add_div _ _ hden.ne', div_left_inj' hden.ne']
    exact_mod_cast (Nat.div_add_mod' num den).symm
  have hrest : ((num % den : Nat) / den : ℚ) < 1 := by
    rw [div_lt_one hden]
    exact_mod_cast Nat.mod_lt num h
  have hpos : (0 : ℚ) ≤ (num % den : Nat) / den := by positivity
  rw [hquotient]
  simp only [roundDiv]
  split
  · rename_i hr
    have hlt : ((num % den : Nat) / den : ℚ) < 1 / 2 := by
      rw [div_lt_div_iff₀ hden two_pos]
      exact_mod_cast (by omega : num % den * 2 < 1 * den)
    left
    rw [add_sub_cancel_left, abs_of_nonneg hpos]
    exact hlt
  · split
    · rename_i hr
      have heq : ((num % den : Nat) / den : ℚ) = 1 / 2 := by
        rw [div_eq_div_iff hden.ne' two_ne_zero]
        exact_mod_cast (by omega : num % den * 2 = 1 * den)
      right
      refine ⟨?_, by omega⟩
      rw [heq]
      rcases Nat.mod_two_eq_zero_or_one (num / den) with heven | hodd
      · norm_num [heven]
      · rw [hodd]
        push_cast
        norm_num
    · rename_i hlt hne
      have hgt : 1 / 2 < ((num % den : Nat) / den : ℚ) := by
        rw [div_lt_div_iff₀ two_pos hden]
        exact_mod_cast (by omega : 1 * den < num % den * 2)
      left
      rw [abs_lt]
      push_cast
      constructor <;> linarith

theorem sides_of_near {t : ℚ} {q : Nat}
    (h : |t - q| < 1 / 2 ∨ |t - q| = 1 / 2 ∧ q % 2 = 0) :
    (2 * q - 1 < 2 * t ∨ 2 * q - 1 = 2 * t ∧ q % 2 = 0) ∧
      (2 * t < 2 * q + 1 ∨ 2 * t = 2 * q + 1 ∧ q % 2 = 0) := by
  rcases h with h | ⟨h, heven⟩
  · obtain ⟨hlow, hhigh⟩ := abs_lt.mp h
    exact ⟨.inl (by linarith), .inl (by linarith)⟩
  · rcases (abs_eq (by norm_num)).mp h with h | h
    · exact ⟨.inl (by linarith), .inr ⟨by linarith, heven⟩⟩
    · exact ⟨.inr ⟨by linarith, heven⟩, .inl (by linarith)⟩

section Unit

variable {x t : ℚ} {k q : Nat}

theorem middles_below (hx : x = t * 2 ^ ((k : ℤ) - 1074)) (hlow : k = 0 ∨ 2 ^ 52 ≤ t)
    (hq : q ≤ 2 ^ 53) (hk : k = 0 ∨ 2 ^ 52 ≤ q)
    (hbelow : 2 * q - 1 < 2 * t ∨ 2 * q - 1 = 2 * t ∧ q % 2 = 0) {r : Nat}
    (hr : r < k * 2 ^ 52 + q) :
    magnitude r + magnitude (k * 2 ^ 52 + q) < 2 * x ∨
      magnitude r + magnitude (k * 2 ^ 52 + q) = 2 * x ∧ (k * 2 ^ 52 + q) % 2 = 0 := by
  have hunit : (0 : ℚ) < 2 ^ ((k : ℤ) - 1074) := by positivity
  have hparity : (k * 2 ^ 52 + q) % 2 = q % 2 := by omega
  rw [hparity, magnitude_grid hq hk, hx]
  by_cases hgrid : k = 0 ∨ 2 ^ 52 < q
  · have hprev := magnitude_grid (k := k) (q := q - 1) (by omega) (by omega)
    rw [Nat.cast_sub (by omega), Nat.cast_one] at hprev
    have hnext : magnitude r ≤ magnitude (k * 2 ^ 52 + (q - 1)) :=
      magnitude_strictMono.monotone (by omega)
    rw [hprev] at hnext
    rcases hbelow with h | ⟨h, heven⟩
    · left
      nlinarith
    · have hle : magnitude r + q * 2 ^ ((k : ℤ) - 1074) ≤ 2 * (t * 2 ^ ((k : ℤ) - 1074)) := by
        nlinarith
      exact hle.lt_or_eq.imp_right fun he => ⟨he, heven⟩
  · have ht : (q : ℚ) ≤ t := by
      have heq : q = 2 ^ 52 := by omega
      rw [heq]
      exact_mod_cast hlow.resolve_left (by omega)
    have hmul := mul_le_mul_of_nonneg_right ht hunit.le
    have hlt := magnitude_strictMono hr
    rw [magnitude_grid hq hk] at hlt
    left
    linarith

theorem middles_above (hx : x = t * 2 ^ ((k : ℤ) - 1074)) (hq : q ≤ 2 ^ 53)
    (hk : k = 0 ∨ 2 ^ 52 ≤ q) (habove : 2 * t < 2 * q + 1 ∨ 2 * t = 2 * q + 1 ∧ q % 2 = 0) {r : Nat}
    (hr : k * 2 ^ 52 + q < r) :
    2 * x < magnitude (k * 2 ^ 52 + q) + magnitude r ∨
      magnitude (k * 2 ^ 52 + q) + magnitude r = 2 * x ∧ (k * 2 ^ 52 + q) % 2 = 0 := by
  have hunit : (0 : ℚ) < 2 ^ ((k : ℤ) - 1074) := by positivity
  have hparity : (k * 2 ^ 52 + q) % 2 = q % 2 := by omega
  have hnext : (q + 1) * 2 ^ ((k : ℤ) - 1074) ≤ magnitude r :=
    (le_magnitude_succ hq hk).trans (magnitude_strictMono.monotone hr)
  rw [hparity, magnitude_grid hq hk, hx]
  rcases habove with h | ⟨h, heven⟩
  · left
    nlinarith
  · have hle : 2 * (t * 2 ^ ((k : ℤ) - 1074)) ≤ q * 2 ^ ((k : ℤ) - 1074) + magnitude r := by
      nlinarith
    exact hle.lt_or_eq.imp_right fun he => ⟨he.symm, heven⟩

/-- A number of at most 53 bits in units of `2 ^ (k - 1074)`, and of all 53 unless these are the least, is
nearest to the double that it rounds to. -/
theorem isNearest_rounded (hx : x = t * 2 ^ ((k : ℤ) - 1074)) (hlow : k = 0 ∨ 2 ^ 52 ≤ t)
    (hhigh : t ≤ 2 ^ 53) (hnear : |t - q| < 1 / 2 ∨ |t - q| = 1 / 2 ∧ q % 2 = 0) :
    IsNearest x (min (k * 2 ^ 52 + q) infinityRank) := by
  obtain ⟨hbelow, habove⟩ := sides_of_near hnear
  have hq : q ≤ 2 ^ 53 := by
    have hlt : (q : ℚ) < (2 ^ 53 + 1 : Nat) := by
      push_cast
      rcases hbelow with h | h <;> linarith
    exact Nat.lt_succ_iff.mp (by exact_mod_cast hlt)
  have hk : k = 0 ∨ 2 ^ 52 ≤ q := by
    refine hlow.imp_right ?_
    intro ht
    have hlt : ((2 ^ 52 : Nat) : ℚ) < (q + 1 : Nat) := by
      push_cast
      rcases habove with h | h <;> linarith
    exact Nat.lt_succ_iff.mp (by exact_mod_cast hlt)
  by_cases hle : k * 2 ^ 52 + q ≤ infinityRank
  · rw [min_eq_left hle]
    exact isNearest_of_middles hle (fun _ => middles_below hx hlow hq hk hbelow)
      fun _ => middles_above hx hq hk habove
  · have hlt : infinityRank < k * 2 ^ 52 + q := by omega
    have hmagnitude := magnitude_strictMono hlt
    rw [min_eq_right hlt.le]
    apply isNearest_infinityRank
    rcases middles_below hx hlow hq hk hbelow hlt with h | ⟨h, -⟩ <;> linarith

end Unit

theorem zpow_eq_div {b : ℚ} (hb : b ≠ 0) (e : ℤ) : b ^ e = b ^ e.toNat / b ^ (-e).toNat := by
  rw [← zpow_natCast, ← zpow_natCast, ← zpow_sub₀ hb]
  congr 1
  omega

theorem inUnits_value (num den : Nat) (e : ℤ) :
    (num / den : ℚ) = ((inUnits num den e).1 / (inUnits num den e).2 : ℚ) * 2 ^ e := by
  have hpow (n : Nat) : Nat.pow 2 n = 2 ^ n := rfl
  rw [inUnits, hpow, hpow, zpow_eq_div two_ne_zero]
  push_cast
  field_simp

theorem inUnits_pos (num : Nat) {den : Nat} (h : 0 < den) (e : ℤ) : 0 < (inUnits num den e).2 :=
  Nat.mul_pos h (Nat.two_pow_pos _)

theorem lt_inUnits_iff (num : Nat) {den : Nat} (h : 0 < den) (e : ℤ) :
    (inUnits num den e).1 < (inUnits num den e).2 * Nat.pow 2 52 ↔
      (num / den : ℚ) < 2 ^ (e + 52) := by
  have hpow : Nat.pow 2 52 = 2 ^ 52 := rfl
  have hpos : (0 : ℚ) < (inUnits num den e).2 := by exact_mod_cast inUnits_pos num h e
  have hunit : (0 : ℚ) < 2 ^ e := by positivity
  rw [inUnits_value num den e, add_comm, zpow_add₀ two_ne_zero, mul_lt_mul_iff_left₀ hunit,
    div_lt_iff₀' hpos, hpow]
  norm_cast

theorem log2_quotient {num den : Nat} (hn : num ≠ 0) (hd : den ≠ 0) :
    (2 : ℚ) ^ ((num.log2 : ℤ) - den.log2 - 1) < num / den ∧
      (num / den : ℚ) < 2 ^ ((num.log2 : ℤ) - den.log2 + 1) := by
  have hnlow : (2 : ℚ) ^ num.log2 ≤ num := by exact_mod_cast Nat.log2_self_le hn
  have hnhigh : (num : ℚ) < 2 ^ (num.log2 + 1) := by exact_mod_cast Nat.lt_log2_self
  have hdlow : (2 : ℚ) ^ den.log2 ≤ den := by exact_mod_cast Nat.log2_self_le hd
  have hdhigh : (den : ℚ) < 2 ^ (den.log2 + 1) := by exact_mod_cast Nat.lt_log2_self
  have hden : (0 : ℚ) < den := by exact_mod_cast Nat.pos_of_ne_zero hd
  constructor
  · have he : (num.log2 : ℤ) - den.log2 - 1 = (num.log2 : ℤ) - (den.log2 + 1 : Nat) := by omega
    rw [he, zpow_sub₀ two_ne_zero, zpow_natCast, zpow_natCast, div_lt_div_iff₀ (by positivity) hden]
    exact mul_lt_mul' hnlow hdhigh hden.le (by positivity)
  · have he : (num.log2 : ℤ) - den.log2 + 1 = (num.log2 + 1 : Nat) - (den.log2 : ℤ) := by omega
    rw [he, zpow_sub₀ two_ne_zero, zpow_natCast, zpow_natCast, div_lt_div_iff₀ hden (by positivity)]
    exact mul_lt_mul hnhigh hdlow (by positivity) (by positivity)

def unitFor (num den : Nat) : Int :=
  let guess : Int := (num.log2 : Int) - den.log2 - 52
  let scaled := inUnits num den guess
  max (if scaled.1 < scaled.2 * Nat.pow 2 52 then guess - 1 else guess) (-1074)

theorem nearestRank_eq {num den : Nat} (h : num ≠ 0) :
    nearestRank num den =
      min ((unitFor num den + 1074).toNat * 2 ^ 52 +
        roundDiv (inUnits num den (unitFor num den)).1 (inUnits num den (unitFor num den)).2)
          infinityRank := by
  rw [nearestRank, if_neg h]
  rfl

/-- In its unit a quotient has 53 bits, or fewer where the units are the least. -/
theorem unitFor_spec {num den : Nat} (hn : num ≠ 0) (hd : den ≠ 0) :
    -1074 ≤ unitFor num den ∧ (num / den : ℚ) < 2 ^ (unitFor num den + 53) ∧
      (unitFor num den = -1074 ∨ (2 : ℚ) ^ (unitFor num den + 52) ≤ num / den) := by
  obtain ⟨hlow, hhigh⟩ := log2_quotient hn hd
  simp only [unitFor, lt_inUnits_iff num (Nat.pos_of_ne_zero hd)]
  generalize hguess : (num.log2 : ℤ) - den.log2 - 52 = guess
  rw [show (num.log2 : ℤ) - den.log2 - 1 = guess + 51 by omega] at hlow
  rw [show (num.log2 : ℤ) - den.log2 + 1 = guess + 53 by omega] at hhigh
  have hbits : ∃ unit, (if (num / den : ℚ) < 2 ^ (guess + 52) then guess - 1 else guess) = unit ∧
      (2 : ℚ) ^ (unit + 52) ≤ num / den ∧ (num / den : ℚ) < 2 ^ (unit + 53) := by
    split
    · rename_i hlt
      refine ⟨guess - 1, rfl, ?_, ?_⟩
      · rw [show guess - 1 + 52 = guess + 51 by omega]
        exact hlow.le
      · rwa [show guess - 1 + 53 = guess + 52 by omega]
    · rename_i hle
      exact ⟨guess, rfl, not_lt.mp hle, hhigh⟩
  obtain ⟨unit, hunit, hle, hlt⟩ := hbits
  rw [hunit]
  rcases le_total (-1074) unit with h | h
  · rw [max_eq_left h]
    exact ⟨h, hlt, .inr hle⟩
  · rw [max_eq_right h]
    refine ⟨le_rfl, hlt.trans_le ?_, .inl rfl⟩
    exact zpow_le_zpow_right₀ one_le_two (by omega)

theorem isNearest_nearestRank (num : Nat) {den : Nat} (h : 0 < den) :
    IsNearest (num / den) (nearestRank num den) := by
  by_cases hnum : num = 0
  · rw [nearestRank, if_pos hnum, hnum, Nat.cast_zero, zero_div]
    exact isNearest_zero_zero
  · obtain ⟨hleast, hhigh, hlow⟩ := unitFor_spec hnum h.ne'
    have hk : (((unitFor num den + 1074).toNat : Nat) : ℤ) - 1074 = unitFor num den := by omega
    have hvalue := inUnits_value num den (unitFor num den)
    have hunit : (0 : ℚ) < 2 ^ unitFor num den := by positivity
    rw [nearestRank_eq hnum]
    refine isNearest_rounded (by rw [hk]; exact hvalue) ?_ ?_ (roundDiv_near (inUnits_pos num h _))
    · refine hlow.imp (by omega) ?_
      intro hle
      rw [hvalue, zpow_add₀ two_ne_zero, mul_comm] at hle
      exact_mod_cast le_of_mul_le_mul_right hle hunit
    · rw [hvalue, zpow_add₀ two_ne_zero, mul_comm] at hhigh
      exact_mod_cast (lt_of_mul_lt_mul_left hhigh hunit.le).le

theorem two_pow_le_ten_pow {e : ℤ} (h : 0 ≤ e) : (2 : ℚ) ^ (3 * e) ≤ 10 ^ e := by
  rw [zpow_mul]
  exact zpow_le_zpow_left₀ h (by norm_num) (by norm_num)

theorem ten_pow_le_two_pow {e : ℤ} (h : e ≤ 0) : (10 : ℚ) ^ e ≤ 2 ^ (3 * e) := by
  have hinv := two_pow_le_ten_pow (neg_nonneg.mpr h)
  rw [mul_neg, zpow_neg, zpow_neg] at hinv
  exact (inv_le_inv₀ (by positivity) (by positivity)).mp hinv

theorem isNearest_of_large {coefficient : Nat} {a e : ℤ} (hc : (2 : ℚ) ^ a ≤ coefficient)
    (he : 0 ≤ e) (hlarge : 1024 ≤ a + 3 * e) : IsNearest (coefficient * 10 ^ e) infinityRank := by
  apply isNearest_infinityRank
  calc magnitude infinityRank = 2 ^ (1024 : ℤ) := magnitude_infinityRank
    _ ≤ 2 ^ (a + 3 * e) := zpow_le_zpow_right₀ one_le_two hlarge
    _ = 2 ^ a * 2 ^ (3 * e) := zpow_add₀ two_ne_zero _ _
    _ ≤ coefficient * 10 ^ e :=
      mul_le_mul hc (two_pow_le_ten_pow he) (by positivity) (by positivity)

theorem isNearest_of_small {coefficient places : Nat} {e : ℤ} (hc : coefficient < 10 ^ places)
    (he : places + e ≤ -360) : IsNearest (coefficient * 10 ^ e) 0 := by
  apply isNearest_zero
  have hle : (coefficient : ℚ) ≤ 10 ^ (places : ℤ) := by
    rw [zpow_natCast]
    exact_mod_cast hc.le
  calc 2 * (coefficient * 10 ^ e : ℚ) ≤ 2 * (10 ^ (places : ℤ) * 10 ^ e) := by gcongr
    _ = 2 * 10 ^ (places + e) := by rw [zpow_add₀ (by norm_num)]
    _ ≤ 2 * 2 ^ (3 * (places + e)) := by
      gcongr
      exact ten_pow_le_two_pow (by omega)
    _ = 2 ^ (1 + 3 * (places + e)) := by rw [zpow_add₀ two_ne_zero, zpow_one]
    _ < 2 ^ (-1074 : ℤ) := zpow_lt_zpow_right₀ one_lt_two (by omega)
    _ = magnitude 1 := magnitude_one.symm

theorem isNearest_nearestDecimal (coefficient : Nat) (e : ℤ) :
    IsNearest (coefficient * 10 ^ e) (nearestDecimal coefficient e) := by
  rw [nearestDecimal]
  split
  · rename_i hzero
    rw [hzero, Nat.cast_zero, zero_mul]
    exact isNearest_zero_zero
  rename_i hne
  split
  · rename_i hlarge
    have hlow : (2 : ℚ) ^ (coefficient.log2 : ℤ) ≤ coefficient := by
      rw [zpow_natCast]
      exact_mod_cast Nat.log2_self_le hne
    exact isNearest_of_large hlow hlarge.1 (by omega)
  split
  · rename_i hsmall
    apply isNearest_zero
    have hhigh : (coefficient : ℚ) ≤ 2 ^ ((coefficient.log2 : ℤ) + 1) := by
      rw [← Nat.cast_add_one, zpow_natCast]
      exact_mod_cast Nat.lt_log2_self.le
    calc 2 * (coefficient * 10 ^ e : ℚ)
        ≤ 2 * (2 ^ ((coefficient.log2 : ℤ) + 1) * 2 ^ (3 * e)) := by
          gcongr
          exact ten_pow_le_two_pow (by omega)
      _ = 2 ^ (1 + ((coefficient.log2 : ℤ) + 1 + 3 * e)) := by
          rw [zpow_add₀ two_ne_zero 1, zpow_add₀ two_ne_zero _ (3 * e), zpow_one]
      _ < 2 ^ (-1074 : ℤ) := zpow_lt_zpow_right₀ one_lt_two (by omega)
      _ = magnitude 1 := magnitude_one.symm
  · have hvalue : (coefficient * 10 ^ e : ℚ) =
        (coefficient * Nat.pow 10 e.toNat : Nat) / (Nat.pow 10 (-e).toNat : Nat) := by
      have hpow (n : Nat) : Nat.pow 10 n = 10 ^ n := rfl
      rw [zpow_eq_div (by norm_num), hpow, hpow]
      push_cast
      ring
    rw [hvalue]
    exact isNearest_nearestRank _ (Nat.pow_pos (by norm_num))

end Quotient

end BranchingTimeline.Double
