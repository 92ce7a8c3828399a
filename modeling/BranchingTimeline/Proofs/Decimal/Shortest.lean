import BranchingTimeline.Decimal.Shortest
import BranchingTimeline.Proofs.Decimal.Rounding

namespace BranchingTimeline.Double

structure Rounding.Contains (i : Rounding) (x : ℚ) : Prop where
  low : i.low * 2 ^ i.unit < x ∨ i.closed = true ∧ i.low * 2 ^ i.unit = x
  high : x < i.high * 2 ^ i.unit ∨ i.closed = true ∧ x = i.high * 2 ^ i.unit

section Interval

variable {rank : Nat}

def multiple (rank r : Nat) : Nat :=
  significand r * 2 ^ (exponent r - (exponent rank - 1)).toNat

theorem multiple_value {r : Nat} (h : exponent rank - 1 ≤ exponent r) :
    (multiple rank r : ℚ) * 2 ^ (exponent rank - 1) = magnitude r := by
  have he : exponent r = ((exponent r - (exponent rank - 1)).toNat : ℤ) + (exponent rank - 1) := by omega
  have hpow : (2 : ℚ) ^ exponent r =
      2 ^ (exponent r - (exponent rank - 1)).toNat * 2 ^ (exponent rank - 1) := by
    rw [← zpow_natCast, ← zpow_add₀ two_ne_zero, ← he]
  rw [magnitude, multiple, hpow]
  push_cast
  ring

theorem rounding_eq (rank : Nat) :
    rounding rank =
      ⟨multiple rank (rank - 1) + multiple rank rank, 2 * multiple rank rank,
        multiple rank rank + multiple rank (rank + 1), rank % 2 = 0, exponent rank - 1 - 1⟩ := rfl

theorem rounding_value (h : 0 < rank) :
    2 * ((rounding rank).low * 2 ^ (rounding rank).unit : ℚ) = magnitude (rank - 1) + magnitude rank ∧
      ((rounding rank).value * 2 ^ (rounding rank).unit : ℚ) = magnitude rank ∧
      2 * ((rounding rank).high * 2 ^ (rounding rank).unit : ℚ) = magnitude rank + magnitude (rank + 1) := by
  have hunit : (2 : ℚ) ^ (exponent rank - 1) = 2 ^ (exponent rank - 1 - 1) * 2 := by
    rw [← zpow_add_one₀ two_ne_zero, sub_add_cancel]
  have hpow : Nat.pow 2 52 = 2 ^ 52 := rfl
  have hprev := @multiple_value rank (rank - 1) (by simp only [exponent, hpow]; omega)
  have hown := @multiple_value rank rank (by omega)
  have hnext := @multiple_value rank (rank + 1) (by simp only [exponent, hpow]; omega)
  rw [rounding_eq, ← hprev, ← hown, ← hnext, hunit]
  push_cast
  refine ⟨?_, ?_, ?_⟩ <;> ring

theorem isNearest_of_contains {x : ℚ} (h : 0 < rank) (hr : rank ≤ infinityRank)
    (hx : (rounding rank).Contains x) : IsNearest x rank := by
  obtain ⟨hlow, -, hhigh⟩ := rounding_value h
  have hclosed : (rounding rank).closed = true → rank % 2 = 0 := of_decide_eq_true
  refine isNearest_of_middles hr ?_ ?_
  · intro r hlt
    have hle : magnitude r ≤ magnitude (rank - 1) := magnitude_strictMono.monotone (by omega)
    rcases hx.low with hx | ⟨hc, hx⟩
    · exact .inl (by linarith)
    · exact (by linarith : magnitude r + magnitude rank ≤ 2 * x).lt_or_eq.imp_right fun he => ⟨he, hclosed hc⟩
  · intro r hlt
    have hle : magnitude (rank + 1) ≤ magnitude r := magnitude_strictMono.monotone hlt
    rcases hx.high with hx | ⟨hc, hx⟩
    · exact .inl (by linarith)
    · exact (by linarith : 2 * x ≤ magnitude rank + magnitude r).lt_or_eq.imp_right
        fun he => ⟨he.symm, hclosed hc⟩

end Interval

section Grid

variable {i : Rounding} {k : ℤ} {n : Nat}

def Rounding.step (i : Rounding) (k : ℤ) : Nat := 10 ^ k.toNat * 2 ^ (-i.unit).toNat

def Rounding.factor (i : Rounding) (k : ℤ) : Nat := 10 ^ (-k).toNat * 2 ^ i.unit.toNat

theorem Rounding.factor_pos (i : Rounding) (k : ℤ) : 0 < i.factor k := by
  unfold factor
  positivity

theorem Rounding.step_pos (i : Rounding) (k : ℤ) : 0 < i.step k := by
  unfold step
  positivity

theorem Rounding.step_div_factor (i : Rounding) (k : ℤ) :
    (i.step k : ℚ) / i.factor k * 2 ^ i.unit = 10 ^ k := by
  rw [step, factor, zpow_eq_div (by norm_num : (10 : ℚ) ≠ 0) k, zpow_eq_div two_ne_zero i.unit]
  push_cast
  field_simp

theorem Rounding.point_eq (i : Rounding) (k : ℤ) (n : Nat) :
    (n * 10 ^ k : ℚ) = ((n * i.step k : Nat) : ℚ) / i.factor k * 2 ^ i.unit := by
  rw [← i.step_div_factor k]
  push_cast
  ring

theorem Rounding.end_eq (i : Rounding) (k : ℤ) (a : Nat) :
    (a * 2 ^ i.unit : ℚ) = ((a * i.factor k : Nat) : ℚ) / i.factor k * 2 ^ i.unit := by
  have hpos : (0 : ℚ) < i.factor k := by exact_mod_cast i.factor_pos k
  push_cast
  field_simp

theorem Rounding.contains_point (hlow : i.low * i.factor k < n * i.step k ∨
      i.closed = true ∧ i.low * i.factor k = n * i.step k)
    (hhigh : n * i.step k < i.high * i.factor k ∨
      i.closed = true ∧ n * i.step k = i.high * i.factor k) : i.Contains (n * 10 ^ k) := by
  have hfactor : (0 : ℚ) < i.factor k := by exact_mod_cast i.factor_pos k
  have hunit : (0 : ℚ) < 2 ^ i.unit := by positivity
  have hlt : ∀ a b : Nat, a < b →
      (a : ℚ) / i.factor k * 2 ^ i.unit < (b : ℚ) / i.factor k * 2 ^ i.unit := by
    intro a b hab
    have hcast : (a : ℚ) < b := by exact_mod_cast hab
    exact mul_lt_mul_of_pos_right (div_lt_div_of_pos_right hcast hfactor) hunit
  rw [i.point_eq k n]
  constructor
  · rw [i.end_eq k i.low]
    rcases hlow with h | ⟨hc, h⟩
    · exact .inl (hlt _ _ h)
    · exact .inr ⟨hc, by rw [h]⟩
  · rw [i.end_eq k i.high]
    rcases hhigh with h | ⟨hc, h⟩
    · exact .inl (hlt _ _ h)
    · exact .inr ⟨hc, by rw [h]⟩

theorem Rounding.onGrid_eq (i : Rounding) (k : ℤ) :
    i.onGrid k =
      let below := i.value * i.factor k / i.step k
      let rest := i.value * i.factor k % i.step k
      let fitsBelow := i.low * i.factor k < below * i.step k ||
        (i.closed && i.low * i.factor k == below * i.step k)
      let fitsAbove := (below + 1) * i.step k < i.high * i.factor k ||
        (i.closed && (below + 1) * i.step k == i.high * i.factor k)
      let nearer :=
        if 2 * rest < i.step k then below
        else if 2 * rest = i.step k then below + below % 2 else below + 1
      match fitsBelow, fitsAbove with
      | true, true => some nearer
      | true, false => some below
      | false, true => some (below + 1)
      | false, false => none := rfl

/-- A point that is chosen lies in the interval: it is next to the value, on the side on which the grid
reaches into the interval. -/
theorem Rounding.contains_of_onGrid (hlow : i.low < i.value) (hhigh : i.value < i.high)
    (h : i.onGrid k = some n) : i.Contains (n * 10 ^ k) := by
  have hfactor := i.factor_pos k
  have hl : i.low * i.factor k < i.value * i.factor k := Nat.mul_lt_mul_of_pos_right hlow hfactor
  have hh : i.value * i.factor k < i.high * i.factor k := Nat.mul_lt_mul_of_pos_right hhigh hfactor
  have hbelow : i.value * i.factor k / i.step k * i.step k ≤ i.value * i.factor k := Nat.div_mul_le_self _ _
  have habove : i.value * i.factor k < (i.value * i.factor k / i.step k + 1) * i.step k := by
    rw [Nat.mul_comm (_ + 1)]
    exact Nat.lt_mul_div_succ _ (i.step_pos k)
  rw [onGrid_eq] at h
  generalize i.value * i.factor k / i.step k = below at h hbelow habove
  have hchoice : n = below ∧ (i.low * i.factor k < below * i.step k ∨
        i.closed = true ∧ i.low * i.factor k = below * i.step k) ∨
      n = below + 1 ∧ ((below + 1) * i.step k < i.high * i.factor k ∨
        i.closed = true ∧ (below + 1) * i.step k = i.high * i.factor k) := by
    simp only at h
    split at h
    · rename_i hb ha
      simp only [Bool.or_eq_true, decide_eq_true_eq, Bool.and_eq_true, beq_iff_eq] at hb ha
      have hn : n = below ∨ n = below + 1 := by
        rw [Option.some.injEq] at h
        rw [← h]
        split <;> [skip; split] <;> omega
      exact hn.imp (⟨·, hb⟩) (⟨·, ha⟩)
    · rename_i hb ha
      simp only [Bool.or_eq_true, decide_eq_true_eq, Bool.and_eq_true, beq_iff_eq] at hb
      exact .inl ⟨(Option.some.inj h).symm, hb⟩
    · rename_i hb ha
      simp only [Bool.or_eq_true, decide_eq_true_eq, Bool.and_eq_true, beq_iff_eq] at ha
      exact .inr ⟨(Option.some.inj h).symm, ha⟩
    · cases h
  rcases hchoice with ⟨rfl, hb⟩ | ⟨rfl, ha⟩
  · exact contains_point hb (.inl (hbelow.trans_lt hh))
  · exact contains_point (.inl (hl.trans habove)) ha

theorem Rounding.onGrid_ne_none (hlow : i.low < i.value)
    (h : (10 : ℚ) ^ k ≤ (i.value - i.low : Nat) * 2 ^ i.unit) : i.onGrid k ≠ none := by
  have hstep : i.step k ≤ (i.value - i.low) * i.factor k := by
    have hunit : (0 : ℚ) < 2 ^ i.unit := by positivity
    have hfactor : (0 : ℚ) < i.factor k := by exact_mod_cast i.factor_pos k
    rw [← i.step_div_factor k, i.end_eq k] at h
    exact_mod_cast (div_le_div_iff_of_pos_right hfactor).mp (le_of_mul_le_mul_right h hunit)
  have habove : i.value * i.factor k < i.value * i.factor k / i.step k * i.step k + i.step k := by
    have hlt := Nat.lt_mul_div_succ (i.value * i.factor k) (i.step_pos k)
    rwa [Nat.mul_comm (i.step k), Nat.succ_mul] at hlt
  have hfits : i.low * i.factor k < i.value * i.factor k / i.step k * i.step k := by
    rw [Nat.sub_mul] at hstep
    have hl : i.low * i.factor k < i.value * i.factor k := Nat.mul_lt_mul_of_pos_right hlow (i.factor_pos k)
    omega
  rw [onGrid_eq]
  simp only [hfits, decide_true, Bool.true_or]
  split <;> simp_all

theorem Rounding.coarsest_onGrid {steps : Nat} (h : ∃ j : Nat, j < steps ∧ i.onGrid (k - j) ≠ none) :
    i.onGrid (i.coarsest k steps).2 = some (i.coarsest k steps).1 := by
  induction steps generalizing k with
  | zero =>
      obtain ⟨j, hj, -⟩ := h
      omega
  | succ steps ih =>
      rw [coarsest]
      cases hk : i.onGrid k with
      | some n => exact hk
      | none =>
          obtain ⟨j, hj, hpoint⟩ := h
          cases j with
          | zero =>
              rw [Nat.cast_zero, sub_zero] at hpoint
              exact absurd hk hpoint
          | succ j =>
              apply ih
              refine ⟨j, by omega, ?_⟩
              rwa [show k - 1 - (j : ℤ) = k - (j + 1 : Nat) by omega]

end Grid

section Search

variable {rank : Nat}

def finest (unit : ℤ) : ℤ := (55 + unit) * 30103 / 100000 - 18

theorem finest_table : (List.range 2048).all (fun u =>
    10 ^ (finest (u - 1076)).toNat * 2 ^ (-((u : ℤ) - 1076)).toNat ≤
      2 ^ ((u : ℤ) - 1076).toNat * 10 ^ (-finest (u - 1076)).toNat) = true := by
  decide +kernel

theorem finest_le {unit : ℤ} (hlow : -1076 ≤ unit) (hhigh : unit < 972) :
    (10 : ℚ) ^ finest unit ≤ 2 ^ unit := by
  have htable := List.all_eq_true.mp finest_table (unit + 1076).toNat (by simp; omega)
  have hunit : (((unit + 1076).toNat : Nat) : ℤ) - 1076 = unit := by omega
  rw [hunit, decide_eq_true_eq] at htable
  rw [zpow_eq_div (by norm_num : (10 : ℚ) ≠ 0), zpow_eq_div two_ne_zero,
    div_le_div_iff₀ (by positivity) (by positivity)]
  exact_mod_cast htable

theorem significand_lt (rank : Nat) : significand rank < 2 ^ 53 := by
  have hpow : Nat.pow 2 52 = 2 ^ 52 := rfl
  simp only [significand, hpow]
  split <;> omega

theorem rounding_ordered (h : 0 < rank) :
    (rounding rank).low < (rounding rank).value ∧ (rounding rank).value < (rounding rank).high := by
  obtain ⟨hlow, hvalue, hhigh⟩ := rounding_value h
  have hunit : (0 : ℚ) < 2 ^ (rounding rank).unit := by positivity
  have hprev : magnitude (rank - 1) < magnitude rank := magnitude_strictMono (by omega)
  have hnext : magnitude rank < magnitude (rank + 1) := magnitude_strictMono (by omega)
  constructor
  · have hlt : ((rounding rank).low * 2 ^ (rounding rank).unit : ℚ) <
        (rounding rank).value * 2 ^ (rounding rank).unit := by linarith
    exact_mod_cast lt_of_mul_lt_mul_right hlt hunit.le
  · have hlt : ((rounding rank).value * 2 ^ (rounding rank).unit : ℚ) <
        (rounding rank).high * 2 ^ (rounding rank).unit := by linarith
    exact_mod_cast lt_of_mul_lt_mul_right hlt hunit.le

def coarsestGrid (i : Rounding) : ℤ := ((i.value.log2 : ℤ) + 1 + i.unit) * 30103 / 100000 + 1

theorem shortest_eq (rank : Nat) :
    shortest rank = (rounding rank).coarsest (coarsestGrid (rounding rank)) 20 := rfl

theorem unit_range (hr : rank < infinityRank) :
    -1076 ≤ (rounding rank).unit ∧ (rounding rank).unit < 972 := by
  have hpow : Nat.pow 2 52 = 2 ^ 52 := rfl
  have hinfinity : infinityRank = 2047 * 2 ^ 52 := rfl
  rw [rounding_eq]
  simp only [exponent, hpow]
  omega

theorem log2_value (rank : Nat) : (rounding rank).value.log2 < 55 := by
  have hs := significand_lt rank
  have hvalue : (rounding rank).value = 2 * (significand rank * 2 ^ 1) := by
    have hown : multiple rank rank = significand rank * 2 ^ 1 := by
      rw [multiple, sub_sub_cancel, Int.toNat_one]
    rw [rounding_eq, hown]
  by_cases hzero : (rounding rank).value = 0
  · rw [hzero, Nat.log2_zero]
    omega
  · rw [Nat.log2_lt hzero, hvalue]
    omega

theorem shortest_contains (h : 0 < rank) (hr : rank < infinityRank) :
    (rounding rank).Contains ((shortest rank).1 * 10 ^ (shortest rank).2) := by
  obtain ⟨hlow, hhigh⟩ := rounding_ordered h
  obtain ⟨hleast, hmost⟩ := unit_range hr
  have hlog := log2_value rank
  rw [shortest_eq]
  generalize rounding rank = i at *
  have hgap : (1 : ℚ) ≤ (i.value - i.low : Nat) := by
    exact_mod_cast (by omega : 1 ≤ i.value - i.low)
  have hfine : coarsestGrid i - (19 : Nat) ≤ finest i.unit := by
    simp only [coarsestGrid, finest]
    omega
  have hpoint : i.onGrid (coarsestGrid i - (19 : Nat)) ≠ none := by
    apply Rounding.onGrid_ne_none hlow
    calc (10 : ℚ) ^ (coarsestGrid i - (19 : Nat)) ≤ 10 ^ finest i.unit :=
          zpow_le_zpow_right₀ (by norm_num) hfine
      _ ≤ 2 ^ i.unit := finest_le hleast hmost
      _ ≤ (i.value - i.low : Nat) * 2 ^ i.unit := le_mul_of_one_le_left (by positivity) hgap
  exact Rounding.contains_of_onGrid hlow hhigh (Rounding.coarsest_onGrid ⟨19, by omega, hpoint⟩)

/-- The digits that a double is written with read back as it. -/
theorem isNearest_shortest (h : 0 < rank) (hr : rank < infinityRank) :
    IsNearest ((shortest rank).1 * 10 ^ (shortest rank).2) rank :=
  isNearest_of_contains h hr.le (shortest_contains h hr)

theorem shortest_pos (h : 0 < rank) (hr : rank < infinityRank) : 0 < (shortest rank).1 := by
  have hbelow := (shortest_contains h hr).low
  obtain ⟨hlow, -, -⟩ := rounding_value h
  have hprev : 0 ≤ magnitude (rank - 1) := by
    rw [← magnitude_zero]
    exact magnitude_strictMono.monotone (Nat.zero_le _)
  have hown : 0 < magnitude rank := by
    rw [← magnitude_zero]
    exact magnitude_strictMono h
  by_contra hzero
  rw [Nat.eq_zero_of_not_pos hzero, Nat.cast_zero, zero_mul] at hbelow
  rcases hbelow with hlt | ⟨-, heq⟩ <;> linarith

end Search

end BranchingTimeline.Double
