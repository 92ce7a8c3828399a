import Mathlib.Data.EReal.Operations
import Mathlib.Data.Int.ConditionallyCompleteOrder
import BranchingTimeline.Condition.Evaluation
import BranchingTimeline.Proofs.Decimal.Leading

namespace BranchingTimeline

namespace Double

noncomputable def modulus (rank : Nat) : EReal :=
  if rank < infinityRank then ((magnitude rank : ℝ) : EReal) else ⊤

noncomputable def number (d : Double) : EReal :=
  if d.negative then -modulus d.rank else modulus d.rank

section Order

variable {a b d : Double}

theorem modulus_zero : modulus 0 = 0 := by
  rw [modulus, if_pos (by decide), magnitude_zero, Rat.cast_zero, EReal.coe_zero]

theorem modulus_strictMonoOn : StrictMonoOn modulus (Set.Iic infinityRank) := by
  intro m _ n hn hlt
  rw [modulus, if_pos (hlt.trans_le hn), modulus]
  split
  · exact EReal.coe_lt_coe_iff.mpr (Rat.cast_lt.mpr (magnitude_strictMono hlt))
  · exact EReal.coe_lt_top _

theorem modulus_nonneg (rank : Nat) : 0 ≤ modulus rank := by
  rw [modulus]
  split
  · have hle := magnitude_strictMono.monotone rank.zero_le
    rw [magnitude_zero] at hle
    exact EReal.coe_nonneg.mpr (Rat.cast_nonneg.mpr hle)
  · exact le_top

noncomputable def atPlace (p : ℤ) : EReal :=
  if p < 0 then -modulus p.natAbs else modulus p.natAbs

theorem number_eq_atPlace (d : Double) : d.number = atPlace d.place := by
  obtain ⟨negative, rank⟩ := d
  cases negative with
  | false =>
      change modulus rank = atPlace rank
      rw [atPlace, if_neg (by omega), Int.natAbs_natCast]
  | true =>
      change -modulus rank = atPlace (-rank)
      rw [atPlace, Int.natAbs_neg, Int.natAbs_natCast]
      split
      · rfl
      · obtain rfl : rank = 0 := by omega
        rw [modulus_zero, neg_zero]

theorem atPlace_strictMonoOn :
    StrictMonoOn atPlace (Set.Icc (-(infinityRank : ℤ)) infinityRank) := by
  rintro p ⟨hp, -⟩ q ⟨-, hq⟩ hlt
  rw [atPlace, atPlace]
  have hmono {m n : Nat} (h : m < n) (hn : n ≤ infinityRank) : modulus m < modulus n :=
    modulus_strictMonoOn (Set.mem_Iic.mpr (h.le.trans hn)) hn h
  split <;> split
  · exact EReal.neg_lt_neg_iff.mpr (hmono (by omega) (by omega))
  · have hpos : 0 < modulus p.natAbs := modulus_zero ▸ hmono (by omega) (by omega)
    exact (EReal.neg_lt_zero.mpr hpos).trans_le (modulus_nonneg _)
  · omega
  · exact hmono (by omega) (by omega)

theorem place_mem (h : ¬d.IsNaN) : d.place ∈ Set.Icc (-(infinityRank : ℤ)) infinityRank := by
  have hle : d.rank ≤ infinityRank := not_lt.mp h
  rw [place, Set.mem_Icc]
  split <;> omega

theorem blt_iff (ha : ¬a.IsNaN) (hb : ¬b.IsNaN) : a.blt b ↔ a.number < b.number := by
  rw [blt, decide_eq_true_iff, number_eq_atPlace, number_eq_atPlace]
  exact (atPlace_strictMonoOn.lt_iff_lt (place_mem ha) (place_mem hb)).symm

theorem ble_iff (ha : ¬a.IsNaN) (hb : ¬b.IsNaN) : a.ble b ↔ a.number ≤ b.number := by
  rw [ble, decide_eq_true_iff, number_eq_atPlace, number_eq_atPlace]
  exact (atPlace_strictMonoOn.le_iff_le (place_mem ha) (place_mem hb)).symm

theorem beq_iff (ha : ¬a.IsNaN) (hb : ¬b.IsNaN) : a.beq b ↔ a.number = b.number := by
  rw [beq, beq_iff_eq, number_eq_atPlace, number_eq_atPlace]
  exact (atPlace_strictMonoOn.eq_iff_eq (place_mem ha) (place_mem hb)).symm

end Order

end Double

namespace Operator

variable {actual : Option Value} {expected : String} {a b : Double}

theorem holds_of_numbers (op : Operator) (ha : Numeral.leading (Json.coerce? actual) = some a)
    (hb : Numeral.leading expected = some b) : op.holds actual expected = op.onDoubles a b := by
  rw [holds, ha, hb]

theorem holds_of_text (op : Operator)
    (h : Numeral.leading (Json.coerce? actual) = none ∨ Numeral.leading expected = none) :
    op.holds actual expected = op.onTexts (Json.coerce? actual) expected := by
  rcases h with h | h
  · rw [holds, h]
  · rw [holds, h]
    cases Numeral.leading (Json.coerce? actual) <;> rfl

theorem holds_ne (actual : Option Value) (expected : String) :
    ne.holds actual expected = !eq.holds actual expected := by
  rw [holds, holds]
  split <;> rfl

theorem holds_unsupported (actual : Option Value) (expected : String) :
    unsupported.holds actual expected = false := by
  rw [holds]
  split <;> rfl

theorem onDoubles_iff (ha : ¬a.IsNaN) (hb : ¬b.IsNaN) :
    (lt.onDoubles a b ↔ a.number < b.number) ∧ (eq.onDoubles a b ↔ a.number = b.number) ∧
      (gt.onDoubles a b ↔ b.number < a.number) ∧ (le.onDoubles a b ↔ a.number ≤ b.number) ∧
      (ge.onDoubles a b ↔ b.number ≤ a.number) :=
  ⟨Double.blt_iff ha hb, Double.beq_iff ha hb, Double.blt_iff hb ha, Double.ble_iff ha hb,
    Double.ble_iff hb ha⟩

theorem countP_of_trichotomy {x y : EReal} {p : Operator → Bool} (hlt : p lt ↔ x < y)
    (heq : p eq ↔ x = y) (hgt : p gt ↔ y < x) : [lt, eq, gt].countP p = 1 := by
  rcases lt_trichotomy x y with h | h | h
  · simp [hlt, heq, hgt, h, h.ne, h.not_gt]
  · simp [hlt, heq, hgt, h]
  · simp [hlt, heq, hgt, h, h.ne', h.not_gt]

/-- Of any value and any text the operators make one family. On numbers they are the order of what the two
texts begin with, which is a number on either side; where one text begins with none, only the texts
themselves can be equal or not. -/
theorem holds_consistent (actual : Option Value) (expected : String) :
    (ne.holds actual expected ↔ ¬eq.holds actual expected) ∧
    (∀ a b, Numeral.leading (Json.coerce? actual) = some a → Numeral.leading expected = some b →
      ¬a.IsNaN ∧ ¬b.IsNaN ∧
      (lt.holds actual expected ↔ a.number < b.number) ∧
      (eq.holds actual expected ↔ a.number = b.number) ∧
      (gt.holds actual expected ↔ b.number < a.number) ∧
      [lt, eq, gt].countP (·.holds actual expected) = 1 ∧
      (ge.holds actual expected ↔ gt.holds actual expected ∨ eq.holds actual expected) ∧
      (le.holds actual expected ↔ lt.holds actual expected ∨ eq.holds actual expected)) ∧
    (Numeral.leading (Json.coerce? actual) = none ∨ Numeral.leading expected = none →
      (∀ op ∈ [gt, lt, ge, le], ¬op.holds actual expected) ∧
      (eq.holds actual expected ↔ Json.coerce? actual = expected)) ∧
    ¬unsupported.holds actual expected := by
  refine ⟨?_, ?_, ?_, ?_⟩
  · rw [holds_ne, Bool.not_eq_true', Bool.not_eq_true]
  · intro a b ha hb
    have hna := Numeral.leading_not_isNaN ha
    have hnb := Numeral.leading_not_isNaN hb
    simp only [holds_of_numbers _ ha hb]
    obtain ⟨hlt, heq, hgt, hle, hge⟩ := onDoubles_iff hna hnb
    refine ⟨hna, hnb, hlt, heq, hgt, countP_of_trichotomy hlt heq hgt, ?_, ?_⟩
    · rw [hge, hgt, heq, le_iff_lt_or_eq, eq_comm]
    · rw [hle, hlt, heq, le_iff_lt_or_eq]
  · intro h
    simp only [holds_of_text _ h]
    exact ⟨by simp [onTexts], beq_iff_eq⟩
  · rw [holds_unsupported]
    exact Bool.false_ne_true

/-- A list of a list and an object, read as the number that its text begins with. -/
def listed : Value := ⟨.arr [.arr [.str "2", .null], .obj []], rfl, rfl⟩

theorem holds_consistent_listed :
    Json.coerce? (some listed) = "2,,[object Object]" ∧
    Numeral.leading "2,,[object Object]" = some ⟨false, 2 ^ 62⟩ ∧
    Numeral.leading " 1e1" = some ⟨false, 1026 * 2 ^ 52 + 2 ^ 50⟩ ∧
    [lt, eq, gt].countP (·.holds (some listed) " 1e1") = 1 ∧
    Numeral.leading "none" = none ∧
    ∀ op ∈ [gt, lt, ge, le], ¬op.holds (some listed) "none" := by
  have htext : Json.coerce? (some listed) = "2,,[object Object]" := by decide
  have hleft : Numeral.leading "2,,[object Object]" = some ⟨false, 2 ^ 62⟩ := by decide +kernel
  have hright : Numeral.leading " 1e1" = some ⟨false, 1026 * 2 ^ 52 + 2 ^ 50⟩ := by decide +kernel
  have hnone : Numeral.leading "none" = none := by decide
  obtain ⟨-, hnumbers, -, -⟩ := holds_consistent (some listed) " 1e1"
  obtain ⟨-, -, htexts, -⟩ := holds_consistent (some listed) "none"
  rw [htext] at hnumbers htexts
  obtain ⟨-, -, -, -, -, hone, -, -⟩ := hnumbers _ _ hleft hright
  exact ⟨htext, hleft, hright, hone, hnone, (htexts (.inr hnone)).1⟩

end Operator

end BranchingTimeline
