import BranchingTimeline.Condition.Editor

namespace BranchingTimeline

theorem max_or (a b : Int64) : max a b = a ∧ b ≤ a ∨ max a b = b ∧ a ≤ b := by
  change (if a ≤ b then b else a) = a ∧ _ ∨ (if a ≤ b then b else a) = b ∧ _
  by_cases h : a ≤ b
  · exact .inr ⟨if_pos h, h⟩
  · exact .inl ⟨if_neg h, Int64.le_of_lt (Int64.not_le.mp h)⟩

theorem lt_succ_of_ne_maxValue {a : Int64} (h : a ≠ Int64.maxValue) : a < a + 1 := by
  have hne : a.toInt ≠ Int64.maxValue.toInt := fun he => h (Int64.toInt_inj.mp he)
  have hle := a.le_toInt
  have hlt := a.toInt_lt
  rw [Int64.toInt_maxValue] at hne
  rw [Int64.lt_iff_toInt_lt, Int64.toInt_add, show (1 : Int64).toInt = 1 from rfl,
    Int.bmod_eq_of_le (by omega) (by omega)]
  exact Int.lt_succ _

namespace Condition

variable {ε : Type} {cs : List (Condition ε)} {id : Int64}

theorem maxId_mem (h : cs ≠ []) : maxId cs ∈ cs.map Condition.id := by
  induction cs with
  | nil => exact absurd rfl h
  | cons c r ih =>
      cases r with
      | nil => exact List.mem_cons_self
      | cons d r =>
          rw [maxId, List.map_cons, List.mem_cons]
          · rcases max_or c.id (maxId (d :: r)) with ⟨he, -⟩ | ⟨he, -⟩
            · exact .inl he
            · rw [he]
              exact .inr (ih (List.cons_ne_nil d r))
          · exact List.cons_ne_nil d r

theorem le_maxId {x : Int64} (h : x ∈ cs.map Condition.id) : x ≤ maxId cs := by
  induction cs with
  | nil => cases h
  | cons c r ih =>
      cases r with
      | nil =>
          obtain rfl := List.mem_singleton.mp h
          exact Int64.le_refl _
      | cons d r =>
          rw [maxId]
          · rw [List.map_cons, List.mem_cons] at h
            rcases max_or c.id (maxId (d :: r)) with ⟨he, hle⟩ | ⟨he, hle⟩
            · rw [he]
              rcases h with rfl | h
              · exact Int64.le_refl _
              · exact Int64.le_trans (ih h) hle
            · rw [he]
              rcases h with rfl | h
              · exact hle
              · exact ih h
          · exact List.cons_ne_nil d r

theorem maxId_eq_maxValue_iff (h : cs ≠ []) :
    maxId cs = Int64.maxValue ↔ Int64.maxValue ∈ cs.map Condition.id := by
  constructor
  · intro hmax
    rw [← hmax]
    exact maxId_mem h
  · intro hmem
    exact Int64.le_antisymm (Int64.le_maxValue _) (le_maxId hmem)

/-- The id is taken, and no id comes after the largest taken one. -/
def OutOfIds (ids : List Int64) (id : Int64) : Prop := id ∈ ids ∧ Int64.maxValue ∈ ids

instance (ids : List Int64) (id : Int64) : Decidable (OutOfIds ids id) :=
  inferInstanceAs (Decidable (_ ∧ _))

theorem freshId_free (h : id ∉ cs.map Condition.id) : freshId id cs = .ok id :=
  if_neg (by simpa using h)

theorem freshId_taken (h : id ∈ cs.map Condition.id) :
    freshId id cs =
      if Int64.maxValue ∈ cs.map Condition.id then .error .overflow else .ok (maxId cs + 1) := by
  have hne : cs ≠ [] := mt List.map_eq_nil_iff.mpr (List.ne_nil_of_mem h)
  have hany : (cs.any fun c => c.id = id) = true := by simpa using h
  rw [freshId, if_pos hany]
  simp only [maxId_eq_maxValue_iff hne]

theorem freshId_overflow (h : OutOfIds (cs.map Condition.id) id) : freshId id cs = .error .overflow := by
  rw [freshId_taken h.1, if_pos h.2]

theorem exists_freshId (h : ¬OutOfIds (cs.map Condition.id) id) :
    ∃ new, freshId id cs = .ok new ∧ new ∉ cs.map Condition.id ∧
      (id ∉ cs.map Condition.id → new = id) := by
  by_cases hid : id ∈ cs.map Condition.id
  · have hmax : Int64.maxValue ∉ cs.map Condition.id := fun hmax => h ⟨hid, hmax⟩
    have hne : cs ≠ [] := mt List.map_eq_nil_iff.mpr (List.ne_nil_of_mem hid)
    have hbelow : maxId cs ≠ Int64.maxValue := mt (maxId_eq_maxValue_iff hne).mp hmax
    refine ⟨maxId cs + 1, ?_, ?_, fun hfree => absurd hid hfree⟩
    · rw [freshId_taken hid, if_neg hmax]
    · intro hmem
      exact absurd (le_maxId hmem) (Int64.not_le.mpr (lt_succ_of_ne_maxValue hbelow))
  · exact ⟨id, freshId_free hid, hid, fun _ => rfl⟩

theorem freshId_new {new : Int64} (h : freshId id cs = .ok new) : new ∉ cs.map Condition.id := by
  by_cases hout : OutOfIds (cs.map Condition.id) id
  · rw [freshId_overflow hout] at h
    cases h
  · obtain ⟨other, hother, hfresh, -⟩ := exists_freshId hout
    rw [hother] at h
    cases h
    exact hfresh

end Condition

end BranchingTimeline
