import BranchingTimeline.Proofs.Timeline.Checks

namespace BranchingTimeline

theorem Finding.unresolved_inj {source target source' target' : ItemId}
    (h : (Finding.unresolved source target).diagnostic = (Finding.unresolved source' target').diagnostic) :
    source = source' ∧ target = target' := by
  have hsource : source = source' := Option.some.inj (congrArg Diagnostic.item h)
  subst hsource
  have hmessage := congrArg Diagnostic.message h
  simp only [Finding.diagnostic, String.append_left_inj, String.append_right_inj] at hmessage
  cases target
  cases target'
  cases hmessage
  exact ⟨rfl, rfl⟩

namespace Timeline

/-- The first warning of an unresolved target is about this item and this target. -/
def FirstUnresolved (t : Timeline) (source target : ItemId) : Prop :=
  ∃ before after, t.diagnostics = before ++ (Finding.unresolved source target).diagnostic :: after ∧
    ∀ s x, (Finding.unresolved s x).diagnostic ∉ before

variable {t : Timeline} {source target source' target' : ItemId}

theorem FirstUnresolved.not_resolved (h : t.FirstUnresolved source target) : ¬t.Resolved := by
  obtain ⟨before, after, hd, -⟩ := h
  intro hr
  exact hr source target (by rw [hd]; simp)

theorem FirstUnresolved.unique (h : t.FirstUnresolved source target)
    (h' : t.FirstUnresolved source' target') : source = source' ∧ target = target' := by
  obtain ⟨before, after, hd, hnone⟩ := h
  obtain ⟨before', after', hd', hnone'⟩ := h'
  rw [hd] at hd'
  rcases List.append_eq_append_iff.mp hd' with ⟨_ | ⟨d, rest⟩, hb, hr⟩ | ⟨_ | ⟨d, rest⟩, hb, hr⟩
  · exact Finding.unresolved_inj (List.cons.inj hr).1
  · rw [List.cons_append, List.cons.injEq] at hr
    exact absurd (by rw [hb, ← hr.1]; simp) (hnone' source target)
  · exact Finding.unresolved_inj (List.cons.inj hr).1.symm
  · rw [List.cons_append, List.cons.injEq] at hr
    exact absurd (by rw [hb, ← hr.1]; simp) (hnone source' target')

theorem firstUnresolved {findings : List Finding} {c : ItemId × ItemId}
    (hd : t.diagnostics = findings.map Finding.diagnostic)
    (hc : (findings.filterMap Finding.unresolved?).head? = some c) : t.FirstUnresolved c.1 c.2 := by
  obtain ⟨rest, hrest⟩ := List.head?_eq_some_iff.mp hc
  obtain ⟨before, f, after, rfl, hnone, hf, -⟩ := List.filterMap_eq_cons_iff.mp hrest
  cases f with
  | unresolved source target =>
      obtain rfl := Option.some.inj hf
      refine ⟨before.map Finding.diagnostic, after.map Finding.diagnostic, ?_, ?_⟩
      · rw [hd, List.map_append, List.map_cons]
      · intro s x hmem
        obtain ⟨g, hg, hgd⟩ := List.mem_map.mp hmem
        have hsome := Finding.isSome_unresolved? hgd
        rw [hnone g hg] at hsome
        cases hsome
  | noId | duplicateId | conditionsWithoutBranches | repeatsOfEmptyLoop | noRepetitions
  | noLoopConditions => cases hf

end Timeline

namespace Compile

section Known

variable {ids : IdSet} {source target : ItemId} {later : List ItemId} {item : Item}

theorem checkTarget_of_known (h : ids.contains target = true) (strict : Bool) :
    checkTarget ⟨ids, strict⟩ source target = pure () := by
  simp only [checkTarget, h, if_true]

theorem addRoutes_of_known {targets : List ItemId} (scope : Scope) (routes : SortedMap ItemId Route)
    (h : ∀ x ∈ targets, x ∉ later → ids.contains x = true) :
    addRoutes ⟨ids, true⟩ source later scope targets routes =
      addRoutes ⟨ids, false⟩ source later scope targets routes := by
  induction targets generalizing routes with
  | nil => rfl
  | cons target r ih =>
      have hr := fun routes => ih routes fun x hx => h x (List.mem_cons_of_mem _ hx)
      simp only [addRoutes, hr]
      split
      · rfl
      · split
        · rfl
        · have hlater : target ∉ later := by simpa using ‹¬later.contains target = true›
          have hk := h target List.mem_cons_self hlater
          rw [checkTarget_of_known hk, checkTarget_of_known hk]

theorem branchPlan_of_known (scope : Scope) (h : ∀ c ∈ branchChecks later item, ids.contains c.2 = true) :
    branchPlan ⟨ids, true⟩ item later scope = branchPlan ⟨ids, false⟩ item later scope := by
  simp only [branchPlan]
  split
  · rfl
  · rename_i hnonempty
    rw [branchChecks, if_neg hnonempty] at h
    have hknown : ∀ x ∈ branchTargets item, x ∉ later → ids.contains x = true := fun x hx hlater =>
      h (item.id, x) (List.mem_map_of_mem (mem_newTargets.mpr ⟨hx, by simp, hlater⟩))
    rw [branchTargets] at hknown
    rw [addRoutes_of_known scope .empty hknown]

theorem finishPlan_of_known (around : Surroundings) (index : Nat)
    (h : ∀ c ∈ branchChecks later item, ids.contains c.2 = true) :
    finishPlan ⟨ids, true⟩ around index later item = finishPlan ⟨ids, false⟩ around index later item := by
  rw [finishPlan, finishPlan, branchPlan_of_known around.scope h]

theorem checkRepeats_of_known {repeats : List RepeatCondition}
    (h : ∀ c ∈ repeatChecks source repeats, ids.contains c.2 = true) :
    checkRepeats ⟨ids, true⟩ source repeats = checkRepeats ⟨ids, false⟩ source repeats := by
  induction repeats with
  | nil => rfl
  | cons c r ih =>
      simp only [repeatChecks, List.filterMap_cons] at h
      simp only [checkRepeats]
      cases hc : c.effect.destination with
      | none =>
          rw [hc] at h
          rw [ih h]
      | some target =>
          simp only [hc, List.map_cons, List.forall_mem_cons] at h
          simp only [checkTarget_of_known h.1, ih h.2]

theorem armRepeats_of_known {l : Loop} {items : List Item}
    (h : ∀ c ∈ (if items.isEmpty then [] else repeatChecks l.id l.repeatConditions),
      ids.contains c.2 = true) :
    armRepeats ⟨ids, true⟩ l items = armRepeats ⟨ids, false⟩ l items := by
  simp only [armRepeats]
  by_cases hi : items.isEmpty
  · simp only [hi, if_true]
  · rw [if_neg hi] at h
    rw [checkRepeats_of_known h]

/-- If all targets are known, no check has an effect, in whichever mode. -/
theorem sequence_of_known {items : List Item} (around : Surroundings) (index : Nat)
    (h : ∀ c ∈ checksIn items, ids.contains c.2 = true) :
    sequence ⟨ids, true⟩ around index items = sequence ⟨ids, false⟩ around index items := by
  induction items using Item.forest_induction generalizing around index with
  | nil => simp only [sequence]
  | trial t r ih =>
      simp only [checksIn, checks, List.forall_mem_append] at h
      simp only [sequence, node, finishPlan_of_known around index h.1.1, checkRepeats_of_known h.1.2,
        ih around (index + 1) h.2]
  | loop l items r ihItems ih =>
      simp only [checksIn, checks, List.forall_mem_append] at h
      simp only [sequence, node, finishPlan_of_known around index h.1.1, armRepeats_of_known h.1.2.1,
        fun around => ihItems around 0 h.1.2.2, ih around (index + 1) h.2]

end Known

theorem compile_of_known (settings : Settings) {items : List Item}
    (h : ∀ c ∈ checksIn items, (knownOf settings items).ids.contains c.2 = true) :
    compile { settings with strictTargets := true } items =
      compile { settings with strictTargets := false } items := by
  have hsequence := sequence_of_known .root 0 h
  rw [compile_eq, compile_eq]
  simp only [knownOf] at hsequence ⊢
  rw [hsequence]

/-- A lenient compilation never fails. The strict one is the same if no warning of an unresolved
target came of it, and otherwise fails with the target of the first such warning. -/
theorem compile_strict (settings : Settings) (items : List Item) :
    ∃ t, compile { settings with strictTargets := false } items = .ok t ∧
      (∀ u, compile { settings with strictTargets := true } items = .ok u ↔ t.Resolved ∧ u = t) ∧
      ∀ e, compile { settings with strictTargets := true } items = .error e ↔
        ∃ source target, t.FirstUnresolved source target ∧ e = .unresolvedTarget source target := by
  rcases compile_cases { settings with strictTargets := false } items with
    ⟨t, findings, ht, -, hd, hf, -⟩ | ⟨c, hstrict, -⟩
  swap
  · cases hstrict
  refine ⟨t, ht, ?_⟩
  rcases compile_cases { settings with strictTargets := true } items with
    ⟨u, -, hu, -, -, -, hnone⟩ | ⟨c, -, hc, hu⟩
  · obtain rfl : u = t := by
      rw [compile_of_known settings (missing_eq_nil.mp (hnone rfl)), ht] at hu
      exact (Except.ok.inj hu).symm
    have hr : u.Resolved := resolved_of_strict hu rfl
    constructor
    · intro v
      rw [hu, Except.ok.injEq, eq_comm]
      exact (and_iff_right hr).symm
    · intro e
      rw [hu]
      refine ⟨nofun, ?_⟩
      rintro ⟨source, target, hfirst, -⟩
      exact absurd hr hfirst.not_resolved
  · have hfirst : t.FirstUnresolved c.1 c.2 := Timeline.firstUnresolved hd (hf ▸ hc)
    constructor
    · intro v
      rw [hu]
      exact ⟨nofun, fun hv => absurd hv.1 hfirst.not_resolved⟩
    · intro e
      rw [hu, Except.error.injEq]
      constructor
      · rintro rfl
        exact ⟨c.1, c.2, hfirst, rfl⟩
      · rintro ⟨source, target, hother, rfl⟩
        obtain ⟨rfl, rfl⟩ := hfirst.unique hother
        rfl

end Compile

end BranchingTimeline
