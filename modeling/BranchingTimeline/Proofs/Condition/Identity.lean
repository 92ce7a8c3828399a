import BranchingTimeline.Proofs.Condition.Editing

namespace BranchingTimeline

namespace ConditionList

open Condition (OutOfIds)

variable {l : ConditionList} {e : Edit} {es : List Edit} {id : Int64}

namespace Edit

theorem Changes.ids {c : BranchCondition} {told : Told} {d? : Option BranchCondition}
    (h : e.Changes c told d?) (he : e.condition? = some id) :
    d?.toList.map Condition.id = if e = .remove id then [] else [c.id] := by
  cases h <;> cases he <;> simp

theorem Does.ids {k : Kind} {cs ds : List BranchCondition} {told : Told} (h : e.Does k cs told ds) :
    (∃ new, new ∉ cs.map Condition.id ∧ ds.map Condition.id = cs.map Condition.id ++ [new]) ∨
    (∃ id, e = .remove id ∧ ds.map Condition.id = (cs.map Condition.id).erase id) ∨
    ds.map Condition.id = cs.map Condition.id := by
  cases h with
  | add h => exact .inl ⟨_, Condition.freshId_new h, List.map_append⟩
  | @change _ id before c after _ _ he hc h =>
      have hids := h.ids he
      right
      by_cases hremove : e = .remove id
      · rw [if_pos hremove] at hids
        refine .inl ⟨id, hremove, ?_⟩
        have hfirst : id ∉ before.map Condition.id := by
          intro hmem
          obtain ⟨b, hb, hbid⟩ := List.mem_map.mp hmem
          exact hc.first b hb hbid
        rw [hc.split, List.map_append, List.map_append, List.map_append, hids, List.map_cons, hc.id_eq,
          List.erase_append_right _ hfirst, List.erase_cons_head]
        rfl
      · rw [if_neg hremove] at hids
        right
        rw [hc.split, List.map_append, List.map_append, List.map_append, hids]
        rfl

end Edit

theorem after_ids (l : ConditionList) (e : Edit) :
    (∃ new, new ∉ l.ids ∧ (l.after e).ids = l.ids ++ [new]) ∨
    (∃ id, e = .remove id ∧ (l.after e).ids = l.ids.erase id) ∨ (l.after e).ids = l.ids := by
  rcases after_eq_or_does l e with heq | ⟨told, -, -, hdoes⟩
  · rw [heq]
    exact .inr (.inr rfl)
  · exact hdoes.ids

theorem after_ids_nodup (hl : l.ids.Nodup) (e : Edit) : (l.after e).ids.Nodup := by
  rcases after_ids l e with ⟨new, hnew, hids⟩ | ⟨id, -, hids⟩ | hids
  · rw [hids]
    exact hl.append (List.nodup_singleton _) (List.disjoint_singleton.mpr hnew)
  · rw [hids]
    exact hl.erase id
  · rw [hids]
    exact hl

theorem edited_ids_nodup (hl : l.ids.Nodup) (es : List Edit) : (l.edited es).ids.Nodup := by
  induction es using List.reverseRecOn with
  | nil => exact hl
  | append_singleton es e ih =>
      rw [edited_concat]
      exact after_ids_nodup ih e

def Holds (l : ConditionList) (new : Int64) (m : ConditionList) : Prop :=
  ∃ before after, m.ids = before ++ new :: after ∧ before.Sublist l.ids

theorem Holds.after {m : ConditionList} {new : Int64} (h : l.Holds new m) (he : e ≠ .remove new) :
    l.Holds new (m.after e) := by
  obtain ⟨before, later, hids, hsub⟩ := h
  rcases after_ids m e with ⟨other, -, hafter⟩ | ⟨id, rfl, hafter⟩ | hafter
  · refine ⟨before, later ++ [other], ?_, hsub⟩
    rw [hafter, hids, List.append_assoc, List.cons_append]
  · have hid : new ≠ id := by
      rintro rfl
      exact he rfl
    by_cases hmem : id ∈ before
    · refine ⟨before.erase id, later, ?_, List.erase_sublist.trans hsub⟩
      rw [hafter, hids, List.erase_append_left _ hmem]
    · refine ⟨before, later.erase id, ?_, hsub⟩
      rw [hafter, hids, List.erase_append_right _ hmem, List.erase_cons_tail (by simpa using hid)]
  · exact ⟨before, later, hafter.trans hids, hsub⟩

theorem Holds.edited {m : ConditionList} {new : Int64} (h : l.Holds new m) (hes : .remove new ∉ es) :
    l.Holds new (m.edited es) := by
  induction es using List.reverseRecOn with
  | nil => exact h
  | append_singleton es e ih =>
      rw [List.mem_append, not_or, List.mem_singleton] at hes
      rw [edited_concat]
      exact (ih hes.1).after (Ne.symm hes.2)

/-- What is asked for an added condition by its id reaches that condition, which stands behind what is
left of the conditions that it was added to. -/
def Reaches (l : ConditionList) (new : Int64) (m : ConditionList) : Prop :=
  ∃ before c after, Addressed new m.conditions before c after ∧
    (before.map Condition.id).Sublist l.ids ∧
    ∀ e told, e.condition? = some new → (m.step e).1 = .ok told →
      ∃ d?, e.Changes c told d? ∧ (m.after e).conditions = before ++ (d?.toList ++ after)

theorem Holds.reaches {m : ConditionList} {new : Int64} (h : l.Holds new m) (hnew : new ∉ l.ids) :
    l.Reaches new m := by
  obtain ⟨xs, ys, hids, hsub⟩ := h
  obtain ⟨before, rest, hsplit, rfl, hrest⟩ := List.map_eq_append_iff.mp hids
  obtain ⟨c, after, rfl, hc, rfl⟩ := List.map_eq_cons_iff.mp hrest
  have hfirst : Addressed new m.conditions before c after := by
    refine ⟨hsplit, hc, ?_⟩
    rintro b hb rfl
    exact hnew (hsub.subset (List.mem_map_of_mem hb))
  refine ⟨before, c, after, hfirst, hsub, ?_⟩
  intro e told he hok
  exact (does_of_ok hok).2.addressed he hfirst

theorem add_overflow (h : OutOfIds l.ids id) : l.step (.add id) = (.error .overflow, l) :=
  (Edit.Fails.overflow rfl h).step

theorem exists_added (h : ¬OutOfIds l.ids id) :
    ∃ new m c, l.step (.add id) = (.ok (.id new), m) ∧ m.conditions = l.conditions ++ [c] ∧ c.id = new ∧
      new ∉ l.ids ∧ (id ∉ l.ids → new = id) := by
  obtain ⟨new, hnew, hfresh, hown⟩ := Condition.exists_freshId h
  have hseen := step_add id l
  rw [hnew] at hseen
  obtain ⟨htold, hview⟩ := Prod.mk.inj hseen
  exact ⟨new, (l.step (.add id)).2, _, Prod.ext htold rfl, (Prod.mk.inj hview).2, rfl, hfresh, hown⟩

/-- Distinct ids stay distinct through every history of requests. After it, a condition that is added
gets an id that no other one has, its own if that is free, and what is asked for the id reaches the added
condition as long as this is there. Only under a taken id, where the largest id of all is taken, no
condition is added. -/
theorem ids_distinct (hl : l.ids.Nodup) (es : List Edit) :
    (l.edited es).ids.Nodup ∧
    ∀ id,
      (OutOfIds (l.edited es).ids id → (l.edited es).step (.add id) = (.error .overflow, l.edited es)) ∧
      (¬OutOfIds (l.edited es).ids id →
        ∃ new m c, (l.edited es).step (.add id) = (.ok (.id new), m) ∧
          m.conditions = (l.edited es).conditions ++ [c] ∧ c.id = new ∧ new ∉ (l.edited es).ids ∧
          (id ∉ (l.edited es).ids → new = id) ∧
          ∀ later, .remove new ∉ later → (l.edited es).Reaches new (m.edited later)) := by
  refine ⟨edited_ids_nodup hl es, fun id => ⟨add_overflow, ?_⟩⟩
  intro hout
  obtain ⟨new, m, c, hm, hconditions, hc, hfresh, hown⟩ := exists_added hout
  refine ⟨new, m, c, hm, hconditions, hc, hfresh, hown, ?_⟩
  intro later hremove
  have hids : m.ids = (l.edited es).ids ++ [new] := by
    rw [ids, hconditions, List.map_append, List.map_singleton, hc]
    rfl
  have hholds : (l.edited es).Holds new m := ⟨(l.edited es).ids, [], hids, .refl _⟩
  exact (hholds.edited hremove).reaches hfresh

def numbered : ConditionList := .looping [⟨5, [.blank], ()⟩, ⟨9, [], ()⟩]

/-- Where the largest id has gone with its condition, one that is added under the taken id 5 gets the
next id, which stays its own. -/
theorem ids_distinct_numbered :
    numbered.ids.Nodup ∧ ((numbered.edited [.remove 9]).step (.add 5)).1 = .ok (.id 6) ∧
      (6 : Int64) ∉ (numbered.edited [.remove 9]).ids ∧
      (numbered.edited [.remove 9]).Reaches 6
        (((numbered.edited [.remove 9]).after (.add 5)).edited [.remove 5, .addRule 6]) := by
  have hnodup : numbered.ids.Nodup := by decide
  have hout : ¬OutOfIds (numbered.edited [.remove 9]).ids 5 := by decide
  have htold : ((numbered.edited [.remove 9]).step (.add 5)).1 = .ok (.id 6) := by decide
  obtain ⟨new, m, c, hm, -, -, hfresh, -, hreaches⟩ :=
    ((ids_distinct hnodup [.remove 9]).2 5).2 hout
  have hnew : new = 6 := by
    rw [hm] at htold
    cases htold
    rfl
  subst hnew
  refine ⟨hnodup, htold, hfresh, ?_⟩
  rw [after, hm]
  apply hreaches
  decide

def crowded : ConditionList := .looping [⟨Int64.maxValue, [], ()⟩, ⟨Int64.minValue, [], ()⟩]

/-- A condition that is added under a limit of all ids gets none, though there are ids that no condition
has. -/
theorem ids_run_out :
    crowded.ids.Nodup ∧ crowded.step (.add Int64.maxValue) = (.error .overflow, crowded) ∧
      (0 : Int64) ∉ crowded.ids := by
  decide

end ConditionList

end BranchingTimeline
