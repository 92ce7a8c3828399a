import BranchingTimeline.Proofs.Timeline.ScopeNames

namespace BranchingTimeline

namespace Compile

open Node

theorem contains_iff (m : SortedMap ItemId Route) (x : ItemId) :
    m.contains x = true ↔ ∃ r, m.get? x = some r := Option.isSome_iff_exists

theorem get?_routesTo (later : List ItemId) (scope : Scope) (targets : List ItemId)
    (m : SortedMap ItemId Route) (x : ItemId) :
    (routesTo later scope targets m).get? x = (m.get? x).or
      (if x ∈ targets then some (if later.contains x then .scope scope else .jump) else none) := by
  induction targets generalizing m with
  | nil => simp [routesTo]
  | cons target r ih =>
      simp only [routesTo]
      split
      · rename_i hm
        obtain ⟨route, hroute⟩ := (contains_iff m target).mp hm
        rw [ih]
        by_cases hx : x = target
        · simp [hx, hroute]
        · simp [hx]
      · rw [ih, SortedMap.get?_insert]
        by_cases hx : x = target
        · subst hx
          have hm : m.get? x = none := by
            simpa [SortedMap.contains] using ‹¬m.contains x = true›
          simp [hm]
        · have hkey : Key.text x ≠ Key.text target := fun h => hx (Key.text_inj h)
          simp [hx, hkey]

end Compile

/-- A plan that reaches nothing but its own scope, in which it branches to later items only. -/
structure FinishPlan.Local (f : FinishPlan) (scope : Scope) (later : List ItemId) : Prop where
  branches : ∀ b, f.branch = some b → ∀ x s, b.routeFor x = .scope s → s = scope ∧ x ∈ later
  escalates : ∀ s, f.escalateTo = some s → s = scope

namespace Compile

open Node

/-- What stands in a compiled sequence for an item. -/
inductive NodeOf (around : Surroundings) (index : Nat) (later : List ItemId) : Item → Node → Prop
  | trial (t : Trial) : NodeOf around index later (.trial t) (trialNode around index later t)
  | loop {l : Loop} {items : List Item} {inner : List Node} (name : String)
      (hi : Compiled (.inside l (.loop name) (armedBy l items)) 0 items inner) :
      NodeOf around index later (.loop l items)
        (loopNode around index later l items (.loop name) inner)

variable {around : Surroundings} {index : Nat} {later : List ItemId} {item : Item}
  {items : List Item} {n : Node} {nodes : List Node}

theorem Compiled.cons_inv (h : Compiled around index items (n :: nodes)) :
    ∃ item r, items = item :: r ∧ NodeOf around index (r.map Item.id) item n ∧
      Compiled around (index + 1) r nodes := by
  cases h with
  | trial hr => exact ⟨_, _, rfl, .trial _, hr⟩
  | loop name hi hr => exact ⟨_, _, rfl, .loop name hi, hr⟩

theorem NodeOf.place_eq (h : NodeOf around index later item n) :
    n.place = placeOf around index later item := by
  cases h <;> rfl

theorem NodeOf.guard_scope (h : NodeOf around index later item n) : n.guard.scope = around.scope :=
  congrArg (·.guard.scope) h.place_eq

theorem Compiled.ids_eq (h : Compiled around index items nodes) :
    nodes.map Node.id = items.map Item.id := by
  induction h with
  | nil => rfl
  | trial _ ih | loop _ _ _ _ ih => exact congrArg (_ :: ·) ih

theorem Compiled.length_eq (h : Compiled around index items nodes) : nodes.length = items.length := by
  simpa using congrArg List.length h.ids_eq

theorem Compiled.split {pre rest : List Node} (h : Compiled around index items (pre ++ n :: rest)) :
    ∃ item r, NodeOf around (index + pre.length) (r.map Item.id) item n ∧
      Compiled around (index + pre.length + 1) r rest := by
  induction pre generalizing index items with
  | nil =>
      obtain ⟨item, r, -, hn, hr⟩ := h.cons_inv
      exact ⟨item, r, hn, hr⟩
  | cons k pre ih =>
      obtain ⟨-, r, -, -, hr⟩ := h.cons_inv
      obtain ⟨item, r, hn, hr⟩ := ih hr
      have he : index + 1 + pre.length = index + (k :: pre).length := by
        simp only [List.length_cons]
        omega
      rw [he] at hn hr
      exact ⟨item, r, hn, hr⟩

theorem Compiled.guards (h : Compiled around index items nodes) (hn : n ∈ nodes) :
    n.guard.scope = around.scope ∧ (0 < index → n.guard.beginsPass = false) := by
  obtain ⟨pre, rest, rfl⟩ := List.append_of_mem hn
  obtain ⟨item, r, hnode, -⟩ := h.split
  refine ⟨hnode.guard_scope, fun hi => ?_⟩
  have hb : n.guard.beginsPass = (index + pre.length = 0 && !around.scope.isRoot) :=
    congrArg (·.guard.beginsPass) hnode.place_eq
  rw [hb, decide_eq_false (by omega), Bool.false_and]

theorem NodeOf.isLast (h : NodeOf around index later item n) (hl : n.place.isLast = true) :
    later = [] := by
  rw [h.place_eq] at hl
  simp only [placeOf, Bool.and_eq_true, List.isEmpty_iff] at hl
  exact hl.1

theorem NodeOf.trial_members {p : Place} {t : TrialPlan}
    (h : NodeOf around index later item (.trial p t)) : p.guard.members = .empty := by
  cases h
  rfl

theorem plannedFinish_local (around : Surroundings) (index : Nat) (later : List ItemId)
    (item : Item) : (plannedFinish around index later item).Local around.scope later where
  branches := by
    intro b hb x s hs
    simp only [plannedFinish, plannedBranch] at hb
    split at hb
    · cases hb
    · cases hb
      rw [BranchPlan.routeFor, get?_routesTo, SortedMap.get?_empty, Option.none_or] at hs
      split at hs
      · split at hs
        · simp only [Option.getD_some, Route.scope.injEq] at hs
          exact ⟨hs.symm, by simpa using ‹later.contains x = true›⟩
        · cases hs
      · cases hs
  escalates := by
    intro s hs
    simp only [plannedFinish] at hs
    split at hs
    · exact (Option.some.inj hs).symm
    · cases hs

theorem NodeOf.finish_local (h : NodeOf around index later item n) :
    n.finish.Local around.scope later := by
  cases h with
  | trial t =>
      have hf := plannedFinish_local around index later (.trial t)
      exact ⟨hf.branches, hf.escalates⟩
  | loop name hi => exact plannedFinish_local around index later _

theorem NodeOf.trial_id {p : Place} {t : TrialPlan} (h : NodeOf around index later item (.trial p t)) :
    t.id = p.guard.id := by
  cases h
  rfl

theorem NodeOf.loop_id {p : Place} {l : LoopPlan} {inner : List Node}
    (h : NodeOf around index later item (.loop p l inner)) : l.id = p.guard.id := by
  cases h
  rfl

theorem NodeOf.branches_not_blank (h : NodeOf around index later item n) {b : BranchPlan}
    (hb : n.finish.branch = some b) {x : ItemId} (hx : x ∈ b.branches) : x.isBlank = false := by
  have hplan : n.finish.branch = plannedBranch later around.scope item := by
    cases h <;> rfl
  rw [hplan, plannedBranch] at hb
  split at hb
  · cases hb
  · cases hb
    simpa using (List.mem_filter.mp hx).2

/-- Every node of a compiled forest stands for an item, among surroundings whose scope belongs to
no loop in the node. -/
theorem Compiled.nodeOf (h : Compiled around index items nodes) (hs : around.scope ∉ scopesIn nodes)
    (hd : (scopesIn nodes).Nodup) (hn : n ∈ flattenIn nodes) :
    ∃ around index later item, NodeOf around index later item n ∧
      around.scope ∉ scopesIn [n] := by
  induction h with
  | nil => cases hn
  | @trial around index t r nodes hr ih =>
      simp only [flattenIn_cons, trialNode, flatten_trial, List.singleton_append,
        List.mem_cons] at hn
      simp only [trialNode, scopesIn_trial] at hs hd
      rcases hn with rfl | hn
      · exact ⟨around, index, r.map Item.id, .trial t, .trial t, by simp⟩
      · exact ih hs hd hn
  | @loop around index l items r inner nodes name hi hr ihInner ih =>
      simp only [flattenIn_cons, loopNode, flatten_loop, List.cons_append, List.mem_cons,
        List.mem_append] at hn
      simp only [loopNode, scopesIn_loop, List.mem_cons, List.mem_append, not_or, List.nodup_cons,
        List.nodup_append] at hs hd
      rcases hn with rfl | hn | hn
      · exact ⟨around, index, r.map Item.id, .loop l items, .loop name hi, by
          simp [hs.1, hs.2.1]⟩
      · exact ihInner hd.1.1 hd.2.1 hn
      · exact ih hs.2.2 hd.2.2.1 hn

theorem nodeOf_of_compile {settings : Settings} {items : List Item} {t : Timeline}
    (h : compile settings items = .ok t) (hn : n ∈ flattenIn t.nodes) :
    ∃ around index later item, NodeOf around index later item n ∧ around.scope ∉ scopesIn [n] := by
  have hc := compiled_of_compile h
  exact hc.nodeOf (root_not_mem_scopesIn hc) (scopesIn_nodup h) hn

theorem compiled_of_isSequence {settings : Settings} {items : List Item} {t : Timeline}
    {scope : Scope} (h : compile settings items = .ok t) (hs : t.IsSequence scope nodes) :
    ∃ around items, around.scope = scope ∧ Compiled around 0 items nodes := by
  rcases hs with ⟨rfl, rfl⟩ | ⟨p, l, hl, rfl⟩
  · exact ⟨.root, items, rfl, compiled_of_compile h⟩
  · obtain ⟨around, index, later, item, hnode, -⟩ := nodeOf_of_compile h hl
    cases hnode with
    | loop name hi => exact ⟨_, _, rfl, hi⟩

theorem mem_of_isSequence {t : Timeline} {scope : Scope} (hs : t.IsSequence scope nodes)
    (hn : n ∈ nodes) : n ∈ flattenIn t.nodes := by
  rcases hs with ⟨-, rfl⟩ | ⟨p, l, hl, -⟩
  · exact mem_flattenIn hn
  · exact flattenIn_subset hl (mem_flattenIn hn)

theorem scope_not_mem_of_isSequence {settings : Settings} {items : List Item} {t : Timeline}
    {scope : Scope} (h : compile settings items = .ok t) (hs : t.IsSequence scope nodes)
    (hn : n ∈ nodes) : scope ∉ scopesIn [n] := by
  obtain ⟨around, sources, rfl, hc⟩ := compiled_of_isSequence h hs
  obtain ⟨around', index, later, item, hnode, hout⟩ := nodeOf_of_compile h (mem_of_isSequence hs hn)
  rwa [← (hc.guards hn).1, hnode.guard_scope]

end Compile

end BranchingTimeline
