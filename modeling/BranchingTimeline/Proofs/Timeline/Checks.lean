import BranchingTimeline.Proofs.Timeline.Plans

namespace BranchingTimeline

def Finding.unresolved? : Finding → Option (ItemId × ItemId)
  | unresolved source target => some (source, target)
  | _ => none

theorem Finding.isSome_unresolved? {f : Finding} {source target : ItemId}
    (h : f.diagnostic = (Finding.unresolved source target).diagnostic) : f.unresolved?.isSome := by
  have hseverity := congrArg Diagnostic.severity h
  have hitem := congrArg Diagnostic.item h
  have hmessage := congrArg (fun d => d.message.toList.head?) h
  cases f with
  | unresolved => rfl
  | noId name => cases hitem
  | duplicateId id => simp [Finding.diagnostic, String.toList_append] at hmessage
  | conditionsWithoutBranches | repeatsOfEmptyLoop | noRepetitions | noLoopConditions =>
      cases hseverity

/-- A timeline that was compiled without a warning of an unresolved target. -/
def Timeline.Resolved (t : Timeline) : Prop :=
  ∀ source target, (Finding.unresolved source target).diagnostic ∉ t.diagnostics

theorem Timeline.resolved_iff {t : Timeline} {findings : List Finding}
    (h : t.diagnostics = findings.map Finding.diagnostic) :
    t.Resolved ↔ findings.filterMap Finding.unresolved? = [] := by
  rw [List.filterMap_eq_nil_iff]
  constructor
  · intro hr f hf
    cases f with
    | unresolved source target =>
        refine absurd ?_ (hr source target)
        rw [h]
        exact List.mem_map_of_mem hf
    | noId | duplicateId | conditionsWithoutBranches | repeatsOfEmptyLoop | noRepetitions
    | noLoopConditions => rfl
  · intro hnone source target hmem
    rw [h] at hmem
    obtain ⟨f, hf, hd⟩ := List.mem_map.mp hmem
    have hsome := Finding.isSome_unresolved? hd
    rw [hnone f hf] at hsome
    cases hsome

def BranchPlan.targets (b : BranchPlan) : List ItemId :=
  b.branches ++ b.conditions.filterMap fun c => c.effect.destination

structure FinishPlan.JumpsWithin (f : FinishPlan) (ids : IdSet) : Prop where
  repeats : ∀ c ∈ f.repeats, ∀ x, c.effect.destination = some x → ids.contains x = true
  branches : ∀ b, f.branch = some b → ∀ x ∈ b.targets, b.routeFor x = .jump → ids.contains x = true

namespace Compile

/-- The branch targets that are to be checked: those that do not stand later in the sequence, each
once, except for those that were seen before. -/
def newTargets (later : List ItemId) : List ItemId → List ItemId → List ItemId
  | [], _ => []
  | target :: r, seen =>
    if seen.contains target then newTargets later r seen
    else if later.contains target then newTargets later r (target :: seen)
    else target :: newTargets later r (target :: seen)

def branchChecks (later : List ItemId) (item : Item) : List (ItemId × ItemId) :=
  if (item.branches.filter fun b => !b.isBlank).isEmpty then []
  else (newTargets later (branchTargets item) []).map fun target => (item.id, target)

def repeatChecks (source : ItemId) (repeats : List RepeatCondition) : List (ItemId × ItemId) :=
  (repeats.filterMap fun c => c.effect.destination).map fun target => (source, target)

mutual

/-- The targets that are checked when an item is compiled, each with the item that it is checked
for, in the order of the checks. -/
def checks (later : List ItemId) : Item → List (ItemId × ItemId)
  | .trial t => branchChecks later (.trial t) ++ repeatChecks t.id t.repeatConditions
  | .loop l items =>
    branchChecks later (.loop l items) ++
      ((if items.isEmpty then [] else repeatChecks l.id l.repeatConditions) ++ checksIn items)

def checksIn : List Item → List (ItemId × ItemId)
  | [] => []
  | i :: r => checks (r.map Item.id) i ++ checksIn r

end

section Makes

variable {α β : Type} {known : Known} {d : Draft} {l r : List (ItemId × ItemId)}

def missing (known : Known) (l : List (ItemId × ItemId)) : List (ItemId × ItemId) :=
  l.filter fun c => !known.ids.contains c.2

theorem missing_append (known : Known) (l r : List (ItemId × ItemId)) :
    missing known (l ++ r) = missing known l ++ missing known r := List.filter_append ..

theorem missing_eq_nil : missing known l = [] ↔ ∀ c ∈ l, known.ids.contains c.2 = true := by
  simp [missing, List.filter_eq_nil_iff]

/-- What can come of some checks: the first one that fails is the error of a strict compilation,
and a lenient one notes each that fails. -/
inductive Checked (known : Known) (l : List (ItemId × ItemId)) (d : Draft) :
    Except Error (α × Draft) → Prop
  | ok {a : α} {e : Draft} (hf : e.findings.filterMap Finding.unresolved? =
      (missing known l).reverse ++ d.findings.filterMap Finding.unresolved?)
      (hs : known.strict = true → missing known l = []) : Checked known l d (.ok (a, e))
  | error {c : ItemId × ItemId} (hs : known.strict = true) (hc : (missing known l).head? = some c) :
      Checked known l d (.error (.unresolvedTarget c.1 c.2))

def Makes (known : Known) (l : List (ItemId × ItemId)) (x : Compiling α) : Prop :=
  ∀ d, Checked known l d (x d)

theorem makes_nothing {x : Compiling α} {a : Draft → α} {g : Draft → Draft}
    (hx : ∀ d, x d = .ok (a d, g d))
    (hg : ∀ d, (g d).findings.filterMap Finding.unresolved? = d.findings.filterMap Finding.unresolved?) :
    Makes known [] x := by
  intro d
  rw [hx d]
  exact .ok (hg d) fun _ => rfl

theorem makes_pure (a : α) : Makes known [] (pure a : Compiling α) :=
  makes_nothing (fun _ => rfl) fun _ => rfl

theorem makes_note {f : Finding} (h : f.unresolved? = none) : Makes known [] (note f) :=
  makes_nothing (fun _ => rfl) fun _ => List.filterMap_cons_none h

theorem Makes.bind {x : Compiling α} {f : α → Compiling β} (hx : Makes known l x)
    (hf : ∀ a, Makes known r (f a)) : Makes known (l ++ r) (x >>= f) := by
  intro d
  have hd := hx d
  change Checked known (l ++ r) d (Except.bind (x d) fun a => f a.1 a.2)
  cases hxd : x d with
  | error err =>
      rw [hxd] at hd
      cases hd with
      | @error c hs hc =>
          refine .error hs ?_
          rw [missing_append, List.head?_append, hc]
          rfl
  | ok a =>
      obtain ⟨a, e⟩ := a
      rw [hxd] at hd
      cases hd with
      | ok hf₁ hs₁ =>
          have he := hf a e
          change Checked known (l ++ r) d (f a e)
          cases hfe : f a e with
          | error err =>
              rw [hfe] at he
              cases he with
              | error hs hc =>
                  refine .error hs ?_
                  rw [missing_append, hs₁ hs]
                  exact hc
          | ok b =>
              obtain ⟨b, e'⟩ := b
              rw [hfe] at he
              cases he with
              | ok hf₂ hs₂ =>
                  refine .ok ?_ ?_
                  · rw [hf₂, hf₁, missing_append, List.reverse_append, List.append_assoc]
                  · intro hs
                    rw [missing_append, hs₁ hs, hs₂ hs]
                    rfl

theorem Makes.bind_nothing {x : Compiling α} {f : α → Compiling β} (hx : Makes known l x)
    (hf : ∀ a, Makes known [] (f a)) : Makes known l (x >>= f) := by
  have h := hx.bind hf
  rwa [List.append_nil] at h

theorem makes_checkTarget (known : Known) (source target : ItemId) :
    Makes known [(source, target)] (checkTarget known source target) := by
  intro d
  unfold checkTarget
  cases hk : known.ids.contains target with
  | true =>
      have hm : missing known [(source, target)] = [] := by simp [missing, hk]
      refine .ok ?_ fun _ => hm
      rw [hm]
      rfl
  | false =>
      have hm : missing known [(source, target)] = [(source, target)] := by simp [missing, hk]
      simp only [Bool.false_eq_true, if_false]
      split
      · exact .error (c := (source, target)) ‹_› (by rw [hm]; rfl)
      · refine .ok ?_ fun hs => absurd hs ‹_›
        rw [hm]
        rfl

end Makes

section Compiling

variable {known : Known}

theorem makes_addRoutes (source : ItemId) (later : List ItemId) (scope : Scope)
    (targets : List ItemId) {routes : SortedMap ItemId Route} {seen : List ItemId}
    (h : ∀ x, routes.contains x = seen.contains x) :
    Makes known ((newTargets later targets seen).map fun target => (source, target))
      (addRoutes known source later scope targets routes) := by
  induction targets generalizing routes seen with
  | nil => exact makes_pure routes
  | cons target r ih =>
      have hi : ∀ (route : Route) (x : ItemId),
          (routes.insert target route).contains x = (target :: seen).contains x := by
        intro route x
        have hx := h x
        simp only [SortedMap.contains] at hx
        simp only [SortedMap.contains, SortedMap.get?_insert]
        by_cases hxt : x = target
        · simp [hxt]
        · have hkey : Key.text x ≠ Key.text target := fun he => hxt (Key.text_inj he)
          simp [hkey, hx, hxt]
      simp only [addRoutes, newTargets, h]
      split
      · exact ih h
      · split
        · exact ih (hi _)
        · exact (makes_checkTarget known source target).bind fun _ => ih (hi _)

theorem makes_branchPlan (item : Item) (later : List ItemId) (scope : Scope) :
    Makes known (branchChecks later item) (branchPlan known item later scope) := by
  simp only [branchPlan, branchChecks]
  split
  · split
    · exact makes_pure none
    · exact (makes_note (f := .conditionsWithoutBranches item.id) rfl).bind_nothing fun _ =>
        makes_pure none
  · have hr : Makes known ((newTargets later (branchTargets item) []).map fun target => (item.id, target))
        (addRoutes known item.id later scope (branchTargets item) .empty) :=
      makes_addRoutes item.id later scope _ fun x => rfl
    exact hr.bind_nothing fun routes => makes_pure _

theorem makes_checkRepeats (source : ItemId) (repeats : List RepeatCondition) :
    Makes known (repeatChecks source repeats) (checkRepeats known source repeats) := by
  induction repeats with
  | nil => exact makes_pure ()
  | cons c r ih =>
      simp only [checkRepeats, repeatChecks, List.filterMap_cons]
      cases c.effect.destination with
      | none => exact ih
      | some target => exact (makes_checkTarget known source target).bind fun _ => ih

theorem makes_armRepeats (l : Loop) (items : List Item) :
    Makes known (if items.isEmpty then [] else repeatChecks l.id l.repeatConditions)
      (armRepeats known l items) := by
  simp only [armRepeats]
  by_cases hl : l.repeatConditions.isEmpty
  · have hnil : (if items.isEmpty then [] else repeatChecks l.id l.repeatConditions) = [] := by
      rw [List.isEmpty_iff.mp hl]
      split <;> rfl
    rw [if_pos hl, hnil]
    exact makes_pure []
  · rw [if_neg hl]
    by_cases hi : items.isEmpty
    · rw [if_pos hi, if_pos hi]
      exact (makes_note (f := .repeatsOfEmptyLoop l.id) rfl).bind_nothing fun _ => makes_pure []
    · rw [if_neg hi, if_neg hi]
      exact (makes_checkRepeats l.id l.repeatConditions).bind_nothing fun _ => makes_pure _

theorem makes_continuation (l : Loop) : Makes known [] (continuation l) := by
  have hc : Makes known [] (do
      if l.isConditional then
        if l.loopConditions.isEmpty then note (.noLoopConditions l.id)
        return l.loopConditions
      else return [] : Compiling (List LoopCondition)) := by
    split
    · split
      · exact (makes_note rfl).bind fun _ => makes_pure _
      · exact makes_pure _
    · exact makes_pure _
  simp only [continuation]
  split
  · exact (makes_note rfl).bind fun _ => hc
  · exact hc

theorem makes_finishPlan (around : Surroundings) (index : Nat) (later : List ItemId) (item : Item) :
    Makes known (branchChecks later item) (finishPlan known around index later item) := by
  exact (makes_branchPlan item later around.scope).bind_nothing fun branch => makes_pure _

theorem makes_nameScope (id : ItemId) : Makes known [] (nameScope id) :=
  makes_nothing (fun _ => rfl) fun _ => rfl

theorem makes_sequence (around : Surroundings) (index : Nat) (items : List Item) :
    Makes known (checksIn items) (sequence known around index items) := by
  induction items using Item.forest_induction generalizing around index with
  | nil =>
      simp only [sequence, checksIn]
      exact makes_pure []
  | trial t r ih =>
      have ht : Makes known (checks (r.map Item.id) (.trial t))
          (node known around index (r.map Item.id) (.trial t)) := by
        simp only [node, checks]
        refine (makes_finishPlan around index _ _).bind fun finish => ?_
        exact (makes_checkRepeats t.id t.repeatConditions).bind_nothing fun _ => makes_pure _
      simp only [sequence, checksIn]
      refine ht.bind fun n => ?_
      exact (ih around (index + 1)).bind_nothing fun nodes => makes_pure _
  | loop l items r ihItems ih =>
      have hl : Makes known (checks (r.map Item.id) (.loop l items))
          (node known around index (r.map Item.id) (.loop l items)) := by
        simp only [node, checks]
        refine (makes_finishPlan around index _ _).bind fun finish => ?_
        refine (makes_nameScope l.id).bind fun scope => ?_
        refine (makes_armRepeats l items).bind fun armed => ?_
        exact (ihItems _ 0).bind_nothing fun nodes =>
          (makes_continuation l).bind_nothing fun c => makes_pure _
      simp only [sequence, checksIn]
      refine hl.bind fun n => ?_
      exact (ih around (index + 1)).bind_nothing fun nodes => makes_pure _

end Compiling

section Compile

variable {settings : Settings} {items : List Item} {t : Timeline}

def knownOf (settings : Settings) (items : List Item) : Known :=
  ⟨(indexItems items (.empty, [])).1, settings.strictTargets⟩

theorem unresolved_indexId (id : ItemId) (name : String) (s : IdSet × List Finding) :
    (indexId id name s).2.filterMap Finding.unresolved? = s.2.filterMap Finding.unresolved? := by
  unfold indexId
  split
  · rfl
  · split <;> rfl

theorem unresolved_indexItems (items : List Item) (s : IdSet × List Finding) :
    (indexItems items s).2.filterMap Finding.unresolved? = s.2.filterMap Finding.unresolved? := by
  induction items using Item.forest_induction generalizing s with
  | nil => simp only [indexItems]
  | trial t r ih => simp only [indexItems, indexItem, ih, unresolved_indexId]
  | loop l items r ihItems ih => simp only [indexItems, indexItem, ih, ihItems, unresolved_indexId]

theorem compile_eq (settings : Settings) (items : List Item) :
    compile settings items =
      (sequence (knownOf settings items) .root 0 items ⟨.start, (indexItems items (.empty, [])).2⟩).map
        fun r => ⟨r.1, (knownOf settings items).ids, r.2.findings.reverse.map Finding.diagnostic⟩ := by
  simp only [compile, StateT.run, bind, Except.bind, Except.map, knownOf]
  split <;> rfl

/-- A tree is compiled unless the settings are strict and some check fails; the first one that does
is then the error. The timeline warns of each check that fails, and knows the ids of the tree. -/
theorem compile_cases (settings : Settings) (items : List Item) :
    (∃ (t : Timeline) (findings : List Finding), compile settings items = .ok t ∧
        t.knownIds = (knownOf settings items).ids ∧
        t.diagnostics = findings.map Finding.diagnostic ∧
        findings.filterMap Finding.unresolved? = missing (knownOf settings items) (checksIn items) ∧
        (settings.strictTargets = true → missing (knownOf settings items) (checksIn items) = [])) ∨
      ∃ c, settings.strictTargets = true ∧
        (missing (knownOf settings items) (checksIn items)).head? = some c ∧
        compile settings items = .error (.unresolvedTarget c.1 c.2) := by
  have hmakes : Makes (knownOf settings items) _ _ := makes_sequence .root 0 items
  have h := hmakes ⟨.start, (indexItems items (.empty, [])).2⟩
  rw [compile_eq]
  generalize sequence (knownOf settings items) .root 0 items _ = x at h
  cases h with
  | @error c hs hc => exact .inr ⟨c, hs, hc, rfl⟩
  | @ok nodes e hf hs =>
      refine .inl ⟨_, e.findings.reverse, rfl, rfl, rfl, ?_, hs⟩
      rw [unresolved_indexItems, List.filterMap_nil, List.append_nil] at hf
      rw [List.filterMap_reverse, hf, List.reverse_reverse]

theorem resolved_iff_known (h : compile settings items = .ok t) :
    t.Resolved ↔ ∀ c ∈ checksIn items, t.knownIds.contains c.2 = true := by
  rcases compile_cases settings items with ⟨u, findings, hu, hids, hd, hf, -⟩ | ⟨c, -, -, herror⟩
  · obtain rfl := Except.ok.inj (h.symm.trans hu)
    rw [Timeline.resolved_iff hd, hf, missing_eq_nil, hids]
  · rw [h] at herror
    cases herror

theorem resolved_of_strict (h : compile settings items = .ok t) (hs : settings.strictTargets = true) :
    t.Resolved := by
  rcases compile_cases settings items with ⟨u, findings, hu, -, hd, hf, hstrict⟩ | ⟨c, -, -, herror⟩
  · obtain rfl := Except.ok.inj (h.symm.trans hu)
    rw [Timeline.resolved_iff hd, hf, hstrict hs]
  · rw [h] at herror
    cases herror

theorem exists_compile (h : checksIn items = []) (settings : Settings) :
    ∃ t, compile settings items = .ok t := by
  rcases compile_cases settings items with ⟨t, _, ht, -⟩ | ⟨c, -, hc, -⟩
  · exact ⟨t, ht⟩
  · rw [h] at hc
    cases hc

end Compile

section Destinations

open Node

variable {ids : IdSet} {x : ItemId}

theorem mem_newTargets {later targets seen : List ItemId} :
    x ∈ newTargets later targets seen ↔ x ∈ targets ∧ x ∉ seen ∧ x ∉ later := by
  induction targets generalizing seen with
  | nil => simp [newTargets]
  | cons target r ih =>
      simp only [newTargets, List.contains_iff_mem]
      split
      · rw [ih]
        grind
      · split
        · rw [ih]
          grind
        · rw [List.mem_cons, ih]
          grind

theorem plannedFinish_jumpsWithin {around : Surroundings} (index : Nat) {later : List ItemId}
    {item : Item} (hk : ∀ c ∈ branchChecks later item, ids.contains c.2 = true)
    (ha : ∀ a ∈ around.armed, ∀ x, a.2.effect.destination = some x → ids.contains x = true) :
    (plannedFinish around index later item).JumpsWithin ids where
  repeats := by
    intro c hc
    obtain ⟨a, harmed, rfl⟩ := List.mem_map.mp hc
    exact ha a (List.mem_of_mem_filter harmed)
  branches := by
    intro b hb x hx hroute
    simp only [plannedFinish, plannedBranch] at hb
    simp only [branchChecks] at hk
    split at hb
    · cases hb
    · rename_i hnonempty
      rw [if_neg hnonempty] at hk
      obtain rfl := Option.some.inj hb
      have htarget : x ∈ branchTargets item := hx
      rw [BranchPlan.routeFor, get?_routesTo, SortedMap.get?_empty, Option.none_or, if_pos htarget]
        at hroute
      have hlater : x ∉ later := by simpa using hroute
      exact hk _ (List.mem_map_of_mem (mem_newTargets.mpr ⟨htarget, by simp, hlater⟩))

theorem known_of_repeatChecks {source : ItemId} {repeats : List RepeatCondition}
    (h : ∀ c ∈ repeatChecks source repeats, ids.contains c.2 = true) {c : RepeatCondition}
    (hc : c ∈ repeats) (hx : c.effect.destination = some x) : ids.contains x = true :=
  h (source, x) (List.mem_map_of_mem (List.mem_filterMap.mpr ⟨c, hc, hx⟩))

theorem Compiled.jumpsWithin {around : Surroundings} {index : Nat} {items : List Item}
    {nodes : List Node} (h : Compiled around index items nodes)
    (hk : ∀ c ∈ checksIn items, ids.contains c.2 = true)
    (ha : ∀ a ∈ around.armed, ∀ x, a.2.effect.destination = some x → ids.contains x = true)
    {n : Node} (hn : n ∈ flattenIn nodes) : n.finish.JumpsWithin ids := by
  induction h with
  | nil => cases hn
  | @trial around index t r nodes hr ih =>
      simp only [checksIn, checks, List.mem_append, or_imp, forall_and] at hk
      simp only [flattenIn_cons, trialNode, flatten_trial, List.singleton_append, List.mem_cons] at hn
      rcases hn with rfl | hn
      · have hf := plannedFinish_jumpsWithin index hk.1.1 ha
        refine ⟨?_, hf.branches⟩
        intro c hc x hx
        rcases List.mem_append.mp hc with hc | hc
        · exact known_of_repeatChecks hk.1.2 hc hx
        · exact hf.repeats c hc x hx
      · exact ih hk.2 ha hn
  | @loop around index l items r inner nodes name hi hr ihInner ih =>
      simp only [checksIn, checks, List.mem_append, or_imp, forall_and] at hk
      simp only [flattenIn_cons, loopNode, flatten_loop, List.cons_append, List.mem_cons,
        List.mem_append] at hn
      rcases hn with rfl | hn | hn
      · exact plannedFinish_jumpsWithin index hk.1.1 ha
      · refine ihInner hk.1.2.2 ?_ hn
        intro a harmed x hx
        simp only [Surroundings.inside, armedBy] at harmed
        split at harmed
        · cases harmed
        · rename_i hnonempty
          rw [if_neg hnonempty] at hk
          obtain ⟨c, hc, rfl⟩ := List.mem_map.mp harmed
          exact known_of_repeatChecks hk.1.2.1 hc hx
      · exact ih hk.2 ha hn

theorem jumpsWithin_of_resolved {settings : Settings} {items : List Item} {t : Timeline}
    (h : compile settings items = .ok t) (hr : t.Resolved) {n : Node} (hn : n ∈ flattenIn t.nodes) :
    n.finish.JumpsWithin t.knownIds :=
  (compiled_of_compile h).jumpsWithin ((resolved_iff_known h).mp hr) (List.forall_mem_nil _) hn

end Destinations

end Compile

end BranchingTimeline
