import BranchingTimeline.Proofs.Session.Hooks
import BranchingTimeline.Proofs.Timeline.Loops

namespace BranchingTimeline

theorem ItemId.named?_eq_some_iff {id : Option ItemId} {x : ItemId} :
    named? id = some x ↔ id = some x ∧ x.isBlank = false := by
  rw [named?, Option.filter_eq_some_iff]
  simp

/-- An item may branch to its branches and to the targets of its branch conditions, if they are not
blank. -/
def Item.MayBranchTo (i : Item) (x : ItemId) : Prop :=
  x.isBlank = false ∧ (x ∈ i.branches ∨ ∃ c ∈ i.branchConditions, c.effect.target = some x)

namespace BranchPlan

/-- The plan of an item routes all that the item may branch to, and nothing else: within a scope what
stands later in the sequence, and by a jump whatever does not. -/
structure Classifies (b : BranchPlan) (i : Item) (scope : Scope) (later : List Item) : Prop where
  branches : b.branches = i.branches.filter fun x => !x.isBlank
  conditions : b.conditions = i.branchConditions
  keys : ∀ x, x ∈ b.routes.keys ↔ i.MayBranchTo x
  within : ∀ x s, b.routes.get? x = some (.scope s) ↔
    i.MayBranchTo x ∧ s = scope ∧ ∃ j ∈ later, j.id = x
  jump : ∀ x, b.routes.get? x = some .jump ↔ i.MayBranchTo x ∧ ∀ j ∈ later, j.id ≠ x

/-- What is selected when some records are the latest has a route of its own, which is taken. -/
structure Delivers (b : BranchPlan) (latest : Lookup) (choice : BranchChoice) (route : Route) : Prop where
  selected : b.select latest = some choice
  notBlank : choice.target.isBlank = false
  listed : choice.target ∈ b.branches ∨ ∃ c ∈ b.conditions, c.effect.target = some choice.target
  routed : b.routes.get? choice.target = some route
  taken : ∀ c : Context, c.takeBranch b latest =
    (.branched choice.target route, c.follow route choice.target choice.parameters)

theorem mem_keys_iff (b : BranchPlan) (x : ItemId) :
    x ∈ b.routes.keys ↔ ∃ route, b.routes.get? x = some route := by
  rw [SortedMap.mem_keys_iff, Compile.contains_iff]

variable {b : BranchPlan} {i : Item} {scope : Scope} {later : List Item}

theorem Classifies.mayBranchTo (h : b.Classifies i scope later) {latest : Lookup}
    {choice : BranchChoice} (hs : b.select latest = some choice) : i.MayBranchTo choice.target := by
  rcases mem_of_select hs with hb | ⟨c, hc, hd⟩
  · rw [h.branches, List.mem_filter] at hb
    exact ⟨by simpa using hb.2, .inl hb.1⟩
  · rw [BranchTo.destination, ItemId.named?_eq_some_iff] at hd
    rw [h.conditions] at hc
    exact ⟨hd.2, .inr ⟨c, hc, hd.1⟩⟩

theorem Classifies.delivers (h : b.Classifies i scope later) (hne : b.branches ≠ []) (latest : Lookup) :
    ∃ choice route, b.Delivers latest choice route := by
  obtain ⟨choice, hs⟩ := exists_select hne latest
  have hmay := h.mayBranchTo hs
  obtain ⟨route, hroute⟩ := (b.mem_keys_iff _).mp ((h.keys _).mpr hmay)
  refine ⟨choice, route, hs, hmay.1, ?_, hroute, ?_⟩
  · rcases mem_of_select hs with hb | ⟨c, hc, hd⟩
    · exact .inl hb
    · exact .inr ⟨c, hc, (ItemId.named?_eq_some_iff.mp hd).1⟩
  · intro c
    have hrouteFor : b.routeFor choice.target = route := by rw [routeFor, hroute, Option.getD_some]
    simp only [Context.takeBranch, hs, hrouteFor]

end BranchPlan

/-- A node has a branch plan if its item has a branch that is not blank, and then the plan is one of
its own scope. -/
structure Routed (scope : Scope) (i : Item) (later : List Item) (n : Node) : Prop where
  guard : n.guard.scope = scope
  planned : n.finish.branch.isSome = true ↔ ∃ x ∈ i.branches, x.isBlank = false
  classifies : ∀ b, n.finish.branch = some b → b.Classifies i n.guard.scope later
  delivers : ∀ b, n.finish.branch = some b → ∀ latest, ∃ choice route, b.Delivers latest choice route

namespace Compile

theorem mem_branchTargets (i : Item) (x : ItemId) : x ∈ branchTargets i ↔ i.MayBranchTo x := by
  simp only [branchTargets, List.mem_append, List.mem_filter, List.mem_filterMap, BranchTo.destination,
    ItemId.named?_eq_some_iff, Bool.not_eq_true', Item.MayBranchTo]
  grind

theorem get?_routesTo_empty (later : List ItemId) (scope : Scope) (i : Item) (x : ItemId) (route : Route) :
    (routesTo later scope (branchTargets i) .empty).get? x = some route ↔
      i.MayBranchTo x ∧ route = if x ∈ later then .scope scope else .jump := by
  rw [get?_routesTo, SortedMap.get?_empty, Option.none_or, ← mem_branchTargets]
  split
  · rename_i h
    simp [h, eq_comm]
  · rename_i h
    simp [h]

theorem plannedBranch_classifies {later : List Item} {scope : Scope} {i : Item} {b : BranchPlan}
    (h : plannedBranch (later.map Item.id) scope i = some b) : b.Classifies i scope later := by
  rw [plannedBranch] at h
  split at h
  · cases h
  · cases h
    have hroute := get?_routesTo_empty (later.map Item.id) scope i
    refine ⟨rfl, rfl, fun x => ?_, fun x s => ?_, fun x => ?_⟩
    · rw [BranchPlan.mem_keys_iff]
      simp [hroute]
    · rw [hroute, and_congr_right_iff, ← List.mem_map]
      intro _
      split <;> simp [*]
    · rw [hroute, and_congr_right_iff]
      intro _
      simp only [List.mem_map]
      split <;> simp_all

theorem NodeOf.routed {around : Surroundings} {index : Nat} {later : List Item} {i : Item} {n : Node}
    (h : NodeOf around index (later.map Item.id) i n) : Routed around.scope i later n := by
  have hclass : ∀ b, n.finish.branch = some b → b.Classifies i n.guard.scope later := by
    intro b hb
    rw [h.branch_eq] at hb
    rw [h.guard_scope]
    exact plannedBranch_classifies hb
  refine ⟨h.guard_scope, ?_, hclass, ?_⟩
  · rw [h.branch_eq, plannedBranch_isSome]
    simp
  · exact fun b hb => (hclass b hb).delivers (h.branches_ne_nil hb)

end Compile

/-- In a compiled timeline every plan routes exactly what its item may branch to, and whatever the
records are, the selected target is not blank and has a route in the plan. -/
theorem compile_routes {settings : Settings} {items : List Item} {t : Timeline}
    (h : compile settings items = .ok t) : Compile.Throughout Routed .root items t.nodes :=
  (Compile.compiled_of_compile h).throughout Compile.NodeOf.routed

def signpost : Trial :=
  { Trial.plain ⟨"s"⟩ with
    branches := [⟨""⟩, ⟨"b"⟩, ⟨"x"⟩]
    branchConditions := [⟨1, [], ⟨some ⟨"c"⟩, none⟩⟩, ⟨2, [], ⟨some ⟨" "⟩, none⟩⟩] }

def signpostItems : List Item :=
  [.trial signpost, .loop (.plain ⟨"k"⟩) [.trial (.plain ⟨"c"⟩)], .trial (.plain ⟨"b"⟩),
    .trial (.plain ⟨"b"⟩)]

def signposted : List Item := [.loop (.plain ⟨"l"⟩) signpostItems, .trial (.plain ⟨"x"⟩)]

def signpostedTimeline : Timeline := (compile .default signposted).toOption.getD ⟨[], .empty, []⟩

theorem compile_routes_signposted :
    compile .default signposted = .ok signpostedTimeline ∧
      ∃ p l inner n b, signpostedTimeline.nodes[0]? = some (.loop p l inner) ∧ inner[0]? = some n ∧
        n.finish.branch = some b ∧ b.routes.get? ⟨"b"⟩ = some (.scope n.guard.scope) ∧
        b.routes.get? ⟨"c"⟩ = some .jump ∧ b.routes.get? ⟨"x"⟩ = some .jump ∧ ⟨""⟩ ∉ b.routes.keys ∧
        ∀ latest, ∃ choice route, b.Delivers latest choice route := by
  have hc : compile .default signposted = .ok signpostedTimeline := by cbv
  obtain ⟨p, l, inner, hloop, hinner⟩ := (compile_routes hc).inside (k := 0) rfl
  obtain ⟨n, hn, hrouted⟩ := hinner.get (k := 0) rfl
  obtain ⟨b, hb⟩ := Option.isSome_iff_exists.mp (hrouted.planned.mpr ⟨⟨"b"⟩, by decide, by decide⟩)
  have hclass := hrouted.classifies b hb
  have hlater : (signpostItems.drop 1).map Item.id = [⟨"k"⟩, ⟨"b"⟩, ⟨"b"⟩] := rfl
  have hjump : ∀ x, (Item.trial signpost).MayBranchTo x → x ∉ (signpostItems.drop 1).map Item.id →
      b.routes.get? x = some .jump := fun x hmay hnot =>
    (hclass.jump x).mpr ⟨hmay, fun j hj hid => hnot (List.mem_map.mpr ⟨j, hj, hid⟩)⟩
  refine ⟨hc, p, l, inner, n, b, hloop, hn, hb, ?_, ?_, ?_, ?_, hrouted.delivers b hb⟩
  · exact (hclass.within _ _).mpr ⟨⟨by decide, .inl (by decide)⟩, rfl,
      List.mem_map.mp (hlater ▸ by decide)⟩
  · exact hjump _ ⟨by decide, .inr ⟨_, List.mem_cons_self, rfl⟩⟩ (hlater ▸ by decide)
  · exact hjump _ ⟨by decide, .inl (by decide)⟩ (hlater ▸ by decide)
  · exact fun hk => absurd ((hclass.keys _).mp hk).1 (by decide)

end BranchingTimeline
