import BranchingTimeline.Proofs.Script.Scoping
import BranchingTimeline.Session.Finish

namespace BranchingTimeline

open Node

/-- The place of a node tells what stands around it and inside it: `around` is the innermost loop
that the node is in, if it is in one, and `inside` are the nodes directly in it. -/
structure Place.Marks (p : Place) (around : Option LoopPlan) (first last : Bool) (id : ItemId)
    (inside : List Node) : Prop where
  id : p.guard.id = id
  scope : p.guard.scope = around.elim .root LoopPlan.scope
  members : ∀ x, p.guard.members.contains x = true ↔ ∃ n ∈ flattenIn inside, n.id = x
  beginsPass : p.guard.beginsPass = (first && around.isSome)
  isLast : p.isLast = (last && around.isSome)

/-- Nodes that stand for items one by one and in order, at every depth: trials for trials, and loops
for loops. -/
inductive Mirrors : Option LoopPlan → Bool → List Item → List Node → Prop
  | nil {around first} : Mirrors around first [] []
  | trial {around first p t plan r nodes} (hp : p.Marks around first r.isEmpty t.id [])
      (hid : plan.id = t.id) (hloop : plan.loop = around.map LoopPlan.id)
      (hr : Mirrors around false r nodes) :
      Mirrors around first (.trial t :: r) (.trial p plan :: nodes)
  | loop {around first p l plan items inner r nodes} (hp : p.Marks around first r.isEmpty l.id inner)
      (hid : plan.id = l.id)
      (hdata : ∀ x, plan.dataScope.contains x = true ↔
        x = l.id ∨ ∃ n ∈ flattenIn inner, n.loopId? = some x)
      (hi : Mirrors (some plan) true items inner) (hr : Mirrors around false r nodes) :
      Mirrors around first (.loop l items :: r) (.loop p plan inner :: nodes)

theorem Node.flatten_eq (n : Node) : n.flatten = n :: flattenIn n.items := by
  cases n <;> simp [items]

namespace Compile

structure Surroundings.Of (s : Surroundings) (around : Option LoopPlan) : Prop where
  scope : s.scope = around.elim .root LoopPlan.scope
  loop : s.loop = around.map LoopPlan.id
  isRoot : s.scope.isRoot = !around.isSome

theorem root_of_none : Surroundings.root.Of none := ⟨rfl, rfl, rfl⟩

variable {around : Surroundings} {plan : Option LoopPlan} {index : Nat} {later : List ItemId}

theorem marks_placeOf (h : around.Of plan) (index : Nat) (r : List Item) (item : Item)
    {inside : List Node}
    (hm : ∀ x, item.descendantIds.contains x = true ↔ ∃ n ∈ flattenIn inside, n.id = x) :
    (placeOf around index (r.map Item.id) item).Marks plan (index = 0) r.isEmpty item.id inside where
  id := rfl
  scope := h.scope
  members := hm
  beginsPass := by simp [placeOf, h.isRoot]
  isLast := by simp [placeOf, h.isRoot]

theorem trial_descendants (t : Trial) (x : ItemId) :
    (Item.trial t).descendantIds.contains x = true ↔ ∃ n ∈ flattenIn [], n.id = x := by
  simp [Item.descendantIds, Item.nested, IdSet.contains_ofList]

theorem Compiled.mirrors {items : List Item} {nodes : List Node} (h : Compiled around index items nodes)
    (hs : around.Of plan) : Mirrors plan (index = 0) items nodes := by
  induction h generalizing plan with
  | nil => exact .nil
  | @trial around index t r nodes hr ih =>
      have hplace := marks_placeOf hs index r (.trial t) (trial_descendants t)
      exact .trial hplace rfl hs.loop (by simpa using ih hs)
  | @loop around index l items r inner nodes name hi hr ihInner ih =>
      have hnode : NodeOf around index (r.map Item.id) (.loop l items) _ := .loop name hi
      have hplace := marks_placeOf hs index r (.loop l items) hnode.members_iff
      refine .loop hplace rfl hnode.reads_iff ?_ (by simpa using ih hs)
      exact ihInner ⟨rfl, rfl, rfl⟩

variable {settings : Settings} {items : List Item} {t : Timeline}

/-- The known ids are those of all items that have one. -/
theorem knownIds_items (h : compile settings items = .ok t) (x : ItemId) :
    t.knownIds.contains x = true ↔ x.isBlank = false ∧ ∃ i ∈ Item.flattenIn items, i.id = x := by
  have hids : (flattenIn t.nodes).map Node.id = (Item.flattenIn items).map Item.id := by
    rw [(compiled_of_compile h).flatten_ids, Item.map_id_flattenIn]
  have hmem : x ∈ (flattenIn t.nodes).map Node.id ↔ x ∈ (Item.flattenIn items).map Item.id := by
    rw [hids]
  rw [List.mem_map, List.mem_map] at hmem
  rw [← hmem]
  exact knownIds_iff h x

theorem members_items (h : compile settings items = .ok t) {n : Node} (hn : n ∈ flattenIn t.nodes)
    (x : ItemId) : n.guard.members.contains x = true ↔ ∃ m ∈ flattenIn n.items, m.id = x := by
  obtain ⟨_, _, _, _, hnode, -⟩ := nodeOf_of_compile h hn
  cases n with
  | trial p plan =>
      have hm : (Node.trial p plan).guard.members = .empty := hnode.trial_members
      simp [hm, Node.items, SortedMap.contains]
  | loop p l inner => exact hnode.members_iff x

/-- The test that a loop makes of its items for a pending jump is the one of its own members. -/
theorem any_members (h : compile settings items = .ok t) {p : Place} {l : LoopPlan} {inner : List Node}
    (hl : .loop p l inner ∈ flattenIn t.nodes) (x : ItemId) :
    (inner.any fun n => n.id = x || n.guard.members.contains x) = p.guard.members.contains x := by
  have hown : p.guard.members.contains x = true ↔ ∃ m ∈ flattenIn inner, m.id = x :=
    members_items h hl x
  have hitem : ∀ n ∈ inner,
      (n.id = x ∨ n.guard.members.contains x = true) ↔ ∃ m ∈ n.flatten, m.id = x := by
    intro n hn
    rw [members_items h (flattenIn_subset hl (mem_flattenIn hn)), flatten_eq]
    simp
  rw [Bool.eq_iff_iff, List.any_eq_true, hown, flattenIn_eq_flatMap]
  constructor
  · rintro ⟨n, hn, hx⟩
    obtain ⟨m, hm, hid⟩ := (hitem n hn).mp (by simpa using hx)
    exact ⟨m, List.mem_flatMap.mpr ⟨n, hn, hm⟩, hid⟩
  · rintro ⟨m, hm, hid⟩
    obtain ⟨n, hn, hm⟩ := List.mem_flatMap.mp hm
    exact ⟨n, hn, by simpa using (hitem n hn).mpr ⟨m, hm, hid⟩⟩

end Compile

def Emit.continueLine (p : Place) (l : LoopPlan) : Line :=
  ⟨2, [.text "return tlContinueLoop(", .literal l.id.toJson, .text ", ", idsLiteral p.guard.members,
    .text ", ", .literal (Condition.listToJson l.continuation), .text ", ", idsLiteral l.dataScope,
    .text ");"]⟩

theorem Emit.continueLine_mem (t : Timeline) (settings : Settings) {p : Place} {l : LoopPlan}
    {inner : List Node} (hl : .loop p l inner ∈ flattenIn t.nodes) :
    continueLine p l ∈ script t settings := by
  refine mem_script_of_block hl settings fun name children => ?_
  simp [block, loopLines, continueLine]

/-- Two ways to answer a pending jump at the end of a loop body, from the items of the loop and from
the members of its node, are the same. -/
structure LoopAgrees (t : Timeline) (p : Place) (l : LoopPlan) (inner : List Node) : Prop where
  test : ∀ x, (inner.any fun n => n.id = x || n.guard.members.contains x) = p.guard.members.contains x
  hook : ∀ (c : Context) (log : DataLog) (jump : ItemId), c.pendingJump = some jump →
    c.continueLoop l inner log =
      if jump = l.id then (true, c.clearJump) else (p.guard.members.contains jump, c)
  script : ∀ settings lines, t.emitLines settings = .ok lines → Emit.continueLine p l ∈ lines

/-- A compiled timeline has the shape of the tree, its nodes tell where they stand, and both ways to
run it agree on which jumps lead into a loop. -/
theorem compile_mirrors {settings : Settings} {items : List Item} {t : Timeline}
    (h : compile settings items = .ok t) :
    Mirrors none true items t.nodes ∧
      (∀ x, t.knownIds.contains x = true ↔ x.isBlank = false ∧ ∃ i ∈ Item.flattenIn items, i.id = x) ∧
      ∀ p l inner, .loop p l inner ∈ flattenIn t.nodes → LoopAgrees t p l inner := by
  refine ⟨(Compile.compiled_of_compile h).mirrors Compile.root_of_none, Compile.knownIds_items h, ?_⟩
  intro p l inner hl
  have htest := Compile.any_members h hl
  refine ⟨htest, fun c log jump hj => ?_, fun settings lines hlines => ?_⟩
  · rw [Context.continueLoop, hj]
    simp only [htest]
  · obtain ⟨-, -, rfl⟩ := t.emitLines_ok hlines
    exact Emit.continueLine_mem t settings hl

def nestedLoops : List Item :=
  [.loop (.plain ⟨"a"⟩)
      [.loop (.plain ⟨"b"⟩) [.trial (.plain ⟨"b"⟩)], .trial (.plain ⟨"y"⟩)],
    .trial (.plain ⟨""⟩)]

def nestedLoopsTimeline : Timeline := (compile .default nestedLoops).toOption.getD ⟨[], .empty, []⟩

theorem compile_mirrors_nested :
    compile .default nestedLoops = .ok nestedLoopsTimeline ∧
      Mirrors none true nestedLoops nestedLoopsTimeline.nodes ∧
      nestedLoopsTimeline.knownIds.contains ⟨"b"⟩ = true ∧
      nestedLoopsTimeline.knownIds.contains ⟨""⟩ = false := by
  have hc : compile .default nestedLoops = .ok nestedLoopsTimeline := by cbv
  obtain ⟨hm, hk, -⟩ := compile_mirrors hc
  refine ⟨hc, hm, (hk _).mpr ⟨by decide, ?_⟩, ?_⟩
  · exact ⟨.trial (.plain ⟨"b"⟩), by simp [nestedLoops, Item.flattenIn, Item.flatten], rfl⟩
  · refine eq_false_of_ne_true fun hx => ?_
    have hblank := ((hk _).mp hx).1
    contradiction

end BranchingTimeline
