import BranchingTimeline.Proofs.Timeline.KnownIds

namespace BranchingTimeline

theorem SortedMap.mem_keys_iff {κ α : Type} [Key κ] (m : SortedMap κ α) (k : κ) :
    k ∈ m.keys ↔ m.contains k = true := by
  rw [contains, get?, keys]
  induction m.entries with
  | nil => simp [lookup]
  | cons e l ih =>
      rw [List.map_cons, List.mem_cons, lookup]
      split
      · rename_i h
        simp [Key.text_inj h]
      · rename_i h
        rw [← ih]
        constructor
        · rintro (rfl | hk)
          · exact absurd rfl h
          · exact hk
        · exact .inr

theorem IdSet.contains_union (s t : IdSet) (x : ItemId) :
    SortedMap.contains (s.union t) x = true ↔
      SortedMap.contains s x = true ∨ SortedMap.contains t x = true := by
  have ht : t.entries = t.keys.map (·, ()) := by
    rw [SortedMap.keys, List.map_map]
    exact (List.map_id _).symm
  rw [SortedMap.union, ht, contains_insertMany, SortedMap.mem_keys_iff, or_comm]

namespace Item

theorem map_id_flattenIn (items : List Item) : (flattenIn items).map Item.id = nestedList items := by
  induction items using forest_induction with
  | nil => simp [flattenIn, nestedList]
  | trial t r ih => simp [flattenIn, flatten, nestedList, nested, ih]
  | loop l items r ihItems ih => simp [flattenIn, flatten, nestedList, nested, ihItems, ih]

theorem contains_iff (i : Item) (x : ItemId) : i.contains x = true ↔ ∃ m ∈ i.flatten, m.id = x := by
  cases i with
  | trial t => simp [contains, nested, flatten]
  | loop l items =>
      have hinner : x ∈ nestedList items ↔ ∃ m ∈ flattenIn items, m.id = x := by
        rw [← map_id_flattenIn, List.mem_map]
      simp [contains, nested, flatten, hinner]

end Item

namespace Node

def loopId? : Node → Option ItemId
  | trial .. => none
  | loop _ l _ => some l.id

def dataScope : Node → IdSet
  | trial .. => .empty
  | loop _ l _ => l.dataScope

@[simp] theorem loopId?_trial (p : Place) (t : TrialPlan) : (trial p t).loopId? = none := rfl

@[simp] theorem loopId?_loop (p : Place) (l : LoopPlan) (items : List Node) :
    (loop p l items).loopId? = some l.id := rfl

@[simp] theorem dataScope_trial (p : Place) (t : TrialPlan) : (trial p t).dataScope = .empty := rfl

@[simp] theorem dataScope_loop (p : Place) (l : LoopPlan) (items : List Node) :
    (loop p l items).dataScope = l.dataScope := rfl

theorem mem_flattenIn_iff {n : Node} {nodes : List Node} :
    n ∈ flattenIn nodes ↔ n ∈ nodes ∨ ∃ p l inner, loop p l inner ∈ flattenIn nodes ∧ n ∈ inner := by
  constructor
  · intro h
    induction nodes using forest_induction with
    | nil => simp at h
    | trial p t r ih =>
        simp only [flattenIn_cons, flatten_trial, List.singleton_append, List.mem_cons] at h ⊢
        rcases h with rfl | h
        · exact .inl (.inl rfl)
        · rcases ih h with h | ⟨p', l', inner, hl, hn⟩
          · exact .inl (.inr h)
          · exact .inr ⟨p', l', inner, .inr hl, hn⟩
    | loop p l items r ihItems ih =>
        simp only [flattenIn_cons, flatten_loop, List.cons_append, List.mem_cons, List.mem_append] at h ⊢
        rcases h with rfl | h | h
        · exact .inl (.inl rfl)
        · rcases ihItems h with h | ⟨p', l', inner, hl, hn⟩
          · exact .inr ⟨p, l, items, .inl rfl, h⟩
          · exact .inr ⟨p', l', inner, .inr (.inl hl), hn⟩
        · rcases ih h with h | ⟨p', l', inner, hl, hn⟩
          · exact .inl (.inr h)
          · exact .inr ⟨p', l', inner, .inr (.inr hl), hn⟩
  · rintro (h | ⟨p, l, inner, hl, hn⟩)
    · exact mem_flattenIn h
    · exact flattenIn_subset hl (mem_flattenIn hn)

theorem flattenIn_eq_flatMap (nodes : List Node) : flattenIn nodes = nodes.flatMap flatten := by
  induction nodes with
  | nil => simp
  | cons n r ih => rw [flattenIn_cons, List.flatMap_cons, ih]

end Node

namespace Compile

open Node

variable {around : Surroundings} {index : Nat} {later : List ItemId} {item : Item}
  {items : List Item} {n : Node} {nodes inner : List Node} {p q : Place} {l : LoopPlan}
  {plan : TrialPlan} {x : ItemId}

/-- The nodes of a forest stand for the items of a tree one by one, in depth-first order. -/
theorem Compiled.sources (h : Compiled around index items nodes) :
    List.Forall₂ (fun i n => ∃ around index later, NodeOf around index later i n)
      (Item.flattenIn items) (flattenIn nodes) := by
  induction h with
  | nil => simp [Item.flattenIn]
  | trial hr ih =>
      simp only [Item.flattenIn, Item.flatten, flattenIn_cons, trialNode, flatten_trial,
        List.singleton_append]
      exact .cons ⟨_, _, _, .trial _⟩ ih
  | loop name hi hr ihInner ih =>
      simp only [Item.flattenIn, Item.flatten, flattenIn_cons, loopNode, flatten_loop, List.cons_append]
      exact .cons ⟨_, _, _, .loop name hi⟩ (List.rel_append ihInner ih)

/-- A property of all items of a tree: of the scope of the sequence that an item stands in, the item,
the items after it in that sequence, and its node. -/
inductive Throughout (P : Scope → Item → List Item → Node → Prop) : Scope → List Item → List Node → Prop
  | nil {scope} : Throughout P scope [] []
  | trial {scope t r p plan nodes} (h : P scope (.trial t) r (.trial p plan))
      (hr : Throughout P scope r nodes) : Throughout P scope (.trial t :: r) (.trial p plan :: nodes)
  | loop {scope l items r p plan inner nodes} (h : P scope (.loop l items) r (.loop p plan inner))
      (hi : Throughout P plan.scope items inner) (hr : Throughout P scope r nodes) :
      Throughout P scope (.loop l items :: r) (.loop p plan inner :: nodes)

theorem Compiled.throughout {P : Scope → Item → List Item → Node → Prop}
    (hP : ∀ {around index item r n}, NodeOf around index (r.map Item.id) item n → P around.scope item r n)
    (h : Compiled around index items nodes) : Throughout P around.scope items nodes := by
  induction h with
  | nil => exact .nil
  | trial hr ih => exact .trial (hP (.trial _)) ih
  | loop name hi hr ihInner ih => exact .loop (hP (.loop name hi)) ihInner ih

theorem Throughout.get {P : Scope → Item → List Item → Node → Prop} {scope : Scope}
    (h : Throughout P scope items nodes) {k : Nat} (hi : items[k]? = some item) :
    ∃ n, nodes[k]? = some n ∧ P scope item (items.drop (k + 1)) n := by
  induction h generalizing k with
  | nil => simp at hi
  | trial h _ ih | loop h _ _ _ ih =>
      cases k with
      | zero =>
          obtain rfl := Option.some.inj hi
          exact ⟨_, rfl, h⟩
      | succ k => exact ih hi

theorem Throughout.inside {P : Scope → Item → List Item → Node → Prop} {scope : Scope}
    (h : Throughout P scope items nodes) {k : Nat} {loop : Loop} {sub : List Item}
    (hi : items[k]? = some (.loop loop sub)) :
    ∃ p l inner, nodes[k]? = some (.loop p l inner) ∧ Throughout P l.scope sub inner := by
  induction h generalizing k with
  | nil => simp at hi
  | trial _ _ ih =>
      cases k with
      | zero => cases hi
      | succ k => exact ih hi
  | loop _ hi' _ _ ih =>
      cases k with
      | zero =>
          cases hi
          exact ⟨_, _, _, rfl, hi'⟩
      | succ k => exact ih hi

theorem NodeOf.loopId_eq (h : NodeOf around index later item n) : item.loopId? = n.loopId? := by
  cases h <;> rfl

theorem Compiled.loopIds_eq (h : Compiled around index items nodes) :
    Item.loopIds items = (flattenIn nodes).filterMap loopId? := by
  have hs := h.sources
  rw [Item.loopIds]
  generalize Item.flattenIn items = sources, flattenIn nodes = standing at hs
  induction hs with
  | nil => rfl
  | cons hn _ ih =>
      obtain ⟨_, _, _, hn⟩ := hn
      rw [List.filterMap_cons, List.filterMap_cons, hn.loopId_eq, ih]

theorem Compiled.source (h : Compiled around index items nodes) (hn : n ∈ flattenIn nodes) :
    ∃ item ∈ Item.flattenIn items, ∃ around index later, NodeOf around index later item n := by
  obtain ⟨hlen, hall⟩ := List.forall₂_iff_get.mp h.sources
  obtain ⟨i, hi⟩ := List.get_of_mem hn
  have hl : i.val < (Item.flattenIn items).length := by
    rw [hlen]
    exact i.isLt
  refine ⟨(Item.flattenIn items).get ⟨i, hl⟩, List.get_mem _ _, ?_⟩
  rw [← hi]
  exact hall i hl i.isLt

theorem Compiled.get (h : Compiled around index items nodes) {i : Nat} (hn : nodes[i]? = some n) :
    ∃ item later, items[i]? = some item ∧ NodeOf around (index + i) later item n := by
  induction h generalizing i with
  | nil => simp at hn
  | trial hr ih =>
      cases i with
      | zero =>
          obtain rfl := Option.some.inj hn
          exact ⟨_, _, rfl, .trial _⟩
      | succ i =>
          obtain ⟨item, later, hi, hnode⟩ := ih hn
          exact ⟨item, later, hi, by rwa [Nat.add_right_comm] at hnode⟩
  | loop name hi hr _ ih =>
      cases i with
      | zero =>
          obtain rfl := Option.some.inj hn
          exact ⟨_, _, rfl, .loop name hi⟩
      | succ i =>
          obtain ⟨item, later, hi, hnode⟩ := ih hn
          exact ⟨item, later, hi, by rwa [Nat.add_right_comm] at hnode⟩

theorem Compiled.get_of_get (h : Compiled around index items nodes) {i : Nat} (hi : items[i]? = some item)
    (hn : nodes[i]? = some n) : ∃ later, NodeOf around (index + i) later item n := by
  obtain ⟨_, later, hitem, hnode⟩ := h.get hn
  obtain rfl := Option.some.inj (hi.symm.trans hitem)
  exact ⟨later, hnode⟩

theorem Compiled.get_of_mem (h : Compiled around index items nodes) (hn : n ∈ nodes) :
    ∃ i item later, items[i]? = some item ∧ nodes[i]? = some n ∧ NodeOf around (index + i) later item n := by
  obtain ⟨i, hi⟩ := List.mem_iff_getElem?.mp hn
  obtain ⟨item, later, hitem, hnode⟩ := h.get hi
  exact ⟨i, item, later, hitem, hi, hnode⟩

theorem NodeOf.trial_loop (h : NodeOf around index later item (.trial p plan)) :
    plan.loop = around.loop := by
  cases h
  rfl

theorem NodeOf.branch_eq (h : NodeOf around index later item n) :
    n.finish.branch = plannedBranch later around.scope item := by
  cases h <;> rfl

theorem NodeOf.escalateTo_eq (h : NodeOf around index later item n) :
    n.finish.escalateTo =
      if n.finish.branch.isNone && around.loopBranches then some around.scope else none := by
  cases h <;> rfl

theorem NodeOf.loop_repeats (h : NodeOf around index later item (.loop p l inner)) :
    l.finish.repeats = around.armedAt index := by
  cases h
  rfl

theorem plannedBranch_isSome (later : List ItemId) (scope : Scope) (item : Item) :
    (plannedBranch later scope item).isSome = item.branches.any fun b => !b.isBlank := by
  rw [plannedBranch, Bool.eq_iff_iff]
  split
  · rename_i h
    simpa using h
  · rename_i h
    rw [List.isEmpty_iff, List.filter_eq_nil_iff] at h
    simpa using h

theorem NodeOf.branches_ne_nil (h : NodeOf around index later item n) {b : BranchPlan}
    (hb : n.finish.branch = some b) : b.branches ≠ [] := by
  rw [h.branch_eq, plannedBranch] at hb
  split at hb
  · cases hb
  · rename_i hne
    cases hb
    intro he
    exact hne (List.isEmpty_iff.mpr he)

theorem armedAt_inside {loop : Loop} {sub : List Item} (h : sub ≠ []) (scope : Scope) (i : Nat) :
    (Surroundings.inside loop scope (armedBy loop sub)).armedAt i =
      loop.repeatConditions.filter fun c => armingPosition sub c.rules = i := by
  simp [Surroundings.armedAt, Surroundings.inside, armedBy, h, List.filter_map, Function.comp_def]

theorem contains_dataScope (id : ItemId) (nodes : List Node) (x : ItemId) :
    SortedMap.contains (dataScope id nodes) x = true ↔
      x = id ∨ ∃ n ∈ nodes, SortedMap.contains n.dataScope x = true := by
  have hstart : SortedMap.contains (IdSet.ofList [id]) x = true ↔ x = id := by
    simp [IdSet.contains_ofList]
  rw [dataScope, ← hstart]
  generalize IdSet.ofList [id] = s
  induction nodes generalizing s with
  | nil => simp
  | cons n r ih =>
      rw [List.foldl_cons]
      refine (ih _).trans ?_
      cases n with
      | trial => simp [SortedMap.contains]
      | loop p l inner => simp [IdSet.contains_union, or_assoc]

theorem Compiled.dataScope_iff (h : Compiled around index items nodes) (x : ItemId) :
    (∃ n ∈ nodes, SortedMap.contains n.dataScope x = true) ↔
      ∃ n ∈ flattenIn nodes, n.loopId? = some x := by
  induction h with
  | nil => simp
  | trial hr ih =>
      simpa [flattenIn_cons, trialNode, SortedMap.contains] using ih
  | @loop around index l items r inner nodes name hi hr ihInner ih =>
      have hhead : SortedMap.contains (dataScope l.id inner) x = true ↔
          l.id = x ∨ ∃ n ∈ flattenIn inner, n.loopId? = some x := by
        rw [contains_dataScope, ihInner, eq_comm]
      simp only [flattenIn_cons, loopNode, flatten_loop, List.cons_append, List.mem_cons,
        List.mem_append, or_and_right, exists_or, exists_eq_left, dataScope_loop, loopId?_loop, ih,
        loopPlan, hhead, Option.some.injEq, or_assoc]

theorem NodeOf.reads_iff (h : NodeOf around index later item (.loop p l inner)) (x : ItemId) :
    SortedMap.contains l.dataScope x = true ↔
      x = l.id ∨ ∃ n ∈ flattenIn inner, n.loopId? = some x := by
  cases h with
  | loop name hi => rw [← hi.dataScope_iff, ← contains_dataScope]; rfl

theorem Compiled.loop_source (h : Compiled around index items nodes)
    (hl : .loop p l inner ∈ flattenIn nodes) :
    ∃ loop sub around index later, .loop loop sub ∈ Item.flattenIn items ∧
      NodeOf around index later (.loop loop sub) (.loop p l inner) ∧ l.id = loop.id ∧
      Compiled (.inside loop l.scope (armedBy loop sub)) 0 sub inner := by
  obtain ⟨item, hitem, around', index', later', hnode⟩ := h.source hl
  cases hnode with
  | loop name hi => exact ⟨_, _, _, _, _, hitem, .loop name hi, rfl, hi⟩

theorem Compiled.loop_of_mem (h : Compiled around index items nodes)
    (hl : .loop p l inner ∈ flattenIn nodes) (hn : .trial q plan ∈ inner) :
    plan.loop = some l.id := by
  obtain ⟨loop, sub, _, _, _, -, -, hid, hi⟩ := h.loop_source hl
  obtain ⟨_, _, _, -, -, hchild⟩ := hi.get_of_mem hn
  rw [hid]
  exact hchild.trial_loop

/-- If no two loops share an id, a loop reads the records of exactly the trials that stand in it, at
any depth. -/
theorem Compiled.reads_trial_iff (h : Compiled .root index items nodes)
    (hd : (Item.loopIds items).Nodup) (hl : .loop p l inner ∈ flattenIn nodes)
    (hn : .trial q plan ∈ flattenIn nodes) :
    (∃ x, plan.loop = some x ∧ SortedMap.contains l.dataScope x = true) ↔
      .trial q plan ∈ flattenIn inner := by
  obtain ⟨_, _, _, _, _, -, hnode, -⟩ := h.loop_source hl
  have hsub := flattenIn_subset hl
  constructor
  · rintro ⟨x, hx, hread⟩
    rcases mem_flattenIn_iff.mp hn with htop | ⟨p', l', inner', hl', hin⟩
    · obtain ⟨_, _, _, -, -, hchild⟩ := h.get_of_mem htop
      rw [hchild.trial_loop] at hx
      cases hx
    · obtain rfl := Option.some.inj (hx.symm.trans (h.loop_of_mem hl' hin))
      rw [h.loopIds_eq] at hd
      rcases (hnode.reads_iff _).mp hread with hid | ⟨m, hm, hid⟩
      · have hsame := eq_of_nodup_filterMap hd hl hl' rfl (congrArg some hid)
        cases hsame
        exact mem_flattenIn hin
      · obtain rfl := eq_of_nodup_filterMap hd (hsub hm) hl' hid rfl
        exact mem_flattenIn_iff.mpr (.inr ⟨p', l', inner', hm, hin⟩)
  · intro hin
    rcases mem_flattenIn_iff.mp hin with hin | ⟨p', l', inner', hl', hin⟩
    · exact ⟨l.id, h.loop_of_mem hl hin, (hnode.reads_iff _).mpr (.inl rfl)⟩
    · exact ⟨l'.id, h.loop_of_mem (hsub hl') hin, (hnode.reads_iff _).mpr (.inr ⟨_, hl', rfl⟩)⟩

end Compile

end BranchingTimeline
