import BranchingTimeline.Proofs.Timeline.Loops

namespace BranchingTimeline

theorem filter_lt_succ_perm {α : Type} (l : List α) (place : α → Nat) (n : Nat) :
    ((l.filter fun a => place a < n) ++ l.filter fun a => place a = n).Perm
      (l.filter fun a => place a < n + 1) := by
  have hlow : (l.filter fun a => place a < n + 1).filter (fun a => place a < n) =
      l.filter fun a => place a < n := by
    rw [List.filter_filter]
    refine List.filter_congr fun a _ => Bool.eq_iff_iff.mpr ?_
    simp only [Bool.and_eq_true, decide_eq_true_eq]
    omega
  have hhigh : (l.filter fun a => place a < n + 1).filter (fun a => !decide (place a < n)) =
      l.filter fun a => place a = n := by
    rw [List.filter_filter]
    refine List.filter_congr fun a _ => Bool.eq_iff_iff.mpr ?_
    simp only [Bool.and_eq_true, Bool.not_eq_true', decide_eq_true_eq, decide_eq_false_iff_not]
    omega
  rw [← hlow, ← hhigh]
  exact List.filter_append_perm (fun a => decide (place a < n)) _

theorem perm_flatMap_filter {α : Type} (l : List α) (place : α → Nat) (n : Nat)
    (h : ∀ a ∈ l, place a < n) :
    ((List.range n).flatMap fun k => l.filter fun a => place a = k).Perm l := by
  have hall : (l.filter fun a => place a < n) = l :=
    List.filter_eq_self.mpr fun a ha => decide_eq_true (h a ha)
  have hbelow : ((List.range n).flatMap fun k => l.filter fun a => place a = k).Perm
      (l.filter fun a => place a < n) := by
    clear h hall
    induction n with
    | zero => simp
    | succ n ih =>
        rw [List.range_succ, List.flatMap_append, List.flatMap_singleton]
        exact (ih.append_right _).trans (filter_lt_succ_perm l place n)
  rwa [hall] at hbelow

namespace Item

def ownRepeats : Item → List RepeatCondition
  | trial t => t.repeatConditions
  | loop .. => []

def Holds (i : Item) (x : ItemId) : Prop := ∃ m ∈ i.flatten, m.id = x

/-- The first of some items that an id names, or that has inside it what the id names. -/
def FirstWith (items : List Item) (x : ItemId) (i : Nat) : Prop :=
  (∃ item, items[i]? = some item ∧ item.Holds x) ∧
    ∀ j < i, ∀ item, items[j]? = some item → ¬item.Holds x

/-- The last of the items in which rules find what they read. -/
structure LastRead (items : List Item) (rules : List Rule) (i : Nat) : Prop where
  reads : ∃ r ∈ rules, ∃ x, r.target = some x ∧ FirstWith items x i
  last : ∀ r ∈ rules, ∀ x j, r.target = some x → FirstWith items x j → j ≤ i

/-- The item after the last one in which rules find what they read, or that one if it is the last of
all. Rules that read nothing in the items are checked at the first. -/
inductive CheckedAt (items : List Item) (rules : List Rule) : Nat → Prop
  | after {i} (h : LastRead items rules i) (hi : i + 1 < items.length) : CheckedAt items rules (i + 1)
  | last {i} (h : LastRead items rules i) (hi : i + 1 = items.length) : CheckedAt items rules i
  | first (h : ∀ r ∈ rules, ∀ x, r.target = some x → ∀ item ∈ items, ¬item.Holds x) :
      CheckedAt items rules 0

variable {items : List Item} {rules : List Rule} {x : ItemId} {i j : Nat}

theorem findIdx?_contains : items.findIdx? (·.contains x) = some i ↔ FirstWith items x i := by
  rw [List.findIdx?_eq_some_iff_getElem]
  simp only [contains_iff, FirstWith, Holds]
  constructor
  · rintro ⟨hi, hx, hlow⟩
    refine ⟨⟨items[i], List.getElem?_eq_getElem hi, hx⟩, fun j hj item hitem => ?_⟩
    obtain ⟨hj', rfl⟩ := List.getElem?_eq_some_iff.mp hitem
    exact hlow j hj
  · rintro ⟨⟨item, hitem, hx⟩, hlow⟩
    obtain ⟨hi, rfl⟩ := List.getElem?_eq_some_iff.mp hitem
    exact ⟨hi, hx, fun j hj => hlow j hj _ (List.getElem?_eq_getElem (hj.trans hi))⟩

theorem FirstWith.lt_length (h : FirstWith items x i) : i < items.length := by
  obtain ⟨⟨item, hitem, -⟩, -⟩ := h
  exact (List.getElem?_eq_some_iff.mp hitem).1

theorem LastRead.unique (h : LastRead items rules i) (h' : LastRead items rules j) : i = j := by
  obtain ⟨r, hr, x, hx, hi⟩ := h.reads
  obtain ⟨r', hr', x', hx', hj⟩ := h'.reads
  exact Nat.le_antisymm (h'.last r hr x i hx hi) (h.last r' hr' x' j hx' hj)

theorem LastRead.holds (h : LastRead items rules i) :
    ∃ r ∈ rules, ∃ x, r.target = some x ∧ ∃ item ∈ items, item.Holds x := by
  obtain ⟨r, hr, x, hx, ⟨item, hitem, hholds⟩, -⟩ := h.reads
  exact ⟨r, hr, x, hx, item, List.mem_of_getElem? hitem, hholds⟩

theorem CheckedAt.unique (h : CheckedAt items rules i) (h' : CheckedAt items rules j) : i = j := by
  have hnone : ∀ {k}, LastRead items rules k →
      ¬∀ r ∈ rules, ∀ x, r.target = some x → ∀ item ∈ items, ¬item.Holds x := by
    intro k hk hno
    obtain ⟨r, hr, x, hx, item, hitem, hholds⟩ := hk.holds
    exact hno r hr x hx item hitem hholds
  cases h with
  | after hl hi | last hl hi =>
      cases h' with
      | after hl' hi' | last hl' hi' =>
          have := hl.unique hl'
          omega
      | first hno => exact absurd hno (hnone hl)
  | first hno =>
      cases h' with
      | after hl' _ | last hl' _ => exact absurd hno (hnone hl')
      | first _ => rfl

theorem CheckedAt.lt_length (h : CheckedAt items rules i) (hne : items ≠ []) : i < items.length := by
  have hpos := List.length_pos_iff.mpr hne
  cases h <;> omega

end Item

namespace Compile

open Item Node

variable {items : List Item} {rules : List Rule}

def readPositions (items : List Item) (rules : List Rule) : List Nat :=
  (rules.filterMap Rule.target).filterMap fun id => items.findIdx? (·.contains id)

theorem mem_readPositions {i : Nat} :
    i ∈ readPositions items rules ↔ ∃ r ∈ rules, ∃ x, r.target = some x ∧ FirstWith items x i := by
  simp only [readPositions, List.mem_filterMap, findIdx?_contains]
  constructor
  · rintro ⟨x, ⟨r, hr, hx⟩, hi⟩
    exact ⟨r, hr, x, hx, hi⟩
  · rintro ⟨r, hr, x, hx, hi⟩
    exact ⟨x, ⟨r, hr, hx⟩, hi⟩

theorem armingPosition_eq (items : List Item) (rules : List Rule) :
    armingPosition items rules =
      (((readPositions items rules).map fun i => min (i + 1) (items.length - 1)).max?).getD 0 := by
  simp only [armingPosition, readPositions, List.foldl_max, Nat.zero_max]

/-- The position at which a condition is armed is the one at which it is to be checked. -/
theorem armingPosition_checkedAt (items : List Item) (rules : List Rule) :
    CheckedAt items rules (armingPosition items rules) := by
  rw [armingPosition_eq]
  cases hmax : (readPositions items rules).max? with
  | none =>
      have hnone := List.max?_eq_none_iff.mp hmax
      rw [hnone]
      refine .first fun r hr x hx item hitem hholds => ?_
      have hsome : (items.findIdx? (·.contains x)).isSome := by
        rw [List.findIdx?_isSome, List.any_eq_true]
        exact ⟨item, hitem, (Item.contains_iff item x).mpr hholds⟩
      obtain ⟨i, hi⟩ := Option.isSome_iff_exists.mp hsome
      have hmem := mem_readPositions.mpr ⟨r, hr, x, hx, findIdx?_contains.mp hi⟩
      rw [hnone] at hmem
      cases hmem
  | some i =>
      obtain ⟨hmem, hle⟩ := List.max?_eq_some_iff.mp hmax
      have hread := mem_readPositions.mp hmem
      have hlast : LastRead items rules i :=
        ⟨hread, fun r hr x j hx hj => hle j (mem_readPositions.mpr ⟨r, hr, x, hx, hj⟩)⟩
      have hcapped : (((readPositions items rules).map fun i => min (i + 1) (items.length - 1)).max?) =
          some (min (i + 1) (items.length - 1)) := by
        refine List.max?_eq_some_iff.mpr ⟨List.mem_map_of_mem hmem, fun k hk => ?_⟩
        obtain ⟨j, hj, rfl⟩ := List.mem_map.mp hk
        have := hle j hj
        omega
      obtain ⟨_, _, _, _, hfirst⟩ := hread
      have hlt := hfirst.lt_length
      rw [hcapped, Option.getD_some]
      by_cases hi : i + 1 < items.length
      · rw [Nat.min_eq_left (by omega)]
        exact .after hlast hi
      · rw [show min (i + 1) (items.length - 1) = i by omega]
        exact .last hlast (by omega)

theorem NodeOf.repeats_eq {around : Surroundings} {index : Nat} {later : List ItemId} {item : Item}
    {n : Node} (h : NodeOf around index later item n) :
    n.finish.repeats = item.ownRepeats ++ around.armedAt index := by
  cases h <;> rfl

end Compile

/-- `position` tells which item of a loop checks each repeat condition of the loop. The nodes of the
items have the conditions of the items themselves first. -/
structure Loop.Arms (l : Loop) (items : List Item) (inner : List Node)
    (position : RepeatCondition → Nat) : Prop where
  length : inner.length = items.length
  checked : ∀ c k, Item.CheckedAt items c.rules k ↔ position c = k
  within : items ≠ [] → ∀ c, position c < inner.length
  repeats : ∀ k item n, items[k]? = some item → inner[k]? = some n →
    n.finish.repeats = item.ownRepeats ++ l.repeatConditions.filter fun c => position c = k
  all : items ≠ [] → ((List.range inner.length).flatMap fun k =>
    l.repeatConditions.filter fun c => position c = k).Perm l.repeatConditions
  empty : items = [] → ∀ known d, ∃ e, Compile.armRepeats known l items d = .ok ([], e)

def ArmsRepeats : Item → Node → Prop
  | .loop l items, .loop _ _ inner => ∃ position, l.Arms items inner position
  | .trial _, _ | .loop .., .trial .. => True

namespace Compile

theorem armRepeats_nil (known : Known) (l : Loop) (d : Draft) :
    ∃ e, armRepeats known l [] d = .ok ([], e) := by
  by_cases hl : l.repeatConditions.isEmpty
  · exact ⟨d, by simp only [armRepeats, hl, if_true]; rfl⟩
  · exact ⟨_, by simp only [armRepeats, hl, Bool.false_eq_true, if_false, List.isEmpty_nil, if_true]; rfl⟩

theorem Compiled.arms {l : Loop} {scope : Scope} {items : List Item} {inner : List Node}
    (h : Compiled (.inside l scope (armedBy l items)) 0 items inner) :
    l.Arms items inner fun c => armingPosition items c.rules := by
  have hwithin : items ≠ [] → ∀ c : RepeatCondition, armingPosition items c.rules < inner.length :=
    fun hne c => h.length_eq ▸ (armingPosition_checkedAt items c.rules).lt_length hne
  refine ⟨h.length_eq, fun c k => ?_, hwithin, fun k item n hitem hn => ?_, fun hne => ?_, ?_⟩
  · constructor
    · exact fun hk => (armingPosition_checkedAt items c.rules).unique hk
    · rintro rfl
      exact armingPosition_checkedAt items c.rules
  · obtain ⟨later, hnode⟩ := h.get_of_get hitem hn
    have hne : items ≠ [] := by
      rintro rfl
      cases hitem
    rw [hnode.repeats_eq, Nat.zero_add, armedAt_inside hne]
  · exact perm_flatMap_filter _ _ _ fun c _ => hwithin hne c
  · rintro rfl known d
    exact armRepeats_nil known l d

end Compile

/-- Every loop of a compiled timeline arms each of its repeat conditions on one of the nodes directly in
it, where what the condition reads has just been recorded. The top level arms none. -/
theorem compile_arms {settings : Settings} {items : List Item} {t : Timeline}
    (h : compile settings items = .ok t) :
    (∀ (k : Nat) item n, items[k]? = some item → t.nodes[k]? = some n →
        n.finish.repeats = item.ownRepeats) ∧
      Compile.Throughout (fun _ i _ n => ArmsRepeats i n) .root items t.nodes := by
  have hc := Compile.compiled_of_compile h
  constructor
  · intro k item n hitem hn
    obtain ⟨later, hnode⟩ := hc.get_of_get hitem hn
    rw [hnode.repeats_eq]
    exact List.append_nil _
  · refine hc.throughout ?_
    intro around index item r n hnode
    cases hnode with
    | trial t => trivial
    | loop name hi => exact ⟨_, hi.arms⟩

def repeatAfter (id : Int64) (x : ItemId) : RepeatCondition :=
  ⟨id, [⟨some x, "rt", "", none, .gt, "900"⟩], ⟨some ⟨"a"⟩⟩⟩

def drilled : Loop :=
  { Loop.plain ⟨"l"⟩ with
    repeatConditions := [repeatAfter 1 ⟨"a"⟩, repeatAfter 2 ⟨"c"⟩, repeatAfter 3 ⟨"z"⟩] }

def drilledItems : List Item :=
  [.loop (.plain ⟨"k"⟩) [.trial (.plain ⟨"a"⟩)],
    .trial { Trial.plain ⟨"b"⟩ with repeatConditions := [repeatAfter 0 ⟨"b"⟩] }, .trial (.plain ⟨"c"⟩)]

def drilledTree : List Item := [.trial (.plain ⟨"z"⟩), .loop drilled drilledItems]

def drilledTimeline : Timeline := (compile .default drilledTree).toOption.getD ⟨[], .empty, []⟩

theorem compile_arms_drilled :
    compile .default drilledTree = .ok drilledTimeline ∧
      ∃ p l inner position, drilledTimeline.nodes[1]? = some (.loop p l inner) ∧
        drilled.Arms drilledItems inner position ∧ position (repeatAfter 1 ⟨"a"⟩) = 1 ∧
        position (repeatAfter 2 ⟨"c"⟩) = 2 ∧ position (repeatAfter 3 ⟨"z"⟩) = 0 ∧
        ∀ n, inner[1]? = some n → n.finish.repeats = [repeatAfter 0 ⟨"b"⟩, repeatAfter 1 ⟨"a"⟩] := by
  have hc : compile .default drilledTree = .ok drilledTimeline := by cbv
  obtain ⟨-, hthroughout⟩ := compile_arms hc
  obtain ⟨n, hn, harms⟩ := hthroughout.get (k := 1) rfl
  obtain ⟨p, l, inner, hloop, -⟩ := hthroughout.inside (k := 1) rfl
  obtain rfl := Option.some.inj (hn.symm.trans hloop)
  obtain ⟨position, harms⟩ := harms
  have hposition : ∀ c k, Compile.armingPosition drilledItems c.rules = k → position c = k :=
    fun c k hk => (harms.checked c k).mp (hk ▸ Compile.armingPosition_checkedAt drilledItems c.rules)
  have h₁ := hposition (repeatAfter 1 ⟨"a"⟩) 1 (by cbv)
  have h₂ := hposition (repeatAfter 2 ⟨"c"⟩) 2 (by cbv)
  have h₃ := hposition (repeatAfter 3 ⟨"z"⟩) 0 (by cbv)
  refine ⟨hc, p, l, inner, position, hloop, harms, h₁, h₂, h₃, fun n hn => ?_⟩
  rw [harms.repeats 1 _ n rfl hn]
  simp [drilled, Item.ownRepeats, h₁, h₂, h₃]

end BranchingTimeline
