import BranchingTimeline.Proofs.Timeline.Plans

namespace BranchingTimeline

theorem ItemId.named_not_blank {id : Option ItemId} {x : ItemId} (h : ItemId.named? id = some x) :
    x.isBlank = false := by
  have hf := (Option.filter_eq_some_iff.mp h).2
  simpa using hf

namespace IdSet

theorem contains_insert (s : IdSet) (x y : ItemId) :
    SortedMap.contains (s.insert y ()) x = true ↔ x = y ∨ SortedMap.contains s x = true := by
  rw [SortedMap.contains, SortedMap.get?_insert]
  by_cases h : x = y
  · simp [h]
  · have hkey : Key.text x ≠ Key.text y := fun he => h (Key.text_inj he)
    simp [h, hkey, SortedMap.contains]

theorem contains_insertMany (s : IdSet) (ids : List ItemId) (x : ItemId) :
    SortedMap.contains (s.insertMany (ids.map (·, ()))) x = true ↔
      x ∈ ids ∨ SortedMap.contains s x = true := by
  induction ids generalizing s with
  | nil => simp [SortedMap.insertMany]
  | cons y ids ih =>
      have hi := ih (s.insert y ())
      rw [contains_insert] at hi
      rw [List.mem_cons, or_assoc, or_left_comm]
      exact hi

theorem contains_ofList (ids : List ItemId) (x : ItemId) :
    SortedMap.contains (ofList ids) x = true ↔ x ∈ ids := by
  have hempty : ¬SortedMap.contains (.empty : IdSet) x = true := by simp [SortedMap.contains]
  exact (contains_insertMany .empty ids x).trans (or_iff_left hempty)

end IdSet

namespace Compile

open Node

variable {around : Surroundings} {index : Nat} {items : List Item} {nodes : List Node}

theorem contains_indexId (id : ItemId) (name : String) (s : IdSet × List Finding) (x : ItemId) :
    SortedMap.contains (indexId id name s).1 x = true ↔
      (x.isBlank = false ∧ x = id) ∨ SortedMap.contains s.1 x = true := by
  simp only [indexId]
  split
  · rename_i hb
    have hne : ¬(x.isBlank = false ∧ x = id) := by
      rintro ⟨hx, rfl⟩
      simp [hb] at hx
    simp [hne]
  · rename_i hb
    have hb := eq_false_of_ne_true hb
    split
    · rename_i hc
      constructor
      · exact .inr
      · rintro (⟨-, rfl⟩ | h)
        · exact hc
        · exact h
    · rw [IdSet.contains_insert]
      constructor
      · rintro (rfl | h)
        · exact .inl ⟨hb, rfl⟩
        · exact .inr h
      · rintro (⟨-, rfl⟩ | h)
        · exact .inl rfl
        · exact .inr h

theorem contains_indexItems (items : List Item) (s : IdSet × List Finding) (x : ItemId) :
    SortedMap.contains (indexItems items s).1 x = true ↔
      (x.isBlank = false ∧ x ∈ Item.nestedList items) ∨ SortedMap.contains s.1 x = true := by
  induction items using Item.forest_induction generalizing s with
  | nil => simp [indexItems, Item.nestedList]
  | trial t r ih =>
      simp only [indexItems, indexItem, ih, contains_indexId, Item.nestedList, Item.nested,
        List.nil_append, List.mem_cons, Item.id]
      grind
  | loop l items r ihItems ih =>
      simp only [indexItems, indexItem, ih, ihItems, contains_indexId, Item.nestedList,
        Item.nested, List.mem_cons, List.mem_append, Item.id]
      grind

theorem Compiled.flatten_ids (h : Compiled around index items nodes) :
    (flattenIn nodes).map Node.id = Item.nestedList items := by
  induction h with
  | nil => simp [Item.nestedList]
  | trial hr ih =>
      simp only [flattenIn_cons, trialNode, flatten_trial, List.singleton_append, List.map_cons, ih,
        Item.nestedList, Item.nested, List.nil_append]
      rfl
  | loop name hi hr ihInner ih =>
      simp only [flattenIn_cons, loopNode, flatten_loop, List.cons_append, List.map_cons,
        List.map_append, ihInner, ih, Item.nestedList, Item.nested]
      rfl

theorem knownIds_iff {settings : Settings} {t : Timeline} (h : compile settings items = .ok t)
    (x : ItemId) :
    SortedMap.contains t.knownIds x = true ↔
      x.isBlank = false ∧ ∃ n ∈ flattenIn t.nodes, n.id = x := by
  obtain ⟨_, _, _, -, -, hk⟩ := compile_ok h
  rw [hk, contains_indexItems, ← (compiled_of_compile h).flatten_ids]
  simp [SortedMap.contains]

theorem NodeOf.members_iff {later : List ItemId} {item : Item} {p : Place} {l : LoopPlan}
    (h : NodeOf around index later item (.loop p l nodes)) (x : ItemId) :
    SortedMap.contains p.guard.members x = true ↔ ∃ n ∈ flattenIn nodes, n.id = x := by
  cases h with
  | loop name hi =>
      simp only [placeOf, Item.descendantIds, IdSet.contains_ofList, Item.nested]
      rw [← hi.flatten_ids, List.mem_map]

end Compile

end BranchingTimeline
