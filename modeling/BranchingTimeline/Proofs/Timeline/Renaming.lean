import BranchingTimeline.Proofs.Timeline.Checks
import BranchingTimeline.Proofs.Timeline.Loops
import BranchingTimeline.Proofs.Timeline.ScopeNames

namespace BranchingTimeline

def Trial.unnamed (t : Trial) : Trial := { t with name := "" }

def Loop.unnamed (l : Loop) : Loop := { l with name := "" }

def TrialPlan.unnamed (t : TrialPlan) : TrialPlan := { t with name := "" }

def LoopPlan.unnamed (l : LoopPlan) : LoopPlan := { l with name := "" }

namespace Item

mutual

/-- An item with no name for it and for the items inside it. Two trees are the same without their
names if they differ in nothing but names. -/
def unnamed : Item → Item
  | trial t => trial t.unnamed
  | loop l items => loop l.unnamed (unnamedIn items)

def unnamedIn : List Item → List Item
  | [] => []
  | i :: r => unnamed i :: unnamedIn r

end

theorem unnamedIn_eq_map (items : List Item) : unnamedIn items = items.map unnamed := by
  induction items with
  | nil => simp only [unnamedIn, List.map_nil]
  | cons i r ih => simp only [unnamedIn, ih, List.map_cons]

@[simp] theorem unnamed_trial (t : Trial) : (trial t).unnamed = trial t.unnamed := by
  simp only [unnamed]

@[simp] theorem unnamed_loop (l : Loop) (items : List Item) :
    (loop l items).unnamed = loop l.unnamed (unnamedIn items) := by simp only [unnamed]

@[simp] theorem id_unnamed (i : Item) : i.unnamed.id = i.id := by cases i <;> simp <;> rfl

@[simp] theorem branches_unnamed (i : Item) : i.unnamed.branches = i.branches := by
  cases i <;> simp <;> rfl

@[simp] theorem branchConditions_unnamed (i : Item) :
    i.unnamed.branchConditions = i.branchConditions := by
  cases i <;> simp <;> rfl

@[simp] theorem ids_unnamedIn (items : List Item) : (unnamedIn items).map Item.id = items.map Item.id := by
  simp [unnamedIn_eq_map]

@[simp] theorem isEmpty_unnamedIn (items : List Item) : (unnamedIn items).isEmpty = items.isEmpty := by
  simp [unnamedIn_eq_map]

theorem flattenIn_unnamedIn (items : List Item) :
    flattenIn (unnamedIn items) = (flattenIn items).map unnamed := by
  induction items using forest_induction with
  | nil => simp only [unnamedIn, flattenIn, List.map_nil]
  | trial t r ih =>
      simp only [unnamedIn, flattenIn, unnamed_trial, flatten, ih, List.map_append, List.map_cons,
        List.map_nil]
  | loop l items r ihItems ih =>
      simp only [unnamedIn, flattenIn, unnamed_loop, flatten, ihItems, ih, List.map_append,
        List.map_cons]

@[simp] theorem nestedList_unnamedIn (items : List Item) : nestedList (unnamedIn items) = nestedList items := by
  rw [← map_id_flattenIn, ← map_id_flattenIn, flattenIn_unnamedIn, List.map_map]
  exact List.map_congr_left fun i _ => id_unnamed i

@[simp] theorem nested_unnamed (i : Item) : i.unnamed.nested = i.nested := by
  cases i <;> simp [nested]

@[simp] theorem contains_unnamed (i : Item) (x : ItemId) : i.unnamed.contains x = i.contains x := by
  rw [contains, id_unnamed, nested_unnamed, contains]

@[simp] theorem loopIds_unnamedIn (items : List Item) : loopIds (unnamedIn items) = loopIds items := by
  rw [loopIds, flattenIn_unnamedIn, List.filterMap_map, loopIds]
  refine List.filterMap_congr fun i _ => ?_
  cases i <;> simp [loopId?, Loop.unnamed]

end Item

namespace Node

mutual

def unnamed : Node → Node
  | trial p t => trial p t.unnamed
  | loop p l items => loop p l.unnamed (unnamedIn items)

def unnamedIn : List Node → List Node
  | [] => []
  | n :: r => unnamed n :: unnamedIn r

end

@[simp] theorem unnamedIn_nil : unnamedIn [] = [] := by simp only [unnamedIn]

@[simp] theorem unnamedIn_cons (n : Node) (r : List Node) :
    unnamedIn (n :: r) = n.unnamed :: unnamedIn r := by simp only [unnamedIn]

@[simp] theorem unnamed_trial (p : Place) (t : TrialPlan) : (trial p t).unnamed = trial p t.unnamed := by
  simp only [unnamed]

@[simp] theorem unnamed_loop (p : Place) (l : LoopPlan) (items : List Node) :
    (loop p l items).unnamed = loop p l.unnamed (unnamedIn items) := by simp only [unnamed]

end Node

namespace Compile

open Item Node

variable {around : Surroundings} {index : Nat} {later : List ItemId} {items : List Item}
  {nodes nodes' : List Node}

theorem indexId_congr (id : ItemId) (name name' : String) {s s' : IdSet × List Finding}
    (h : s.1 = s'.1) : (indexId id name s).1 = (indexId id name' s').1 := by
  unfold indexId
  rw [h]
  split
  · rfl
  · split <;> rfl

theorem indexItems_unnamedIn (items : List Item) {s s' : IdSet × List Finding} (h : s.1 = s'.1) :
    (indexItems (Item.unnamedIn items) s).1 = (indexItems items s').1 := by
  induction items using Item.forest_induction generalizing s s' with
  | nil => simpa only [Item.unnamedIn, indexItems] using h
  | trial t r ih =>
      simp only [Item.unnamedIn, Item.unnamed_trial, indexItems, indexItem]
      exact ih (indexId_congr _ _ _ h)
  | loop l items r ihItems ih =>
      simp only [Item.unnamedIn, Item.unnamed_loop, indexItems, indexItem]
      exact ih (ihItems (indexId_congr _ _ _ h))

theorem knownOf_unnamedIn (settings : Settings) (items : List Item) :
    knownOf settings (Item.unnamedIn items) = knownOf settings items := by
  rw [knownOf, knownOf, indexItems_unnamedIn items rfl]

theorem branchChecks_unnamed (later : List ItemId) (i : Item) :
    branchChecks later i.unnamed = branchChecks later i := by
  simp only [branchChecks, branchTargets, branches_unnamed, branchConditions_unnamed, id_unnamed]

theorem checksIn_unnamedIn (items : List Item) : checksIn (Item.unnamedIn items) = checksIn items := by
  induction items using Item.forest_induction with
  | nil => simp only [Item.unnamedIn]
  | trial t r ih =>
      have hb := branchChecks_unnamed (r.map Item.id) (.trial t)
      simp only [Item.unnamedIn, checksIn, ih, ids_unnamedIn, Item.unnamed_trial, checks] at hb ⊢
      rw [hb]
      rfl
  | loop l items r ihItems ih =>
      have hb := branchChecks_unnamed (r.map Item.id) (.loop l items)
      simp only [Item.unnamedIn, checksIn, ih, ids_unnamedIn, Item.unnamed_loop, checks, ihItems,
        isEmpty_unnamedIn] at hb ⊢
      rw [hb]
      rfl

theorem armedBy_unnamed (l : Loop) (items : List Item) :
    armedBy l.unnamed (Item.unnamedIn items) = armedBy l items := by
  have hposition : ∀ rules, armingPosition (Item.unnamedIn items) rules = armingPosition items rules := by
    intro rules
    simp only [armingPosition, unnamedIn_eq_map, List.findIdx?_map, Function.comp_def,
      contains_unnamed, List.length_map]
  simp only [armedBy, isEmpty_unnamedIn, hposition]
  rfl

theorem plannedFinish_unnamed (i : Item) :
    plannedFinish around index later i.unnamed = plannedFinish around index later i := by
  have hbranch : plannedBranch later around.scope i.unnamed = plannedBranch later around.scope i := by
    simp only [plannedBranch, branchTargets, branches_unnamed, branchConditions_unnamed]
  rw [plannedFinish, plannedFinish, hbranch]

theorem placeOf_unnamed (i : Item) :
    placeOf around index later i.unnamed = placeOf around index later i := by
  simp only [placeOf, descendantIds, id_unnamed, nested_unnamed]

theorem trialNode_unnamed (t : Trial) :
    trialNode around index later t.unnamed = (trialNode around index later t).unnamed := by
  rw [trialNode, trialNode, ← Item.unnamed_trial, placeOf_unnamed, plannedFinish_unnamed, Node.unnamed_trial]
  rfl

theorem dataScope_unnamedIn (id : ItemId) (nodes : List Node) :
    dataScope id (Node.unnamedIn nodes) = dataScope id nodes := by
  simp only [dataScope]
  generalize IdSet.ofList [id] = s
  induction nodes generalizing s with
  | nil => rw [Node.unnamedIn_nil]
  | cons n r ih =>
      rw [Node.unnamedIn_cons, List.foldl_cons, List.foldl_cons]
      cases n with
      | trial p t =>
          rw [Node.unnamed_trial]
          exact ih s
      | loop p l items =>
          rw [Node.unnamed_loop]
          exact ih _

theorem loopNode_unnamed (l : Loop) (items : List Item) (scope : Scope) (inner : List Node) :
    loopNode around index later l.unnamed (Item.unnamedIn items) scope (Node.unnamedIn inner) =
      (loopNode around index later l items scope inner).unnamed := by
  rw [loopNode, loopNode, ← Item.unnamed_loop, placeOf_unnamed, plannedFinish_unnamed, Node.unnamed_loop]
  simp only [loopPlan, LoopPlan.unnamed, dataScope_unnamedIn]
  rfl

theorem Compiled.length_scopesIn (h : Compiled around index items nodes) :
    (scopesIn nodes).length = (loopIds items).length := by
  induction h with
  | nil => simp
  | trial _ ih => simpa [trialNode] using ih
  | loop name _ _ ihInner ih => simp [loopNode, ihInner, ih]

theorem Compiled.unnamed_eq (h : Compiled around index items nodes)
    (h' : Compiled around index (Item.unnamedIn items) nodes') (hs : scopesIn nodes' = scopesIn nodes) :
    nodes' = Node.unnamedIn nodes := by
  induction h generalizing nodes' with
  | nil =>
      rw [Item.unnamedIn] at h'
      cases h'
      rw [Node.unnamedIn_nil]
  | @trial around index t r nodes hr ih =>
      rw [Item.unnamedIn, Item.unnamed_trial] at h'
      cases h' with
      | trial hr' =>
          rw [trialNode, scopesIn_trial, trialNode, scopesIn_trial] at hs
          rw [Node.unnamedIn_cons, ih hr' hs, ids_unnamedIn, trialNode_unnamed]
  | @loop around index l items r inner nodes name hi hr ihInner ih =>
      rw [Item.unnamedIn, Item.unnamed_loop] at h'
      cases h' with
      | @loop _ _ _ _ _ inner' nodes' name' hi' hr' =>
          rw [loopNode, scopesIn_loop, loopNode, scopesIn_loop, List.cons.injEq] at hs
          obtain ⟨hname, hs⟩ := hs
          obtain rfl : name' = name := Scope.loop.inj hname
          rw [armedBy_unnamed] at hi'
          have hlen : (scopesIn inner').length = (scopesIn inner).length := by
            rw [hi.length_scopesIn, ← loopIds_unnamedIn]
            exact hi'.length_scopesIn
          obtain ⟨hinner, hrest⟩ := List.append_inj hs hlen
          rw [Node.unnamedIn_cons, ih hr' hrest, ids_unnamedIn, ihInner hi' hinner, loopNode_unnamed]

/-- Without its names a tree has the same timeline but for the names and the findings, or the same
error. -/
theorem compile_unnamedIn (settings : Settings) (items : List Item) :
    (∃ t t', compile settings items = .ok t ∧ compile settings (Item.unnamedIn items) = .ok t' ∧
        t'.nodes = Node.unnamedIn t.nodes ∧ t'.knownIds = t.knownIds) ∨
      ∃ e, compile settings items = .error e ∧ compile settings (Item.unnamedIn items) = .error e := by
  have hcases := compile_cases settings items
  have hcases' := compile_cases settings (Item.unnamedIn items)
  rw [knownOf_unnamedIn, checksIn_unnamedIn] at hcases'
  rcases hcases with ⟨t, _, ht, hids, -, -, hnone⟩ | ⟨c, hstrict, hc, he⟩
  · rcases hcases' with ⟨t', _, ht', hids', -⟩ | ⟨c, hstrict, hc, -⟩
    · refine .inl ⟨t, t', ht, ht', ?_, hids'.trans hids.symm⟩
      refine (compiled_of_compile ht).unnamed_eq (compiled_of_compile ht') ?_
      rw [scopesIn_eq ht, scopesIn_eq ht', loopIds_unnamedIn]
    · rw [hnone hstrict] at hc
      cases hc
  · rcases hcases' with ⟨t', _, -, -, -, -, hnone⟩ | ⟨c', -, hc', he'⟩
    · rw [hnone hstrict] at hc
      cases hc
    · obtain rfl := Option.some.inj (hc.symm.trans hc')
      exact .inr ⟨_, he, he'⟩

end Compile

end BranchingTimeline
