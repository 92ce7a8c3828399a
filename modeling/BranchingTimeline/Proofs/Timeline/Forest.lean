import Mathlib
import BranchingTimeline.Item.Basic
import BranchingTimeline.Timeline.Node

namespace BranchingTimeline

theorem eq_of_nodup_filterMap {α β : Type} {f : α → Option β} {l : List α}
    (h : (l.filterMap f).Nodup) {a b : α} (ha : a ∈ l) (hb : b ∈ l) {x : β} (hfa : f a = some x)
    (hfb : f b = some x) : a = b := by
  have hsymm : Std.Symm fun a b : α => ∀ x, f a = some x → ∀ y, f b = some y → x ≠ y :=
    ⟨fun a b h x hx y hy he => h y hy x hx he.symm⟩
  by_contra hne
  exact (List.pairwise_filterMap.mp h).forall ha hb hne _ hfa _ hfb rfl

theorem Item.forest_induction {motive : List Item → Prop} (nil : motive [])
    (trial : ∀ t r, motive r → motive (.trial t :: r))
    (loop : ∀ l items r, motive items → motive r → motive (.loop l items :: r)) :
    ∀ items, motive items :=
  @Item.rec_1 (fun i => ∀ r, motive r → motive (i :: r)) motive
    trial (fun l items h r hr => loop l items r h hr) nil (fun _ r hi hr => hi r hr)

namespace Item

mutual

def flatten : Item → List Item
  | trial t => [trial t]
  | loop l items => loop l items :: flattenIn items

def flattenIn : List Item → List Item
  | [] => []
  | i :: r => flatten i ++ flattenIn r

end

def loopId? : Item → Option ItemId
  | trial _ => none
  | loop l _ => some l.id

def loopIds (items : List Item) : List ItemId := (flattenIn items).filterMap loopId?

@[simp] theorem loopIds_nil : loopIds [] = [] := by simp only [loopIds, flattenIn, List.filterMap_nil]

@[simp] theorem loopIds_trial (t : Trial) (r : List Item) : loopIds (trial t :: r) = loopIds r := by
  simp [loopIds, flattenIn, flatten, List.filterMap_cons, loopId?]

@[simp] theorem loopIds_loop (l : Loop) (items r : List Item) :
    loopIds (loop l items :: r) = l.id :: (loopIds items ++ loopIds r) := by
  simp [loopIds, flattenIn, flatten, loopId?]

end Item

namespace Node

theorem forest_induction {motive : List Node → Prop} (nil : motive [])
    (trial : ∀ p t r, motive r → motive (.trial p t :: r))
    (loop : ∀ p l items r, motive items → motive r → motive (.loop p l items :: r)) :
    ∀ nodes, motive nodes :=
  @Node.rec_1 (fun n => ∀ r, motive r → motive (n :: r)) motive
    trial (fun p l items h r hr => loop p l items r h hr) nil (fun _ r hn hr => hn r hr)

mutual

def flatten : Node → List Node
  | trial p t => [trial p t]
  | loop p l items => loop p l items :: flattenIn items

def flattenIn : List Node → List Node
  | [] => []
  | n :: r => flatten n ++ flattenIn r

end

def inner? : Node → Option Scope
  | trial .. => none
  | loop _ l _ => some l.scope

def scopesIn (nodes : List Node) : List Scope := (flattenIn nodes).filterMap inner?

@[simp] theorem flattenIn_nil : flattenIn [] = [] := by simp only [flattenIn]

theorem flattenIn_cons (n : Node) (r : List Node) :
    flattenIn (n :: r) = flatten n ++ flattenIn r := by simp only [flattenIn]

@[simp] theorem flatten_trial (p : Place) (t : TrialPlan) : flatten (trial p t) = [trial p t] := by
  simp only [flatten]

@[simp] theorem flatten_loop (p : Place) (l : LoopPlan) (items : List Node) :
    flatten (loop p l items) = loop p l items :: flattenIn items := by simp only [flatten]

theorem mem_flatten (n : Node) : n ∈ flatten n := by cases n <;> simp

theorem flatten_subset {n : Node} {nodes : List Node} (h : n ∈ nodes) :
    flatten n ⊆ flattenIn nodes := by
  induction nodes with
  | nil => cases h
  | cons m r ih =>
      rw [flattenIn_cons]
      rcases List.mem_cons.mp h with rfl | h
      · exact List.subset_append_left _ _
      · exact List.Subset.trans (ih h) (List.subset_append_right _ _)

theorem mem_flattenIn {n : Node} {nodes : List Node} (h : n ∈ nodes) : n ∈ flattenIn nodes :=
  flatten_subset h (mem_flatten n)

theorem flattenIn_subset {p : Place} {l : LoopPlan} {items nodes : List Node}
    (h : loop p l items ∈ flattenIn nodes) : flattenIn items ⊆ flattenIn nodes := by
  induction nodes using forest_induction with
  | nil => cases h
  | trial p' t r ih =>
      simp only [flattenIn_cons, flatten_trial, List.singleton_append, List.mem_cons, reduceCtorEq,
        false_or] at h ⊢
      exact List.Subset.trans (ih h) (List.subset_cons_self _ _)
  | loop p' l' items' r ihItems ih =>
      simp only [flattenIn_cons, flatten_loop, List.cons_append, List.mem_cons, List.mem_append,
        loop.injEq] at h ⊢
      rcases h with ⟨-, -, rfl⟩ | h | h
      · intro m hm
        simp [hm]
      · intro m hm
        simp [ihItems h hm]
      · intro m hm
        simp [ih h hm]

theorem flatten_subset_flattenIn {n : Node} {nodes : List Node} (h : n ∈ flattenIn nodes) :
    flatten n ⊆ flattenIn nodes := by
  cases n with
  | trial p t => simpa using h
  | loop p l items => simpa using ⟨h, flattenIn_subset h⟩

@[simp] theorem scopesIn_nil : scopesIn [] = [] := by simp [scopesIn]

@[simp] theorem scopesIn_trial (p : Place) (t : TrialPlan) (r : List Node) :
    scopesIn (trial p t :: r) = scopesIn r := by
  simp [scopesIn, flattenIn_cons, List.filterMap_cons, inner?]

@[simp] theorem scopesIn_loop (p : Place) (l : LoopPlan) (items r : List Node) :
    scopesIn (loop p l items :: r) = l.scope :: (scopesIn items ++ scopesIn r) := by
  simp [scopesIn, flattenIn_cons, inner?]

end Node

/-- The sequences of a timeline, each with its scope: the top level and the bodies of loops. -/
def Timeline.IsSequence (t : Timeline) (scope : Scope) (nodes : List Node) : Prop :=
  (scope = .root ∧ nodes = t.nodes) ∨
    ∃ p l, Node.loop p l nodes ∈ Node.flattenIn t.nodes ∧ scope = l.scope

end BranchingTimeline
