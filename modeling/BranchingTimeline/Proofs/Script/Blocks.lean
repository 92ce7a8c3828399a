import BranchingTimeline.Proofs.Script.Lines

namespace BranchingTimeline

namespace Node

def holder (name : String) : Node → Variable
  | trial .. => .node name
  | loop .. => .loop name

def constants (name : String) : Node → List Variable
  | trial .. => [.trial name, .node name]
  | loop .. => [.loop name]

def items : Node → List Node
  | trial .. => []
  | loop _ _ items => items

end Node

namespace Emit

open Node

/-- The lines for a node that was given a name, with `children` the variables of the nodes in it. -/
def block (name : String) (children : List Variable) : Node → List Line
  | .trial p t => trialLines p t name
  | .loop p l _ => loopLines p l name children

/-- The lines of some nodes, the variables that hold those, and all nodes that the lines declare, each
with its name: the nodes in a loop come before it. -/
inductive Emitted : List Node → List Line → List Variable → List (Node × String) → Prop
  | nil : Emitted [] [] [] []
  | trial {p t r lines holders named} (name : String) (hr : Emitted r lines holders named) :
      Emitted (.trial p t :: r) (trialLines p t name ++ lines) (.node name :: holders)
        ((.trial p t, name) :: named)
  | loop {p l items r body children inner lines holders named} (name : String)
      (hi : Emitted items body children inner) (hr : Emitted r lines holders named) :
      Emitted (.loop p l items :: r) (body ++ loopLines p l name children ++ lines)
        (.loop name :: holders) (inner ++ (.loop p l items, name) :: named)

variable {nodes : List Node} {lines : List Line} {holders known : List Variable}
  {named : List (Node × String)}

theorem emitted_nodes (m : Namer) (nodes : List Node) :
    ∃ named, Emitted nodes (Emit.nodes m nodes).1 (Emit.nodes m nodes).2.1 named ∧
      (Emit.nodes m nodes).2.2.used = (named.map Prod.snd).reverse ++ m.used ∧
      (m.Sound → (Emit.nodes m nodes).2.2.Sound) := by
  induction nodes using forest_induction generalizing m with
  | nil =>
      simp only [Emit.nodes]
      exact ⟨[], .nil, rfl, id⟩
  | trial p t r ih =>
      obtain ⟨named, he, hused, hsound⟩ := ih (m.nameFor t.id).2
      simp only [Emit.nodes, Emit.node]
      refine ⟨_, .trial _ he, ?_, fun hm => hsound (hm.nameFor t.id)⟩
      rw [hused, Namer.nameFor_used]
      simp
  | loop p l items r ihItems ih =>
      obtain ⟨inner, hi, hinner, hsound⟩ := ihItems m
      obtain ⟨named, hr, hused, hsound'⟩ := ih ((Emit.nodes m items).2.2.nameFor l.id).2
      simp only [Emit.nodes, Emit.node]
      refine ⟨_, .loop _ hi hr, ?_, fun hm => hsound' ((hsound hm).nameFor l.id)⟩
      rw [hused, Namer.nameFor_used, hinner]
      simp

theorem Emitted.perm (h : Emitted nodes lines holders named) :
    (named.map Prod.fst).Perm (flattenIn nodes) := by
  induction h with
  | nil => simp
  | trial name _ ih => simpa [flattenIn_cons] using ih
  | loop name _ _ ihInner ih =>
      rw [List.map_append, List.map_cons, flattenIn_cons, flatten_loop]
      exact List.perm_middle.trans ((ihInner.append ih).cons _)

/-- A variable holds a node under the name that this was given. -/
def Holds (named : List (Node × String)) (n : Node) (v : Variable) : Prop :=
  ∃ name, (n, name) ∈ named ∧ v = n.holder name

theorem Holds.mono {named named' : List (Node × String)} (hs : named ⊆ named') {n : Node}
    {v : Variable} (h : Holds named n v) : Holds named' n v := by
  obtain ⟨name, hm, hv⟩ := h
  exact ⟨name, hs hm, hv⟩

theorem Emitted.holds (h : Emitted nodes lines holders named) :
    List.Forall₂ (Holds named) nodes holders := by
  induction h with
  | nil => exact .nil
  | trial name _ ih =>
      refine .cons ⟨name, List.mem_cons_self, rfl⟩ (ih.imp fun n v => ?_)
      exact Holds.mono (List.subset_cons_self _ _)
  | loop name _ _ _ ih =>
      refine .cons ⟨name, by simp, rfl⟩ (ih.imp fun n v => Holds.mono ?_)
      exact List.subset_append_of_subset_right _ (List.subset_cons_self _ _)

theorem Emitted.block_infix (h : Emitted nodes lines holders named) {n : Node} {name : String}
    (hn : (n, name) ∈ named) :
    ∃ children, List.Forall₂ (Holds named) n.items children ∧ block name children n <:+: lines := by
  induction h with
  | nil => cases hn
  | trial name' hr ih =>
      rcases List.mem_cons.mp hn with he | hn
      · cases he
        exact ⟨[], .nil, (List.prefix_append _ _).isInfix⟩
      · obtain ⟨children, hc, hb⟩ := ih hn
        refine ⟨children, hc.imp fun n v => Holds.mono (List.subset_cons_self _ _), ?_⟩
        exact hb.trans (List.suffix_append _ _).isInfix
  | @loop p l items r body children inner lines holders named name' hi hr ihInner ih =>
      have hinner : inner ⊆ inner ++ (.loop p l items, name') :: named := List.subset_append_left _ _
      have hrest : named ⊆ inner ++ (.loop p l items, name') :: named :=
        List.subset_append_of_subset_right _ (List.subset_cons_self _ _)
      rcases List.mem_append.mp hn with hn | hn
      · obtain ⟨children', hc, hb⟩ := ihInner hn
        refine ⟨children', hc.imp fun n v => Holds.mono hinner, ?_⟩
        rw [List.append_assoc]
        exact hb.trans (List.prefix_append _ _).isInfix
      · rcases List.mem_cons.mp hn with he | hn
        · cases he
          exact ⟨children, hi.holds.imp fun n v => Holds.mono hinner, _, _, rfl⟩
        · obtain ⟨children', hc, hb⟩ := ih hn
          refine ⟨children', hc.imp fun n v => Holds.mono hrest, ?_⟩
          exact hb.trans (List.suffix_append _ _).isInfix

theorem Emitted.exists_block (h : Emitted nodes lines holders named) {l : Line} (hl : l ∈ lines) :
    ∃ n name children, (n, name) ∈ named ∧ l ∈ block name children n := by
  induction h with
  | nil => cases hl
  | @trial p t r lines holders named name hr ih =>
      rcases List.mem_append.mp hl with hl | hl
      · exact ⟨.trial p t, name, [], List.mem_cons_self, hl⟩
      · obtain ⟨n, name, children, hn, hl⟩ := ih hl
        exact ⟨n, name, children, List.mem_cons_of_mem _ hn, hl⟩
  | @loop p plan items r body children inner lines holders named name hi hr ihInner ih =>
      rcases List.mem_append.mp hl with hl | hl
      · rcases List.mem_append.mp hl with hl | hl
        · obtain ⟨n, name, children, hn, hl⟩ := ihInner hl
          exact ⟨n, name, children, List.mem_append_left _ hn, hl⟩
        · exact ⟨.loop p plan items, name, children, List.mem_append_right _ List.mem_cons_self, hl⟩
      · obtain ⟨n, name, children, hn, hl⟩ := ih hl
        exact ⟨n, name, children, List.mem_append_right _ (List.mem_cons_of_mem _ hn), hl⟩

def constantsOf (named : List (Node × String)) : List Variable :=
  named.flatMap fun e => e.1.constants e.2

theorem constantsOf_append (named named' : List (Node × String)) :
    constantsOf (named ++ named') = constantsOf named ++ constantsOf named' := List.flatMap_append

theorem constantsOf_cons (n : Node) (name : String) (named : List (Node × String)) :
    constantsOf ((n, name) :: named) = n.constants name ++ constantsOf named := List.flatMap_cons

theorem Emitted.holders_subset (h : Emitted nodes lines holders named) :
    holders ⊆ constantsOf named := by
  induction h with
  | nil => exact List.nil_subset _
  | trial name _ ih =>
      rw [constantsOf_cons]
      exact List.cons_subset.mpr ⟨by simp [constants], List.subset_append_of_subset_right _ ih⟩
  | loop name _ _ _ ih =>
      rw [constantsOf_append, constantsOf_cons]
      refine List.cons_subset.mpr ⟨by simp [constants], ?_⟩
      exact List.subset_append_of_subset_right _ (List.subset_append_of_subset_right _ ih)

/-- Lines for nodes use, apart from each other, only the scopes of the nodes. -/
theorem Emitted.scoped (h : Emitted nodes lines holders named)
    (hs : ∀ n ∈ flattenIn nodes, ∀ s ∈ n.scopes, .ofScope s ∈ known) :
    Scoped known lines (constantsOf named) := by
  induction h generalizing known with
  | nil => exact .nil
  | @trial p t r lines holders named name hr ih =>
      rw [flattenIn_cons, flatten_trial, List.singleton_append, List.forall_mem_cons] at hs
      rw [constantsOf_cons]
      exact (scoped_trialLines name hs.1).append
        ((ih hs.2).mono (List.subset_append_right _ _))
  | @loop p l items r body children inner lines holders named name hi hr ihInner ih =>
      rw [flattenIn_cons, flatten_loop, List.cons_append, List.forall_mem_cons, List.forall_mem_append] at hs
      have hscopes : ∀ s ∈ (Node.loop p l items).scopes, .ofScope s ∈ constantsOf inner ++ known :=
        fun s hmem => List.mem_append_right _ (hs.1 s hmem)
      have hown : Scoped (constantsOf inner ++ known) (loopLines p l name children) [.loop name] :=
        scoped_loopLines name hscopes (List.subset_append_of_subset_left _ hi.holders_subset)
      have hbody := (ihInner hs.2.1).append hown
      rw [constantsOf_append, constantsOf_cons, ← List.append_assoc]
      exact hbody.append ((ih hs.2.2).mono (List.subset_append_right _ _))

end Emit

end BranchingTimeline
