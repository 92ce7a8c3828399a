import BranchingTimeline.Proofs.Timeline.Forest
import BranchingTimeline.Timeline.Compile

namespace BranchingTimeline.Compile

variable {α β : Type} {known : Known} {d e : Draft}

theorem bind_ok {x : Compiling α} {f : α → Compiling β} {b : β}
    (h : (x >>= f) d = .ok (b, e)) : ∃ a c, x d = .ok (a, c) ∧ f a c = .ok (b, e) := by
  change Except.bind (x d) (fun a => f a.1 a.2) = .ok (b, e) at h
  cases hx : x d with
  | error err => rw [hx] at h; cases h
  | ok a => rw [hx] at h; exact ⟨a.1, a.2, rfl, h⟩

theorem pure_ok {a b : α} (h : (pure a : Compiling α) d = .ok (b, e)) : b = a ∧ e = d := by
  cases h
  exact ⟨rfl, rfl⟩

def routesTo (later : List ItemId) (scope : Scope) :
    List ItemId → SortedMap ItemId Route → SortedMap ItemId Route
  | [], routes => routes
  | target :: r, routes =>
    if routes.contains target then routesTo later scope r routes
    else routesTo later scope r
      (routes.insert target (if later.contains target then .scope scope else .jump))

def branchTargets (item : Item) : List ItemId :=
  (item.branches.filter fun b => !b.isBlank)
    ++ item.branchConditions.filterMap fun c => c.effect.destination

def plannedBranch (later : List ItemId) (scope : Scope) (item : Item) : Option BranchPlan :=
  let branches := item.branches.filter fun b => !b.isBlank
  if branches.isEmpty then none
  else some ⟨branches, item.branchConditions, routesTo later scope (branchTargets item) .empty⟩

def plannedFinish (around : Surroundings) (index : Nat) (later : List ItemId) (item : Item) :
    FinishPlan where
  repeats := around.armedAt index
  branch := plannedBranch later around.scope item
  escalateTo :=
    if (plannedBranch later around.scope item).isNone && around.loopBranches then some around.scope
    else none

def armedBy (l : Loop) (items : List Item) : List (Nat × RepeatCondition) :=
  if items.isEmpty then [] else l.repeatConditions.map fun c => (armingPosition items c.rules, c)

def trialNode (around : Surroundings) (index : Nat) (later : List ItemId) (t : Trial) : Node :=
  .trial (placeOf around index later (.trial t))
    (trialPlan around t (plannedFinish around index later (.trial t)))

def loopNode (around : Surroundings) (index : Nat) (later : List ItemId) (l : Loop)
    (items : List Item) (scope : Scope) (inner : List Node) : Node :=
  .loop (placeOf around index later (.loop l items))
    (loopPlan around l scope (plannedFinish around index later (.loop l items))
      (if l.isConditional then l.loopConditions else []) inner) inner

/-- The nodes that items have from some position on, if their loops get some names or other. -/
inductive Compiled : Surroundings → Nat → List Item → List Node → Prop
  | nil {around index} : Compiled around index [] []
  | trial {around index t r nodes} (hr : Compiled around (index + 1) r nodes) :
      Compiled around index (.trial t :: r) (trialNode around index (r.map Item.id) t :: nodes)
  | loop {around index l items r inner nodes} (name : String)
      (hi : Compiled (.inside l (.loop name) (armedBy l items)) 0 items inner)
      (hr : Compiled around (index + 1) r nodes) :
      Compiled around index (.loop l items :: r)
        (loopNode around index (r.map Item.id) l items (.loop name) inner :: nodes)

theorem note_ok {f : Finding} {u : Unit} (h : note f d = .ok (u, e)) : e.namer = d.namer := by
  cases h
  rfl

theorem checkTarget_ok {source target : ItemId} {u : Unit}
    (h : checkTarget known source target d = .ok (u, e)) : e.namer = d.namer := by
  unfold checkTarget at h
  split at h
  · rw [(pure_ok h).2]
  · split at h
    · cases h
    · exact note_ok h

theorem addRoutes_ok {source : ItemId} {later targets : List ItemId} {scope : Scope}
    {routes m : SortedMap ItemId Route}
    (h : addRoutes known source later scope targets routes d = .ok (m, e)) :
    m = routesTo later scope targets routes ∧ e.namer = d.namer := by
  induction targets generalizing routes d with
  | nil =>
      obtain ⟨hm, he⟩ := pure_ok h
      exact ⟨hm, congrArg Draft.namer he⟩
  | cons target r ih =>
      simp only [addRoutes, routesTo] at h ⊢
      split at h
      · rw [if_pos ‹_›]
        exact ih h
      · rw [if_neg ‹_›]
        split at h
        · rw [if_pos ‹_›]
          exact ih h
        · rw [if_neg ‹_›]
          obtain ⟨u, c, hc, h⟩ := bind_ok h
          rw [← checkTarget_ok hc]
          exact ih h

theorem branchPlan_ok {item : Item} {later : List ItemId} {scope : Scope} {b : Option BranchPlan}
    (h : branchPlan known item later scope d = .ok (b, e)) :
    b = plannedBranch later scope item ∧ e.namer = d.namer := by
  simp only [branchPlan] at h
  simp only [plannedBranch]
  split at h
  · rw [if_pos ‹_›]
    split at h
    · obtain ⟨rfl, rfl⟩ := pure_ok h
      exact ⟨rfl, rfl⟩
    · obtain ⟨u, c, hc, h⟩ := bind_ok h
      obtain ⟨rfl, rfl⟩ := pure_ok h
      exact ⟨rfl, note_ok hc⟩
  · rw [if_neg ‹_›]
    obtain ⟨m, c, hm, h⟩ := bind_ok h
    obtain ⟨rfl, rfl⟩ := pure_ok h
    obtain ⟨rfl, he⟩ := addRoutes_ok hm
    exact ⟨rfl, he⟩

theorem checkRepeats_ok {source : ItemId} {repeats : List RepeatCondition} {u : Unit}
    (h : checkRepeats known source repeats d = .ok (u, e)) : e.namer = d.namer := by
  induction repeats generalizing d with
  | nil => rw [(pure_ok h).2]
  | cons c r ih =>
      simp only [checkRepeats] at h
      cases hc : c.effect.destination with
      | none =>
          rw [hc] at h
          exact ih h
      | some target =>
          rw [hc] at h
          obtain ⟨v, b, hb, h⟩ := bind_ok h
          rw [ih h, checkTarget_ok hb]

theorem armRepeats_ok {l : Loop} {items : List Item} {armed : List (Nat × RepeatCondition)}
    (h : armRepeats known l items d = .ok (armed, e)) :
    armed = armedBy l items ∧ e.namer = d.namer := by
  simp only [armRepeats] at h
  simp only [armedBy]
  split at h
  · rename_i hl
    obtain ⟨rfl, rfl⟩ := pure_ok h
    rw [List.isEmpty_iff.mp hl]
    exact ⟨by split <;> rfl, rfl⟩
  · split at h
    · rw [if_pos ‹_›]
      obtain ⟨u, c, hc, h⟩ := bind_ok h
      obtain ⟨rfl, rfl⟩ := pure_ok h
      exact ⟨rfl, note_ok hc⟩
    · rw [if_neg ‹_›]
      obtain ⟨u, c, hc, h⟩ := bind_ok h
      obtain ⟨rfl, rfl⟩ := pure_ok h
      exact ⟨rfl, checkRepeats_ok hc⟩

theorem loopConditions_ok {l : Loop} {cs : List LoopCondition}
    (h : (do
      if l.isConditional then
        if l.loopConditions.isEmpty then note (.noLoopConditions l.id)
        return l.loopConditions
      else return [] : Compiling (List LoopCondition)) d = .ok (cs, e)) :
    cs = (if l.isConditional then l.loopConditions else []) ∧ e.namer = d.namer := by
  split at h
  · rw [if_pos ‹_›]
    split at h
    · obtain ⟨u, c, hc, h⟩ := bind_ok h
      obtain ⟨rfl, rfl⟩ := pure_ok h
      exact ⟨rfl, note_ok hc⟩
    · obtain ⟨rfl, rfl⟩ := pure_ok h
      exact ⟨rfl, rfl⟩
  · rw [if_neg ‹_›]
    obtain ⟨rfl, rfl⟩ := pure_ok h
    exact ⟨rfl, rfl⟩

theorem continuation_ok {l : Loop} {cs : List LoopCondition}
    (h : continuation l d = .ok (cs, e)) :
    cs = (if l.isConditional then l.loopConditions else []) ∧ e.namer = d.namer := by
  simp only [continuation] at h
  split at h
  · obtain ⟨u, c, hc, h⟩ := bind_ok h
    rw [← note_ok hc]
    exact loopConditions_ok h
  · exact loopConditions_ok h

theorem finishPlan_ok {around : Surroundings} {index : Nat} {later : List ItemId} {item : Item}
    {f : FinishPlan} (h : finishPlan known around index later item d = .ok (f, e)) :
    f = plannedFinish around index later item ∧ e.namer = d.namer := by
  obtain ⟨b, c, hb, h⟩ := bind_ok h
  obtain ⟨rfl, rfl⟩ := pure_ok h
  obtain ⟨rfl, he⟩ := branchPlan_ok hb
  exact ⟨rfl, he⟩

theorem nameScope_ok {id : ItemId} {s : Scope} (h : nameScope id d = .ok (s, e)) :
    s = .loop (d.namer.nameFor id).1 ∧ e.namer = (d.namer.nameFor id).2 := by
  cases h
  exact ⟨rfl, rfl⟩

theorem trial_ok {around : Surroundings} {index : Nat} {later : List ItemId} {t : Trial} {n : Node}
    (h : node known around index later (.trial t) d = .ok (n, e)) :
    n = trialNode around index later t ∧ e.namer = d.namer := by
  simp only [node] at h
  obtain ⟨f, c, hf, h⟩ := bind_ok h
  obtain ⟨u, b, hb, h⟩ := bind_ok h
  obtain ⟨rfl, rfl⟩ := pure_ok h
  obtain ⟨rfl, hc⟩ := finishPlan_ok hf
  exact ⟨rfl, (checkRepeats_ok hb).trans hc⟩

theorem loop_ok {around : Surroundings} {index : Nat} {later : List ItemId} {l : Loop}
    {items : List Item} {n : Node}
    (h : node known around index later (.loop l items) d = .ok (n, e)) :
    ∃ b c inner, b.namer = (d.namer.nameFor l.id).2 ∧ e.namer = c.namer ∧
      sequence known (.inside l (.loop (d.namer.nameFor l.id).1) (armedBy l items)) 0 items b
        = .ok (inner, c) ∧
      n = loopNode around index later l items (.loop (d.namer.nameFor l.id).1) inner := by
  simp only [node] at h
  obtain ⟨f, d₁, hf, h⟩ := bind_ok h
  obtain ⟨s, d₂, hs, h⟩ := bind_ok h
  obtain ⟨armed, d₃, ha, h⟩ := bind_ok h
  obtain ⟨inner, d₄, hi, h⟩ := bind_ok h
  obtain ⟨cs, d₅, hc, h⟩ := bind_ok h
  obtain ⟨rfl, rfl⟩ := pure_ok h
  obtain ⟨rfl, h₁⟩ := finishPlan_ok hf
  obtain ⟨rfl, h₂⟩ := nameScope_ok hs
  obtain ⟨rfl, h₃⟩ := armRepeats_ok ha
  obtain ⟨rfl, h₄⟩ := continuation_ok hc
  rw [h₁] at h₂ hi ⊢
  exact ⟨d₃, d₄, inner, h₃.trans h₂, h₄, hi, rfl⟩

theorem sequence_compiled {around : Surroundings} {index : Nat} {items : List Item}
    {nodes : List Node} (h : sequence known around index items d = .ok (nodes, e)) :
    Compiled around index items nodes := by
  induction items using Item.forest_induction generalizing around index nodes d e with
  | nil =>
      simp only [sequence] at h
      obtain ⟨rfl, -⟩ := pure_ok h
      exact .nil
  | trial t r ih =>
      simp only [sequence] at h
      obtain ⟨n, b, hn, h⟩ := bind_ok h
      obtain ⟨ns, c, hr, h⟩ := bind_ok h
      obtain ⟨rfl, -⟩ := pure_ok h
      obtain ⟨rfl, -⟩ := trial_ok hn
      exact .trial (ih hr)
  | loop l items r ihItems ih =>
      simp only [sequence] at h
      obtain ⟨n, b, hn, h⟩ := bind_ok h
      obtain ⟨ns, c, hr, h⟩ := bind_ok h
      obtain ⟨rfl, -⟩ := pure_ok h
      obtain ⟨_, _, inner, -, -, hi, rfl⟩ := loop_ok hn
      exact .loop _ (ihItems hi) (ih hr)

theorem compile_ok {settings : Settings} {items : List Item} {t : Timeline}
    (h : compile settings items = .ok t) :
    ∃ known d e, d.namer = .start ∧ sequence known .root 0 items d = .ok (t.nodes, e) ∧
      t.knownIds = (indexItems items (.empty, [])).1 := by
  simp only [compile] at h
  cases hs : sequence ⟨(indexItems items (.empty, [])).1, settings.strictTargets⟩ .root 0 items
      ⟨.start, (indexItems items (.empty, [])).2⟩ with
  | error err =>
      simp only [StateT.run, hs, bind, Except.bind, reduceCtorEq] at h
  | ok r =>
      simp only [StateT.run, hs, bind, Except.bind, pure, Except.pure, Except.ok.injEq] at h
      subst h
      exact ⟨_, _, _, rfl, hs, rfl⟩

theorem compiled_of_compile {settings : Settings} {items : List Item} {t : Timeline}
    (h : compile settings items = .ok t) : Compiled .root 0 items t.nodes := by
  obtain ⟨_, _, _, -, hs, -⟩ := compile_ok h
  exact sequence_compiled hs

end BranchingTimeline.Compile
