import BranchingTimeline.Proofs.Timeline.Checks
import BranchingTimeline.Proofs.Timeline.Loops
import BranchingTimeline.Session.Finish

namespace BranchingTimeline

def Trial.withoutBlanks (t : Trial) : Trial :=
  { t with branches := t.branches.filter fun b => !b.isBlank }

def Loop.withoutBlanks (l : Loop) : Loop :=
  { l with branches := l.branches.filter fun b => !b.isBlank }

/-- A loop that has branches, but only blank ones, and no repeat conditions. -/
def Loop.onlyBlanks (l : Loop) : Bool :=
  !l.branches.isEmpty && (l.branches.all fun b => b.isBlank) && l.repeatConditions.isEmpty

namespace Item

mutual

def withoutBlanks : Item → Item
  | trial t => trial t.withoutBlanks
  | loop l items => loop l.withoutBlanks (withoutBlanksIn items)

def withoutBlanksIn : List Item → List Item
  | [] => []
  | i :: r => withoutBlanks i :: withoutBlanksIn r

end

def onlyBlanks : Item → Bool
  | trial _ => false
  | loop l _ => l.onlyBlanks

variable {i : Item} {items : List Item}

theorem withoutBlanksIn_eq_map (items : List Item) : withoutBlanksIn items = items.map withoutBlanks := by
  induction items with
  | nil => simp only [withoutBlanksIn, List.map_nil]
  | cons i r ih => simp only [withoutBlanksIn, ih, List.map_cons]

@[simp] theorem id_withoutBlanks (i : Item) : i.withoutBlanks.id = i.id := by
  cases i <;> simp only [withoutBlanks] <;> rfl

@[simp] theorem branchConditions_withoutBlanks (i : Item) :
    i.withoutBlanks.branchConditions = i.branchConditions := by
  cases i <;> simp only [withoutBlanks] <;> rfl

@[simp] theorem branches_withoutBlanks (i : Item) :
    i.withoutBlanks.branches = i.branches.filter fun b => !b.isBlank := by
  cases i <;> simp only [withoutBlanks] <;> rfl

@[simp] theorem ids_withoutBlanksIn (items : List Item) :
    (withoutBlanksIn items).map Item.id = items.map Item.id := by
  simp [withoutBlanksIn_eq_map]

theorem nestedList_withoutBlanksIn (items : List Item) :
    nestedList (withoutBlanksIn items) = nestedList items := by
  induction items using forest_induction with
  | nil => simp only [withoutBlanksIn]
  | trial t r ih => simp only [withoutBlanksIn, withoutBlanks, nestedList, nested, ih]; rfl
  | loop l items r ihItems ih =>
      simp only [withoutBlanksIn, withoutBlanks, nestedList, nested, ihItems, ih]
      rfl

@[simp] theorem nested_withoutBlanks (i : Item) : i.withoutBlanks.nested = i.nested := by
  cases i with
  | trial t => simp only [withoutBlanks, nested]
  | loop l items => simp only [withoutBlanks, nested, nestedList_withoutBlanksIn]

@[simp] theorem descendantIds_withoutBlanks (i : Item) :
    i.withoutBlanks.descendantIds = i.descendantIds := by
  rw [descendantIds, nested_withoutBlanks, descendantIds]

@[simp] theorem contains_withoutBlanks (i : Item) (x : ItemId) :
    i.withoutBlanks.contains x = i.contains x := by
  rw [contains, id_withoutBlanks, nested_withoutBlanks, contains]

end Item

def Node.terminalIf (b : Bool) : Node → Node
  | trial p t => trial p t
  | loop p l items => loop p { l with terminal := l.terminal || b } items

@[simp] theorem Node.terminalIf_false (n : Node) : n.terminalIf false = n := by
  cases n <;> simp [terminalIf]

namespace Compile

open Item

variable {known : Known} {around : Surroundings} {index : Nat} {later : List ItemId}

theorem nameScope_bind_congr {α : Type} {id : ItemId} {f g : Scope → Compiling α}
    (h : ∀ name, f (.loop name) = g (.loop name)) : (nameScope id >>= f) = (nameScope id >>= g) := by
  funext d
  exact congrFun (h _) _

theorem indexItems_withoutBlanks (items : List Item) (s : IdSet × List Finding) :
    indexItems (withoutBlanksIn items) s = indexItems items s := by
  induction items using Item.forest_induction generalizing s with
  | nil => simp only [withoutBlanksIn]
  | trial t r ih => simp only [withoutBlanksIn, withoutBlanks, indexItems, indexItem, ih]; rfl
  | loop l items r ihItems ih =>
      simp only [withoutBlanksIn, withoutBlanks, indexItems, indexItem, ihItems, ih]
      rfl

theorem armingPosition_withoutBlanks (items : List Item) (rules : List Rule) :
    armingPosition (withoutBlanksIn items) rules = armingPosition items rules := by
  simp only [armingPosition, withoutBlanksIn_eq_map, List.findIdx?_map, Function.comp_def,
    contains_withoutBlanks, List.length_map]

theorem armRepeats_withoutBlanks (l : Loop) (items : List Item) :
    armRepeats known l.withoutBlanks (withoutBlanksIn items) = armRepeats known l items := by
  simp only [armRepeats, armingPosition_withoutBlanks]
  simp only [withoutBlanksIn_eq_map, List.isEmpty_map]
  rfl

theorem finishPlan_withoutBlanks (i : Item) :
    finishPlan known around index later i.withoutBlanks = finishPlan known around index later i := by
  simp only [finishPlan, branchPlan, branches_withoutBlanks, branchConditions_withoutBlanks,
    id_withoutBlanks, List.filter_filter, Bool.and_self]

theorem placeOf_withoutBlanks (i : Item) :
    placeOf around index later i.withoutBlanks = placeOf around index later i := by
  simp only [placeOf, id_withoutBlanks, descendantIds_withoutBlanks]

theorem inside_withoutBlanks (l : Loop) (scope : Scope) (armed : List (Nat × RepeatCondition)) :
    Surroundings.inside l.withoutBlanks scope armed = .inside l scope armed := by
  simp only [Surroundings.inside, Loop.withoutBlanks, List.any_filter, Bool.and_self]

theorem loopPlan_withoutBlanks (l : Loop) (scope : Scope) (finish : FinishPlan)
    (cs : List LoopCondition) (nodes : List Node) :
    loopPlan around l.withoutBlanks scope finish cs nodes =
      { loopPlan around l scope finish cs nodes with
        terminal := (loopPlan around l scope finish cs nodes).terminal ||
          (around.scope.isRoot && l.onlyBlanks) } := by
  have hterminal : (l.branches.filter fun b => !b.isBlank).isEmpty =
      (l.branches.isEmpty || !l.branches.isEmpty && l.branches.all fun b => b.isBlank) := by
    cases hb : l.branches with
    | nil => rfl
    | cons b r => rw [Bool.eq_iff_iff]; simp [List.filter_eq_nil_iff]
  simp only [loopPlan, Loop.withoutBlanks, hterminal, Loop.onlyBlanks]
  grind

theorem node_trial_withoutBlanks (t : Trial) :
    node known around index later (.trial t.withoutBlanks) = node known around index later (.trial t) := by
  have hf : finishPlan known around index later (.trial t.withoutBlanks) =
      finishPlan known around index later (.trial t) := by
    simpa only [withoutBlanks] using finishPlan_withoutBlanks (.trial t)
  have hp : placeOf around index later (.trial t.withoutBlanks) = placeOf around index later (.trial t) := by
    simpa only [withoutBlanks] using placeOf_withoutBlanks (.trial t)
  simp only [node, hf, hp]
  rfl

theorem node_loop_withoutBlanks {l : Loop} {items : List Item}
    (hi : ∀ name armed, sequence known (.inside l (.loop name) armed) 0 (withoutBlanksIn items) =
      sequence known (.inside l (.loop name) armed) 0 items) :
    node known around index later (.loop l.withoutBlanks (withoutBlanksIn items)) =
      (Node.terminalIf (around.scope.isRoot && l.onlyBlanks)) <$>
        node known around index later (.loop l items) := by
  have hf : finishPlan known around index later (.loop l.withoutBlanks (withoutBlanksIn items)) =
      finishPlan known around index later (.loop l items) := by
    simpa only [withoutBlanks] using finishPlan_withoutBlanks (.loop l items)
  have hp : placeOf around index later (.loop l.withoutBlanks (withoutBlanksIn items)) =
      placeOf around index later (.loop l items) := by
    simpa only [withoutBlanks] using placeOf_withoutBlanks (.loop l items)
  simp only [node, hf, hp, armRepeats_withoutBlanks, inside_withoutBlanks, loopPlan_withoutBlanks,
    map_bind, map_pure, Node.terminalIf]
  refine bind_congr fun finish => nameScope_bind_congr fun name => bind_congr fun armed => ?_
  rw [hi]
  rfl

theorem terminalIf_false_map (x : Compiling Node) : Node.terminalIf false <$> x = x := by
  have hid : Node.terminalIf false = fun n => n := funext Node.terminalIf_false
  rw [hid, id_map']

/-- Inside a loop blank branches make no difference at all. -/
theorem sequence_withoutBlanks (items : List Item) (h : around.scope.isRoot = false) :
    sequence known around index (withoutBlanksIn items) = sequence known around index items := by
  induction items using Item.forest_induction generalizing around index with
  | nil => simp only [withoutBlanksIn]
  | trial t r ih =>
      simp only [withoutBlanksIn, withoutBlanks, sequence, node_trial_withoutBlanks, ids_withoutBlanksIn,
        ih h]
  | loop l items r ihItems ih =>
      have hnode : node known around index (r.map Item.id) (.loop l.withoutBlanks (withoutBlanksIn items)) =
          node known around index (r.map Item.id) (.loop l items) := by
        rw [node_loop_withoutBlanks fun name armed => ihItems rfl, h, Bool.false_and,
          terminalIf_false_map]
      simp only [withoutBlanksIn, withoutBlanks, sequence, hnode, ids_withoutBlanksIn, ih h]

theorem sequence_withoutBlanks_root (items : List Item) (h : around.scope.isRoot = true) :
    sequence known around index (withoutBlanksIn items) =
      (List.zipWith (fun i n => n.terminalIf i.onlyBlanks) items) <$> sequence known around index items := by
  induction items using Item.forest_induction generalizing index with
  | nil =>
      simp only [withoutBlanksIn, sequence, map_pure, List.zipWith_nil_left]
  | trial t r ih =>
      simp only [withoutBlanksIn, withoutBlanks, sequence, node_trial_withoutBlanks, ids_withoutBlanksIn,
        ih, map_bind, map_pure, bind_map_left, List.zipWith_cons_cons, onlyBlanks, Node.terminalIf_false]
  | loop l items r _ ih =>
      have hnode : node known around index (r.map Item.id) (.loop l.withoutBlanks (withoutBlanksIn items)) = _ :=
        node_loop_withoutBlanks fun name armed => sequence_withoutBlanks items rfl
      simp only [withoutBlanksIn, withoutBlanks, sequence, hnode, h, Bool.true_and, ids_withoutBlanksIn,
        ih, map_bind, map_pure, bind_map_left, List.zipWith_cons_cons, onlyBlanks]

theorem map_run {α β : Type} (f : α → β) (x : Compiling α) (d : Draft) :
    (f <$> x) d = (x d).map fun r => (f r.1, r.2) := by
  change Except.bind (x d) _ = _
  cases x d <;> rfl

end Compile

/-- The timeline with those loops of the top level made terminal that have only blank branches. -/
def Timeline.settled (items : List Item) (t : Timeline) : Timeline :=
  { t with nodes := List.zipWith (fun i n => n.terminalIf i.onlyBlanks) items t.nodes }

theorem compile_settled (settings : Settings) (items : List Item) :
    compile settings (Item.withoutBlanksIn items) =
      (compile settings items).map (Timeline.settled items) := by
  rw [Compile.compile_eq, Compile.compile_eq]
  simp only [Compile.knownOf, Compile.indexItems_withoutBlanks]
  rw [Compile.sequence_withoutBlanks_root items rfl, Compile.map_run]
  generalize Compile.sequence _ _ _ _ _ = x
  cases x <;> rfl

theorem Timeline.settled_nodes {items : List Item} {t : Timeline} {k : Nat} {i : Item} {n : Node}
    (hi : items[k]? = some i) (hn : t.nodes[k]? = some n) :
    (settled items t).nodes[k]? = some (n.terminalIf i.onlyBlanks) := by
  simp [settled, List.getElem?_zipWith, hi, hn]

theorem Context.finishLoop_bare {l : LoopPlan} (h : l.finish = ⟨[], none, none⟩) (c : Context)
    (latest : Lookup) :
    c.finishLoop l latest =
      if c.pendingJump.isNone && l.terminal && c.root.branchingActive then
        (.aborted, c.abort (abortReason l.id))
      else (.idle, c) := by
  have hr : repeatTarget [] latest = none := rfl
  simp only [finishLoop, h, hr]
  cases c.pendingJump with
  | some x => rfl
  | none => simp

/-- A loop that goes on where it would end the experiment if it had no branches at all: as it is, it
does nothing when it finishes; terminal, it aborts while the top level is branching. -/
structure Lapses (items : List Item) (t : Timeline) (k : Nat) (l : Loop) (p : Place) (plan : LoopPlan)
    (inner : List Node) : Prop where
  node : t.nodes[k]? = some (.loop p plan inner)
  settled : (t.settled items).nodes[k]? = some (.loop p { plan with terminal := true } inner)
  goesOn : ∀ (c : Context) latest, c.finishLoop plan latest = (.idle, c)
  ends : ∀ (c : Context) latest, c.finishLoop { plan with terminal := true } latest =
    if c.pendingJump.isNone && c.root.branchingActive then
      (.aborted, c.abort (Context.abortReason l.id))
    else (.idle, c)
  changes : plan ≠ { plan with terminal := true }

namespace Compile

variable {items : List Item} {t : Timeline}

theorem NodeOf.bare {index : Nat} {later : List ItemId} {l : Loop} {sub : List Item} {n : Node}
    (h : NodeOf .root index later (.loop l sub) n) (ho : l.onlyBlanks = true) :
    ∃ p plan inner, n = .loop p plan inner ∧ plan.id = l.id ∧ plan.finish = ⟨[], none, none⟩ ∧
      plan.terminal = false := by
  simp only [Loop.onlyBlanks, Bool.and_eq_true, Bool.not_eq_true', List.all_eq_true] at ho
  obtain ⟨⟨hsome, hblank⟩, -⟩ := ho
  have hbranch : plannedBranch later .root (.loop l sub) = none := by
    rw [← Option.not_isSome_iff_eq_none, plannedBranch_isSome]
    simpa [Item.branches] using hblank
  cases h with
  | loop name hi =>
      refine ⟨_, _, _, rfl, rfl, ?_, ?_⟩
      · simp [loopPlan, plannedFinish, Surroundings.root, Surroundings.armedAt, hbranch]
      · simp [loopPlan, hsome]

theorem Compiled.lapses (h : Compiled .root 0 items t.nodes) {k : Nat} {l : Loop} {sub : List Item}
    (hl : items[k]? = some (.loop l sub)) (ho : l.onlyBlanks = true) :
    ∃ p plan inner, Lapses items t k l p plan inner := by
  obtain ⟨hk, -⟩ := List.getElem?_eq_some_iff.mp hl
  obtain ⟨n, hn⟩ : ∃ n, t.nodes[k]? = some n := ⟨_, List.getElem?_eq_getElem (h.length_eq ▸ hk)⟩
  obtain ⟨later, hnode⟩ := h.get_of_get hl hn
  obtain ⟨p, plan, inner, rfl, hid, hfinish, hterminal⟩ := hnode.bare ho
  refine ⟨p, plan, inner, hn, ?_, fun c latest => ?_, fun c latest => ?_, fun he => ?_⟩
  · rw [Timeline.settled_nodes hl hn]
    simp [Node.terminalIf, Item.onlyBlanks, ho]
  · simp [Context.finishLoop_bare hfinish, hterminal]
  · have hends := Context.finishLoop_bare (l := { plan with terminal := true }) hfinish c latest
    simpa only [Bool.and_true, hid] using hends
  · rw [he] at hterminal
    cases hterminal

theorem Compiled.settled_eq_iff (h : Compiled .root 0 items t.nodes) :
    t.settled items = t ↔ ∀ i ∈ items, i.onlyBlanks = false := by
  constructor
  · intro hsame i hi
    cases i with
    | trial t => rfl
    | loop l sub =>
        refine eq_false_of_ne_true fun ho => ?_
        obtain ⟨k, hk⟩ := List.mem_iff_getElem?.mp hi
        obtain ⟨p, plan, inner, hlapses⟩ := h.lapses hk ho
        have hnode := hlapses.settled
        rw [hsame, hlapses.node, Option.some.injEq, Node.loop.injEq] at hnode
        exact hlapses.changes hnode.2.1
  · intro hno
    have hnodes : List.zipWith (fun i n => Node.terminalIf i.onlyBlanks n) items t.nodes = t.nodes := by
      refine List.ext_getElem (by simp [h.length_eq]) fun k hk hk' => ?_
      rw [List.getElem_zipWith, hno _ (List.getElem_mem _), Node.terminalIf_false]
    rw [Timeline.settled, hnodes]

end Compile

/-- Without its blank branches a tree has the same timeline, or the same error, but for the loops of
the top level that have only blank branches and no repeat conditions: they are terminal only without
the blank ones. -/
theorem compile_withoutBlanks (settings : Settings) (items : List Item) :
    compile settings (Item.withoutBlanksIn items) =
        (compile settings items).map (Timeline.settled items) ∧
      ∀ t, compile settings items = .ok t →
        (compile settings (Item.withoutBlanksIn items) = compile settings items ↔
          ∀ i ∈ items, i.onlyBlanks = false) ∧
        ∀ (k : Nat) l sub, items[k]? = some (.loop l sub) → l.onlyBlanks = true →
          ∃ p plan inner, Lapses items t k l p plan inner := by
  have hsettled := compile_settled settings items
  refine ⟨hsettled, fun t ht => ⟨?_, fun k l sub hl ho => ?_⟩⟩
  · rw [hsettled, ht, Except.map, Except.ok.injEq]
    exact (Compile.compiled_of_compile ht).settled_eq_iff
  · exact (Compile.compiled_of_compile ht).lapses hl ho

def lapsing : Loop := { Loop.plain ⟨"l"⟩ with branches := [⟨""⟩] }

def lapsed : List Item :=
  [.trial { Trial.plain ⟨"a"⟩ with branches := [⟨"l"⟩] }, .loop lapsing [.trial (.plain ⟨"t"⟩)]]

def lapsedTimeline : Timeline := (compile .default lapsed).toOption.getD ⟨[], .empty, []⟩

theorem compile_withoutBlanks_lapsed :
    compile .default lapsed = .ok lapsedTimeline ∧ lapsing.onlyBlanks = true ∧
      compile .default (Item.withoutBlanksIn lapsed) = .ok (lapsedTimeline.settled lapsed) ∧
      ∃ p plan inner, Lapses lapsed lapsedTimeline 1 lapsing p plan inner := by
  have hc : compile .default lapsed = .ok lapsedTimeline := by cbv
  have ho : lapsing.onlyBlanks = true := by decide
  obtain ⟨hsettled, h⟩ := compile_withoutBlanks .default lapsed
  rw [hc] at hsettled
  exact ⟨hc, ho, hsettled, (h _ hc).2 1 _ _ rfl ho⟩

def Node.isTerminal : Node → Bool
  | trial .. => false
  | loop _ l _ => l.terminal

theorem blanks_not_ignored :
    ¬∀ settings items, compile settings (Item.withoutBlanksIn items) = compile settings items := by
  intro h
  have hwith : (compile .default lapsed).toOption.map (fun t => t.nodes.map Node.isTerminal) =
      some [false, false] := by cbv
  have hwithout : (compile .default (Item.withoutBlanksIn lapsed)).toOption.map
      (fun t => t.nodes.map Node.isTerminal) = some [false, true] := by cbv
  rw [h, hwith] at hwithout
  cases hwithout

end BranchingTimeline
