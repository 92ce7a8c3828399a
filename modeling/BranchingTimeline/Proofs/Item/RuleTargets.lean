import BranchingTimeline.Item.RuleTarget
import BranchingTimeline.Proofs.Session.Recording
import BranchingTimeline.Proofs.Timeline.Loops

namespace BranchingTimeline

theorem takeWhile_append_of_stop {α : Type} {p : α → Bool} {a : α} {l : List α} (ha : a ∈ l)
    (h : p a = false) (r : List α) : (l ++ r).takeWhile p = l.takeWhile p := by
  induction l with
  | nil => cases ha
  | cons b l ih =>
      rw [List.cons_append, List.takeWhile_cons, List.takeWhile_cons]
      cases hb : p b with
      | false => rfl
      | true =>
          rcases List.mem_cons.mp ha with rfl | ha
          · cases hb.symm.trans h
          · rw [ih ha]

theorem takeWhile_prefix_of_stop {α : Type} {p : α → Bool} {a : α} (h : p a = false) (pre post : List α) :
    (pre ++ a :: post).takeWhile p <+: pre := by
  induction pre with
  | nil => rw [List.nil_append, List.takeWhile_cons, h]; exact List.nil_prefix
  | cons b pre ih =>
      rw [List.cons_append, List.takeWhile_cons]
      cases p b with
      | false => exact List.nil_prefix
      | true => exact (List.prefix_cons_inj b).mpr ih

def Item.target? : Item → Option RuleTarget
  | trial t => some (.ofTrial t)
  | loop .. => none

def Node.target? : Node → Option RuleTarget
  | trial _ q => some ⟨q.id, q.name, q.plugin⟩
  | loop .. => none

namespace Item

theorem flattenIn_contiguous {tree items pre post : List Item} {l : Loop}
    (h : flattenIn tree = pre ++ .loop l items :: post) : flattenIn items <+: post := by
  induction tree using forest_induction generalizing pre post with
  | nil => simp [flattenIn] at h
  | trial t r ih =>
      simp only [flattenIn, flatten, List.singleton_append] at h
      cases pre with
      | nil => cases h
      | cons i pre => exact ih (List.cons.inj h).2
  | loop l' items' r ihItems ih =>
      simp only [flattenIn, flatten, List.cons_append] at h
      cases pre with
      | nil =>
          cases h
          exact List.prefix_append _ _
      | cons i pre =>
          rcases List.append_eq_append_iff.mp (List.cons.inj h).2 with ⟨mid, rfl, hr⟩ | ⟨mid, hitems, hpost⟩
          · exact ih hr
          · cases mid with
            | nil =>
                rw [List.append_nil] at hitems
                have hr : flattenIn r = [] ++ .loop l items :: post := hpost.symm
                exact ih hr
            | cons j mid =>
                obtain ⟨rfl, rfl⟩ := List.cons.inj hpost
                exact (ihItems hitems).trans (List.prefix_append _ _)

end Item

namespace RuleTarget

open Item

/-- The search passes the items in depth-first order up to the one that it is to stop at. -/
theorem collectList_eq (stop? : Option ItemId) (items : List Item) :
    collectList stop? items =
      (((flattenIn items).takeWhile fun i => some i.id ≠ stop?).filterMap target?,
        (flattenIn items).any fun i => some i.id = stop?) := by
  induction items using forest_induction with
  | nil => rfl
  | trial t r ih =>
      rw [collectList, collect]
      by_cases h : some t.id = stop?
      · simp [flattenIn, flatten, Item.id, h]
      · simp [flattenIn, flatten, Item.id, h, ih, target?]
  | loop l items r ihItems ih =>
      have hflat : flattenIn (.loop l items :: r) = .loop l items :: (flattenIn items ++ flattenIn r) := by
        simp only [flattenIn, flatten, List.cons_append]
      rw [collectList, collect, hflat]
      by_cases h : some l.id = stop?
      · simp [Item.id, h]
      · have hmiss : decide (some (Item.loop l items).id = stop?) = false := decide_eq_false h
        have hpasses : decide (some (Item.loop l items).id ≠ stop?) = true := decide_eq_true h
        rw [if_neg h, List.takeWhile_cons_of_pos (p := fun i : Item => some i.id ≠ stop?) hpasses,
          List.filterMap_cons_none rfl, List.any_cons, hmiss, Bool.false_or, List.any_append, ihItems]
        cases hmet : (flattenIn items).any fun i => some i.id = stop? with
        | true =>
            obtain ⟨i, hi, hstop⟩ := List.any_eq_true.mp hmet
            rw [takeWhile_append_of_stop hi (by simpa using hstop), Bool.true_or]
        | false =>
            have hpass : ∀ i ∈ flattenIn items, decide (some i.id ≠ stop?) = true := by
              intro i hi
              simpa using List.any_eq_false.mp hmet i hi
            rw [List.takeWhile_append_of_pos hpass, List.takeWhile_eq_self_iff.mpr hpass,
              List.filterMap_append, ih, Bool.false_or]

theorem before_eq (owner : ItemId) (tree : List Item) :
    before owner tree = ((flattenIn tree).takeWhile fun i => i.id ≠ owner).filterMap target? := by
  rw [before, collectList_eq]
  simp only [ne_eq, Option.some.injEq]

theorem inside_eq (items : List Item) : inside items = (flattenIn items).filterMap target? := by
  rw [inside, collectList_eq]
  exact congrArg (List.filterMap target?) (List.takeWhile_eq_self_iff.mpr fun i _ => rfl)

theorem before_absent {owner : ItemId} {tree : List Item} (h : ∀ i ∈ flattenIn tree, i.id ≠ owner) :
    before owner tree = (flattenIn tree).filterMap target? := by
  rw [before_eq, List.takeWhile_eq_self_iff.mpr fun i hi => decide_eq_true (h i hi)]

theorem ne_of_mem_before {owner : ItemId} {tree : List Item} {g : RuleTarget}
    (h : g ∈ before owner tree) : g.id ≠ owner := by
  rw [before_eq] at h
  obtain ⟨i, hi, hg⟩ := List.mem_filterMap.mp h
  have hne : i.id ≠ owner := by simpa using List.mem_takeWhile_imp hi
  cases i with
  | trial t =>
      cases hg
      exact hne
  | loop => cases hg

/-- What is offered to an owner stands before each item with its id; what is inside a loop with its id
stands behind that loop. -/
theorem before_prefix {owner : ItemId} {tree pre post : List Item} {i : Item}
    (h : flattenIn tree = pre ++ i :: post) (hi : i.id = owner) :
    ∃ earlier, earlier <+: pre ∧ before owner tree = earlier.filterMap target? := by
  refine ⟨_, ?_, before_eq owner tree⟩
  rw [h]
  exact takeWhile_prefix_of_stop (p := fun i => i.id ≠ owner) (by simpa using hi) pre post

end RuleTarget

namespace Compile

open Node

variable {around : Surroundings} {index : Nat} {later : List ItemId} {item : Item}
  {items : List Item} {n : Node} {nodes inner : List Node} {p q : Place} {l : LoopPlan}
  {plan : TrialPlan}

theorem NodeOf.target_eq (h : NodeOf around index later item n) : item.target? = n.target? := by
  cases h <;> rfl

theorem Compiled.targets_eq (h : Compiled around index items nodes) :
    (Item.flattenIn items).filterMap Item.target? = (flattenIn nodes).filterMap Node.target? := by
  have hs := h.sources
  generalize Item.flattenIn items = sources, flattenIn nodes = standing at hs
  induction hs with
  | nil => rfl
  | cons hn _ ih =>
      obtain ⟨_, _, _, hn⟩ := hn
      rw [List.filterMap_cons, List.filterMap_cons, hn.target_eq, ih]

theorem Compiled.trial_source (h : Compiled around index items nodes) (hn : .trial q plan ∈ nodes) :
    ∃ t, .trial t ∈ items ∧ RuleTarget.ofTrial t = ⟨plan.id, plan.name, plan.plugin⟩ ∧
      plan.loop = around.loop := by
  obtain ⟨i, item, later, hitem, -, hnode⟩ := h.get_of_mem hn
  cases hnode with
  | trial t => exact ⟨t, List.mem_of_getElem? hitem, rfl, rfl⟩

theorem Compiled.loop_unique (h : Compiled around index items nodes) (hd : (Item.loopIds items).Nodup)
    {loop : Loop} {sub : List Item} (hl : .loop loop sub ∈ Item.flattenIn items) :
    ∃ p l inner,
      (∀ n, n ∈ flattenIn nodes ∧ n.loopId? = some loop.id ↔ n = .loop p l inner) ∧
      ∃ around index later, NodeOf around index later (.loop loop sub) (.loop p l inner) := by
  have hid : loop.id ∈ Item.loopIds items := List.mem_filterMap.mpr ⟨_, hl, rfl⟩
  have hnodes := hd
  rw [h.loopIds_eq] at hid hnodes
  obtain ⟨n, hn, hnid⟩ := List.mem_filterMap.mp hid
  cases n with
  | trial => cases hnid
  | loop p l inner =>
      refine ⟨p, l, inner, ?_, ?_⟩
      · intro m
        constructor
        · rintro ⟨hm, hmid⟩
          exact eq_of_nodup_filterMap hnodes hm hn hmid hnid
        · rintro rfl
          exact ⟨hn, hnid⟩
      · obtain ⟨_, _, around, index, later, hsource, hof, hid', -⟩ := h.loop_source hn
        have hsame := eq_of_nodup_filterMap hd hsource hl rfl
          (congrArg some ((Option.some.inj hnid).symm.trans hid'))
        cases hsame
        exact ⟨around, index, later, hof⟩

/-- A trial inside a compiled loop bears the id of the innermost loop around it, which is one of those
whose records the compiled loop reads. -/
theorem NodeOf.innermost {loop : Loop} {sub : List Item}
    (h : NodeOf around index later (.loop loop sub) (.loop p l inner))
    (hn : .trial q plan ∈ flattenIn inner) :
    ∃ m ms t, .loop m ms ∈ (Item.loop loop sub).flatten ∧ .trial t ∈ ms ∧
      RuleTarget.ofTrial t = ⟨plan.id, plan.name, plan.plugin⟩ ∧ plan.loop = some m.id ∧
      SortedMap.contains l.dataScope m.id = true := by
  have hreads := h.reads_iff
  cases h with
  | loop name hi =>
      rw [Item.flatten]
      rcases mem_flattenIn_iff.mp hn with htop | ⟨p', l', inner', hl', hin⟩
      · obtain ⟨t, ht, htarget, hloop⟩ := hi.trial_source htop
        exact ⟨loop, sub, t, List.mem_cons_self, ht, htarget, hloop, (hreads _).mpr (.inl rfl)⟩
      · obtain ⟨m, ms, _, _, _, hm, -, hid, hi'⟩ := hi.loop_source hl'
        obtain ⟨t, ht, htarget, hloop⟩ := hi'.trial_source hin
        refine ⟨m, ms, t, List.mem_cons_of_mem _ hm, ht, htarget, hloop, (hreads _).mpr (.inr ?_)⟩
        exact ⟨_, hl', congrArg some hid⟩

end Compile

theorem DataLog.latestWithin_record {d : DataLog} {loops : IdSet} {id x : ItemId} {response : Record}
    (h : SortedMap.contains loops x = true) :
    (d.record id (some x) response).latestWithin loops id = some (label id (some x) response) := by
  have hseen : (isOf id (label id (some x) response) && isWithin loops (label id (some x) response)) =
      true := by
    rw [Bool.and_eq_true, isOf_label, isWithin_iff, namedLoop_label]
    exact ⟨rfl, x, rfl, h⟩
  exact List.find?_cons_of_pos (p := fun r => isOf id r && isWithin loops r) hseen

namespace RuleTarget

open Item

/-- A rule is offered the trials before the first item with the id of its owner, and nothing of that
item; the conditions of a loop are offered the trials inside it. If no two loops share an id, these are
the trials inside the compiled loop, and the loop reads what they record. -/
theorem offered_readable (tree : List Item) :
    (∀ owner,
      before owner tree = ((flattenIn tree).takeWhile fun i => i.id ≠ owner).filterMap target? ∧
      ((∀ i ∈ flattenIn tree, i.id ≠ owner) →
        before owner tree = (flattenIn tree).filterMap target?) ∧
      (∀ g ∈ before owner tree, g.id ≠ owner) ∧
      ∀ pre l items post, flattenIn tree = pre ++ .loop l items :: post → l.id = owner →
        flattenIn items <+: post ∧
          ∃ earlier, earlier <+: pre ∧ before owner tree = earlier.filterMap target?) ∧
    (∀ items, inside items = (flattenIn items).filterMap target?) ∧
    ((loopIds tree).Nodup → ∀ settings t, compile settings tree = .ok t →
      ∀ l items, .loop l items ∈ flattenIn tree → ∃ p plan inner,
        (∀ n, n ∈ Node.flattenIn t.nodes ∧ n.loopId? = some l.id ↔ n = .loop p plan inner) ∧
        inside items = (Node.flattenIn inner).filterMap Node.target? ∧
        ∀ place q, .trial place q ∈ Node.flattenIn inner →
          (∃ m ms t, .loop m ms ∈ (Item.loop l items).flatten ∧ .trial t ∈ ms ∧
            ofTrial t = ⟨q.id, q.name, q.plugin⟩ ∧ q.loop = some m.id ∧
            SortedMap.contains plan.dataScope m.id = true) ∧
          ∀ (log : DataLog) (response : Record),
            (log.record q.id q.loop response).latestWithin plan.dataScope q.id =
              some (DataLog.label q.id q.loop response)) := by
  refine ⟨?_, inside_eq, ?_⟩
  · intro owner
    refine ⟨before_eq owner tree, before_absent, fun g => ne_of_mem_before, ?_⟩
    intro pre l items post hsplit hid
    exact ⟨flattenIn_contiguous hsplit, before_prefix hsplit hid⟩
  · intro hd settings t ht l items hl
    obtain ⟨p, plan, inner, hunique, _, _, _, hof⟩ :=
      (Compile.compiled_of_compile ht).loop_unique hd hl
    refine ⟨p, plan, inner, hunique, ?_, ?_⟩
    · rw [inside_eq]
      cases hof with
      | loop name hi => exact hi.targets_eq
    · intro place q hq
      have hinnermost := hof.innermost hq
      refine ⟨hinnermost, ?_⟩
      intro log response
      obtain ⟨m, _, _, -, -, -, hloop, hscope⟩ := hinnermost
      rw [hloop]
      exact DataLog.latestWithin_record hscope

def enclosedItems : List Item := [.trial (.plain ⟨"b"⟩), .loop (.plain ⟨"m"⟩) [.trial (.plain ⟨"c"⟩)]]

def enclosing : List Item :=
  [.trial (.plain ⟨"a"⟩), .loop (.plain ⟨"l"⟩) enclosedItems, .trial (.plain ⟨"d"⟩)]

def enclosingTimeline : Timeline := (compile .default enclosing).toOption.getD ⟨[], .empty, []⟩

/-- The inner loop is offered the two trials before it; the outer one reads its own trial and that of
the inner one. -/
theorem offered_readable_enclosing :
    before ⟨"m"⟩ enclosing = [⟨⟨"a"⟩, "", ""⟩, ⟨⟨"b"⟩, "", ""⟩] ∧ (loopIds enclosing).Nodup ∧
      compile .default enclosing = .ok enclosingTimeline ∧
      ∃ p plan inner, .loop p plan inner ∈ Node.flattenIn enclosingTimeline.nodes ∧
        (Node.flattenIn inner).filterMap Node.target? = [⟨⟨"b"⟩, "", ""⟩, ⟨⟨"c"⟩, "", ""⟩] := by
  have hd : (loopIds enclosing).Nodup := by decide
  have hc : compile .default enclosing = .ok enclosingTimeline := by cbv
  have hl : .loop (.plain ⟨"l"⟩) enclosedItems ∈ flattenIn enclosing := by
    simp [enclosing, flattenIn, flatten]
  obtain ⟨howner, -, hloops⟩ := offered_readable enclosing
  obtain ⟨p, plan, inner, hunique, hinside, -⟩ := hloops hd _ _ hc _ _ hl
  refine ⟨?_, hd, hc, p, plan, inner, ((hunique _).mpr rfl).1, ?_⟩
  · rw [(howner _).1]
    decide
  · rw [← hinside]
    decide

end RuleTarget

end BranchingTimeline
