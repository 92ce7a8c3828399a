import BranchingTimeline.Proofs.Session.Hooks
import BranchingTimeline.Proofs.Session.Steps
import BranchingTimeline.Proofs.Timeline.Checks

namespace BranchingTimeline

/-- A trial that is shown, with the loop around it and the row of that loop. -/
structure Showing where
  id : ItemId
  loop : Option ItemId
  stimulus : Option Record
deriving DecidableEq

def Event.showing? : Event → Option Showing
  | trial id loop _ stimulus => some ⟨id, loop, stimulus⟩
  | _ => none

def Event.Straight : Event → Prop
  | trial .. => True
  | loopRun _ run => run = 1
  | skipped .. | finished .. | restarted _ | jumpDropped _ => False

def FinishPlan.idle : FinishPlan := ⟨[], none, none⟩

def StimulusPlan.passRows (s : StimulusPlan) (p : Participant) : List (Option Record) :=
  let rows := s.materialize p
  if rows.isEmpty then [none] else rows.map some

namespace Item

mutual

/-- Nothing in an item branches to another, repeats an earlier one or continues a loop. -/
def plain : Item → Bool
  | trial t => t.branches.all ItemId.isBlank && t.repeatConditions.isEmpty
  | loop l items =>
    l.branches.all ItemId.isBlank && l.repeatConditions.isEmpty &&
      (!l.isConditional || l.loopConditions.isEmpty) && plainList items

def plainList : List Item → Bool
  | [] => true
  | i :: r => plain i && plainList r

end

mutual

/-- The trials of an item in the order of the tree, each loop unrolled. -/
def expand (p : Participant) (around : Option ItemId) (row : Option Record) : Item → List Showing
  | trial t => [⟨t.id, around, row⟩]
  | loop l items =>
    (List.replicate l.repetitions.toNat
      ((l.stimuli.passRows p).flatMap fun row => expandList p (some l.id) row items)).flatten

def expandList (p : Participant) (around : Option ItemId) (row : Option Record) :
    List Item → List Showing
  | [] => []
  | i :: r => expand p around row i ++ expandList p around row r

end

end Item

namespace Compile

variable {around : Surroundings} {index : Nat} {later : List ItemId}

theorem filter_blank {branches : List ItemId} (h : branches.all ItemId.isBlank = true) :
    (branches.filter fun b => !b.isBlank) = [] := by
  rw [List.filter_eq_nil_iff]
  intro b hb
  simp [List.all_eq_true.mp h b hb]

theorem branchChecks_blank {item : Item} (h : item.branches.all ItemId.isBlank = true) :
    branchChecks later item = [] := by
  rw [branchChecks, filter_blank h]
  rfl

theorem checksIn_plain {items : List Item} (h : Item.plainList items = true) :
    checksIn items = [] := by
  induction items using Item.forest_induction with
  | nil => rw [checksIn]
  | trial t r ih =>
      simp only [Item.plainList, Item.plain, Bool.and_eq_true, List.isEmpty_iff] at h
      obtain ⟨⟨hbranches, hrepeats⟩, hrest⟩ := h
      have hb : branchChecks (r.map Item.id) (.trial t) = [] := branchChecks_blank hbranches
      rw [checksIn, checks, hb, hrepeats, ih hrest]
      rfl
  | loop l items r ihItems ih =>
      simp only [Item.plainList, Item.plain, Bool.and_eq_true, List.isEmpty_iff] at h
      obtain ⟨⟨⟨⟨hbranches, hrepeats⟩, -⟩, hitems⟩, hrest⟩ := h
      have hb : branchChecks (r.map Item.id) (.loop l items) = [] := branchChecks_blank hbranches
      rw [checksIn, checks, hb, hrepeats, ihItems hitems, ih hrest]
      split <;> rfl

structure Surroundings.Plain (around : Surroundings) : Prop where
  armed : around.armed = []
  loopBranches : around.loopBranches = false

theorem plannedFinish_plain (h : around.Plain) {item : Item}
    (hb : item.branches.all ItemId.isBlank = true) :
    plannedFinish around index later item = .idle := by
  simp [plannedFinish, plannedBranch, filter_blank hb, Surroundings.armedAt, h.armed, h.loopBranches,
    FinishPlan.idle]

theorem plain_inside {l : Loop} {items : List Item} {scope : Scope}
    (hb : l.branches.all ItemId.isBlank = true) (hr : l.repeatConditions = []) :
    (Surroundings.inside l scope (armedBy l items)).Plain where
  armed := by
    rw [Surroundings.inside, armedBy, hr]
    split <;> rfl
  loopBranches := by
    rw [Surroundings.inside, List.any_eq_false]
    intro b hmem
    simp [List.all_eq_true.mp hb b hmem]

theorem continuation_plain {l : Loop} (h : (!l.isConditional || l.loopConditions.isEmpty) = true) :
    (if l.isConditional then l.loopConditions else []) = [] := by
  split
  · simpa [*] using h
  · rfl

end Compile

namespace Context

variable {c : Context}

structure Calm (c : Context) : Prop where
  pendingJump : c.pendingJump = none
  aborted : c.aborted = none
  flags : ∀ s, c.flags s = .clear

theorem calm_start : start.Calm := by
  refine ⟨rfl, rfl, ?_⟩
  intro s
  cases s <;> rfl

theorem Calm.update (h : c.Calm) {s : Scope} {f : Flags → Flags} (hf : f .clear = .clear) :
    (c.update s f).Calm := by
  refine ⟨by rw [pendingJump_update, h.pendingJump], by rw [aborted_update, h.aborted], ?_⟩
  intro t
  rw [flags_update, h.flags s, h.flags t, hf, ite_self]

theorem Calm.decide (h : c.Calm) (g : Guard) : c.decide g = (.normal, c.update g.scope id) := by
  have hf : (c.update g.scope id).flags g.scope = .clear := (h.update rfl).flags g.scope
  simp only [Context.decide, h.pendingJump, hf]
  rfl

theorem Calm.finishLoop (h : c.Calm) {l : LoopPlan} (hl : l.finish = .idle)
    (latest : Lookup) : c.finishLoop l latest = (.idle, c) := by
  have hroot : c.root = .clear := h.flags .root
  simp [Context.finishLoop, h.pendingJump, hl, FinishPlan.idle, hroot, repeatTarget, Flags.clear]

theorem Calm.continueLoop (h : c.Calm) {l : LoopPlan} (hl : l.continuation = []) (items : List Node)
    (log : DataLog) : c.continueLoop l items log = (false, c) := by
  simp [Context.continueLoop, h.pendingJump, hl, Condition.anyHolds]

end Context

namespace Environment

open Step Compile

variable {σ ρ : Type} {env : Environment σ ρ} {l r : List Showing} {a b : Step σ ρ}

structure Shown (l : List Showing) (s t : Session σ ρ) : Prop where
  calm : t.context.Calm
  trace : ∃ new : List Event, t.trace = new.reverse ++ s.trace ∧ new.filterMap Event.showing? = l ∧
    ∀ e ∈ new, e.Straight

/-- From a calm session, a step shows some trials and goes on. -/
def Shows (l : List Showing) (a : Step σ ρ) : Prop :=
  ∀ s, s.context.Calm → ∃ t, a s = (.next, t) ∧ Shown l s t

theorem Shown.of_trace {s t : Session σ ρ} (hc : t.context.Calm) (ht : t.trace = s.trace) :
    Shown [] s t :=
  ⟨hc, [], ht, rfl, List.forall_mem_nil _⟩

theorem Shown.of_event {s t : Session σ ρ} {e : Event} (hc : t.context.Calm)
    (ht : t.trace = e :: s.trace) (he : e.Straight) : Shown e.showing?.toList s t := by
  refine ⟨hc, [e], ht, ?_, by simpa using he⟩
  cases h : e.showing? <;> simp [h]

theorem Shown.trans {s t u : Session σ ρ} (hst : Shown l s t) (htu : Shown r t u) :
    Shown (l ++ r) s u := by
  obtain ⟨old, hold, hl, hold'⟩ := hst.trace
  obtain ⟨new, hnew, hr, hnew'⟩ := htu.trace
  refine ⟨htu.calm, old ++ new, ?_, by rw [List.filterMap_append, hl, hr], ?_⟩
  · rw [hnew, hold, List.reverse_append, List.append_assoc]
  · intro e he
    rcases List.mem_append.mp he with he | he
    · exact hold' e he
    · exact hnew' e he

theorem Shows.of_next {g : Session σ ρ → Session σ ρ}
    (hg : ∀ s, s.context.Calm → Shown l s (g s)) : Shows l fun s => (.next, g s) :=
  fun s hs => ⟨g s, rfl, hg s hs⟩

theorem shows_done : Shows [] (done : Step σ ρ) := .of_next fun _ hs => .of_trace hs rfl

theorem Shows.andThen (ha : Shows l a) (hb : Shows r b) : Shows (l ++ r) (a.andThen b) := by
  intro s hs
  obtain ⟨t, hat, hst⟩ := ha s hs
  obtain ⟨u, hbu, htu⟩ := hb t hst.calm
  exact ⟨u, by rw [andThen_next hat, hbu], hst.trans htu⟩

theorem Shows.andThen_nothing (ha : Shows l a) (hb : Shows [] b) : Shows l (a.andThen b) := by
  have h := ha.andThen hb
  rwa [List.append_nil] at h

theorem Shows.forEach {β : Type} {f : β → List Showing} {a : β → Step σ ρ}
    (ha : ∀ x, Shows (f x) (a x)) (xs : List β) : Shows (xs.flatMap f) (forEach a xs) := by
  induction xs with
  | nil => exact shows_done
  | cons x xs ih => exact (ha x).andThen ih

theorem shows_leave (place : Place) :
    Shows [] (fun s => (.next, leave place s) : Step σ ρ) := by
  apply Shows.of_next
  intro s hs
  rw [leave]
  split
  · exact .of_trace (hs.update rfl) rfl
  · exact .of_trace hs rfl

theorem shows_guarded {place : Place} (ha : Shows l a) : Shows l (guarded place a) := by
  intro s hs
  have hbegun : (begun place s.context).Calm := by
    rw [begun]
    split
    · exact hs.update rfl
    · exact hs
  have hconsult : consult place s =
      (.normal, s.withContext ((begun place s.context).update place.guard.scope id)) := by
    rw [consult_eq, hbegun.decide]
  have hconsulted : Shown [] s (consult place s).2 := by
    rw [hconsult]
    exact .of_trace (hbegun.update rfl) rfl
  obtain ⟨t, ht, hshown⟩ := ha.andThen_nothing (shows_leave place) _ hconsulted.calm
  exact ⟨t, (guarded_run (by rw [hconsult]; rfl)).trans ht, hconsulted.trans hshown⟩

theorem hook_idle {n : Node} {s : Session σ ρ} (hn : n.finish = .idle)
    (hs : s.context.Calm) : hook n s = (.idle, s.context) := by
  cases n with
  | trial p plan =>
      have hplan : plan.finish = .idle := hn
      rw [hook, hplan]
      rfl
  | loop p plan items => exact hs.finishLoop hn _

theorem shows_execute {n : Node} {row : Option Record} (hn : n.finish = .idle)
    (hw : Shows l (env.work row n)) : Shows l (env.execute row n) := by
  have hconclude : Shows [] (conclude n : Step σ ρ) := by
    intro s hs
    refine ⟨s, ?_, .of_trace hs rfl⟩
    rw [conclude, hook_idle hn hs]
    rfl
  exact hw.andThen_nothing hconclude

variable (env) in
theorem shows_trial (place : Place) (plan : TrialPlan) (row : Option Record) :
    Shows [⟨plan.id, plan.loop, row⟩] (env.work row (.trial place plan)) := by
  apply Shows.of_next
  intro s hs
  exact .of_event (e := .trial plan.id plan.loop (parametersFor plan place.guard.scope s) row) hs rfl
    trivial

section Loops

variable {plan : LoopPlan} {items : List Node} {pass : Option Record → Step σ ρ}
  {f : Option Record → List Showing}

theorem openRun_rows (hkeep : ∀ loop rows x, (env.arrange loop rows x).1 = rows) (plan : LoopPlan)
    (run : Nat) (s : Session σ ρ) :
    (env.openRun plan run s).1 =
      (List.replicate plan.repetitions.toNat (plan.stimuli.passRows env.settings.participant)).flatten := by
  simp only [openRun, rowsFor]
  split
  · simp only [hkeep]
    rfl
  · rfl

theorem shows_loopBody (hkeep : ∀ loop rows x, (env.arrange loop rows x).1 = rows)
    (hpass : ∀ row, Shows (f row) (pass row)) :
    Shows (List.replicate plan.repetitions.toNat
      ((plan.stimuli.passRows env.settings.participant).flatMap f)).flatten
      (env.loopBody plan pass 1) := by
  intro s hs
  obtain ⟨x, hx⟩ := env.openRun_eq plan 1 s
  have hopen : Shown [] s (env.openRun plan 1 s).2 := by
    rw [hx]
    have hcalm : (s.context.enterLoop plan.scope).Calm := hs.update rfl
    exact .of_event (e := .loopRun plan.id 1) hcalm rfl rfl
  obtain ⟨t, ht, hshown⟩ := Shows.forEach hpass (env.openRun plan 1 s).1 _ hopen.calm
  rw [openRun_rows hkeep, List.flatten_eq_flatMap, List.flatMap_assoc, List.flatMap_replicate] at hshown
  exact ⟨t, (env.loopBody_eq plan pass 1 s).trans ht, hopen.trans hshown⟩

theorem shows_reruns (hkeep : ∀ loop rows x, (env.arrange loop rows x).1 = rows)
    (hlimit : 1 ≤ env.settings.maxLoopRuns) (hplan : plan.continuation = [])
    (hpass : ∀ row, Shows (f row) (pass row)) :
    Shows (List.replicate plan.repetitions.toNat
      ((plan.stimuli.passRows env.settings.participant).flatMap f)).flatten
      (env.reruns plan items pass) := by
  obtain ⟨k, hk⟩ := Nat.exists_eq_add_one.mpr (UInt32.le_iff_toNat_le.mp hlimit)
  have hagain : ∀ a : Step σ ρ, Shows [] (onceMore (askAgain plan items) a) := by
    intro a s hs
    refine ⟨s, ?_, .of_trace hs rfl⟩
    simp only [onceMore, askAgain, hs.continueLoop hplan]
    rfl
  simp only [reruns, hk, rerun_succ]
  exact (shows_loopBody hkeep hpass).andThen_nothing (hagain _)

end Loops

/-- A plain sequence shows what it expands to. -/
theorem shows_runNodes (hkeep : ∀ loop rows x, (env.arrange loop rows x).1 = rows)
    (hlimit : 1 ≤ env.settings.maxLoopRuns) {around : Surroundings} {index : Nat} {items : List Item}
    {nodes : List Node} (h : Compiled around index items nodes) (hplain : Item.plainList items = true)
    (ha : around.Plain) (row : Option Record) :
    Shows (Item.expandList env.settings.participant around.loop row items) (env.runNodes row nodes) := by
  induction h generalizing row with
  | nil =>
      rw [Item.expandList, runNodes_nil]
      exact shows_done
  | @trial around index t r nodes hr ih =>
      simp only [Item.plainList, Item.plain, Bool.and_eq_true, List.isEmpty_iff] at hplain
      obtain ⟨⟨hbranches, hrepeats⟩, hrest⟩ := hplain
      have hfinish : (trialNode around index (r.map Item.id) t).finish = .idle := by
        have hf : plannedFinish around index (r.map Item.id) (.trial t) = .idle :=
          plannedFinish_plain ha hbranches
        rw [trialNode, Node.finish, trialPlan, hf, hrepeats]
        rfl
      rw [Item.expandList, Item.expand, runNodes_cons, runNode_eq]
      exact (shows_guarded (shows_execute hfinish (shows_trial env _ _ row))).andThen (ih hrest ha row)
  | @loop around index l items r inner nodes name hi hr ihInner ih =>
      simp only [Item.plainList, Item.plain, Bool.and_eq_true, List.isEmpty_iff] at hplain
      obtain ⟨⟨⟨⟨hbranches, hrepeats⟩, hconditions⟩, hitems⟩, hrest⟩ := hplain
      have hfinish : (loopNode around index (r.map Item.id) l items (.loop name) inner).finish = .idle :=
        plannedFinish_plain ha hbranches
      have hinside := ihInner hitems (plain_inside hbranches hrepeats)
      rw [Item.expandList, Item.expand, runNodes_cons, runNode_eq]
      refine (shows_guarded (shows_execute hfinish ?_)).andThen (ih hrest ha row)
      exact shows_reruns hkeep hlimit (continuation_plain hconditions) hinside

/-- A plain tree is compiled with any settings, and its run is the tree unrolled: it ends well after
one session, and shows the trials of the expansion one after the other. No node is skipped, and
none does anything at its finish. -/
theorem run_unrolls {items : List Item} (hplain : Item.plainList items = true) (settings : Settings)
    (env : Environment σ ρ) (hkeep : ∀ loop rows x, (env.arrange loop rows x).1 = rows)
    (hlimit : 1 ≤ env.settings.maxLoopRuns) (responses : σ) (arranger : ρ) :
    ∃ t o, compile settings items = .ok t ∧ env.run t responses arranger = .ok o ∧
      o.restarts = 0 ∧ o.aborted = none ∧
      o.trace.filterMap Event.showing? = Item.expandList env.settings.participant none none items ∧
      ∀ e ∈ o.trace, (∃ id loop parameters stimulus, e = .trial id loop parameters stimulus) ∨
        ∃ id, e = .loopRun id 1 := by
  obtain ⟨t, ht⟩ := exists_compile (checksIn_plain hplain) settings
  obtain ⟨u, hu, hshown⟩ := shows_runNodes hkeep hlimit (compiled_of_compile ht) hplain ⟨rfl, rfl⟩ none
    (start responses arranger) Context.calm_start
  obtain ⟨new, hnew, hl, hstraight⟩ := hshown.trace
  have htrace : u.trace.reverse = new := by
    rw [hnew]
    simp [start]
  have hsessions : env.sessions t 0 [] (start responses arranger) env.settings.maxRestarts.toNat =
      (none, .ofSession 0 [] u) := by
    rw [sessions]
    simp only [hu, hshown.calm.pendingJump]
  refine ⟨t, .ofSession 0 [] u, ht, env.run_eq_ok.mpr hsessions, rfl, hshown.calm.aborted, ?_, ?_⟩
  · exact (congrArg _ htrace).trans hl
  · intro e he
    have hs : e.Straight := hstraight e (htrace ▸ he)
    cases e with
    | trial id loop parameters stimulus => exact .inl ⟨id, loop, parameters, stimulus, rfl⟩
    | loopRun id run =>
        obtain rfl : run = 1 := hs
        exact .inr ⟨id, rfl⟩
    | skipped | finished | restarted | jumpDropped => cases hs

def leftRow : Record := SortedMap.empty.insert "side" (Value.str "left")

def rightRow : Record := SortedMap.empty.insert "side" (Value.str "right")

def rounds : Loop :=
  { Loop.plain ⟨"l"⟩ with repetitions := 2, stimuli := ⟨[leftRow, rightRow], true, [[1, 0]], false, []⟩ }

def drill : List Item :=
  [.loop rounds [.trial (.plain ⟨"a"⟩), .loop (.plain ⟨"k"⟩) [.trial (.plain ⟨""⟩)]], .trial (.plain ⟨"a"⟩)]

def drillRound : List Showing :=
  [⟨⟨"a"⟩, some ⟨"l"⟩, some rightRow⟩, ⟨⟨""⟩, some ⟨"k"⟩, none⟩,
    ⟨⟨"a"⟩, some ⟨"l"⟩, some leftRow⟩, ⟨⟨""⟩, some ⟨"k"⟩, none⟩]

theorem run_unrolls_drill :
    Item.plainList drill = true ∧ (∀ loop rows x, (silent.arrange loop rows x).1 = rows) ∧
      1 ≤ silent.settings.maxLoopRuns ∧
      ∃ t o, compile .default drill = .ok t ∧ silent.run t () () = .ok o ∧
        o.trace.filterMap Event.showing? = drillRound ++ drillRound ++ [⟨⟨"a"⟩, none, none⟩] := by
  have hplain : Item.plainList drill = true := by cbv
  have hkeep : ∀ loop rows x, (silent.arrange loop rows x).1 = rows := fun _ _ _ => rfl
  have hlimit : 1 ≤ silent.settings.maxLoopRuns := by decide
  have hexpand : Item.expandList silent.settings.participant none none drill =
      drillRound ++ drillRound ++ [⟨⟨"a"⟩, none, none⟩] := by rfl
  obtain ⟨t, o, ht, ho, -, -, htrace, -⟩ := run_unrolls hplain .default silent hkeep hlimit () ()
  exact ⟨hplain, hkeep, hlimit, t, o, ht, ho, htrace.trans hexpand⟩

end Environment

end BranchingTimeline
