import BranchingTimeline.Proofs.Session.Agreement
import BranchingTimeline.Proofs.Session.History
import BranchingTimeline.Proofs.Timeline.Loops

namespace BranchingTimeline

namespace Event

def isAbort : Event → Bool
  | finished _ .aborted => true
  | _ => false

/-- The events of the session that a run is in, if the latest event of the run comes first. -/
def current (trace : List Event) : List Event := trace.takeWhile fun e => !e.isRestarted

/-- The session that a run is in has taken a branch to an item at the top level. -/
def BranchedAtTop (trace : List Event) : Prop :=
  ∃ id target, finished id (.branched target (.scope .root)) ∈ current trace

variable {e : Event} {trace : List Event}

theorem eq_of_isAbort (h : e.isAbort = true) : ∃ id, e = .finished id .aborted := by
  cases e with
  | finished id o =>
      cases o with
      | aborted => exact ⟨id, rfl⟩
      | idle | repeated | branched | escalated => cases h
  | skipped | trial | loopRun | restarted | jumpDropped => cases h

theorem branchedAtTop_cons (he : e.isRestarted = false) :
    BranchedAtTop (e :: trace) ↔
      (∃ id target, e = .finished id (.branched target (.scope .root))) ∨ BranchedAtTop trace := by
  simp [BranchedAtTop, current, he, exists_or, eq_comm]

theorem last_abort {events earlier later : List Event} {id x : ItemId}
    (hquiet : ∀ e ∈ events, e.isAbort = false)
    (h : events ++ [.finished x .aborted] = earlier ++ .finished id .aborted :: later) :
    later = [] ∧ events = earlier ∧ x = id := by
  rcases List.eq_nil_or_concat later with rfl | ⟨between, e, rfl⟩
  · obtain ⟨rfl, he⟩ := List.append_inj' h rfl
    cases he
    exact ⟨rfl, rfl, rfl⟩
  · rw [List.concat_eq_append, ← List.cons_append, ← List.append_assoc] at h
    obtain ⟨rfl, -⟩ := List.append_inj' h rfl
    cases hquiet (.finished id .aborted) (by simp)

theorem not_branchedAtTop_nil : ¬BranchedAtTop [] := by
  simp [BranchedAtTop, current]

theorem not_branchedAtTop_restarted (x : ItemId) : ¬BranchedAtTop (.restarted x :: trace) := by
  simp [BranchedAtTop, current, isRestarted]

end Event

namespace Context

variable {c c' : Context} {latest : Lookup} {o : FinishOutcome} {l : LoopPlan}

theorem branching_update (c : Context) {s : Scope} {f : Flags → Flags}
    (h : s = .root → ∀ a, (f a).branchingActive = a.branchingActive) :
    (c.update s f).root.branchingActive = c.root.branchingActive := by
  cases s with
  | root => exact h rfl c.root
  | loop name => rfl

theorem FinishesTrial.branched_follow {f : FinishPlan} {target : ItemId} {route : Route}
    (h : FinishesTrial f latest c (.branched target route) c') :
    ∃ (d : Context) (parameters : Option Record), c' = d.follow route target parameters := by
  cases h with
  | branched => exact ⟨_, _, rfl⟩

theorem FinishesLoop.branched_follow {target : ItemId} {route : Route}
    (h : FinishesLoop l latest c (.branched target route) c') :
    ∃ (d : Context) (parameters : Option Record), c' = d.follow route target parameters := by
  cases h with
  | branched => exact ⟨_, _, rfl⟩

theorem aborted_follow (c : Context) (route : Route) (target : ItemId) (parameters : Option Record) :
    (c.follow route target parameters).aborted = c.aborted := by
  cases route with
  | jump => rfl
  | scope s => exact aborted_update c s _

theorem FinishesTrial.aborted {f : FinishPlan} (h : FinishesTrial f latest c o c') :
    c'.aborted = c.aborted := by
  cases h with
  | repeated | noBranch | idle => rfl
  | branched => exact aborted_follow c _ _ _
  | escalated => exact aborted_update c _ _

theorem FinishesLoop.aborted_eq (h : FinishesLoop l latest c o c') (ho : o ≠ .aborted) :
    c'.aborted = c.aborted := by
  cases h with
  | jump | repeated | idle => rfl
  | branched => simp [aborted_follow]
  | noBranch | unmarked | escalated => simp
  | aborted => exact absurd rfl ho

theorem FinishesLoop.aborted_inv (h : FinishesLoop l latest c .aborted c') :
    l.terminal = true ∧ c.root.branchingActive = true ∧ c' = c.abort (abortReason l.id) := by
  cases h with
  | aborted hp hb he ht ha => exact ⟨ht, ha, rfl⟩

theorem stable_aborted : Stable fun c => c.aborted = none where
  update s f h := (aborted_update _ s f).trans h
  clearJump h := h

theorem finishLoop_terminal (hp : c.pendingJump = none) (hf : l.finish = ⟨[], none, none⟩)
    (ht : l.terminal = true) (hb : c.root.branchingActive = true) :
    c.finishLoop l latest = (.aborted, c.abort (abortReason l.id)) := by
  simp [finishLoop, hp, hf, repeatTarget, ht, hb]

end Context

/-- Nothing has aborted the run so far, and the top level branches exactly if the session that the
run is in has taken a branch there. -/
structure Session.Unaborted {σ ρ : Type} (s : Session σ ρ) : Prop where
  aborted : s.context.aborted = none
  events : ∀ e ∈ s.trace, e.isAbort = false
  branching : s.context.root.branchingActive = true ↔ Event.BranchedAtTop s.trace

structure Moment.Aborts {σ ρ : Type} (l : LoopPlan) (m m' : Moment σ ρ) : Prop where
  control : ∃ p inner rest, m.control = .running (.finish (.loop p l inner) :: rest)
  terminal : l.terminal = true
  branching : m.session.context.root.branchingActive = true
  last : m' = ⟨.ended none,
    (m.session.withContext (m.session.context.abort (Context.abortReason l.id))).report (.finished l.id .aborted),
    m.archived, m.left⟩

namespace Moment.Aborts

variable {σ ρ : Type} {l : LoopPlan} {m m' : Moment σ ρ}

theorem aborted (h : m.Aborts l m') : m'.session.context.aborted = some (Context.abortReason l.id) := by
  rw [h.last]
  rfl

theorem trace_reverse (h : m.Aborts l m') :
    m'.session.trace.reverse = m.session.trace.reverse ++ [.finished l.id .aborted] := by
  rw [h.last]
  exact List.reverse_cons

end Moment.Aborts

/-- A loop at the top level that was authored without branches and repeat conditions, and the node that
stands for it. -/
def EndsExperiment (tree : List Item) (t : Timeline) (loop : Loop) (n : Node) : Prop :=
  loop.branches = [] ∧ loop.repeatConditions = [] ∧
    ∃ (i : Nat) (sub : List Item), tree[i]? = some (.loop loop sub) ∧ t.nodes[i]? = some n

namespace Environment

open Node Compile

variable {σ ρ : Type} {env : Environment σ ρ} {settings : Settings} {tree : List Item} {t : Timeline}
  {p : Place} {l : LoopPlan} {inner : List Node} {n : Node} {s : Session σ ρ} {task : Task}
  {m m' : Moment σ ρ} {responses : σ} {arranger : ρ}

theorem scope_ne_root (hc : compile settings tree = .ok t) (hl : .loop p l inner ∈ flattenIn t.nodes) :
    l.scope ≠ .root := by
  intro he
  exact root_not_mem_scopesIn (compiled_of_compile hc) (List.mem_filterMap.mpr ⟨_, hl, congrArg some he⟩)

theorem pass_scope_ne_root (hc : compile settings tree = .ok t) (hn : n ∈ flattenIn t.nodes)
    (h : n.place.guard.beginsPass = true ∨ n.place.isLast = true) : n.place.guard.scope ≠ .root := by
  obtain ⟨around, index, later, item, hnode, -⟩ := nodeOf_of_compile hc hn
  rw [hnode.place_eq] at h ⊢
  have hroot : around.scope.isRoot = false := by
    simp only [placeOf, Bool.and_eq_true, Bool.not_eq_true'] at h
    exact h.elim And.right And.right
  simpa [placeOf, Scope.isRoot] using hroot

theorem hook_branched {target : ItemId} {route : Route} (h : (hook n s).1 = .branched target route) :
    ∃ (c : Context) (parameters : Option Record), (hook n s).2 = c.follow route target parameters := by
  cases n with
  | trial p plan => exact (Context.finishesTrial_of h).branched_follow
  | loop p l inner => exact (Context.finishesLoop_of h).branched_follow

theorem hook_branching (n : Node) (s : Session σ ρ) :
    (hook n s).2.root.branchingActive = true ↔
      (∃ target, (hook n s).1 = .branched target (.scope .root)) ∨
        s.context.root.branchingActive = true := by
  by_cases hb : ∃ target, (hook n s).1 = .branched target (.scope .root)
  · refine iff_of_true ?_ (.inl hb)
    obtain ⟨target, ho⟩ := hb
    obtain ⟨c, parameters, hc⟩ := hook_branched ho
    rw [hc]
    rfl
  · have hkeep : (hook n s).2.root.branchingActive = s.context.root.branchingActive :=
      hook_flag (q := Flags.branchingActive) (x := .root) (fun _ _ => rfl) fun target ho => hb ⟨target, ho⟩
    rw [hkeep, or_iff_right hb]

theorem hook_aborted_eq (h : (hook n s).1 ≠ .aborted) : (hook n s).2.aborted = s.context.aborted := by
  cases n with
  | trial p plan => exact (Context.finishesTrial _ _ _).aborted
  | loop p l inner => exact (Context.finishesLoop _ _ _).aborted_eq h

theorem consult_branching (hc : compile settings tree = .ok t) (hn : n ∈ flattenIn t.nodes)
    (s : Session σ ρ) :
    (consult n.place s).2.context.root.branchingActive = s.context.root.branchingActive := by
  have hbegun : (begun n.place s.context).root.branchingActive = s.context.root.branchingActive := by
    rw [begun]
    split
    · exact Context.branching_update _ fun hr => absurd hr (pass_scope_ne_root hc hn (.inl ‹_›))
    · rfl
  have hdecides := Context.decides (begun n.place s.context) n.place.guard
  exact (hdecides.flag_eq (x := .root) Flags.branchingActive fun _ => rfl).trans hbegun

theorem perform_branching (hc : compile settings tree = .ok t) (env : Environment σ ρ)
    (hw : task.Within t.nodes) (s : Session σ ρ) :
    (env.perform task s).2.2.context.root.branchingActive = true ↔
      (∃ id target, eventOf task s = some (.finished id (.branched target (.scope .root)))) ∨
        s.context.root.branchingActive = true := by
  match task with
  | .visit _ [] | .work _ (.loop ..) | .round _ _ 0 _ | .passes _ [] | .passes _ (_ :: _) =>
      simp [perform, eventOf]
  | .work stimulus (.trial p plan) => simp [perform, eventOf, present, Session.report]
  | .visit stimulus (n :: r) =>
      have hb := consult_branching hc (hw List.mem_cons_self) s
      simp only [perform, eventOf]
      split <;> simp [hb, Session.report]
  | .finish n =>
      simp only [perform, conclude, reportFinish_context, hook_branching, eventOf]
      split
      · rename_i hidle
        simp [hidle]
      · simp
  | .leave p =>
      obtain ⟨n, hn, rfl⟩ := hw
      simp only [perform, Environment.leave, eventOf]
      split
      · have hroot := pass_scope_ne_root hc hn (.inr ‹_›)
        have hb := Context.branching_update s.context (f := Flags.resetPass) fun hr => absurd hr hroot
        simp [Session.withContext, Context.resetPass, hb]
      · simp
  | .round l items (left + 1) run =>
      obtain ⟨p, hl⟩ := hw
      obtain ⟨a, ha⟩ := env.openRun_eq l run s
      have hb := Context.branching_update s.context (f := fun _ => .clear) fun hr =>
        absurd hr (scope_ne_root hc hl)
      simp [perform, eventOf, ha, Context.enterLoop, hb]
  | .again l items left run =>
      have hb : (askAgain l items s).2.context.root = s.context.root := askAgain_flags l items s .root
      simp [perform, eventOf, hb]

theorem conclude_aborted (h : (hook n s).1 = .aborted) :
    ∃ p l inner, n = .loop p l inner ∧ l.terminal = true ∧ s.context.root.branchingActive = true ∧
      conclude n s = (.abort, (s.withContext (s.context.abort (Context.abortReason l.id))).report
        (.finished l.id .aborted)) := by
  cases n with
  | trial p plan =>
      exact absurd (Context.finishesTrial_of h) Context.FinishesTrial.not_aborted
  | loop p l inner =>
      obtain ⟨ht, hb, hc⟩ := (Context.finishesLoop_of h).aborted_inv
      have hhook : hook (.loop p l inner) s = (.aborted, s.context.abort (Context.abortReason l.id)) :=
        Prod.ext h hc
      refine ⟨p, l, inner, rfl, ht, hb, ?_⟩
      simp only [conclude, hhook, reportFinish, reportedId]

theorem eventOf_not_abort (hn : ∀ n, task = .finish n → (hook n s).1 ≠ .aborted) {e : Event}
    (he : eventOf task s = some e) : e.isAbort = false := by
  apply eq_false_of_ne_true
  intro habort
  obtain ⟨id, rfl⟩ := Event.eq_of_isAbort habort
  obtain ⟨n, rfl, -, hout⟩ := eventOf_finished he
  exact hn n rfl hout

theorem perform_unaborted (hc : compile settings tree = .ok t) (env : Environment σ ρ)
    (hw : task.Within t.nodes) (hn : ∀ n, task = .finish n → (hook n s).1 ≠ .aborted)
    (hs : s.Unaborted) : (env.perform task s).2.2.Unaborted := by
  have hbranching := perform_branching hc env hw s
  refine ⟨?_, ?_, ?_⟩
  · refine perform_stable env Context.stable_aborted task ?_ hs.aborted
    intro n htask
    exact (hook_aborted_eq (hn n htask)).trans hs.aborted
  · rw [perform_trace]
    intro e he
    rcases List.mem_append.mp he with he | he
    · exact eventOf_not_abort hn (by simpa using he)
    · exact hs.events e he
  · rw [hbranching, hs.branching, perform_trace]
    cases he : eventOf task s with
    | none => simp
    | some e =>
        have hr : e.isRestarted = false := (eventOf_answer env task s).2 e he
        simp [Event.branchedAtTop_cons hr]

theorem close_unaborted (t : Timeline) (hs : s.Unaborted) (archived : List DataLog) (left : Nat) :
    (env.close t s archived left).session.Unaborted := by
  have hclose := env.closes t s archived left
  generalize env.close t s archived left = m at hclose
  cases hclose with
  | finished | exhausted => exact hs
  | @restarted x n =>
      refine ⟨rfl, List.forall_mem_cons.mpr ⟨rfl, hs.events⟩, ?_⟩
      exact iff_of_false nofun (Event.not_branchedAtTop_restarted x)
  | @dropped x =>
      have hdropped : Event.BranchedAtTop (.jumpDropped x :: s.trace) ↔ Event.BranchedAtTop s.trace := by
        rw [Event.branchedAtTop_cons rfl]
        simp
      exact ⟨hs.aborted, List.forall_mem_cons.mpr ⟨rfl, hs.events⟩, hs.branching.trans hdropped.symm⟩

theorem next_unaborted (hc : compile settings tree = .ok t)
    (hw : ∀ task ∈ m.tasks, task.Within t.nodes) (hm : m.session.Unaborted)
    (h : env.next t m = some m') : m'.session.Unaborted ∨ ∃ l, m.Aborts l m' := by
  rcases next_inv h with ⟨-, rfl⟩ | ⟨task, rest, hcontrol, rfl⟩
  · exact .inl (close_unaborted t hm m.archived m.left)
  · by_cases ha : ∃ n, task = .finish n ∧ (hook n m.session).1 = .aborted
    · obtain ⟨n, rfl, ha⟩ := ha
      obtain ⟨p, l, inner, rfl, ht, hb, hconclude⟩ := conclude_aborted ha
      refine .inr ⟨l, ⟨p, inner, rest, hcontrol⟩, ht, hb, ?_⟩
      simp only [perform, hconclude]
      rfl
    · have hw : task.Within t.nodes := hw task (by simp [Moment.tasks, hcontrol])
      refine .inl (perform_unaborted hc env hw ?_ hm)
      intro n htask hout
      exact ha ⟨n, htask, hout⟩

/-- A run is not aborted until it ends with the finish of a terminal loop. -/
theorem reaches_unaborted (hc : compile settings tree = .ok t)
    (h : env.Reaches t (env.opening t responses arranger) m) :
    m.session.Unaborted ∨ ∃ l a, env.Reaches t (env.opening t responses arranger) a ∧
      a.session.Unaborted ∧ a.Aborts l m := by
  induction h with
  | refl => exact .inl ⟨rfl, List.forall_mem_nil _, iff_of_false nofun Event.not_branchedAtTop_nil⟩
  | @tail a b ha hab ih =>
      rcases ih with hs | ⟨l, c, hc, hs, habort⟩
      · have hw := reaches_within (opening_sound env t responses arranger).within ha
        rcases next_unaborted hc hw hs hab with hb | ⟨l, habort⟩
        · exact .inl hb
        · exact .inr ⟨l, a, ha, hs, habort⟩
      · rw [habort.last] at hab
        cases hab

theorem terminal_source (hc : compile settings tree = .ok t) (hl : .loop p l inner ∈ flattenIn t.nodes)
    (ht : l.terminal = true) : ∃ loop, EndsExperiment tree t loop (.loop p l inner) ∧ loop.id = l.id := by
  have hcompiled := compiled_of_compile hc
  rcases mem_flattenIn_iff.mp hl with htop | ⟨q, o, outer, ho, hin⟩
  · obtain ⟨i, item, later, hitem, hn, hnode⟩ := hcompiled.get_of_mem htop
    cases hnode with
    | @loop loop sub inner name hi =>
        simp only [loopPlan, Bool.and_eq_true, List.isEmpty_iff] at ht
        exact ⟨loop, ⟨ht.1.1, ht.1.2, i, sub, hitem, hn⟩, rfl⟩
  · obtain ⟨_, _, _, _, _, -, -, -, hi⟩ := hcompiled.loop_source ho
    obtain ⟨_, _, _, -, -, hnode⟩ := hi.get_of_mem hin
    cases hnode with
    | loop name hi => exact absurd (terminal_root rfl ht) (scope_ne_root hc ho)

theorem terminal_plan (hc : compile settings tree = .ok t) {loop : Loop}
    (h : EndsExperiment tree t loop (.loop p l inner)) :
    l.id = loop.id ∧ l.terminal = true ∧ l.finish = ⟨[], none, none⟩ := by
  obtain ⟨hb, hr, i, sub, hitem, hn⟩ := h
  obtain ⟨item, later, hitem', hnode⟩ := (compiled_of_compile hc).get hn
  obtain rfl := Option.some.inj (hitem.symm.trans hitem')
  cases hnode with
  | loop name hi =>
      refine ⟨rfl, ?_, ?_⟩
      · simp [loopPlan, hb, hr, Surroundings.root, Scope.isRoot]
      · simp [loopPlan, plannedFinish, plannedBranch, Item.branches, hb, Surroundings.root,
          Surroundings.armedAt]

theorem next_terminal (hc : compile settings tree = .ok t) {loop : Loop} {rest : List Task}
    (hcontrol : m.control = .running (.finish (.loop p l inner) :: rest))
    (h : EndsExperiment tree t loop (.loop p l inner)) (hp : m.session.context.pendingJump = none)
    (hb : m.session.context.root.branchingActive = true) :
    env.next t m = some ⟨.ended none,
      (m.session.withContext (m.session.context.abort (Context.abortReason loop.id))).report
        (.finished loop.id .aborted), m.archived, m.left⟩ := by
  obtain ⟨hid, ht, hf⟩ := terminal_plan hc h
  have hfinish : m.session.context.finishLoop l m.session.log.latest = _ :=
    Context.finishLoop_terminal hp hf ht hb
  simp only [next, hcontrol, perform, conclude, hook, hfinish, reportFinish, reportedId, hid]
  rfl

theorem aborts_source (hc : compile settings tree = .ok t)
    (hm : env.Reaches t (env.opening t responses arranger) m) (h : m.Aborts l m') :
    ∃ p inner rest loop, m.control = .running (.finish (.loop p l inner) :: rest) ∧
      EndsExperiment tree t loop (.loop p l inner) ∧ loop.id = l.id := by
  obtain ⟨p, inner, rest, hcontrol⟩ := h.control
  have hw := reaches_within (opening_sound env t responses arranger).within hm
  have hw : Task.Within t.nodes (.finish (.loop p l inner)) := hw _ (by simp [Moment.tasks, hcontrol])
  obtain ⟨loop, hloop, hid⟩ := terminal_source hc hw h.terminal
  exact ⟨p, inner, rest, loop, hcontrol, hloop, hid⟩

/-- A run that ends well has been aborted exactly if it ends with the abort of a loop. There is no
other abort in it; the loop stands at the top level without branches and repeat conditions, and the
session had taken a branch at the top level before. Conversely, the finish of such a loop in such a
session ends the run, unless a jump is pending. -/
theorem run_aborts (hc : compile settings tree = .ok t) (env : Environment σ ρ) (responses : σ)
    (arranger : ρ) :
    (∀ o, env.run t responses arranger = .ok o →
      (o.aborted.isSome = true ↔ ∃ id, o.trace.getLast? = some (.finished id .aborted)) ∧
      ∀ earlier later id, o.trace = earlier ++ .finished id .aborted :: later →
        later = [] ∧ (∀ e ∈ earlier, e.isAbort = false) ∧ Event.BranchedAtTop earlier.reverse ∧
        o.aborted = some (Context.abortReason id) ∧
        ∃ a p l inner rest loop, env.Reaches t (env.opening t responses arranger) a ∧
          a.control = .running (.finish (.loop p l inner) :: rest) ∧
          a.session.trace.reverse = earlier ∧ EndsExperiment tree t loop (.loop p l inner) ∧
          loop.id = id) ∧
    ∀ m p l inner rest loop, env.Reaches t (env.opening t responses arranger) m →
      m.control = .running (.finish (.loop p l inner) :: rest) →
      EndsExperiment tree t loop (.loop p l inner) → m.session.context.pendingJump = none →
      Event.BranchedAtTop m.session.trace →
      ∃ o, env.run t responses arranger = .ok o ∧
        o.trace = m.session.trace.reverse ++ [.finished loop.id .aborted] ∧
        o.aborted = some (Context.abortReason loop.id) ∧ o.restarts = m.archived.length ∧
        o.archived = m.archived.reverse ∧ o.data = m.session.log := by
  obtain ⟨u, logs, left, hreach, hout⟩ := env.opening_reaches_end t responses arranger
  constructor
  · intro o ho
    rw [env.run_eq_ok.mp ho] at hreach hout
    obtain rfl : o = .ofSession logs.length logs u := hout
    rcases reaches_unaborted hc hreach with hu | ⟨l, a, ha, hu, habort⟩
    · have hquiet : ∀ e ∈ u.trace.reverse, e.isAbort = false := by simpa using hu.events
      have hnone : (Outcome.ofSession logs.length logs u).aborted = none := hu.aborted
      constructor
      · simp only [hnone, Option.isSome_none, Bool.false_eq_true, false_iff]
        rintro ⟨id, hlast⟩
        cases hquiet _ (List.mem_of_getLast? hlast)
      · intro earlier later id he
        cases hquiet (.finished id .aborted) (by rw [show u.trace.reverse = _ from he]; simp)
    · have hsome : (Outcome.ofSession logs.length logs u).aborted = some (Context.abortReason l.id) := habort.aborted
      have htrace : (Outcome.ofSession logs.length logs u).trace =
          a.session.trace.reverse ++ [.finished l.id .aborted] := habort.trace_reverse
      constructor
      · refine iff_of_true (by rw [hsome]; rfl) ⟨l.id, ?_⟩
        rw [htrace, List.getLast?_append]
        rfl
      · intro earlier later id he
        have hquiet : ∀ e ∈ a.session.trace.reverse, e.isAbort = false := by simpa using hu.events
        obtain ⟨rfl, rfl, rfl⟩ := Event.last_abort hquiet (htrace.symm.trans he)
        obtain ⟨p, inner, rest, loop, hcontrol, hloop, hid⟩ := aborts_source hc ha habort
        refine ⟨rfl, hquiet, ?_, hsome, a, p, l, inner, rest, loop, ha, hcontrol, rfl, hloop, hid⟩
        rw [List.reverse_reverse]
        exact hu.branching.mp habort.branching
  · intro m p l inner rest loop hm hcontrol hloop hp hb
    rcases reaches_unaborted hc hm with hu | ⟨l', a, -, -, habort⟩
    · have hn : env.next t m = _ := next_terminal hc hcontrol hloop hp (hu.branching.mpr hb)
      have heq := eq_of_ended rfl (reaches_end (hm.tail hn) hreach rfl)
      obtain ⟨he, rfl, rfl, -⟩ := Moment.mk.inj heq
      have hrun := env.run_eq_ok.mpr (Prod.ext (Control.ended.inj he) hout)
      refine ⟨_, hrun, ?_, rfl, rfl, rfl, rfl⟩
      simp [Session.report, Session.withContext]
    · rw [habort.last] at hcontrol
      cases hcontrol

def closing : Loop := .plain ⟨"l"⟩

def aborting : List Item :=
  [.trial { Trial.plain ⟨"a"⟩ with branches := [⟨"l"⟩] }, .trial (.plain ⟨"b"⟩),
    .loop closing [.trial (.plain ⟨"c"⟩)], .trial (.plain ⟨"d"⟩)]

def abortingTimeline : Timeline := (compile .default aborting).toOption.getD ⟨[], .empty, []⟩

def finishing : Moment Unit Unit :=
  (silent.steps abortingTimeline 16 (silent.opening abortingTimeline () ())).getD
    (silent.opening abortingTimeline () ())

theorem finishing_loop :
    ∃ p l inner rest, finishing.control = .running (.finish (.loop p l inner) :: rest) ∧
      abortingTimeline.nodes[2]? = some (.loop p l inner) := ⟨_, _, _, _, rfl, rfl⟩

theorem run_aborts_terminal :
    compile .default aborting = .ok abortingTimeline ∧
      ∃ o, silent.run abortingTimeline () () = .ok o ∧ o.aborted.isSome = true ∧ o.restarts = 0 ∧
        o.trace = [.trial ⟨"a"⟩ none .empty none,
          .finished ⟨"a"⟩ (.branched ⟨"l"⟩ (.scope .root)), .skipped ⟨"b"⟩ .skippedForBranch,
          .loopRun ⟨"l"⟩ 1, .trial ⟨"c"⟩ (some ⟨"l"⟩) .empty none, .finished ⟨"l"⟩ .aborted] := by
  have hc : compile .default aborting = .ok abortingTimeline := by cbv
  have hreach : silent.Reaches abortingTimeline (silent.opening abortingTimeline () ()) finishing :=
    steps_reaches silent (show silent.steps abortingTimeline 16 _ = some finishing from rfl)
  obtain ⟨p, l, inner, rest, hcontrol, hnode⟩ := finishing_loop
  have hloop : EndsExperiment aborting abortingTimeline closing (.loop p l inner) :=
    ⟨rfl, rfl, 2, [.trial (.plain ⟨"c"⟩)], rfl, hnode⟩
  have htrace : finishing.session.trace = [.trial ⟨"c"⟩ (some ⟨"l"⟩) .empty none, .loopRun ⟨"l"⟩ 1,
      .skipped ⟨"b"⟩ .skippedForBranch, .finished ⟨"a"⟩ (.branched ⟨"l"⟩ (.scope .root)),
      .trial ⟨"a"⟩ none .empty none] := rfl
  have hb : Event.BranchedAtTop finishing.session.trace := by
    rw [htrace]
    exact ⟨⟨"a"⟩, ⟨"l"⟩, by simp [Event.current, Event.isRestarted]⟩
  obtain ⟨hends, haborts⟩ := run_aborts hc silent () ()
  obtain ⟨o, ho, hlast, -, hrestarts, -⟩ :=
    haborts finishing p l inner rest closing hreach hcontrol hloop rfl hb
  rw [htrace] at hlast
  obtain ⟨hiff, -⟩ := hends o ho
  exact ⟨hc, o, ho, hiff.mpr ⟨⟨"l"⟩, by rw [hlast]; rfl⟩, hrestarts, hlast⟩

end Environment

end BranchingTimeline
