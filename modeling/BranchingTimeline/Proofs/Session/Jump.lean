import BranchingTimeline.Proofs.Session.Soundness
import BranchingTimeline.Proofs.Timeline.KnownIds

namespace BranchingTimeline

/-- What may happen while a jump is pending. -/
def Event.Quiet : Event → Prop
  | skipped _ decision => decision = .skippedForJump
  | loopRun .. | restarted _ => True
  | trial .. | finished .. | jumpDropped _ => False

def Event.isTrial : Event → Bool
  | trial .. => true
  | _ => false

namespace Context

variable {c c' : Context} {x : ItemId} {latest : Lookup} {o : FinishOutcome}

theorem FinishesLoop.waiting {l : LoopPlan} (h : FinishesLoop l latest c o c')
    (hp : c.pendingJump = some x) : o = .idle ∧ c' = c := by
  cases h with
  | jump => exact ⟨rfl, rfl⟩
  | repeated hn | branched hn | noBranch hn | unmarked hn | escalated hn | aborted hn | idle hn =>
      rw [hn] at hp
      cases hp

theorem Continues.waiting {l : LoopPlan} {items : List Node} {log : DataLog} {again : Bool}
    (h : Continues l items log c again c') (hp : c.pendingJump = some x) :
    (l.id = x ∧ again = true ∧ c' = c.clearJump) ∨ c' = c := by
  cases h with
  | jumpTarget hj => exact .inl ⟨Option.some.inj (hj.symm.trans hp), rfl, rfl⟩
  | jump => exact .inr rfl
  | data => exact .inr rfl

end Context

theorem FinishPlan.Jumps.not_blank {f : FinishPlan} {latest : Lookup} {x : ItemId}
    (h : f.Jumps latest x) (hb : ∀ b, f.branch = some b → ∀ y ∈ b.branches, y.isBlank = false) :
    x.isBlank = false := by
  cases h with
  | repeated hr =>
      obtain ⟨c, -, hd⟩ := mem_of_repeatTarget hr
      exact ItemId.named_not_blank hd
  | branched hbranch hs hx =>
      subst hx
      rcases BranchPlan.mem_of_select hs with hmem | ⟨c, -, hd⟩
      · exact hb _ hbranch _ hmem
      · exact ItemId.named_not_blank hd

/-- A task that begins by consuming the jump to an id: the guard of a node with that id is consulted,
or a loop with that id is asked whether it runs again. -/
inductive Task.Consumes {σ ρ : Type} (x : ItemId) (s : Session σ ρ) : Task → Prop
  | guard {stimulus : Option Record} {n : Node} {r : List Node} (hn : n.id = x)
      (hd : (Environment.consult n.place s).1 = .jumpTarget) : Consumes x s (.visit stimulus (n :: r))
  | rerun {l : LoopPlan} {items : List Node} {left run : Nat} (hl : l.id = x)
      (hp : s.context.pendingJump = some x) : Consumes x s (.again l items left run)

namespace Environment

open Compile Node

variable {σ ρ : Type} {env : Environment σ ρ} {t : Timeline} {task : Task} {x : ItemId}
  {s : Session σ ρ} {m m' : Moment σ ρ}

theorem begun_pendingJump (place : Place) (c : Context) :
    (begun place c).pendingJump = c.pendingJump := by
  rw [begun]
  split
  · exact Context.pendingJump_update _ _ _
  · rfl

theorem consult_pending {place : Place} (hp : s.context.pendingJump = some x) :
    consult place s =
      if x = place.guard.id then (.jumpTarget, s.withContext (begun place s.context).clearJump)
      else if place.guard.members.contains x then
        (.jumpThrough, s.withContext (begun place s.context))
      else (.skippedForJump, s.withContext (begun place s.context)) := by
  rw [← begun_pendingJump place] at hp
  simp only [consult_eq, Context.decide, hp]
  split
  · rfl
  · split <;> rfl

variable (env) in
/-- While a jump is pending, a task either leaves it pending and reports nothing but quiet events, or
it consumes the jump. -/
theorem perform_waiting (hp : s.context.pendingJump = some x) (hf : task.Free s.context) :
    (task.Consumes x s ∧ (env.perform task s).1 = .next ∧ eventOf task s = none ∧
        (env.perform task s).2.2.context.jumpStore = none ∧
        (env.perform task s).2.2.context.jumpMemory = none) ∨
      ((env.perform task s).2.2.context.pendingJump = some x ∧ (env.perform task s).1 ≠ .abort ∧
        ∀ e ∈ eventOf task s, e.Quiet) := by
  match task with
  | .visit _ [] | .work _ (.loop ..) | .round _ _ 0 _ | .passes _ [] | .passes _ (_ :: _) =>
      exact .inr ⟨hp, by simp [perform], by simp [eventOf]⟩
  | .work _ (.trial ..) | .finish (.trial ..) =>
      rw [hf] at hp
      cases hp
  | .visit stimulus (n :: r) =>
      have hcons : consult n.place s = _ := consult_pending hp
      rw [← begun_pendingJump n.place] at hp
      split at hcons
      · refine .inl ⟨.guard (Eq.symm ‹_›) (congrArg Prod.fst hcons), ?_⟩
        simp [perform, eventOf, hcons, Decision.runs, Session.withContext, Context.clearJump]
      · right
        split at hcons
        · simp [perform, eventOf, hcons, Decision.runs, Session.withContext, hp]
        · simp [perform, eventOf, hcons, Decision.runs, Session.withContext, Session.report, hp,
            Event.Quiet]
  | .finish (.loop p l items) =>
      obtain ⟨ho, hc⟩ := (Context.finishesLoop s.context l s.log.latest).waiting hp
      have hhook : hook (.loop p l items) s = (.idle, s.context) := Prod.ext ho hc
      right
      simp [perform, conclude, reportFinish, eventOf, hhook, Session.withContext, hp]
  | .leave p =>
      refine .inr ⟨?_, by simp [perform], by simp [eventOf]⟩
      simp only [perform, Environment.leave]
      split
      · exact (Context.pendingJump_update ..).trans hp
      · exact hp
  | .round l items (left + 1) run =>
      obtain ⟨a, ha⟩ := env.openRun_eq l run s
      refine .inr ⟨?_, by simp [perform], by simp [eventOf, Event.Quiet]⟩
      simp only [perform, ha]
      exact (Context.pendingJump_update ..).trans hp
  | .again l items left run =>
      rcases (Context.continues s.context l items s.log).waiting hp with ⟨hl, ha, hc⟩ | hc
      · refine .inl ⟨.rerun hl hp, ?_⟩
        simp [perform, askAgain, eventOf, hc, Session.withContext, Context.clearJump]
      · right
        simp [perform, askAgain, eventOf, hc, Session.withContext, hp]

structure Pending (t : Timeline) (x : ItemId) (m : Moment σ ρ) : Prop where
  sound : Sound t m
  jump : m.session.context.pendingJump = some x
  unfinished : ∀ e, m.control = .ended e → e ≠ none

/-- Since some moment a jump has been pending, and nothing but quiet events has been reported. -/
structure Waits (x : ItemId) (m m' : Moment σ ρ) : Prop where
  pending : m'.session.context.pendingJump = some x
  unfinished : ∀ e, m'.control = .ended e → e ≠ none
  quiet : ∃ new, m'.session.trace = new ++ m.session.trace ∧ ∀ e ∈ new, e.Quiet

/-- What has come of a jump that was pending at some moment: it still is, or it was first consumed by
an item with its id, or the run ended and dropped it. -/
inductive JumpFate (env : Environment σ ρ) (t : Timeline) (x : ItemId) (m m' : Moment σ ρ) : Prop
  | waits (hw : Waits x m m')
  | served {a b : Moment σ ρ} {task : Task} {rest : List Task} (ha : env.Reaches t m a)
      (hw : Waits x m a) (hc : a.control = .running (task :: rest)) (ht : task.Consumes x a.session)
      (hn : env.next t a = some b) (htrace : b.session.trace = a.session.trace)
      (hstore : b.session.context.jumpStore = none) (hmemory : b.session.context.jumpMemory = none)
      (hb : env.Reaches t b m')
  | dropped {a : Moment σ ρ} (ha : env.Reaches t m a) (hw : Waits x m a)
      (hn : env.next t a = some m') (hc : m'.control = .ended none)
      (htrace : m'.session.trace = .jumpDropped x :: a.session.trace)
      (hx : t.knownIds.contains x = false)

theorem Waits.trans (h : Waits x m m') {n : Moment σ ρ} (new : List Event)
    (hp : n.session.context.pendingJump = some x) (hu : ∀ e, n.control = .ended e → e ≠ none)
    (ht : n.session.trace = new ++ m'.session.trace) (hq : ∀ e ∈ new, e.Quiet) : Waits x m n := by
  obtain ⟨old, hold, hquiet⟩ := h.quiet
  refine ⟨hp, hu, new ++ old, by rw [ht, hold, List.append_assoc], ?_⟩
  intro e he
  rcases List.mem_append.mp he with he | he
  · exact hq e he
  · exact hquiet e he

theorem after_unfinished {flow : Flow} {tasks : List Task} (h : flow ≠ .abort) {e : Option Error}
    (he : Control.after flow tasks = .ended e) : e ≠ none := by
  cases flow with
  | next => cases he
  | abort => exact absurd rfl h
  | failed err =>
      cases he
      simp

theorem next_waits {m₁ : Moment σ ρ} (hs : Sound t m) (hr : env.Reaches t m₁ m) (hw : Waits x m₁ m)
    (h : env.next t m = some m') : JumpFate env t x m₁ m' := by
  rcases next_inv h with ⟨hc, hm⟩ | ⟨task, rest, hc, rfl⟩
  · have hstore := hs.stored.pendingJump.symm.trans hw.pending
    simp only [close, hw.pending] at hm
    split at hm
    · split at hm
      · subst hm
        exact .waits (hw.trans [] hw.pending (by simp) rfl (by simp))
      · subst hm
        refine .waits (hw.trans [.restarted x] ?_ (by simp) rfl (by simp [Event.Quiet]))
        simp [restart, Context.reload, Context.pendingJump, Session.report, hstore]
    · subst hm
      exact .dropped hr hw h rfl rfl (eq_false_of_ne_true ‹_›)
  · have hf : task.Free m.session.context := hs.free task (by simp [Moment.tasks, hc])
    have htrace := perform_trace env task m.session
    rcases perform_waiting env hw.pending hf with ⟨ht, -, he, hst, hmem⟩ | ⟨hp, hflow, hq⟩
    · exact .served hr hw hc ht h (by simpa [he] using htrace) hst hmem .refl
    · apply JumpFate.waits
      refine hw.trans _ hp (fun e he => after_unfinished hflow he) htrace ?_
      intro e he
      exact hq e (Option.mem_toList.mp he)

/-- A pending jump is kept, and nothing but quiet events occur, until it meets its fate. -/
theorem reaches_jumpFate
    (hm : ∀ p plan, .trial p plan ∈ flattenIn t.nodes → p.guard.members = .empty)
    (hp : Pending t x m) (h : env.Reaches t m m') : JumpFate env t x m m' := by
  induction h with
  | refl => exact .waits ⟨hp.jump, hp.unfinished, [], rfl, by simp⟩
  | @tail a b ha hab ih =>
      cases ih with
      | waits hw => exact next_waits (reaches_sound hm hp.sound ha) ha hw hab
      | served hr hw hc ht hn htrace hstore hmemory hb =>
          exact .served hr hw hc ht hn htrace hstore hmemory (hb.tail hab)
      | dropped hr hw hn hc htrace hx => simp [next, hc] at hab

theorem eventOf_trial {e : Event} (h : eventOf task s = some e) (he : e.isTrial = true) :
    ∃ stimulus p plan parameters, task = .work stimulus (.trial p plan) ∧
      e = .trial plan.id plan.loop parameters stimulus := by
  match task with
  | .work stimulus (.trial p plan) => exact ⟨_, p, plan, _, rfl, (Option.some.inj h).symm⟩
  | .work _ (.loop ..) | .round _ _ 0 _ | .visit _ [] | .passes .. | .leave _ | .again .. => cases h
  | .visit _ (n :: _) =>
      simp only [eventOf] at h
      split at h
      · cases h
      · cases h
        cases he
  | .finish n =>
      simp only [eventOf] at h
      split at h
      · cases h
      · cases h
        cases he
  | .round l _ (_ + 1) run =>
      cases h
      cases he

theorem eventOf_finished {id : ItemId} {o : FinishOutcome}
    (h : eventOf task s = some (.finished id o)) :
    ∃ n, task = .finish n ∧ reportedId n = id ∧ (hook n s).1 = o := by
  match task with
  | .finish n =>
      simp only [eventOf] at h
      split at h
      · cases h
      · cases h
        exact ⟨n, rfl, rfl, rfl⟩
  | .work _ (.trial ..) | .work _ (.loop ..) | .round _ _ 0 _ | .round _ _ (_ + 1) _ | .visit _ []
  | .passes .. | .leave _ | .again .. => cases h
  | .visit _ (n :: _) =>
      simp only [eventOf] at h
      split at h <;> cases h

theorem eventOf_loopRun {id : ItemId} {run : Nat} (h : eventOf task s = some (.loopRun id run)) :
    ∃ l items left, task = .round l items (left + 1) run ∧ l.id = id := by
  match task with
  | .round l items (left + 1) _ =>
      cases h
      exact ⟨l, items, left, rfl, rfl⟩
  | .work _ (.trial ..) | .work _ (.loop ..) | .round _ _ 0 _ | .visit _ [] | .passes .. | .leave _
  | .again .. => cases h
  | .visit _ (n :: _) | .finish n =>
      simp only [eventOf] at h
      split at h <;> cases h

variable {settings : Settings} {items : List Item}

theorem trial_members (hc : compile settings items = .ok t) (p : Place) (plan : TrialPlan)
    (h : .trial p plan ∈ flattenIn t.nodes) : p.guard.members = .empty := by
  obtain ⟨_, _, _, _, hnode, -⟩ := nodeOf_of_compile hc h
  exact hnode.trial_members

theorem finished_pending (hc : compile settings items = .ok t) (hs : Sound t m)
    (h : env.next t m = some m') {id : ItemId} {o : FinishOutcome}
    (he : m'.session.trace = .finished id o :: m.session.trace) (ho : o.jump? = some x) :
    Pending t x m' ∧ x.isBlank = false := by
  have hs' := next_sound (trial_members hc) hs h
  rcases next_event h he with ⟨y, hy | hy⟩ | ⟨task, rest, hcontrol, hevent, rfl⟩
  · cases hy
  · cases hy
  · obtain ⟨n, rfl, -, hout⟩ := eventOf_finished hevent
    have hn : n ∈ flattenIn t.nodes := hs.within (.finish n) (by simp [Moment.tasks, hcontrol])
    obtain ⟨_, _, _, _, hnode, -⟩ := nodeOf_of_compile hc hn
    have hb := fun b hb y => hnode.branches_not_blank (b := b) (x := y) hb
    have hj : (hook n m.session).1.jump? = some x := by rw [hout, ho]
    refine ⟨⟨hs', ?_, fun e => after_unfinished ?_⟩, (hook_jumps hj).not_blank hb⟩
    · simp only [perform, conclude, reportFinish_context]
      rw [(hook_receives n m.session).pendingJump, hj]
      rfl
    · simp only [perform, conclude, reportFinish, hout]
      cases o with
      | aborted => cases ho
      | idle | repeated | branched | escalated => simp

theorem mem_of_consumes (hc : compile settings items = .ok t) (hs : Sound t m) {rest : List Task}
    (hcontrol : m.control = .running (task :: rest)) (ht : task.Consumes x m.session) :
    ∃ n ∈ flattenIn t.nodes, n.id = x := by
  have hw : task.Within t.nodes := hs.within task (by simp [Moment.tasks, hcontrol])
  cases ht with
  | guard hn hd => exact ⟨_, hw List.mem_cons_self, hn⟩
  | rerun hl hp =>
      obtain ⟨p, hp⟩ := hw
      obtain ⟨_, _, _, _, hnode, -⟩ := nodeOf_of_compile hc hp
      exact ⟨_, hp, hnode.loop_id.symm.trans hl⟩

theorem served_of_trial (hc : compile settings items = .ok t) (hp : Pending t x m)
    (h : env.Reaches t m m') {n : Moment σ ρ} (hn : env.next t m' = some n) {e : Event}
    (he : n.session.trace = e :: m'.session.trace) (htrial : e.isTrial = true) :
    ∃ a b task rest, env.Reaches t m a ∧ Waits x m a ∧ a.control = .running (task :: rest) ∧
      task.Consumes x a.session ∧ env.next t a = some b ∧ b.session.trace = a.session.trace ∧
      env.Reaches t b m' := by
  cases reaches_jumpFate (trial_members hc) hp h with
  | waits hw =>
      have hs' := reaches_sound (trial_members hc) hp.sound h
      rcases next_event hn he with ⟨y, rfl | rfl⟩ | ⟨task, rest, hcontrol, hevent, -⟩
      · cases htrial
      · cases htrial
      · obtain ⟨stimulus, p, plan, _, rfl, -⟩ := eventOf_trial hevent htrial
        have hfree := hs'.free (.work stimulus (.trial p plan)) (by simp [Moment.tasks, hcontrol])
        have hpending := hw.pending
        rw [hfree] at hpending
        cases hpending
  | served ha hw hcontrol ht hn' htrace hstore hmemory hb =>
      exact ⟨_, _, _, _, ha, hw, hcontrol, ht, hn', htrace, hb⟩
  | dropped ha hw hn' hcontrol => simp [next, hcontrol] at hn

theorem first_trial (hc : compile settings items = .ok t)
    (hloop : ∀ p l inner, .loop p l inner ∈ flattenIn t.nodes → p.guard.id ≠ x) (hp : Pending t x m)
    (h : env.Reaches t m m') {n : Moment σ ρ} (hn : env.next t m' = some n) {e : Event}
    (he : n.session.trace = e :: m'.session.trace) (htrial : e.isTrial = true)
    {quiet : List Event} (hq : m'.session.trace = quiet ++ m.session.trace)
    (hnone : ∀ d ∈ quiet, d.isTrial = false) :
    ∃ loop parameters stimulus, e = .trial x loop parameters stimulus := by
  obtain ⟨a, b, task, rest, ha, hw, hcontrol, ht, hab, htrace, hb⟩ :=
    served_of_trial hc hp h hn he htrial
  have hsa := reaches_sound (trial_members hc) hp.sound ha
  have hwithin : task.Within t.nodes := hsa.within task (by simp [Moment.tasks, hcontrol])
  cases ht with
  | rerun hl =>
      obtain ⟨p, hmem⟩ := hwithin
      obtain ⟨_, _, _, _, hnode, -⟩ := nodeOf_of_compile hc hmem
      exact absurd (hnode.loop_id.symm.trans hl) (hloop p _ _ hmem)
  | @guard stimulus k r hid hd =>
      have hmem : k ∈ flattenIn t.nodes := hwithin List.mem_cons_self
      cases k with
      | loop p l inner => exact absurd hid (hloop p l inner hmem)
      | trial p plan =>
          obtain ⟨_, _, _, _, hnode, -⟩ := nodeOf_of_compile hc hmem
          obtain rfl : plan.id = x := hnode.trial_id.trans hid
          have hrun : (consult (Node.trial p plan).place a.session).1.runs = true := by
            rw [hd]
            rfl
          obtain rfl := Option.some.inj ((next_visit env hcontrol hrun).symm.trans hab)
          rcases hb.cases_head with rfl | ⟨c, hbc, hcm⟩
          · have htr := next_work_trial rfl hn
            rw [he] at htr
            exact ⟨_, _, _, (List.cons.inj htr).1⟩
          · obtain ⟨new, hnew⟩ := reaches_trace hcm
            obtain ⟨old, hold, -⟩ := hw.quiet
            have htr := next_work_trial rfl hbc
            rw [htrace, hold] at htr
            rw [hq, htr, ← List.cons_append, ← List.append_assoc] at hnew
            have hin := List.append_cancel_right hnew
            have hfalse := hnone _ (hin ▸ List.mem_append_right new List.mem_cons_self)
            cases hfalse

theorem opening_sound (env : Environment σ ρ) (t : Timeline) (responses : σ) (arranger : ρ) :
    Sound t (opening env t responses arranger) := sound_visit fun _ => rfl

theorem reported_jump (hc : compile settings items = .ok t) (hs : Sound t m) (h : env.Reaches t m m')
    (hm : m.session.trace = []) {newer older : List Event} {id : ItemId} {o : FinishOutcome}
    (he : m'.session.trace = newer ++ .finished id o :: older) (ho : o.jump? = some x) :
    ∃ a, env.Reaches t a m' ∧ Pending t x a ∧ x.isBlank = false ∧
      m'.session.trace = newer ++ a.session.trace := by
  obtain ⟨a, b, ha, hab, hold, hnew, hb⟩ := reported h he (by simp [hm])
  have hs' := reaches_sound (trial_members hc) hs ha
  rw [← hold] at hnew
  obtain ⟨hp, hblank⟩ := finished_pending hc hs' hab hnew ho
  rw [hold] at hnew
  exact ⟨b, hb, hp, hblank, by rw [he, hnew]⟩

/-- A jump to an id that no node has is consumed by nothing. -/
theorem stray_not_served (hc : compile settings items = .ok t) (hx : t.knownIds.contains x = false)
    (hblank : x.isBlank = false) (hs : Sound t m) {rest : List Task}
    (hcontrol : m.control = .running (task :: rest)) : ¬task.Consumes x m.session := by
  intro ht
  have hknown := (knownIds_iff hc x).mpr ⟨hblank, mem_of_consumes hc hs hcontrol ht⟩
  rw [hx] at hknown
  cases hknown

theorem stray_no_trial (hc : compile settings items = .ok t) (hx : t.knownIds.contains x = false)
    (hblank : x.isBlank = false) (hp : Pending t x m) (h : env.Reaches t m m') {newer older : List Event}
    {e : Event} (he : m'.session.trace = newer ++ e :: older)
    (hm : m.session.trace.length ≤ older.length) : e.isTrial = false := by
  apply eq_false_of_ne_true
  intro htrial
  obtain ⟨a, b, ha, hab, hold, hnew, -⟩ := reported h he hm
  rw [← hold] at hnew
  obtain ⟨c, _, _, _, hreach, -, hcontrol, ht, -⟩ := served_of_trial hc hp ha hab hnew htrial
  exact stray_not_served hc hx hblank (reaches_sound (trial_members hc) hp.sound hreach) hcontrol ht

theorem stray_dropped (hc : compile settings items = .ok t) (hx : t.knownIds.contains x = false)
    (hblank : x.isBlank = false) (hp : Pending t x m) (h : env.Reaches t m m')
    (hend : m'.control = .ended none) :
    ∃ quiet, m'.session.trace = .jumpDropped x :: quiet ++ m.session.trace := by
  cases reaches_jumpFate (trial_members hc) hp h with
  | waits hw => exact absurd rfl (hw.unfinished none hend)
  | served hreach hw hcontrol ht =>
      have hs := reaches_sound (trial_members hc) hp.sound hreach
      exact absurd ht (stray_not_served hc hx hblank hs hcontrol)
  | dropped hreach hw hn hcontrol hlast =>
      obtain ⟨quiet, hquiet, -⟩ := hw.quiet
      exact ⟨quiet, by rw [hlast, hquiet, List.cons_append]⟩

/-- A run comes to its outcome from one moment to the next. At every moment of it after the finish
that sets a jump, either the jump has been pending ever since, with nothing reported but loop runs,
restarts and items skipped for the jump, or an item with its id was the first to consume it, or the
run has dropped it and ended. So the next trial shown has the target's id if no loop has it, and if
the target is unknown, no trial is shown any more and a run without an error ends by dropping it. -/
theorem jump_exclusive (hc : compile settings items = .ok t) (env : Environment σ ρ)
    (responses : σ) (arranger : ρ) :
    (∃ u logs left, env.Reaches t (opening env t responses arranger)
        ⟨.ended (env.sessions t 0 [] (start responses arranger) env.settings.maxRestarts.toNat).1, u, logs, left⟩ ∧
      (env.sessions t 0 [] (start responses arranger) env.settings.maxRestarts.toNat).2 = .ofSession logs.length logs u) ∧
    (∀ m₀ m₁ m₂ id o x, env.Reaches t (opening env t responses arranger) m₀ →
      env.next t m₀ = some m₁ → m₁.session.trace = .finished id o :: m₀.session.trace →
      o.jump? = some x → env.Reaches t m₁ m₂ → JumpFate env t x m₁ m₂) ∧
    (∀ earlier later id o x,
      (env.sessions t 0 [] (start responses arranger) env.settings.maxRestarts.toNat).2.trace =
        earlier ++ .finished id o :: later → o.jump? = some x →
      ((∀ p l inner, .loop p l inner ∈ flattenIn t.nodes → p.guard.id ≠ x) →
        ∀ quiet e rest, later = quiet ++ e :: rest → (∀ d ∈ quiet, d.isTrial = false) →
          e.isTrial = true → ∃ loop parameters stimulus, e = .trial x loop parameters stimulus) ∧
      (t.knownIds.contains x = false →
        (∀ e ∈ later, e.isTrial = false) ∧
          ((env.sessions t 0 [] (start responses arranger) env.settings.maxRestarts.toNat).1 = none →
            later.getLast? = some (.jumpDropped x)))) := by
  obtain ⟨u, logs, left, hend, hout⟩ := env.opening_reaches_end t responses arranger
  have hopen := opening_sound env t responses arranger
  refine ⟨⟨u, logs, left, hend, hout⟩, ?_, ?_⟩
  · intro m₀ m₁ m₂ id o x h₀ h₁ he ho h₂
    have hs := reaches_sound (trial_members hc) hopen h₀
    obtain ⟨hp, -⟩ := finished_pending hc hs h₁ he ho
    exact reaches_jumpFate (trial_members hc) hp h₂
  · intro earlier later id o x htrace ho
    have hu : u.trace = later.reverse ++ .finished id o :: earlier.reverse := by
      rw [hout] at htrace
      have hreverse : u.trace.reverse = earlier ++ .finished id o :: later := htrace
      rw [List.reverse_eq_iff.mp hreverse]
      simp
    obtain ⟨m, h, hp, hblank, hlast⟩ := reported_jump hc hopen hend rfl hu ho
    have hsplit : ∀ quiet e rest, later = quiet ++ e :: rest →
        u.trace = rest.reverse ++ e :: (quiet.reverse ++ m.session.trace) := by
      intro quiet e rest hlater
      rw [show u.trace = later.reverse ++ m.session.trace from hlast, hlater]
      simp
    constructor
    · intro hloop quiet e rest hlater hq htrial
      obtain ⟨a, b, ha, hab, hold, hnew, -⟩ := reported h (hsplit quiet e rest hlater) (by simp)
      rw [← hold] at hnew
      exact first_trial hc hloop hp ha hab hnew htrial hold (by simpa using hq)
    · intro hx
      constructor
      · intro e he
        obtain ⟨quiet, rest, hlater⟩ := List.append_of_mem he
        exact stray_no_trial hc hx hblank hp h (hsplit quiet e rest hlater) (by simp)
      · intro hfin
        obtain ⟨quiet, hquiet⟩ := stray_dropped hc hx hblank hp h (by rw [hfin])
        have hlater := List.append_cancel_right (hlast.symm.trans hquiet)
        rw [List.getLast?_eq_head?_reverse, hlater]
        rfl

def leaving : Trial := { Trial.plain ⟨"a"⟩ with branches := [⟨"z"⟩] }

def stray : List Item := [.trial leaving, .trial (.plain ⟨"b"⟩)]

def strayTimeline : Timeline := (compile .default stray).toOption.getD ⟨[], .empty, []⟩

theorem jump_exclusive_stray :
    compile .default stray = .ok strayTimeline ∧
      ∃ earlier later,
        (silent.sessions strayTimeline 0 [] (start () ()) silent.settings.maxRestarts.toNat).2.trace =
          earlier ++ .finished ⟨"a"⟩ (.branched ⟨"z"⟩ .jump) :: later ∧
        later.length = 2 ∧ later.getLast? = some (.jumpDropped ⟨"z"⟩) := by
  have hc : compile .default stray = .ok strayTimeline := by cbv
  have htrace : (silent.sessions strayTimeline 0 [] (start () ()) silent.settings.maxRestarts.toNat).2.trace =
      [.trial ⟨"a"⟩ none .empty none] ++ .finished ⟨"a"⟩ (.branched ⟨"z"⟩ .jump) ::
        [.skipped ⟨"b"⟩ .skippedForJump, .jumpDropped ⟨"z"⟩] := by cbv
  obtain ⟨-, -, hlater⟩ := jump_exclusive hc silent () ()
  obtain ⟨-, hdropped⟩ := hlater _ _ _ _ _ htrace rfl
  exact ⟨hc, _, _, htrace, rfl, (hdropped (by cbv)).2 (by cbv)⟩

end Environment

end BranchingTimeline
