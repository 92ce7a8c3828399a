import BranchingTimeline.Proofs.Session.Frame
import BranchingTimeline.Proofs.Session.Jump
import BranchingTimeline.Proofs.Timeline.Loops
import BranchingTimeline.Proofs.Timeline.Search

namespace BranchingTimeline

def FinishOutcome.escalatesTo (x : Scope) : FinishOutcome → Bool
  | escalated y => y = x
  | _ => false

def Event.escalatesTo (x : Scope) : Event → Bool
  | finished _ o => o.escalatesTo x
  | _ => false

theorem Event.eq_of_escalatesTo {x : Scope} {e : Event} (h : e.escalatesTo x = true) :
    ∃ id, e = .finished id (.escalated x) := by
  cases e with
  | finished id o =>
      cases o with
      | escalated y =>
          obtain rfl : y = x := by simpa [escalatesTo, FinishOutcome.escalatesTo] using h
          exact ⟨id, rfl⟩
      | idle | repeated | branched | aborted => cases h
  | skipped | trial | loopRun | restarted | jumpDropped => cases h

theorem repeatTarget_eq_none_iff {repeats : List RepeatCondition} {latest : Lookup} :
    repeatTarget repeats latest = none ↔
      ∀ c ∈ repeats, c.effect.destination.isSome = true → c.holds latest = false := by
  rw [repeatTarget, List.findSome?_eq_none_iff]
  refine forall₂_congr fun c _ => ?_
  cases c.effect.destination <;> simp

namespace Context

variable {c c' : Context} {x : Scope} {latest : Lookup} {o : FinishOutcome}

def marked (x : Scope) (c : Context) : Bool := (c.flags x).shouldBranch

theorem marked_update {f : Flags → Flags} (c : Context) (s : Scope)
    (h : ∀ a, (f a).shouldBranch = a.shouldBranch) : (c.update s f).marked x = c.marked x :=
  flag_update Flags.shouldBranch c s x h

theorem marked_escalate (c : Context) (s : Scope) :
    (c.update s fun f => { f with shouldBranch := true }).marked x =
      ((FinishOutcome.escalated s).escalatesTo x || c.marked x) := by
  rw [marked, flags_update]
  by_cases h : x = s
  · simp [h, FinishOutcome.escalatesTo]
  · simp [h, Ne.symm h, FinishOutcome.escalatesTo, marked]

theorem marked_follow (c : Context) (route : Route) (target : ItemId) (parameters : Option Record) :
    (c.follow route target parameters).marked x = c.marked x := by
  cases route with
  | jump => rw [follow, marked, flags_setJump, marked]
  | scope s => exact marked_update c s fun _ => rfl

theorem FinishesTrial.marked {f : FinishPlan} (h : FinishesTrial f latest c o c') :
    c'.marked x = (o.escalatesTo x || c.marked x) := by
  cases h with
  | repeated => simp [Context.marked, FinishOutcome.escalatesTo]
  | branched => simp [marked_follow, FinishOutcome.escalatesTo]
  | noBranch | idle => simp [FinishOutcome.escalatesTo]
  | escalated => exact marked_escalate c _

theorem FinishesLoop.marked {l : LoopPlan} (h : FinishesLoop l latest c o c') (hx : x ≠ l.scope) :
    c'.marked x = (o.escalatesTo x || c.marked x) := by
  have hother : ∀ (d : Context) f, (d.update l.scope f).marked x = d.marked x := by
    intro d f
    rw [Context.marked, flags_update_ne f hx, Context.marked]
  cases h with
  | repeated | aborted => simp [Context.marked, FinishOutcome.escalatesTo]
  | branched => simp [marked_follow, hother, FinishOutcome.escalatesTo]
  | noBranch | unmarked => simp [hother, FinishOutcome.escalatesTo]
  | jump | idle => simp [FinishOutcome.escalatesTo]
  | escalated => exact marked_escalate c _

theorem FinishesTrial.escalation {f : FinishPlan} (h : FinishesTrial f latest c (.escalated x) c') :
    f.branch = none ∧ f.escalateTo = some x := by
  cases h with
  | escalated hr hb he => exact ⟨hb, he⟩

theorem FinishesLoop.escalation {l : LoopPlan} (h : FinishesLoop l latest c (.escalated x) c') :
    l.finish.branch = none ∧ l.finish.escalateTo = some x := by
  cases h with
  | escalated hp hb he => exact ⟨hb, he⟩

theorem FinishesLoop.branched_iff {l : LoopPlan} {b : BranchPlan} (h : FinishesLoop l latest c o c')
    (hb : l.finish.branch = some b) (hne : b.branches ≠ []) :
    (∃ target route, o = .branched target route) ↔ c.pendingJump = none ∧
      repeatTarget l.finish.repeats latest = none ∧ c.marked l.scope = true := by
  cases h with
  | jump hp => simp [hp]
  | repeated hp hr => simp [hr]
  | branched hp _ hm _ hr => simp [hp, hr, Context.marked, hm]
  | noBranch hp hb' hm hs hr =>
      obtain rfl := Option.some.inj (hb.symm.trans hb')
      obtain ⟨choice, hchoice⟩ := BranchPlan.exists_select hne latest
      rw [hs] at hchoice
      cases hchoice
  | unmarked hp _ hm hr => simp [Context.marked, hm]
  | escalated hp hb' | aborted hp hb' | idle hp hb' =>
      rw [hb] at hb'
      cases hb'

theorem FinishesLoop.branched_unmarks {l : LoopPlan} {target : ItemId} {route : Route}
    (h : FinishesLoop l latest c (.branched target route) c') : c'.marked l.scope = false := by
  cases h with
  | branched =>
      rw [marked_follow, Context.marked, flags_update, if_pos rfl]

end Context

namespace Environment

open Step Compile Node

variable {σ ρ : Type} {env : Environment σ ρ} {x : Scope} {children : List Node} {n : Node}
  {place : Place} {l : LoopPlan} {inner : List Node} {s t u : Session σ ρ}

/-- From one session to another, the loop with a scope came to be marked exactly by escalations that
were reported in between, and each of these was that of one of some nodes. -/
def MarkedSince (x : Scope) (children : List Node) (s t : Session σ ρ) : Prop :=
  ∃ new, t.trace = new ++ s.trace ∧
    t.context.marked x = (new.any (Event.escalatesTo x) || s.context.marked x) ∧
    ∀ id, .finished id (.escalated x) ∈ new → ∃ n ∈ children, n.id = id

theorem MarkedSince.of_quiet (ht : t.trace = s.trace) (hm : t.context.marked x = s.context.marked x) :
    MarkedSince x children s t :=
  ⟨[], ht, by simpa using hm, fun _ h => nomatch h⟩

theorem MarkedSince.of_event {e : Event} (ht : t.trace = e :: s.trace)
    (hm : t.context.marked x = s.context.marked x) (he : e.escalatesTo x = false) :
    MarkedSince x children s t := by
  refine ⟨[e], ht, by simpa [he] using hm, ?_⟩
  intro id h
  obtain rfl := List.mem_singleton.mp h
  simp [Event.escalatesTo, FinishOutcome.escalatesTo] at he

theorem MarkedSince.refl (s : Session σ ρ) : MarkedSince x children s s := .of_quiet rfl rfl

theorem MarkedSince.trans (hst : MarkedSince x children s t) (htu : MarkedSince x children t u) :
    MarkedSince x children s u := by
  obtain ⟨old, hold, hmark, hid⟩ := hst
  obtain ⟨new, hnew, hmark', hid'⟩ := htu
  refine ⟨new ++ old, by rw [hnew, hold, List.append_assoc], ?_, ?_⟩
  · rw [hmark', hmark, List.any_append, Bool.or_assoc]
  · intro id h
    rcases List.mem_append.mp h with h | h
    · exact hid' id h
    · exact hid id h

theorem marked_guarded {body : Step σ ρ} (hb : Leads (MarkedSince x children) body) :
    Leads (MarkedSince x children) (guarded place body) := by
  intro s
  have hbegun : (begun place s.context).marked x = s.context.marked x := by
    rw [begun]
    split
    · exact Context.marked_update s.context _ fun _ => rfl
    · rfl
  have hconsult : (consult place s).2.context.marked x = s.context.marked x :=
    ((Context.decides _ place.guard).flag_eq Flags.shouldBranch fun _ => rfl).trans hbegun
  cases h : (consult place s).1.runs with
  | false =>
      rw [guarded_skip h]
      exact .of_event (e := .skipped place.guard.id (consult place s).1) rfl hconsult rfl
  | true =>
      have hl : Leads (MarkedSince x children) (σ := σ) (ρ := ρ) fun s => (.next, leave place s) := by
        intro s
        simp only [leave]
        split
        · exact .of_quiet rfl (Context.marked_update s.context _ fun _ => rfl)
        · exact .refl s
      rw [guarded_run h]
      exact MarkedSince.trans (.of_quiet (t := (consult place s).2) rfl hconsult)
        (hb.andThen (R := MarkedSince x children) .trans hl _)

theorem hook_escalated (h : (hook n s).1 = .escalated x) :
    n.finish.branch = none ∧ n.finish.escalateTo = some x := by
  cases n with
  | trial p plan => exact (Context.finishesTrial_of h).escalation
  | loop p l inner => exact (Context.finishesLoop_of h).escalation

theorem hook_marked (hx : n.inner? ≠ some x) (s : Session σ ρ) :
    (hook n s).2.marked x = ((hook n s).1.escalatesTo x || s.context.marked x) := by
  cases n with
  | trial p plan => exact (Context.finishesTrial _ _ _).marked
  | loop p l inner => exact (Context.finishesLoop _ _ _).marked fun h => hx (congrArg some h.symm)

/-- What a node must be for its finish to mark the loop with a scope only as one of some nodes. -/
def Marking (x : Scope) (children : List Node) (n : Node) : Prop :=
  n.inner? ≠ some x ∧ (n.finish.escalateTo = some x → ∃ k ∈ children, k.id = reportedId n)

theorem marked_conclude (h : Marking x children n) :
    Leads (MarkedSince x children) (conclude n : Step σ ρ) := by
  intro s
  obtain ⟨hx, hid⟩ := h
  have hmark := hook_marked hx s
  have htrace := conclude_trace n s
  by_cases ho : (hook n s).1 = .idle
  · rw [if_pos ho] at htrace
    refine .of_quiet htrace ?_
    rw [conclude, reportFinish_context, hmark, ho]
    rfl
  · rw [if_neg ho] at htrace
    refine ⟨[.finished (reportedId n) (hook n s).1], htrace, ?_, ?_⟩
    · rw [conclude, reportFinish_context, hmark, List.any_cons, List.any_nil, Bool.or_false]
      rfl
    · intro id h
      obtain ⟨rfl, hout⟩ := Event.finished.inj (List.mem_singleton.mp h)
      exact hid (hook_escalated hout.symm).2

theorem marked_reruns {p : Place} {pass : Option Record → Step σ ρ} (h : Marking x children (.loop p l inner))
    (hp : ∀ row, Leads (MarkedSince x children) (pass row)) :
    Leads (MarkedSince x children) (env.reruns l inner pass) := by
  refine Leads.rerun (R := MarkedSince x children) .refl .trans ?_ ?_ _ _
  · intro run s
    have hx : x ≠ l.scope := fun he => h.1 (congrArg some he.symm)
    obtain ⟨a, ha⟩ := env.openRun_eq l run s
    rw [loopBody_eq, ha]
    refine MarkedSince.trans (.of_event (e := .loopRun l.id run) rfl ?_ rfl)
      (Leads.forEach (R := MarkedSince x children) .refl .trans hp _ _)
    exact congrArg Flags.shouldBranch (Context.flags_update_ne _ hx)
  · intro s
    exact .of_quiet rfl (congrArg Flags.shouldBranch (askAgain_flags l inner s x))

variable (env) in
theorem marked_runNodes (stimulus : Option Record) (nodes : List Node)
    (h : ∀ n ∈ flattenIn nodes, Marking x children n) :
    Leads (MarkedSince x children) (env.runNodes stimulus nodes) := by
  refine env.runNodes_induction (P := Leads (MarkedSince x children)) .refl (Leads.andThen .trans)
    marked_guarded (fun n => marked_conclude) ?_ marked_reruns stimulus nodes h
  intro row p plan s
  exact .of_event (e := .trial plan.id plan.loop (parametersFor plan p.guard.scope s) row) rfl rfl rfl

variable {settings : Settings} {tree : List Item} {t : Timeline} {p : Place}

theorem reportedId_eq {around : Surroundings} {index : Nat} {later : List ItemId} {item : Item}
    (h : NodeOf around index later item n) : reportedId n = n.id := by
  cases h <;> rfl

/-- Only the direct children of a loop can mark it. -/
theorem marking_of_mem (hc : compile settings tree = .ok t) (hl : .loop p l inner ∈ flattenIn t.nodes)
    (hn : n ∈ flattenIn inner) : Marking l.scope inner n := by
  have hinner : ∀ m ∈ flattenIn inner, m.inner? ≠ some l.scope := by
    intro m hm he
    rw [flattenIn_eq_flatMap, List.mem_flatMap] at hm
    obtain ⟨k, hk, hm⟩ := hm
    have hout := scope_not_mem_of_isSequence hc (.inr ⟨p, l, hl, rfl⟩) hk
    exact hout (List.mem_filterMap.mpr ⟨m, by simpa [flattenIn_cons] using hm, he⟩)
  obtain ⟨_, _, _, _, hnode, -⟩ := nodeOf_of_compile hc (flattenIn_subset hl hn)
  refine ⟨hinner n hn, fun he => ⟨n, ?_, (reportedId_eq hnode).symm⟩⟩
  have hscope : l.scope = n.guard.scope := by rw [hnode.guard_scope, hnode.finish_local.escalates _ he]
  rcases mem_flattenIn_iff.mp hn with hin | ⟨p', l', inner', hl', hin⟩
  · exact hin
  · obtain ⟨_, _, _, _, _, -, -, -, hi⟩ := (compiled_of_compile hc).loop_source (flattenIn_subset hl hl')
    have hscope' : n.guard.scope = l'.scope := (hi.guards hin).1
    exact absurd (congrArg some (hscope'.symm.trans hscope.symm)) (hinner _ hl')

/-- What happens from the start of a loop's last run on: it is marked in the end exactly if a direct
child has escalated meanwhile. -/
theorem last_run (hc : compile settings tree = .ok t) (hl : .loop p l inner ∈ flattenIn t.nodes)
    {run : Nat} {v w : Session σ ρ}
    (hb : env.loopBody l (fun row => env.runNodes row inner) run v = (.next, w))
    (hg : askAgain l inner w = (false, u)) :
    ∃ new, u.trace = new ++ .loopRun l.id run :: v.trace ∧
      (u.context.marked l.scope = true ↔ ∃ k ∈ inner, .finished k.id (.escalated l.scope) ∈ new) := by
  obtain ⟨a, ha⟩ := env.openRun_eq l run v
  have hpasses : Leads (MarkedSince l.scope inner) (forEach (fun row => env.runNodes row inner)
      (env.openRun l run v).1) :=
    Leads.forEach (R := MarkedSince l.scope inner) .refl .trans
      (fun row => marked_runNodes env row inner fun n hn => marking_of_mem hc hl hn) _
  obtain ⟨new, hnew, hmark, hid⟩ := hpasses (env.openRun l run v).2
  have hopen : (env.openRun l run v).2.context.marked l.scope = false := by
    rw [ha, Context.marked, Context.enterLoop, Context.flags_update, if_pos rfl]
    rfl
  rw [loopBody_eq] at hb
  rw [hb, ha] at hnew
  rw [hb, hopen, Bool.or_false] at hmark
  have hu : u.trace = w.trace ∧ u.context.marked l.scope = w.context.marked l.scope := by
    obtain rfl : (askAgain l inner w).2 = u := congrArg Prod.snd hg
    exact ⟨rfl, congrArg Flags.shouldBranch (askAgain_flags l inner w l.scope)⟩
  refine ⟨new, hu.1.trans hnew, ?_⟩
  rw [hu.2, hmark, List.any_eq_true]
  constructor
  · rintro ⟨e, he, hto⟩
    obtain ⟨id, rfl⟩ := Event.eq_of_escalatesTo hto
    obtain ⟨k, hk, rfl⟩ := hid id he
    exact ⟨k, hk, he⟩
  · rintro ⟨k, -, hk⟩
    exact ⟨_, hk, by simp [Event.escalatesTo, FinishOutcome.escalatesTo]⟩

/-- The repeat conditions that a loop evaluates are those that the loop around it arms on its position;
at the top level there are none. -/
theorem armed_on_loop (hc : compile settings tree = .ok t) (hl : .loop p l inner ∈ flattenIn t.nodes) :
    (.loop p l inner ∈ t.nodes ∧ l.finish.repeats = []) ∨
      ∃ q o outer parent sub i, .loop q o outer ∈ flattenIn t.nodes ∧
        .loop parent sub ∈ Item.flattenIn tree ∧
        Compiled (.inside parent o.scope (armedBy parent sub)) 0 sub outer ∧
        outer[i]? = some (.loop p l inner) ∧
        l.finish.repeats = parent.repeatConditions.filter fun c => armingPosition sub c.rules = i := by
  have hcompiled := compiled_of_compile hc
  rcases mem_flattenIn_iff.mp hl with htop | ⟨q, o, outer, ho, hin⟩
  · obtain ⟨_, _, _, -, -, hnode⟩ := hcompiled.get_of_mem htop
    exact .inl ⟨htop, hnode.loop_repeats⟩
  · obtain ⟨parent, sub, _, _, _, hparent, -, -, hi⟩ := hcompiled.loop_source ho
    obtain ⟨i, item, later, hitem, hnode, hof⟩ := hi.get_of_mem hin
    have hsub : sub ≠ [] := by
      rintro rfl
      cases hitem
    have hrepeats := hof.loop_repeats
    rw [armedAt_inside hsub, Nat.zero_add] at hrepeats
    exact .inr ⟨q, o, outer, parent, sub, i, ho, hparent, hi, hnode, hrepeats⟩

theorem escalation_loop (hc : compile settings tree = .ok t) (hn : n ∈ flattenIn t.nodes)
    (he : n.finish.escalateTo = some x) :
    n.guard.scope = x ∧ ∃ p l inner, .loop p l inner ∈ flattenIn t.nodes ∧ n ∈ inner ∧ l.scope = x ∧
      l.finish.branch.isSome = true := by
  have hcompiled := compiled_of_compile hc
  rcases mem_flattenIn_iff.mp hn with htop | ⟨p, l, inner, hl, hin⟩
  · obtain ⟨_, _, _, -, -, hnode⟩ := hcompiled.get_of_mem htop
    rw [hnode.escalateTo_eq] at he
    simp [Surroundings.root] at he
  · obtain ⟨loop, sub, _, _, _, -, hloop, -, hi⟩ := hcompiled.loop_source hl
    obtain ⟨_, _, _, -, -, hnode⟩ := hi.get_of_mem hin
    rw [hnode.escalateTo_eq] at he
    split at he
    · rename_i hcond
      rw [Bool.and_eq_true] at hcond
      obtain rfl := Option.some.inj he
      refine ⟨hnode.guard_scope, p, l, inner, hl, hin, rfl, ?_⟩
      have hbranch : l.finish.branch = plannedBranch _ _ _ := hloop.branch_eq
      rw [hbranch, plannedBranch_isSome]
      exact hcond.2
    · cases he

variable {responses : σ} {arranger : ρ} {m : Moment σ ρ}

theorem escalation_reported (hc : compile settings tree = .ok t)
    (hm : env.Reaches t (env.opening t responses arranger) m) {newer older : List Event} {id : ItemId}
    (he : m.session.trace = newer ++ .finished id (.escalated x) :: older) :
    ∃ n a rest, env.Reaches t (env.opening t responses arranger) a ∧
      a.control = .running (.finish n :: rest) ∧ a.session.trace = older ∧ n.id = id ∧
      n.finish.branch = none ∧ n.guard.scope = x ∧
      ∃ p l inner, .loop p l inner ∈ flattenIn t.nodes ∧ n ∈ inner ∧ l.scope = x ∧
        l.finish.branch.isSome = true := by
  obtain ⟨a, b, ha, hab, hold, hnew, -⟩ := reported hm he (Nat.zero_le _)
  rw [← hold] at hnew
  rcases next_event hab hnew with ⟨y, hy | hy⟩ | ⟨task, rest, hcontrol, hevent, -⟩
  · cases hy
  · cases hy
  · obtain ⟨n, rfl, hid, hout⟩ := eventOf_finished hevent
    have hw := reaches_within (opening_sound env t responses arranger).within ha
    have hn : n ∈ flattenIn t.nodes := hw (.finish n) (by simp [Moment.tasks, hcontrol])
    obtain ⟨hbranch, hto⟩ := hook_escalated hout
    obtain ⟨hscope, hloop⟩ := escalation_loop hc hn hto
    obtain ⟨_, _, _, _, hnode, -⟩ := nodeOf_of_compile hc hn
    exact ⟨n, a, rest, ha, hcontrol, hold, (reportedId_eq hnode).symm.trans hid, hbranch, hscope, hloop⟩

/-- When a loop with a branch plan has had its last run, it takes a branch exactly if no jump is
pending, none of the repeat conditions armed on it by the loop around it has a target and holds, and
a direct child of it has escalated to it in that run; its mark is cleared then. Whatever run there
is, an escalation in it comes from the finish of a node without a branch plan, and marks the one loop
whose body the node stands in, which has a branch plan. -/
theorem loop_branches (hc : compile settings tree = .ok t) (env : Environment σ ρ) (responses : σ)
    (arranger : ρ) :
    (∀ p l inner b s u, .loop p l inner ∈ flattenIn t.nodes → l.finish.branch = some b →
      env.reruns l inner (fun row => env.runNodes row inner) s = (.next, u) →
      ((.loop p l inner ∈ t.nodes ∧ l.finish.repeats = []) ∨
        ∃ q o outer parent sub i, .loop q o outer ∈ flattenIn t.nodes ∧
          .loop parent sub ∈ Item.flattenIn tree ∧
          Compiled (.inside parent o.scope (armedBy parent sub)) 0 sub outer ∧
          outer[i]? = some (.loop p l inner) ∧
          l.finish.repeats = parent.repeatConditions.filter fun c => armingPosition sub c.rules = i) ∧
      ∃ run v w new,
        Rounds (env.loopBody l fun row => env.runNodes row inner) (askAgain l inner) 1 s run v ∧
        env.loopBody l (fun row => env.runNodes row inner) run v = (.next, w) ∧
        askAgain l inner w = (false, u) ∧
        u.trace = new ++ .loopRun l.id run :: v.trace ∧
        env.runLoop l inner (fun row => env.runNodes row inner) s =
          reportFinish l.id (u.context.finishLoop l u.log.latest) u ∧
        ((∃ target route, (u.context.finishLoop l u.log.latest).1 = .branched target route) ↔
          u.context.pendingJump = none ∧
          (∀ c ∈ l.finish.repeats, c.effect.destination.isSome = true → c.holds u.log.latest = false) ∧
          ∃ k ∈ inner, .finished k.id (.escalated l.scope) ∈ new) ∧
        ∀ target route, (u.context.finishLoop l u.log.latest).1 = .branched target route →
          ((u.context.finishLoop l u.log.latest).2.flags l.scope).shouldBranch = false) ∧
    ∀ earlier later id x,
      (env.sessions t 0 [] (start responses arranger) env.settings.maxRestarts.toNat).2.trace =
        earlier ++ .finished id (.escalated x) :: later →
      x ≠ .root ∧ ∃ n a rest, env.Reaches t (env.opening t responses arranger) a ∧
        a.control = .running (.finish n :: rest) ∧ a.session.trace.reverse = earlier ∧ n.id = id ∧
        n.finish.branch = none ∧ n.guard.scope = x ∧
        ∃ p l inner, .loop p l inner ∈ flattenIn t.nodes ∧ n ∈ inner ∧ l.scope = x ∧
          l.finish.branch.isSome = true ∧
          ∀ q o outer, .loop q o outer ∈ flattenIn t.nodes → o.scope = x → o = l ∧ outer = inner := by
  constructor
  · intro p l inner b s u hl hb hruns
    obtain ⟨run, v, w, hrounds, hbody, hgo⟩ := rerun_eq_next hruns
    obtain ⟨new, hnew, hmark⟩ := last_run hc hl hbody hgo
    obtain ⟨_, _, _, _, hnode, -⟩ := nodeOf_of_compile hc hl
    have hf := Context.finishesLoop u.context l u.log.latest
    refine ⟨armed_on_loop hc hl, run, v, w, new, hrounds, hbody, hgo, hnew, andThen_next hruns, ?_, ?_⟩
    · rw [hf.branched_iff hb (hnode.branches_ne_nil hb), repeatTarget_eq_none_iff, hmark]
    · intro target route ho
      exact (Context.finishesLoop_of ho).branched_unmarks
  · intro earlier later id x he
    obtain ⟨u, logs, left, hreach, hout⟩ := env.opening_reaches_end t responses arranger
    rw [hout] at he
    have he : u.trace = later.reverse ++ .finished id (.escalated x) :: earlier.reverse := by
      have htrace : u.trace.reverse = earlier ++ .finished id (.escalated x) :: later := he
      rw [← List.reverse_inj, htrace]
      simp
    obtain ⟨n, a, rest, ha, hcontrol, hold, hid, hbranch, hscope, p, l, inner, hl, hin, hlx, hplan⟩ :=
      escalation_reported hc hreach he
    have hmem : ∀ {q o outer}, .loop q o outer ∈ flattenIn t.nodes → o.scope ∈ scopesIn t.nodes :=
      fun h => List.mem_filterMap.mpr ⟨_, h, rfl⟩
    refine ⟨?_, n, a, rest, ha, hcontrol, ?_, hid, hbranch, hscope, p, l, inner, hl, hin, hlx, hplan, ?_⟩
    · rintro rfl
      exact root_not_mem_scopesIn (compiled_of_compile hc) (hlx ▸ hmem hl)
    · rw [hold, List.reverse_reverse]
    · intro q o outer ho hox
      have hsame := eq_of_nodup_filterMap (scopesIn_nodup hc) ho hl (congrArg some hox) (congrArg some hlx)
      cases hsame
      exact ⟨rfl, rfl⟩

def gate : Loop := { Loop.plain ⟨"l"⟩ with branches := [⟨"c"⟩] }

def gateItems : List Item := [.trial (.plain ⟨"a"⟩)]

def gated : List Item := [.loop gate gateItems, .trial (.plain ⟨"b"⟩), .trial (.plain ⟨"c"⟩)]

def gatedTimeline : Timeline := (compile .default gated).toOption.getD ⟨[], .empty, []⟩

def gatePlace : Place := placeOf .root 0 [⟨"b"⟩, ⟨"c"⟩] (.loop gate gateItems)

def gateNodes : List Node := [trialNode (.inside gate (.loop "l") []) 0 [] (.plain ⟨"a"⟩)]

def gatePlan : LoopPlan :=
  loopPlan .root gate (.loop "l") (plannedFinish .root 0 [⟨"b"⟩, ⟨"c"⟩] (.loop gate gateItems)) [] gateNodes

def gateReached : Session Unit Unit :=
  (silent.reruns gatePlan gateNodes (fun row => silent.runNodes row gateNodes) (start () ())).2

theorem loop_branches_gated :
    compile .default gated = .ok gatedTimeline ∧
      .loop gatePlace gatePlan gateNodes ∈ flattenIn gatedTimeline.nodes ∧
      silent.reruns gatePlan gateNodes (fun row => silent.runNodes row gateNodes) (start () ()) =
        (.next, gateReached) ∧
      gateReached.context.pendingJump = none ∧
      (∃ k ∈ gateNodes, .finished k.id (.escalated gatePlan.scope) ∈ gateReached.trace) ∧
      ∃ n p l inner, n.id = ⟨"a"⟩ ∧ .loop p l inner ∈ flattenIn gatedTimeline.nodes ∧ n ∈ inner ∧
        l.scope = .loop "l" ∧ l.finish.branch.isSome = true := by
  have hc : compile .default gated = .ok gatedTimeline := by cbv
  have hnodes : gatedTimeline.nodes.head? = some (.loop gatePlace gatePlan gateNodes) := by cbv
  have hl := mem_flattenIn (List.mem_of_mem_head? hnodes)
  have hruns : silent.reruns gatePlan gateNodes (fun row => silent.runNodes row gateNodes) (start () ()) =
      (.next, gateReached) := rfl
  obtain ⟨hloop, hevent⟩ := loop_branches hc silent () ()
  obtain ⟨-, run, v, w, new, -, -, -, htrace, -, hbranch, -⟩ := hloop _ _ _ _ _ _ hl rfl hruns
  obtain ⟨hp, -, k, hk, hin⟩ := hbranch.mp ⟨⟨"c"⟩, .scope .root, rfl⟩
  have hrun : (silent.sessions gatedTimeline 0 [] (start () ()) silent.settings.maxRestarts.toNat).2.trace =
      [.loopRun ⟨"l"⟩ 1, .trial ⟨"a"⟩ (some ⟨"l"⟩) .empty none] ++
        .finished ⟨"a"⟩ (.escalated (.loop "l")) ::
          [.finished ⟨"l"⟩ (.branched ⟨"c"⟩ (.scope .root)), .skipped ⟨"b"⟩ .skippedForBranch,
            .trial ⟨"c"⟩ none .empty none] := by
    rfl
  obtain ⟨-, n, a, rest, -, -, -, hid, -, -, p, l, inner, hl', hn, hx, hplan, -⟩ := hevent _ _ _ _ hrun
  have hmarks : ∃ k ∈ gateNodes, .finished k.id (.escalated gatePlan.scope) ∈ gateReached.trace :=
    ⟨k, hk, htrace ▸ List.mem_append_left _ hin⟩
  exact ⟨hc, hl, hruns, hp, hmarks, n, p, l, inner, hid, hl', hn, hx, hplan⟩

end Environment

end BranchingTimeline
