import BranchingTimeline.Proofs.Session.Hooks
import BranchingTimeline.Proofs.Session.Machine
import BranchingTimeline.Timeline.Compile

namespace BranchingTimeline

def Event.isRestarted : Event → Bool
  | restarted _ => true
  | _ => false

def Event.WithinSession : Event → Prop
  | restarted _ | jumpDropped _ => False
  | skipped .. | trial .. | loopRun .. | finished .. => True

theorem Event.WithinSession.not_restarted {e : Event} (h : e.WithinSession) :
    e.isRestarted = false := by
  cases e with
  | restarted | jumpDropped => cases h
  | skipped | trial | loopRun | finished => rfl

namespace Context

variable {c c' : Context} {latest : Lookup}

theorem pendingJump_eq_none : c.pendingJump = none ↔ c.jumpStore = none ∧ c.jumpMemory = none := by
  simp [pendingJump]

theorem FinishesTrial.not_aborted {f : FinishPlan} : ¬FinishesTrial f latest c .aborted c' := nofun

theorem FinishesLoop.abort_free {l : LoopPlan} (h : FinishesLoop l latest c .aborted c') :
    c'.pendingJump = none := by
  cases h with
  | aborted hp hb he ht ha => exact hp

end Context

namespace Environment

open Step

variable {σ ρ : Type} {env : Environment σ ρ} {t : Timeline} {s u : Session σ ρ} {n : Node}
  {stimulus : Option Record} {nodes : List Node} {l : LoopPlan} {place : Place} {x : ItemId}

section Reports

theorem reports_guarded {body : Step σ ρ} (hb : Reports Event.WithinSession body) :
    Reports Event.WithinSession (guarded place body) := by
  intro s
  cases h : (consult place s).1.runs with
  | false =>
      rw [guarded_skip h]
      exact ⟨[.skipped place.guard.id (consult place s).1], rfl, by simp [Event.WithinSession]⟩
  | true =>
      have hl : Reports Event.WithinSession (σ := σ) (ρ := ρ) fun s => (.next, leave place s) := by
        apply Reports.of_trace
        intro s
        simp only [leave]
        split <;> rfl
      rw [guarded_run h]
      exact (hb.andThen hl).after [] rfl (List.forall_mem_nil _)

theorem reports_conclude (n : Node) : Reports Event.WithinSession (conclude n : Step σ ρ) := by
  intro s
  rw [conclude_trace]
  split
  · exact ⟨[], rfl, List.forall_mem_nil _⟩
  · exact ⟨[.finished (reportedId n) (hook n s).1], rfl, by simp [Event.WithinSession]⟩

theorem reports_reruns {items : List Node} {pass : Option Record → Step σ ρ}
    (hp : ∀ row, Reports Event.WithinSession (pass row)) :
    Reports Event.WithinSession (env.reruns l items pass) := by
  refine Reports.rerun ?_ ?_ _ _
  · intro run s
    obtain ⟨a, ha⟩ := env.openRun_eq l run s
    rw [loopBody_eq]
    refine (Reports.forEach hp _).after [.loopRun l.id run] ?_ ?_
    · rw [ha]
      rfl
    · simp [Event.WithinSession]
  · exact fun s => rfl

variable (env) in
theorem reports_runNodes (stimulus : Option Record) (nodes : List Node) :
    Reports Event.WithinSession (env.runNodes stimulus nodes) := by
  refine env.runNodes_induction (C := fun _ => True) (.of_trace fun _ => rfl) .andThen reports_guarded
    (fun n _ => reports_conclude n) ?_ (fun _ => reports_reruns) stimulus nodes fun _ _ => trivial
  intro row p plan
  exact .of_event (fun s => .trial plan.id plan.loop (parametersFor plan p.guard.scope s) row)
    (fun _ => trivial) fun _ => rfl

end Reports

section Halts

inductive Halts (env : Environment σ ρ) : Flow → Session σ ρ → Prop
  | abort {s : Session σ ρ} (hp : s.context.pendingJump = none) : Halts env .abort s
  | limit {s : Session σ ρ} (id : ItemId) : Halts env (.failed (overLimit env.settings.maxLoopRuns
      (.loopLimit id env.settings.maxLoopRuns))) s

theorem halts_conclude (n : Node) : Stops env.Halts (conclude n) := by
  intro s hstop
  simp only [conclude, reportFinish] at hstop ⊢
  split at hstop
  · exact absurd rfl hstop
  · rename_i ho
    refine .abort ?_
    cases n with
    | trial p plan =>
        exact absurd (Context.finishesTrial_of ho) Context.FinishesTrial.not_aborted
    | loop p l items =>
        exact (Context.finishesLoop_of ho).abort_free
  · exact absurd rfl hstop

variable (env) in
theorem halts_runNodes (stimulus : Option Record) (nodes : List Node) :
    Stops env.Halts (env.runNodes stimulus nodes) :=
  env.stops_runNodes (C := fun _ => True) (fun n _ => halts_conclude n) (fun _ l _ _ _ => .limit l.id) stimulus
    nodes fun _ _ => trivial

end Halts

structure EndsJumping (env : Environment σ ρ) (t : Timeline) (s : Session σ ρ) (x : ItemId)
    (u : Session σ ρ) : Prop where
  ends : env.runNodes none t.nodes s = (.next, u)
  pending : u.context.pendingJump = some x
  known : t.knownIds.contains x = true

/-- The sessions of a run that starts with `s₀`, each with the logs of those before it, the latest
first. There are as many of these as restarts. -/
inductive Begins (env : Environment σ ρ) (t : Timeline) (s₀ : Session σ ρ) :
    List DataLog → Session σ ρ → Prop
  | first : Begins env t s₀ [] s₀
  | restarted {logs : List DataLog} {s u : Session σ ρ} {x : ItemId} (h : Begins env t s₀ logs s)
      (hu : env.EndsJumping t s x u) : Begins env t s₀ (u.log :: logs) (restart x u)

/-- All ways in which a run can come to its end: in its last session, which begins after so many
restarts as there are logs. -/
inductive Concludes (env : Environment σ ρ) (t : Timeline) (limit : Nat) (logs : List DataLog)
    (s : Session σ ρ) : Option Error → Outcome → Prop
  | failed {e : Error} {u : Session σ ρ} (hu : env.runNodes none t.nodes s = (.failed e, u)) :
      Concludes env t limit logs s (some e) (.ofSession logs.length logs u)
  | aborted {u : Session σ ρ} (hu : env.runNodes none t.nodes s = (.abort, u)) :
      Concludes env t limit logs s none (.ofSession logs.length logs u)
  | finished {u : Session σ ρ} (hu : env.runNodes none t.nodes s = (.next, u))
      (hp : u.context.pendingJump = none) :
      Concludes env t limit logs s none (.ofSession logs.length logs u)
  | exhausted {x : ItemId} {u : Session σ ρ} (hu : env.EndsJumping t s x u)
      (hl : logs.length = limit) :
      Concludes env t limit logs s
        (some (overLimit env.settings.maxRestarts (.restartLimit x env.settings.maxRestarts)))
        (.ofSession logs.length logs u)
  | dropped {x : ItemId} {u : Session σ ρ} (hu : env.runNodes none t.nodes s = (.next, u))
      (hp : u.context.pendingJump = some x) (hx : t.knownIds.contains x = false) :
      Concludes env t limit logs s none
        (.ofSession logs.length logs ((u.withContext u.context.clearJump).report (.jumpDropped x)))

variable {s₀ : Session σ ρ} {logs : List DataLog}

theorem sessions_concludes (h : env.Begins t s₀ logs s) {left limit : Nat}
    (hl : logs.length + left = limit) :
    ∃ logs' s', env.Begins t s₀ logs' s' ∧ logs'.length ≤ limit ∧
      env.Concludes t limit logs' s' (env.sessions t logs.length logs s left).1
        (env.sessions t logs.length logs s left).2 := by
  generalize hn : logs.length = restarts
  fun_induction sessions env t restarts logs s left with
  | case1 left restarts logs s e u hu => exact ⟨logs, s, h, by omega, hn ▸ .failed hu⟩
  | case2 left restarts logs s u hu => exact ⟨logs, s, h, by omega, hn ▸ .aborted hu⟩
  | case3 left restarts logs s u hu hp => exact ⟨logs, s, h, by omega, hn ▸ .finished hu hp⟩
  | case4 restarts logs s u hu x hp hk => exact ⟨logs, s, h, by omega, hn ▸ .exhausted ⟨hu, hp, hk⟩ hl⟩
  | case5 restarts logs s u hu x hp hk left ih =>
      exact ih (.restarted h ⟨hu, hp, hk⟩) (by rw [List.length_cons]; omega)
        (by rw [List.length_cons, hn])
  | case6 left restarts logs s u hu x hp hk =>
      exact ⟨logs, s, h, by omega, hn ▸ .dropped hu hp (eq_false_of_ne_true hk)⟩

theorem EndsJumping.sessions_succ (hu : env.EndsJumping t s x u) (left : Nat) :
    env.sessions t logs.length logs s (left + 1) =
      env.sessions t (u.log :: logs).length (u.log :: logs) (restart x u) left := by
  rw [sessions]
  simp only [hu.ends, hu.pending, hu.known, if_true, List.length_cons]

theorem EndsJumping.sessions_zero (hu : env.EndsJumping t s x u) :
    env.sessions t logs.length logs s 0 =
      (some (overLimit env.settings.maxRestarts (.restartLimit x env.settings.maxRestarts)),
        .ofSession logs.length logs u) := by
  rw [sessions]
  simp only [hu.ends, hu.pending, hu.known, if_true]

/-- A run goes through all sessions that begin within its limit. -/
theorem Begins.sessions_eq (h : env.Begins t s₀ logs s) (left : Nat) :
    env.sessions t 0 [] s₀ (logs.length + left) = env.sessions t logs.length logs s left := by
  induction h generalizing left with
  | first => rw [List.length_nil, Nat.zero_add]
  | @restarted logs s u x h hu ih =>
      rw [← hu.sessions_succ, ← ih (left + 1), List.length_cons]
      congr 1
      omega

theorem countP_restarted {a : Step σ ρ} (ha : Reports Event.WithinSession a) (s : Session σ ρ) :
    (a s).2.trace.countP Event.isRestarted = s.trace.countP Event.isRestarted := by
  obtain ⟨new, hnew, hk⟩ := ha s
  have hzero : new.countP Event.isRestarted = 0 := by
    rw [List.countP_eq_zero]
    intro e he
    rw [(hk e he).not_restarted]
    exact Bool.false_ne_true
  rw [hnew, List.countP_append, hzero, Nat.zero_add]

theorem Begins.countP_restarted (h : env.Begins t s₀ logs s) (h₀ : s₀.trace = []) :
    s.trace.countP Event.isRestarted = logs.length := by
  induction h with
  | first => rw [h₀]; rfl
  | @restarted logs s u x h hu ih =>
      have hrun := Environment.countP_restarted (reports_runNodes env none t.nodes) s
      rw [hu.ends] at hrun
      change (Event.restarted x :: u.trace).countP Event.isRestarted = logs.length + 1
      rw [List.countP_cons_of_pos rfl, hrun, ih]

theorem Concludes.countP_restarted {limit : Nat} {e : Option Error} {o : Outcome}
    (hb : env.Begins t s₀ logs s) (h₀ : s₀.trace = []) (h : env.Concludes t limit logs s e o) :
    o.trace.countP Event.isRestarted = logs.length := by
  have hs := hb.countP_restarted h₀
  have hrun := Environment.countP_restarted (reports_runNodes env none t.nodes) s
  rw [hs] at hrun
  cases h with
  | failed hu | aborted hu | finished hu hp =>
      rw [hu] at hrun
      exact List.countP_reverse.trans hrun
  | exhausted hu hl =>
      rw [hu.ends] at hrun
      exact List.countP_reverse.trans hrun
  | dropped hu hp hx =>
      rw [hu] at hrun
      exact List.countP_reverse.trans hrun

theorem Concludes.archived {limit : Nat} {e : Option Error} {o : Outcome}
    (h : env.Concludes t limit logs s e o) : o.archived = logs.reverse := by
  cases h with
  | failed | aborted | finished | exhausted | dropped => rfl

theorem Concludes.free {limit : Nat} {o : Outcome} (h : env.Concludes t limit logs s none o) :
    o.context.pendingJump = none := by
  cases h with
  | aborted hu =>
      have hstop := halts_runNodes env none t.nodes s
      rw [hu] at hstop
      cases hstop nofun with
      | abort hp => exact hp
  | finished hu hp => exact hp
  | dropped => rfl

theorem Concludes.restartLimit {limit : Nat} {limit' : UInt32} {o : Outcome}
    (h : env.Concludes t limit logs s (some (.restartLimit x limit')) o) :
    limit' = env.settings.maxRestarts ∧ logs.length = limit ∧ ∃ u, env.EndsJumping t s x u := by
  generalize he : some (Error.restartLimit x limit') = e at h
  cases h with
  | failed hu =>
      obtain rfl := Option.some.inj he
      have hstop := halts_runNodes env none t.nodes s
      rw [hu] at hstop
      generalize hf : Flow.failed (.restartLimit x limit') = f at hstop
      cases hstop (by rw [← hf]; nofun) with
      | abort => cases hf
      | limit id =>
          have hlimit := Flow.failed.inj hf
          simp only [overLimit] at hlimit
          split at hlimit <;> cases hlimit
  | exhausted hu hl =>
      have hlimit := Option.some.inj he
      simp only [overLimit] at hlimit
      split at hlimit
      · cases hlimit
        exact ⟨rfl, hl, _, hu⟩
      · cases hlimit
  | aborted | finished | dropped => cases he

/-- A run that ends well leaves no jump in either channel, has as many restarts as archived logs and
as its trace tells of, and no more than are allowed; they are the logs of the sessions that ended
with a jump to a known item. A run ends at the limit of restarts exactly if the session after the
last restart that is allowed ends in this way as well. -/
theorem run_accounts (env : Environment σ ρ) (t : Timeline) (responses : σ) (arranger : ρ) :
    (∀ o, env.run t responses arranger = .ok o →
      o.context.jumpStore = none ∧ o.context.jumpMemory = none ∧
      o.restarts = o.archived.length ∧ o.restarts = o.trace.countP Event.isRestarted ∧
      o.restarts ≤ env.settings.maxRestarts.toNat ∧
      ∃ s, env.Begins t (start responses arranger) o.archived.reverse s) ∧
    (env.settings.maxRestarts.toNat + 1 < UInt32.size → ∀ x limit,
      env.run t responses arranger = .error (.restartLimit x limit) ↔
        limit = env.settings.maxRestarts ∧ ∃ logs s u,
          env.Begins t (start responses arranger) logs s ∧
          logs.length = env.settings.maxRestarts.toNat ∧ env.EndsJumping t s x u) := by
  obtain ⟨logs, s, hb, hl, hend⟩ :=
    sessions_concludes (.first : env.Begins t (start responses arranger) [] _)
      (Nat.zero_add env.settings.maxRestarts.toNat)
  rw [List.length_nil] at hend
  constructor
  · intro o ho
    rw [env.run_eq_ok.mp ho] at hend
    obtain ⟨hstore, hmemory⟩ := Context.pendingJump_eq_none.mp hend.free
    have harchived := hend.archived
    have hrestarts : o.restarts = logs.length := by
      cases hend with
      | aborted | finished | dropped => rfl
    have hcount := hend.countP_restarted hb rfl
    refine ⟨hstore, hmemory, ?_, by rw [hrestarts, hcount], by rw [hrestarts]; exact hl, s, ?_⟩
    · rw [hrestarts, harchived, List.length_reverse]
    · rw [harchived, List.reverse_reverse]
      exact hb
  · intro hmax x limit
    constructor
    · intro hrun
      rw [env.run_eq_error.mp hrun] at hend
      obtain ⟨hlimit, hlogs, u, hu⟩ := hend.restartLimit
      exact ⟨hlimit, logs, s, u, hb, hlogs, hu⟩
    · rintro ⟨rfl, logs, s, u, hb, hlogs, hu⟩
      have hrun := hb.sessions_eq 0
      rw [hu.sessions_zero, Nat.add_zero, hlogs, overLimit, if_pos hmax] at hrun
      exact env.run_eq_error.mpr (congrArg Prod.fst hrun)

def onceAgain : Environment Unit Unit := { silent with settings := ⟨⟨1⟩, 1, 100⟩ }

def returning : Trial := { Trial.plain ⟨"a"⟩ with branches := [⟨"a"⟩] }

def endless : Timeline := (compile .default [.trial returning]).toOption.getD ⟨[], .empty, []⟩

def firstEnd : Session Unit Unit := (onceAgain.runNodes none endless.nodes (start () ())).2

theorem run_accounts_endless :
    onceAgain.settings.maxRestarts.toNat + 1 < UInt32.size ∧
      onceAgain.run endless () () = .error (.restartLimit ⟨"a"⟩ 1) := by
  have hmax : onceAgain.settings.maxRestarts.toNat + 1 < UInt32.size := by decide
  have hx : endless.knownIds.contains ⟨"a"⟩ = true := by cbv
  have hfirst : onceAgain.EndsJumping endless (start () ()) ⟨"a"⟩ firstEnd :=
    ⟨Prod.ext (by cbv) rfl, by cbv, hx⟩
  have hsecond : onceAgain.EndsJumping endless (restart ⟨"a"⟩ firstEnd) ⟨"a"⟩
      (onceAgain.runNodes none endless.nodes (restart ⟨"a"⟩ firstEnd)).2 :=
    ⟨Prod.ext (by cbv) rfl, by cbv, hx⟩
  refine ⟨hmax, ((run_accounts onceAgain endless () ()).2 hmax ⟨"a"⟩ 1).mpr ?_⟩
  exact ⟨rfl, _, _, _, .restarted .first hfirst, rfl, hsecond⟩

end Environment

end BranchingTimeline
