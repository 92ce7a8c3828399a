import BranchingTimeline.Proofs.Session.Continuation

namespace BranchingTimeline

def Task.Counts (limit : Nat) : Task → Prop
  | round _ _ left run => left + run = limit + 1 ∧ 0 < run
  | again _ _ left run => left + run = limit + 1 ∧ 1 < run
  | _ => True

namespace Environment

open Step Compile Node

variable {σ ρ : Type} {env : Environment σ ρ} {t : Timeline} {task : Task} {s : Session σ ρ}
  {m m' : Moment σ ρ} {x : ItemId} {responses : σ} {arranger : ρ}

theorem overLimit_largest {limit : UInt32} (h : limit.toNat + 1 = UInt32.size) (e : Error) :
    overLimit limit e = .overflow := by
  rw [overLimit, if_neg (by omega)]

theorem largest_of_overLimit {limit : UInt32} {e : Error} (h : overLimit limit e = .overflow)
    (he : e ≠ .overflow) : limit.toNat + 1 = UInt32.size := by
  have hsize := limit.toNat_lt_size
  rw [overLimit] at h
  split at h
  · exact absurd h he
  · omega

theorem overLimit_cases (limit : UInt32) (e : Error) :
    overLimit limit e = e ∨ overLimit limit e = .overflow := by
  rw [overLimit]
  split
  · exact .inl rfl
  · exact .inr rfl

theorem perform_counts (h : task.Counts env.settings.maxLoopRuns.toNat) :
    ∀ other ∈ (env.perform task s).2.1, other.Counts env.settings.maxLoopRuns.toNat := by
  match task with
  | .visit _ [] | .finish _ | .leave _ | .round _ _ 0 _ | .passes _ [] => simp [perform]
  | .visit stimulus (n :: r) =>
      simp only [perform]
      split <;> simp [Task.Counts]
  | .work _ (.trial ..) | .work _ (.loop ..) | .passes _ (_ :: _) => simp [perform, Task.Counts]
  | .round l items (left + 1) run =>
      obtain ⟨hsum, hrun⟩ := h
      simpa [perform, Task.Counts] using ⟨by omega, hrun⟩
  | .again l items left run =>
      obtain ⟨hsum, hrun⟩ := h
      simp only [perform]
      split
      · simpa [Task.Counts] using ⟨hsum, by omega⟩
      · simp

theorem next_left (h : env.next t m = some m') :
    m'.archived.length + m'.left = m.archived.length + m.left := by
  rcases next_inv h with ⟨-, rfl⟩ | ⟨task, rest, -, rfl⟩
  · simp only [close]
    split
    · rfl
    · split
      · split
        · simp [*]
        · simp only [List.length_cons, *]
          omega
      · rfl
  · rfl

/-- The counters at a moment of a run. -/
structure Counted (env : Environment σ ρ) (m : Moment σ ρ) : Prop where
  runs : ∀ task ∈ m.tasks, task.Counts env.settings.maxLoopRuns.toNat
  restarts : m.archived.length + m.left = env.settings.maxRestarts.toNat

theorem reaches_counted (h : env.Reaches t (env.opening t responses arranger) m) : env.Counted m := by
  constructor
  · refine reaches_tasks trivial perform_counts ?_ h
    intro task ho
    obtain rfl := List.mem_singleton.mp ho
    trivial
  · induction h with
    | refl => exact Nat.zero_add _
    | tail _ hn ih => exact (next_left hn).trans ih

inductive Fails (env : Environment σ ρ) (t : Timeline) (m : Moment σ ρ) : Error → Prop
  | runs {l : LoopPlan} {items : List Node} {run : Nat} {rest : List Task}
      (hc : m.control = .running (.round l items 0 run :: rest)) :
      Fails env t m (overLimit env.settings.maxLoopRuns (.loopLimit l.id env.settings.maxLoopRuns))
  | restarts {x : ItemId} (hc : m.control = .running [])
      (hp : m.session.context.pendingJump = some x) (hx : t.knownIds.contains x = true)
      (hl : m.left = 0) :
      Fails env t m (overLimit env.settings.maxRestarts (.restartLimit x env.settings.maxRestarts))

theorem perform_failed {e : Error} (h : (env.perform task s).1 = .failed e) :
    ∃ l items run, task = .round l items 0 run ∧
      e = overLimit env.settings.maxLoopRuns (.loopLimit l.id env.settings.maxLoopRuns) := by
  match task with
  | .visit _ [] | .work _ (.trial ..) | .work _ (.loop ..) | .leave _ | .round _ _ (_ + 1) _ | .passes _ []
  | .passes _ (_ :: _) | .again .. => cases h
  | .visit stimulus (n :: r) =>
      simp only [perform] at h
      split at h <;> cases h
  | .finish n => exact absurd h (reportFinish_completes _ _ s e)
  | .round l items 0 run => exact ⟨l, items, run, rfl, (Flow.failed.inj h).symm⟩

theorem Fails.next {e : Error} (h : env.Fails t m e) :
    ∃ m', env.next t m = some m' ∧ m'.control = .ended (some e) := by
  cases h with
  | runs hc => exact ⟨_, by simp only [Environment.next, hc, perform]; rfl, rfl⟩
  | restarts hc hp hx hl =>
      refine ⟨_, by simp only [Environment.next, hc]; rfl, ?_⟩
      simp only [close, hp, hx, hl, if_true]

theorem fails_of_next {e : Error} (h : env.next t m = some m') (he : m'.control = .ended (some e)) :
    env.Fails t m e := by
  rcases next_inv h with ⟨hc, rfl⟩ | ⟨task, rest, hc, rfl⟩
  · simp only [close] at he
    split at he
    · cases he
    · split at he
      · split at he
        · cases he
          exact .restarts hc ‹_› ‹_› ‹_›
        · cases he
      · cases he
  · cases hflow : (env.perform task m.session).1 with
    | next | abort =>
        rw [hflow] at he
        cases he
    | failed d =>
        obtain ⟨l, items, run, rfl, rfl⟩ := perform_failed hflow
        rw [hflow] at he
        cases he
        exact .runs hc

theorem ended_of_run (env : Environment σ ρ) (t : Timeline) (responses : σ) (arranger : ρ) :
    ∃ m e, env.Reaches t (env.opening t responses arranger) m ∧ m.control = .ended e ∧
      ∀ d, env.run t responses arranger = .error d ↔ e = some d := by
  obtain ⟨u, logs, n, hend, -⟩ := env.opening_reaches_end t responses arranger
  exact ⟨_, _, hend, rfl, fun d => env.run_eq_error⟩

theorem run_of_ended {e : Error} (h : env.Reaches t (env.opening t responses arranger) m)
    (he : m.control = .ended (some e)) : env.run t responses arranger = .error e := by
  obtain ⟨last, end', hend, hlast, hrun⟩ := ended_of_run env t responses arranger
  rw [hrun e]
  obtain rfl := eq_of_ended he (reaches_end h hend hlast)
  exact Control.ended.inj (hlast.symm.trans he)

/-- A run fails with what some moment of it fails with. -/
theorem run_fails {e : Error} :
    env.run t responses arranger = .error e ↔
      ∃ m, env.Reaches t (env.opening t responses arranger) m ∧ env.Fails t m e := by
  constructor
  · intro h
    obtain ⟨last, end', hend, hlast, hrun⟩ := ended_of_run env t responses arranger
    obtain rfl := (hrun e).mp h
    rcases Relation.ReflTransGen.cases_tail hend with rfl | ⟨m, hm, hn⟩
    · cases hlast
    · exact ⟨m, hm, fails_of_next hn hlast⟩
  · rintro ⟨m, hm, hfails⟩
    obtain ⟨m', hn, hm'⟩ := hfails.next
    exact run_of_ended (hm.tail hn) hm'

/-- A moment at which a counter of runs or of restarts passes the largest number. -/
inductive Overflows (t : Timeline) (m : Moment σ ρ) : Prop
  | run {l : LoopPlan} {items : List Node} {left : Nat} {rest : List Task}
      (hc : m.control = .running (.round l items left UInt32.size :: rest)) : Overflows t m
  | restart {x : ItemId} (hc : m.control = .running [])
      (hp : m.session.context.pendingJump = some x) (hx : t.knownIds.contains x = true)
      (hl : m.archived.length + 1 = UInt32.size) : Overflows t m

theorem Counted.of_round (h : env.Counted m) {l : LoopPlan} {items : List Node} {left run : Nat} {rest : List Task}
    (hc : m.control = .running (.round l items left run :: rest)) :
    left + run = env.settings.maxLoopRuns.toNat + 1 ∧ 0 < run :=
  h.runs (.round l items left run) (by simp [Moment.tasks, hc])

/-- A counter can pass the largest number only where that is the limit. -/
theorem Overflows.limit (h : Overflows t m) (hm : env.Counted m) :
    env.settings.maxLoopRuns.toNat + 1 = UInt32.size ∨
      env.settings.maxRestarts.toNat + 1 = UInt32.size := by
  have hruns := env.settings.maxLoopRuns.toNat_lt_size
  have hrestarts := env.settings.maxRestarts.toNat_lt_size
  have hcount := hm.restarts
  cases h with
  | run hc =>
      have hround := hm.of_round hc
      exact .inl (by omega)
  | restart hc hp hx hl => exact .inr (by omega)

theorem overflows_iff (hm : env.Counted m) : Overflows t m ↔ env.Fails t m .overflow := by
  have hruns := env.settings.maxLoopRuns.toNat_lt_size
  have hrestarts := env.settings.maxRestarts.toNat_lt_size
  have hcount := hm.restarts
  constructor
  · intro h
    cases h with
    | @run l items left rest hc =>
        obtain ⟨hsum, -⟩ := hm.of_round hc
        obtain rfl : left = 0 := by omega
        have hlimit : env.settings.maxLoopRuns.toNat + 1 = UInt32.size := by omega
        rw [← overLimit_largest hlimit (.loopLimit l.id env.settings.maxLoopRuns)]
        exact .runs hc
    | @restart x hc hp hx hl =>
        have hlimit : env.settings.maxRestarts.toNat + 1 = UInt32.size := by omega
        rw [← overLimit_largest hlimit (.restartLimit x env.settings.maxRestarts)]
        exact .restarts hc hp hx (by omega)
  · intro h
    generalize he : Error.overflow = e at h
    cases h with
    | @runs l items run rest hc =>
        obtain ⟨hsum, -⟩ := hm.of_round hc
        have hlimit := largest_of_overLimit he.symm nofun
        obtain rfl : run = UInt32.size := by omega
        exact .run hc
    | restarts hc hp hx hl =>
        have hlimit := largest_of_overLimit he.symm nofun
        exact .restart hc hp hx (by omega)

/-- Every run comes to an end: well, at the limit of runs of some loop, at the limit of restarts, or
with a counter that passes the largest number. A loop counts at most one run more than the limit, and
restarts do not pass theirs. So no counter passes the largest number unless that is the limit; but
there nothing stops it. -/
theorem run_counted (env : Environment σ ρ) (t : Timeline) (responses : σ) (arranger : ρ) :
    (∃ m e, env.Reaches t (env.opening t responses arranger) m ∧ m.control = .ended e ∧
      ∀ d, env.run t responses arranger = .error d ↔ e = some d) ∧
    (∀ d, env.run t responses arranger = .error d →
      (∃ id, d = .loopLimit id env.settings.maxLoopRuns) ∨
        (∃ x, d = .restartLimit x env.settings.maxRestarts) ∨ d = .overflow) ∧
    (env.run t responses arranger = .error .overflow ↔
      ∃ m, env.Reaches t (env.opening t responses arranger) m ∧ Overflows t m) ∧
    ∀ m, env.Reaches t (env.opening t responses arranger) m →
      (∀ l items left run, .round l items left run ∈ m.tasks ∨ .again l items left run ∈ m.tasks →
        0 < run ∧ run ≤ env.settings.maxLoopRuns.toNat + 1) ∧
      m.archived.length ≤ env.settings.maxRestarts.toNat ∧
      (Overflows t m → env.settings.maxLoopRuns.toNat + 1 = UInt32.size ∨
        env.settings.maxRestarts.toNat + 1 = UInt32.size) := by
  refine ⟨ended_of_run env t responses arranger, ?_, ?_, ?_⟩
  · intro d h
    obtain ⟨m, -, hfails⟩ := run_fails.mp h
    cases hfails with
    | @runs l items run rest hc =>
        rcases overLimit_cases env.settings.maxLoopRuns (.loopLimit l.id env.settings.maxLoopRuns) with he | he
        · exact .inl ⟨_, he⟩
        · exact .inr (.inr he)
    | @restarts x hc hp hx hl =>
        rcases overLimit_cases env.settings.maxRestarts (.restartLimit x env.settings.maxRestarts) with he | he
        · exact .inr (.inl ⟨_, he⟩)
        · exact .inr (.inr he)
  · rw [run_fails]
    constructor
    · rintro ⟨m, hm, hfails⟩
      exact ⟨m, hm, (overflows_iff (reaches_counted hm)).mpr hfails⟩
    · rintro ⟨m, hm, hover⟩
      exact ⟨m, hm, (overflows_iff (reaches_counted hm)).mp hover⟩
  · intro m hm
    have hcounted := reaches_counted hm
    refine ⟨?_, Nat.le_of_add_right_le hcounted.restarts.le, fun h => h.limit hcounted⟩
    rintro l items left run (h | h)
    · obtain ⟨hsum, hrun⟩ := hcounted.runs _ h
      exact ⟨hrun, by omega⟩
    · obtain ⟨hsum, hrun⟩ := hcounted.runs _ h
      exact ⟨by omega, by omega⟩

/-- The moment is within a run of a loop that reads its own data; see `asked`. -/
theorem run_counted_asked :
    unsure.run askingTimeline () () ≠ .error .overflow ∧
      ∃ l inner left run rest, asked.control = .running (.again l inner left run :: rest) ∧
        0 < run ∧ run ≤ 101 := by
  have hreach : unsure.Reaches askingTimeline (unsure.opening askingTimeline () ()) asked :=
    steps_reaches unsure (show unsure.steps askingTimeline 23 _ = some asked from rfl)
  obtain ⟨-, -, hoverflow, hcounts⟩ := run_counted unsure askingTimeline () ()
  obtain ⟨l, inner, left, run, rest, hm, -⟩ := asked_again
  obtain ⟨hrun, -, -⟩ := hcounts asked hreach
  refine ⟨?_, l, inner, left + 1, run, rest, hm,
    hrun l inner (left + 1) run (.inr (by simp [Moment.tasks, hm]))⟩
  intro h
  obtain ⟨m, hm, hover⟩ := hoverflow.mp h
  obtain ⟨-, -, hlimit⟩ := hcounts m hm
  exact absurd (hlimit hover) (by decide)

variable {s₀ : Session σ ρ}

theorem exists_begins {P : Session σ ρ → Prop} (h₀ : P s₀)
    (hs : ∀ s, P s → ∃ x u, env.EndsJumping t s x u ∧ P (restart x u)) (n : Nat) :
    ∃ logs s, env.Begins t s₀ logs s ∧ logs.length = n ∧ P s := by
  induction n with
  | zero => exact ⟨[], s₀, .first, rfl, h₀⟩
  | succ n ih =>
      obtain ⟨logs, s, hb, hn, hp⟩ := ih
      obtain ⟨x, u, hu, hp⟩ := hs s hp
      exact ⟨u.log :: logs, restart x u, .restarted hb hu, congrArg (· + 1) hn, hp⟩

theorem loopBody_nil (l : LoopPlan) (run : Nat) (s : Session σ ρ) :
    env.loopBody l (fun row => env.runNodes row []) run s = (.next, (env.openRun l run s).2) := by
  rw [loopBody_eq]
  induction (env.openRun l run s).1 with
  | nil => rfl
  | cons row rows ih =>
      rw [forEach, andThen_next (show env.runNodes row [] _ = (.next, _) by rw [runNodes_nil]; rfl), ih]

theorem reruns_nil {l : LoopPlan} (hlimit : 0 < env.settings.maxLoopRuns.toNat) (hc : l.continuation = [])
    (hp : s.context.pendingJump = none) :
    env.reruns l [] (fun row => env.runNodes row []) s = (.next, (env.openRun l 1 s).2) := by
  obtain ⟨k, hk⟩ := Nat.exists_eq_add_one.mpr hlimit
  obtain ⟨a, ha⟩ := env.openRun_eq l 1 s
  have hp : (env.openRun l 1 s).2.context.pendingJump = none := by
    rw [ha]
    exact (Context.pendingJump_update ..).trans hp
  rw [reruns, hk, rerun_succ, andThen_next (loopBody_nil l 1 s), onceMore, askAgain, Context.continueLoop, hp]
  simp only [hc]
  rfl

def hollow : Loop := { Loop.plain ⟨"b"⟩ with repetitions := 4294967295 }

def turningBack : Trial := { Trial.plain ⟨"a"⟩ with branches := [⟨"b"⟩] }

def turning : Timeline :=
  (compile .default [.loop hollow [], .trial turningBack]).toOption.getD ⟨[], .empty, []⟩

def hollowNode : Node := loopNode .root 0 [⟨"a"⟩] hollow [] (.loop "b") []

def hollowPlan : LoopPlan :=
  loopPlan .root hollow (.loop "b") (plannedFinish .root 0 [⟨"a"⟩] (.loop hollow [])) [] []

def turningBackNode : Node := trialNode .root 1 [] turningBack

theorem turning_nodes : turning.nodes = [hollowNode, turningBackNode] := by cbv

def tireless : Environment Unit Unit := { silent with settings := ⟨⟨1⟩, 4294967295, 100⟩ }

def returned : Context := { Context.start with jumpStore := some ⟨"b"⟩ }

theorem tireless_ends (s : Session Unit Unit) (h : s.context = .start ∨ s.context = returned) :
    ∃ u, tireless.runNodes none [hollowNode, turningBackNode] s = (.next, u) ∧
      u.context.jumpStore = some ⟨"b"⟩ := by
  obtain ⟨c, log, trace, ⟨⟩, ⟨⟩⟩ := s
  have hd : (consult hollowNode.place (⟨c, log, trace, (), ()⟩ : Session Unit Unit)).1.runs = true := by
    rcases h with rfl | rfl <;> rfl
  have hp : (consult hollowNode.place (⟨c, log, trace, (), ()⟩ : Session Unit Unit)).2.context.pendingJump =
      none := by
    rcases h with rfl | rfl <;> rfl
  have hw : tireless.work none hollowNode (consult hollowNode.place ⟨c, log, trace, (), ()⟩).2 =
      (.next, (tireless.openRun hollowPlan 1 (consult hollowNode.place ⟨c, log, trace, (), ()⟩).2).2) :=
    reruns_nil (by decide) rfl hp
  rw [runNodes_cons, runNode_eq, andThen_congr (guarded_run hd), andThen_assoc, execute, andThen_assoc,
    andThen_next hw]
  rcases h with rfl | rfl
  · exact ⟨_, Prod.ext rfl rfl, rfl⟩
  · exact ⟨_, Prod.ext rfl rfl, rfl⟩

theorem counter_overflows :
    compile .default [.loop hollow [], .trial turningBack] = .ok turning ∧
      tireless.run turning () () = .error .overflow := by
  have hc : compile .default [.loop hollow [], .trial turningBack] = .ok turning := by cbv
  have hx : turning.knownIds.contains ⟨"b"⟩ = true := by cbv
  have hs (s : Session Unit Unit) (h : s.context = .start ∨ s.context = returned) :
      ∃ x u, tireless.EndsJumping turning s x u ∧
        ((restart x u).context = .start ∨ (restart x u).context = returned) := by
    obtain ⟨u, hu, hstore⟩ := tireless_ends s h
    refine ⟨⟨"b"⟩, u, ⟨turning_nodes ▸ hu, ?_, hx⟩, .inr ?_⟩
    · simp [Context.pendingJump, hstore]
    · simp [restart, Session.report, Context.reload, hstore, returned]
  have h₀ : (start () ()).context = .start ∨ (start () ()).context = returned := .inl rfl
  obtain ⟨logs, s, hb, hlogs, hp⟩ := exists_begins h₀ hs tireless.settings.maxRestarts.toNat
  obtain ⟨x, u, hu, -⟩ := hs s hp
  have hrun := hb.sessions_eq 0
  rw [hu.sessions_zero, Nat.add_zero, hlogs, overLimit_largest (by decide)] at hrun
  exact ⟨hc, tireless.run_eq_error.mpr (congrArg Prod.fst hrun)⟩

end Environment

end BranchingTimeline
