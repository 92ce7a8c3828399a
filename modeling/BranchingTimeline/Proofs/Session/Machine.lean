import BranchingTimeline.Proofs.Session.Steps
import BranchingTimeline.Proofs.Timeline.Forest

namespace BranchingTimeline

variable {σ ρ : Type}

/-- A part of a session that is still to be done: nodes to visit, what a node does before and at its
finish, leaving a place, and a loop's next run, the passes left of one, and whether another follows. -/
inductive Task where
  | visit (stimulus : Option Record) (nodes : List Node)
  | work (stimulus : Option Record) (n : Node)
  | finish (n : Node)
  | leave (place : Place)
  | round (l : LoopPlan) (items : List Node) (left run : Nat)
  | passes (items : List Node) (stimuli : List (Option Record))
  | again (l : LoopPlan) (items : List Node) (left run : Nat)

inductive Control where
  | running (tasks : List Task)
  | ended (e : Option Error)

def Control.after (flow : Flow) (tasks : List Task) : Control :=
  match flow with
  | .next => .running tasks
  | .abort => .ended none
  | .failed e => .ended (some e)

structure Moment (σ ρ : Type) where
  control : Control
  session : Session σ ρ
  archived : List DataLog
  left : Nat

namespace Environment

open Step

variable (env : Environment σ ρ)

/-- Does the first part of a task, with the tasks to be done in its place. At most one event is
reported. -/
def perform : Task → Session σ ρ → Flow × List Task × Session σ ρ
  | .visit _ [], s => (.next, [], s)
  | .visit stimulus (n :: r), s =>
    let (decision, t) := consult n.place s
    if decision.runs then (.next, [.work stimulus n, .leave n.place, .visit stimulus r], t)
    else (.next, [.visit stimulus r], t.report (.skipped n.id decision))
  | .work stimulus (.trial p t), s =>
    (.next, [.finish (.trial p t)], env.present t p.guard.scope stimulus s)
  | .work _ (.loop p l items), s =>
    (.next, [.round l items env.settings.maxLoopRuns.toNat 1, .finish (.loop p l items)], s)
  | .finish n, s => ((conclude n s).1, [], (conclude n s).2)
  | .leave p, s => (.next, [], leave p s)
  | .round l _ 0 _, s =>
    let limit := env.settings.maxLoopRuns
    (.failed (overLimit limit (.loopLimit l.id limit)), [], s)
  | .round l items (left + 1) run, s =>
    let (stimuli, t) := env.openRun l run s
    (.next, [.passes items stimuli, .again l items left (run + 1)], t)
  | .passes _ [], s => (.next, [], s)
  | .passes items (row :: rest), s => (.next, [.visit row items, .passes items rest], s)
  | .again l items left run, s =>
    let (more, t) := askAgain l items s
    (.next, if more then [.round l items left run] else [], t)

def close (t : Timeline) (s : Session σ ρ) (archived : List DataLog) (left : Nat) : Moment σ ρ :=
  match s.context.pendingJump with
  | none => ⟨.ended none, s, archived, left⟩
  | some target =>
    if t.knownIds.contains target then
      match left with
      | 0 =>
        let limit := env.settings.maxRestarts
        ⟨.ended (some (overLimit limit (.restartLimit target limit))), s, archived, 0⟩
      | left + 1 => ⟨.running [.visit none t.nodes], restart target s, s.log :: archived, left⟩
    else
      ⟨.ended none, (s.withContext s.context.clearJump).report (.jumpDropped target), archived, left⟩

def next (t : Timeline) (m : Moment σ ρ) : Option (Moment σ ρ) :=
  match m.control with
  | .ended _ => none
  | .running [] => some (env.close t m.session m.archived m.left)
  | .running (task :: rest) =>
    let (flow, more, s) := env.perform task m.session
    some ⟨.after flow (more ++ rest), s, m.archived, m.left⟩

abbrev Reaches (t : Timeline) : Moment σ ρ → Moment σ ρ → Prop :=
  Relation.ReflTransGen fun a b => env.next t a = some b

def steps (t : Timeline) : Nat → Moment σ ρ → Option (Moment σ ρ)
  | 0, m => some m
  | n + 1, m => (env.next t m).bind (steps t n)

theorem steps_reaches {t : Timeline} {n : Nat} {m m' : Moment σ ρ} (h : env.steps t n m = some m') :
    env.Reaches t m m' := by
  induction n generalizing m with
  | zero =>
      obtain rfl := Option.some.inj h
      exact .refl
  | succ n ih =>
      obtain ⟨b, hb, hm⟩ := Option.bind_eq_some_iff.mp h
      exact .head hb (ih hm)

/-- Some tasks amount to a step, whatever is to be done after them. -/
def Performs (t : Timeline) (tasks : List Task) (a : Step σ ρ) : Prop :=
  ∀ s rest archived left, env.Reaches t ⟨.running (tasks ++ rest), s, archived, left⟩
    ⟨.after (a s).1 rest, (a s).2, archived, left⟩

variable {env} {t : Timeline} {tasks others : List Task} {task : Task} {a b : Step σ ρ}

theorem performs_done : env.Performs t [] done := fun _ _ _ _ => .refl

theorem Performs.andThen (ha : env.Performs t tasks a) (hb : env.Performs t others b) :
    env.Performs t (tasks ++ others) (a.andThen b) := by
  intro s rest archived left
  have h := ha s (others ++ rest) archived left
  rw [← List.append_assoc] at h
  rcases next_or_stop a s with ⟨u, hu⟩ | hstop
  · rw [hu] at h
    rw [andThen_next hu]
    exact h.trans (hb u rest archived left)
  · rw [andThen_stop hstop]
    cases hf : (a s).1 with
    | next => exact absurd hf hstop
    | abort | failed => simpa only [hf, Control.after] using h

theorem Performs.head (h : ∀ s, ∃ flow more u b, env.perform task s = (flow, more, u) ∧
    env.Performs t more b ∧ (flow = .next → a s = b u) ∧ (flow ≠ .next → a s = (flow, u))) :
    env.Performs t [task] a := by
  intro s rest archived left
  obtain ⟨flow, more, u, b, hp, hb, hnext, hstop⟩ := h s
  have hs : env.next t ⟨.running ([task] ++ rest), s, archived, left⟩ =
      some ⟨.after flow (more ++ rest), u, archived, left⟩ := by
    simp only [next, List.singleton_append, hp]
  refine .head hs ?_
  by_cases hf : flow = .next
  · rw [hnext hf, hf]
    exact hb u rest archived left
  · rw [hstop hf]
    cases flow with
    | next => exact absurd rfl hf
    | abort | failed => exact .refl

theorem Performs.head_next (h : ∀ s, ∃ more u b, env.perform task s = (.next, more, u) ∧
    env.Performs t more b ∧ a s = b u) : env.Performs t [task] a := by
  apply Performs.head
  intro s
  obtain ⟨more, u, b, hp, hb, ha⟩ := h s
  refine ⟨.next, more, u, b, hp, hb, fun _ => ha, ?_⟩
  intro hf
  exact absurd rfl hf

variable {stimulus : Option Record} {items nodes : List Node} {l : LoopPlan} {n : Node}

theorem performs_leave (p : Place) : env.Performs t [.leave p] fun s => (.next, leave p s) := by
  apply Performs.head_next
  intro s
  exact ⟨[], leave p s, done, rfl, performs_done, rfl⟩

theorem performs_finish (n : Node) : env.Performs t [.finish n] (conclude n) := by
  apply Performs.head
  intro s
  refine ⟨_, [], _, done, rfl, performs_done, ?_, fun _ => rfl⟩
  intro h
  exact Prod.ext h rfl

theorem performs_passes (h : ∀ row, env.Performs t [.visit row items] (env.runNodes row items))
    (stimuli : List (Option Record)) :
    env.Performs t [.passes items stimuli] (forEach (fun row => env.runNodes row items) stimuli) := by
  induction stimuli with
  | nil =>
      apply Performs.head_next
      intro s
      exact ⟨[], s, done, rfl, performs_done, rfl⟩
  | cons row stimuli ih =>
      apply Performs.head_next
      intro s
      exact ⟨_, s, _, rfl, (h row).andThen ih, rfl⟩

theorem performs_again {left run : Nat} (h : env.Performs t [.round l items left run] a) :
    env.Performs t [.again l items left run] (onceMore (askAgain l items) a) := by
  apply Performs.head_next
  intro s
  cases hs : askAgain l items s with
  | mk more u =>
      cases more with
      | false =>
          refine ⟨[], u, done, ?_, performs_done, ?_⟩
          · simp [perform, hs]
          · simp only [onceMore, hs]
            rfl
      | true =>
          refine ⟨_, u, a, ?_, h, ?_⟩
          · simp [perform, hs]
          · simp only [onceMore, hs]

theorem performs_round (h : ∀ row, env.Performs t [.visit row items] (env.runNodes row items))
    (left run : Nat) :
    env.Performs t [.round l items left run]
      (rerun (env.loopBody l fun row => env.runNodes row items) (askAgain l items)
        (overLimit env.settings.maxLoopRuns (.loopLimit l.id env.settings.maxLoopRuns)) left run) := by
  induction left generalizing run with
  | zero =>
      apply Performs.head
      intro s
      exact ⟨_, [], s, done, rfl, performs_done, nofun, fun _ => rfl⟩
  | succ left ih =>
      rw [rerun_succ]
      apply Performs.head_next
      intro s
      have hpasses := performs_passes h (env.openRun l run s).1
      exact ⟨_, (env.openRun l run s).2, _, rfl, hpasses.andThen (performs_again (ih (run + 1))),
        andThen_congr (env.loopBody_eq l _ run s)⟩

theorem performs_visit_cons {r : List Node} (hw : env.Performs t [.work stimulus n] (env.execute stimulus n))
    (hr : env.Performs t [.visit stimulus r] (env.runNodes stimulus r)) :
    env.Performs t [.visit stimulus (n :: r)] (env.runNodes stimulus (n :: r)) := by
  apply Performs.head_next
  intro s
  rw [runNodes_cons, runNode_eq]
  cases hd : (consult n.place s).1.runs with
  | true =>
      refine ⟨_, (consult n.place s).2, _, ?_, hw.andThen ((performs_leave n.place).andThen hr), ?_⟩
      · simp [perform, hd]
      · rw [andThen_congr (guarded_run hd), andThen_assoc]
  | false =>
      refine ⟨_, _, _, ?_, hr, andThen_next (guarded_skip hd)⟩
      simp [perform, hd]
      rfl

variable (env) in
/-- A sequence is run as the tasks of visiting its nodes. -/
theorem performs_visit (stimulus : Option Record) (nodes : List Node) :
    env.Performs t [.visit stimulus nodes] (env.runNodes stimulus nodes) := by
  induction nodes using Node.forest_induction generalizing stimulus with
  | nil =>
      apply Performs.head_next
      intro s
      exact ⟨[], s, done, rfl, performs_done, by rw [runNodes_nil]⟩
  | trial p t' r ih =>
      apply performs_visit_cons _ (ih stimulus)
      apply Performs.head_next
      intro s
      exact ⟨_, _, _, rfl, performs_finish _, rfl⟩
  | loop p l items r ihItems ih =>
      apply performs_visit_cons _ (ih stimulus)
      apply Performs.head_next
      intro s
      exact ⟨_, s, _, rfl, (performs_round ihItems _ _).andThen (performs_finish _), rfl⟩

variable (env) in
/-- A run comes to the end that `sessions` computes. -/
theorem reaches_sessions (t : Timeline) (archived : List DataLog) (s : Session σ ρ) (left : Nat) :
    ∃ u logs n, env.Reaches t ⟨.running [.visit none t.nodes], s, archived, left⟩
        ⟨.ended (env.sessions t archived.length archived s left).1, u, logs, n⟩ ∧
      (env.sessions t archived.length archived s left).2 = .ofSession logs.length logs u := by
  have hvisit := performs_visit (t := t) env none t.nodes
  generalize hn : archived.length = restarts
  fun_induction sessions env t restarts archived s left with
  | case1 left restarts archived s e u hu =>
      have h := hvisit s [] archived left
      rw [hu] at h
      exact ⟨u, archived, left, h, hn ▸ rfl⟩
  | case2 left restarts archived s u hu =>
      have h := hvisit s [] archived left
      rw [hu] at h
      exact ⟨u, archived, left, h, hn ▸ rfl⟩
  | case3 left restarts archived s u hu hp =>
      have h := hvisit s [] archived left
      rw [hu] at h
      refine ⟨u, archived, left, h.tail ?_, hn ▸ rfl⟩
      simp only [Control.after, next, close, hp]
  | case4 restarts archived s u hu target hp hk =>
      have h := hvisit s [] archived 0
      rw [hu] at h
      refine ⟨u, archived, 0, h.tail ?_, hn ▸ rfl⟩
      simp only [Control.after, next, close, hp, hk, if_true]
      rfl
  | case5 restarts archived s u hu target hp hk left ih =>
      have h := hvisit s [] archived (left + 1)
      rw [hu] at h
      obtain ⟨v, logs, n, hv, hout⟩ := ih (congrArg (· + 1) hn)
      refine ⟨v, logs, n, (h.tail ?_).trans hv, hout⟩
      simp only [Control.after, next, close, hp, hk, if_true]
  | case6 left restarts archived s u hu target hp hk =>
      have h := hvisit s [] archived left
      rw [hu] at h
      refine ⟨_, archived, left, h.tail ?_, by rw [hn]⟩
      simp only [Control.after, next, close, hp, hk, Bool.false_eq_true, if_false]
      rfl

variable (env) in
def opening (t : Timeline) (responses : σ) (arranger : ρ) : Moment σ ρ :=
  ⟨.running [.visit none t.nodes], start responses arranger, [], env.settings.maxRestarts.toNat⟩

variable (env) in
theorem opening_reaches_end (t : Timeline) (responses : σ) (arranger : ρ) :
    ∃ u logs n, env.Reaches t (env.opening t responses arranger)
        ⟨.ended (env.sessions t 0 [] (start responses arranger) env.settings.maxRestarts.toNat).1, u, logs, n⟩ ∧
      (env.sessions t 0 [] (start responses arranger) env.settings.maxRestarts.toNat).2 =
        .ofSession logs.length logs u :=
  reaches_sessions env t [] (start responses arranger) env.settings.maxRestarts.toNat

variable {m m' : Moment σ ρ}

def eventOf : Task → Session σ ρ → Option Event
  | .visit _ (n :: _), s =>
    if (consult n.place s).1.runs then none else some (.skipped n.id (consult n.place s).1)
  | .work stimulus (.trial p t), s =>
    some (.trial t.id t.loop (parametersFor t p.guard.scope s) stimulus)
  | .finish n, s =>
    if (hook n s).1 = .idle then none else some (.finished (reportedId n) (hook n s).1)
  | .round l _ (_ + 1) run, _ => some (.loopRun l.id run)
  | _, _ => none

theorem conclude_trace (n : Node) (s : Session σ ρ) :
    (conclude n s).2.trace = if (hook n s).1 = .idle then s.trace
      else .finished (reportedId n) (hook n s).1 :: s.trace := by
  simp only [conclude, reportFinish]
  cases hook n s with
  | mk o c => cases o <;> rfl

variable (env) in
theorem perform_trace (task : Task) (s : Session σ ρ) :
    (env.perform task s).2.2.trace = (eventOf task s).toList ++ s.trace := by
  cases task with
  | visit stimulus nodes =>
      cases nodes with
      | nil => rfl
      | cons n r =>
          cases hd : (consult n.place s).1.runs <;> simp [perform, eventOf, hd, Session.report] <;> rfl
  | work stimulus n => cases n <;> rfl
  | finish n =>
      simp only [perform, eventOf, conclude_trace]
      split <;> rfl
  | leave p =>
      simp only [perform, Environment.leave]
      split <;> rfl
  | round l items left run =>
      cases left with
      | zero => rfl
      | succ left =>
          obtain ⟨r, hr⟩ := env.openRun_eq l run s
          simp [perform, eventOf, hr]
  | passes items stimuli => cases stimuli <;> rfl
  | again l items left run => rfl

variable (env) in
theorem close_trace (t : Timeline) (s : Session σ ρ) (archived : List DataLog) (left : Nat) :
    (env.close t s archived left).session.trace = s.trace ∨
      ∃ e, (∃ x, e = .restarted x ∨ e = .jumpDropped x) ∧
        (env.close t s archived left).session.trace = e :: s.trace := by
  simp only [close]
  split
  · exact .inl rfl
  · split
    · split
      · exact .inl rfl
      · exact .inr ⟨_, ⟨_, .inl rfl⟩, rfl⟩
    · exact .inr ⟨_, ⟨_, .inr rfl⟩, rfl⟩

theorem next_inv (h : env.next t m = some m') :
    (m.control = .running [] ∧ m' = env.close t m.session m.archived m.left) ∨
      ∃ task rest, m.control = .running (task :: rest) ∧
        m' = ⟨.after (env.perform task m.session).1 ((env.perform task m.session).2.1 ++ rest),
          (env.perform task m.session).2.2, m.archived, m.left⟩ := by
  simp only [next] at h
  split at h
  · cases h
  · exact .inl ⟨‹_›, (Option.some.inj h).symm⟩
  · exact .inr ⟨_, _, ‹_›, (Option.some.inj h).symm⟩

variable (env) in
theorem next_visit {r : List Node} {rest : List Task}
    (hc : m.control = .running (.visit stimulus (n :: r) :: rest))
    (hd : (consult n.place m.session).1.runs = true) :
    env.next t m = some ⟨.running (.work stimulus n :: .leave n.place :: .visit stimulus r :: rest),
      (consult n.place m.session).2, m.archived, m.left⟩ := by
  simp [next, hc, perform, hd, Control.after]

variable (env) in
theorem next_skip {r : List Node} {rest : List Task}
    (hc : m.control = .running (.visit stimulus (n :: r) :: rest))
    (hd : (consult n.place m.session).1.runs = false) :
    env.next t m = some ⟨.running (.visit stimulus r :: rest),
      (consult n.place m.session).2.report (.skipped n.id (consult n.place m.session).1),
      m.archived, m.left⟩ := by
  simp [next, hc, perform, hd, Control.after]

theorem next_work_trial {p : Place} {plan : TrialPlan} {rest : List Task}
    (hc : m.control = .running (.work stimulus (.trial p plan) :: rest))
    (h : env.next t m = some m') :
    m'.session.trace = .trial plan.id plan.loop (parametersFor plan p.guard.scope m.session) stimulus ::
      m.session.trace := by
  simp only [next, hc, perform, Option.some.injEq] at h
  rw [← h]
  rfl

variable (env) in
theorem next_work_loop {p : Place} {rest : List Task}
    (hc : m.control = .running (.work stimulus (.loop p l items) :: rest)) :
    env.next t m = some ⟨.running (.round l items env.settings.maxLoopRuns.toNat 1 ::
      .finish (.loop p l items) :: rest), m.session, m.archived, m.left⟩ := by
  simp only [next, hc, perform]
  rfl

theorem next_trace (h : env.next t m = some m') :
    m'.session.trace = m.session.trace ∨ ∃ e, m'.session.trace = e :: m.session.trace := by
  rcases next_inv h with ⟨-, rfl⟩ | ⟨task, rest, -, rfl⟩
  · rcases close_trace env t m.session m.archived m.left with hs | ⟨e, -, he⟩
    · exact .inl hs
    · exact .inr ⟨e, he⟩
  · rw [perform_trace]
    cases eventOf task m.session with
    | none => exact .inl rfl
    | some e => exact .inr ⟨e, rfl⟩

theorem next_event (h : env.next t m = some m') {e : Event}
    (he : m'.session.trace = e :: m.session.trace) :
    (∃ x, e = .restarted x ∨ e = .jumpDropped x) ∨
      ∃ task rest, m.control = .running (task :: rest) ∧ eventOf task m.session = some e ∧
        m' = ⟨.after (env.perform task m.session).1 ((env.perform task m.session).2.1 ++ rest),
          (env.perform task m.session).2.2, m.archived, m.left⟩ := by
  rcases next_inv h with ⟨-, rfl⟩ | ⟨task, rest, hc, rfl⟩
  · rcases close_trace env t m.session m.archived m.left with hs | ⟨d, hd, hs⟩
    · simp [hs] at he
    · rw [hs] at he
      obtain ⟨rfl, -⟩ := List.cons.inj he
      exact .inl hd
  · rw [perform_trace] at he
    refine .inr ⟨task, rest, hc, ?_, rfl⟩
    cases ho : eventOf task m.session with
    | none => simp [ho] at he
    | some d =>
        rw [ho] at he
        rw [(List.cons.inj he).1]

theorem reaches_trace (h : env.Reaches t m m') :
    ∃ new, m'.session.trace = new ++ m.session.trace := by
  induction h with
  | refl => exact ⟨[], rfl⟩
  | tail _ hn ih =>
      obtain ⟨new, hnew⟩ := ih
      rcases next_trace hn with hs | ⟨e, he⟩
      · exact ⟨new, hs.trans hnew⟩
      · exact ⟨e :: new, by rw [he, hnew]; rfl⟩

theorem reported (h : env.Reaches t m m') {newer older : List Event} {e : Event}
    (he : m'.session.trace = newer ++ e :: older)
    (hm : m.session.trace.length ≤ older.length) :
    ∃ a b, env.Reaches t m a ∧ env.next t a = some b ∧ a.session.trace = older ∧
      b.session.trace = e :: older ∧ env.Reaches t b m' := by
  induction h generalizing newer with
  | refl =>
      have hl := congrArg List.length he
      simp only [List.length_append, List.length_cons] at hl
      omega
  | @tail a b hma hab ih =>
      rcases next_trace hab with hs | ⟨x, hx⟩
      · obtain ⟨c, d, hc, hn, hold, hnew, hd⟩ := ih (hs ▸ he)
        exact ⟨c, d, hc, hn, hold, hnew, hd.tail hab⟩
      · rw [hx] at he
        cases newer with
        | nil =>
            obtain ⟨rfl, rfl⟩ := List.cons.inj he
            exact ⟨a, b, hma, hab, rfl, hx, .refl⟩
        | cons y newer =>
            obtain ⟨c, d, hc, hn, hold, hnew, hd⟩ := ih (List.cons.inj he).2
            exact ⟨c, d, hc, hn, hold, hnew, hd.tail hab⟩

theorem eq_of_ended {e : Option Error} (he : m.control = .ended e) (h : env.Reaches t m m') : m' = m := by
  rcases h.cases_head with rfl | ⟨b, hb, -⟩
  · rfl
  · simp [next, he] at hb

theorem reaches_end (h : env.Reaches t m m') {last : Moment σ ρ} (hlast : env.Reaches t m last)
    {e : Option Error} (he : last.control = .ended e) : env.Reaches t m' last := by
  have hunique : Relator.RightUnique fun a b : Moment σ ρ => env.next t a = some b :=
    fun a b c hb hc => Option.some.inj (hb.symm.trans hc)
  rcases Relation.ReflTransGen.total_of_right_unique hunique h hlast with hm | hm
  · exact hm
  · rw [eq_of_ended he hm]

end Environment

end BranchingTimeline
