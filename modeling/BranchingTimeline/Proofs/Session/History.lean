import BranchingTimeline.Proofs.Session.Jump
import BranchingTimeline.Proofs.Session.Restarts

namespace BranchingTimeline

variable {σ ρ : Type}

structure Answer where
  place : Place
  plan : TrialPlan
  parameters : Record
  stimulus : Option Record
  response : Record

namespace Answer

def node (a : Answer) : Node := .trial a.place a.plan

def event (a : Answer) : Event := .trial a.plan.id a.plan.loop a.parameters a.stimulus

def record (a : Answer) : Record := DataLog.label a.plan.id a.plan.loop a.response

end Answer

namespace Environment

open Node

variable (env : Environment σ ρ)

def answerOf : Task → Session σ ρ → Option Answer
  | .work stimulus (.trial p plan), s =>
    let parameters := parametersFor plan p.guard.scope s
    some ⟨p, plan, parameters, stimulus, (env.respond plan parameters stimulus s.responses).1⟩
  | _, _ => none

def responded (x : σ) (a : Answer) : σ := (env.respond a.plan a.parameters a.stimulus x).2

/-- All ways in which a session without tasks comes to its end. -/
inductive Closes (t : Timeline) (s : Session σ ρ) (archived : List DataLog) (left : Nat) :
    Moment σ ρ → Prop
  | finished (hp : s.context.pendingJump = none) : Closes t s archived left ⟨.ended none, s, archived, left⟩
  | exhausted {x : ItemId} (hp : s.context.pendingJump = some x) (hk : t.knownIds.contains x = true)
      (hl : left = 0) :
      Closes t s archived left
        ⟨.ended (some (overLimit env.settings.maxRestarts (.restartLimit x env.settings.maxRestarts))),
          s, archived, left⟩
  | restarted {x : ItemId} {n : Nat} (hp : s.context.pendingJump = some x)
      (hk : t.knownIds.contains x = true) (hl : left = n + 1) :
      Closes t s archived left ⟨.running [.visit none t.nodes], restart x s, s.log :: archived, n⟩
  | dropped {x : ItemId} (hp : s.context.pendingJump = some x) (hk : t.knownIds.contains x = false) :
      Closes t s archived left
        ⟨.ended none, (s.withContext s.context.clearJump).report (.jumpDropped x), archived, left⟩

theorem closes (t : Timeline) (s : Session σ ρ) (archived : List DataLog) (left : Nat) :
    env.Closes t s archived left (env.close t s archived left) := by
  simp only [close]
  split
  · exact .finished ‹_›
  · split
    · split
      · exact .exhausted ‹_› ‹_› rfl
      · exact .restarted ‹_› ‹_› rfl
    · exact .dropped ‹_› (eq_false_of_ne_true ‹_›)

/-- The runs of a timeline up to some moment, with the answers of the sessions past and with those of
the current one, the latest first. -/
inductive History (t : Timeline) (responses : σ) (arranger : ρ) :
    List (List Answer) → List Answer → Moment σ ρ → Prop
  | opening : History t responses arranger [] [] (env.opening t responses arranger)
  | task {past : List (List Answer)} {now : List Answer} {m m' : Moment σ ρ} {task : Task}
      {rest : List Task} (h : History t responses arranger past now m)
      (hc : m.control = .running (task :: rest)) (hn : env.next t m = some m') :
      History t responses arranger past ((env.answerOf task m.session).toList ++ now) m'
  | restarted {past : List (List Answer)} {now : List Answer} {m m' : Moment σ ρ} {tasks : List Task}
      (h : History t responses arranger past now m) (hc : m.control = .running [])
      (hn : env.next t m = some m') (hr : m'.control = .running tasks) :
      History t responses arranger (now :: past) [] m'
  | ended {past : List (List Answer)} {now : List Answer} {m m' : Moment σ ρ} {e : Option Error}
      (h : History t responses arranger past now m) (hc : m.control = .running [])
      (hn : env.next t m = some m') (hr : m'.control = .ended e) :
      History t responses arranger past now m'

variable {env} {t : Timeline} {responses : σ} {arranger : ρ} {past : List (List Answer)}
  {now : List Answer} {m : Moment σ ρ}

theorem History.reaches (h : env.History t responses arranger past now m) :
    env.Reaches t (env.opening t responses arranger) m := by
  induction h with
  | opening => exact .refl
  | task _ _ hn ih | restarted _ _ hn _ ih | ended _ _ hn _ ih => exact ih.tail hn

theorem exists_history (h : env.Reaches t (env.opening t responses arranger) m) :
    ∃ past now, env.History t responses arranger past now m := by
  induction h with
  | refl => exact ⟨[], [], .opening⟩
  | @tail m m' _ hn ih =>
      obtain ⟨past, now, h⟩ := ih
      rcases next_inv hn with ⟨hc, -⟩ | ⟨task, rest, hc, -⟩
      · cases hr : m'.control with
        | running tasks => exact ⟨_, _, .restarted h hc hn hr⟩
        | ended e => exact ⟨_, _, .ended h hc hn hr⟩
      · exact ⟨_, _, .task h hc hn⟩

/-- What holds of sessions with their answers at the start of a run, and is preserved by the parts
of a session and from one session to the next, holds throughout. -/
theorem History.induction {P : List (List Answer) → List Answer → Session σ ρ → List DataLog → Prop}
    (opening : P [] [] (start responses arranger) [])
    (task : ∀ past now s archived task, P past now s archived →
      P past ((env.answerOf task s).toList ++ now) (env.perform task s).2.2 archived)
    (restarted : ∀ past now s archived x, P past now s archived →
      P (now :: past) [] (restart x s) (s.log :: archived))
    (dropped : ∀ past now s archived x, P past now s archived →
      P past now ((s.withContext s.context.clearJump).report (.jumpDropped x)) archived)
    (h : env.History t responses arranger past now m) : P past now m.session m.archived := by
  induction h with
  | opening => exact opening
  | task _ hc hn ih =>
      rcases next_inv hn with ⟨hc', -⟩ | ⟨task', rest', hc', rfl⟩
      · rw [hc] at hc'
        cases hc'
      · rw [hc] at hc'
        cases hc'
        exact task _ _ _ _ _ ih
  | @restarted past now m m' tasks _ hc hn hr ih =>
      rcases next_inv hn with ⟨-, rfl⟩ | ⟨task', rest', hc', -⟩
      · have hclose := env.closes t m.session m.archived m.left
        generalize env.close t m.session m.archived m.left = m' at hclose hr
        cases hclose with
        | restarted => exact restarted _ _ _ _ _ ih
        | finished | exhausted | dropped => cases hr
      · rw [hc] at hc'
        cases hc'
  | @ended past now m m' e _ hc hn hr ih =>
      rcases next_inv hn with ⟨-, rfl⟩ | ⟨task', rest', hc', -⟩
      · have hclose := env.closes t m.session m.archived m.left
        generalize env.close t m.session m.archived m.left = m' at hclose hr
        cases hclose with
        | restarted => cases hr
        | finished | exhausted => exact ih
        | dropped => exact dropped _ _ _ _ _ ih
      · rw [hc] at hc'
        cases hc'

section Perform

variable (env) (task : Task) (s : Session σ ρ)

theorem perform_answer :
    (env.perform task s).2.2.log.latestFirst =
        (env.answerOf task s).toList.map Answer.record ++ s.log.latestFirst ∧
      (env.perform task s).2.2.responses = (env.answerOf task s).toList.foldl env.responded s.responses := by
  match task with
  | .visit _ [] | .work _ (.trial ..) | .work _ (.loop ..) | .round _ _ 0 _ | .passes _ []
  | .passes _ (_ :: _) | .again .. => exact ⟨rfl, rfl⟩
  | .visit stimulus (n :: r) =>
      simp only [perform]
      split <;> exact ⟨rfl, rfl⟩
  | .finish n =>
      simp only [perform, conclude, reportFinish]
      cases (hook n s).1 <;> exact ⟨rfl, rfl⟩
  | .leave p =>
      simp only [perform, Environment.leave]
      split <;> exact ⟨rfl, rfl⟩
  | .round l items (left + 1) run =>
      obtain ⟨a, ha⟩ := env.openRun_eq l run s
      simp only [perform, ha]
      exact ⟨rfl, rfl⟩

theorem eventOf_answer :
    (eventOf task s).toList.filter Event.isTrial = (env.answerOf task s).toList.map Answer.event ∧
      ∀ e ∈ eventOf task s, e.isRestarted = false := by
  match task with
  | .visit _ [] | .work _ (.trial ..) | .work _ (.loop ..) | .round _ _ 0 _ | .round _ _ (_ + 1) _
  | .leave _ | .passes _ [] | .passes _ (_ :: _) | .again .. =>
      simp [eventOf, answerOf, Event.isTrial, Event.isRestarted, Answer.event]
  | .visit stimulus (n :: r) =>
      simp only [eventOf]
      split <;> simp [answerOf, Event.isTrial, Event.isRestarted]
  | .finish n =>
      simp only [eventOf]
      split <;> simp [answerOf, Event.isTrial, Event.isRestarted]

end Perform

theorem History.log (h : env.History t responses arranger past now m) :
    m.session.log.latestFirst = now.map Answer.record ∧
      m.archived.map DataLog.latestFirst = past.map (·.map Answer.record) := by
  refine History.induction (P := fun past now s archived =>
    s.log.latestFirst = now.map Answer.record ∧
      archived.map DataLog.latestFirst = past.map (·.map Answer.record)) ⟨rfl, rfl⟩ ?_ ?_ ?_ h
  · rintro past now s archived task ⟨hlog, harchived⟩
    refine ⟨?_, harchived⟩
    rw [(perform_answer env task s).1, hlog, List.map_append]
  · rintro past now s archived x ⟨hlog, harchived⟩
    exact ⟨rfl, by rw [List.map_cons, List.map_cons, hlog, harchived]⟩
  · exact fun _ _ _ _ _ h => h

theorem answerOf_within {task : Task} {s : Session σ ρ} {a : Answer} (hw : task.Within t.nodes)
    (ha : env.answerOf task s = some a) : a.node ∈ flattenIn t.nodes := by
  match task with
  | .work stimulus (.trial p plan) =>
      obtain rfl := Option.some.inj ha
      exact hw
  | .work _ (.loop ..) | .visit .. | .finish _ | .leave _ | .round .. | .passes .. | .again .. => cases ha

theorem History.node_mem (h : env.History t responses arranger past now m) {a : Answer}
    (ha : a ∈ now ∨ ∃ answers ∈ past, a ∈ answers) : a.node ∈ flattenIn t.nodes := by
  induction h with
  | opening => simp at ha
  | @task past now m m' task rest h hc hn ih =>
      rcases ha with ha | ha
      · rcases List.mem_append.mp ha with ha | ha
        · have hw := reaches_within (opening_sound env t responses arranger).within h.reaches
          have hw : task.Within t.nodes := hw task (by simp [Moment.tasks, hc])
          exact answerOf_within hw (by simpa using ha)
        · exact ih (.inl ha)
      · exact ih (.inr ha)
  | @restarted past now m m' tasks _ _ _ _ ih =>
      rcases ha with ha | ⟨answers, hmem, ha⟩
      · cases ha
      · rcases List.mem_cons.mp hmem with rfl | hmem
        · exact ih (.inl ha)
        · exact ih (.inr ⟨answers, hmem, ha⟩)
  | ended _ _ _ _ ih => exact ih ha

theorem answerOf_response {task : Task} {s : Session σ ρ} {a : Answer}
    (ha : env.answerOf task s = some a) :
    a.response = (env.respond a.plan a.parameters a.stimulus s.responses).1 := by
  match task with
  | .work stimulus (.trial p plan) =>
      obtain rfl := Option.some.inj ha
      rfl
  | .work _ (.loop ..) | .visit .. | .finish _ | .leave _ | .round .. | .passes .. | .again .. => cases ha

theorem History.response_mem (h : env.History t responses arranger past now m) {a : Answer}
    (ha : a ∈ now) : ∃ x, a.response = (env.respond a.plan a.parameters a.stimulus x).1 := by
  induction h with
  | opening | restarted => cases ha
  | @task past now m m' task rest _ _ _ ih =>
      rcases List.mem_append.mp ha with ha | ha
      · exact ⟨m.session.responses, answerOf_response (by simpa using ha)⟩
      · exact ih ha
  | ended _ _ _ _ ih => exact ih ha

end Environment

end BranchingTimeline
