import BranchingTimeline.Proofs.Session.Abort

namespace BranchingTimeline

variable {σ ρ : Type}

namespace Environment

open Step Node

variable (env : Environment σ ρ)

/-- What a task amounts to when all its parts are done. -/
def complete : Task → Step σ ρ
  | .visit stimulus nodes => env.runNodes stimulus nodes
  | .work stimulus n => env.execute stimulus n
  | .finish n => conclude n
  | .leave p => fun s => (.next, leave p s)
  | .round l items left run =>
    rerun (env.loopBody l fun row => env.runNodes row items) (askAgain l items)
      (overLimit env.settings.maxLoopRuns (.loopLimit l.id env.settings.maxLoopRuns)) left run
  | .passes items stimuli => forEach (fun row => env.runNodes row items) stimuli
  | .again l items left run =>
    onceMore (askAgain l items)
      (rerun (env.loopBody l fun row => env.runNodes row items) (askAgain l items)
        (overLimit env.settings.maxLoopRuns (.loopLimit l.id env.settings.maxLoopRuns)) left run)

def completeAll : List Task → Step σ ρ
  | [] => done
  | task :: rest => (env.complete task).andThen (completeAll rest)

variable {env} {t : Timeline} {task : Task} {s : Session σ ρ}

theorem completeAll_append (tasks others : List Task) :
    env.completeAll (tasks ++ others) = (env.completeAll tasks).andThen (env.completeAll others) := by
  induction tasks with
  | nil => rfl
  | cons task rest ih => rw [List.cons_append, completeAll, completeAll, ih, andThen_assoc]

variable (env) in
theorem perform_visit (stimulus : Option Record) (n : Node) (r : List Node) (s : Session σ ρ) :
    (env.perform (.visit stimulus (n :: r)) s).1 = .next ∧
      ∃ tasks, (env.perform (.visit stimulus (n :: r)) s).2.1 = tasks ++ [.visit stimulus r] ∧
        (∀ task ∈ tasks, ∀ row nodes, task ≠ .visit row nodes) ∧
        env.runNode stimulus n s =
          env.completeAll tasks (env.perform (.visit stimulus (n :: r)) s).2.2 := by
  rw [runNode_eq]
  cases hd : (consult n.place s).1.runs with
  | true =>
      have hp : env.perform (.visit stimulus (n :: r)) s =
          (.next, [.work stimulus n, .leave n.place, .visit stimulus r], (consult n.place s).2) := by
        simp [perform, hd]
      rw [hp, guarded_run hd]
      refine ⟨rfl, [.work stimulus n, .leave n.place], rfl, by simp, ?_⟩
      simp only [completeAll, complete, andThen_done]
  | false =>
      have hp : env.perform (.visit stimulus (n :: r)) s =
          (.next, [.visit stimulus r],
            (consult n.place s).2.report (.skipped n.id (consult n.place s).1)) := by
        simp [perform, hd]
      rw [hp, guarded_skip hd]
      exact ⟨rfl, [], rfl, by simp, rfl⟩

theorem complete_eq (h : (env.perform task s).1 = .next) :
    env.complete task s = env.completeAll (env.perform task s).2.1 (env.perform task s).2.2 := by
  match task with
  | .visit _ [] =>
      rw [complete, runNodes_nil]
      rfl
  | .visit stimulus (n :: r) =>
      obtain ⟨-, tasks, hmore, -, hn⟩ := perform_visit env stimulus n r s
      rw [complete, runNodes_cons, hmore, completeAll_append, andThen_congr hn, completeAll, completeAll,
        andThen_done, complete]
  | .work stimulus (.trial p plan) => exact (congrFun (andThen_done _) _).symm
  | .work stimulus (.loop p l items) =>
      change (env.reruns l items _).andThen (conclude _) s = ((env.reruns l items _).andThen _) s
      rw [completeAll, completeAll, andThen_done]
      rfl
  | .finish n => exact Prod.ext h rfl
  | .leave p => rfl
  | .round l items 0 run => cases h
  | .round l items (left + 1) run =>
      rw [complete, rerun_succ, andThen_congr (env.loopBody_eq l _ run s)]
      change _ = ((env.complete (.passes _ _)).andThen _) _
      rw [completeAll, completeAll, andThen_done]
      rfl
  | .passes _ [] => rfl
  | .passes items (row :: rest) =>
      change _ = ((env.complete (.visit row items)).andThen _) _
      rw [completeAll, completeAll, andThen_done]
      rfl
  | .again l items left run =>
      cases ha : askAgain l items s with
      | mk more u =>
          cases more with
          | false => simp only [complete, onceMore, perform, ha, Bool.false_eq_true, if_false]; rfl
          | true =>
              simp only [complete, onceMore, perform, ha, if_true, completeAll, andThen_done]

def OfLoop (forest : List Node) : Task → Prop
  | .passes items _ => ∃ p l, loop p l items ∈ flattenIn forest
  | _ => True

variable (env) in
theorem perform_ofLoop {forest : List Node} (hw : task.Within forest) (hl : OfLoop forest task)
    (s : Session σ ρ) : ∀ other ∈ (env.perform task s).2.1, OfLoop forest other := by
  match task with
  | .visit _ [] | .finish _ | .leave _ | .round _ _ 0 _ | .passes _ [] => simp [perform]
  | .visit stimulus (n :: r) =>
      simp only [perform]
      split <;> simp [OfLoop]
  | .work _ (.trial ..) | .work _ (.loop ..) => simp [perform, OfLoop]
  | .round l items (left + 1) run =>
      obtain ⟨p, hp⟩ := hw
      simpa [perform, OfLoop] using ⟨p, l, hp⟩
  | .passes items (row :: rest) => simpa [perform, OfLoop] using hl
  | .again l items left run =>
      simp only [perform]
      split <;> simp [OfLoop]

variable {settings : Settings} {tree : List Item} {responses : σ} {arranger : ρ} {m m' : Moment σ ρ}
  {scope : Scope} {stimulus : Option Record} {nodes r : List Node} {tasks rest : List Task}

/-- A pass of a sequence begins at a moment of a run, with the tasks that are to follow it. The pass of
the top level is a session, in which no branch has been taken so far. -/
structure PassBegins (env : Environment σ ρ) (t : Timeline) (responses : σ) (arranger : ρ)
    (scope : Scope) (nodes : List Node) (stimulus : Option Record) (rest : List Task) (m : Moment σ ρ) :
    Prop where
  reached : env.Reaches t (env.opening t responses arranger) m
  control : m.control = .running (.visit stimulus nodes :: rest)
  sequence : t.IsSequence scope nodes
  fresh : scope = .root → m.session.context.root = .clear

/-- In a pass that has begun, some tasks lead to the point where only the last nodes are to be
visited. -/
def Underway (env : Environment σ ρ) (t : Timeline) (responses : σ) (arranger : ρ) (tasks : List Task)
    (stimulus : Option Record) (r : List Node) (rest : List Task) (s : Session σ ρ) : Prop :=
  ∃ scope pre m, env.PassBegins t responses arranger scope (pre ++ r) stimulus rest m ∧
    env.runNodes stimulus pre m.session = env.completeAll tasks s

theorem underway_begins (h : env.PassBegins t responses arranger scope r stimulus rest m) :
    env.Underway t responses arranger [] stimulus r rest m.session :=
  ⟨scope, [], m, h, by rw [runNodes_nil]; rfl⟩

theorem Underway.perform (h : env.Underway t responses arranger (task :: tasks) stimulus r rest s)
    (hf : (env.perform task s).1 = .next) :
    env.Underway t responses arranger ((env.perform task s).2.1 ++ tasks) stimulus r rest
      (env.perform task s).2.2 := by
  obtain ⟨scope, pre, m, hm, hrun⟩ := h
  refine ⟨scope, pre, m, hm, ?_⟩
  rw [hrun, completeAll_append, completeAll, andThen_congr (complete_eq hf)]

theorem Underway.visit {n : Node} {s' : Session σ ρ}
    (h : env.Underway t responses arranger [] stimulus (n :: r) rest s)
    (hn : env.runNode stimulus n s = env.completeAll tasks s') :
    env.Underway t responses arranger tasks stimulus r rest s' := by
  obtain ⟨scope, pre, m, hm, hrun⟩ := h
  refine ⟨scope, pre ++ [n], m, by simpa using hm, ?_⟩
  rw [runNodes_append, andThen_next hrun, runNodes_cons, runNodes_nil, andThen_done, hn]

theorem visit_of_perform {front back : List Task}
    (h : (env.perform task s).2.1 = front ++ .visit stimulus r :: back) :
    (back = [] ∧ ∃ n, task = .visit stimulus (n :: r) ∧
        env.runNode stimulus n s = env.completeAll front (env.perform task s).2.2) ∨
      (front = [] ∧ ∃ stimuli, task = .passes r (stimulus :: stimuli) ∧ back = [.passes r stimuli]) := by
  match task with
  | .visit _ [] | .finish _ | .leave _ | .round _ _ 0 _ | .passes _ [] => simp [perform] at h
  | .work _ (.trial ..) | .work _ (.loop ..) | .round _ _ (_ + 1) _ =>
      have hv : Task.visit stimulus r ∈ front ++ .visit stimulus r :: back := by simp
      rw [← h] at hv
      simp [perform] at hv
  | .again l items left run =>
      have hv : Task.visit stimulus r ∈ front ++ .visit stimulus r :: back := by simp
      rw [← h] at hv
      simp only [perform] at hv
      split at hv <;> simp at hv
  | .visit row (n :: r') =>
      obtain ⟨-, tasks, hmore, hv, hn⟩ := perform_visit env row n r' s
      rw [hmore] at h
      rcases List.eq_nil_or_concat back with rfl | ⟨between, last, rfl⟩
      · obtain ⟨rfl, he⟩ := List.append_inj' h rfl
        cases he
        exact .inl ⟨rfl, n, rfl, hn⟩
      · rw [List.concat_eq_append, ← List.cons_append, ← List.append_assoc] at h
        obtain ⟨rfl, -⟩ := List.append_inj' h rfl
        exact absurd rfl (hv (.visit stimulus r) (by simp) stimulus r)
  | .passes items (row :: stimuli) =>
      simp only [perform] at h
      cases front with
      | nil =>
          cases h
          exact .inr ⟨rfl, stimuli, rfl, rfl⟩
      | cons first front => cases front <;> simp at h

theorem begins_of_close (hm : env.Reaches t (env.opening t responses arranger) m)
    (hn : env.next t m = some m') (hc : m.control = .running []) (hv : .visit stimulus r ∈ m'.tasks) :
    m'.tasks = [.visit stimulus r] ∧ env.PassBegins t responses arranger .root r stimulus [] m' := by
  rcases next_inv hn with ⟨-, rfl⟩ | ⟨task, rest, hc', -⟩
  · have hclose := env.closes t m.session m.archived m.left
    generalize env.close t m.session m.archived m.left = m' at hclose hv hn
    cases hclose with
    | finished | exhausted | dropped => simp [Moment.tasks] at hv
    | restarted =>
        simp only [Moment.tasks, List.mem_singleton, Task.visit.injEq] at hv
        obtain ⟨rfl, rfl⟩ := hv
        exact ⟨rfl, hm.tail hn, rfl, .inl ⟨rfl, rfl⟩, fun _ => rfl⟩
  · rw [hc] at hc'
    cases hc'

theorem reaches_ofLoop (h : env.Reaches t (env.opening t responses arranger) m) :
    ∀ task ∈ m.tasks, OfLoop t.nodes task := by
  have hk : ∀ task ∈ m.tasks, task.Within t.nodes ∧ OfLoop t.nodes task := by
    refine reaches_tasks ⟨within_visit none, trivial⟩ ?_ ?_ h
    · rintro task s ⟨hw, hl⟩ other ho
      exact ⟨perform_within env hw other ho, perform_ofLoop env hw hl s other ho⟩
    · rintro task ho
      obtain rfl := List.mem_singleton.mp ho
      exact ⟨within_visit none, trivial⟩
  exact fun task ho => (hk task ho).2

theorem next_underway (hc : compile settings tree = .ok t)
    (hm : env.Reaches t (env.opening t responses arranger) m)
    (hl : ∀ task ∈ m.tasks, OfLoop t.nodes task)
    (h : ∀ front stimulus r rest, m.tasks = front ++ .visit stimulus r :: rest →
      env.Underway t responses arranger front stimulus r rest m.session)
    (hn : env.next t m = some m') {front rest : List Task}
    (hv : m'.tasks = front ++ .visit stimulus r :: rest) :
    env.Underway t responses arranger front stimulus r rest m'.session := by
  rcases next_inv hn with ⟨hc, -⟩ | ⟨task, older, hcontrol, he⟩
  · obtain ⟨htasks, hbegins⟩ := begins_of_close hm hn hc (show .visit stimulus r ∈ m'.tasks by simp [hv])
    rw [htasks] at hv
    cases front with
    | nil =>
        cases hv
        exact underway_begins hbegins
    | cons first front => simp at hv
  · have htasks : m.tasks = task :: older := by simp [Moment.tasks, hcontrol]
    cases hflow : (env.perform task m.session).1 with
    | abort | failed =>
        rw [he] at hv
        simp [Moment.tasks, hflow, Control.after] at hv
    | next =>
        rw [hflow] at he
        subst he
        rcases List.append_eq_append_iff.mp hv with ⟨between, rfl, holder⟩ | ⟨between, hmore, hrest⟩
        · exact (h _ _ _ _ (by rw [htasks, holder]; rfl)).perform hflow
        · cases between with
          | nil =>
              have holder : older = .visit stimulus r :: rest := by simpa using hrest.symm
              have hunderway := (h [task] stimulus r rest (by rw [htasks, holder]; rfl)).perform hflow
              rw [List.append_nil] at hmore hunderway
              rwa [hmore] at hunderway
          | cons first back =>
              obtain ⟨rfl, rfl⟩ := List.cons.inj hrest
              rcases visit_of_perform hmore with ⟨rfl, n, rfl, hrun⟩ | ⟨rfl, stimuli, rfl, rfl⟩
              · exact (h [] _ _ _ htasks).visit hrun
              · obtain ⟨p, l, hloop⟩ := hl (.passes r (stimulus :: stimuli)) (by simp [htasks])
                refine underway_begins ⟨hm.tail hn, ?_, .inr ⟨p, l, hloop, rfl⟩, ?_⟩
                · rw [hmore]
                  rfl
                · exact fun hroot => absurd hroot (scope_ne_root hc hloop)

/-- Whenever nodes are to be visited, they are the rest of a sequence in a pass that began earlier in the
run. -/
theorem reaches_underway (hc : compile settings tree = .ok t)
    (h : env.Reaches t (env.opening t responses arranger) m) {front rest : List Task}
    (hv : m.tasks = front ++ .visit stimulus r :: rest) :
    env.Underway t responses arranger front stimulus r rest m.session := by
  induction h generalizing front stimulus r rest with
  | refl =>
      cases front with
      | nil =>
          cases hv
          exact underway_begins ⟨.refl, rfl, .inl ⟨rfl, rfl⟩, fun _ => rfl⟩
      | cons first front => simp [Moment.tasks, opening] at hv
  | tail ha hab ih =>
      exact next_underway hc ha (reaches_ofLoop ha) (fun _ _ _ _ hv => ih hv) hab hv

theorem reaches_begins (hc : compile settings tree = .ok t)
    (h : env.Reaches t (env.opening t responses arranger) m)
    (hv : m.control = .running (.visit stimulus r :: rest)) :
    ∃ scope pre a, env.PassBegins t responses arranger scope (pre ++ r) stimulus rest a ∧
      env.runNodes stimulus pre a.session = (.next, m.session) := by
  have htasks : m.tasks = [] ++ .visit stimulus r :: rest := by simp [Moment.tasks, hv]
  exact reaches_underway hc h htasks

theorem work_of_perform {n : Node} {back : List Task}
    (h : (env.perform task s).2.1 = .work stimulus n :: back) :
    ∃ r, task = .visit stimulus (n :: r) ∧ (consult n.place s).1.runs = true ∧
      (env.perform task s).2.2 = (consult n.place s).2 := by
  match task with
  | .visit _ [] | .finish _ | .leave _ | .round _ _ 0 _ | .round _ _ (_ + 1) _ | .passes _ []
  | .passes _ (_ :: _) | .work _ (.trial ..) | .work _ (.loop ..) => simp [perform] at h
  | .again l items left run =>
      simp only [perform] at h
      split at h <;> simp at h
  | .visit row (k :: r) =>
      cases hd : (consult k.place s).1.runs with
      | true =>
          simp only [perform, hd, if_true, List.cons.injEq, Task.work.injEq] at h
          obtain ⟨⟨rfl, rfl⟩, -⟩ := h
          exact ⟨r, rfl, hd, by simp [perform, hd]⟩
      | false => simp [perform, hd] at h

theorem reaches_head (hc : compile settings tree = .ok t)
    (h : env.Reaches t (env.opening t responses arranger) m) (hm : m.control = .running (task :: rest))
    (hr : ¬task.Resting) :
    ∃ a parent older back, env.Reaches t (env.opening t responses arranger) a ∧
      a.control = .running (parent :: older) ∧ env.next t a = some m ∧
      env.perform parent a.session = (.next, task :: back, m.session) ∧ rest = back ++ older := by
  rcases h.cases_tail with rfl | ⟨a, ha, hn⟩
  · simp only [opening, Control.running.injEq, List.cons.injEq] at hm
    obtain ⟨rfl, -⟩ := hm
    exact absurd trivial hr
  · rcases next_inv hn with ⟨-, rfl⟩ | ⟨parent, older, hcontrol, rfl⟩
    · have hclose := env.closes t a.session a.archived a.left
      generalize env.close t a.session a.archived a.left = m at hclose hm
      cases hclose with
      | finished | exhausted | dropped => cases hm
      | restarted =>
          cases hm
          exact absurd trivial hr
    · have hsound := reaches_sound (trial_members hc) (opening_sound env t responses arranger) ha
      cases hflow : (env.perform parent a.session).1 with
      | abort | failed => simp [hflow, Control.after] at hm
      | next =>
          simp only [hflow, Control.after, Control.running.injEq] at hm
          cases hmore : (env.perform parent a.session).2.1 with
          | nil =>
              rw [hmore, List.nil_append] at hm
              exact absurd (hsound.resting task (by simp [Moment.tasks, hcontrol, hm])) hr
          | cons first back =>
              rw [hmore, List.cons_append] at hm
              obtain ⟨rfl, rfl⟩ := List.cons.inj hm
              exact ⟨a, parent, older, back, ha, hcontrol, hn.trans (by rw [hflow, hmore]),
                Prod.ext hflow (Prod.ext hmore rfl), rfl⟩

/-- A node is at work only where its guard has just let it run. -/
theorem reaches_work (hc : compile settings tree = .ok t)
    (h : env.Reaches t (env.opening t responses arranger) m) {n : Node}
    (hw : m.control = .running (.work stimulus n :: rest)) :
    ∃ a r older, env.Reaches t (env.opening t responses arranger) a ∧
      a.control = .running (.visit stimulus (n :: r) :: older) ∧
      (consult n.place a.session).1.runs = true ∧ m.session = (consult n.place a.session).2 := by
  obtain ⟨a, parent, older, back, ha, hcontrol, -, hperform, -⟩ := reaches_head hc h hw id
  obtain ⟨r, rfl, hruns, hs⟩ := work_of_perform (congrArg (·.2.1) hperform)
  exact ⟨a, r, older, ha, hcontrol, hruns, (congrArg (·.2.2) hperform).symm.trans hs⟩

theorem again_of_perform {l : LoopPlan} {items : List Node} {left run : Nat} {back : List Task}
    (h : (env.perform task s).2.1 = .round l items left run :: back) (hrun : 1 < run) :
    task = .again l items left run ∧ back = [] := by
  match task with
  | .visit _ [] | .finish _ | .leave _ | .round _ _ 0 _ | .round _ _ (_ + 1) _ | .passes _ []
  | .passes _ (_ :: _) | .work _ (.trial ..) => simp [perform] at h
  | .visit _ (n :: _) =>
      simp only [perform] at h
      split at h <;> simp at h
  | .work _ (.loop ..) =>
      simp only [perform, List.cons.injEq, Task.round.injEq] at h
      obtain ⟨⟨-, -, -, rfl⟩, -⟩ := h
      exact absurd hrun (Nat.lt_irrefl 1)
  | .again l items left run =>
      simp only [perform] at h
      split at h
      · cases h
        exact ⟨rfl, rfl⟩
      · cases h

theorem reaches_round (hc : compile settings tree = .ok t)
    (h : env.Reaches t (env.opening t responses arranger) m) {l : LoopPlan} {items : List Node}
    {left run : Nat} (hm : m.control = .running (.round l items left run :: rest)) (hrun : 1 < run) :
    ∃ a, env.Reaches t (env.opening t responses arranger) a ∧ env.next t a = some m ∧
      a.control = .running (.again l items left run :: rest) ∧ a.session.trace = m.session.trace := by
  obtain ⟨a, parent, older, back, ha, hcontrol, hn, hperform, rfl⟩ := reaches_head hc h hm id
  obtain ⟨rfl, rfl⟩ := again_of_perform (congrArg (·.2.1) hperform) hrun
  refine ⟨a, ha, hn, hcontrol, ?_⟩
  have htrace := perform_trace env (.again l items left run) a.session
  rw [hperform] at htrace
  exact htrace.symm

end Environment

end BranchingTimeline
