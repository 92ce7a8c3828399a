import BranchingTimeline.Proofs.Session.Hooks
import BranchingTimeline.Proofs.Session.Machine
import BranchingTimeline.Proofs.Timeline.Plans

namespace BranchingTimeline

namespace Context

variable {c c' : Context}

/-- What holds of a context whatever flags change in it, and also when its jump is consumed. -/
structure Stable (P : Context → Prop) : Prop where
  update : ∀ {c} s f, P c → P (c.update s f)
  clearJump : ∀ {c}, P c → P c.clearJump

section Stable

variable {P : Context → Prop}

theorem Stable.decides (hP : Stable P) {g : Guard} {d : Decision} (h : Decides g c d c')
    (hc : P c) : P c' := by
  cases h with
  | jumpTarget => exact hP.clearJump hc
  | jumpThrough | skippedForJump => exact hc
  | normal | skippedForBranch => exact hP.update _ _ hc
  | branchTarget => exact hP.update _ _ (hP.update _ _ hc)

theorem Stable.continues (hP : Stable P) {l : LoopPlan} {items : List Node} {log : DataLog}
    {again : Bool} (h : Continues l items log c again c') (hc : P c) : P c' := by
  cases h with
  | jumpTarget => exact hP.clearJump hc
  | jump | data => exact hc

end Stable

def Stored (c : Context) : Prop := c.jumpStore = none → c.jumpMemory = none

theorem Stored.update (h : c.Stored) (s : Scope) (f : Flags → Flags) : (c.update s f).Stored := by
  simpa [Stored] using h

theorem stored_clearJump (c : Context) : c.clearJump.Stored := fun _ => rfl

theorem stored_reload (c : Context) : c.reload.Stored := fun _ => rfl

theorem stable_stored : Stable Stored where
  update s f h := h.update s f
  clearJump _ := stored_clearJump _

theorem Stored.pendingJump (h : c.Stored) : c.pendingJump = c.jumpStore := by
  cases hs : c.jumpStore with
  | some x => simp [Context.pendingJump, hs]
  | none => simp [Context.pendingJump, hs, h hs]

theorem Receives.stored {jump : Option ItemId} (h : Receives c jump c') (hc : c.Stored) :
    c'.Stored := by
  intro hs
  cases jump with
  | none => exact h.memory.trans (hc (h.store.symm.trans hs))
  | some x => cases h.store.symm.trans hs

end Context

namespace Task

open Node

def Within (forest : List Node) : Task → Prop
  | visit _ nodes | passes nodes _ => nodes ⊆ flattenIn forest
  | work _ n | finish n => n ∈ flattenIn forest
  | leave p => ∃ n ∈ flattenIn forest, n.place = p
  | round l items _ _ | again l items _ _ => ∃ p, loop p l items ∈ flattenIn forest

/-- A task that may wait for others: it is not within the run of a trial, and not the run of a loop that
is about to begin. -/
def Resting : Task → Prop
  | work .. | round .. | finish (.trial ..) => False
  | _ => True

def Free (c : Context) : Task → Prop
  | work _ (.trial ..) | finish (.trial ..) => c.pendingJump = none
  | _ => True

theorem Resting.free {task : Task} (h : task.Resting) (c : Context) : task.Free c := by
  match task with
  | visit .. | passes .. | leave .. | again .. | finish (.loop ..) => trivial

end Task

def Moment.tasks {σ ρ : Type} (m : Moment σ ρ) : List Task :=
  match m.control with
  | .running tasks => tasks
  | .ended _ => []

namespace Environment

open Node

variable {σ ρ : Type} {env : Environment σ ρ} {t : Timeline} {forest : List Node} {task : Task}
  {s : Session σ ρ} {m m' : Moment σ ρ}

section Stable

variable {P : Context → Prop}

theorem begun_stable (hP : Context.Stable P) (place : Place) {c : Context} (hc : P c) :
    P (begun place c) := by
  rw [begun]
  split
  · exact hP.update _ _ hc
  · exact hc

variable (env) in
theorem perform_stable (hP : Context.Stable P) (task : Task)
    (hf : ∀ n, task = .finish n → P (hook n s).2) (h : P s.context) :
    P (env.perform task s).2.2.context := by
  match task with
  | .visit _ [] | .work _ (.trial ..) | .work _ (.loop ..) | .round _ _ 0 _ | .passes _ []
  | .passes _ (_ :: _) => exact h
  | .visit stimulus (n :: r) =>
      have hc : P (consult n.place s).2.context :=
        hP.decides (Context.decides _ n.place.guard) (begun_stable hP n.place h)
      simp only [perform]
      split <;> exact hc
  | .finish n =>
      simp only [perform, conclude, reportFinish_context]
      exact hf n rfl
  | .leave p =>
      simp only [perform, Environment.leave]
      split
      · exact hP.update _ _ h
      · exact h
  | .round l items (left + 1) run =>
      obtain ⟨a, ha⟩ := env.openRun_eq l run s
      simp only [perform, ha]
      exact hP.update _ _ h
  | .again l items left run => exact hP.continues (Context.continues _ l items s.log) h

end Stable

theorem hook_receives (n : Node) (s : Session σ ρ) :
    Context.Receives s.context (hook n s).1.jump? (hook n s).2 := by
  cases n with
  | trial p plan => exact (Context.finishesTrial _ _ _).receives
  | loop p l items => exact (Context.finishesLoop _ _ _).receives

theorem hook_jumps {n : Node} {x : ItemId} (h : (hook n s).1.jump? = some x) :
    n.finish.Jumps s.log.latest x := by
  cases n with
  | trial p plan => exact (Context.finishesTrial _ _ _).jumps h
  | loop p l items => exact (Context.finishesLoop _ _ _).jumps h

variable (env) in
theorem perform_stored (h : s.context.Stored) (task : Task) :
    (env.perform task s).2.2.context.Stored := by
  refine perform_stable env Context.stable_stored task ?_ h
  rintro n -
  exact (hook_receives n s).stored h

variable (env) in
theorem perform_within (h : task.Within forest) :
    ∀ other ∈ (env.perform task s).2.1, other.Within forest := by
  match task with
  | .visit _ [] | .finish _ | .leave _ | .round _ _ 0 _ | .passes _ [] => simp [perform]
  | .visit stimulus (n :: r) =>
      simp only [Task.Within, List.cons_subset] at h
      simp only [perform]
      split
      · simpa [Task.Within, h] using ⟨n, h.1, rfl⟩
      · simp [Task.Within, h]
  | .work _ (.trial ..) => simpa [perform, Task.Within] using h
  | .work _ (.loop p l items) => simpa [perform, Task.Within] using ⟨⟨p, h⟩, h⟩
  | .round l items (left + 1) run =>
      obtain ⟨p, hp⟩ := h
      have hi : items ⊆ flattenIn forest := fun n hn => flattenIn_subset hp (mem_flattenIn hn)
      simpa [perform, Task.Within] using ⟨hi, p, hp⟩
  | .passes items (row :: rest) => simpa [perform, Task.Within] using h
  | .again l items left run =>
      simp only [perform]
      split
      · simpa [Task.Within] using h
      · simp

variable (env) in
theorem perform_resting (task : Task) (s : Session σ ρ) :
    ∀ other ∈ (env.perform task s).2.1.tail, other.Resting := by
  match task with
  | .visit _ [] | .finish _ | .leave _ | .round _ _ 0 _ | .passes _ [] | .work _ (.trial ..) =>
      simp [perform]
  | .visit stimulus (n :: r) =>
      simp only [perform]
      split <;> simp [Task.Resting]
  | .work _ (.loop p l items) => simp [perform, Task.Resting]
  | .round l items (left + 1) run => simp [perform, Task.Resting]
  | .passes items (row :: rest) => simp [perform, Task.Resting]
  | .again l items left run =>
      simp only [perform]
      split <;> simp

variable (env) in
theorem perform_free (hm : ∀ p plan, .trial p plan ∈ flattenIn forest → p.guard.members = .empty)
    (hw : task.Within forest) (hf : task.Free s.context) :
    ∀ other ∈ (env.perform task s).2.1.head?, other.Free (env.perform task s).2.2.context := by
  match task with
  | .visit _ [] | .finish _ | .leave _ | .round _ _ 0 _ | .passes _ [] => simp [perform]
  | .visit stimulus (.trial p plan :: r) =>
      simp only [Task.Within, List.cons_subset] at hw
      simp only [perform]
      split
      · rename_i hd
        intro other ho
        obtain rfl := Option.some.inj ho
        exact (Context.decides (begun p s.context) p.guard).pendingJump hd (hm p plan hw.1)
      · simp [Task.Free]
  | .visit stimulus (.loop p l items :: r) =>
      simp only [perform]
      split <;> simp [Task.Free]
  | .work _ (.trial ..) =>
      intro other ho
      obtain rfl := Option.some.inj ho
      exact hf
  | .work _ (.loop p l items) => simp [perform, Task.Free]
  | .round l items (left + 1) run => simp [perform, Task.Free]
  | .passes items (row :: rest) => simp [perform, Task.Free]
  | .again l items left run =>
      simp only [perform]
      split <;> simp [Task.Free]

/-- What holds at every moment of a run: see `Context.Stored`, `Task.Within`, `Task.Resting` and
`Task.Free`. -/
structure Sound (t : Timeline) (m : Moment σ ρ) : Prop where
  stored : m.session.context.Stored
  within : ∀ task ∈ m.tasks, task.Within t.nodes
  resting : ∀ task ∈ m.tasks.tail, task.Resting
  free : ∀ task ∈ m.tasks.head?, task.Free m.session.context

theorem sound_ended {e : Option Error} {archived : List DataLog} {left : Nat}
    (h : s.context.Stored) : Sound t (⟨.ended e, s, archived, left⟩ : Moment σ ρ) := by
  refine ⟨h, ?_, ?_, ?_⟩ <;> simp [Moment.tasks]

theorem sound_visit {stimulus : Option Record} {archived : List DataLog} {left : Nat}
    (h : s.context.Stored) :
    Sound t (⟨.running [.visit stimulus t.nodes], s, archived, left⟩ : Moment σ ρ) := by
  have hn : t.nodes ⊆ flattenIn t.nodes := fun n hn => mem_flattenIn hn
  refine ⟨h, ?_, ?_, ?_⟩
  · simpa [Moment.tasks, Task.Within] using hn
  · simp [Moment.tasks]
  · simp [Moment.tasks, Task.Free]

theorem close_sound (h : s.context.Stored) (archived : List DataLog) (left : Nat) :
    Sound t (env.close t s archived left) := by
  simp only [close]
  split
  · exact sound_ended h
  · split
    · split
      · exact sound_ended h
      · exact sound_visit (Context.stored_reload _)
    · exact sound_ended (Context.stored_clearJump _)

section Tasks

variable {K : Task → Prop}

/-- What holds of the task that a session begins with, and of all tasks that come of one of which it
holds, holds of all tasks from one moment to the next. -/
theorem next_tasks (hv : K (.visit none t.nodes))
    (hk : ∀ {task} {s : Session σ ρ}, K task → ∀ other ∈ (env.perform task s).2.1, K other)
    (hm : ∀ task ∈ m.tasks, K task) (h : env.next t m = some m') : ∀ task ∈ m'.tasks, K task := by
  rcases next_inv h with ⟨-, rfl⟩ | ⟨task, rest, hc, rfl⟩
  · simp only [close]
    split
    · simp [Moment.tasks]
    · split
      · split <;> simp [Moment.tasks, hv]
      · simp [Moment.tasks]
  · have hm : ∀ other ∈ task :: rest, K other := by simpa [Moment.tasks, hc] using hm
    cases hflow : (env.perform task m.session).1 with
    | abort | failed => simp [Moment.tasks, Control.after]
    | next =>
        intro other ho
        rcases List.mem_append.mp ho with ho | ho
        · exact hk (hm task List.mem_cons_self) other ho
        · exact hm other (List.mem_cons_of_mem task ho)

theorem reaches_tasks (hv : K (.visit none t.nodes))
    (hk : ∀ {task} {s : Session σ ρ}, K task → ∀ other ∈ (env.perform task s).2.1, K other)
    (hm : ∀ task ∈ m.tasks, K task) (h : env.Reaches t m m') : ∀ task ∈ m'.tasks, K task := by
  induction h with
  | refl => exact hm
  | tail _ hn ih => exact next_tasks hv hk ih hn

end Tasks

theorem within_visit (stimulus : Option Record) : (Task.visit stimulus t.nodes).Within t.nodes :=
  fun _ hn => mem_flattenIn hn

theorem next_within (hw : ∀ task ∈ m.tasks, task.Within t.nodes) (h : env.next t m = some m') :
    ∀ task ∈ m'.tasks, task.Within t.nodes :=
  next_tasks (within_visit none) (perform_within env) hw h

theorem reaches_within (hw : ∀ task ∈ m.tasks, task.Within t.nodes) (h : env.Reaches t m m') :
    ∀ task ∈ m'.tasks, task.Within t.nodes :=
  reaches_tasks (within_visit none) (perform_within env) hw h

theorem next_sound (hm : ∀ p plan, .trial p plan ∈ flattenIn t.nodes → p.guard.members = .empty)
    (hs : Sound t m) (h : env.next t m = some m') : Sound t m' := by
  have hwithin := next_within hs.within h
  rcases next_inv h with ⟨-, rfl⟩ | ⟨task, rest, hc, rfl⟩
  · exact close_sound hs.stored m.archived m.left
  · have hst := perform_stored env hs.stored task
    have hw : task.Within t.nodes := hs.within task (by simp [Moment.tasks, hc])
    have hf : task.Free m.session.context := hs.free task (by simp [Moment.tasks, hc])
    have hrest : ∀ other ∈ rest, other.Resting := by
      intro other ho
      apply hs.resting other
      simpa [Moment.tasks, hc] using ho
    cases hflow : (env.perform task m.session).1 with
    | abort => exact sound_ended hst
    | failed e => exact sound_ended hst
    | next =>
        have hr := perform_resting env task m.session
        have hfree := perform_free env hm hw hf
        rw [hflow] at hwithin
        refine ⟨hst, hwithin, ?_, ?_⟩
        · cases hmore : (env.perform task m.session).2.1 with
          | nil =>
              intro other ho
              exact hrest other (List.mem_of_mem_tail ho)
          | cons first more =>
              rw [hmore] at hr
              intro other ho
              rcases List.mem_append.mp ho with ho | ho
              · exact hr other ho
              · exact hrest other ho
        · cases hmore : (env.perform task m.session).2.1 with
          | nil =>
              intro other ho
              have hresting := hrest other (List.mem_of_mem_head? ho)
              exact hresting.free _
          | cons first more =>
              rw [hmore] at hfree
              exact hfree

theorem reaches_sound (hm : ∀ p plan, .trial p plan ∈ flattenIn t.nodes → p.guard.members = .empty)
    (hs : Sound t m) (h : env.Reaches t m m') : Sound t m' := by
  induction h with
  | refl => exact hs
  | tail _ hn ih => exact next_sound hm ih hn

end Environment

end BranchingTimeline
