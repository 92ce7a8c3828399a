import BranchingTimeline.Proofs.Timeline.Forest
import BranchingTimeline.Session.Run

namespace BranchingTimeline

variable {σ ρ α : Type}

namespace Step

theorem andThen_next {a b : Step σ ρ} {s t : Session σ ρ} (h : a s = (.next, t)) :
    a.andThen b s = b t := by
  simp only [andThen, h]

theorem andThen_stop {a b : Step σ ρ} {s : Session σ ρ} (h : (a s).1 ≠ .next) :
    a.andThen b s = a s := by
  unfold andThen
  split
  · rename_i ha
    exact absurd (congrArg Prod.fst ha) h
  · exact ‹a s = _›.symm
  · exact ‹a s = _›.symm

theorem andThen_congr {a a' b : Step σ ρ} {s t : Session σ ρ} (h : a s = a' t) :
    a.andThen b s = a'.andThen b t := by
  simp only [andThen, h]

theorem next_or_stop (a : Step σ ρ) (s : Session σ ρ) :
    (∃ t, a s = (.next, t)) ∨ (a s).1 ≠ .next := by
  by_cases h : (a s).1 = .next
  · exact .inl ⟨(a s).2, Prod.ext h rfl⟩
  · exact .inr h

theorem andThen_eq_next {a b : Step σ ρ} {s u : Session σ ρ} :
    a.andThen b s = (.next, u) ↔ ∃ t, a s = (.next, t) ∧ b t = (.next, u) := by
  constructor
  · intro h
    rcases next_or_stop a s with ⟨t, ha⟩ | ha
    · exact ⟨t, ha, by rwa [andThen_next ha] at h⟩
    · rw [andThen_stop ha] at h
      exact absurd (congrArg Prod.fst h) ha
  · rintro ⟨t, ha, hb⟩
    rw [andThen_next ha, hb]

theorem andThen_assoc (a b c : Step σ ρ) : (a.andThen b).andThen c = a.andThen (b.andThen c) := by
  funext s
  rcases next_or_stop a s with ⟨t, ha⟩ | ha
  · rw [andThen_next ha]
    unfold andThen
    rw [ha]
  · rw [andThen_stop ha, andThen_stop (by rwa [andThen_stop ha]), andThen_stop ha]

theorem andThen_done (a : Step σ ρ) : a.andThen done = a := by
  funext s
  rcases next_or_stop a s with ⟨t, ha⟩ | ha
  · rw [andThen_next ha, ha]
    rfl
  · exact andThen_stop ha

theorem forEach_append {β : Type} (f : β → Step σ ρ) (l r : List β) :
    forEach f (l ++ r) = (forEach f l).andThen (forEach f r) := by
  induction l with
  | nil => rfl
  | cons x l ih =>
      funext s
      change (f x).andThen (forEach f (l ++ r)) s = ((f x).andThen (forEach f l)).andThen _ s
      rw [ih, andThen_assoc]

theorem times_forEach {β : Type} (f : β → Step σ ρ) (l : List β) (n : Nat) :
    times (forEach f l) n = forEach f (List.replicate n l).flatten := by
  induction n with
  | zero => rfl
  | succ n ih =>
      rw [List.replicate_succ, List.flatten_cons, forEach_append, ← ih]
      rfl

def onceMore (again : Session σ ρ → Bool × Session σ ρ) (a : Step σ ρ) : Step σ ρ := fun s =>
  match again s with
  | (true, t) => a t
  | (false, t) => (.next, t)

theorem rerun_succ (body : Nat → Step σ ρ) (again : Session σ ρ → Bool × Session σ ρ) (e : Error)
    (left run : Nat) :
    rerun body again e (left + 1) run =
      (body run).andThen (onceMore again (rerun body again e left (run + 1))) := rfl

variable {again : Session σ ρ → Bool × Session σ ρ}

inductive Rounds (body : Nat → Step σ ρ) (again : Session σ ρ → Bool × Session σ ρ) :
    Nat → Session σ ρ → Nat → Session σ ρ → Prop
  | refl (run : Nat) (s : Session σ ρ) : Rounds body again run s run s
  | next {run last : Nat} {s t u v : Session σ ρ} (hb : body run s = (.next, t))
      (hg : again t = (true, u)) (h : Rounds body again (run + 1) u last v) :
      Rounds body again run s last v

section Ends

variable {body : Nat → Step σ ρ} {e : Error} {left run last : Nat} {s t u v : Session σ ρ}

theorem Rounds.le (h : Rounds body again run s last v) : run ≤ last := by
  induction h with
  | refl => exact Nat.le_refl _
  | next hb hg h ih => exact Nat.le_of_succ_le ih

theorem Rounds.rerun_eq (h : Rounds body again run s last v) (left : Nat) {allowed : Nat}
    (hl : run + allowed = last + left) :
    rerun body again e allowed run s = rerun body again e left last v := by
  induction h generalizing allowed with
  | refl => rw [Nat.add_left_cancel hl]
  | next hb hg h ih =>
      have hle := h.le
      obtain ⟨allowed, rfl⟩ : ∃ k, allowed = k + 1 := ⟨allowed - 1, by omega⟩
      rw [rerun_succ, andThen_next hb, onceMore, hg]
      exact ih (by omega)

/-- All ways in which runs of a body can end: with the first one that asks for no other, with one that
stops, or when one more than is allowed was asked for. -/
inductive Ends (body : Nat → Step σ ρ) (again : Session σ ρ → Bool × Session σ ρ) (e : Error)
    (left run : Nat) (s : Session σ ρ) : Flow → Session σ ρ → Prop
  | settled {last : Nat} {u v w : Session σ ρ} (h : Rounds body again run s last v)
      (hl : last < run + left) (hb : body last v = (.next, w)) (hg : again w = (false, u)) :
      Ends body again e left run s .next u
  | stopped {last : Nat} {u v : Session σ ρ} {flow : Flow} (h : Rounds body again run s last v)
      (hl : last < run + left) (hb : body last v = (flow, u)) (hf : flow ≠ .next) :
      Ends body again e left run s flow u
  | exhausted {v : Session σ ρ} (h : Rounds body again run s (run + left) v) :
      Ends body again e left run s (.failed e) v

theorem Ends.next {flow : Flow} (hb : body run s = (.next, t)) (hg : again t = (true, u))
    (h : Ends body again e left (run + 1) u flow v) : Ends body again e (left + 1) run s flow v := by
  cases h with
  | settled h hl hlast hend => exact .settled (.next hb hg h) (by omega) hlast hend
  | stopped h hl hlast hf => exact .stopped (.next hb hg h) (by omega) hlast hf
  | exhausted h =>
      rw [Nat.add_right_comm] at h
      exact .exhausted (.next hb hg h)

theorem rerun_ends (body : Nat → Step σ ρ) (again : Session σ ρ → Bool × Session σ ρ) (e : Error)
    (left run : Nat) (s : Session σ ρ) :
    Ends body again e left run s (rerun body again e left run s).1 (rerun body again e left run s).2 := by
  induction left generalizing run s with
  | zero => exact .exhausted (.refl run s)
  | succ left ih =>
      rw [rerun_succ]
      rcases next_or_stop (body run) s with ⟨t, hb⟩ | hstop
      · rw [andThen_next hb, onceMore]
        cases hg : again t with
        | mk more u =>
            cases more with
            | false => exact .settled (.refl run s) (by omega) hb hg
            | true => exact .next hb hg (ih (run + 1) u)
      · rw [andThen_stop hstop]
        exact .stopped (.refl run s) (by omega) rfl hstop

theorem rerun_eq_next (h : rerun body again e left run s = (.next, u)) :
    ∃ last v w, Rounds body again run s last v ∧ body last v = (.next, w) ∧ again w = (false, u) := by
  have hends := rerun_ends body again e left run s
  rw [h] at hends
  cases hends with
  | settled h hl hb hg => exact ⟨_, _, _, h, hb, hg⟩
  | stopped h hl hb hf => exact absurd rfl hf

end Ends

def Leads (R : Session σ ρ → Session σ ρ → Prop) (a : Step σ ρ) : Prop := ∀ s, R s (a s).2

section Leads

variable {R : Session σ ρ → Session σ ρ → Prop}

theorem Leads.andThen {a b : Step σ ρ} (ht : ∀ {s t u}, R s t → R t u → R s u) (ha : Leads R a)
    (hb : Leads R b) : Leads R (a.andThen b) := by
  intro s
  have hs := ha s
  rcases next_or_stop a s with ⟨t, h⟩ | h
  · rw [h] at hs
    rw [andThen_next h]
    exact ht hs (hb t)
  · rwa [andThen_stop h]

theorem Leads.forEach {β : Type} {a : β → Step σ ρ} (hr : ∀ s, R s s)
    (ht : ∀ {s t u}, R s t → R t u → R s u) (ha : ∀ x, Leads R (a x)) (l : List β) :
    Leads R (forEach a l) := by
  induction l with
  | nil => exact hr
  | cons x l ih => exact (ha x).andThen ht ih

theorem Leads.onceMore {a : Step σ ρ} (ht : ∀ {s t u}, R s t → R t u → R s u)
    (hg : ∀ s, R s (again s).2) (ha : Leads R a) : Leads R (onceMore again a) := by
  intro s
  have hs := hg s
  unfold Step.onceMore
  split
  · rename_i t h
    rw [h] at hs
    exact ht hs (ha t)
  · rename_i t h
    rwa [h] at hs

theorem Leads.rerun {body : Nat → Step σ ρ} {e : Error} (hr : ∀ s, R s s)
    (ht : ∀ {s t u}, R s t → R t u → R s u) (hb : ∀ run, Leads R (body run))
    (hg : ∀ s, R s (again s).2) (left run : Nat) : Leads R (rerun body again e left run) := by
  induction left generalizing run with
  | zero => exact hr
  | succ left ih =>
      rw [rerun_succ]
      exact (hb run).andThen ht ((ih (run + 1)).onceMore ht hg)

end Leads

def Keeps (f : Session σ ρ → α) (a : Step σ ρ) : Prop := ∀ s, f (a s).2 = f s

variable {f : Session σ ρ → α}

theorem Keeps.andThen {a b : Step σ ρ} (ha : Keeps f a) (hb : Keeps f b) :
    Keeps f (a.andThen b) :=
  Leads.andThen (R := fun s t => f t = f s) (fun hs ht => ht.trans hs) ha hb

theorem Keeps.forEach {β : Type} {a : β → Step σ ρ} (ha : ∀ x, Keeps f (a x)) (l : List β) :
    Keeps f (forEach a l) :=
  Leads.forEach (R := fun s t => f t = f s) (fun _ => rfl) (fun hs ht => ht.trans hs) ha l

theorem Keeps.rerun {body : Nat → Step σ ρ} {e : Error} (hb : ∀ run, Keeps f (body run))
    (hg : ∀ s, f (again s).2 = f s) (left run : Nat) : Keeps f (rerun body again e left run) :=
  Leads.rerun (R := fun s t => f t = f s) (fun _ => rfl) (fun hs ht => ht.trans hs) hb hg left run

def Stops (Q : Flow → Session σ ρ → Prop) (a : Step σ ρ) : Prop :=
  ∀ s, (a s).1 ≠ .next → Q (a s).1 (a s).2

section Stops

variable {Q : Flow → Session σ ρ → Prop}

theorem Stops.of_next {g : Session σ ρ → Session σ ρ} : Stops Q fun s => (.next, g s) :=
  fun _ h => absurd rfl h

theorem Stops.andThen {a b : Step σ ρ} (ha : Stops Q a) (hb : Stops Q b) : Stops Q (a.andThen b) := by
  intro s
  rcases next_or_stop a s with ⟨t, h⟩ | h
  · rw [andThen_next h]
    exact hb t
  · rw [andThen_stop h]
    exact ha s

theorem Stops.forEach {β : Type} {a : β → Step σ ρ} (ha : ∀ x, Stops Q (a x)) (l : List β) :
    Stops Q (forEach a l) := by
  induction l with
  | nil => exact .of_next
  | cons x l ih => exact (ha x).andThen ih

theorem Stops.onceMore {a : Step σ ρ} (ha : Stops Q a) : Stops Q (onceMore again a) := by
  intro s
  unfold Step.onceMore
  cases again s with
  | mk more t =>
      cases more with
      | false => exact fun h => absurd rfl h
      | true => exact ha t

theorem Stops.rerun {body : Nat → Step σ ρ} {e : Error} (hb : ∀ run, Stops Q (body run))
    (he : ∀ s, Q (.failed e) s) (left run : Nat) : Stops Q (rerun body again e left run) := by
  induction left generalizing run with
  | zero => exact fun s _ => he s
  | succ left ih =>
      rw [rerun_succ]
      exact (hb run).andThen (ih (run + 1)).onceMore

end Stops

def Since (K : Event → Prop) (s t : Session σ ρ) : Prop :=
  ∃ new, t.trace = new ++ s.trace ∧ ∀ e ∈ new, K e

def Reports (K : Event → Prop) (a : Step σ ρ) : Prop :=
  ∀ s, ∃ new, (a s).2.trace = new ++ s.trace ∧ ∀ e ∈ new, K e

section Reports

variable {K : Event → Prop}

theorem Since.refl (s : Session σ ρ) : Since K s s := ⟨[], rfl, List.forall_mem_nil _⟩

theorem Since.trans {s t u : Session σ ρ} (hst : Since K s t) (htu : Since K t u) : Since K s u := by
  obtain ⟨old, hold, hk⟩ := hst
  obtain ⟨new, hnew, hk'⟩ := htu
  exact ⟨new ++ old, by rw [hnew, hold, List.append_assoc], List.forall_mem_append.mpr ⟨hk', hk⟩⟩

theorem Reports.of_trace {a : Step σ ρ} (h : ∀ s, (a s).2.trace = s.trace) : Reports K a :=
  fun s => ⟨[], h s, List.forall_mem_nil _⟩

theorem Reports.of_event {a : Step σ ρ} (e : Session σ ρ → Event) (he : ∀ s, K (e s))
    (h : ∀ s, (a s).2.trace = e s :: s.trace) : Reports K a := by
  intro s
  refine ⟨[e s], h s, ?_⟩
  rintro d hd
  rw [List.mem_singleton.mp hd]
  exact he s

theorem Reports.after {a : Step σ ρ} (ha : Reports K a) {s t : Session σ ρ} (old : List Event)
    (ht : t.trace = old ++ s.trace) (hold : ∀ e ∈ old, K e) :
    ∃ new, (a t).2.trace = new ++ s.trace ∧ ∀ e ∈ new, K e :=
  Since.trans ⟨old, ht, hold⟩ (ha t)

theorem Reports.andThen {a b : Step σ ρ} (ha : Reports K a) (hb : Reports K b) :
    Reports K (a.andThen b) := Leads.andThen (R := Since K) Since.trans ha hb

theorem Reports.forEach {β : Type} {a : β → Step σ ρ} (ha : ∀ x, Reports K (a x)) (l : List β) :
    Reports K (forEach a l) := Leads.forEach (R := Since K) Since.refl Since.trans ha l

theorem Reports.rerun {body : Nat → Step σ ρ} {e : Error} (hb : ∀ run, Reports K (body run))
    (hg : ∀ s, (again s).2.trace = s.trace) (left run : Nat) :
    Reports K (rerun body again e left run) :=
  Leads.rerun (R := Since K) Since.refl Since.trans hb (fun s => ⟨[], hg s, List.forall_mem_nil _⟩) left run

end Reports

/-- From sessions related by `P`, two runs of a step go the same way and end in sessions related
by `E`, and by `Q` if they go on. -/
def Couples (P E Q : Session σ ρ → Session σ ρ → Prop) (a : Step σ ρ) : Prop :=
  ∀ s t, P s t → (a s).1 = (a t).1 ∧ E (a s).2 (a t).2 ∧ ((a s).1 = .next → Q (a s).2 (a t).2)

variable {P E Q R : Session σ ρ → Session σ ρ → Prop}

theorem Couples.andThen {a b : Step σ ρ} (ha : Couples P E Q a) (hb : Couples Q E R b) :
    Couples P E R (a.andThen b) := by
  intro s t h
  obtain ⟨hf, he, hn⟩ := ha s t h
  rcases next_or_stop a s with ⟨s', hs⟩ | hs
  · have ht : a t = (.next, (a t).2) := Prod.ext (by rw [← hf, hs]) rfl
    have hq := hn (congrArg Prod.fst hs)
    rw [hs] at hq
    rw [andThen_next hs, andThen_next ht]
    exact hb s' _ hq
  · have ht : (a t).1 ≠ .next := hf ▸ hs
    rw [andThen_stop hs, andThen_stop ht]
    exact ⟨hf, he, fun h => absurd h hs⟩

theorem Couples.forEach {β : Type} {a : β → Step σ ρ} (ha : ∀ x, Couples P P P (a x))
    (l : List β) : Couples P P P (forEach a l) := by
  induction l with
  | nil =>
      intro s t h
      exact ⟨rfl, h, fun _ => h⟩
  | cons x l ih => exact (ha x).andThen ih

theorem Couples.onceMore {a : Step σ ρ} (hE : ∀ s t, Q s t → E s t)
    (hg : ∀ s t, Q s t → (again s).1 = (again t).1 ∧ Q (again s).2 (again t).2)
    (ha : Couples Q E Q a) : Couples Q E Q (onceMore again a) := by
  intro s t h
  obtain ⟨he, hq⟩ := hg s t h
  unfold Step.onceMore
  cases hs : again s with
  | mk x s' =>
      cases ht : again t with
      | mk y t' =>
          rw [hs, ht] at he hq
          obtain rfl : x = y := he
          cases x with
          | false => exact ⟨rfl, hE _ _ hq, fun _ => hq⟩
          | true => exact ha s' t' hq

theorem Couples.rerun {body : Nat → Step σ ρ} {e : Error} (hPE : ∀ s t, P s t → E s t)
    (hQP : ∀ s t, Q s t → P s t) (hb : ∀ run, Couples P E Q (body run))
    (hg : ∀ s t, Q s t → (again s).1 = (again t).1 ∧ Q (again s).2 (again t).2)
    (left run : Nat) : Couples P E Q (rerun body again e left run) := by
  induction left generalizing run with
  | zero =>
      intro s t h
      exact ⟨rfl, hPE s t h, nofun⟩
  | succ left ih =>
      rw [rerun_succ]
      apply (hb run).andThen
      apply Couples.onceMore _ hg
      · intro s t h
        exact ih (run + 1) s t (hQP s t h)
      · intro s t h
        exact hPE s t (hQP s t h)

end Step

namespace Environment

open Step

variable (env : Environment σ ρ)

def work (stimulus : Option Record) : Node → Step σ ρ
  | .trial p t => fun s => (.next, env.present t p.guard.scope stimulus s)
  | .loop _ l items => env.reruns l items fun row => env.runNodes row items

def hook (n : Node) (s : Session σ ρ) : FinishOutcome × Context :=
  match n with
  | .trial _ t => s.context.finishTrial t.finish s.log.latest
  | .loop _ l _ => s.context.finishLoop l s.log.latest

def reportedId : Node → ItemId
  | .trial _ t => t.id
  | .loop _ l _ => l.id

def conclude (n : Node) : Step σ ρ := fun s => reportFinish (reportedId n) (hook n s) s

def execute (stimulus : Option Record) (n : Node) : Step σ ρ :=
  (env.work stimulus n).andThen (conclude n)

theorem runNode_eq (stimulus : Option Record) (n : Node) :
    env.runNode stimulus n = guarded n.place (env.execute stimulus n) := by
  cases n <;> simp only [runNode] <;> rfl

theorem runNodes_nil (stimulus : Option Record) : env.runNodes stimulus [] = done := by
  simp only [runNodes]

theorem runNodes_cons (stimulus : Option Record) (n : Node) (r : List Node) :
    env.runNodes stimulus (n :: r) = (env.runNode stimulus n).andThen (env.runNodes stimulus r) := by
  simp only [runNodes]

theorem runNodes_append (stimulus : Option Record) (l r : List Node) :
    env.runNodes stimulus (l ++ r) = (env.runNodes stimulus l).andThen (env.runNodes stimulus r) := by
  induction l with
  | nil => rw [runNodes_nil]; rfl
  | cons n l ih => rw [List.cons_append, runNodes_cons, runNodes_cons, ih, andThen_assoc]

def begun (place : Place) (c : Context) : Context :=
  if place.guard.beginsPass then c.resetPass place.guard.scope else c

theorem consult_eq (place : Place) (s : Session σ ρ) :
    consult place s = (((begun place s.context).decide place.guard).1,
      s.withContext ((begun place s.context).decide place.guard).2) := rfl

theorem guarded_skip {place : Place} {body : Step σ ρ} {s : Session σ ρ}
    (h : (consult place s).1.runs = false) :
    guarded place body s =
      (.next, (consult place s).2.report (.skipped place.guard.id (consult place s).1)) := by
  simp only [guarded, h, Bool.false_eq_true, if_false]

theorem guarded_run {place : Place} {body : Step σ ρ} {s : Session σ ρ}
    (h : (consult place s).1.runs = true) :
    guarded place body s = body.andThen (fun s => (.next, leave place s)) (consult place s).2 := by
  simp only [guarded, h, if_true]

theorem reportFinish_context (id : ItemId) (r : FinishOutcome × Context) (s : Session σ ρ) :
    (reportFinish id r s).2.context = r.2 := by
  obtain ⟨o, c⟩ := r
  cases o <;> rfl

theorem reportFinish_completes (id : ItemId) (r : FinishOutcome × Context) (s : Session σ ρ) (e : Error) :
    (reportFinish id r s).1 ≠ .failed e := by
  simp only [reportFinish]
  split <;> simp

/-- The passes of one run of a loop: for every repetition one for each row, or one without a row. -/
def stimuliFor (l : LoopPlan) (rows : List Record) : List (Option Record) :=
  (List.replicate l.repetitions.toNat (if rows.isEmpty then [none] else rows.map some)).flatten

def openRun (l : LoopPlan) (run : Nat) (s : Session σ ρ) : List (Option Record) × Session σ ρ :=
  let s := (s.withContext (s.context.enterLoop l.scope)).report (.loopRun l.id run)
  let (rows, s) := env.rowsFor l s
  (stimuliFor l rows, s)

theorem passes_eq (pass : Option Record → Step σ ρ) (rows : List Record) :
    passes pass rows = forEach pass (if rows.isEmpty then [none] else rows.map some) := by
  unfold passes
  split
  · exact (andThen_done _).symm
  · induction rows with
    | nil => rfl
    | cons row rows ih =>
        cases rows with
        | nil => rfl
        | cons next rows =>
            exact congrArg (Step.andThen (pass (some row))) (ih (by simp))

theorem loopBody_eq (l : LoopPlan) (pass : Option Record → Step σ ρ) (run : Nat)
    (s : Session σ ρ) :
    env.loopBody l pass run s = forEach pass (env.openRun l run s).1 (env.openRun l run s).2 := by
  simp only [loopBody, passes_eq, times_forEach]
  rfl

theorem rowsFor_eq (l : LoopPlan) (s : Session σ ρ) :
    ∃ a, (env.rowsFor l s).2 = { s with arranger := a } := by
  unfold rowsFor
  split
  · exact ⟨_, rfl⟩
  · exact ⟨_, rfl⟩

theorem openRun_eq (l : LoopPlan) (run : Nat) (s : Session σ ρ) :
    ∃ a, (env.openRun l run s).2 =
      { s with context := s.context.enterLoop l.scope, trace := .loopRun l.id run :: s.trace, arranger := a } :=
  env.rowsFor_eq l _

/-- What holds of all that is done for a single node of some kind, and of every combination of steps
of which it holds, holds of a whole sequence of such nodes. -/
theorem runNodes_induction {P : Step σ ρ → Prop} {C : Node → Prop} (hd : P done)
    (ha : ∀ {a b}, P a → P b → P (a.andThen b)) (hg : ∀ {place a}, P a → P (guarded place a))
    (hc : ∀ n, C n → P (conclude n)) (ht : ∀ row p plan, P (env.work row (.trial p plan)))
    (hl : ∀ {p l items pass}, C (.loop p l items) → (∀ row, P (pass row)) →
      P (env.reruns l items pass))
    (stimulus : Option Record) (nodes : List Node) (h : ∀ n ∈ Node.flattenIn nodes, C n) :
    P (env.runNodes stimulus nodes) := by
  induction nodes using Node.forest_induction generalizing stimulus with
  | nil =>
      rw [runNodes_nil]
      exact hd
  | trial p plan r ih =>
      simp only [Node.flattenIn_cons, Node.flatten_trial, List.forall_mem_append,
        List.forall_mem_singleton] at h
      rw [runNodes_cons, runNode_eq]
      exact ha (hg (ha (ht stimulus p plan) (hc _ h.1))) (ih stimulus h.2)
  | loop p l items r ihItems ih =>
      simp only [Node.flattenIn_cons, Node.flatten_loop, List.forall_mem_append,
        List.forall_mem_cons] at h
      obtain ⟨⟨hloop, hitems⟩, hr⟩ := h
      rw [runNodes_cons, runNode_eq]
      exact ha (hg (ha (hl hloop fun row => ihItems row hitems) (hc _ hloop))) (ih stimulus hr)

theorem stops_guarded {Q : Flow → Session σ ρ → Prop} {place : Place} {body : Step σ ρ}
    (hb : Stops Q body) : Stops Q (guarded place body) := by
  intro s
  cases h : (consult place s).1.runs with
  | false =>
      rw [guarded_skip h]
      exact fun hn => absurd rfl hn
  | true =>
      rw [guarded_run h]
      exact (hb.andThen .of_next) _

theorem stops_runNodes {Q : Flow → Session σ ρ → Prop} {C : Node → Prop}
    (hc : ∀ n, C n → Stops Q (conclude n))
    (hl : ∀ p l items, C (.loop p l items) → ∀ s, Q (.failed (overLimit env.settings.maxLoopRuns
      (.loopLimit l.id env.settings.maxLoopRuns))) s)
    (stimulus : Option Record) (nodes : List Node) (h : ∀ n ∈ Node.flattenIn nodes, C n) :
    Stops Q (env.runNodes stimulus nodes) := by
  refine env.runNodes_induction .of_next .andThen stops_guarded hc (fun _ _ _ => .of_next) ?_ stimulus
    nodes h
  intro p l items pass hloop hp
  refine Stops.rerun ?_ (hl p l items hloop) _ _
  intro run s
  rw [loopBody_eq]
  exact Stops.forEach hp _ _

theorem run_eq_ok {t : Timeline} {responses : σ} {arranger : ρ} {o : Outcome} :
    env.run t responses arranger = .ok o ↔
      env.sessions t 0 [] (start responses arranger) env.settings.maxRestarts.toNat = (none, o) := by
  unfold run
  cases env.sessions t 0 [] (start responses arranger) env.settings.maxRestarts.toNat with
  | mk e o' => cases e <;> simp

theorem run_eq_error {t : Timeline} {responses : σ} {arranger : ρ} {e : Error} :
    env.run t responses arranger = .error e ↔
      (env.sessions t 0 [] (start responses arranger) env.settings.maxRestarts.toNat).1 = some e := by
  unfold run
  cases env.sessions t 0 [] (start responses arranger) env.settings.maxRestarts.toNat with
  | mk e' o => cases e' <;> simp

def silent : Environment Unit Unit := ⟨.default, fun _ _ _ s => (.empty, s), RowOrder.keep⟩

end Environment

end BranchingTimeline
