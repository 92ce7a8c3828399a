import BranchingTimeline.Proofs.Session.Frame

namespace BranchingTimeline

/-- Two contexts that are alike except for the flags of scopes outside `A`. -/
structure Context.Agree (A : Scope → Prop) (c d : Context) : Prop where
  store : c.jumpStore = d.jumpStore
  memory : c.jumpMemory = d.jumpMemory
  aborted : c.aborted = d.aborted
  flags : ∀ x, A x → c.flags x = d.flags x

namespace Context.Agree

variable {A : Scope → Prop} {c d : Context}

theorem pendingJump (h : Agree A c d) : c.pendingJump = d.pendingJump := by
  simp only [Context.pendingJump, h.store, h.memory]

theorem mono {B : Scope → Prop} (h : Agree A c d) (hB : ∀ x, B x → A x) : Agree B c d :=
  ⟨h.store, h.memory, h.aborted, fun x hx => h.flags x (hB x hx)⟩

theorem update (h : Agree A c d) (y : Scope) (f : Flags → Flags) :
    Agree A (c.update y f) (d.update y f) where
  store := by simp only [jumpStore_update, h.store]
  memory := by simp only [jumpMemory_update, h.memory]
  aborted := by simp only [aborted_update, h.aborted]
  flags := by
    intro x hx
    rw [flags_update, flags_update]
    split
    · rename_i he
      rw [h.flags y (he ▸ hx)]
    · exact h.flags x hx

theorem enterLoop (h : Agree A c d) (y : Scope) :
    Agree (fun x => x = y ∨ A x) (c.enterLoop y) (d.enterLoop y) := by
  have hu := h.update y fun _ => .clear
  refine ⟨hu.store, hu.memory, hu.aborted, ?_⟩
  rintro x (rfl | hx)
  · simp only [Context.enterLoop, flags_update, if_true]
  · exact hu.flags x hx

theorem setJump (h : Agree A c d) (target : ItemId) :
    Agree A (c.setJump target) (d.setJump target) := by
  refine ⟨rfl, rfl, h.aborted, ?_⟩
  intro x hx
  rw [flags_setJump, flags_setJump, h.flags x hx]

theorem clearJump (h : Agree A c d) : Agree A c.clearJump d.clearJump := by
  refine ⟨rfl, rfl, h.aborted, ?_⟩
  intro x hx
  rw [flags_clearJump, flags_clearJump, h.flags x hx]

theorem abort (h : Agree A c d) (reason : String) : Agree A (c.abort reason) (d.abort reason) := by
  refine ⟨h.store, h.memory, rfl, ?_⟩
  intro x hx
  rw [flags_abort, flags_abort, h.flags x hx]

theorem decide (h : Agree A c d) {g : Guard} (hg : A g.scope) :
    (c.decide g).1 = (d.decide g).1 ∧ Agree A (c.decide g).2 (d.decide g).2 := by
  have hi := h.update g.scope id
  have hf := hi.flags g.scope hg
  unfold Context.decide
  rw [h.pendingJump]
  split
  · split
    · exact ⟨rfl, h.clearJump⟩
    · split <;> exact ⟨rfl, h⟩
  · simp only [hf]
    split
    · exact ⟨rfl, hi⟩
    · split
      · exact ⟨rfl, hi⟩
      · split
        · exact ⟨rfl, hi.update g.scope fun f => { f with targetExecuted := true }⟩
        · exact ⟨rfl, hi⟩

theorem takeBranch (h : Agree A c d) (b : BranchPlan) (latest : Lookup) :
    (c.takeBranch b latest).1 = (d.takeBranch b latest).1 ∧
      Agree A (c.takeBranch b latest).2 (d.takeBranch b latest).2 := by
  unfold Context.takeBranch
  split
  · rename_i choice _
    refine ⟨rfl, ?_⟩
    cases b.routeFor choice.target with
    | jump => exact h.setJump _
    | scope s => exact h.update _ _
  · exact ⟨rfl, h⟩

theorem escalate (h : Agree A c d) (s : Scope) :
    (c.escalate s).1 = (d.escalate s).1 ∧ Agree A (c.escalate s).2 (d.escalate s).2 :=
  ⟨rfl, h.update s fun f => { f with shouldBranch := true }⟩

theorem finishTrial (h : Agree A c d) (f : FinishPlan) (latest : Lookup) :
    (c.finishTrial f latest).1 = (d.finishTrial f latest).1 ∧
      Agree A (c.finishTrial f latest).2 (d.finishTrial f latest).2 := by
  unfold Context.finishTrial
  split
  · exact ⟨rfl, h.setJump _⟩
  · split
    · exact h.takeBranch _ _
    · exact h.escalate _
    · exact ⟨rfl, h⟩

theorem finishLoop (h : Agree A c d) {l : LoopPlan} (hl : A l.scope)
    (ht : l.terminal = true → A .root) (latest : Lookup) :
    (c.finishLoop l latest).1 = (d.finishLoop l latest).1 ∧
      Agree A (c.finishLoop l latest).2 (d.finishLoop l latest).2 := by
  have hi := h.update l.scope id
  unfold Context.finishLoop
  rw [h.pendingJump]
  split
  · exact ⟨rfl, h⟩
  · split
    · exact ⟨rfl, h.setJump _⟩
    · split
      · simp only [hi.flags l.scope hl]
        split
        · exact (hi.update _ _).takeBranch _ _
        · exact ⟨rfl, hi⟩
      · exact h.escalate _
      · have hroot : l.terminal = true → c.root = d.root := fun hl => h.flags .root (ht hl)
        cases hlt : l.terminal with
        | false => exact ⟨rfl, h⟩
        | true =>
            rw [hroot hlt]
            split
            · exact ⟨rfl, h.abort _⟩
            · exact ⟨rfl, h⟩

theorem continueLoop (h : Agree A c d) (l : LoopPlan) (items : List Node) (log : DataLog) :
    (c.continueLoop l items log).1 = (d.continueLoop l items log).1 ∧
      Agree A (c.continueLoop l items log).2 (d.continueLoop l items log).2 := by
  unfold Context.continueLoop
  rw [h.pendingJump]
  split
  · split
    · exact ⟨rfl, h.clearJump⟩
    · exact ⟨rfl, h⟩
  · exact ⟨rfl, h⟩

end Context.Agree

structure Session.Alike {σ ρ : Type} (A : Scope → Prop) (s t : Session σ ρ) : Prop where
  context : s.context.Agree A t.context
  log : s.log = t.log
  trace : s.trace = t.trace
  responses : s.responses = t.responses
  arranger : s.arranger = t.arranger

namespace Session.Alike

variable {σ ρ : Type} {A : Scope → Prop} {s t : Session σ ρ}

theorem mono {B : Scope → Prop} (h : Alike A s t) (hB : ∀ x, B x → A x) : Alike B s t :=
  { h with context := h.context.mono hB }

theorem withContext (h : Alike A s t) {c d : Context} (hc : c.Agree A d) :
    Alike A (s.withContext c) (t.withContext d) :=
  { h with context := hc }

theorem report (h : Alike A s t) (e : Event) : Alike A (s.report e) (t.report e) :=
  { h with trace := congrArg (e :: ·) h.trace }

end Session.Alike

namespace Environment

open Step Compile Node

variable {σ ρ : Type} {env : Environment σ ρ} {A : Scope → Prop}

theorem alike_consult {place : Place} (hg : A place.guard.scope) {s t : Session σ ρ}
    (h : s.Alike A t) :
    (consult place s).1 = (consult place t).1 ∧
      (consult place s).2.Alike A (consult place t).2 := by
  have hb : (begun place s.context).Agree A (begun place t.context) := by
    unfold begun
    split
    · exact h.context.update _ _
    · exact h.context
  obtain ⟨hd, hc⟩ := hb.decide hg
  rw [consult_eq, consult_eq]
  exact ⟨hd, h.withContext hc⟩

theorem couples_leave (place : Place) :
    Couples (Session.Alike A) (Session.Alike A) (Session.Alike A)
      (fun s : Session σ ρ => (.next, leave place s)) := by
  intro s t h
  have hl : (leave place s).Alike A (leave place t) := by
    unfold leave
    split
    · exact h.withContext (h.context.update _ _)
    · exact h
  exact ⟨rfl, hl, fun _ => hl⟩

theorem couples_guarded {place : Place} {body : Step σ ρ} (hg : A place.guard.scope)
    (hb : Couples (Session.Alike A) (Session.Alike A) (Session.Alike A) body) :
    Couples (Session.Alike A) (Session.Alike A) (Session.Alike A) (guarded place body) := by
  intro s t h
  obtain ⟨hd, hc⟩ := alike_consult hg h
  cases hs : (consult place s).1.runs with
  | false =>
      rw [guarded_skip hs, guarded_skip (hd ▸ hs), ← hd]
      exact ⟨rfl, hc.report _, fun _ => hc.report _⟩
  | true =>
      rw [guarded_run hs, guarded_run (hd ▸ hs)]
      exact hb.andThen (couples_leave place) _ _ hc

theorem couples_reportFinish (id : ItemId) {hook : Session σ ρ → FinishOutcome × Context}
    {P : Session σ ρ → Session σ ρ → Prop} (hP : ∀ s t, P s t → s.Alike A t)
    (hh : ∀ s t, P s t → (hook s).1 = (hook t).1 ∧ (hook s).2.Agree A (hook t).2) :
    Couples P (Session.Alike A) (Session.Alike A) (fun s => reportFinish id (hook s) s) := by
  intro s t h
  obtain ⟨ho, hc⟩ := hh s t h
  have hw := (hP s t h).withContext hc
  simp only [reportFinish, ho]
  split
  · exact ⟨rfl, hw, fun _ => hw⟩
  · exact ⟨rfl, hw.report _, by simp⟩
  · exact ⟨rfl, hw.report _, fun _ => hw.report _⟩

theorem alike_present (t : TrialPlan) {scope : Scope} (hg : A scope) (stimulus : Option Record)
    {s u : Session σ ρ} (h : s.Alike A u) :
    (env.present t scope stimulus s).Alike A (env.present t scope stimulus u) := by
  have hp : parametersFor t scope s = parametersFor t scope u := by
    unfold parametersFor Context.customParametersFor
    rw [h.log, h.context.flags scope hg]
  unfold present
  rw [hp, h.responses]
  exact ⟨h.context, congrArg (DataLog.record · _ _ _) h.log,
    congrArg (_ :: ·) h.trace, rfl, h.arranger⟩

theorem alike_rowsFor (l : LoopPlan) {s t : Session σ ρ} (h : s.Alike A t) :
    (env.rowsFor l s).1 = (env.rowsFor l t).1 ∧
      (env.rowsFor l s).2.Alike A (env.rowsFor l t).2 := by
  simp only [rowsFor, h.arranger]
  split
  · exact ⟨rfl, { h with arranger := rfl }⟩
  · exact ⟨rfl, h⟩

theorem alike_openRun (l : LoopPlan) (run : Nat) {s t : Session σ ρ} (h : s.Alike A t) :
    (env.openRun l run s).1 = (env.openRun l run t).1 ∧
      (env.openRun l run s).2.Alike (fun x => x = l.scope ∨ A x) (env.openRun l run t).2 := by
  have he : ((s.withContext (s.context.enterLoop l.scope)).report (.loopRun l.id run)).Alike
      (fun x => x = l.scope ∨ A x)
      ((t.withContext (t.context.enterLoop l.scope)).report (.loopRun l.id run)) :=
    ⟨h.context.enterLoop l.scope, h.log, congrArg (_ :: ·) h.trace, h.responses, h.arranger⟩
  obtain ⟨hr, ha⟩ := env.alike_rowsFor l he
  exact ⟨congrArg (stimuliFor l) hr, ha⟩

theorem couples_reruns {l : LoopPlan} {items : List Node} {pass : Option Record → Step σ ρ}
    (hp : ∀ row, Couples (Session.Alike fun x => x = l.scope ∨ A x)
      (Session.Alike fun x => x = l.scope ∨ A x) (Session.Alike fun x => x = l.scope ∨ A x)
      (pass row)) :
    Couples (Session.Alike A) (Session.Alike A) (Session.Alike fun x => x = l.scope ∨ A x)
      (env.reruns l items pass) := by
  have hmono : ∀ s t : Session σ ρ, s.Alike (fun x => x = l.scope ∨ A x) t → s.Alike A t := by
    intro s t h
    exact h.mono fun _ => .inr
  refine Couples.rerun (fun _ _ h => h) hmono ?_ ?_ _ _
  · intro run s t h
    obtain ⟨hr, ho⟩ := env.alike_openRun l run h
    rw [loopBody_eq, loopBody_eq, ← hr]
    obtain ⟨hf, he, hn⟩ := Couples.forEach hp (env.openRun l run s).1 _ _ ho
    exact ⟨hf, hmono _ _ he, hn⟩
  · intro s t h
    obtain ⟨ha, hc⟩ := h.context.continueLoop l items s.log
    unfold askAgain
    rw [← h.log]
    exact ⟨ha, h.withContext hc⟩

theorem couples_trial (p : Place) (t : TrialPlan) (stimulus : Option Record)
    (hg : A p.guard.scope) :
    Couples (Session.Alike A) (Session.Alike A) (Session.Alike A)
      (env.execute stimulus (.trial p t)) := by
  have hw : Couples (Session.Alike A) (Session.Alike A) (Session.Alike A)
      (env.work stimulus (.trial p t)) := by
    intro s u h
    have ha := env.alike_present t hg stimulus h
    exact ⟨rfl, ha, fun _ => ha⟩
  refine hw.andThen (couples_reportFinish _ (fun _ _ h => h) ?_)
  intro s u h
  simp only [hook, h.log]
  exact h.context.finishTrial t.finish u.log.latest

theorem couples_loop (p : Place) {l : LoopPlan} {items : List Node} (stimulus : Option Record)
    (ht : l.terminal = true → A .root)
    (hp : ∀ row, Couples (Session.Alike fun x => x = l.scope ∨ A x)
      (Session.Alike fun x => x = l.scope ∨ A x) (Session.Alike fun x => x = l.scope ∨ A x)
      (env.runNodes row items)) :
    Couples (Session.Alike A) (Session.Alike A) (Session.Alike A)
      (env.execute stimulus (.loop p l items)) := by
  refine (couples_reruns hp).andThen (couples_reportFinish _ (fun _ _ h => h.mono fun _ => .inr) ?_)
  intro s u h
  simp only [hook, h.log]
  obtain ⟨ho, hc⟩ := h.context.finishLoop (.inl rfl) (fun hl => .inr (ht hl)) u.log.latest
  exact ⟨ho, hc.mono fun _ => .inr⟩

theorem terminal_root {around : Surroundings} {index : Nat} {later : List ItemId} {l : Loop}
    {items : List Item} {scope : Scope} {inner : List Node} {p : Place} {plan : LoopPlan}
    (h : loopNode around index later l items scope inner = .loop p plan inner)
    (ht : plan.terminal = true) : around.scope = .root := by
  cases h
  simp only [loopPlan, Bool.and_eq_true] at ht
  simpa [Scope.isRoot] using ht.2

/-- A sequence sees no flags but those of its own scope: whatever other scopes hold, it goes the
same way, and two sessions stay alike in every scope in which they were. -/
theorem couples_runNodes {around : Surroundings} {index : Nat} {items : List Item}
    {nodes : List Node} (h : Compiled around index items nodes) (hA : A around.scope)
    (stimulus : Option Record) :
    Couples (Session.Alike A) (Session.Alike A) (Session.Alike A)
      (env.runNodes stimulus nodes) := by
  induction h generalizing A stimulus with
  | nil =>
      rw [runNodes_nil]
      intro s t h
      exact ⟨rfl, h, fun _ => h⟩
  | trial hr ih =>
      rw [runNodes_cons, runNode_eq]
      exact (couples_guarded hA (couples_trial _ _ stimulus hA)).andThen (ih hA stimulus)
  | loop name hi hr ihInner ih =>
      rw [runNodes_cons, runNode_eq]
      refine (couples_guarded hA (couples_loop _ stimulus ?_ ?_)).andThen (ih hA stimulus)
      · intro ht
        exact terminal_root rfl ht ▸ hA
      · intro row
        exact ihInner (.inl rfl) row

theorem couples_execute {around : Surroundings} {index : Nat} {later : List ItemId} {item : Item}
    {n : Node} (h : NodeOf around index later item n) (hA : A around.scope)
    (stimulus : Option Record) :
    Couples (Session.Alike A) (Session.Alike A) (Session.Alike A) (env.execute stimulus n) := by
  cases h with
  | trial t => exact couples_trial _ _ stimulus hA
  | loop name hi =>
      refine couples_loop _ stimulus ?_ ?_
      · intro ht
        exact terminal_root rfl ht ▸ hA
      · intro row
        exact couples_runNodes hi (.inl rfl) row

end Environment

end BranchingTimeline
