import Mathlib
import BranchingTimeline.Session.Finish

namespace BranchingTimeline

namespace BranchPlan

theorem mem_of_select {b : BranchPlan} {latest : Lookup} {choice : BranchChoice}
    (h : b.select latest = some choice) :
    choice.target ∈ b.branches ∨ ∃ c ∈ b.conditions, c.effect.destination = some choice.target := by
  unfold select at h
  split at h
  · cases h
  · rename_i target hb
    cases h
    exact .inl (by simp [hb])
  · rename_i target _ _ hb
    cases hs : satisfied b.conditions latest with
    | none =>
        rw [hs] at h
        cases h
        exact .inl (by simp [hb])
    | some taken =>
        rw [hs] at h
        cases h
        obtain ⟨c, hc, hsome⟩ := List.exists_of_findSome?_eq_some hs
        cases hd : c.effect.destination with
        | none => simp [hd] at hsome
        | some x =>
            simp only [hd, Option.bind_eq_bind, Option.bind_some] at hsome
            split at hsome
            · cases hsome
              exact .inr ⟨c, hc, hd⟩
            · cases hsome

theorem exists_select {b : BranchPlan} (h : b.branches ≠ []) (latest : Lookup) :
    ∃ choice, b.select latest = some choice := by
  unfold select
  split
  · contradiction
  · exact ⟨_, rfl⟩
  · exact ⟨_, rfl⟩

end BranchPlan

def FinishOutcome.jump? : FinishOutcome → Option ItemId
  | repeated x | branched x .jump => some x
  | _ => none

theorem mem_of_repeatTarget {repeats : List RepeatCondition} {latest : Lookup} {x : ItemId}
    (h : repeatTarget repeats latest = some x) :
    ∃ c ∈ repeats, c.effect.destination = some x := by
  obtain ⟨c, hc, hsome⟩ := List.exists_of_findSome?_eq_some h
  cases hd : c.effect.destination with
  | none => simp [hd] at hsome
  | some y =>
      simp only [hd, Option.bind_eq_bind, Option.bind_some] at hsome
      split at hsome
      · cases hsome
        exact ⟨c, hc, hd⟩
      · cases hsome

namespace Context

variable {c : Context} {x : Scope}

/-- All that a guard can do in a context. -/
inductive Decides (g : Guard) (c : Context) : Decision → Context → Prop
  | jumpTarget (hp : c.pendingJump = some g.id) : Decides g c .jumpTarget c.clearJump
  | jumpThrough {x : ItemId} (hp : c.pendingJump = some x) (hx : x ≠ g.id)
      (hm : g.members.contains x = true) : Decides g c .jumpThrough c
  | skippedForJump {x : ItemId} (hp : c.pendingJump = some x) (hx : x ≠ g.id)
      (hm : g.members.contains x = false) : Decides g c .skippedForJump c
  | normal (hp : c.pendingJump = none) (ht : (c.flags g.scope).targetExecuted = false)
      (hs : (c.flags g.scope).skipRemaining = false) : Decides g c .normal (c.update g.scope id)
  | branchTarget (hp : c.pendingJump = none) (ht : (c.flags g.scope).targetExecuted = false)
      (hs : (c.flags g.scope).skipRemaining = true)
      (hn : (c.flags g.scope).nextTrial = some g.id) :
      Decides g c .branchTarget
        ((c.update g.scope id).update g.scope fun f => { f with targetExecuted := true })
  | skippedForBranch (hp : c.pendingJump = none)
      (hb : (c.flags g.scope).targetExecuted = true ∨ (c.flags g.scope).skipRemaining = true ∧
        (c.flags g.scope).nextTrial ≠ some g.id) :
      Decides g c .skippedForBranch (c.update g.scope id)

theorem decides (c : Context) (g : Guard) : Decides g c (c.decide g).1 (c.decide g).2 := by
  cases hp : c.pendingJump with
  | some x =>
      simp only [decide, hp]
      split
      · rename_i hx
        exact .jumpTarget (hx ▸ hp)
      · split
        · exact .jumpThrough hp ‹_› ‹_›
        · exact .skippedForJump hp ‹_› (by simpa using ‹¬g.members.contains x = true›)
  | none =>
      simp only [decide, hp, flags_update, if_true, id]
      split
      · exact .skippedForBranch hp (.inl ‹_›)
      · rename_i ht
        have ht := eq_false_of_ne_true ht
        cases hs : (c.flags g.scope).skipRemaining with
        | false => exact .normal hp ht hs
        | true =>
            simp only [Bool.not_true, Bool.false_eq_true, if_false]
            split
            · exact .branchTarget hp ht hs ‹_›
            · exact .skippedForBranch hp (.inr ⟨hs, ‹_›⟩)

theorem Decides.pendingJump {g : Guard} {d : Decision} {c' : Context} (h : Decides g c d c') (hd : d.runs = true)
    (hm : g.members = .empty) : c'.pendingJump = none := by
  cases h with
  | jumpTarget hj => rfl
  | jumpThrough hj hx hc =>
      rw [hm] at hc
      cases hc
  | skippedForJump hj hx hc => cases hd
  | normal hp ht hs => simpa using hp
  | branchTarget hp ht hs hn => simpa using hp
  | skippedForBranch hp hb => cases hd

inductive FinishesTrial (f : FinishPlan) (latest : Lookup) (c : Context) :
    FinishOutcome → Context → Prop
  | repeated {x : ItemId} (hr : repeatTarget f.repeats latest = some x) :
      FinishesTrial f latest c (.repeated x) (c.setJump x)
  | branched {b : BranchPlan} {choice : BranchChoice} (hr : repeatTarget f.repeats latest = none)
      (hb : f.branch = some b) (hs : b.select latest = some choice) :
      FinishesTrial f latest c (.branched choice.target (b.routeFor choice.target))
        (c.follow (b.routeFor choice.target) choice.target choice.parameters)
  | noBranch {b : BranchPlan} (hr : repeatTarget f.repeats latest = none) (hb : f.branch = some b)
      (hs : b.select latest = none) : FinishesTrial f latest c .idle c
  | escalated {s : Scope} (hr : repeatTarget f.repeats latest = none) (hb : f.branch = none)
      (he : f.escalateTo = some s) :
      FinishesTrial f latest c (.escalated s) (c.update s fun f => { f with shouldBranch := true })
  | idle (hr : repeatTarget f.repeats latest = none) (hb : f.branch = none)
      (he : f.escalateTo = none) : FinishesTrial f latest c .idle c

theorem finishesTrial (c : Context) (f : FinishPlan) (latest : Lookup) :
    FinishesTrial f latest c (c.finishTrial f latest).1 (c.finishTrial f latest).2 := by
  unfold finishTrial
  split
  · exact .repeated ‹_›
  · split
    · rename_i hr _ _ _ hb
      unfold takeBranch
      split
      · exact .branched hr hb ‹_›
      · exact .noBranch hr hb ‹_›
    · exact .escalated ‹_› ‹_› ‹_›
    · exact .idle ‹_› ‹_› ‹_›

theorem finishesTrial_of {f : FinishPlan} {latest : Lookup} {o : FinishOutcome}
    (h : (c.finishTrial f latest).1 = o) : FinishesTrial f latest c o (c.finishTrial f latest).2 :=
  h ▸ finishesTrial c f latest

inductive FinishesLoop (l : LoopPlan) (latest : Lookup) (c : Context) :
    FinishOutcome → Context → Prop
  | jump {x : ItemId} (hp : c.pendingJump = some x) : FinishesLoop l latest c .idle c
  | repeated {x : ItemId} (hp : c.pendingJump = none)
      (hr : repeatTarget l.finish.repeats latest = some x) :
      FinishesLoop l latest c (.repeated x) (c.setJump x)
  | branched {b : BranchPlan} {choice : BranchChoice} (hp : c.pendingJump = none)
      (hb : l.finish.branch = some b) (hm : (c.flags l.scope).shouldBranch = true)
      (hs : b.select latest = some choice) (hr : repeatTarget l.finish.repeats latest = none) :
      FinishesLoop l latest c (.branched choice.target (b.routeFor choice.target))
        (((c.update l.scope id).update l.scope fun f => { f with shouldBranch := false }).follow
          (b.routeFor choice.target) choice.target choice.parameters)
  | noBranch {b : BranchPlan} (hp : c.pendingJump = none) (hb : l.finish.branch = some b)
      (hm : (c.flags l.scope).shouldBranch = true) (hs : b.select latest = none)
      (hr : repeatTarget l.finish.repeats latest = none) :
      FinishesLoop l latest c .idle
        ((c.update l.scope id).update l.scope fun f => { f with shouldBranch := false })
  | unmarked {b : BranchPlan} (hp : c.pendingJump = none) (hb : l.finish.branch = some b)
      (hm : (c.flags l.scope).shouldBranch = false)
      (hr : repeatTarget l.finish.repeats latest = none) :
      FinishesLoop l latest c .idle (c.update l.scope id)
  | escalated {s : Scope} (hp : c.pendingJump = none) (hb : l.finish.branch = none)
      (he : l.finish.escalateTo = some s) (hr : repeatTarget l.finish.repeats latest = none) :
      FinishesLoop l latest c (.escalated s) (c.update s fun f => { f with shouldBranch := true })
  | aborted (hp : c.pendingJump = none) (hb : l.finish.branch = none)
      (he : l.finish.escalateTo = none) (ht : l.terminal = true)
      (ha : c.root.branchingActive = true) (hr : repeatTarget l.finish.repeats latest = none) :
      FinishesLoop l latest c .aborted (c.abort (abortReason l.id))
  | idle (hp : c.pendingJump = none) (hb : l.finish.branch = none)
      (he : l.finish.escalateTo = none) (ht : (l.terminal && c.root.branchingActive) = false)
      (hr : repeatTarget l.finish.repeats latest = none) :
      FinishesLoop l latest c .idle c

theorem finishesLoop (c : Context) (l : LoopPlan) (latest : Lookup) :
    FinishesLoop l latest c (c.finishLoop l latest).1 (c.finishLoop l latest).2 := by
  unfold finishLoop
  split
  · rename_i hp
    obtain ⟨x, hp⟩ := Option.isSome_iff_exists.mp hp
    exact .jump hp
  · rename_i hp
    have hp : c.pendingJump = none := by simpa using hp
    split
    · exact .repeated hp ‹_›
    · rename_i hr
      split
      · rename_i b hb
        simp only [flags_update, if_true, id]
        split
        · rename_i hm
          unfold takeBranch
          split
          · exact .branched hp hb hm ‹_› hr
          · exact .noBranch hp hb hm ‹_› hr
        · exact .unmarked hp hb (eq_false_of_ne_true ‹_›) hr
      · exact .escalated hp ‹_› ‹_› hr
      · rename_i hb he
        split
        · rename_i ht
          simp only [Bool.and_eq_true] at ht
          exact .aborted hp hb he ht.1 ht.2 hr
        · exact .idle hp hb he (eq_false_of_ne_true ‹_›) hr

theorem finishesLoop_of {l : LoopPlan} {latest : Lookup} {o : FinishOutcome}
    (h : (c.finishLoop l latest).1 = o) : FinishesLoop l latest c o (c.finishLoop l latest).2 :=
  h ▸ finishesLoop c l latest

inductive Continues (l : LoopPlan) (items : List Node) (log : DataLog) (c : Context) :
    Bool → Context → Prop
  | jumpTarget (hp : c.pendingJump = some l.id) : Continues l items log c true c.clearJump
  | jump {x : ItemId} (hp : c.pendingJump = some x) (hx : x ≠ l.id) :
      Continues l items log c (items.any fun n => n.id = x || n.guard.members.contains x) c
  | data (hp : c.pendingJump = none) :
      Continues l items log c (Condition.anyHolds l.continuation (log.latestWithin l.dataScope)) c

theorem continues (c : Context) (l : LoopPlan) (items : List Node) (log : DataLog) :
    Continues l items log c (c.continueLoop l items log).1 (c.continueLoop l items log).2 := by
  unfold continueLoop
  split
  · split
    · rename_i hx
      exact .jumpTarget (hx ▸ ‹_›)
    · exact .jump ‹_› ‹_›
  · exact .data ‹_›

section Channels

variable {c' : Context} {o : FinishOutcome} {latest : Lookup} {jump : Option ItemId}

/-- Both channels have come to hold a jump, or they are as they were. -/
structure Receives (c : Context) (jump : Option ItemId) (c' : Context) : Prop where
  store : c'.jumpStore = jump.or c.jumpStore
  memory : c'.jumpMemory = jump.or c.jumpMemory

theorem receives_update (c : Context) (s : Scope) (f : Flags → Flags) :
    Receives c none (c.update s f) := ⟨jumpStore_update c s f, jumpMemory_update c s f⟩

theorem Receives.of_update {s : Scope} {f : Flags → Flags} (h : Receives (c.update s f) jump c') :
    Receives c jump c' :=
  ⟨by simpa using h.store, by simpa using h.memory⟩

theorem Receives.pendingJump (h : Receives c jump c') : c'.pendingJump = jump.or c.pendingJump := by
  cases jump <;> simp [Context.pendingJump, h.store, h.memory]

theorem receives_follow (c : Context) (route : Route) (y : ItemId) (parameters : Option Record) :
    Receives c (FinishOutcome.branched y route).jump? (c.follow route y parameters) := by
  cases route with
  | jump => exact ⟨rfl, rfl⟩
  | scope s => exact receives_update c s _

theorem FinishesTrial.receives {f : FinishPlan} (h : FinishesTrial f latest c o c') :
    Receives c o.jump? c' := by
  cases h with
  | repeated | noBranch | idle => exact ⟨rfl, rfl⟩
  | branched => exact receives_follow c _ _ _
  | escalated => exact receives_update c _ _

theorem FinishesLoop.receives {l : LoopPlan} (h : FinishesLoop l latest c o c') :
    Receives c o.jump? c' := by
  cases h with
  | jump | repeated | aborted | idle => exact ⟨rfl, rfl⟩
  | branched => exact (receives_follow _ _ _ _).of_update.of_update
  | noBranch => exact (receives_update _ _ _).of_update
  | unmarked | escalated => exact receives_update c _ _

end Channels

end Context

inductive FinishPlan.Jumps (f : FinishPlan) (latest : Lookup) (x : ItemId) : Prop
  | repeated (hr : repeatTarget f.repeats latest = some x)
  | branched {b : BranchPlan} {choice : BranchChoice} (hb : f.branch = some b)
      (hs : b.select latest = some choice) (hx : choice.target = x) (hroute : b.routeFor x = .jump)

namespace Context

variable {c c' : Context} {o : FinishOutcome} {latest : Lookup} {x : ItemId}

theorem jump?_branched {y : ItemId} {route : Route}
    (h : (FinishOutcome.branched y route).jump? = some x) : y = x ∧ route = .jump := by
  cases route with
  | jump => exact ⟨Option.some.inj h, rfl⟩
  | scope s => cases h

theorem FinishesTrial.jumps {f : FinishPlan} (h : FinishesTrial f latest c o c')
    (ho : o.jump? = some x) : f.Jumps latest x := by
  cases h with
  | repeated hr => exact .repeated (Option.some.inj ho ▸ hr)
  | branched hr hb hs =>
      obtain ⟨rfl, hroute⟩ := jump?_branched ho
      exact .branched hb hs rfl hroute
  | noBranch | escalated | idle => cases ho

theorem FinishesLoop.jumps {l : LoopPlan} (h : FinishesLoop l latest c o c')
    (ho : o.jump? = some x) : l.finish.Jumps latest x := by
  cases h with
  | repeated hp hr => exact .repeated (Option.some.inj ho ▸ hr)
  | branched hp hb hm hs =>
      obtain ⟨rfl, hroute⟩ := jump?_branched ho
      exact .branched hb hs rfl hroute
  | jump | noBranch | unmarked | escalated | aborted | idle => cases ho

end Context

end BranchingTimeline
