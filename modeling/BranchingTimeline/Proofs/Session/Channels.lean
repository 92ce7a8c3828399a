import BranchingTimeline.Proofs.Session.Jump
import BranchingTimeline.Proofs.Session.Restarts

namespace BranchingTimeline

namespace Context

/-- What can be done to a context: by guards, at the beginning and the end of passes and loops, by
branches and jumps, between sessions, and by the hooks of nodes. -/
inductive Operation where
  | decide (g : Guard)
  | enterLoop (s : Scope)
  | resetPass (s : Scope)
  | follow (route : Route) (target : ItemId) (parameters : Option Record)
  | setJump (target : ItemId)
  | clearJump
  | abort (reason : String)
  | reload
  | finishTrial (plan : FinishPlan) (latest : Lookup)
  | finishLoop (l : LoopPlan) (latest : Lookup)
  | continueLoop (l : LoopPlan) (items : List Node) (log : DataLog)

def after (c : Context) : Operation → Context
  | .decide g => (c.decide g).2
  | .enterLoop s => c.enterLoop s
  | .resetPass s => c.resetPass s
  | .follow route target parameters => c.follow route target parameters
  | .setJump target => c.setJump target
  | .clearJump => c.clearJump
  | .abort reason => c.abort reason
  | .reload => c.reload
  | .finishTrial plan latest => (c.finishTrial plan latest).2
  | .finishLoop l latest => (c.finishLoop l latest).2
  | .continueLoop l items log => (c.continueLoop l items log).2

def operated (c : Context) (ops : List Operation) : Context := ops.foldl after c

/-- The jump to an id is set: as such, by a route, or by a finish that comes to it. -/
inductive Sets (x : ItemId) (c : Context) : Operation → Prop
  | setJump : Sets x c (.setJump x)
  | follow {parameters : Option Record} : Sets x c (.follow .jump x parameters)
  | finishTrial {plan : FinishPlan} {latest : Lookup}
      (ho : (c.finishTrial plan latest).1.jump? = some x) : Sets x c (.finishTrial plan latest)
  | finishLoop {l : LoopPlan} {latest : Lookup} (ho : (c.finishLoop l latest).1.jump? = some x) :
      Sets x c (.finishLoop l latest)

/-- The pending jump to an id is cleared, or consumed by what has this id: a guard, or a loop that is
asked whether it runs once more. -/
inductive Removes (x : ItemId) (c : Context) : Operation → Prop
  | clearJump (hp : c.pendingJump = some x) : Removes x c .clearJump
  | decide {g : Guard} (hp : c.pendingJump = some x) (hg : g.id = x) : Removes x c (.decide g)
  | continueLoop {l : LoopPlan} {items : List Node} {log : DataLog} (hp : c.pendingJump = some x)
      (hl : l.id = x) : Removes x c (.continueLoop l items log)

def Moves (c : Context) (op : Operation) : Prop := ∃ x, Sets x c op ∨ Removes x c op

/-- None of the operations, done one after the other, sets a jump or removes one. -/
def Undisturbed (c : Context) (ops : List Operation) : Prop :=
  ∀ between op, between ++ [op] <+: ops → ¬(c.operated between).Moves op

/-- Memory holds no jump, or the one in the store. -/
def Coherent (c : Context) : Prop := c.jumpMemory = none ∨ c.jumpMemory = c.jumpStore

def Holds (c : Context) (x : ItemId) : Prop := c.jumpStore = some x ∨ c.jumpMemory = some x

variable {c c' : Context} {op : Operation} {ops : List Operation} {x : ItemId}

@[simp] theorem operated_append (c : Context) (ops later : List Operation) :
    c.operated (ops ++ later) = (c.operated ops).operated later := List.foldl_append

@[simp] theorem operated_cons (c : Context) (op : Operation) (ops : List Operation) :
    c.operated (op :: ops) = (c.after op).operated ops := rfl

@[simp] theorem operated_nil (c : Context) : c.operated [] = c := rfl

theorem Coherent.stored (h : c.Coherent) : c.Stored := by
  intro hs
  rcases h with hm | hm
  · exact hm
  · exact hm.trans hs

theorem Decides.receives {g : Guard} {d : Decision} (h : Decides g c d c')
    (hg : c.pendingJump ≠ some g.id) : Receives c none c' := by
  cases h with
  | jumpTarget hp => exact absurd hp hg
  | jumpThrough | skippedForJump => exact ⟨rfl, rfl⟩
  | normal | skippedForBranch => exact receives_update c _ _
  | branchTarget => exact (receives_update _ _ _).of_update

theorem Continues.receives {l : LoopPlan} {items : List Node} {log : DataLog} {again : Bool}
    (h : Continues l items log c again c') (hl : c.pendingJump ≠ some l.id) : Receives c none c' := by
  cases h with
  | jumpTarget hp => exact absurd hp hl
  | jump | data => exact ⟨rfl, rfl⟩

theorem Sets.after (h : Sets x c op) :
    (c.after op).jumpStore = some x ∧ (c.after op).jumpMemory = some x := by
  cases h with
  | setJump | follow => exact ⟨rfl, rfl⟩
  | @finishTrial plan latest ho =>
      have hr := (finishesTrial c plan latest).receives
      rw [ho] at hr
      exact ⟨hr.store, hr.memory⟩
  | @finishLoop l latest ho =>
      have hr := (finishesLoop c l latest).receives
      rw [ho] at hr
      exact ⟨hr.store, hr.memory⟩

theorem Removes.after (h : Removes x c op) :
    (c.after op).jumpStore = none ∧ (c.after op).jumpMemory = none := by
  cases h with
  | clearJump => exact ⟨rfl, rfl⟩
  | decide hp hg => simp [Context.after, Context.decide, hp, hg, Context.clearJump]
  | continueLoop hp hl => simp [Context.after, Context.continueLoop, hp, hl, Context.clearJump]

theorem after_of_not_moves (h : ¬c.Moves op) :
    (c.after op).jumpStore = c.jumpStore ∧
      ((c.after op).jumpMemory = c.jumpMemory ∨ (c.after op).jumpMemory = none) := by
  have hs (x : ItemId) : ¬Sets x c op := fun hx => h ⟨x, .inl hx⟩
  have hr (x : ItemId) : ¬Removes x c op := fun hx => h ⟨x, .inr hx⟩
  suffices hk : Receives c none (c.after op) ∨ op = .reload by
    rcases hk with hk | rfl
    · exact ⟨hk.store, .inl hk.memory⟩
    · exact ⟨rfl, .inr rfl⟩
  cases op with
  | reload => exact .inr rfl
  | decide g => exact .inl ((decides c g).receives fun hp => hr g.id (.decide hp rfl))
  | enterLoop s => exact .inl (receives_update c s fun _ => .clear)
  | resetPass s => exact .inl (receives_update c s .resetPass)
  | follow route y parameters =>
      cases route with
      | jump => exact absurd .follow (hs y)
      | scope s => exact .inl (receives_update c s _)
  | setJump y => exact absurd .setJump (hs y)
  | clearJump =>
      have hp : c.pendingJump = none :=
        Option.eq_none_iff_forall_ne_some.mpr fun x hx => hr x (.clearJump hx)
      obtain ⟨hstore, hmemory⟩ := pendingJump_eq_none.mp hp
      exact .inl ⟨hstore.symm, hmemory.symm⟩
  | abort reason => exact .inl ⟨rfl, rfl⟩
  | finishTrial plan latest =>
      have ho : (c.finishTrial plan latest).1.jump? = none :=
        Option.eq_none_iff_forall_ne_some.mpr fun x hx => hs x (.finishTrial hx)
      exact .inl (ho ▸ (finishesTrial c plan latest).receives)
  | finishLoop l latest =>
      have ho : (c.finishLoop l latest).1.jump? = none :=
        Option.eq_none_iff_forall_ne_some.mpr fun x hx => hs x (.finishLoop hx)
      exact .inl (ho ▸ (finishesLoop c l latest).receives)
  | continueLoop l items log =>
      exact .inl ((continues c l items log).receives fun hp => hr l.id (.continueLoop hp rfl))

inductive Turns (op : Operation) (c c' : Context) : Prop
  | set {x : ItemId} (hs : Sets x c op) (hstore : c'.jumpStore = some x)
      (hmemory : c'.jumpMemory = some x)
  | removed {x : ItemId} (hr : Removes x c op) (hstore : c'.jumpStore = none)
      (hmemory : c'.jumpMemory = none)
  | kept (hm : ¬c.Moves op) (hstore : c'.jumpStore = c.jumpStore)
      (hmemory : c'.jumpMemory = c.jumpMemory ∨ c'.jumpMemory = none)

theorem turns (op : Operation) (c : Context) : Turns op c (c.after op) := by
  by_cases hm : c.Moves op
  · obtain ⟨x, hs | hr⟩ := hm
    · exact .set hs hs.after.1 hs.after.2
    · exact .removed hr hr.after.1 hr.after.2
  · obtain ⟨hstore, hmemory⟩ := after_of_not_moves hm
    exact .kept hm hstore hmemory

theorem Coherent.after (h : c.Coherent) (op : Operation) : (c.after op).Coherent := by
  cases turns op c with
  | set hs hstore hmemory => exact .inr (hmemory.trans hstore.symm)
  | removed hr hstore hmemory => exact .inl hmemory
  | kept hm hstore hmemory =>
      rcases hmemory with hmemory | hmemory
      · rwa [Coherent, hstore, hmemory]
      · exact .inl hmemory

theorem coherent_start : start.Coherent := .inl rfl

/-- Whatever is done to a context, its channels agree if they did. -/
theorem Coherent.operated (h : c.Coherent) (ops : List Operation) : (c.operated ops).Coherent := by
  induction ops generalizing c with
  | nil => exact h
  | cons op ops ih => exact ih (h.after op)

theorem Coherent.pendingJump_reload (h : c.Coherent) : c.reload.pendingJump = c.pendingJump :=
  h.stored.pendingJump.symm ▸ (stored_reload c).pendingJump

theorem Coherent.pendingJump_after (h : c.Coherent) (hm : ¬c.Moves op) :
    (c.after op).pendingJump = c.pendingJump := by
  rw [(h.after op).stored.pendingJump, (after_of_not_moves hm).1, h.stored.pendingJump]

theorem Coherent.source (h : c.Coherent) (hx : (c.after op).pendingJump = some x) :
    Sets x c op ∨ c.pendingJump = some x ∧ ¬c.Moves op := by
  have hstored := (h.after op).stored.pendingJump.symm.trans hx
  cases turns op c with
  | set hs hstore hmemory =>
      obtain rfl := Option.some.inj (hstore.symm.trans hstored)
      exact .inl hs
  | removed hr hstore hmemory => cases hstore.symm.trans hstored
  | kept hm hstore hmemory => exact .inr ⟨(h.pendingJump_after hm).symm.trans hx, hm⟩

theorem undisturbed_concat :
    c.Undisturbed (ops ++ [op]) ↔ c.Undisturbed ops ∧ ¬(c.operated ops).Moves op := by
  constructor
  · intro h
    refine ⟨?_, h ops op (List.prefix_refl _)⟩
    intro between o hpre
    exact h between o (hpre.trans (List.prefix_append ops [op]))
  · rintro ⟨h, hop⟩ between o hpre
    rcases List.prefix_concat_iff.mp hpre with heq | hpre
    · obtain ⟨rfl, ho⟩ := List.append_inj' heq rfl
      rwa [← List.head_eq_of_cons_eq ho] at hop
    · exact h between o hpre

theorem Coherent.undisturbed (h : c.Coherent) (hu : c.Undisturbed ops) :
    (c.operated ops).pendingJump = c.pendingJump := by
  induction ops using List.reverseRecOn with
  | nil => rfl
  | append_singleton ops op ih =>
      obtain ⟨hops, hop⟩ := undisturbed_concat.mp hu
      rw [operated_append, ← ih hops]
      exact (h.operated ops).pendingJump_after hop

/-- A jump that came to be pending was set, and nothing has moved it since. -/
theorem Coherent.last_set (h : c.Coherent) (hc : c.pendingJump ≠ some x)
    (hx : (c.operated ops).pendingJump = some x) :
    ∃ before op later, ops = before ++ op :: later ∧ Sets x (c.operated before) op ∧
      ((c.operated before).after op).Undisturbed later := by
  induction ops using List.reverseRecOn with
  | nil => exact absurd hx hc
  | append_singleton ops last ih =>
      rw [operated_append] at hx
      rcases (h.operated ops).source hx with hs | ⟨hx, hm⟩
      · exact ⟨ops, last, [], rfl, hs, fun between op hpre => by simp at hpre⟩
      · obtain ⟨before, op, later, rfl, hs, hu⟩ := ih hx
        refine ⟨before, op, later ++ [last], by simp, hs, undisturbed_concat.mpr ⟨hu, ?_⟩⟩
        simpa using hm

theorem holds_source (h : (c.after op).Holds x) : Sets x c op ∨ c.Holds x := by
  cases turns op c with
  | set hs hstore hmemory =>
      rw [Holds, hstore, hmemory, or_self] at h
      exact .inl (Option.some.inj h ▸ hs)
  | removed hr hstore hmemory => simp [Holds, hstore, hmemory] at h
  | kept hm hstore hmemory =>
      rcases hmemory with hmemory | hmemory
      · rw [Holds, hstore, hmemory] at h
        exact .inr h
      · rw [Holds, hstore, hmemory] at h
        exact .inr (.inl (h.resolve_right nofun))

theorem set_of_holds (hc : ¬c.Holds x) (h : (c.operated ops).Holds x) :
    ∃ between op, between ++ [op] <+: ops ∧ Sets x (c.operated between) op := by
  induction ops using List.reverseRecOn with
  | nil => exact absurd h hc
  | append_singleton ops last ih =>
      rw [operated_append] at h
      rcases holds_source h with hs | h
      · exact ⟨ops, last, List.prefix_refl _, hs⟩
      · obtain ⟨between, op, hpre, hs⟩ := ih h
        exact ⟨between, op, hpre.trans (List.prefix_append ops [last]), hs⟩

theorem Removes.not_holds (h : Removes x c op) : ¬(c.after op).Holds x := by
  simp [Holds, h.after]

/-- Whatever is done to a context from its start on, memory holds no jump or the one in the store. So
the store alone tells which jump is pending, and that jump outlives the session as it is. It is the
last one that was set, unless it was removed since; and a jump that was removed is in neither channel
until it is set again. -/
theorem channels_coherent (ops : List Operation) :
    (start.operated ops).Coherent ∧
    (start.operated ops).pendingJump = (start.operated ops).jumpStore ∧
    (start.operated ops).reload.pendingJump = (start.operated ops).pendingJump ∧
    (∀ x, (start.operated ops).pendingJump = some x ↔
      ∃ before op later, ops = before ++ op :: later ∧ Sets x (start.operated before) op ∧
        (start.operated (before ++ [op])).Undisturbed later) ∧
    ∀ before op later x, ops = before ++ op :: later → Removes x (start.operated before) op →
      (start.operated ops).Holds x →
        ∃ between again, between ++ [again] <+: later ∧
          Sets x (start.operated (before ++ op :: between)) again := by
  have hc := coherent_start.operated ops
  refine ⟨hc, hc.stored.pendingJump, hc.pendingJump_reload, ?_, ?_⟩
  · intro x
    constructor
    · intro hx
      obtain ⟨before, op, later, rfl, hs, hu⟩ := coherent_start.last_set (by simp [start, pendingJump]) hx
      exact ⟨before, op, later, rfl, hs, by simpa using hu⟩
    · rintro ⟨before, op, later, rfl, hs, hu⟩
      have hop := ((coherent_start.operated before).after op)
      rw [operated_append, operated_cons, hop.undisturbed (by simpa using hu), hop.stored.pendingJump,
        hs.after.1]
  · rintro before op later x rfl hr h
    rw [operated_append, operated_cons] at h
    obtain ⟨between, again, hpre, hs⟩ := set_of_holds hr.not_holds h
    exact ⟨between, again, hpre, by simpa using hs⟩

def guardOf (id : ItemId) : Guard := ⟨id, .root, .empty, false⟩

def farBranch : FinishPlan := ⟨[], some ⟨[⟨"b"⟩], [], .empty⟩, none⟩

def beforeLanding : List Operation := [.setJump ⟨"b"⟩, .reload, .decide (guardOf ⟨"a"⟩)]

def afterLanding : List Operation := [.enterLoop (.loop "l"), .finishTrial farBranch fun _ => none]

/-- A jump outlives a session in the store alone, lands, and is set once more. -/
theorem channels_coherent_relanded :
    (start.operated beforeLanding).jumpMemory = none ∧
      Removes ⟨"b"⟩ (start.operated beforeLanding) (.decide (guardOf ⟨"b"⟩)) ∧
      (start.operated (beforeLanding ++ .decide (guardOf ⟨"b"⟩) :: afterLanding)).Holds ⟨"b"⟩ ∧
      ∃ between again, between ++ [again] <+: afterLanding ∧
        Sets ⟨"b"⟩ (start.operated (beforeLanding ++ .decide (guardOf ⟨"b"⟩) :: between)) again := by
  obtain ⟨-, -, -, -, hset⟩ :=
    channels_coherent (beforeLanding ++ .decide (guardOf ⟨"b"⟩) :: afterLanding)
  have hr : Removes ⟨"b"⟩ (start.operated beforeLanding) (.decide (guardOf ⟨"b"⟩)) :=
    .decide (by decide) rfl
  have hh : (start.operated (beforeLanding ++ .decide (guardOf ⟨"b"⟩) :: afterLanding)).Holds ⟨"b"⟩ :=
    .inl (by decide)
  exact ⟨by decide, hr, hh, hset _ _ _ _ rfl hr hh⟩

end Context

namespace Environment

open Context

variable {σ ρ : Type} {env : Environment σ ρ} {t : Timeline} {m m' : Moment σ ρ}

theorem consult_operates (place : Place) (s : Session σ ρ) :
    ∃ ops, (consult place s).2.context = s.context.operated ops := by
  cases hb : place.guard.beginsPass with
  | false =>
      refine ⟨[.decide place.guard], ?_⟩
      simp [consult_eq, begun, hb, Context.after, Session.withContext]
  | true =>
      refine ⟨[.resetPass place.guard.scope, .decide place.guard], ?_⟩
      simp [consult_eq, begun, hb, Context.after, Session.withContext]

theorem hook_operates (n : Node) (s : Session σ ρ) :
    ∃ ops, (hook n s).2 = s.context.operated ops := by
  cases n with
  | trial p plan => exact ⟨[.finishTrial plan.finish s.log.latest], rfl⟩
  | loop p l items => exact ⟨[.finishLoop l s.log.latest], rfl⟩

variable (env) in
theorem perform_operates (task : Task) (s : Session σ ρ) :
    ∃ ops, (env.perform task s).2.2.context = s.context.operated ops := by
  match task with
  | .visit _ [] | .work _ (.trial ..) | .work _ (.loop ..) | .round _ _ 0 _ | .passes _ []
  | .passes _ (_ :: _) => exact ⟨[], rfl⟩
  | .visit stimulus (n :: r) =>
      obtain ⟨ops, hops⟩ := consult_operates n.place s
      refine ⟨ops, ?_⟩
      simp only [perform]
      split <;> exact hops
  | .finish n =>
      simp only [perform, conclude, reportFinish_context]
      exact hook_operates n s
  | .leave p =>
      simp only [perform, Environment.leave]
      split
      · exact ⟨[.resetPass p.guard.scope], rfl⟩
      · exact ⟨[], rfl⟩
  | .round l items (left + 1) run =>
      obtain ⟨a, ha⟩ := env.openRun_eq l run s
      refine ⟨[.enterLoop l.scope], ?_⟩
      simp only [perform, ha]
      rfl
  | .again l items left run => exact ⟨[.continueLoop l items s.log], rfl⟩

variable (env) in
theorem close_operates (t : Timeline) (s : Session σ ρ) (archived : List DataLog) (left : Nat) :
    ∃ ops, (env.close t s archived left).session.context = s.context.operated ops := by
  simp only [close]
  split
  · exact ⟨[], rfl⟩
  · split
    · split
      · exact ⟨[], rfl⟩
      · exact ⟨[.reload], rfl⟩
    · exact ⟨[.clearJump], rfl⟩

theorem next_operates (h : env.next t m = some m') :
    ∃ ops, m'.session.context = m.session.context.operated ops := by
  rcases next_inv h with ⟨-, rfl⟩ | ⟨task, rest, -, rfl⟩
  · exact close_operates env t m.session m.archived m.left
  · exact perform_operates env task m.session

/-- A run does nothing to its context but a sequence of operations. -/
theorem reaches_operates (h : env.Reaches t m m') :
    ∃ ops, m'.session.context = m.session.context.operated ops := by
  induction h with
  | refl => exact ⟨[], rfl⟩
  | tail _ hn ih =>
      obtain ⟨ops, hops⟩ := ih
      obtain ⟨later, hlater⟩ := next_operates hn
      exact ⟨ops ++ later, by rw [hlater, hops, operated_append]⟩

/-- At every moment of a run memory holds no jump or the one in the store. -/
theorem reaches_coherent {responses : σ} {arranger : ρ}
    (h : env.Reaches t (env.opening t responses arranger) m) : m.session.context.Coherent := by
  obtain ⟨ops, hops⟩ := reaches_operates h
  rw [hops]
  exact coherent_start.operated ops

end Environment

end BranchingTimeline
