import BranchingTimeline.Proofs.Session.Hooks
import BranchingTimeline.Proofs.Session.Steps
import BranchingTimeline.Proofs.Timeline.Plans

namespace BranchingTimeline

namespace Context

variable {c : Context} {x : Scope}

theorem flags_update_ne {s : Scope} (f : Flags → Flags) (h : x ≠ s) :
    (c.update s f).flags x = c.flags x := by
  rw [flags_update, if_neg h]

theorem flag_update {α : Type} (g : Flags → α) (c : Context) (s x : Scope) {f : Flags → Flags}
    (h : ∀ a, g (f a) = g a) : g ((c.update s f).flags x) = g (c.flags x) := by
  rw [flags_update]
  split
  · rename_i hx
    rw [h, hx]
  · rfl

@[simp] theorem flags_setJump (c : Context) (target : ItemId) (x : Scope) :
    (c.setJump target).flags x = c.flags x := by
  cases x <;> rfl

@[simp] theorem flags_clearJump (c : Context) (x : Scope) : c.clearJump.flags x = c.flags x := by
  cases x <;> rfl

@[simp] theorem flags_abort (c : Context) (reason : String) (x : Scope) :
    (c.abort reason).flags x = c.flags x := by
  cases x <;> rfl

theorem flag_unmark {α : Type} (q : Flags → α) (c : Context) (s x : Scope)
    (hq : ∀ f m, q { f with shouldBranch := m } = q f) :
    q (((c.update s id).update s fun f => { f with shouldBranch := false }).flags x) = q (c.flags x) :=
  (flag_update q _ s x fun f => hq f false).trans (flag_update q c s x fun _ => rfl)

theorem flags_follow_ne (c : Context) {route : Route} (hr : route ≠ .scope x) (target : ItemId)
    (parameters : Option Record) : (c.follow route target parameters).flags x = c.flags x := by
  cases route with
  | jump => exact flags_setJump c target x
  | scope s => exact flags_update_ne _ fun h => hr (h ▸ rfl)

theorem Decides.flag_eq {α : Type} (q : Flags → α) {g : Guard} {d : Decision} {c' : Context}
    (h : Decides g c d c') (hq : ∀ f, q { f with targetExecuted := true } = q f) :
    q (c'.flags x) = q (c.flags x) := by
  cases h with
  | jumpTarget => rw [flags_clearJump]
  | jumpThrough | skippedForJump => rfl
  | normal | skippedForBranch => exact flag_update q c _ x fun _ => rfl
  | branchTarget => exact (flag_update q _ _ x hq).trans (flag_update q c _ x fun _ => rfl)

section Finishes

variable {α : Type} {q : Flags → α} {latest : Lookup} {o : FinishOutcome} {c' : Context}

theorem FinishesTrial.flag_eq {f : FinishPlan} (h : FinishesTrial f latest c o c')
    (hq : ∀ f m, q { f with shouldBranch := m } = q f) (ho : ∀ target, o ≠ .branched target (.scope x)) :
    q (c'.flags x) = q (c.flags x) := by
  cases h with
  | repeated => rw [flags_setJump]
  | branched => rw [flags_follow_ne c fun he => ho _ (congrArg _ he)]
  | noBranch | idle => rfl
  | escalated => exact flag_update q c _ x fun f => hq f true

theorem FinishesLoop.flag_eq {l : LoopPlan} (h : FinishesLoop l latest c o c')
    (hq : ∀ f m, q { f with shouldBranch := m } = q f) (ho : ∀ target, o ≠ .branched target (.scope x)) :
    q (c'.flags x) = q (c.flags x) := by
  cases h with
  | repeated => rw [flags_setJump]
  | branched =>
      rw [flags_follow_ne _ fun he => ho _ (congrArg _ he)]
      exact flag_unmark q c l.scope x hq
  | noBranch => exact flag_unmark q c l.scope x hq
  | unmarked => exact flag_update q c _ x fun _ => rfl
  | escalated => exact flag_update q c _ x fun f => hq f true
  | aborted => rw [flags_abort]
  | jump | idle => rfl

end Finishes

theorem flags?_update (c : Context) (s x : Scope) (f : Flags → Flags) :
    (c.update s f).flags? x = if x = s then some (f (c.flags s)) else c.flags? x := by
  cases s with
  | root => cases x <;> simp [update, flags, flags?]
  | loop name =>
      cases x with
      | root => simp [update, flags?]
      | loop other =>
          by_cases h : other = name <;> simp [update, flags?, SortedMap.get?_insert, Key.text, h]

structure BelongsTo {α : Type} (v : Context → α) (x : Scope) : Prop where
  update : ∀ c {s} f, x ≠ s → v (c.update s f) = v c
  setJump : ∀ c target, v (c.setJump target) = v c
  clearJump : ∀ c, v c.clearJump = v c
  abort : ∀ c reason, v (c.abort reason) = v c

theorem flags_belongsTo (x : Scope) : BelongsTo (fun c => c.flags x) x where
  update _ _ f h := flags_update_ne f h
  setJump c target := flags_setJump c target x
  clearJump c := flags_clearJump c x
  abort c reason := flags_abort c reason x

theorem flags?_belongsTo (x : Scope) : BelongsTo (fun c => c.flags? x) x where
  update c s f h := by rw [flags?_update, if_neg h]
  setJump c target := by cases x <;> rfl
  clearJump c := by cases x <;> rfl
  abort c reason := by cases x <;> rfl

variable {α : Type} {v : Context → α}

theorem BelongsTo.decides {g : Guard} {d : Decision} {c' : Context} (hv : BelongsTo v x)
    (h : Decides g c d c') (hx : x ≠ g.scope) : v c' = v c := by
  cases h with
  | jumpTarget hp => exact hv.clearJump c
  | jumpThrough hp hj hm => rfl
  | skippedForJump hp hj hm => rfl
  | normal hp ht hs => exact hv.update c id hx
  | branchTarget hp ht hs hn => rw [hv.update _ _ hx, hv.update _ _ hx]
  | skippedForBranch hp hb => exact hv.update c id hx

theorem BelongsTo.follow {route : Route} {scope : Scope} (hv : BelongsTo v x) (target : ItemId)
    (parameters : Option Record) (hr : ∀ s, route = .scope s → s = scope) (hx : x ≠ scope) :
    v (c.follow route target parameters) = v c := by
  cases route with
  | jump => exact hv.setJump c target
  | scope s => exact hv.update c _ (hr s rfl ▸ hx)

variable {latest : Lookup} {o : FinishOutcome} {c' : Context} {scope : Scope} {later : List ItemId}

theorem BelongsTo.finishesTrial {f : FinishPlan} (hv : BelongsTo v x)
    (h : FinishesTrial f latest c o c') (hf : f.Local scope later) (hx : x ≠ scope) : v c' = v c := by
  cases h with
  | repeated hr => exact hv.setJump c _
  | branched hr hb hs => exact hv.follow _ _ (fun s h => (hf.branches _ hb _ s h).1) hx
  | noBranch hr hb hs => rfl
  | escalated hr hb he => exact hv.update c _ (hf.escalates _ he ▸ hx)
  | idle hr hb he => rfl

theorem BelongsTo.finishesLoop {l : LoopPlan} (hv : BelongsTo v x)
    (h : FinishesLoop l latest c o c') (hf : l.finish.Local scope later) (hx : x ≠ scope)
    (hl : x ≠ l.scope) : v c' = v c := by
  cases h with
  | jump hp => rfl
  | repeated hp hr => exact hv.setJump c _
  | branched hp hb hm hs =>
      rw [hv.follow _ _ (fun s h => (hf.branches _ hb _ s h).1) hx, hv.update _ _ hl,
        hv.update _ _ hl]
  | noBranch hp hb hm hs => rw [hv.update _ _ hl, hv.update _ _ hl]
  | unmarked hp hb hm => exact hv.update c id hl
  | escalated hp hb he => exact hv.update c _ (hf.escalates _ he ▸ hx)
  | aborted hp hb he ht ha => exact hv.abort c _
  | idle hp hb he ht => rfl

theorem BelongsTo.continues {l : LoopPlan} {items : List Node} {log : DataLog} {again : Bool}
    (hv : BelongsTo v x) (h : Continues l items log c again c') : v c' = v c := by
  cases h with
  | jumpTarget hp => exact hv.clearJump c
  | jump hp hx => rfl
  | data hp => rfl

end Context

namespace Environment

open Step Compile Node

variable {σ ρ α : Type} {env : Environment σ ρ} {v : Context → α} {x : Scope}

theorem hook_flag {q : Flags → α} {n : Node} {s : Session σ ρ}
    (hq : ∀ f m, q { f with shouldBranch := m } = q f)
    (ho : ∀ target, (hook n s).1 ≠ .branched target (.scope x)) :
    q ((hook n s).2.flags x) = q (s.context.flags x) := by
  cases n with
  | trial p plan => exact (Context.finishesTrial _ _ _).flag_eq hq ho
  | loop p l items => exact (Context.finishesLoop _ _ _).flag_eq hq ho

theorem askAgain_flags (l : LoopPlan) (items : List Node) (s : Session σ ρ) (x : Scope) :
    (askAgain l items s).2.context.flags x = s.context.flags x :=
  (Context.flags_belongsTo x).continues (Context.continues s.context l items s.log)

def valueOf (v : Context → α) (s : Session σ ρ) : α := v s.context

abbrev flagsOf (x : Scope) : Session σ ρ → Flags := valueOf fun c => c.flags x

theorem valueOf_consult (hv : Context.BelongsTo v x) {place : Place} (hx : x ≠ place.guard.scope)
    (s : Session σ ρ) : valueOf v (consult place s).2 = valueOf v s := by
  change v ((begun place s.context).decide place.guard).2 = v s.context
  rw [hv.decides (Context.decides _ _) hx, begun]
  split
  · exact hv.update _ _ hx
  · rfl

theorem valueOf_leave (hv : Context.BelongsTo v x) {place : Place} (hx : x ≠ place.guard.scope)
    (s : Session σ ρ) : valueOf v (leave place s) = valueOf v s := by
  unfold leave
  split
  · exact hv.update _ _ hx
  · rfl

theorem guarded_keeps (hv : Context.BelongsTo v x) {place : Place} {body : Step σ ρ}
    (hx : x ≠ place.guard.scope) (hb : Keeps (valueOf v) body) :
    Keeps (valueOf v) (guarded place body) := by
  intro s
  rw [← valueOf_consult hv hx s]
  cases h : (consult place s).1.runs with
  | false =>
      rw [guarded_skip h]
      rfl
  | true =>
      rw [guarded_run h]
      exact hb.andThen (fun s => valueOf_leave hv hx s) _

theorem reruns_keeps (hv : Context.BelongsTo v x) {l : LoopPlan} {items : List Node}
    {pass : Option Record → Step σ ρ} (hx : x ≠ l.scope) (hp : ∀ row, Keeps (valueOf v) (pass row)) :
    Keeps (valueOf v) (env.reruns l items pass) := by
  refine Keeps.rerun ?_ ?_ _ _
  · intro run s
    obtain ⟨a, ha⟩ := env.openRun_eq l run s
    rw [loopBody_eq, Keeps.forEach hp, ha]
    exact hv.update s.context (fun _ => .clear) hx
  · intro s
    exact hv.continues (Context.continues s.context l items s.log)

theorem conclude_keeps (hv : Context.BelongsTo v x) {n : Node} {scope : Scope}
    {later : List ItemId} (h : n.finish.Local scope later) (hx : x ≠ scope)
    (hn : x ∉ scopesIn [n]) : Keeps (valueOf v) (conclude n : Step σ ρ) := by
  intro s
  unfold conclude valueOf
  rw [reportFinish_context]
  cases n with
  | trial p t => exact hv.finishesTrial (Context.finishesTrial _ _ _) h hx
  | loop p l items =>
      simp only [scopesIn_loop, List.mem_cons, not_or] at hn
      exact hv.finishesLoop (Context.finishesLoop _ _ _) h hx hn.1

theorem runNode_keeps (hv : Context.BelongsTo v x) {around : Surroundings} {index : Nat}
    {later : List ItemId} {item : Item} {n : Node} {stimulus : Option Record}
    (h : NodeOf around index later item n) (hx : x ≠ around.scope) (hn : x ∉ scopesIn [n])
    (hw : Keeps (valueOf v) (env.work stimulus n)) :
    Keeps (valueOf v) (env.runNode stimulus n) := by
  rw [runNode_eq]
  exact guarded_keeps hv (h.guard_scope ▸ hx) (hw.andThen (conclude_keeps hv h.finish_local hx hn))

/-- A sequence changes nothing that belongs to another scope than its own and those of the loops in
it. -/
theorem runNodes_keeps (hv : Context.BelongsTo v x) {around : Surroundings} {index : Nat}
    {items : List Item} {nodes : List Node} (h : Compiled around index items nodes)
    (hx : x ≠ around.scope) (hn : x ∉ scopesIn nodes) (stimulus : Option Record) :
    Keeps (valueOf v) (env.runNodes stimulus nodes) := by
  induction h generalizing stimulus with
  | nil =>
      rw [runNodes_nil]
      exact fun _ => rfl
  | trial hr ih =>
      simp only [trialNode, scopesIn_trial] at hn
      rw [runNodes_cons]
      exact (runNode_keeps hv (.trial _) hx (by simp [trialNode]) fun _ => rfl).andThen
        (ih hx hn stimulus)
  | loop name hi hr ihInner ih =>
      simp only [loopNode, scopesIn_loop, List.mem_cons, List.mem_append, not_or] at hn
      obtain ⟨hl, hin, hrest⟩ := hn
      rw [runNodes_cons]
      refine (runNode_keeps hv (.loop name hi) hx ?_ ?_).andThen (ih hx hrest stimulus)
      · simp [loopNode, hl, hin]
      · exact reruns_keeps hv hl fun row => ihInner hl hin row

variable (env) in
theorem work_keeps (hv : Context.BelongsTo v x) {around : Surroundings} {index : Nat}
    {later : List ItemId} {item : Item} {n : Node} (h : NodeOf around index later item n)
    (hn : x ∉ scopesIn [n]) (stimulus : Option Record) :
    Keeps (valueOf v) (env.work stimulus n) := by
  cases h with
  | trial t => exact fun _ => rfl
  | loop name hi =>
      simp only [loopNode, scopesIn_loop, scopesIn_nil, List.append_nil, List.mem_cons, not_or] at hn
      exact reruns_keeps hv hn.1 fun row => runNodes_keeps hv hi hn.1 hn.2 row

theorem keeps_conclude {n : Node} {scope : Scope} {later : List ItemId}
    (h : n.finish.Local scope later) (hx : x ≠ scope) (hn : x ∉ scopesIn [n]) :
    Keeps (flagsOf x) (conclude n : Step σ ρ) :=
  conclude_keeps (Context.flags_belongsTo x) h hx hn

theorem keeps_runNode {around : Surroundings} {index : Nat} {later : List ItemId} {item : Item}
    {n : Node} {stimulus : Option Record} (h : NodeOf around index later item n)
    (hx : x ≠ around.scope) (hn : x ∉ scopesIn [n])
    (hw : Keeps (flagsOf x) (env.work stimulus n)) :
    Keeps (flagsOf x) (env.runNode stimulus n) :=
  runNode_keeps (Context.flags_belongsTo x) h hx hn hw

variable (env) in
theorem keeps_work {around : Surroundings} {index : Nat} {later : List ItemId} {item : Item}
    {n : Node} (h : NodeOf around index later item n) (hn : x ∉ scopesIn [n])
    (stimulus : Option Record) : Keeps (flagsOf x) (env.work stimulus n) :=
  work_keeps env (Context.flags_belongsTo x) h hn stimulus

end Environment

end BranchingTimeline
