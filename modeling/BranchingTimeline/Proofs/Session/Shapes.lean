import BranchingTimeline.Proofs.Session.Escalation
import BranchingTimeline.Proofs.Session.Progress

namespace BranchingTimeline

namespace Timeline

def Lists (t : Timeline) (scope : Scope) (x : ItemId) : Prop :=
  ∃ nodes, t.IsSequence scope nodes ∧ x ∈ nodes.map Node.id

def Branches (t : Timeline) (scope : Scope) : Prop :=
  ∃ p l inner, Node.loop p l inner ∈ Node.flattenIn t.nodes ∧ l.scope = scope ∧
    l.finish.branch.isSome = true

end Timeline

namespace Flags

variable {f g : Flags} {t : Timeline} {x : Scope} {target : ItemId} {parameters : Option Record}

structure Armed (f : Flags) (target : ItemId) : Prop where
  nextTrial : f.nextTrial = some target
  skipRemaining : f.skipRemaining = true
  branchingActive : f.branchingActive = true

theorem Armed.congr (h : f.Armed target) (hg : g.passing = f.passing) : g.Armed target :=
  ⟨(congrArg Flags.nextTrial hg).trans h.nextTrial, (congrArg Flags.skipRemaining hg).trans h.skipRemaining,
    (congrArg Flags.branchingActive hg).trans h.branchingActive⟩

theorem Armed.not_unarmed (h : f.Armed target) : ¬f.Unarmed := by
  intro hu
  have hs := h.skipRemaining
  rw [hu.skipRemaining] at hs
  cases hs

/-- The flags that a scope can have: either no branch has been taken, or one to an item of its
sequence; and a mark only where there is a loop that heeds it. -/
structure Lawful (t : Timeline) (x : Scope) (f : Flags) : Prop where
  shape : f.Unarmed ∨ ∃ target, f.Armed target ∧ t.Lists x target
  mark : f.shouldBranch = true → t.Branches x

theorem lawful_clear : clear.Lawful t x := ⟨.inl unarmed_clear, nofun⟩

theorem Lawful.resetPass (h : f.Lawful t x) : f.resetPass.Lawful t x :=
  ⟨.inl (unarmed_resetPass f), h.mark⟩

theorem Lawful.remark (h : f.Lawful t x) {b : Bool} (hb : b = true → t.Branches x) :
    { f with shouldBranch := b }.Lawful t x := by
  refine ⟨h.shape.imp (fun hu => hu.congr rfl) ?_, hb⟩
  rintro ⟨target, ha, hl⟩
  exact ⟨target, ha.congr rfl, hl⟩

theorem Lawful.arm (h : f.Lawful t x) (hl : t.Lists x target) : (f.arm target parameters).Lawful t x :=
  ⟨.inr ⟨target, ⟨rfl, rfl, rfl⟩, hl⟩, h.mark⟩

theorem Lawful.execute (h : f.Lawful t x) (hs : f.skipRemaining = true) :
    { f with targetExecuted := true }.Lawful t x := by
  refine ⟨.inr ?_, h.mark⟩
  rcases h.shape with hu | ⟨target, ha, hl⟩
  · rw [hu.skipRemaining] at hs
    cases hs
  · exact ⟨target, ⟨ha.nextTrial, ha.skipRemaining, ha.branchingActive⟩, hl⟩

end Flags

/-- What a plan may do to the flags: branch within a scope to an item listed there, and mark a loop that
heeds it. -/
structure FinishPlan.Lawful (t : Timeline) (f : FinishPlan) : Prop where
  branches : ∀ b, f.branch = some b → ∀ x s, b.routeFor x = .scope s → t.Lists s x
  escalates : ∀ s, f.escalateTo = some s → t.Branches s

namespace Context

variable {c c' : Context} {t : Timeline} {latest : Lookup} {o : FinishOutcome}

def Lawful (t : Timeline) (c : Context) : Prop := ∀ x, (c.flags x).Lawful t x

theorem lawful_of_clear (h : ∀ x, c.flags x = .clear) : c.Lawful t := fun x => h x ▸ Flags.lawful_clear

theorem lawful_start : start.Lawful t := lawful_of_clear fun x => by cases x <;> rfl

theorem lawful_reload (c : Context) : c.reload.Lawful t := lawful_of_clear fun x => by cases x <;> rfl

theorem Lawful.update (h : c.Lawful t) (s : Scope) {f : Flags → Flags}
    (hf : (c.flags s).Lawful t s → (f (c.flags s)).Lawful t s) : (c.update s f).Lawful t := by
  intro x
  rw [flags_update]
  split
  · rename_i hx
    rw [hx]
    exact hf (h s)
  · exact h x

theorem Lawful.setJump (h : c.Lawful t) (x : ItemId) : (c.setJump x).Lawful t := by
  intro y
  rw [flags_setJump]
  exact h y

theorem Lawful.clearJump (h : c.Lawful t) : c.clearJump.Lawful t := by
  intro y
  rw [flags_clearJump]
  exact h y

theorem Lawful.abort (h : c.Lawful t) (reason : String) : (c.abort reason).Lawful t := by
  intro y
  rw [flags_abort]
  exact h y

theorem Lawful.decides (h : c.Lawful t) {g : Guard} {d : Decision} (hd : Decides g c d c') :
    c'.Lawful t := by
  cases hd with
  | jumpTarget => exact h.clearJump
  | jumpThrough | skippedForJump => exact h
  | normal | skippedForBranch => exact h.update _ fun hf => hf
  | branchTarget _ _ hs =>
      refine (h.update g.scope (f := id) fun hf => hf).update g.scope fun hf => hf.execute ?_
      rwa [flags_update, if_pos rfl]

theorem Lawful.follow (h : c.Lawful t) {route : Route} {target : ItemId} {parameters : Option Record}
    (hr : ∀ s, route = .scope s → t.Lists s target) : (c.follow route target parameters).Lawful t := by
  cases route with
  | jump => exact h.setJump target
  | scope s => exact h.update s fun hf => hf.arm (hr s rfl)

theorem Lawful.mark (h : c.Lawful t) {s : Scope} (hs : t.Branches s) :
    (c.update s fun f => { f with shouldBranch := true }).Lawful t :=
  h.update s fun hf => hf.remark fun _ => hs

theorem Lawful.unmark (h : c.Lawful t) (s : Scope) :
    ((c.update s id).update s fun f => { f with shouldBranch := false }).Lawful t :=
  (h.update s (f := id) fun hf => hf).update s fun hf => hf.remark nofun

theorem Lawful.finishesTrial (h : c.Lawful t) {f : FinishPlan} (hf : f.Lawful t)
    (hd : FinishesTrial f latest c o c') : c'.Lawful t := by
  cases hd with
  | repeated => exact h.setJump _
  | branched _ hb => exact h.follow (hf.branches _ hb _)
  | noBranch | idle => exact h
  | escalated _ _ he => exact h.mark (hf.escalates _ he)

theorem Lawful.finishesLoop (h : c.Lawful t) {l : LoopPlan} (hf : l.finish.Lawful t)
    (hd : FinishesLoop l latest c o c') : c'.Lawful t := by
  cases hd with
  | jump | idle => exact h
  | repeated => exact h.setJump _
  | branched _ hb => exact (h.unmark l.scope).follow (hf.branches _ hb _)
  | noBranch => exact h.unmark l.scope
  | unmarked => exact h.update _ fun hf => hf
  | escalated _ _ he => exact h.mark (hf.escalates _ he)
  | aborted => exact h.abort _

theorem Lawful.continues (h : c.Lawful t) {l : LoopPlan} {items : List Node} {log : DataLog} {again : Bool}
    (hd : Continues l items log c again c') : c'.Lawful t := by
  cases hd with
  | jumpTarget => exact h.clearJump
  | jump | data => exact h

end Context

namespace Environment

open Node Compile Step

variable {σ ρ : Type} {env : Environment σ ρ} {settings : Settings} {tree : List Item} {t : Timeline}
  {scope : Scope} {n : Node} {task : Task} {s : Session σ ρ} {m m' : Moment σ ρ} {responses : σ}
  {arranger : ρ}

theorem isSequence_of_mem (hn : n ∈ flattenIn t.nodes) :
    ∃ scope nodes, t.IsSequence scope nodes ∧ n ∈ nodes := by
  rcases mem_flattenIn_iff.mp hn with htop | ⟨p, l, inner, hl, hin⟩
  · exact ⟨.root, t.nodes, .inl ⟨rfl, rfl⟩, htop⟩
  · exact ⟨l.scope, inner, .inr ⟨p, l, hl, rfl⟩, hin⟩

theorem isSequence_unique (hc : compile settings tree = .ok t) {nodes others : List Node}
    (h : t.IsSequence scope nodes) (h' : t.IsSequence scope others) : nodes = others := by
  rcases h with ⟨hroot, rfl⟩ | ⟨p, l, hl, hscope⟩ <;> rcases h' with ⟨hroot', rfl⟩ | ⟨q, o, ho, hscope'⟩
  · rfl
  · exact absurd (hscope'.symm.trans hroot) (scope_ne_root hc ho)
  · exact absurd (hscope.symm.trans hroot') (scope_ne_root hc hl)
  · have hsame := eq_of_nodup_filterMap (scopesIn_nodup hc) hl ho (congrArg some hscope.symm)
      (congrArg some hscope'.symm)
    cases hsame
    rfl

theorem finish_lawful (hc : compile settings tree = .ok t) (hn : n ∈ flattenIn t.nodes) :
    n.finish.Lawful t where
  branches := by
    intro b hb x s hs
    obtain ⟨scope, nodes, hseq, hin⟩ := isSequence_of_mem hn
    obtain ⟨around, sources, rfl, hcomp⟩ := compiled_of_isSequence hc hseq
    obtain ⟨pre, rest, rfl⟩ := List.append_of_mem hin
    obtain ⟨item, later, hnode, hrest⟩ := hcomp.split
    obtain ⟨rfl, hx⟩ := hnode.finish_local.branches b hb x s hs
    rw [← hrest.ids_eq] at hx
    exact ⟨_, hseq, by simp [hx]⟩
  escalates := by
    intro s hs
    obtain ⟨-, p, l, inner, hl, -, hscope, hb⟩ := escalation_loop hc hn hs
    exact ⟨p, l, inner, hl, hscope, hb⟩

theorem hook_lawful (hc : compile settings tree = .ok t) (hn : n ∈ flattenIn t.nodes)
    (h : s.context.Lawful t) : (hook n s).2.Lawful t := by
  have hf := finish_lawful hc hn
  cases n with
  | trial p plan => exact h.finishesTrial hf (Context.finishesTrial _ _ _)
  | loop p l inner => exact h.finishesLoop hf (Context.finishesLoop _ _ _)

theorem consult_lawful (place : Place) (h : s.context.Lawful t) :
    (consult place s).2.context.Lawful t := by
  have hbegun : (begun place s.context).Lawful t := by
    rw [begun]
    split
    · exact h.update _ Flags.Lawful.resetPass
    · exact h
  exact hbegun.decides (Context.decides _ place.guard)

theorem perform_lawful (hc : compile settings tree = .ok t) (env : Environment σ ρ)
    (hw : task.Within t.nodes) (h : s.context.Lawful t) : (env.perform task s).2.2.context.Lawful t := by
  match task with
  | .visit _ [] | .work _ (.trial ..) | .work _ (.loop ..) | .round _ _ 0 _ | .passes _ []
  | .passes _ (_ :: _) => exact h
  | .visit stimulus (n :: r) =>
      simp only [perform]
      split <;> exact consult_lawful n.place h
  | .finish n =>
      simp only [perform, conclude, reportFinish_context]
      exact hook_lawful hc hw h
  | .leave p =>
      simp only [perform, Environment.leave]
      split
      · exact h.update _ Flags.Lawful.resetPass
      · exact h
  | .round l items (left + 1) run =>
      obtain ⟨a, ha⟩ := env.openRun_eq l run s
      simp only [perform, ha]
      exact h.update _ fun _ => Flags.lawful_clear
  | .again l items left run => exact h.continues (Context.continues _ l items s.log)

theorem next_lawful (hc : compile settings tree = .ok t) (hw : ∀ task ∈ m.tasks, task.Within t.nodes)
    (h : m.session.context.Lawful t) (hn : env.next t m = some m') : m'.session.context.Lawful t := by
  rcases next_inv hn with ⟨-, rfl⟩ | ⟨task, rest, hcontrol, rfl⟩
  · have hclose := env.closes t m.session m.archived m.left
    generalize env.close t m.session m.archived m.left = m' at hclose
    cases hclose with
    | finished | exhausted => exact h
    | restarted => exact Context.lawful_reload _
    | dropped => exact h.clearJump
  · exact perform_lawful hc env (hw task (by simp [Moment.tasks, hcontrol])) h

theorem reaches_lawful (hc : compile settings tree = .ok t)
    (h : env.Reaches t (env.opening t responses arranger) m) : m.session.context.Lawful t := by
  induction h with
  | refl => exact Context.lawful_start
  | tail ha hab ih =>
      exact next_lawful hc (reaches_within (opening_sound env t responses arranger).within ha) ih hab

/-- With a whole pass behind it, a scope awaits no target any more. -/
theorem pass_delivers (hc : compile settings tree = .ok t)
    (h : env.Reaches t (env.opening t responses arranger) m) {nodes : List Node} {stimulus : Option Record}
    {rest : List Task} {u : Session σ ρ} (hseq : t.IsSequence scope nodes)
    (hm : m.control = .running (.visit stimulus nodes :: rest))
    (hu : env.runNodes stimulus nodes m.session = (.next, u)) {target : ItemId}
    (ha : (u.context.flags scope).Armed target) : (u.context.flags scope).targetExecuted = true := by
  rcases List.eq_nil_or_concat nodes with rfl | ⟨init, n, rfl⟩
  · rw [runNodes_nil] at hu
    obtain rfl : m.session = u := congrArg Prod.snd hu
    rcases (reaches_lawful hc h scope).shape with hunarmed | ⟨x, -, nodes, hnodes, hx⟩
    · exact absurd hunarmed ha.not_unarmed
    · rw [isSequence_unique hc hnodes hseq] at hx
      cases hx
  · rw [List.concat_eq_append] at *
    obtain ⟨scope', pre, a, hbegins, hpre⟩ := reaches_begins hc h hm
    have hsequence := hbegins.sequence
    rw [← List.append_assoc] at hsequence
    obtain rfl : scope' = scope :=
      (guard_scope_of_isSequence hc hsequence).symm.trans (guard_scope_of_isSequence hc hseq)
    have hwhole : env.runNodes stimulus ((pre ++ init) ++ [n]) a.session = (.next, u) := by
      rw [List.append_assoc, runNodes_append, andThen_next hpre, hu]
    cases pass_settled hc hsequence hbegins.fresh hwhole with
    | unarmed hunarmed => exact absurd hunarmed ha.not_unarmed
    | delivered ht _ _ => exact ht

/-- At every moment of a run each scope is in one of two states: no branch has been taken in it, or one
to an item of its own sequence. Only a loop that has branches to take is marked. After a pass, a target
that was branched to has run. -/
theorem flags_lawful (hc : compile settings tree = .ok t) (env : Environment σ ρ) (responses : σ)
    (arranger : ρ) (h : env.Reaches t (env.opening t responses arranger) m) :
    (∀ x, (m.session.context.flags x).Unarmed ∨
      ∃ target nodes, (m.session.context.flags x).Armed target ∧ t.IsSequence x nodes ∧
        (∀ others, t.IsSequence x others → others = nodes) ∧ target ∈ nodes.map Node.id) ∧
    (∀ x, (m.session.context.flags x).shouldBranch = true → x ≠ .root ∧
      ∃ p l inner, .loop p l inner ∈ flattenIn t.nodes ∧ l.scope = x ∧ l.finish.branch.isSome = true) ∧
    ∀ x nodes stimulus rest u, t.IsSequence x nodes →
      m.control = .running (.visit stimulus nodes :: rest) →
      env.runNodes stimulus nodes m.session = (.next, u) →
      ∀ target, (u.context.flags x).Armed target → (u.context.flags x).targetExecuted = true := by
  have hlawful := reaches_lawful hc h
  refine ⟨?_, ?_, ?_⟩
  · intro x
    refine (hlawful x).shape.imp_right ?_
    rintro ⟨target, harmed, nodes, hseq, hmem⟩
    exact ⟨target, nodes, harmed, hseq, fun others ho => isSequence_unique hc ho hseq, hmem⟩
  · intro x hmark
    obtain ⟨p, l, inner, hl, rfl, hb⟩ := (hlawful x).mark hmark
    exact ⟨scope_ne_root hc hl, p, l, inner, hl, rfl, hb⟩
  · intro x nodes stimulus rest u hseq hm hu target harmed
    exact pass_delivers hc h hseq hm hu harmed

def detour : Loop := { Loop.plain ⟨"l"⟩ with branches := [⟨"e"⟩] }

def detourItems : List Item := [.trial fork, .trial (.plain ⟨"b"⟩), .trial (.plain ⟨"c"⟩), .trial (.plain ⟨"d"⟩)]

def detoured : List Item := [.loop detour detourItems, .trial (.plain ⟨"e"⟩)]

def detouredTimeline : Timeline := (compile .default detoured).toOption.getD ⟨[], .empty, []⟩

def detourBody : List Node :=
  match detouredTimeline.nodes with
  | .loop _ _ items :: _ => items
  | _ => []

def onDetour (n : Nat) : Moment Unit Unit :=
  (silent.steps detouredTimeline n (silent.opening detouredTimeline () ())).getD
    (silent.opening detouredTimeline () ())

theorem flags_lawful_detour :
    compile .default detoured = .ok detouredTimeline ∧
      (∃ nodes, ((onDetour 12).session.context.flags (.loop "l")).Armed ⟨"c"⟩ ∧
        detouredTimeline.IsSequence (.loop "l") nodes ∧ ⟨"c"⟩ ∈ nodes.map Node.id) ∧
      ((onDetour 12).session.context.flags (.loop "l")).shouldBranch = true ∧
      (∃ p l inner, .loop p l inner ∈ flattenIn detouredTimeline.nodes ∧ l.scope = .loop "l" ∧
        l.finish.branch.isSome = true) ∧
      ∃ nodes rest u, (onDetour 4).control = .running (.visit none nodes :: rest) ∧
        silent.runNodes none nodes (onDetour 4).session = (.next, u) ∧
        (u.context.flags (.loop "l")).Armed ⟨"c"⟩ ∧
        (u.context.flags (.loop "l")).targetExecuted = true := by
  have hc : compile .default detoured = .ok detouredTimeline := by cbv
  have hreach : ∀ n, silent.steps detouredTimeline n _ = some (onDetour n) →
      silent.Reaches detouredTimeline (silent.opening detouredTimeline () ()) (onDetour n) :=
    fun n h => steps_reaches silent h
  have harmed : ((onDetour 12).session.context.flags (.loop "l")).Armed ⟨"c"⟩ := ⟨rfl, rfl, rfl⟩
  have hmark : ((onDetour 12).session.context.flags (.loop "l")).shouldBranch = true := rfl
  obtain ⟨hshape, hmarks, -⟩ := flags_lawful hc silent () () (hreach 12 rfl)
  obtain ⟨-, -, hpass⟩ := flags_lawful hc silent () () (hreach 4 rfl)
  have hlisted : ∃ nodes, detouredTimeline.IsSequence (.loop "l") nodes ∧ ⟨"c"⟩ ∈ nodes.map Node.id := by
    rcases hshape (.loop "l") with hunarmed | ⟨target, nodes, ht, hseq, -, hmem⟩
    · cases harmed.nextTrial.symm.trans hunarmed.nextTrial
    · obtain rfl := Option.some.inj (harmed.nextTrial.symm.trans ht.nextTrial)
      exact ⟨nodes, hseq, hmem⟩
  obtain ⟨nodes, hseq, hmem⟩ := hlisted
  have hbody : ∃ p l, detouredTimeline.nodes.head? = some (.loop p l detourBody) ∧ l.scope = .loop "l" :=
    ⟨_, _, rfl, rfl⟩
  obtain ⟨p, l, hhead, hscope⟩ := hbody
  have hin : .loop p l detourBody ∈ flattenIn detouredTimeline.nodes :=
    mem_flattenIn_iff.mpr (.inl (List.mem_of_head? hhead))
  have hcontrol : ∃ rest, (onDetour 4).control = .running (.visit none detourBody :: rest) := ⟨_, rfl⟩
  obtain ⟨rest, hcontrol⟩ := hcontrol
  have hrun : ∃ u, silent.runNodes none detourBody (onDetour 4).session = (.next, u) ∧
      (u.context.flags (.loop "l")).Armed ⟨"c"⟩ := ⟨_, by cbv, by cbv; exact ⟨rfl, rfl, rfl⟩⟩
  obtain ⟨u, hu, hbranched⟩ := hrun
  have hdelivered := hpass _ _ _ _ _ (.inr ⟨p, l, hin, hscope.symm⟩) hcontrol hu _ hbranched
  exact ⟨hc, ⟨nodes, harmed, hseq, hmem⟩, hmark, (hmarks _ hmark).2, detourBody, rest, u, hcontrol, hu,
    hbranched, hdelivered⟩

end Environment

end BranchingTimeline
