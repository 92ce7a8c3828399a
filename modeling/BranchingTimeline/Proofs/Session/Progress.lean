import BranchingTimeline.Proofs.Session.Delivery
import BranchingTimeline.Proofs.Session.Passes

namespace BranchingTimeline

namespace Flags

variable {f g : Flags} {ids : List ItemId} {x : ItemId}

structure Unarmed (f : Flags) : Prop where
  nextTrial : f.nextTrial = none
  skipRemaining : f.skipRemaining = false
  targetExecuted : f.targetExecuted = false
  branchingActive : f.branchingActive = false
  customParameters : f.customParameters = none

def passing (f : Flags) : Flags := { f with shouldBranch := false }

theorem unarmed_iff : f.Unarmed ↔ f.passing = .clear := by
  constructor
  · rintro ⟨hn, hs, ht, hb, hp⟩
    simp [passing, clear, hn, hs, ht, hb, hp]
  · intro h
    simp only [passing, clear, Flags.mk.injEq] at h
    obtain ⟨hn, hs, ht, hb, hp, -⟩ := h
    exact ⟨hn, hs, ht, hb, hp⟩

theorem unarmed_clear : clear.Unarmed := ⟨rfl, rfl, rfl, rfl, rfl⟩

theorem unarmed_resetPass (f : Flags) : f.resetPass.Unarmed := ⟨rfl, rfl, rfl, rfl, rfl⟩

theorem Unarmed.congr (h : f.Unarmed) (hg : g.passing = f.passing) : g.Unarmed :=
  unarmed_iff.mpr (hg.trans (unarmed_iff.mp h))

/-- No branch is under way in the scope: none has been taken, or its target has run, one of the nodes
with the given ids. -/
inductive Settled (ids : List ItemId) (f : Flags) : Prop
  | unarmed (h : f.Unarmed)
  | delivered {x : ItemId} (ht : f.targetExecuted = true) (hn : f.nextTrial = some x) (hx : x ∈ ids)

theorem Settled.congr (h : f.Settled ids) (hg : g.passing = f.passing) : g.Settled ids := by
  cases h with
  | unarmed h => exact .unarmed (h.congr hg)
  | delivered ht hn hx =>
      exact .delivered ((congrArg targetExecuted hg).trans ht) ((congrArg nextTrial hg).trans hn) hx

theorem Settled.mono (h : f.Settled ids) {others : List ItemId} (hi : ids ⊆ others) : f.Settled others := by
  cases h with
  | unarmed h => exact .unarmed h
  | delivered ht hn hx => exact .delivered ht hn (hi hx)

end Flags

namespace Context

variable {c c' : Context} {g : Guard} {d : Decision} {latest : Lookup} {x : ItemId} {route : Route}

theorem settled_of_pending {scope : Scope} {ids : List ItemId}
    (h : (c.flags scope).Settled ids ∨ ∃ x, c.Awaits scope x) (hp : c.pendingJump = some x) :
    (c.flags scope).Settled ids := by
  rcases h with h | ⟨y, ha⟩
  · exact h
  · rw [ha.pending] at hp
    cases hp

theorem Decides.settled {ids : List ItemId} (h : Decides g c d c') (hd : d.runs = true)
    (hs : (c.flags g.scope).Settled ids ∨ ∃ x, c.Awaits g.scope x) :
    (c'.flags g.scope).Settled (ids ++ [g.id]) := by
  have hmono : ids ⊆ ids ++ [g.id] := List.subset_append_left _ _
  cases h with
  | skippedForJump | skippedForBranch => cases hd
  | jumpTarget hp =>
      rw [flags_clearJump]
      exact (settled_of_pending hs hp).mono hmono
  | jumpThrough hp => exact (settled_of_pending hs hp).mono hmono
  | normal _ ht hk =>
      rw [flags_update, if_pos rfl]
      rcases hs with hs | ⟨x, ha⟩
      · exact hs.mono hmono
      · rw [ha.skipping] at hk
        cases hk
  | branchTarget _ _ _ hn =>
      refine .delivered (x := g.id) ?_ ?_ (by simp) <;> simp [flags_update, hn]

theorem Decides.flags_skipped (h : Decides g c d c') (hd : d.runs = false) (scope : Scope) :
    c'.flags scope = c.flags scope := by
  cases h with
  | jumpTarget | jumpThrough | normal | branchTarget => cases hd
  | skippedForJump => rfl
  | skippedForBranch =>
      rw [flags_update]
      split
      · rename_i hs
        rw [hs]
        rfl
      · rfl

theorem FinishesTrial.choice {f : FinishPlan} (h : FinishesTrial f latest c (.branched x route) c') :
    ∃ b choice, f.branch = some b ∧ b.select latest = some choice ∧ choice.target = x ∧
      ∃ d : Context, c' = d.follow route x choice.parameters := by
  cases h with
  | branched _ hb hs => exact ⟨_, _, hb, hs, rfl, _, rfl⟩

theorem FinishesLoop.choice {l : LoopPlan} (h : FinishesLoop l latest c (.branched x route) c') :
    ∃ b choice, l.finish.branch = some b ∧ b.select latest = some choice ∧ choice.target = x ∧
      ∃ d : Context, c' = d.follow route x choice.parameters := by
  cases h with
  | branched _ hb _ hs => exact ⟨_, _, hb, hs, rfl, _, rfl⟩

end Context

namespace Environment

open Step Node Compile

variable {σ ρ : Type} {env : Environment σ ρ} {settings : Settings} {tree : List Item} {t : Timeline}
  {stimulus : Option Record} {scope : Scope} {pre rest : List Node} {n : Node} {s u v : Session σ ρ}
  {choice : BranchChoice}

theorem guard_scope_of_isSequence (hc : compile settings tree = .ok t)
    (hseq : t.IsSequence scope (pre ++ n :: rest)) : n.place.guard.scope = scope := by
  obtain ⟨around, sources, rfl, hcomp⟩ := compiled_of_isSequence hc hseq
  obtain ⟨item, later, hn, -⟩ := hcomp.split
  exact hn.guard_scope

theorem hook_choice {x : ItemId} {route : Route} (h : (hook n s).1 = .branched x route) :
    ∃ b choice, n.finish.branch = some b ∧ b.select s.log.latest = some choice ∧ choice.target = x ∧
      ∃ d : Context, (hook n s).2 = d.follow route x choice.parameters := by
  cases n with
  | trial p plan => exact (Context.finishesTrial_of h).choice
  | loop p l inner => exact (Context.finishesLoop_of h).choice

/-- Of some nodes at the beginning of a pass, the last one that ran has branched within the scope, by
the given choice: all nodes after it have been skipped. -/
def Chosen (env : Environment σ ρ) (stimulus : Option Record) (scope : Scope) (pre : List Node)
    (s : Session σ ρ) (choice : BranchChoice) : Prop :=
  ∃ before n mid v w b, pre = before ++ n :: mid ∧ env.runNodes stimulus before s = (.next, v) ∧
    env.Finishes stimulus n v (.branched choice.target (.scope scope)) w ∧
    n.finish.branch = some b ∧ b.select w.log.latest = some choice ∧
    ∀ between k after z, mid = between ++ k :: after →
      env.runNodes stimulus (before ++ n :: between) s = (.next, z) → (consult k.place z).1.runs = false

theorem Chosen.skip (h : env.Chosen stimulus scope pre s choice)
    (hpre : env.runNodes stimulus pre s = (.next, v)) (hn : (consult n.place v).1.runs = false) :
    env.Chosen stimulus scope (pre ++ [n]) s choice := by
  obtain ⟨before, k, mid, v', w, b, rfl, hv, hfin, hb, hs, hskip⟩ := h
  refine ⟨before, k, mid ++ [n], v', w, b, by simp, hv, hfin, hb, hs, ?_⟩
  intro between j after z hmid hz
  rcases List.eq_nil_or_concat after with rfl | ⟨init, last, rfl⟩
  · obtain ⟨rfl, hj⟩ := List.append_inj' hmid rfl
    obtain rfl := (List.cons.inj hj).1
    rw [hpre] at hz
    obtain rfl := congrArg Prod.snd hz
    exact hn
  · rw [List.concat_eq_append, ← List.cons_append, ← List.append_assoc] at hmid
    obtain ⟨rfl, -⟩ := List.append_inj' hmid rfl
    exact hskip between j init z rfl hz

variable (env stimulus) in
theorem awaits_skipped {target : ItemId} {mid : List Node}
    (hg : ∀ k ∈ mid, k.guard.scope = scope ∧ k.guard.beginsPass = false)
    (ha : s.context.Awaits scope target)
    (hskip : ∀ between k after z, mid = between ++ k :: after →
      env.runNodes stimulus between s = (.next, z) → (consult k.place z).1.runs = false) :
    target ∉ mid.map Node.id ∧ ∃ u, env.runNodes stimulus mid s = (.next, u) ∧
      u.context.Awaits scope target ∧ u.context.flags scope = s.context.flags scope := by
  have hreach : ∀ nodes ⊆ mid, (∀ k ∈ nodes, k.id ≠ target) →
      ∃ u, env.runNodes stimulus nodes s = (.next, u) ∧
        u.context.Awaits scope target ∧ u.context.flags scope = s.context.flags scope := by
    intro nodes hsub hne
    obtain ⟨u, hu, -, hp, hf⟩ := runNodes_blocked env stimulus (fun k hk => hg k (hsub hk))
      fun k hk => ha.blocks (hne k hk)
    exact ⟨u, hu, ⟨hp.trans ha.pending, hf ▸ ha.waiting, hf ▸ ha.skipping, hf ▸ ha.target⟩, hf⟩
  have hout : target ∉ mid.map Node.id := by
    intro hm
    obtain ⟨ids, others, hids, hfirst⟩ := List.eq_append_cons_of_mem hm
    obtain ⟨between, tail, rfl, rfl, htail⟩ := List.map_eq_append_iff.mp hids
    obtain ⟨k, after, rfl, hid, -⟩ := List.map_eq_cons_iff.mp htail
    obtain ⟨z, hz, hawaits, -⟩ := hreach between (List.subset_append_left _ _) fun j hj he =>
      hfirst (List.mem_map.mpr ⟨j, hj, he⟩)
    obtain ⟨hscope, hbegins⟩ := hg k (by simp)
    have hruns := (consult_awaits (k := k) hbegins (hscope.symm ▸ hid.symm ▸ hawaits)).1
    have hnot := hskip between k after z rfl hz
    rw [hruns] at hnot
    cases hnot
  exact ⟨hout, hreach mid (List.Subset.refl _) fun k hk he => hout (List.mem_map.mpr ⟨k, hk, he⟩)⟩

theorem Chosen.awaits (hc : compile settings tree = .ok t) (hseq : t.IsSequence scope (pre ++ rest))
    (h : env.Chosen stimulus scope pre s choice) (hu : env.runNodes stimulus pre s = (.next, u)) :
    u.context.Awaits scope choice.target ∧
      (u.context.flags scope).customParameters = choice.parameters ∧
      choice.target ∈ rest.map Node.id := by
  obtain ⟨before, n, mid, v, w, b, rfl, hv, hfin, hb, hs, hskip⟩ := h
  obtain ⟨around, sources, rfl, hcomp⟩ := compiled_of_isSequence hc hseq
  rw [List.append_assoc, List.cons_append] at hcomp
  obtain ⟨item, later, hn, hrest⟩ := hcomp.split
  obtain ⟨-, hmem, hawaits⟩ := hfin.awaits hn
  have hrun := hfin.runNode_next (by simp)
  rw [leave_of_later hn (List.ne_nil_of_mem hmem)] at hrun
  have hcontext : (conclude n w).2.context = (hook n w).2 := reportFinish_context _ _ _
  have hguards : ∀ k ∈ mid, k.guard.scope = around.scope ∧ k.guard.beginsPass = false := by
    intro k hk
    obtain ⟨hscope, hbegins⟩ := hrest.guards (List.mem_append_left _ hk)
    exact ⟨hscope, hbegins (by omega)⟩
  have hto : env.runNodes stimulus (before ++ [n]) s = (.next, (conclude n w).2) := by
    rw [runNodes_append, andThen_next hv, runNodes_cons, runNodes_nil, andThen_done, hrun]
  obtain ⟨hout, x, hx, hxa, hxf⟩ := awaits_skipped env stimulus hguards
    (hcontext.symm ▸ hawaits) (by
      intro between k after z hmid hz
      apply hskip between k after z hmid
      have hsplit : before ++ n :: between = (before ++ [n]) ++ between := by simp
      rw [hsplit, runNodes_append, andThen_next hto, hz])
  have hux : u = x := by
    have hsplit : before ++ n :: mid = (before ++ [n]) ++ mid := by simp
    rw [hsplit, runNodes_append, andThen_next hto, hx] at hu
    exact (congrArg Prod.snd hu).symm
  obtain ⟨b', choice', hb', hs', -, d, hd⟩ := hook_choice hfin.outcome
  obtain rfl := Option.some.inj (hb.symm.trans hb')
  obtain rfl := Option.some.inj (hs.symm.trans hs')
  refine ⟨hux ▸ hxa, ?_, ?_⟩
  · rw [hux, hxf, hcontext, hd]
    simp [Context.follow, Context.flags_update, Flags.arm]
  · rw [← hrest.ids_eq, List.map_append] at hmem
    exact (List.mem_append.mp hmem).resolve_left hout

theorem Chosen.begun_awaits (hc : compile settings tree = .ok t)
    (hseq : t.IsSequence scope (pre ++ n :: rest)) (h : env.Chosen stimulus scope pre s choice)
    (hu : env.runNodes stimulus pre s = (.next, u)) :
    (begun n.place u.context).Awaits scope choice.target ∧
      ((begun n.place u.context).flags scope).customParameters = choice.parameters := by
  obtain ⟨around, sources, rfl, hcomp⟩ := compiled_of_isSequence hc hseq
  obtain ⟨item, later, hn, -⟩ := hcomp.split
  have hpos : 0 < pre.length := by
    obtain ⟨before, k, mid, _, _, _, rfl, -⟩ := h
    simp
  have hbegins : n.guard.beginsPass = false := by
    have hb : n.guard.beginsPass = (0 + pre.length = 0 && !around.scope.isRoot) :=
      congrArg (·.guard.beginsPass) hn.place_eq
    rw [hb, decide_eq_false (by omega), Bool.false_and]
  obtain ⟨hawaits, hparameters, -⟩ := h.awaits hc hseq hu
  rw [begun_eq hbegins]
  exact ⟨hawaits, hparameters⟩

theorem consult_decides (place : Place) (s : Session σ ρ) :
    Context.Decides place.guard (begun place s.context) (consult place s).1 (consult place s).2.context :=
  Context.decides (begun place s.context) place.guard

theorem begun_flags (place : Place) (c : Context) :
    (begun place c).flags place.guard.scope = c.flags place.guard.scope ∨
      ((begun place c).flags place.guard.scope).Unarmed := by
  rw [begun]
  split
  · rw [Context.resetPass, Context.flags_update, if_pos rfl]
    exact .inr (Flags.unarmed_resetPass _)
  · exact .inl rfl

theorem first_unarmed (hc : compile settings tree = .ok t) (hseq : t.IsSequence scope (n :: rest))
    (hfresh : scope = .root → s.context.root = .clear) :
    ((begun n.place s.context).flags scope).Unarmed := by
  obtain ⟨around, sources, rfl, hcomp⟩ := compiled_of_isSequence hc hseq
  obtain ⟨item, r, -, hn, -⟩ := hcomp.cons_inv
  have hscope : n.place.guard.scope = around.scope := hn.guard_scope
  by_cases hroot : around.scope = .root
  · rcases begun_flags n.place s.context with hf | hf
    · rw [hscope] at hf
      rw [hf, hroot]
      have hclear : s.context.flags .root = .clear := hfresh hroot
      rw [hclear]
      exact Flags.unarmed_clear
    · rwa [hscope] at hf
  · have hbegins : n.place.guard.beginsPass = true := by
      rw [hn.place_eq]
      simp [placeOf, Scope.isRoot, hroot]
    rw [begun, if_pos hbegins, Context.resetPass, hscope, Context.flags_update, if_pos rfl]
    exact Flags.unarmed_resetPass _

theorem runNode_settled {around : Surroundings} {index : Nat} {later : List ItemId} {item : Item}
    (hn : NodeOf around index later item n) (hs : around.scope ∉ scopesIn [n]) {ids : List ItemId}
    (h : ((begun n.place v.context).flags around.scope).Settled ids ∨
      ∃ x, (begun n.place v.context).Awaits around.scope x)
    (hruns : (consult n.place v).1.runs = true) (hu : env.runNode stimulus n v = (.next, u)) :
    (u.context.flags around.scope).Settled (ids ++ [n.id]) ∨
      ∃ x w, env.Finishes stimulus n v (.branched x (.scope around.scope)) w := by
  have hscope : n.place.guard.scope = around.scope := hn.guard_scope
  rw [runNode_eq, guarded_run hruns, andThen_eq_next] at hu
  obtain ⟨x, hx, hleave⟩ := hu
  rw [execute, andThen_eq_next] at hx
  obtain ⟨w, hw, hx⟩ := hx
  by_cases hb : ∃ x, (hook n w).1 = .branched x (.scope around.scope)
  · obtain ⟨x, hb⟩ := hb
    exact .inr ⟨x, w, hruns, hw, hb⟩
  · have hsettled : ((consult n.place v).2.context.flags around.scope).Settled (ids ++ [n.id]) := by
      rw [← hscope] at h ⊢
      exact (consult_decides n.place v).settled hruns h
    have hwork : w.context.flags around.scope = (consult n.place v).2.context.flags around.scope := by
      have hk := keeps_work env hn hs stimulus (consult n.place v).2
      rwa [hw] at hk
    have hhook : ((hook n w).2.flags around.scope).passing = (w.context.flags around.scope).passing :=
      hook_flag (fun _ _ => rfl) fun x he => hb ⟨x, he⟩
    have hxc : x.context = (hook n w).2 := by
      have hcontext := reportFinish_context (reportedId n) (hook n w) w
      rwa [show reportFinish (reportedId n) (hook n w) w = (.next, x) from hx] at hcontext
    have hdone : (x.context.flags around.scope).Settled (ids ++ [n.id]) := by
      rw [hxc]
      exact (hwork ▸ hsettled).congr hhook
    obtain rfl : leave n.place x = u := congrArg Prod.snd hleave
    rw [leave]
    split
    · refine .inl (.unarmed ?_)
      simp only [Session.withContext, Context.resetPass, hscope, Context.flags_update, if_true]
      exact Flags.unarmed_resetPass _
    · exact .inl hdone

theorem consult_skipped_flags {place : Place} (h : (consult place s).1.runs = false) (scope : Scope) :
    (consult place s).2.context.flags scope = (begun place s.context).flags scope :=
  (consult_decides place s).flags_skipped h scope

/-- What a node finds, the next one finds again: no branch is under way, or the last node that ran has
taken one. -/
theorem progress_step (hc : compile settings tree = .ok t) (hseq : t.IsSequence scope (pre ++ n :: rest))
    (hpre : env.runNodes stimulus pre s = (.next, v))
    (h : ((begun n.place v.context).flags scope).Settled (pre.map Node.id) ∨
      ∃ choice, env.Chosen stimulus scope pre s choice)
    (hu : env.runNode stimulus n v = (.next, u)) :
    (u.context.flags scope).Settled ((pre ++ [n]).map Node.id) ∨
      ∃ choice, env.Chosen stimulus scope (pre ++ [n]) s choice := by
  rw [List.map_append]
  cases hd : (consult n.place v).1.runs with
  | false =>
      rcases h with h | ⟨choice, h⟩
      · left
        rw [runNode_eq, guarded_skip hd] at hu
        obtain rfl := congrArg Prod.snd hu
        change ((consult n.place v).2.context.flags scope).Settled _
        rw [consult_skipped_flags hd scope]
        exact h.mono (List.subset_append_left _ _)
      · exact .inr ⟨choice, h.skip hpre hd⟩
  | true =>
      obtain ⟨around, sources, rfl, hcomp⟩ := compiled_of_isSequence hc hseq
      obtain ⟨item, later, hn, -⟩ := hcomp.split
      have hout := scope_not_mem_of_isSequence hc hseq (n := n) (by simp)
      have hentry : ((begun n.place v.context).flags around.scope).Settled (pre.map Node.id) ∨
          ∃ x, (begun n.place v.context).Awaits around.scope x := by
        refine h.imp_right ?_
        rintro ⟨choice, hchosen⟩
        exact ⟨choice.target, (hchosen.begun_awaits hc hseq hpre).1⟩
      rcases runNode_settled hn hout hentry hd hu with hsettled | ⟨x, w, hfin⟩
      · exact .inl hsettled
      · obtain ⟨b, choice, hb, hsel, rfl, -⟩ := hook_choice hfin.outcome
        refine .inr ⟨choice, pre, n, [], v, w, b, rfl, hpre, hfin, hb, hsel, ?_⟩
        intro between k after z hmid
        simp at hmid

/-- In a pass, a node finds no branch under way in its scope, or the last node that ran has taken one. -/
theorem progress_begun (hc : compile settings tree = .ok t) (hseq : t.IsSequence scope (pre ++ n :: rest))
    (hfresh : scope = .root → s.context.root = .clear) (hu : env.runNodes stimulus pre s = (.next, u)) :
    ((begun n.place u.context).flags scope).Settled (pre.map Node.id) ∨
      ∃ choice, env.Chosen stimulus scope pre s choice := by
  induction pre using List.reverseRecOn generalizing n rest u with
  | nil =>
      rw [runNodes_nil] at hu
      obtain rfl : s = u := congrArg Prod.snd hu
      exact .inl (.unarmed (first_unarmed hc hseq hfresh))
  | append_singleton pre k ih =>
      have hn := guard_scope_of_isSequence hc hseq
      rw [List.append_assoc, List.singleton_append] at hseq
      rw [runNodes_append, andThen_eq_next] at hu
      obtain ⟨v, hv, hu⟩ := hu
      rw [runNodes_cons, runNodes_nil, andThen_done] at hu
      have hstep := progress_step hc hseq hv (ih hseq hv) hu
      refine hstep.imp_left ?_
      intro hsettled
      rcases begun_flags n.place u.context with hf | hf
      · rw [hn] at hf
        rwa [hf]
      · rw [hn] at hf
        exact .unarmed hf

theorem pass_settled (hc : compile settings tree = .ok t) (hseq : t.IsSequence scope (pre ++ [n]))
    (hfresh : scope = .root → s.context.root = .clear)
    (hu : env.runNodes stimulus (pre ++ [n]) s = (.next, u)) :
    (u.context.flags scope).Settled ((pre ++ [n]).map Node.id) := by
  have hrun := hu
  rw [runNodes_append, andThen_eq_next] at hu
  obtain ⟨v, hv, hu⟩ := hu
  rw [runNodes_cons, runNodes_nil, andThen_done] at hu
  rcases progress_step hc hseq hv (progress_begun hc hseq hfresh hv) hu with h | ⟨choice, h⟩
  · exact h
  · have hwhole : t.IsSequence scope ((pre ++ [n]) ++ []) := by simpa using hseq
    cases (h.awaits hc hwhole hrun).2.2

end Environment

end BranchingTimeline
