import BranchingTimeline.Proofs.Session.Frame

namespace BranchingTimeline

namespace Context

variable {c c' : Context} {g : Guard} {d : Decision}

structure Blocks (c : Context) (scope : Scope) (id : ItemId) : Prop where
  pending : c.pendingJump = none
  flags : (c.flags scope).targetExecuted = true ∨
    (c.flags scope).skipRemaining = true ∧ (c.flags scope).nextTrial ≠ some id

theorem Blocks.congr {scope : Scope} {id : ItemId} (h : c.Blocks scope id)
    (hp : c'.pendingJump = c.pendingJump) (hf : c'.flags scope = c.flags scope) :
    c'.Blocks scope id := by
  refine ⟨hp.trans h.pending, ?_⟩
  rw [hf]
  exact h.flags

/-- A scope in which a branch has been taken to a node that is still to come. -/
structure Awaits (c : Context) (scope : Scope) (target : ItemId) : Prop where
  pending : c.pendingJump = none
  waiting : (c.flags scope).targetExecuted = false
  skipping : (c.flags scope).skipRemaining = true
  target : (c.flags scope).nextTrial = some target

theorem Awaits.blocks {scope : Scope} {target id : ItemId} (h : c.Awaits scope target)
    (hid : id ≠ target) : c.Blocks scope id := by
  refine ⟨h.pending, .inr ⟨h.skipping, ?_⟩⟩
  rw [h.target]
  intro he
  exact hid (Option.some.inj he).symm

theorem Decides.of_blocks (h : Decides g c d c') (hb : c.Blocks g.scope g.id) :
    d = .skippedForBranch ∧ c' = c.update g.scope id := by
  obtain ⟨hp, hf⟩ := hb
  cases h with
  | jumpTarget hj | jumpThrough hj _ _ | skippedForJump hj _ _ =>
      rw [hp] at hj
      cases hj
  | normal _ ht hs => simp [ht, hs] at hf
  | branchTarget _ ht hs hn => simp [ht, hn] at hf
  | skippedForBranch _ _ => exact ⟨rfl, rfl⟩

theorem Decides.of_awaits (h : Decides g c d c') (ha : c.Awaits g.scope g.id) :
    d = .branchTarget ∧ c'.pendingJump = none ∧ (c'.flags g.scope).targetExecuted = true := by
  obtain ⟨hp, hw, hs, ht⟩ := ha
  cases h with
  | jumpTarget hj | jumpThrough hj _ _ | skippedForJump hj _ _ =>
      rw [hp] at hj
      cases hj
  | normal _ _ hs' => simp [hs] at hs'
  | branchTarget _ _ _ _ => simp [flags_update, hp]
  | skippedForBranch _ hb => simp [hw, ht] at hb

theorem follow_awaits (hp : c.pendingJump = none) (s : Scope) (target : ItemId)
    (parameters : Option Record) : (c.follow (.scope s) target parameters).Awaits s target := by
  constructor <;> simp [follow, flags_update, Flags.arm, hp]

variable {latest : Lookup} {scope s : Scope} {later : List ItemId} {target : ItemId}
  {o : FinishOutcome}

theorem FinishesTrial.awaits {f : FinishPlan} (h : FinishesTrial f latest c o c')
    (hf : f.Local scope later) (hp : c.pendingJump = none) (ho : o = .branched target (.scope s)) :
    s = scope ∧ target ∈ later ∧ c'.Awaits s target := by
  cases h with
  | branched hr hb hs =>
      obtain ⟨rfl, hroute⟩ := FinishOutcome.branched.inj ho
      obtain ⟨rfl, hmem⟩ := hf.branches _ hb _ _ hroute
      rw [hroute]
      exact ⟨rfl, hmem, follow_awaits hp _ _ _⟩
  | repeated | noBranch | escalated | idle => cases ho

theorem FinishesLoop.awaits {l : LoopPlan} (h : FinishesLoop l latest c o c')
    (hf : l.finish.Local scope later) (ho : o = .branched target (.scope s)) :
    s = scope ∧ target ∈ later ∧ c'.Awaits s target := by
  cases h with
  | branched hp hb hm hs =>
      obtain ⟨rfl, hroute⟩ := FinishOutcome.branched.inj ho
      obtain ⟨rfl, hmem⟩ := hf.branches _ hb _ _ hroute
      rw [hroute]
      exact ⟨rfl, hmem, follow_awaits (by simpa using hp) _ _ _⟩
  | jump | repeated | noBranch | unmarked | escalated | aborted | idle => cases ho

end Context

namespace Environment

open Step Compile Node

variable {σ ρ : Type} {env : Environment σ ρ} {stimulus : Option Record} {scope : Scope}
  {around : Surroundings} {index : Nat} {later : List ItemId} {item : Item} {n : Node}
  {s t : Session σ ρ} {o : FinishOutcome} {target : ItemId}

/-- A node runs, and comes to its finish hook in some session, where its outcome is decided. -/
structure Finishes (env : Environment σ ρ) (stimulus : Option Record) (n : Node) (s : Session σ ρ)
    (o : FinishOutcome) (t : Session σ ρ) : Prop where
  runs : (consult n.place s).1.runs = true
  work : env.work stimulus n (consult n.place s).2 = (.next, t)
  outcome : (hook n t).1 = o

theorem Finishes.runNode_eq (h : env.Finishes stimulus n s o t) :
    env.runNode stimulus n s = (conclude n).andThen (fun s => (.next, leave n.place s)) t := by
  rw [Environment.runNode_eq, guarded_run h.runs, execute, andThen_assoc, andThen_next h.work]

theorem Finishes.runNode_next (h : env.Finishes stimulus n s o t) (ho : o ≠ .aborted) :
    env.runNode stimulus n s = (.next, leave n.place (conclude n t).2) := by
  have hc : conclude n t = (.next, (conclude n t).2) := by
    refine Prod.ext ?_ rfl
    have hout := h.outcome
    cases hr : hook n t with
    | mk o' c =>
        rw [hr] at hout
        obtain rfl : o' = o := hout
        simp only [conclude, reportFinish, hr]
        cases o' with
        | aborted => exact absurd rfl ho
        | idle | repeated | branched | escalated => rfl
  rw [h.runNode_eq, andThen_next hc]

theorem Finishes.trace_branched {route : Route}
    (h : env.Finishes stimulus n s (.branched target route) t) :
    (conclude n t).2.trace = .finished (reportedId n) (.branched target route) :: t.trace := by
  have hout := h.outcome
  rw [conclude, reportFinish, hout]
  rfl

theorem leave_trace (place : Place) (s : Session σ ρ) : (leave place s).trace = s.trace := by
  rw [leave]
  split <;> rfl

theorem leave_of_later (h : NodeOf around index later item n) (hl : later ≠ []) :
    leave n.place s = s := by
  rw [leave, if_neg fun hlast => hl (h.isLast hlast)]

theorem Finishes.pendingJump {p : Place} {t' : TrialPlan} (h : env.Finishes stimulus (.trial p t') s o t)
    (hm : p.guard.members = .empty) : t.context.pendingJump = none := by
  have hd := Context.decides (begun p s.context) p.guard
  obtain rfl : env.present t' p.guard.scope stimulus (consult p s).2 = t := congrArg Prod.snd h.work
  exact hd.pendingJump h.runs hm

theorem Finishes.awaits {c : Scope} (hn : NodeOf around index later item n)
    (h : env.Finishes stimulus n s (.branched target (.scope c)) t) :
    c = around.scope ∧ target ∈ later ∧ (hook n t).2.Awaits c target := by
  cases n with
  | trial p plan =>
      exact (Context.finishesTrial t.context plan.finish t.log.latest).awaits hn.finish_local
        (h.pendingJump hn.trial_members) h.outcome
  | loop p l items =>
      exact (Context.finishesLoop t.context l t.log.latest).awaits hn.finish_local h.outcome

theorem Finishes.targetExecuted (hn : NodeOf around index later item n)
    (hs : around.scope ∉ scopesIn [n]) (h : env.Finishes stimulus n s o t)
    (hm : ((consult n.place s).2.context.flags around.scope).targetExecuted = true)
    (ho : ∀ x, o ≠ .branched x (.scope around.scope)) :
    ((hook n t).2.flags around.scope).targetExecuted = true := by
  have hw : t.context.flags around.scope = (consult n.place s).2.context.flags around.scope := by
    have hk := keeps_work env hn hs stimulus (consult n.place s).2
    rwa [h.work] at hk
  rw [← hw] at hm
  have hfree : ∀ x, (hook n t).1 ≠ .branched x (.scope around.scope) := by
    intro x he
    exact ho x (h.outcome.symm.trans he)
  exact (hook_flag (q := Flags.targetExecuted) (fun _ _ => rfl) hfree).trans hm

def passedOver (n : Node) : Event := .skipped n.id .skippedForBranch

theorem begun_eq {place : Place} (hb : place.guard.beginsPass = false) (c : Context) :
    begun place c = c := by
  rw [begun, if_neg (by simp [hb])]

theorem consult_blocked {k : Node} (hb : k.guard.beginsPass = false)
    (h : s.context.Blocks k.guard.scope k.id) :
    consult k.place s = (.skippedForBranch, s.withContext (s.context.update k.guard.scope id)) := by
  obtain ⟨hd, hc⟩ := (Context.decides s.context k.guard).of_blocks h
  rw [consult_eq, begun_eq hb]
  exact Prod.ext hd (congrArg s.withContext hc)

theorem consult_awaits {k : Node} (hb : k.guard.beginsPass = false)
    (h : s.context.Awaits k.guard.scope k.id) :
    (consult k.place s).1 = .branchTarget ∧ (consult k.place s).2.context.pendingJump = none ∧
      ((consult k.place s).2.context.flags k.guard.scope).targetExecuted = true := by
  rw [consult_eq, begun_eq hb]
  exact (Context.decides s.context k.guard).of_awaits h

variable (env stimulus) in
theorem runNode_blocked {k : Node} (hb : k.guard.beginsPass = false)
    (h : s.context.Blocks k.guard.scope k.id) :
    env.runNode stimulus k s =
      (.next, (s.withContext (s.context.update k.guard.scope id)).report (passedOver k)) := by
  have hc := consult_blocked hb h
  rw [Environment.runNode_eq, guarded_skip (by rw [hc]; rfl), hc]
  rfl

variable (env stimulus) in
theorem runNodes_blocked {nodes : List Node}
    (hg : ∀ k ∈ nodes, k.guard.scope = scope ∧ k.guard.beginsPass = false)
    (hb : ∀ k ∈ nodes, s.context.Blocks scope k.id) :
    ∃ t, env.runNodes stimulus nodes s = (.next, t) ∧
      t.trace = (nodes.map passedOver).reverse ++ s.trace ∧
      t.context.pendingJump = s.context.pendingJump ∧
      t.context.flags scope = s.context.flags scope := by
  induction nodes generalizing s with
  | nil =>
      rw [runNodes_nil]
      exact ⟨s, rfl, rfl, rfl, rfl⟩
  | cons k r ih =>
      obtain ⟨hk, hbegins⟩ := hg k List.mem_cons_self
      have hr := runNode_blocked env stimulus hbegins
        (hk ▸ hb k List.mem_cons_self)
      rw [hk] at hr
      have hflags : (s.context.update scope id).flags scope = s.context.flags scope := by
        simp [Context.flags_update]
      obtain ⟨t, ht, htrace, hp, hf⟩ :=
        @ih ((s.withContext (s.context.update scope id)).report (passedOver k))
          (fun x hx => hg x (List.mem_cons_of_mem k hx))
          fun x hx => (hb x (List.mem_cons_of_mem k hx)).congr (Context.pendingJump_update ..) hflags
      refine ⟨t, ?_, ?_, hp.trans (Context.pendingJump_update ..), hf.trans hflags⟩
      · rw [runNodes_cons, andThen_next hr, ht]
      · rw [htrace]
        simp [Session.report, Session.withContext]

theorem consult_blocked_later {a b : List Node} {k : Node}
    (hg : ∀ m ∈ a ++ k :: b, m.guard.scope = scope ∧ m.guard.beginsPass = false)
    (hb : ∀ m ∈ a ++ k :: b, s.context.Blocks scope m.id)
    (ha : env.runNodes stimulus a s = (.next, t)) : (consult k.place t).1 = .skippedForBranch := by
  obtain ⟨u, hu, -, hp, hf⟩ := runNodes_blocked env stimulus
    (fun m hm => hg m (List.mem_append_left _ hm)) fun m hm => hb m (List.mem_append_left _ hm)
  obtain rfl : u = t := congrArg Prod.snd (hu.symm.trans ha)
  obtain ⟨hscope, hbegins⟩ := hg k (by simp)
  have hk : u.context.Blocks k.guard.scope k.id := hscope ▸ (hb k (by simp)).congr hp hf
  rw [consult_blocked hbegins hk]

variable (env stimulus) in
/-- The first of the nodes with the awaited id is the next one to run. -/
theorem awaited_reached {items : List Item} {rest : List Node}
    (h : Compiled around index items rest) (hi : 0 < index) (ha : s.context.Awaits around.scope target)
    (hm : target ∈ rest.map Node.id) :
    ∃ mid m post x, rest = mid ++ m :: post ∧ m.id = target ∧ (∀ k ∈ mid, k.id ≠ target) ∧
      env.runNodes stimulus mid s = (.next, x) ∧
      x.trace = (mid.map passedOver).reverse ++ s.trace ∧ x.context.Awaits around.scope target := by
  obtain ⟨before, after, hsplit, hfirst⟩ := List.eq_append_cons_of_mem hm
  obtain ⟨mid, tail, rfl, rfl, htail⟩ := List.map_eq_append_iff.mp hsplit
  obtain ⟨m, post, rfl, hid, -⟩ := List.map_eq_cons_iff.mp htail
  have hne : ∀ k ∈ mid, k.id ≠ target := by
    intro k hk he
    apply hfirst
    exact List.mem_map.mpr ⟨k, hk, he⟩
  have hg : ∀ k ∈ mid, k.guard.scope = around.scope ∧ k.guard.beginsPass = false := by
    intro k hk
    obtain ⟨hscope, hbegins⟩ := h.guards (List.mem_append_left _ hk)
    exact ⟨hscope, hbegins hi⟩
  obtain ⟨x, hx, htrace, hp, hf⟩ := runNodes_blocked env stimulus hg
    fun k hk => ha.blocks (hne k hk)
  exact ⟨mid, m, post, x, rfl, hid, hne, hx, htrace, hp.trans ha.pending, hf ▸ ha.waiting,
    hf ▸ ha.skipping, hf ▸ ha.target⟩

/-- With its target run, and neither a new branch within the scope nor a pending jump, the scope
skips all that is left of the sequence. -/
theorem Finishes.blocks {post : List Node}
    (hn : NodeOf around index later item n) (hs : around.scope ∉ scopesIn [n])
    (hlater : post.map Node.id = later) (h : env.Finishes stimulus n s o t)
    (hm : ((consult n.place s).2.context.flags around.scope).targetExecuted = true)
    (ho : ∀ x, o ≠ .branched x (.scope around.scope)) (hp : (hook n t).2.pendingJump = none) :
    ∀ k ∈ post, (leave n.place (conclude n t).2).context.Blocks around.scope k.id := by
  intro k hk
  have hl : later ≠ [] := by
    rw [← hlater]
    exact List.ne_nil_of_mem (List.mem_map_of_mem hk)
  rw [leave_of_later hn hl, conclude, reportFinish_context]
  exact ⟨hp, .inl (h.targetExecuted hn hs hm ho)⟩

theorem Finishes.runs_out {post : List Node} (h : env.Finishes stimulus n s o t) (ho : o ≠ .aborted)
    (hg : ∀ k ∈ post, k.guard.scope = scope ∧ k.guard.beginsPass = false)
    (hb : ∀ k ∈ post, (leave n.place (conclude n t).2).context.Blocks scope k.id) :
    ∃ z, env.runNodes stimulus (n :: post) s = (.next, z) ∧
      z.trace = (post.map passedOver).reverse ++ (conclude n t).2.trace := by
  obtain ⟨z, hz, htrace, -⟩ := runNodes_blocked env stimulus hg hb
  refine ⟨z, ?_, by rw [htrace, leave_trace]⟩
  rw [runNodes_cons, andThen_next (h.runNode_next ho), hz]

theorem Finishes.skips_after {a b : List Node} {k : Node} {z : Session σ ρ}
    (h : env.Finishes stimulus n s o t)
    (hg : ∀ m ∈ a ++ k :: b, m.guard.scope = scope ∧ m.guard.beginsPass = false)
    (hb : ∀ m ∈ a ++ k :: b, (leave n.place (conclude n t).2).context.Blocks scope m.id)
    (hz : env.runNodes stimulus (n :: a) s = (.next, z)) :
    (consult k.place z).1 = .skippedForBranch := by
  rw [runNodes_cons, andThen_eq_next] at hz
  obtain ⟨v, hv, hz⟩ := hz
  rw [h.runNode_eq, andThen_eq_next] at hv
  obtain ⟨v', hv', hv⟩ := hv
  obtain rfl : leave n.place v' = v := congrArg Prod.snd hv
  obtain rfl : (conclude n t).2 = v' := congrArg Prod.snd hv'
  exact consult_blocked_later hg hb hz

/-- A branch within a scope stays in the scope of the sequence, and leads to the first later node
with the target's id: what stands between is skipped, and that node runs in the same pass. Of the
nodes after it none runs, unless it branches within the scope in turn or leaves a jump pending. -/
theorem branch_delivered {settings : Settings} {items : List Item} {timeline : Timeline}
    (hc : compile settings items = .ok timeline) {nodes : List Node}
    (hseq : timeline.IsSequence scope nodes) {pre rest : List Node} (hnodes : nodes = pre ++ n :: rest)
    {s u w : Session σ ρ} (hpre : env.runNodes stimulus pre s = (.next, u)) {c : Scope}
    (hfin : env.Finishes stimulus n u (.branched target (.scope c)) w) :
    c = scope ∧ ∃ mid m post x, rest = mid ++ m :: post ∧ m.id = target ∧
      (∀ k ∈ mid, k.id ≠ target) ∧
      env.runNodes stimulus (pre ++ n :: mid) s = (.next, x) ∧
      x.trace = (mid.map passedOver).reverse ++
        .finished (reportedId n) (.branched target (.scope scope)) :: w.trace ∧
      (consult m.place x).1 = .branchTarget ∧
      (consult m.place x).2.context.pendingJump = none ∧
      (∀ o y, env.Finishes stimulus m x o y → (o = .idle ∨ ∃ e, o = .escalated e) →
        (hook m y).2.pendingJump = none →
        ∃ z, env.runNodes stimulus nodes s = (.next, z) ∧
          z.trace = (post.map passedOver).reverse ++ (conclude m y).2.trace) ∧
      (∀ o y, env.Finishes stimulus m x o y → ∀ a k b z, post = a ++ k :: b →
        env.runNodes stimulus (m :: a) x = (.next, z) → (consult k.place z).1.runs = true →
        (∃ e, o = .branched e (.scope scope)) ∨ (hook m y).2.pendingJump.isSome = true) := by
  obtain ⟨around, sources, rfl, hcomp⟩ := compiled_of_isSequence hc hseq
  subst hnodes
  obtain ⟨item, later, hn, hrest⟩ := hcomp.split
  obtain ⟨rfl, hmem, hawaits⟩ := hfin.awaits hn
  have hrun := hfin.runNode_next (by simp)
  rw [leave_of_later hn (List.ne_nil_of_mem hmem)] at hrun
  have hafter : (conclude n w).2.context.Awaits around.scope target := by
    rw [conclude, reportFinish_context]
    exact hawaits
  obtain ⟨mid, m, post, x, rfl, hid, hne, hx, htrace, hawait⟩ :=
    awaited_reached env stimulus hrest (by omega) hafter
      (hrest.ids_eq ▸ hmem)
  obtain ⟨_, _, hm, hpost⟩ := hrest.split
  have hmguard := hrest.guards (n := m) (by simp)
  have hpguard : ∀ k ∈ post, k.guard.scope = around.scope ∧ k.guard.beginsPass = false := by
    intro k hk
    obtain ⟨hscope, hbegins⟩ := hpost.guards hk
    exact ⟨hscope, hbegins (by omega)⟩
  have hcons := consult_awaits (s := x) (k := m) (hmguard.2 (by omega))
    (by rw [hmguard.1, hid]; exact hawait)
  rw [hmguard.1] at hcons
  have hmout := scope_not_mem_of_isSequence hc hseq (n := m) (by simp)
  have hprefix : env.runNodes stimulus (pre ++ n :: mid) s = (.next, x) := by
    rw [runNodes_append, andThen_next hpre, runNodes_cons, andThen_next hrun, hx]
  have hblocks : ∀ o y, env.Finishes stimulus m x o y → (∀ e, o ≠ .branched e (.scope around.scope)) →
      (hook m y).2.pendingJump = none →
      ∀ k ∈ post, (leave m.place (conclude m y).2).context.Blocks around.scope k.id :=
    fun o y hf ho hp => hf.blocks hm hmout hpost.ids_eq hcons.2.2 ho hp
  refine ⟨rfl, mid, m, post, x, rfl, hid, hne, hprefix, by rw [htrace, hfin.trace_branched],
    hcons.1, hcons.2.1, ?_, ?_⟩
  · intro o y hf ho hp
    have hne : o ≠ .aborted ∧ ∀ e, o ≠ .branched e (.scope around.scope) := by
      rcases ho with rfl | ⟨e, rfl⟩ <;> simp
    obtain ⟨z, hz, hztrace⟩ := hf.runs_out hne.1 hpguard (hblocks o y hf hne.2 hp)
    have hsplit : pre ++ n :: (mid ++ m :: post) = (pre ++ n :: mid) ++ m :: post := by simp
    refine ⟨z, ?_, hztrace⟩
    rw [hsplit, runNodes_append, andThen_next hprefix, hz]
  · intro o y hf a k b z hsplit hz hk
    subst hsplit
    by_contra hno
    simp only [not_or, not_exists, Bool.not_eq_true, Option.isSome_eq_false_iff,
      Option.isNone_iff_eq_none] at hno
    rw [hf.skips_after hpguard (hblocks o y hf hno.1 hno.2) hz] at hk
    cases hk

def fork : Trial := { Trial.plain ⟨"a"⟩ with branches := [⟨"c"⟩] }

def forked : List Item :=
  [.trial fork, .trial (.plain ⟨"b"⟩), .trial (.plain ⟨"c"⟩), .trial (.plain ⟨"d"⟩)]

def forkedTimeline : Timeline := (compile .default forked).toOption.getD ⟨[], .empty, []⟩

theorem branch_delivered_forked :
    compile .default forked = .ok forkedTimeline ∧
      ∃ rest, forkedTimeline.nodes =
        trialNode .root 0 [⟨"b"⟩, ⟨"c"⟩, ⟨"d"⟩] fork :: rest ∧
      ∃ mid m post x, rest = mid ++ m :: post ∧ m.id = ⟨"c"⟩ ∧
        silent.runNodes none (trialNode .root 0 [⟨"b"⟩, ⟨"c"⟩, ⟨"d"⟩] fork :: mid) (start () ())
          = (.next, x) ∧ (consult m.place x).1 = .branchTarget := by
  have hc : compile .default forked = .ok forkedTimeline := by cbv
  have hnodes : forkedTimeline.nodes = [] ++ trialNode .root 0 [⟨"b"⟩, ⟨"c"⟩, ⟨"d"⟩] fork ::
      forkedTimeline.nodes.tail := by cbv
  have hpre : silent.runNodes none [] (start () ()) = (.next, start () ()) := by
    rw [runNodes_nil]
    rfl
  have hfin : silent.Finishes none (trialNode .root 0 [⟨"b"⟩, ⟨"c"⟩, ⟨"d"⟩] fork) (start () ())
      (.branched ⟨"c"⟩ (.scope .root)) _ := ⟨by cbv, rfl, by cbv⟩
  obtain ⟨-, mid, m, post, x, hrest, hid, -, hx, -, hdec, -⟩ :=
    branch_delivered hc (.inl ⟨rfl, rfl⟩) hnodes hpre hfin
  exact ⟨hc, _, hnodes, mid, m, post, x, hrest, hid, hx, hdec⟩

end Environment

end BranchingTimeline
