import BranchingTimeline.Proofs.Session.Jump
import BranchingTimeline.Proofs.Timeline.Checks

namespace BranchingTimeline

variable {ids : IdSet} {x : ItemId} {latest : Lookup}

theorem BranchPlan.target_mem {b : BranchPlan} {choice : BranchChoice}
    (h : b.select latest = some choice) : choice.target ∈ b.targets := by
  rcases mem_of_select h with hb | ⟨c, hc, hd⟩
  · exact List.mem_append_left _ hb
  · exact List.mem_append_right _ (List.mem_filterMap.mpr ⟨c, hc, hd⟩)

theorem FinishPlan.Jumps.within {f : FinishPlan} (h : f.Jumps latest x) (hf : f.JumpsWithin ids) :
    ids.contains x = true := by
  cases h with
  | repeated hr =>
      obtain ⟨c, hc, hx⟩ := mem_of_repeatTarget hr
      exact hf.repeats c hc x hx
  | branched hb hs hx hroute =>
      subst hx
      exact hf.branches _ hb _ (BranchPlan.target_mem hs) hroute

def Event.JumpsWithin (ids : IdSet) : Event → Prop
  | finished _ o => ∀ x, o.jump? = some x → ids.contains x = true
  | restarted x => ids.contains x = true
  | jumpDropped _ => False
  | skipped .. | trial .. | loopRun .. => True

namespace Context

variable {c c' : Context}

def JumpsWithin (ids : IdSet) (c : Context) : Prop :=
  ∀ x, c.pendingJump = some x → ids.contains x = true

theorem JumpsWithin.update (h : c.JumpsWithin ids) (s : Scope) (f : Flags → Flags) :
    (c.update s f).JumpsWithin ids := by
  intro x hx
  rw [pendingJump_update] at hx
  exact h x hx

theorem stable_jumpsWithin : Stable (JumpsWithin ids) where
  update s f h := h.update s f
  clearJump _ := nofun

theorem JumpsWithin.reload (h : c.JumpsWithin ids) : c.reload.JumpsWithin ids := by
  intro x hx
  have hstore : c.jumpStore = some x := by simpa [Context.reload, Context.start, pendingJump] using hx
  exact h x (by simp [pendingJump, hstore])

theorem JumpsWithin.receives (h : c.JumpsWithin ids) {jump : Option ItemId}
    (hr : Receives c jump c') (hj : ∀ x, jump = some x → ids.contains x = true) :
    c'.JumpsWithin ids := by
  intro x hx
  rw [hr.pendingJump, Option.or_eq_some_iff] at hx
  rcases hx with hx | ⟨-, hx⟩
  · exact hj x hx
  · exact h x hx

end Context

namespace Environment

open Node Compile

variable {σ ρ : Type} {env : Environment σ ρ} {t : Timeline} {forest : List Node} {task : Task}
  {s : Session σ ρ} {m m' : Moment σ ρ}

theorem hook_jumpsWithin {n : Node} (hn : n.finish.JumpsWithin ids) (h : s.context.JumpsWithin ids) :
    (hook n s).2.JumpsWithin ids ∧ ∀ x, (hook n s).1.jump? = some x → ids.contains x = true := by
  have hj : ∀ x, (hook n s).1.jump? = some x → ids.contains x = true :=
    fun x hx => (hook_jumps hx).within hn
  exact ⟨h.receives (hook_receives n s) hj, hj⟩

variable (env) in
/-- A task sets a jump to one of the ids, or none at all. -/
theorem perform_jumpsWithin (hf : ∀ n ∈ flattenIn forest, n.finish.JumpsWithin ids)
    (hw : task.Within forest) (h : s.context.JumpsWithin ids) :
    (env.perform task s).2.2.context.JumpsWithin ids := by
  refine perform_stable env Context.stable_jumpsWithin task ?_ h
  rintro n rfl
  exact (hook_jumpsWithin (hf n hw) h).1

theorem eventOf_jumpsWithin (hf : ∀ n ∈ flattenIn forest, n.finish.JumpsWithin ids)
    (hw : task.Within forest) (h : s.context.JumpsWithin ids) {e : Event}
    (he : eventOf task s = some e) : e.JumpsWithin ids := by
  match task with
  | .visit _ [] | .work _ (.loop ..) | .round _ _ 0 _ | .passes .. | .leave _ | .again .. => cases he
  | .work _ (.trial ..) | .round _ _ (_ + 1) _ =>
      cases he
      trivial
  | .visit _ (n :: _) =>
      simp only [eventOf] at he
      split at he
      · cases he
      · cases he
        trivial
  | .finish n =>
      simp only [eventOf] at he
      split at he
      · cases he
      · cases he
        exact (hook_jumpsWithin (hf n hw) h).2

/-- At no moment so far a jump was set but to some of the ids, and none was dropped. -/
structure JumpsWithin (ids : IdSet) (m : Moment σ ρ) : Prop where
  pending : m.session.context.JumpsWithin ids
  trace : ∀ e ∈ m.session.trace, e.JumpsWithin ids

theorem close_jumpsWithin (hc : s.context.JumpsWithin t.knownIds)
    (htrace : ∀ e ∈ s.trace, e.JumpsWithin t.knownIds) (archived : List DataLog) (left : Nat) :
    JumpsWithin t.knownIds (env.close t s archived left) := by
  simp only [close]
  split
  · exact ⟨hc, htrace⟩
  · rename_i x hp
    have hx := hc x hp
    rw [if_pos hx]
    split
    · exact ⟨hc, htrace⟩
    · exact ⟨hc.reload, List.forall_mem_cons.mpr ⟨hx, htrace⟩⟩

theorem next_jumpsWithin (hf : ∀ n ∈ flattenIn t.nodes, n.finish.JumpsWithin t.knownIds)
    (hs : Sound t m) (hj : JumpsWithin t.knownIds m) (h : env.next t m = some m') :
    JumpsWithin t.knownIds m' := by
  rcases next_inv h with ⟨-, rfl⟩ | ⟨task, rest, hc, rfl⟩
  · exact close_jumpsWithin hj.pending hj.trace m.archived m.left
  · have hw : task.Within t.nodes := hs.within task (by simp [Moment.tasks, hc])
    refine ⟨perform_jumpsWithin env hf hw hj.pending, ?_⟩
    rw [perform_trace]
    intro e he
    rcases List.mem_append.mp he with he | he
    · exact eventOf_jumpsWithin hf hw hj.pending (Option.mem_toList.mp he)
    · exact hj.trace e he

variable {settings : Settings} {items : List Item}

theorem reaches_jumpsWithin (hc : compile settings items = .ok t) (hr : t.Resolved) (hs : Sound t m)
    (hj : JumpsWithin t.knownIds m) (h : env.Reaches t m m') : JumpsWithin t.knownIds m' := by
  induction h with
  | refl => exact hj
  | tail hreach hn ih =>
      have hsound := reaches_sound (trial_members hc) hs hreach
      exact next_jumpsWithin (fun n => jumpsWithin_of_resolved hc hr) hsound ih hn

/-- A strict compilation leaves no target unresolved. If none is, then at every moment of every run
a pending jump leads to an item of the timeline. So does each jump that the finish of an item sets,
whatever set it, and no jump is ever dropped, also in runs that end with an error. -/
theorem jumps_resolved (hc : compile settings items = .ok t) :
    (settings.strictTargets = true → t.Resolved) ∧
    (t.Resolved → ∀ (env : Environment σ ρ) (responses : σ) (arranger : ρ),
      (∀ m x, env.Reaches t (opening env t responses arranger) m →
        m.session.context.pendingJump = some x → t.knownIds.contains x = true) ∧
      ∀ e ∈ (env.sessions t 0 [] (start responses arranger) env.settings.maxRestarts.toNat).2.trace,
        (∀ id o x, e = .finished id o → o.jump? = some x → t.knownIds.contains x = true) ∧
        (∀ x, e = .restarted x → t.knownIds.contains x = true) ∧ ∀ x, e ≠ .jumpDropped x) := by
  refine ⟨resolved_of_strict hc, ?_⟩
  intro hr env responses arranger
  have hreach : ∀ {m}, env.Reaches t (opening env t responses arranger) m → JumpsWithin t.knownIds m :=
    reaches_jumpsWithin hc hr (opening_sound env t responses arranger) ⟨nofun, List.forall_mem_nil _⟩
  constructor
  · intro m x hm
    exact (hreach hm).pending x
  · intro e he
    obtain ⟨u, logs, left, hend, hout⟩ := env.opening_reaches_end t responses arranger
    rw [hout] at he
    have hj := (hreach hend).trace e (List.mem_reverse.mp he)
    refine ⟨?_, ?_, ?_⟩
    · rintro id o x rfl
      exact hj x
    · rintro x rfl
      exact hj
    · rintro x rfl
      exact hj

def strictly : Settings := { Settings.default with strictTargets := true }

def comeback : Trial := { Trial.plain ⟨"b"⟩ with branches := [⟨"a"⟩] }

def backwards : List Item := [.trial (.plain ⟨"a"⟩), .loop (.plain ⟨"l"⟩) [.trial comeback]]

def backwardsTimeline : Timeline := (compile strictly backwards).toOption.getD ⟨[], .empty, []⟩

theorem jumps_resolved_backwards :
    compile strictly backwards = .ok backwardsTimeline ∧ strictly.strictTargets = true ∧
      backwardsTimeline.Resolved ∧
      .finished ⟨"b"⟩ (.branched ⟨"a"⟩ .jump) ∈
        (silent.sessions backwardsTimeline 0 [] (start () ()) silent.settings.maxRestarts.toNat).2.trace ∧
      backwardsTimeline.knownIds.contains ⟨"a"⟩ = true := by
  have hc : compile strictly backwards = .ok backwardsTimeline := by cbv
  have htrace :
      (silent.sessions backwardsTimeline 0 [] (start () ()) silent.settings.maxRestarts.toNat).2.trace[3]? =
        some (.finished ⟨"b"⟩ (.branched ⟨"a"⟩ .jump)) := by cbv
  obtain ⟨hstrict, hresolved⟩ := jumps_resolved (σ := Unit) (ρ := Unit) hc
  have hmem := List.mem_of_getElem? htrace
  obtain ⟨hknown, -⟩ := (hresolved (hstrict rfl) silent () ()).2 _ hmem
  exact ⟨hc, rfl, hstrict rfl, hmem, hknown _ _ _ rfl rfl⟩

end Environment

end BranchingTimeline
