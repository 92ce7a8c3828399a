import BranchingTimeline.Proofs.Session.Agreement

namespace BranchingTimeline

def FinishOutcome.WritesTo (o : FinishOutcome) (x : Scope) : Prop :=
  o = .escalated x ∨ ∃ target, o = .branched target (.scope x)

namespace Context

variable {c c' d d' : Context} {x : Scope} {latest : Lookup} {o : FinishOutcome} {l : LoopPlan}

theorem flags?_update_self (c : Context) (x : Scope) (f : Flags → Flags) :
    (c.update x f).flags? x = some ((c.update x f).flags x) := by
  rw [flags?_update, if_pos rfl, flags_update, if_pos rfl]

theorem FinishesLoop.entry_written (h : FinishesLoop l latest c o c') (ho : o.WritesTo x) :
    c'.flags? x = some (c'.flags x) := by
  cases h with
  | branched hp hb hm hs =>
      obtain ho | ⟨target, ho⟩ := ho
      · cases ho
      · obtain ⟨-, hroute⟩ := FinishOutcome.branched.inj ho
        rw [hroute]
        exact flags?_update_self _ x _
  | escalated hp hb he =>
      obtain ho | ⟨target, ho⟩ := ho
      · cases ho
        exact flags?_update_self c x _
      · cases ho
  | jump | repeated | noBranch | unmarked | aborted | idle => simp [FinishOutcome.WritesTo] at ho

theorem FinishesLoop.entry_kept (h : FinishesLoop l latest c o c') (hx : x ≠ l.scope)
    (ho : ¬o.WritesTo x) : c'.flags? x = c.flags? x := by
  have hv := flags?_belongsTo x
  cases h with
  | jump | idle => rfl
  | repeated => exact hv.setJump c _
  | aborted => exact hv.abort c _
  | unmarked => exact hv.update c id hx
  | noBranch => rw [hv.update _ _ hx, hv.update _ _ hx]
  | escalated hp hb he =>
      refine hv.update c _ ?_
      rintro rfl
      exact ho (.inl rfl)
  | @branched b choice hp hb hm hs =>
      cases hroute : b.routeFor choice.target with
      | jump => rw [follow, hv.setJump, hv.update _ _ hx, hv.update _ _ hx]
      | scope s =>
          have hs : x ≠ s := by
            rintro rfl
            exact ho (.inr ⟨choice.target, by rw [hroute]⟩)
          rw [follow, hv.update _ _ hs, hv.update _ _ hx, hv.update _ _ hx]

theorem FinishesLoop.entry (hc : FinishesLoop l latest c o c') (hd : FinishesLoop l latest d o d')
    (hx : x ≠ l.scope) (he : c.flags? x = d.flags? x) (hf : c'.flags x = d'.flags x) :
    c'.flags? x = d'.flags? x := by
  by_cases ho : o.WritesTo x
  · rw [hc.entry_written ho, hd.entry_written ho, hf]
  · rw [hc.entry_kept hx ho, hd.entry_kept hx ho, he]

end Context

namespace Environment

open Step Compile Node

variable {σ ρ : Type} {env : Environment σ ρ} {around : Surroundings} {index : Nat}
  {later : List ItemId} {item : Item} {p : Place} {l : LoopPlan} {inner : List Node}
  {stimulus : Option Record} {A : Scope → Prop} {s u : Session σ ρ} {x : Scope}

theorem execute_loop (stimulus : Option Record) (p : Place) (l : LoopPlan) (inner : List Node) :
    env.execute stimulus (.loop p l inner) =
      env.runLoop l inner fun row => env.runNodes row inner := rfl

variable (env stimulus) in
/-- Up to its finish a loop goes the same way whatever flags it and the loops in it had before, and
then its own flags are alike too. -/
theorem couples_work (h : NodeOf around index later item (.loop p l inner)) :
    Couples (Session.Alike A) (Session.Alike A) (Session.Alike fun x => x = l.scope ∨ A x)
      (env.work stimulus (.loop p l inner)) := by
  cases h with
  | loop name hi => exact couples_reruns fun row => couples_runNodes hi (.inl rfl) row

theorem entry_conclude (hsu : s.Alike (fun x => x = l.scope ∨ A x) u)
    (ht : l.terminal = true → A .root) (hl : x ≠ l.scope) (hx : A x)
    (he : s.context.flags? x = u.context.flags? x) :
    (hook (.loop p l inner) s).2.flags? x = (hook (.loop p l inner) u).2.flags? x := by
  simp only [hook]
  rw [hsu.log]
  obtain ⟨ho, ha⟩ :=
    hsu.context.finishLoop (.inl rfl) (fun hl => .inr (ht hl)) u.log.latest
  have hs := Context.finishesLoop s.context l u.log.latest
  rw [ho] at hs
  exact hs.entry (Context.finishesLoop u.context l u.log.latest) hl he (ha.flags x (.inr hx))

variable (env stimulus) in
theorem entry_execute (h : NodeOf around index later item (.loop p l inner))
    (hs : around.scope ∉ scopesIn [.loop p l inner])
    (hsu : s.Alike (· ∉ scopesIn [.loop p l inner]) u) (hx : x ∉ scopesIn [.loop p l inner])
    (he : s.context.flags? x = u.context.flags? x) :
    (env.execute stimulus (.loop p l inner) s).2.context.flags? x =
      (env.execute stimulus (.loop p l inner) u).2.context.flags? x := by
  obtain ⟨hflow, -, hnext⟩ := couples_work env stimulus h s u hsu
  have hk := work_keeps env (Context.flags?_belongsTo x) h hx stimulus
  have hw : (env.work stimulus (.loop p l inner) s).2.context.flags? x =
      (env.work stimulus (.loop p l inner) u).2.context.flags? x :=
    (hk s).trans (he.trans (hk u).symm)
  rcases next_or_stop (env.work stimulus (.loop p l inner)) s with ⟨v, hv⟩ | hstop
  · have hlike := hnext (congrArg Prod.fst hv)
    have hu : env.work stimulus (.loop p l inner) u =
        (.next, (env.work stimulus (.loop p l inner) u).2) :=
      Prod.ext (by rw [← hflow, hv]) rfl
    rw [hv] at hw hlike
    rw [execute, andThen_next hv, andThen_next hu, conclude, conclude, reportFinish_context,
      reportFinish_context]
    refine entry_conclude hlike ?_ ?_ hx hw
    · intro ht
      cases h with
      | loop name hi => exact terminal_root rfl ht ▸ hs
    · rintro rfl
      simp at hx
  · rw [execute, andThen_stop hstop, andThen_stop (hflow ▸ hstop)]
    exact hw

/-- A loop that runs sees no flags of itself or of the loops in it that were left behind: from
contexts that agree outside it, it reports the same events, records the same data, asks the same of
responses and row orders, and goes on, aborts or fails alike. The contexts agree outside it again,
and a scope out there has an entry in both or in neither if this was so before. -/
theorem runLoop_forgets {settings : Settings} {items : List Item} {t : Timeline}
    (h : compile settings items = .ok t) (hl : .loop p l inner ∈ flattenIn t.nodes)
    (env : Environment σ ρ) (s : Session σ ρ) {c d : Context}
    (hcd : c.Agree (· ∉ scopesIn [.loop p l inner]) d) :
    let run := env.runLoop l inner fun row => env.runNodes row inner
    (run (s.withContext c)).1 = (run (s.withContext d)).1 ∧
      (run (s.withContext c)).2.Alike (· ∉ scopesIn [.loop p l inner]) (run (s.withContext d)).2 ∧
      ((∀ x ∉ scopesIn [.loop p l inner], c.flags? x = d.flags? x) →
        ∀ x ∉ scopesIn [.loop p l inner],
          (run (s.withContext c)).2.context.flags? x = (run (s.withContext d)).2.context.flags? x) := by
  obtain ⟨around, index, later, item, hnode, hs⟩ := nodeOf_of_compile h hl
  have hsu : (s.withContext c).Alike (· ∉ scopesIn [.loop p l inner]) (s.withContext d) :=
    ⟨hcd, rfl, rfl, rfl, rfl⟩
  have hcouples : Couples (Session.Alike (· ∉ scopesIn [.loop p l inner])) _ _
      (env.execute none (.loop p l inner)) := couples_execute hnode hs none
  obtain ⟨hflow, halike, -⟩ := hcouples _ _ hsu
  rw [execute_loop] at hflow halike
  refine ⟨hflow, halike, ?_⟩
  intro he x hx
  have hentry := entry_execute env none hnode hs hsu hx (he x hx)
  rwa [execute_loop] at hentry

def block : Loop := .plain ⟨"l"⟩

def part : Loop := .plain ⟨"k"⟩

def blockItems : List Item :=
  [.trial (.plain ⟨"a"⟩), .loop part [.trial (.plain ⟨"b"⟩)], .trial (.plain ⟨"c"⟩)]

def blockTimeline : Timeline := (compile .default [.loop block blockItems]).toOption.getD ⟨[], .empty, []⟩

def blockNodes : List Node :=
  [trialNode (.inside block (.loop "l") []) 0 [⟨"k"⟩, ⟨"c"⟩] (.plain ⟨"a"⟩),
    loopNode (.inside block (.loop "l") []) 1 [⟨"c"⟩] part [.trial (.plain ⟨"b"⟩)] (.loop "k")
      [trialNode (.inside part (.loop "k") []) 0 [] (.plain ⟨"b"⟩)],
    trialNode (.inside block (.loop "l") []) 2 [] (.plain ⟨"c"⟩)]

def blockPlan : LoopPlan :=
  loopPlan .root block (.loop "l") (plannedFinish .root 0 [] (.loop block blockItems)) [] blockNodes

def leftover : Context :=
  (Context.start.update (.loop "l") (Flags.arm ⟨"c"⟩ none)).update (.loop "k")
    fun f => { f.arm ⟨"z"⟩ none with targetExecuted := true, shouldBranch := true }

theorem runLoop_forgets_leftover :
    compile .default [.loop block blockItems] = .ok blockTimeline ∧
      .loop (placeOf .root 0 [] (.loop block blockItems)) blockPlan blockNodes ∈
        flattenIn blockTimeline.nodes ∧
      Context.start.Agree
        (· ∉ scopesIn [.loop (placeOf .root 0 [] (.loop block blockItems)) blockPlan blockNodes])
        leftover ∧
      (silent.runLoop blockPlan blockNodes (fun row => silent.runNodes row blockNodes)
        ((start () ()).withContext leftover)).2.trace =
        [.trial ⟨"c"⟩ (some ⟨"l"⟩) .empty none, .trial ⟨"b"⟩ (some ⟨"k"⟩) .empty none,
          .loopRun ⟨"k"⟩ 1, .trial ⟨"a"⟩ (some ⟨"l"⟩) .empty none, .loopRun ⟨"l"⟩ 1] := by
  have hc : compile .default [.loop block blockItems] = .ok blockTimeline := by cbv
  have hnodes : blockTimeline.nodes.head? = some
      (.loop (placeOf .root 0 [] (.loop block blockItems)) blockPlan blockNodes) := by cbv
  have hl := mem_flattenIn (List.mem_of_mem_head? hnodes)
  have hagree : Context.start.Agree
      (· ∉ scopesIn [.loop (placeOf .root 0 [] (.loop block blockItems)) blockPlan blockNodes])
      leftover := by
    refine ⟨rfl, rfl, rfl, ?_⟩
    intro x hx
    have hx : x ≠ .loop "l" ∧ x ≠ .loop "k" := by
      simpa [blockNodes, blockPlan, trialNode, loopNode, loopPlan] using hx
    rw [leftover, Context.flags_update_ne _ hx.2, Context.flags_update_ne _ hx.1]
  obtain ⟨-, halike, -⟩ := runLoop_forgets hc hl silent (start () ()) hagree
  refine ⟨hc, hl, hagree, halike.trace.symm.trans ?_⟩
  cbv

end Environment

end BranchingTimeline
