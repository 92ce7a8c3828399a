import BranchingTimeline.Proofs.Json.Layout
import BranchingTimeline.Proofs.Session.Continuation
import BranchingTimeline.Proofs.Session.Progress

namespace BranchingTimeline

namespace Trial

/-- The parameters that a trial was authored with: the members of the object that it is mapped to. -/
inductive Authored (trial : Trial) : Record → Prop
  | object {v : Value} {members : List (String × Json)} {r : Record} (hv : trial.mapped = some v)
      (ho : v.json = .obj members) (hr : ∀ k w, r.get? k = some w ↔ (k, w.json) ∈ members) :
      Authored trial r
  | other (h : ∀ v members, trial.mapped = some v → v.json ≠ .obj members) : Authored trial .empty

/-- The parameters that a trial has of its own: those it was authored with, overwritten by those of its
first override that holds. -/
inductive Gives (trial : Trial) (latest : Lookup) : Record → Prop
  | authored {r : Record} (hr : trial.Authored r) (h : ∀ o ∈ trial.overrides, o.holds latest = false) :
      Gives trial latest r
  | overridden {r given : Record} {o : OverrideCondition} (hr : trial.Authored r)
      (h : IsFirst (fun o => o.holds latest = true) trial.overrides o)
      (hg : r.Overwritten o.effect.parameters given) : Gives trial latest given

theorem authored_parameters (trial : Trial) : trial.Authored trial.parameters := by
  rw [parameters]
  cases hv : trial.mapped with
  | none =>
      refine .other fun v members h => ?_
      cases hv.symm.trans h
  | some v =>
      cases ho : v.json with
      | obj members =>
          obtain ⟨r, hr, rfl⟩ := Value.exists_record ho
          have hread : v.json.toRecord = some r := hr ▸ (Json.denotes_record r).reads Json.layout_id
          rw [Option.bind_some, hread]
          refine .object hv ho fun k w => ?_
          rw [Option.getD_some, SortedMap.get?_eq_some_iff, List.mem_map]
          constructor
          · intro h
            exact ⟨_, h, rfl⟩
          · rintro ⟨⟨k', w'⟩, h, he⟩
            obtain ⟨rfl, hw⟩ := Prod.mk.inj he
            exact Value.json_injective hw ▸ h
      | unreadable | null | bool | num | str | arr =>
          rw [Option.bind_some, ho]
          refine .other fun v' members h => ?_
          obtain rfl := Option.some.inj (hv.symm.trans h)
          rw [ho]
          simp

theorem gives_override (trial : Trial) (latest : Lookup) :
    trial.Gives latest (trial.parameters.union ((overrideFor trial.overrides latest).getD .empty)) := by
  rw [overrideFor, Condition.firstHolding]
  cases ho : trial.overrides.find? fun o => o.holds latest with
  | none =>
      refine .authored trial.authored_parameters fun o hmem => ?_
      simpa using List.find?_eq_none.mp ho o hmem
  | some o =>
      exact .overridden trial.authored_parameters ((isFirst_iff_find? fun b _ => Iff.rfl).mpr ho)
        (trial.parameters.overwritten_union _)

end Trial

namespace Node

variable {p : Place} {l : LoopPlan} {inner nodes : List Node}

theorem sublist_flattenIn (nodes : List Node) : nodes.Sublist (flattenIn nodes) := by
  induction nodes with
  | nil => simp
  | cons n r ih =>
      rw [flattenIn_cons, ← List.singleton_append]
      exact (List.singleton_sublist.mpr (mem_flatten n)).append ih

theorem flattenIn_sublist (h : loop p l inner ∈ flattenIn nodes) :
    (flattenIn inner).Sublist (flattenIn nodes) := by
  induction nodes using forest_induction with
  | nil => simp at h
  | trial q plan r ih =>
      simp only [flattenIn_cons, flatten_trial, List.singleton_append, List.mem_cons, reduceCtorEq,
        false_or] at h ⊢
      exact (ih h).cons _
  | loop q l' items r ihItems ih =>
      simp only [flattenIn_cons, flatten_loop, List.cons_append, List.mem_cons, List.mem_append,
        loop.injEq] at h ⊢
      refine .cons _ ?_
      rcases h with ⟨-, -, rfl⟩ | h | h
      · exact List.sublist_append_left _ _
      · exact (ihItems h).trans (List.sublist_append_left _ _)
      · exact (ih h).trans (List.sublist_append_right _ _)

end Node

namespace Context

variable {c c' : Context} {g : Guard} {d : Decision}

theorem customParametersFor_of_target {s : Scope} {id : ItemId} (ht : (c.flags s).targetExecuted = true)
    (hn : (c.flags s).nextTrial = some id) :
    c.customParametersFor s id = (c.flags s).customParameters :=
  if_pos ⟨ht, hn⟩

theorem customParametersFor_of_settled {s : Scope} {id : ItemId} {ids : List ItemId}
    (h : (c.flags s).Settled ids) (hid : id ∉ ids) : c.customParametersFor s id = none := by
  refine if_neg ?_
  rintro ⟨ht, hn⟩
  cases h with
  | unarmed hunarmed =>
      rw [hunarmed.targetExecuted] at ht
      cases ht
  | delivered _ hx hmem =>
      obtain rfl := Option.some.inj (hx.symm.trans hn)
      exact hid hmem

theorem Decides.handed (h : Decides g c .branchTarget c') :
    c'.customParametersFor g.scope g.id = (c.flags g.scope).customParameters := by
  cases h with
  | branchTarget _ _ _ hn =>
      rw [customParametersFor_of_target] <;> simp [flags_update, hn]

theorem Decides.not_handed (h : Decides g c d c') (hd : d.runs = true) (hne : d ≠ .branchTarget)
    {ids : List ItemId} (hid : g.id ∉ ids)
    (hs : (c.flags g.scope).Settled ids ∨ ∃ x, c.Awaits g.scope x) :
    c'.customParametersFor g.scope g.id = none := by
  cases h with
  | skippedForJump | skippedForBranch => cases hd
  | branchTarget => exact absurd rfl hne
  | normal _ ht _ =>
      refine if_neg ?_
      rintro ⟨hexecuted, -⟩
      simp [flags_update, ht] at hexecuted
  | jumpTarget hp =>
      refine customParametersFor_of_settled ?_ hid
      rw [flags_clearJump]
      exact settled_of_pending hs hp
  | jumpThrough hp => exact customParametersFor_of_settled (settled_of_pending hs hp) hid

end Context

namespace Environment

open Step Node Compile

variable {σ ρ : Type} {env : Environment σ ρ} {settings : Settings} {tree : List Item} {t : Timeline}
  {stimulus : Option Record} {scope : Scope} {pre rest : List Node} {n : Node} {s u : Session σ ρ}
  {choice : BranchChoice}

theorem isSequence_ids_nodup (hc : compile settings tree = .ok t) (hd : (Item.nestedList tree).Nodup)
    {nodes : List Node} (hseq : t.IsSequence scope nodes) : (nodes.map Node.id).Nodup := by
  rw [← (compiled_of_compile hc).flatten_ids] at hd
  refine hd.sublist (List.Sublist.map _ ?_)
  rcases hseq with ⟨-, rfl⟩ | ⟨p, l, hl, -⟩
  · exact sublist_flattenIn _
  · exact (sublist_flattenIn nodes).trans (flattenIn_sublist hl)

theorem Chosen.decision (hc : compile settings tree = .ok t)
    (hseq : t.IsSequence scope (pre ++ n :: rest)) (h : env.Chosen stimulus scope pre s choice)
    (hu : env.runNodes stimulus pre s = (.next, u)) (ht : choice.target = n.id) :
    (consult n.place u).1 = .branchTarget := by
  have hawaits := (h.begun_awaits hc hseq hu).1
  rw [ht, ← guard_scope_of_isSequence hc hseq] at hawaits
  exact ((consult_decides n.place u).of_awaits hawaits).1

/-- A node runs as the target of a branch exactly if the last node that ran before it in the pass has
branched to it within the scope. -/
theorem branchTarget_iff (hc : compile settings tree = .ok t)
    (hseq : t.IsSequence scope (pre ++ n :: rest)) (hfresh : scope = .root → s.context.root = .clear)
    (hu : env.runNodes stimulus pre s = (.next, u)) :
    (consult n.place u).1 = .branchTarget ↔
      ∃ choice, env.Chosen stimulus scope pre s choice ∧ choice.target = n.id := by
  constructor
  · intro hd
    have hscope := guard_scope_of_isSequence hc hseq
    have hdecides := consult_decides n.place u
    rw [hd] at hdecides
    generalize (consult n.place u).2.context = c' at hdecides
    cases hdecides with
    | branchTarget _ ht hs hn =>
        rw [hscope] at ht hs hn
        rcases progress_begun hc hseq hfresh hu with hsettled | ⟨choice, h⟩
        · cases hsettled with
          | unarmed hunarmed =>
              rw [hunarmed.skipRemaining] at hs
              cases hs
          | delivered hexecuted _ _ =>
              rw [hexecuted] at ht
              cases ht
        · have hawaits := (h.begun_awaits hc hseq hu).1
          exact ⟨choice, h, Option.some.inj (hawaits.target.symm.trans hn)⟩
  · rintro ⟨choice, h, ht⟩
    exact h.decision hc hseq hu ht

theorem Chosen.handed (hc : compile settings tree = .ok t) (hseq : t.IsSequence scope (pre ++ n :: rest))
    (h : env.Chosen stimulus scope pre s choice) (hu : env.runNodes stimulus pre s = (.next, u))
    (ht : choice.target = n.id) :
    (consult n.place u).2.context.customParametersFor n.place.guard.scope n.id = choice.parameters := by
  have hdecides := consult_decides n.place u
  rw [h.decision hc hseq hu ht] at hdecides
  refine hdecides.handed.trans ?_
  rw [guard_scope_of_isSequence hc hseq]
  exact (h.begun_awaits hc hseq hu).2

theorem not_handed (hc : compile settings tree = .ok t) (hd : (Item.nestedList tree).Nodup)
    (hseq : t.IsSequence scope (pre ++ n :: rest)) (hfresh : scope = .root → s.context.root = .clear)
    (hu : env.runNodes stimulus pre s = (.next, u)) (hruns : (consult n.place u).1.runs = true)
    (hne : (consult n.place u).1 ≠ .branchTarget) :
    (consult n.place u).2.context.customParametersFor n.place.guard.scope n.id = none := by
  have hids := isSequence_ids_nodup hc hd hseq
  rw [List.map_append, List.map_cons] at hids
  have hout : n.id ∉ pre.map Node.id := by
    intro hmem
    exact (List.nodup_append.mp hids).2.2 _ hmem _ List.mem_cons_self rfl
  refine (consult_decides n.place u).not_handed hruns hne hout ?_
  rw [guard_scope_of_isSequence hc hseq]
  refine (progress_begun hc hseq hfresh hu).imp_right ?_
  rintro ⟨choice, h⟩
  exact ⟨choice.target, (h.begun_awaits hc hseq hu).1⟩

/-- A trial is presented in a pass of its sequence: the nodes before it are done, and its guard lets it
run. -/
structure Presents (env : Environment σ ρ) (t : Timeline) (responses : σ) (arranger : ρ) (scope : Scope)
    (pre : List Node) (p : Place) (plan : TrialPlan) (stimulus : Option Record) (m : Moment σ ρ)
    (u : Session σ ρ) : Prop where
  begins : ∃ rest tasks,
    env.PassBegins t responses arranger scope (pre ++ .trial p plan :: rest) stimulus tasks m
  before : env.runNodes stimulus pre m.session = (.next, u)
  runs : (consult p u).1.runs = true

variable {responses : σ} {arranger : ρ} {m : Moment σ ρ}

theorem reaches_presents (hc : compile settings tree = .ok t)
    (h : env.Reaches t (env.opening t responses arranger) m) {newer older : List Event} {id : ItemId}
    {loop : Option ItemId} {parameters : Record}
    (he : m.session.trace = newer ++ .trial id loop parameters stimulus :: older) :
    ∃ scope pre p plan a u, env.Presents t responses arranger scope pre p plan stimulus a u ∧
      u.trace = older ∧ plan.id = id ∧
      parameters = parametersFor plan p.guard.scope (consult p u).2 := by
  obtain ⟨b, b', hb, hn, hold, hnew, -⟩ := reported h he (Nat.zero_le _)
  rw [← hold] at hnew
  rcases next_event hn hnew with ⟨x, hx | hx⟩ | ⟨task, tasks, hcontrol, hevent, -⟩
  · cases hx
  · cases hx
  · obtain ⟨row, p, plan, -, rfl, -⟩ := eventOf_trial hevent rfl
    obtain ⟨rfl, -, rfl, rfl⟩ := Event.trial.inj (Option.some.inj hevent)
    obtain ⟨a, r, older', ha, hvisit, hruns, hs⟩ := reaches_work hc hb hcontrol
    obtain ⟨scope, pre, first, hbegins, hpre⟩ := reaches_begins hc ha hvisit
    refine ⟨scope, pre, p, plan, first, a.session, ⟨⟨r, older', hbegins⟩, hpre, hruns⟩, ?_, rfl, ?_⟩
    · rw [← hold, hs]
      rfl
    · rw [hs]
      rfl

/-- In every run, whether it ends well or not, a trial is presented with its own parameters, those it
was authored with and those of its first override that holds at that moment. They are overwritten if
and only if it runs as the target of a branch: in the same pass of its sequence, the last node that ran
before it has branched to it within their scope, and it is given what was chosen there. -/
theorem trial_parameters (hc : compile settings tree = .ok t) (hd : (Item.nestedList tree).Nodup)
    (env : Environment σ ρ) (responses : σ) (arranger : ρ) {earlier later : List Event} {id : ItemId}
    {loop : Option ItemId} {parameters : Record} {stimulus : Option Record}
    (h : (env.sessions t 0 [] (start responses arranger) env.settings.maxRestarts.toNat).2.trace =
      earlier ++ .trial id loop parameters stimulus :: later) :
    ∃ trial, .trial trial ∈ Item.flattenIn tree ∧ trial.id = id ∧
      ∃ scope pre p plan m u given, env.Presents t responses arranger scope pre p plan stimulus m u ∧
        plan.id = id ∧ u.trace.reverse = earlier ∧ trial.Gives u.log.latest given ∧
        ((consult p u).1 = .branchTarget ↔
          ∃ choice, env.Chosen stimulus scope pre m.session choice ∧ choice.target = id) ∧
        (∀ choice, env.Chosen stimulus scope pre m.session choice → choice.target = id →
          given.Overwritten (choice.parameters.getD .empty) parameters) ∧
        ((consult p u).1 ≠ .branchTarget → parameters = given) := by
  obtain ⟨v, logs, left, hend, ho⟩ := env.opening_reaches_end t responses arranger
  have htrace : v.trace = later.reverse ++ .trial id loop parameters stimulus :: earlier.reverse := by
    rw [ho] at h
    have hreverse := congrArg List.reverse h
    simpa [Outcome.ofSession] using hreverse
  obtain ⟨scope, pre, p, plan, m, u, hpresents, hu, rfl, rfl⟩ := reaches_presents hc hend htrace
  have hpre := hpresents.before
  have hruns := hpresents.runs
  obtain ⟨rest, tasks, hbegins⟩ := hpresents.begins
  have hseq := hbegins.sequence
  obtain ⟨item, hitem, around, index, after, hnode⟩ :=
    (compiled_of_compile hc).source (mem_of_isSequence hseq (n := .trial p plan) (by simp))
  have hid : plan.id = p.guard.id := hnode.trial_id
  have hgiven : ∃ trial, item = .trial trial ∧ trial.id = plan.id ∧ plan.parameters = trial.parameters ∧
      plan.overrides = trial.overrides := by
    cases hnode with
    | trial trial => exact ⟨trial, rfl, rfl, rfl, rfl⟩
  obtain ⟨trial, rfl, htrial, hparameters, hoverrides⟩ := hgiven
  have hgives := trial.gives_override u.log.latest
  have hpresented : parametersFor plan p.guard.scope (consult p u).2 =
      (trial.parameters.union ((overrideFor trial.overrides u.log.latest).getD .empty)).union
        (((consult p u).2.context.customParametersFor p.guard.scope p.guard.id).getD .empty) := by
    rw [parametersFor, hparameters, hoverrides, hid]
    rfl
  have hearlier : u.trace.reverse = earlier := by rw [hu, List.reverse_reverse]
  refine ⟨trial, hitem, htrial, scope, pre, p, plan, m, u, _, hpresents, rfl, hearlier, hgives, ?_, ?_, ?_⟩
  · rw [hid]
    exact branchTarget_iff (n := .trial p plan) hc hseq hbegins.fresh hpre
  · intro choice hchosen htarget
    have hhanded : (consult p u).2.context.customParametersFor p.guard.scope p.guard.id =
        choice.parameters :=
      hchosen.handed (n := .trial p plan) hc hseq hpre (htarget.trans hid)
    rw [hpresented, hhanded]
    exact SortedMap.overwritten_union _ _
  · intro hne
    have hnone : (consult p u).2.context.customParametersFor p.guard.scope p.guard.id = none :=
      not_handed (n := .trial p plan) hc hd hseq hbegins.fresh hpre hruns hne
    rw [hpresented, hnone]
    rfl

def handing : Trial :=
  { Trial.plain ⟨"a"⟩ with
    branches := [⟨"b"⟩, ⟨"c"⟩]
    branchConditions :=
      [⟨0, [{ Rule.blank with trial := some ⟨"a"⟩, column := "sure", value := "yes" }],
        ⟨some ⟨"c"⟩, some (.ofList [("x", .str "handed")])⟩⟩] }

def receiving : Trial :=
  { Trial.plain ⟨"c"⟩ with
    mapped := Value.ofJson (.obj [("x", .str "authored"), ("y", .str "authored"), ("z", .str "authored")])
    overrides :=
      [⟨0, [{ Rule.blank with trial := some ⟨"a"⟩, column := "sure", value := "yes" }],
        ⟨.ofList [("y", .str "replaced")]⟩⟩] }

def handedTree : List Item := [.trial handing, .trial (.plain ⟨"b"⟩), .trial receiving]

def handedTimeline : Timeline := (compile .default handedTree).toOption.getD ⟨[], .empty, []⟩

def sure : Environment Unit Unit :=
  ⟨.default, fun _ _ _ s => (.ofList [("sure", .str "yes")], s), RowOrder.keep⟩

def handedEvents : List Event :=
  [.trial ⟨"a"⟩ none .empty none, .finished ⟨"a"⟩ (.branched ⟨"c"⟩ (.scope .root)),
    .skipped ⟨"b"⟩ .skippedForBranch]

def handedParameters : Record :=
  .ofList [("x", .str "handed"), ("y", .str "replaced"), ("z", .str "authored")]

theorem receiving_gives_x {latest : Lookup} {given : Record} (h : receiving.Gives latest given) :
    SortedMap.get? given "x" = some (.str "authored") := by
  have hauthored : ∀ r, receiving.Authored r → SortedMap.get? r "x" = some (.str "authored") := by
    intro r hr
    cases hr with
    | object hv ho hr =>
        cases hv
        cases ho
        exact (hr "x" (.str "authored")).mpr (by decide)
    | other h => exact absurd rfl (h _ _ rfl)
  cases h with
  | authored hr => exact hauthored _ hr
  | overridden hr h hg =>
      obtain ⟨before, after, hl, -, -⟩ := h
      have hmem : _ ∈ receiving.overrides := hl ▸ List.mem_append_right before List.mem_cons_self
      obtain rfl := List.mem_singleton.mp hmem
      rw [hg "x", hauthored _ hr]
      rfl

/-- Of the parameters of a trial that is branched to, one was handed with the branch, one replaced by the
trial's override, and one stays as it was authored. -/
theorem trial_parameters_handed :
    compile .default handedTree = .ok handedTimeline ∧ (Item.nestedList handedTree).Nodup ∧
      (sure.sessions handedTimeline 0 [] (start () ()) sure.settings.maxRestarts.toNat).2.trace =
        handedEvents ++ [.trial ⟨"c"⟩ none handedParameters none] ∧
      ∃ scope pre s choice latest given, sure.Chosen none scope pre s choice ∧ choice.target = ⟨"c"⟩ ∧
        receiving.Gives latest given ∧
        SortedMap.Overwritten given (choice.parameters.getD .empty) handedParameters := by
  have hc : compile .default handedTree = .ok handedTimeline := by cbv
  have hd : (Item.nestedList handedTree).Nodup := by decide
  have htrace : (sure.sessions handedTimeline 0 [] (start () ()) sure.settings.maxRestarts.toNat).2.trace =
      handedEvents ++ [.trial ⟨"c"⟩ none handedParameters none] := by cbv
  obtain ⟨trial, hitem, hid, scope, pre, p, plan, m, u, given, -, -, -, hgives, hdec, hhanded, hown⟩ :=
    trial_parameters hc hd sure () () htrace
  have hsame : trial = receiving := by
    simp only [handedTree, Item.flattenIn, Item.flatten, List.singleton_append, List.mem_cons,
      Item.trial.injEq, List.not_mem_nil, or_false] at hitem
    rcases hitem with rfl | rfl | rfl
    · exact absurd hid (by decide)
    · exact absurd hid (by decide)
    · rfl
  subst hsame
  refine ⟨hc, hd, htrace, ?_⟩
  by_cases hbranch : (consult p u).1 = .branchTarget
  · obtain ⟨choice, hchosen, htarget⟩ := hdec.mp hbranch
    exact ⟨scope, pre, m.session, choice, _, given, hchosen, htarget, hgives, hhanded choice hchosen htarget⟩
  · have hx := receiving_gives_x hgives
    rw [← hown hbranch] at hx
    exact absurd hx (by decide)

end Environment

end BranchingTimeline
