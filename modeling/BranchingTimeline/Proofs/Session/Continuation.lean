import BranchingTimeline.Proofs.Session.Passes
import BranchingTimeline.Proofs.Session.Recording
import BranchingTimeline.Proofs.Timeline.Loops

namespace BranchingTimeline

variable {σ ρ : Type}

def IsFirst {α : Type} (P : α → Prop) (l : List α) (a : α) : Prop :=
  ∃ before after, l = before ++ a :: after ∧ P a ∧ ∀ b ∈ before, ¬P b

theorem isFirst_iff_find? {α : Type} {P : α → Prop} {p : α → Bool} {l : List α} {a : α}
    (h : ∀ b ∈ l, p b = true ↔ P b) : IsFirst P l a ↔ l.find? p = some a := by
  rw [List.find?_eq_some_iff_append]
  constructor
  · rintro ⟨before, after, rfl, ha, hb⟩
    refine ⟨(h a (by simp)).mpr ha, before, after, rfl, ?_⟩
    intro b hmem
    have hne := hb b hmem
    rw [← h b (by simp [hmem])] at hne
    simp [hne]
  · rintro ⟨ha, before, after, rfl, hb⟩
    refine ⟨before, after, rfl, (h a (by simp)).mp ha, ?_⟩
    intro b hmem
    rw [← h b (by simp [hmem])]
    simpa using hb b hmem

theorem Rule.holdsIn_iff {r : Rule} {latest : Lookup} :
    r.holdsIn latest = true ↔
      ∃ x data, r.target = some x ∧ latest x = some data ∧ r.holds data = true := by
  unfold holdsIn
  cases r.target with
  | none => simp
  | some x => cases h : latest x <;> simp [h]

theorem Condition.holds_iff {ε : Type} {c : Condition ε} {latest : Lookup} :
    c.holds latest = true ↔ c.rules ≠ [] ∧ ∀ r ∈ c.rules, r.holdsIn latest = true := by
  simp [holds]

namespace Answer

open Node

variable {a : Answer} {x : ItemId} {t : Timeline}

theorem isOf_iff : DataLog.isOf x a.record = true ↔ a.plan.id = x := DataLog.isOf_label

theorem isWithin_iff {loops : IdSet}
    (h : a.plan.loop = none → a.response.get? DataLog.loopColumn = none) :
    DataLog.isWithin loops a.record = true ↔
      ∃ l, a.plan.loop = some l ∧ SortedMap.contains loops l = true := by
  rw [DataLog.isWithin_iff, record, DataLog.namedLoop_label]
  cases hl : a.plan.loop with
  | none => simp [DataLog.namedLoop, h hl]
  | some l => simp

def OutsideLoops (t : Timeline) (a : Answer) : Prop :=
  ∀ p l inner, Node.loop p l inner ∈ flattenIn t.nodes → a.node ∉ flattenIn inner

end Answer

/-- What the conditions of a loop ask of the answers so far, the latest first: of some condition, that
each of its rules holds on the latest record of its trial from inside the loop. -/
def Loop.Asks (loop : Loop) (inner : List Node) (now : List Answer) : Prop :=
  ∃ c ∈ loop.loopConditions, c.rules ≠ [] ∧ ∀ r ∈ c.rules, ∃ x a, r.target = some x ∧
    IsFirst (fun b => b.plan.id = x ∧ b.node ∈ Node.flattenIn inner) now a ∧ r.holds a.record = true

namespace Environment

open Compile Node

variable {env : Environment σ ρ} {t : Timeline} {responses : σ} {arranger : ρ}
  {past : List (List Answer)} {now : List Answer} {m : Moment σ ρ} {settings : Settings}
  {tree : List Item} {p : Place} {l : LoopPlan} {inner : List Node}

theorem History.isWithin_iff (hc : compile settings tree = .ok t)
    (hd : (Item.loopIds tree).Nodup) (hl : .loop p l inner ∈ flattenIn t.nodes)
    (h : env.History t responses arranger past now m)
    (hfree : ∀ a ∈ now, a.OutsideLoops t → a.response.get? DataLog.loopColumn = none) {a : Answer}
    (ha : a ∈ now) :
    DataLog.isWithin l.dataScope a.record = true ↔ a.node ∈ flattenIn inner := by
  have hn := h.node_mem (.inl ha)
  have hreads : (∃ x, a.plan.loop = some x ∧ SortedMap.contains l.dataScope x = true) ↔
      a.node ∈ flattenIn inner := (compiled_of_compile hc).reads_trial_iff hd hl hn
  rw [← hreads]
  apply Answer.isWithin_iff
  intro hnone
  apply hfree a ha
  intro p' l' inner' hl' hin
  obtain ⟨x, hx, -⟩ := ((compiled_of_compile hc).reads_trial_iff hd hl' hn).mpr hin
  rw [hnone] at hx
  cases hx

theorem History.latestWithin_iff (hc : compile settings tree = .ok t)
    (hd : (Item.loopIds tree).Nodup) (hl : .loop p l inner ∈ flattenIn t.nodes)
    (h : env.History t responses arranger past now m)
    (hfree : ∀ a ∈ now, a.OutsideLoops t → a.response.get? DataLog.loopColumn = none) (x : ItemId)
    (r : Record) :
    m.session.log.latestWithin l.dataScope x = some r ↔
      ∃ a, IsFirst (fun b => b.plan.id = x ∧ b.node ∈ flattenIn inner) now a ∧ a.record = r := by
  have hp : ∀ b ∈ now, (DataLog.isOf x b.record && DataLog.isWithin l.dataScope b.record) = true ↔
      b.plan.id = x ∧ b.node ∈ flattenIn inner := by
    intro b hb
    rw [Bool.and_eq_true, Answer.isOf_iff, h.isWithin_iff hc hd hl hfree hb]
  rw [DataLog.latestWithin, h.log.1, List.find?_map, Option.map_eq_some_iff]
  simp only [isFirst_iff_find? hp, Function.comp_def]

theorem History.asks_iff (hc : compile settings tree = .ok t)
    (hd : (Item.loopIds tree).Nodup) (hl : .loop p l inner ∈ flattenIn t.nodes)
    (h : env.History t responses arranger past now m)
    (hfree : ∀ a ∈ now, a.OutsideLoops t → a.response.get? DataLog.loopColumn = none) (loop : Loop) :
    Condition.anyHolds loop.loopConditions (m.session.log.latestWithin l.dataScope) = true ↔
      loop.Asks inner now := by
  simp only [Condition.anyHolds, List.any_eq_true, Condition.holds_iff, Rule.holdsIn_iff,
    h.latestWithin_iff hc hd hl hfree, Loop.Asks]
  grind

theorem next_again {left run : Nat} {rest : List Task}
    (hm : m.control = .running (.again l inner left run :: rest))
    (hp : m.session.context.pendingJump = none) :
    env.next t m =
      if Condition.anyHolds l.continuation (m.session.log.latestWithin l.dataScope) then
        some { m with control := .running (.round l inner left run :: rest) }
      else some { m with control := .running rest } := by
  simp only [next, hm, perform, askAgain, Context.continueLoop, hp, Control.after]
  split <;> rfl

theorem next_round {left run : Nat} {rest : List Task}
    (hm : m.control = .running (.round l inner left run :: rest)) :
    ∃ b, env.next t m = some b ∧
      (left = 0 → b.control = .ended (some (overLimit env.settings.maxLoopRuns
        (.loopLimit l.id env.settings.maxLoopRuns)))) ∧
      (0 < left → b.session.trace = .loopRun l.id run :: m.session.trace) := by
  cases left with
  | zero =>
      refine ⟨_, by simp only [next, hm, perform]; rfl, fun _ => rfl, ?_⟩
      intro h
      omega
  | succ left =>
      refine ⟨_, by simp only [next, hm]; rfl, fun h => absurd h (Nat.succ_ne_zero left), ?_⟩
      intro _
      exact perform_trace env (.round l inner (left + 1) run) m.session

theorem History.again_source (hc : compile settings tree = .ok t)
    (h : env.History t responses arranger past now m) {left run : Nat} {rest : List Task}
    (hm : m.control = .running (.again l inner left run :: rest)) :
    ∃ p loop sub around index later, .loop p l inner ∈ flattenIn t.nodes ∧
      .loop loop sub ∈ Item.flattenIn tree ∧
      NodeOf around index later (.loop loop sub) (.loop p l inner) ∧ loop.id = l.id ∧
      l.continuation = if loop.isConditional then loop.loopConditions else [] := by
  have hw := reaches_within (opening_sound env t responses arranger).within h.reaches
  have hw : (Task.again l inner left run).Within t.nodes := hw _ (by simp [Moment.tasks, hm])
  obtain ⟨p, hl⟩ := hw
  obtain ⟨loop, sub, around, index, later, hitem, hnode, -⟩ := (compiled_of_compile hc).loop_source hl
  refine ⟨p, loop, sub, around, index, later, hl, hitem, hnode, ?_⟩
  cases hnode
  exact ⟨rfl, rfl⟩

theorem History.asks_of_next (hc : compile settings tree = .ok t)
    (h : env.History t responses arranger past now m) {left run : Nat} {rest : List Task} {b : Moment σ ρ}
    (hm : m.control = .running (.again l inner left run :: rest)) (hn : env.next t m = some b)
    (hb : b.control = .running (.round l inner left run :: rest))
    (hp : m.session.context.pendingJump = none) {loop : Loop}
    (hcont : l.continuation = if loop.isConditional then loop.loopConditions else [])
    (hl : .loop p l inner ∈ flattenIn t.nodes) :
    loop.isConditional = true ∧ ((Item.loopIds tree).Nodup →
      (∀ a ∈ now, a.OutsideLoops t → a.response.get? DataLog.loopColumn = none) →
      loop.Asks inner now) := by
  have hany : Condition.anyHolds l.continuation (m.session.log.latestWithin l.dataScope) = true := by
    by_contra hne
    rw [next_again hm hp, if_neg hne] at hn
    obtain rfl := Option.some.inj hn
    exact List.cons_ne_self _ _ (Control.running.inj hb).symm
  cases hcond : loop.isConditional with
  | false =>
      rw [hcont, hcond] at hany
      cases hany
  | true =>
      rw [hcont, if_pos hcond] at hany
      exact ⟨rfl, fun hd hfree => (h.asks_iff hc hd hl hfree loop).mp hany⟩

/-- The trace of a run tells of a further run of a loop only after a moment at which the loop has completed
a run, and with no jump pending only of one that its conditions ask for. -/
theorem asks_of_trace (hc : compile settings tree = .ok t) {earlier later : List Event} {id : ItemId}
    {run : Nat}
    (h : (env.sessions t 0 [] (start responses arranger) env.settings.maxRestarts.toNat).2.trace =
      earlier ++ .loopRun id run :: later) (hrun : 1 < run) :
    ∃ past now m p loop sub l inner left rest, env.History t responses arranger past now m ∧
      m.control = .running (.again l inner left run :: rest) ∧ m.session.trace.reverse = earlier ∧
      .loop p l inner ∈ flattenIn t.nodes ∧ .loop loop sub ∈ Item.flattenIn tree ∧ loop.id = id ∧
      l.id = id ∧
      (m.session.context.pendingJump = none → loop.isConditional = true ∧ ((Item.loopIds tree).Nodup →
        (∀ a ∈ now, a.OutsideLoops t → a.response.get? DataLog.loopColumn = none) →
        loop.Asks inner now)) := by
  obtain ⟨u, logs, n, hend, hout⟩ := env.opening_reaches_end t responses arranger
  have htrace : u.trace = later.reverse ++ .loopRun id run :: earlier.reverse := by
    rw [hout] at h
    simpa [Outcome.ofSession] using congrArg List.reverse h
  obtain ⟨a, b, ha, hab, hold, hnew, -⟩ := reported hend htrace (Nat.zero_le _)
  rw [← hold] at hnew
  rcases next_event hab hnew with ⟨x, hx | hx⟩ | ⟨task, rest, hcontrol, hevent, -⟩
  · cases hx
  · cases hx
  · obtain ⟨l, inner, left, rfl, rfl⟩ := eventOf_loopRun hevent
    obtain ⟨m, hm, hn, hagain, hsame⟩ := reaches_round hc ha hcontrol hrun
    obtain ⟨past, now, hhistory⟩ := exists_history hm
    obtain ⟨p, loop, sub, -, -, -, hl, hitem, -, hid, hcont⟩ := hhistory.again_source hc hagain
    refine ⟨past, now, m, p, loop, sub, l, inner, left + 1, rest, hhistory, hagain, ?_, hl, hitem, hid,
      rfl, fun hp => hhistory.asks_of_next hc hagain hn hcontrol hp hcont hl⟩
    rw [hsame, hold, List.reverse_reverse]

/-- What a loop is to run again is told by the trace of the run, unless no more runs are allowed: then the
run ends there. -/
theorem trace_of_round (h : env.Reaches t (env.opening t responses arranger) m) {left run : Nat}
    {rest : List Task} (hm : m.control = .running (.round l inner left run :: rest)) :
    (0 < left → ∃ later,
      (env.sessions t 0 [] (start responses arranger) env.settings.maxRestarts.toNat).2.trace =
        m.session.trace.reverse ++ .loopRun l.id run :: later) ∧
    (left = 0 →
      (env.sessions t 0 [] (start responses arranger) env.settings.maxRestarts.toNat).2.trace =
        m.session.trace.reverse ∧
      (env.sessions t 0 [] (start responses arranger) env.settings.maxRestarts.toNat).1 =
        some (overLimit env.settings.maxLoopRuns (.loopLimit l.id env.settings.maxLoopRuns))) := by
  obtain ⟨u, logs, n, hend, hout⟩ := env.opening_reaches_end t responses arranger
  have htrace : (env.sessions t 0 [] (start responses arranger) env.settings.maxRestarts.toNat).2.trace =
      u.trace.reverse := by
    rw [hout]
    rfl
  rw [htrace]
  constructor
  · intro hleft
    obtain ⟨b, hb, -, hrun⟩ : ∃ b, env.next t m = some b ∧ _ := next_round hm
    obtain ⟨new, hnew⟩ := reaches_trace (reaches_end (h.tail hb) hend rfl)
    refine ⟨new.reverse, ?_⟩
    rw [hnew, hrun hleft]
    simp
  · rintro rfl
    have hlimit : env.next t m = some ⟨.ended (some (overLimit env.settings.maxLoopRuns
        (.loopLimit l.id env.settings.maxLoopRuns))), m.session, m.archived, m.left⟩ := by
      simp only [next, hm, perform]
      rfl
    have hlast := eq_of_ended rfl (reaches_end (h.tail hlimit) hend rfl)
    obtain ⟨he, rfl, -⟩ := Moment.mk.inj hlast
    exact ⟨rfl, Control.ended.inj he⟩

/-- A loop that has completed a run with no jump pending runs again, or fails if no more runs are
allowed, exactly if it is conditional and its conditions ask for it. They read the records of the
current session that were written inside the loop, at any depth, and no others, provided that no two
loops share an id and that no response to a trial outside all loops pretends to come from one. The trace
of a run tells of a further run of a loop where the loop ran again, and nowhere else. -/
theorem loop_continues (hc : compile settings tree = .ok t) (env : Environment σ ρ) (responses : σ)
    (arranger : ρ) :
    (∀ m, env.Reaches t (env.opening t responses arranger) m →
      ∃ past now, env.History t responses arranger past now m) ∧
    (∀ past now m l inner left run rest, env.History t responses arranger past now m →
      m.control = .running (.again l inner left run :: rest) →
      ∃ p loop sub around index later, .loop p l inner ∈ flattenIn t.nodes ∧
        .loop loop sub ∈ Item.flattenIn tree ∧
        NodeOf around index later (.loop loop sub) (.loop p l inner) ∧
        (m.session.context.pendingJump = none →
          (loop.isConditional = false → env.next t m = some { m with control := .running rest }) ∧
          (loop.isConditional = true → (Item.loopIds tree).Nodup →
            (∀ a ∈ now, a.OutsideLoops t → a.response.get? DataLog.loopColumn = none) →
            (loop.Asks inner now →
              env.next t m = some { m with control := .running (.round l inner left run :: rest) }) ∧
            (¬loop.Asks inner now → env.next t m = some { m with control := .running rest }) ∧
            ∀ x r, m.session.log.latestWithin l.dataScope x = some r ↔
              ∃ a, IsFirst (fun b => b.plan.id = x ∧ b.node ∈ flattenIn inner) now a ∧ a.record = r)) ∧
        ∃ b, env.next t { m with control := .running (.round l inner left run :: rest) } = some b ∧
          (left = 0 → b.control = .ended (some (overLimit env.settings.maxLoopRuns
            (.loopLimit l.id env.settings.maxLoopRuns)))) ∧
          (0 < left → b.session.trace = .loopRun l.id run :: m.session.trace)) ∧
    (∀ earlier later id run,
      (env.sessions t 0 [] (start responses arranger) env.settings.maxRestarts.toNat).2.trace =
        earlier ++ .loopRun id run :: later → 1 < run →
      ∃ past now m p loop sub l inner left rest, env.History t responses arranger past now m ∧
        m.control = .running (.again l inner left run :: rest) ∧ m.session.trace.reverse = earlier ∧
        .loop p l inner ∈ flattenIn t.nodes ∧ .loop loop sub ∈ Item.flattenIn tree ∧ loop.id = id ∧
        l.id = id ∧
        (m.session.context.pendingJump = none → loop.isConditional = true ∧ ((Item.loopIds tree).Nodup →
          (∀ a ∈ now, a.OutsideLoops t → a.response.get? DataLog.loopColumn = none) →
          loop.Asks inner now))) ∧
    ∀ m l inner left run rest, env.Reaches t (env.opening t responses arranger) m →
      m.control = .running (.again l inner left run :: rest) →
      env.next t m = some { m with control := .running (.round l inner left run :: rest) } →
        (0 < left → ∃ later,
          (env.sessions t 0 [] (start responses arranger) env.settings.maxRestarts.toNat).2.trace =
            m.session.trace.reverse ++ .loopRun l.id run :: later) ∧
        (left = 0 →
          (env.sessions t 0 [] (start responses arranger) env.settings.maxRestarts.toNat).2.trace =
            m.session.trace.reverse ∧
          (env.sessions t 0 [] (start responses arranger) env.settings.maxRestarts.toNat).1 =
            some (overLimit env.settings.maxLoopRuns (.loopLimit l.id env.settings.maxLoopRuns))) := by
  refine ⟨fun m h => exists_history h, ?_, fun _ _ _ _ => asks_of_trace hc, ?_⟩
  swap
  · intro m l inner left run rest h _ hn
    exact trace_of_round (h.tail hn) rfl
  intro past now m l inner left run rest h hm
  obtain ⟨p, loop, sub, around, index, later, hl, hitem, hnode, -, hcont⟩ := h.again_source hc hm
  refine ⟨p, loop, sub, around, index, later, hl, hitem, hnode, ?_, next_round rfl⟩
  intro hp
  have hnext : env.next t m = _ := next_again hm hp
  constructor
  · intro hcond
    rw [hcont, hcond] at hnext
    exact hnext
  · intro hcond hd hfree
    rw [hcont, if_pos hcond] at hnext
    have hasks := h.asks_iff hc hd hl hfree loop
    refine ⟨?_, ?_, h.latestWithin_iff hc hd hl hfree⟩
    · intro ha
      rwa [if_pos (hasks.mpr ha)] at hnext
    · intro ha
      rwa [if_neg fun he => ha (hasks.mp he)] at hnext

def insisting : Loop :=
  { Loop.plain ⟨"l"⟩ with
    isConditional := true
    loopConditions := [⟨0, [{ Rule.blank with trial := some ⟨"a"⟩, column := "sure", value := "no" }], ()⟩] }

def askingTree : List Item :=
  [.trial (.plain ⟨"q"⟩), .loop insisting [.loop (.plain ⟨"k"⟩) [.trial (.plain ⟨"a"⟩)]]]

def askingTimeline : Timeline := (compile .default askingTree).toOption.getD ⟨[], .empty, []⟩

def unsure : Environment Unit Unit :=
  ⟨.default, fun _ _ _ s => (.ofList [("sure", .str "no")], s), RowOrder.keep⟩

def asked : Moment Unit Unit :=
  (unsure.steps askingTimeline 23 (unsure.opening askingTimeline () ())).getD
    (unsure.opening askingTimeline () ())

theorem asked_again :
    ∃ l inner left run rest, asked.control = .running (.again l inner (left + 1) run :: rest) ∧
      Condition.anyHolds l.continuation (asked.session.log.latestWithin l.dataScope) = true :=
  ⟨_, _, _, _, _, rfl, rfl⟩

theorem loop_continues_nested :
    compile .default askingTree = .ok askingTimeline ∧
      ∃ past now l inner left run rest, unsure.History askingTimeline () () past now asked ∧
        asked.control = .running (.again l inner left run :: rest) ∧
        asked.session.context.pendingJump = none ∧ (Item.loopIds askingTree).Nodup ∧
        (∀ a ∈ now, a.OutsideLoops askingTimeline → a.response.get? DataLog.loopColumn = none) ∧
        (∃ loop sub, .loop loop sub ∈ Item.flattenIn askingTree ∧ loop.isConditional = true ∧
          loop.Asks inner now) ∧
        ∃ later, (unsure.sessions askingTimeline 0 [] (start () ()) unsure.settings.maxRestarts.toNat).2.trace =
          asked.session.trace.reverse ++ .loopRun l.id run :: later := by
  have hc : compile .default askingTree = .ok askingTimeline := by cbv
  have hreach : unsure.Reaches askingTimeline (unsure.opening askingTimeline () ()) asked :=
    steps_reaches unsure (show unsure.steps askingTimeline 23 _ = some asked from rfl)
  have hd : (Item.loopIds askingTree).Nodup := by decide
  have hp : asked.session.context.pendingJump = none := rfl
  obtain ⟨hhistory, hcontinues, -, htrace⟩ := loop_continues hc unsure () ()
  obtain ⟨past, now, h⟩ := hhistory asked hreach
  have hfree : ∀ a ∈ now, a.OutsideLoops askingTimeline → a.response.get? DataLog.loopColumn = none := by
    intro a ha _
    obtain ⟨x, hx⟩ := h.response_mem ha
    rw [hx]
    rfl
  obtain ⟨l, inner, left, run, rest, hm, hany⟩ := asked_again
  have hagain : unsure.next askingTimeline asked = _ := next_again hm hp
  rw [if_pos hany] at hagain
  have hmore : unsure.next askingTimeline asked ≠ some { asked with control := .running rest } := by
    simp [hagain]
  obtain ⟨p, loop, sub, around, index, later, hl, hitem, hnode, hcore, -⟩ :=
    hcontinues past now asked l inner (left + 1) run rest h hm
  obtain ⟨hplain, hasks⟩ := hcore hp
  have hcond : loop.isConditional = true := by
    by_contra hne
    exact hmore (hplain (eq_false_of_ne_true hne))
  obtain ⟨-, hno, -⟩ := hasks hcond hd hfree
  have hasks : loop.Asks inner now := by
    by_contra hne
    exact hmore (hno hne)
  obtain ⟨hrun, -⟩ := htrace asked l inner (left + 1) run rest hreach hm hagain
  exact ⟨hc, past, now, l, inner, left + 1, run, rest, h, hm, hp, hd, hfree,
    ⟨loop, sub, hitem, hcond, hasks⟩, hrun left.succ_pos⟩

end Environment

end BranchingTimeline
