import BranchingTimeline.Proofs.Session.Counters
import BranchingTimeline.Proofs.Session.Landing

namespace BranchingTimeline

namespace Environment

open Compile Node

variable {σ ρ : Type} {env : Environment σ ρ} {t : Timeline} {task : Task} {s : Session σ ρ}
  {m m' : Moment σ ρ} {x : ItemId} {l : LoopPlan} {items : List Node} {rest : List Task}

section Source

theorem hook_source {n : Node} (h : (hook n s).2.pendingJump = some x) :
    (hook n s).1.jump? = some x ∨ s.context.pendingJump = some x := by
  rw [(hook_receives n s).pendingJump, Option.or_eq_some_iff] at h
  exact h.imp_right And.right

theorem perform_source (h : (env.perform task s).2.2.context.pendingJump = some x) :
    s.context.pendingJump = some x ∨
      ∃ id o, eventOf task s = some (.finished id o) ∧ o.jump? = some x := by
  have hstable : Context.Stable fun c => c.pendingJump = some x → s.context.pendingJump = some x ∨
      ∃ id o, eventOf task s = some (.finished id o) ∧ o.jump? = some x := by
    constructor
    · intro c y f hc hp
      exact hc ((Context.pendingJump_update ..).symm.trans hp)
    · intro c hc hp
      cases hp
  refine perform_stable env hstable task ?_ .inl h
  rintro n rfl hp
  rcases hook_source hp with ho | hs
  · refine .inr ⟨reportedId n, (hook n s).1, ?_, ho⟩
    have hidle : (hook n s).1 ≠ .idle := by
      intro he
      rw [he] at ho
      cases ho
    simp [eventOf, hidle]
  · exact .inl hs

theorem next_source (hn : env.next t m = some m') (h : m'.session.context.pendingJump = some x) :
    m.session.context.pendingJump = some x ∨
      ∃ id o, m'.session.trace = .finished id o :: m.session.trace ∧ o.jump? = some x := by
  rcases next_inv hn with ⟨-, rfl⟩ | ⟨task, rest, -, rfl⟩
  · left
    simp only [close] at h
    split at h
    · exact h
    · split at h
      · split at h
        · exact h
        · simp only [restart, Session.report, Context.reload, Context.pendingJump, Context.start,
            Option.or_none] at h
          simp [Context.pendingJump, h]
      · cases h
  · rcases perform_source h with hs | ⟨id, o, he, ho⟩
    · exact .inl hs
    · refine .inr ⟨id, o, ?_, ho⟩
      rw [perform_trace, he]
      rfl

theorem reaches_source (h : env.Reaches t m m') (hm : m.session.context.pendingJump = none)
    (hm' : m'.session.context.pendingJump = some x) :
    ∃ newer id o older, m'.session.trace = newer ++ .finished id o :: (older ++ m.session.trace) ∧
      o.jump? = some x := by
  induction h with
  | refl =>
      rw [hm] at hm'
      cases hm'
  | tail ha hn ih =>
      rcases next_source hn hm' with hp | ⟨id, o, htrace, ho⟩
      · obtain ⟨newer, id, o, older, htrace, ho⟩ := ih hp
        rcases next_trace hn with hs | ⟨e, he⟩
        · exact ⟨newer, id, o, older, hs.trans htrace, ho⟩
        · exact ⟨e :: newer, id, o, older, by rw [he, htrace]; rfl, ho⟩
      · obtain ⟨older, holder⟩ := reaches_trace ha
        exact ⟨[], id, o, older, by rw [htrace, holder]; rfl, ho⟩

end Source

theorem askAgain_inside (hp : s.context.pendingJump = some x) (hx : l.id ≠ x)
    (hin : (items.any fun n => n.id = x || n.guard.members.contains x) = true) :
    askAgain l items s = (true, s) := by
  simp only [askAgain, Context.continueLoop, hp, if_neg hx.symm, hin]
  rfl

/-- A loop without repetitions that is asked for an item inside it is run as often as it may be, and
nothing else happens. -/
theorem reaches_spun (hl : l.repetitions.toNat = 0) (hx : l.id ≠ x)
    (hin : (items.any fun n => n.id = x || n.guard.members.contains x) = true) {left run : Nat}
    (hc : m.control = .running (.round l items left run :: rest))
    (hp : m.session.context.pendingJump = some x) :
    ∃ m', env.Reaches t m m' ∧
      m'.control =
        .ended (some (overLimit env.settings.maxLoopRuns (.loopLimit l.id env.settings.maxLoopRuns))) ∧
      m'.session.trace = ((List.range' run left).map (Event.loopRun l.id)).reverse ++ m.session.trace ∧
      m'.session.context.pendingJump = some x := by
  induction left generalizing m run with
  | zero =>
      refine ⟨{ m with control := .ended (some _) }, .single ?_, rfl, rfl, hp⟩
      simp only [next, hc, perform]
      rfl
  | succ left ih =>
      obtain ⟨a, hopen, ha, htrace, hpa⟩ := reaches_openRun env (t := t) hc
      have hnone : (env.openRun l run m.session).1 = [] := by
        simp [openRun, stimuliFor, hl]
      rw [hnone] at ha
      rw [hp] at hpa
      have hpasses : env.next t a = some { a with control := .running (.again l items left (run + 1) :: rest) } := by
        simp only [next, ha, perform]
        rfl
      have hagain : env.next t { a with control := .running (.again l items left (run + 1) :: rest) } =
          some { a with control := .running (.round l items left (run + 1) :: rest) } := by
        simp [next, perform, askAgain_inside hpa hx hin, Control.after]
      obtain ⟨m', hspun, hend, htrace', hp'⟩ :=
        ih (m := { a with control := .running (.round l items left (run + 1) :: rest) }) rfl hpa
      refine ⟨m', hopen.trans (.head hpasses (.head hagain hspun)), hend, ?_, hp'⟩
      rw [htrace', htrace, List.range'_succ]
      simp

section Rerun

variable {around : Surroundings} {index : Nat} {sub : List Item} {before after : List LoopPlan}
  {left run : Nat}

theorem round_descends (h : Compiled around index sub items)
    (hlimit : 0 < env.settings.maxLoopRuns.toNat) (hfind : (findIn x items).isSome = true)
    (hsplit : enclosingIn x items = before ++ after) (hl : 0 < l.repetitions.toNat)
    (hbefore : ∀ j ∈ before, 0 < j.repetitions.toNat)
    (hc : m.control = .running (.round l items (left + 1) run :: rest))
    (hp : m.session.context.pendingJump = some x) :
    ∃ a b stimuli, env.Reaches t m a ∧ a.session.trace = .loopRun l.id run :: m.session.trace ∧
      Descends env t x items after (.passes items stimuli :: .again l items left (run + 1) :: rest) a b := by
  obtain ⟨row, stimuli, a, hpass, ha, htrace, hpa⟩ := reaches_pass env (t := t) hl hc
  obtain ⟨b, hb⟩ := compiled_descends (t := t) h hlimit hfind hsplit hbefore ha (hpa.trans hp)
  exact ⟨a, b, stimuli, hpass, htrace, hb⟩

theorem round_serves (h : Compiled around index sub items)
    (hlimit : 0 < env.settings.maxLoopRuns.toNat) (hfind : (findIn x items).isSome = true)
    (hl : ∀ j ∈ l :: enclosingIn x items, 0 < j.repetitions.toNat)
    (hc : m.control = .running (.round l items (left + 1) run :: rest))
    (hp : m.session.context.pendingJump = some x) :
    ∃ n stimulus inner m', findIn x items = some n ∧ env.Reaches t m m' ∧
      m'.control = .running (.work stimulus n :: (inner ++ .again l items left (run + 1) :: rest)) ∧
      m'.session.trace = (approachIn x items).reverse ++ .loopRun l.id run :: m.session.trace ∧
      m'.session.context.jumpStore = none ∧ m'.session.context.jumpMemory = none := by
  obtain ⟨a, b, stimuli, ha, htrace, ⟨n, stimulus, inner, hcontrol, harrives⟩, hb, new, later, happroach,
    hlater, hnew⟩ := round_descends (t := t) h hlimit hfind (List.append_nil _).symm (hl l List.mem_cons_self)
      (fun j hj => hl j (List.mem_cons_of_mem l hj)) hc hp
  obtain rfl := hlater rfl
  rw [List.append_nil] at happroach
  cases harrives with
  | target hn hstore hmemory =>
      refine ⟨n, stimulus, inner ++ [.passes items stimuli], b, hn, ha.trans hb, ?_, ?_, hstore, hmemory⟩
      · rw [hcontrol, List.append_assoc]
        rfl
      · rw [hnew, htrace, happroach]

theorem round_spins {k : LoopPlan} (h : Compiled around index sub items)
    (hlimit : 0 < env.settings.maxLoopRuns.toNat)
    (hin : (items.any fun n => n.id = x || n.guard.members.contains x) = true) (hx : l.id ≠ x)
    (hsplit : l :: enclosingIn x items = before ++ k :: after)
    (hbefore : ∀ j ∈ before, 0 < j.repetitions.toNat) (hk : k.repetitions.toNat = 0)
    (hc : m.control = .running (.round l items (left + 1) run :: rest))
    (hp : m.session.context.pendingJump = some x) :
    ∃ m', env.Reaches t m m' ∧
      m'.control =
        .ended (some (overLimit env.settings.maxLoopRuns (.loopLimit k.id env.settings.maxLoopRuns))) ∧
      m'.session.context.pendingJump = some x := by
  cases before with
  | nil =>
      obtain ⟨rfl, -⟩ := List.cons.inj hsplit
      obtain ⟨m', hspun, hend, -, hp'⟩ := reaches_spun (t := t) hk hx hin hc hp
      exact ⟨m', hspun, hend, hp'⟩
  | cons j before =>
      rw [List.cons_append] at hsplit
      obtain ⟨rfl, hafter⟩ := List.cons.inj hsplit
      obtain ⟨a, b, stimuli, ha, -, ⟨n, stimulus, inner, hcontrol, harrives⟩, hb, -⟩ :=
        round_descends (t := t) h hlimit (h.any_iff.mp hin) hafter (hbefore l List.mem_cons_self)
          (fun j hj => hbefore j (List.mem_cons_of_mem l hj)) hc hp
      cases harrives with
      | @loop p k' items' after' hid hin' hp' =>
          have hwork := next_work_loop env (t := t) hcontrol
          obtain ⟨m', hspun, hend, -, hp''⟩ := reaches_spun (t := t) (m := ⟨_, b.session, b.archived, b.left⟩)
            hk hid hin' rfl hp'
          exact ⟨m', (ha.trans hb).trans (.head hwork hspun), hend, hp''⟩

end Rerun

/-- A loop that has completed a run and is run again for a pending jump to an item inside it leads
straight to that item, which consumes the jump, if it and the loops inside it around the item have
repetitions. From then on a jump is pending only if some finish sets one again. Otherwise the first of
these loops without repetitions is run for the jump again and again, up to the limit. -/
theorem rerun_consumes {settings : Settings} {tree : List Item} (hc : compile settings tree = .ok t)
    (env : Environment σ ρ) (responses : σ) (arranger : ρ) {left run : Nat}
    (hm : env.Reaches t (env.opening t responses arranger) m)
    (hcontrol : m.control = .running (.again l items (left + 1) run :: rest))
    (hp : m.session.context.pendingJump = some x) (hx : x ≠ l.id)
    (hagain : (askAgain l items m.session).1 = true) :
    ((∀ j ∈ l :: enclosingIn x items, 0 < j.repetitions) →
      ∃ n stimulus inner m', findIn x items = some n ∧ env.Reaches t m m' ∧
        m'.control = .running (.work stimulus n :: (inner ++ .again l items left (run + 1) :: rest)) ∧
        m'.session.trace = (approachIn x items).reverse ++ .loopRun l.id run :: m.session.trace ∧
        m'.session.context.jumpStore = none ∧ m'.session.context.jumpMemory = none ∧
        ∀ b y, env.Reaches t m' b → b.session.context.pendingJump = some y →
          ∃ newer id o older, b.session.trace = newer ++ .finished id o :: (older ++ m'.session.trace) ∧
            o.jump? = some y) ∧
    ∀ before k after, l :: enclosingIn x items = before ++ k :: after →
      (∀ j ∈ before, 0 < j.repetitions) → k.repetitions = 0 →
        ∃ m', env.Reaches t m m' ∧ m'.session.context.pendingJump = some x ∧
          m'.control = .ended (some (overLimit env.settings.maxLoopRuns
            (.loopLimit k.id env.settings.maxLoopRuns))) ∧
          env.run t responses arranger = .error
            (overLimit env.settings.maxLoopRuns (.loopLimit k.id env.settings.maxLoopRuns)) := by
  have hmem : Task.again l items (left + 1) run ∈ m.tasks := by simp [Moment.tasks, hcontrol]
  obtain ⟨p, hl⟩ : (Task.again l items (left + 1) run).Within t.nodes :=
    reaches_within (opening_sound env t responses arranger).within hm _ hmem
  obtain ⟨around, index, sub, hi⟩ : ∃ around index sub, Compiled around index sub items := by
    obtain ⟨_, _, _, _, hnode, -⟩ := nodeOf_of_compile hc hl
    cases hnode with
    | loop name hi => exact ⟨_, _, _, hi⟩
  obtain ⟨hcount, hrun⟩ := (reaches_counted hm).runs _ hmem
  have hlimit : 0 < env.settings.maxLoopRuns.toNat := by omega
  have hin : (items.any fun n => n.id = x || n.guard.members.contains x) = true := by
    simpa only [askAgain, Context.continueLoop, hp, if_neg hx] using hagain
  have hnext : env.next t m = some { m with control := .running (.round l items (left + 1) run :: rest) } := by
    simp only [next, hcontrol, perform, askAgain_inside hp hx.symm hin, Control.after]
    rfl
  constructor
  · intro hrepeated
    obtain ⟨n, stimulus, inner, m', hn, hreach, hcontrol', htrace, hstore, hmemory⟩ :=
      round_serves (m := { m with control := .running (.round l items (left + 1) run :: rest) }) hi hlimit
        (hi.any_iff.mp hin) (fun j hj => UInt32.lt_iff_toNat_lt.mp (hrepeated j hj)) rfl hp
    refine ⟨n, stimulus, inner, m', hn, .head hnext hreach, hcontrol', htrace, hstore, hmemory, ?_⟩
    intro b y hb hy
    exact reaches_source hb (Context.pendingJump_eq_none.mpr ⟨hstore, hmemory⟩) hy
  · intro before k after hsplit hbefore hk
    obtain ⟨m', hreach, hend, hp'⟩ :=
      round_spins (m := { m with control := .running (.round l items (left + 1) run :: rest) }) hi hlimit hin
        hx.symm hsplit (fun j hj => UInt32.lt_iff_toNat_lt.mp (hbefore j hj)) (by rw [hk]; rfl) rfl hp
    have hreach' : env.Reaches t m m' := .head hnext hreach
    exact ⟨m', hreach', hp', hend, run_of_ended (hm.trans hreach') hend⟩

def revising : Trial := { Trial.plain ⟨"c"⟩ with branches := [⟨"b"⟩] }

def revisingTree (repetitions : UInt32) : List Item :=
  [.loop (.plain ⟨"l"⟩) [.trial (.plain ⟨"a"⟩),
    .loop { Loop.plain ⟨"k"⟩ with repetitions } [.trial (.plain ⟨"b"⟩)], .trial revising]]

def revisingTimeline (repetitions : UInt32) : Timeline :=
  (compile .default (revisingTree repetitions)).toOption.getD ⟨[], .empty, []⟩

def revised (repetitions : UInt32) (parts : Nat) : Moment Unit Unit :=
  (silent.steps (revisingTimeline repetitions) parts (silent.opening (revisingTimeline repetitions) () ())).getD
    (silent.opening (revisingTimeline repetitions) () ())

theorem rerun_consumes_revised :
    (∃ l items rest m', (revised 1 27).control = .running (.again l items 99 2 :: rest) ∧
      (revised 1 27).session.context.pendingJump = some ⟨"b"⟩ ∧
      silent.Reaches (revisingTimeline 1) (revised 1 27) m' ∧ m'.session.context.jumpStore = none ∧
      m'.session.trace = [.loopRun ⟨"k"⟩ 1, .skipped ⟨"a"⟩ .skippedForJump, .loopRun ⟨"l"⟩ 2] ++
        (revised 1 27).session.trace) ∧
    silent.run (revisingTimeline 0) () () = .error (.loopLimit ⟨"k"⟩ 100) := by
  constructor
  · have hc : compile .default (revisingTree 1) = .ok (revisingTimeline 1) := by cbv
    have hm : silent.Reaches (revisingTimeline 1) (silent.opening (revisingTimeline 1) () ()) (revised 1 27) :=
      steps_reaches silent (show silent.steps (revisingTimeline 1) 27 _ = some (revised 1 27) from rfl)
    have hp : (revised 1 27).session.context.pendingJump = some ⟨"b"⟩ := rfl
    obtain ⟨l, items, rest, hcontrol, hx, hagain, hl, happroach⟩ : ∃ l items rest,
        (revised 1 27).control = .running (.again l items (98 + 1) 2 :: rest) ∧ ⟨"b"⟩ ≠ l.id ∧
          (askAgain l items (revised 1 27).session).1 = true ∧
          (∀ j ∈ l :: enclosingIn ⟨"b"⟩ items, 0 < j.repetitions) ∧
          (approachIn ⟨"b"⟩ items).reverse ++ [.loopRun l.id 2] =
            [.loopRun ⟨"k"⟩ 1, .skipped ⟨"a"⟩ .skippedForJump, .loopRun ⟨"l"⟩ 2] :=
      ⟨_, _, _, rfl, by decide, rfl, by decide, by decide⟩
    obtain ⟨hserves, -⟩ := rerun_consumes hc silent () () hm hcontrol hp hx hagain
    obtain ⟨n, stimulus, inner, m', -, hreach, -, htrace, hstore, -⟩ := hserves hl
    refine ⟨l, items, rest, m', hcontrol, hp, hreach, hstore, ?_⟩
    rw [htrace, ← happroach]
    simp
  · have hc : compile .default (revisingTree 0) = .ok (revisingTimeline 0) := by cbv
    have hm : silent.Reaches (revisingTimeline 0) (silent.opening (revisingTimeline 0) () ()) (revised 0 21) :=
      steps_reaches silent (show silent.steps (revisingTimeline 0) 21 _ = some (revised 0 21) from rfl)
    have hp : (revised 0 21).session.context.pendingJump = some ⟨"b"⟩ := rfl
    obtain ⟨l, items, rest, k, hcontrol, hx, hagain, hsplit, hl, hk, hid⟩ : ∃ l items rest k,
        (revised 0 21).control = .running (.again l items (98 + 1) 2 :: rest) ∧ ⟨"b"⟩ ≠ l.id ∧
          (askAgain l items (revised 0 21).session).1 = true ∧
          l :: enclosingIn ⟨"b"⟩ items = [l] ++ k :: [] ∧ (∀ j ∈ [l], 0 < j.repetitions) ∧
          k.repetitions = 0 ∧ k.id = ⟨"k"⟩ :=
      ⟨_, _, _, _, rfl, by decide, rfl, rfl, by decide, rfl, rfl⟩
    obtain ⟨-, hspins⟩ := rerun_consumes hc silent () () hm hcontrol hp hx hagain
    obtain ⟨m', -, -, -, hrun⟩ := hspins [l] k [] hsplit hl hk
    rw [hid] at hrun
    exact hrun

def leading : Trial := { Trial.plain ⟨"b"⟩ with branches := [⟨"a"⟩] }

def spinningTree : List Item :=
  [.loop { Loop.plain ⟨"l"⟩ with repetitions := 0 } [.trial (.plain ⟨"a"⟩)], .trial leading]

def spinningTimeline : Timeline := (compile .default spinningTree).toOption.getD ⟨[], .empty, []⟩

def spun (parts : Nat) : Moment Unit Unit :=
  (silent.steps spinningTimeline parts (silent.opening spinningTimeline () ())).getD
    (silent.opening spinningTimeline () ())

/-- A run that is made for a jump does not consume it, and another follows. -/
theorem spinning_not_consumed :
    compile .default spinningTree = .ok spinningTimeline ∧
      silent.Reaches spinningTimeline (silent.opening spinningTimeline () ()) (spun 17) ∧
      silent.Reaches spinningTimeline (spun 17) (spun 20) ∧
      (∃ l items rest, (spun 17).control = .running (.again l items 99 2 :: rest) ∧
        (askAgain l items (spun 17).session).1 = true ∧
        (spun 20).control = .running (.again l items 98 3 :: rest) ∧
        (askAgain l items (spun 20).session).1 = true) ∧
      (spun 17).session.context.pendingJump = some ⟨"a"⟩ ∧
      (spun 20).session.context.pendingJump = some ⟨"a"⟩ ∧
      (spun 20).session.trace = .loopRun ⟨"l"⟩ 2 :: (spun 17).session.trace ∧
      silent.run spinningTimeline () () = .error (.loopLimit ⟨"l"⟩ 100) := by
  refine ⟨by cbv, ?_, ?_, ⟨_, _, _, rfl, rfl, rfl, rfl⟩, rfl, rfl, rfl, by cbv⟩
  · exact steps_reaches silent (show silent.steps spinningTimeline 17 _ = some (spun 17) from rfl)
  · exact steps_reaches silent (show silent.steps spinningTimeline 3 (spun 17) = some (spun 20) from rfl)

end Environment

end BranchingTimeline
