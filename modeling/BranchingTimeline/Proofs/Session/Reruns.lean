import BranchingTimeline.Proofs.Session.Continuation

namespace BranchingTimeline

namespace Environment

open Step Compile Node

variable {σ ρ : Type} {env : Environment σ ρ} {l : LoopPlan} {items : List Node} {s u v w : Session σ ρ}

variable (env) in
/-- An entry of a loop that began in a session has by now asked for another run so many times, each
time after a run that came to its end. -/
def Asked (l : LoopPlan) (items : List Node) (s : Session σ ρ) (times : Nat) (u : Session σ ρ) : Prop :=
  Rounds (env.loopBody l fun row => env.runNodes row items) (askAgain l items) 1 s (times + 1) u

variable (env) in
def FailsAmong (nodes : List Node) (e : Error) : Prop :=
  ∃ p k inner, .loop p k inner ∈ flattenIn nodes ∧
    e = overLimit env.settings.maxLoopRuns (.loopLimit k.id env.settings.maxLoopRuns)

variable (env) in
theorem fails_runNodes (stimulus : Option Record) (nodes : List Node) :
    Stops (fun flow _ => ∀ e, flow = .failed e → env.FailsAmong nodes e)
      (env.runNodes stimulus nodes) := by
  refine env.stops_runNodes (C := (· ∈ flattenIn nodes)) ?_ ?_ stimulus nodes fun _ h => h
  · intro n _ s _ e he
    exact absurd he (reportFinish_completes _ _ s e)
  · rintro p k inner hk s e he
    exact ⟨p, k, inner, hk, (Flow.failed.inj he).symm⟩

theorem fails_loopBody {run : Nat} {e : Error}
    (h : env.loopBody l (fun row => env.runNodes row items) run s = (.failed e, u)) :
    env.FailsAmong items e := by
  have hstops := Stops.forEach (fun row => fails_runNodes env row items) (env.openRun l run s).1
  rw [loopBody_eq] at h
  have hs := hstops (env.openRun l run s).2
  rw [h] at hs
  exact hs nofun e rfl

theorem FailsAmong.ne {e : Error} (h : env.FailsAmong items e)
    (hlimit : env.settings.maxLoopRuns.toNat + 1 < UInt32.size)
    (hid : ∀ p k inner, .loop p k inner ∈ flattenIn items → k.id ≠ l.id) :
    e ≠ .loopLimit l.id env.settings.maxLoopRuns := by
  obtain ⟨p, k, inner, hk, rfl⟩ := h
  rw [overLimit, if_pos hlimit]
  rintro he
  exact hid p k inner hk (Error.loopLimit.inj he).1

theorem runLoop_next (h : env.reruns l items (fun row => env.runNodes row items) s = (.next, u)) :
    env.runLoop l items (fun row => env.runNodes row items) s =
      reportFinish l.id (u.context.finishLoop l u.log.latest) u :=
  andThen_next h

theorem runLoop_stop (h : (env.reruns l items (fun row => env.runNodes row items) s).1 ≠ .next) :
    env.runLoop l items (fun row => env.runNodes row items) s =
      env.reruns l items (fun row => env.runNodes row items) s :=
  andThen_stop h

theorem Asked.runLoop_exhausted (h : env.Asked l items s env.settings.maxLoopRuns.toNat u) :
    env.runLoop l items (fun row => env.runNodes row items) s =
      (.failed (overLimit env.settings.maxLoopRuns (.loopLimit l.id env.settings.maxLoopRuns)), u) := by
  have hruns : env.reruns l items (fun row => env.runNodes row items) s = _ :=
    h.rerun_eq 0 (by omega)
  rw [runLoop_stop (by rw [hruns]; exact nofun), hruns]
  rfl

theorem Asked.runLoop_settled {n : Nat} (h : env.Asked l items s n v)
    (hn : n < env.settings.maxLoopRuns.toNat)
    (hb : env.loopBody l (fun row => env.runNodes row items) (n + 1) v = (.next, w))
    (hg : askAgain l items w = (false, u)) :
    env.runLoop l items (fun row => env.runNodes row items) s =
      reportFinish l.id (u.context.finishLoop l u.log.latest) u := by
  obtain ⟨k, hk⟩ := Nat.exists_eq_add_of_lt hn
  have hruns : env.reruns l items (fun row => env.runNodes row items) s = _ :=
    h.rerun_eq (k + 1) (by omega)
  rw [rerun_succ, andThen_next hb, onceMore, hg] at hruns
  exact runLoop_next hruns

/-- All ways in which an entry of a loop can fail. -/
theorem fails_runLoop {e : Error}
    (h : env.runLoop l items (fun row => env.runNodes row items) s = (.failed e, u)) :
    (env.Asked l items s env.settings.maxLoopRuns.toNat u ∧
        e = overLimit env.settings.maxLoopRuns (.loopLimit l.id env.settings.maxLoopRuns)) ∨
      ∃ n < env.settings.maxLoopRuns.toNat, ∃ v, env.Asked l items s n v ∧
        env.loopBody l (fun row => env.runNodes row items) (n + 1) v = (.failed e, u) ∧
        env.FailsAmong items e := by
  rcases next_or_stop (env.reruns l items fun row => env.runNodes row items) s with ⟨t, ht⟩ | hstop
  · rw [runLoop_next ht] at h
    exact absurd (congrArg Prod.fst h) (reportFinish_completes _ _ t e)
  · rw [runLoop_stop hstop] at h
    have hends := rerun_ends (env.loopBody l fun row => env.runNodes row items) (askAgain l items)
      (overLimit env.settings.maxLoopRuns (.loopLimit l.id env.settings.maxLoopRuns))
      env.settings.maxLoopRuns.toNat 1 s
    rw [show rerun _ _ _ _ _ s = _ from h] at hends
    generalize hf : Flow.failed e = flow at hends
    cases hends with
    | settled => cases hf
    | @stopped last _ v _ hr hl hb _ =>
        obtain ⟨n, rfl⟩ := Nat.exists_eq_add_of_le' hr.le
        subst hf
        exact .inr ⟨n, by omega, v, hr, hb, fails_loopBody hb⟩
    | exhausted hr =>
        rw [Nat.add_comm] at hr
        exact .inl ⟨hr, Flow.failed.inj hf⟩

/-- The limit of runs counts the first run of an entry as well. An entry that has asked for another
run as often as the limit says fails there, though it was run again one time less; with a limit of
zero it is not run at all. One that asks for fewer, each of its runs coming to an end, completes. It
fails in no other way but with a run in which a loop inside it passes the limit. -/
theorem runLoop_limited (env : Environment σ ρ) (l : LoopPlan) (items : List Node) (s : Session σ ρ) :
    let limit := env.settings.maxLoopRuns
    let body := env.loopBody l fun row => env.runNodes row items
    let entry := env.runLoop l items fun row => env.runNodes row items
    (∀ u, env.Asked l items s limit.toNat u →
      entry s = (.failed (overLimit limit (.loopLimit l.id limit)), u)) ∧
    (∀ n v w u, n < limit.toNat → env.Asked l items s n v → body (n + 1) v = (.next, w) →
      askAgain l items w = (false, u) →
        entry s = reportFinish l.id (u.context.finishLoop l u.log.latest) u ∧
          ∀ e, (entry s).1 ≠ .failed e) ∧
    (∀ e u, entry s = (.failed e, u) →
      (env.Asked l items s limit.toNat u ∧ e = overLimit limit (.loopLimit l.id limit)) ∨
        ∃ n < limit.toNat, ∃ v, env.Asked l items s n v ∧ body (n + 1) v = (.failed e, u) ∧
          env.FailsAmong items e) ∧
    (limit.toNat + 1 < UInt32.size →
      (∀ p k inner, .loop p k inner ∈ flattenIn items → k.id ≠ l.id) →
        ((entry s).1 = .failed (.loopLimit l.id limit) ↔ ∃ u, env.Asked l items s limit.toNat u)) := by
  refine ⟨fun u h => h.runLoop_exhausted, ?_, fun e u => fails_runLoop, ?_⟩
  · intro n v w u hn h hb hg
    have hentry := h.runLoop_settled hn hb hg
    refine ⟨hentry, ?_⟩
    intro e
    rw [hentry]
    exact reportFinish_completes _ _ u e
  · intro hlimit hid
    constructor
    · intro h
      rcases fails_runLoop (Prod.ext h rfl) with ⟨hasked, -⟩ | ⟨n, -, v, -, -, hfails⟩
      · exact ⟨_, hasked⟩
      · exact absurd rfl (hfails.ne hlimit hid)
    · rintro ⟨u, h⟩
      rw [h.runLoop_exhausted, overLimit, if_pos hlimit]

def insistingItems : List Item := [.trial (.plain ⟨"a"⟩)]

def insistingNodes : List Node := [trialNode (.inside insisting (.loop "l") []) 0 [] (.plain ⟨"a"⟩)]

def insistingPlan : LoopPlan :=
  loopPlan .root insisting (.loop "l") (plannedFinish .root 0 [] (.loop insisting insistingItems))
    insisting.loopConditions insistingNodes

def hesitant (limit : UInt32) : Environment Nat Unit :=
  ⟨⟨⟨1⟩, 3, limit⟩, fun _ _ _ n => (.ofList [("sure", .str (if n = 0 then "yes" else "no"))], n - 1), RowOrder.keep⟩

theorem hesitant_exhausted : ∃ u, (hesitant 2).Asked insistingPlan insistingNodes (start 2 ()) 2 u := by
  refine ⟨_, .next (Prod.ext ?_ rfl) (Prod.ext ?_ rfl) (.next (Prod.ext ?_ rfl) (Prod.ext ?_ rfl) (.refl _ _))⟩
  · rfl
  · rfl
  · rfl
  · rfl

theorem hesitant_settled : ∃ v w u, (hesitant 2).Asked insistingPlan insistingNodes (start 1 ()) 1 v ∧
    (hesitant 2).loopBody insistingPlan (fun row => (hesitant 2).runNodes row insistingNodes) 2 v = (.next, w) ∧
    askAgain insistingPlan insistingNodes w = (false, u) := by
  refine ⟨_, _, _, .next (Prod.ext ?_ rfl) (Prod.ext ?_ rfl) (.refl _ _), Prod.ext ?_ rfl, Prod.ext ?_ rfl⟩
  · rfl
  · rfl
  · rfl
  · rfl

/-- Two runs are allowed. The entry that is run again once completes, unless it asks for yet another
run. -/
theorem runLoop_limited_hesitant :
    (hesitant 2).settings.maxLoopRuns.toNat + 1 < UInt32.size ∧
      (∀ p k inner, .loop p k inner ∈ flattenIn insistingNodes → k.id ≠ insistingPlan.id) ∧
      ((hesitant 2).runLoop insistingPlan insistingNodes (fun row => (hesitant 2).runNodes row insistingNodes)
        (start 2 ())).1 = .failed (.loopLimit ⟨"l"⟩ 2) ∧
      ∀ e, ((hesitant 2).runLoop insistingPlan insistingNodes
        (fun row => (hesitant 2).runNodes row insistingNodes) (start 1 ())).1 ≠ .failed e := by
  have hlimit : (hesitant 2).settings.maxLoopRuns.toNat + 1 < UInt32.size := by decide
  have hid : ∀ p k inner, .loop p k inner ∈ flattenIn insistingNodes → k.id ≠ insistingPlan.id := by
    intro p k inner h
    simp [insistingNodes, trialNode, flattenIn_cons, flattenIn_nil] at h
  obtain ⟨-, -, -, hfails⟩ := runLoop_limited (hesitant 2) insistingPlan insistingNodes (start 2 ())
  obtain ⟨-, hsettles, -, -⟩ := runLoop_limited (hesitant 2) insistingPlan insistingNodes (start 1 ())
  obtain ⟨v, w, u, hv, hw, hu⟩ := hesitant_settled
  exact ⟨hlimit, hid, (hfails hlimit hid).mpr hesitant_exhausted, (hsettles 1 v w u (by decide) hv hw hu).2⟩

def plainItems : List Item := [.trial (.plain ⟨"t"⟩)]

def plainTimeline : Timeline :=
  (compile .default [.loop (.plain ⟨"l"⟩) plainItems]).toOption.getD ⟨[], .empty, []⟩

def plainNodes : List Node := [trialNode (.inside (.plain ⟨"l"⟩) (.loop "l") []) 0 [] (.plain ⟨"t"⟩)]

def plainPlace : Place := placeOf .root 0 [] (.loop (.plain ⟨"l"⟩) plainItems)

def plainPlan : LoopPlan :=
  loopPlan .root (.plain ⟨"l"⟩) (.loop "l") (plannedFinish .root 0 [] (.loop (.plain ⟨"l"⟩) plainItems)) []
    plainNodes

def stingy : Environment Unit Unit := { silent with settings := ⟨⟨1⟩, 3, 0⟩ }

/-- An entry fails at the limit though it never asks for another run. -/
theorem never_rerun_fails :
    compile .default [.loop (.plain ⟨"l"⟩) plainItems] = .ok plainTimeline ∧
      plainTimeline.nodes = [.loop plainPlace plainPlan plainNodes] ∧
      stingy.run plainTimeline () () = .error (.loopLimit ⟨"l"⟩ 0) ∧
      ∀ n u, stingy.Asked plainPlan plainNodes (consult plainPlace (start () ())).2 n u → n = 0 := by
  refine ⟨by cbv, by cbv, by cbv, ?_⟩
  intro n u h
  have hfirst : (askAgain plainPlan plainNodes (stingy.loopBody plainPlan
      (fun row => stingy.runNodes row plainNodes) 1 (consult plainPlace (start () ())).2).2).1 = false := by cbv
  cases h with
  | refl => rfl
  | next hb hg h =>
      obtain rfl := congrArg Prod.snd hb
      exact absurd (congrArg Prod.fst hg) (by rw [hfirst]; exact Bool.false_ne_true)

end Environment

end BranchingTimeline
