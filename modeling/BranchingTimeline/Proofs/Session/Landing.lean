import BranchingTimeline.Proofs.Session.Jump
import BranchingTimeline.Proofs.Timeline.Search

namespace BranchingTimeline

def Event.isLoopRun : Event → Bool
  | loopRun .. => true
  | _ => false

namespace Node

mutual

/-- What is reported on the way to the first node with an id: the nodes before it are skipped, and
the loops around it are entered. -/
def approach (x : ItemId) : Node → List Event
  | trial .. => []
  | loop p l items => if p.guard.id = x then [] else .loopRun l.id 1 :: approachIn x items

def approachIn (x : ItemId) : List Node → List Event
  | [] => []
  | n :: r =>
    if (find x n).isSome then approach x n else .skipped n.id .skippedForJump :: approachIn x r

end

variable {x : ItemId} {n m : Node} {r : List Node}

theorem approachIn_head (h : find x n = some m) : approachIn x (n :: r) = approach x n := by
  simp [approachIn, h]

theorem approachIn_tail (h : find x n = none) :
    approachIn x (n :: r) = .skipped n.id .skippedForJump :: approachIn x r := by
  simp [approachIn, h]

theorem approach_self (h : n.id = x) : approach x n = [] := by
  cases n with
  | trial p t => simp only [approach]
  | loop p l items => simp only [approach, if_pos (show p.guard.id = x from h)]

theorem approach_loop {p : Place} {l : LoopPlan} {items : List Node} (h : p.guard.id ≠ x) :
    approach x (loop p l items) = .loopRun l.id 1 :: approachIn x items := by
  simp only [approach, if_neg h]

theorem mem_approachIn {nodes : List Node} {e : Event} (h : e ∈ approachIn x nodes) :
    (∃ id, e = .skipped id .skippedForJump) ∨ ∃ id, e = .loopRun id 1 := by
  induction nodes using forest_induction with
  | nil => simp [approachIn] at h
  | trial p t r ih =>
      simp only [approachIn, approach] at h
      split at h
      · cases h
      · rcases List.mem_cons.mp h with rfl | h
        · exact .inl ⟨_, rfl⟩
        · exact ih h
  | loop p l items r ihItems ih =>
      simp only [approachIn, approach] at h
      split at h
      · split at h
        · cases h
        · rcases List.mem_cons.mp h with rfl | h
          · exact .inr ⟨_, rfl⟩
          · exact ihItems h
      · rcases List.mem_cons.mp h with rfl | h
        · exact .inl ⟨_, rfl⟩
        · exact ih h

theorem loopRuns_approachIn (x : ItemId) (nodes : List Node) :
    (approachIn x nodes).filter Event.isLoopRun =
      (enclosingIn x nodes).map fun l => .loopRun l.id 1 := by
  induction nodes using forest_induction with
  | nil => simp [approachIn, enclosingIn]
  | trial p t r ih =>
      simp only [approachIn, enclosingIn, approach, enclosing]
      split
      · rfl
      · exact ih
  | loop p l items r ihItems ih =>
      simp only [approachIn, enclosingIn, approach, enclosing]
      split
      · split
        · rfl
        · exact congrArg (Event.loopRun l.id 1 :: ·) ihItems
      · exact ih

end Node

namespace Compile

open Node

theorem Compiled.any_iff {around : Surroundings} {index : Nat} {items : List Item} {nodes : List Node}
    {x : ItemId} (h : Compiled around index items nodes) :
    (nodes.any fun n => n.id = x || n.guard.members.contains x) = true ↔
      (findIn x nodes).isSome = true := by
  rw [findIn_isSome]
  induction h with
  | nil => simp
  | @trial around index plan r nodes hr ih =>
      have hmembers : (trialNode around index (r.map Item.id) plan).guard.members.contains x = false := rfl
      rw [List.any_cons, Bool.or_eq_true, ih, Bool.or_eq_true, decide_eq_true_iff, hmembers]
      simp [flattenIn_cons, trialNode]
  | @loop around index l items r inner nodes name hi hr ihInner ih =>
      have hnode : NodeOf around index (r.map Item.id) (.loop l items) (.loop _ _ inner) := .loop name hi
      rw [List.any_cons, Bool.or_eq_true, ih, Bool.or_eq_true, decide_eq_true_iff,
        show SortedMap.contains (loopNode around index _ l items (.loop name) inner).guard.members x = true ↔ _
          from hnode.members_iff x]
      simp [flattenIn_cons, loopNode, or_and_right, exists_or, or_assoc]

end Compile

namespace Environment

open Compile Node

variable {σ ρ : Type} {env : Environment σ ρ} {t : Timeline} {x : ItemId} {place : Place}
  {s : Session σ ρ} {m m' : Moment σ ρ} {stimulus : Option Record} {n : Node} {r : List Node}
  {rest : List Task}

theorem consult_target (hp : s.context.pendingJump = some x) (hx : place.guard.id = x) :
    ∃ u, consult place s = (.jumpTarget, u) ∧ u.trace = s.trace ∧ u.context.jumpStore = none ∧
      u.context.jumpMemory = none := by
  rw [consult_pending hp, if_pos hx.symm]
  exact ⟨_, rfl, rfl, rfl, rfl⟩

theorem consult_through (hp : s.context.pendingJump = some x) (hx : place.guard.id ≠ x)
    (hm : place.guard.members.contains x = true) :
    ∃ u, consult place s = (.jumpThrough, u) ∧ u.trace = s.trace ∧
      u.context.pendingJump = some x := by
  rw [consult_pending hp, if_neg hx.symm, if_pos hm]
  exact ⟨_, rfl, rfl, (begun_pendingJump place _).trans hp⟩

theorem consult_skip (hp : s.context.pendingJump = some x) (hx : place.guard.id ≠ x)
    (hm : place.guard.members.contains x = false) :
    ∃ u, consult place s = (.skippedForJump, u) ∧ u.trace = s.trace ∧
      u.context.pendingJump = some x := by
  rw [consult_pending hp, if_neg hx.symm, if_neg (by simp [hm])]
  exact ⟨_, rfl, rfl, (begun_pendingJump place _).trans hp⟩

/-- What a run that looks for an id works at, with some of the loops around the first node with it
still to be run: the first of these, or the node itself, which has consumed the jump. -/
inductive Arrives (x : ItemId) (nodes : List Node) (c : Context) : List LoopPlan → Node → Prop
  | target {n : Node} (hn : findIn x nodes = some n) (hstore : c.jumpStore = none)
      (hmemory : c.jumpMemory = none) : Arrives x nodes c [] n
  | loop {p : Place} {l : LoopPlan} {items : List Node} {after : List LoopPlan} (hx : l.id ≠ x)
      (hin : (items.any fun n => n.id = x || n.guard.members.contains x) = true)
      (hp : c.pendingJump = some x) : Arrives x nodes c (l :: after) (.loop p l items)

theorem Arrives.of_findIn {nodes inner : List Node} {c : Context} {after : List LoopPlan}
    (h : Arrives x inner c after n) (hf : findIn x nodes = findIn x inner) :
    Arrives x nodes c after n := by
  cases h with
  | target hn hstore hmemory => exact .target (hf.trans hn) hstore hmemory
  | loop hx hin hp => exact .loop hx hin hp

/-- A run has come down towards the first node with an id, with some of the loops around it still to
be run. -/
structure Descends (env : Environment σ ρ) (t : Timeline) (x : ItemId) (nodes : List Node)
    (after : List LoopPlan) (rest : List Task) (m m' : Moment σ ρ) : Prop where
  arrives : ∃ n stimulus inner, m'.control = .running (.work stimulus n :: (inner ++ rest)) ∧
    Arrives x nodes m'.session.context after n
  reaches : env.Reaches t m m'
  trace : ∃ new later, approachIn x nodes = new ++ later ∧ (after = [] → later = []) ∧
    m'.session.trace = new.reverse ++ m.session.trace

theorem descends_head (hc : m.control = .running (.visit stimulus (n :: r) :: rest)) (hn : n.id = x)
    (hp : m.session.context.pendingJump = some x) : ∃ m', Descends env t x (n :: r) [] rest m m' := by
  obtain ⟨u, hu, htrace, hstore, hmemory⟩ := consult_target hp (show n.place.guard.id = x from hn)
  have hnext := next_visit (t := t) env hc (by rw [hu]; rfl)
  rw [hu] at hnext
  refine ⟨_, ⟨n, stimulus, [_, _], rfl, .target (findIn_head (find_self hn)) hstore hmemory⟩, .single hnext,
    [], [], ?_, fun _ => rfl, htrace⟩
  rw [approachIn_head (find_self hn), approach_self hn]
  rfl

theorem descends_tail {after : List LoopPlan} (hc : m.control = .running (.visit stimulus (n :: r) :: rest))
    (hn : find x n = none) (hx : n.id ≠ x) (hm : n.guard.members.contains x = false)
    (hp : m.session.context.pendingJump = some x)
    (ih : ∀ m, m.control = .running (.visit stimulus r :: rest) →
      m.session.context.pendingJump = some x → ∃ m', Descends env t x r after rest m m') :
    ∃ m', Descends env t x (n :: r) after rest m m' := by
  obtain ⟨u, hu, htrace, hp'⟩ := consult_skip hp (show n.place.guard.id ≠ x from hx) hm
  have hnext := next_skip (t := t) env hc (by rw [hu]; rfl)
  rw [hu] at hnext
  obtain ⟨m', ⟨k, stimulus', inner, hcontrol, hk⟩, hreach, new, later, happroach, hlater, htrace'⟩ :=
    ih ⟨.running (.visit stimulus r :: rest), u.report (.skipped n.id .skippedForJump),
      m.archived, m.left⟩ rfl hp'
  refine ⟨m', ⟨k, stimulus', inner, hcontrol, hk.of_findIn (findIn_tail hn)⟩, .head hnext hreach,
    .skipped n.id .skippedForJump :: new, later, ?_, hlater, ?_⟩
  · rw [approachIn_tail hn, happroach]
    rfl
  · rw [htrace']
    simp [Session.report, htrace]

theorem stimuliFor_ne_nil {l : LoopPlan} (hl : 0 < l.repetitions.toNat) (rows : List Record) :
    ∃ row more, stimuliFor l rows = row :: more := by
  obtain ⟨k, hk⟩ := Nat.exists_eq_add_one.mpr hl
  rw [stimuliFor, hk, List.replicate_succ, List.flatten_cons]
  cases rows with
  | nil => exact ⟨none, _, rfl⟩
  | cons row rows => exact ⟨some row, _, rfl⟩

section Loop

variable {p : Place} {l : LoopPlan} {items : List Node} {after : List LoopPlan} {left run : Nat}

variable (env) in
theorem reaches_openRun (hc : m.control = .running (.round l items (left + 1) run :: rest)) :
    ∃ m', env.Reaches t m m' ∧
      m'.control = .running (.passes items (env.openRun l run m.session).1 ::
        .again l items left (run + 1) :: rest) ∧
      m'.session.trace = .loopRun l.id run :: m.session.trace ∧
      m'.session.context.pendingJump = m.session.context.pendingJump := by
  obtain ⟨a, ha⟩ := env.openRun_eq l run m.session
  refine ⟨⟨_, (env.openRun l run m.session).2, m.archived, m.left⟩, .single ?_, rfl, ?_, ?_⟩
  · simp only [next, hc, perform]
    rfl
  · rw [ha]
  · rw [ha]
    exact Context.pendingJump_update ..

variable (env) in
theorem reaches_pass (hl : 0 < l.repetitions.toNat)
    (hc : m.control = .running (.round l items (left + 1) run :: rest)) :
    ∃ row stimuli m', env.Reaches t m m' ∧
      m'.control = .running (.visit row items :: .passes items stimuli ::
        .again l items left (run + 1) :: rest) ∧
      m'.session.trace = .loopRun l.id run :: m.session.trace ∧
      m'.session.context.pendingJump = m.session.context.pendingJump := by
  obtain ⟨m', hreach, hcontrol, htrace, hp⟩ := reaches_openRun env (t := t) hc
  obtain ⟨row, stimuli, hrows⟩ : ∃ row stimuli, (env.openRun l run m.session).1 = row :: stimuli :=
    stimuliFor_ne_nil hl _
  rw [hrows] at hcontrol
  refine ⟨row, stimuli, { m' with control := .running (.visit row items :: .passes items stimuli ::
    .again l items left (run + 1) :: rest) }, hreach.tail ?_, rfl, htrace, hp⟩
  simp only [next, hcontrol, perform]
  rfl

theorem descends_through (hc : m.control = .running (.visit stimulus (.loop p l items :: r) :: rest))
    (hx : p.guard.id ≠ x) (hid : l.id ≠ x) (hm : p.guard.members.contains x = true)
    (hin : (items.any fun n => n.id = x || n.guard.members.contains x) = true)
    (hp : m.session.context.pendingJump = some x) :
    ∃ m', Descends env t x (.loop p l items :: r) (l :: after) rest m m' := by
  obtain ⟨u, hu, htrace, hp'⟩ := consult_through hp (show (Node.loop p l items).place.guard.id ≠ x from hx) hm
  have hnext := next_visit (t := t) env hc (by rw [hu]; rfl)
  rw [hu] at hnext
  exact ⟨_, ⟨_, stimulus, [_, _], rfl, .loop hid hin hp'⟩, .single hnext, [], _, rfl, nofun, htrace⟩

theorem descends_loop (hc : m.control = .running (.visit stimulus (.loop p l items :: r) :: rest))
    (hn : find x (.loop p l items) = some n) (hx : p.guard.id ≠ x)
    (hm : p.guard.members.contains x = true) (hp : m.session.context.pendingJump = some x)
    (hl : 0 < l.repetitions.toNat) (hlimit : 0 < env.settings.maxLoopRuns.toNat)
    (ih : ∀ m row rest, m.control = .running (.visit row items :: rest) →
      m.session.context.pendingJump = some x → ∃ m', Descends env t x items after rest m m') :
    ∃ m', Descends env t x (.loop p l items :: r) after rest m m' := by
  obtain ⟨u, hu, htrace, hp⟩ := consult_through hp (show (Node.loop p l items).place.guard.id ≠ x from hx) hm
  obtain ⟨k, hk⟩ := Nat.exists_eq_add_one.mpr hlimit
  have hvisit := next_visit (t := t) env hc (by rw [hu]; rfl)
  rw [hu] at hvisit
  have hround : env.next t ⟨.running (.work stimulus (.loop p l items) :: .leave p ::
      .visit stimulus r :: rest), u, m.archived, m.left⟩ =
      some ⟨.running (.round l items (k + 1) 1 :: .finish (.loop p l items) :: .leave p ::
        .visit stimulus r :: rest), u, m.archived, m.left⟩ := by
    rw [next_work_loop env rfl, hk]
  obtain ⟨row, stimuli, v, hpass, hv, hvtrace, hvp⟩ :=
    reaches_pass env (t := t) (m := ⟨_, u, m.archived, m.left⟩) hl rfl
  obtain ⟨m', ⟨j, stimulus', inner, hcontrol, hj⟩, hreach, new, later, happroach, hlater, htrace'⟩ :=
    ih v row _ hv (hvp.trans hp)
  have hfind : findIn x (.loop p l items :: r) = findIn x items := by
    rw [findIn_head hn, ← hn, find_loop hx]
  refine ⟨m', ⟨j, stimulus', inner ++ [.passes items stimuli, .again l items k 2,
    .finish (.loop p l items), .leave p, .visit stimulus r], ?_, hj.of_findIn hfind⟩,
    .head hvisit (.head hround (hpass.trans hreach)), .loopRun l.id 1 :: new, later, ?_, hlater, ?_⟩
  · rw [hcontrol, List.append_assoc]
    rfl
  · rw [approachIn_head hn, approach_loop hx, happroach]
    rfl
  · rw [htrace', hvtrace, htrace]
    simp

end Loop

/-- A pending jump leads towards the first node with its id, as far as the loops around that have
repetitions: the search for it and the members of the loops agree on where it is. -/
theorem compiled_descends {around : Surroundings} {index : Nat} {items : List Item} {nodes : List Node}
    {before after : List LoopPlan} (h : Compiled around index items nodes)
    (hlimit : 0 < env.settings.maxLoopRuns.toNat) (hfind : (findIn x nodes).isSome = true)
    (hsplit : enclosingIn x nodes = before ++ after) (hl : ∀ l ∈ before, 0 < l.repetitions.toNat)
    (hc : m.control = .running (.visit stimulus nodes :: rest))
    (hp : m.session.context.pendingJump = some x) :
    ∃ m', Descends env t x nodes after rest m m' := by
  induction h generalizing m stimulus rest before with
  | nil => simp [findIn] at hfind
  | @trial around index plan r nodes hr ih =>
      by_cases hx : plan.id = x
      · have hid : (trialNode around index (r.map Item.id) plan).id = x := hx
        rw [enclosingIn_head (find_self hid), enclosing_self hid] at hsplit
        obtain ⟨rfl, rfl⟩ := List.append_eq_nil_iff.mp hsplit.symm
        exact descends_head hc hx hp
      · have hn : find x (trialNode around index (r.map Item.id) plan) = none := find_trial hx
        rw [findIn_tail hn] at hfind
        rw [enclosingIn_tail hn] at hsplit
        apply descends_tail hc hn hx rfl hp
        intro m hc hp
        exact ih hfind hsplit hl hc hp
  | @loop around index l items r inner nodes name hi hr ihInner ih =>
      have hnode : NodeOf around index (r.map Item.id) (.loop l items) (.loop _ _ inner) := .loop name hi
      by_cases hx : l.id = x
      · have hid : (loopNode around index (r.map Item.id) l items (.loop name) inner).id = x := hx
        rw [enclosingIn_head (find_self hid), enclosing_self hid] at hsplit
        obtain ⟨rfl, rfl⟩ := List.append_eq_nil_iff.mp hsplit.symm
        exact descends_head hc hx hp
      · have hinner : find x (loopNode around index (r.map Item.id) l items (.loop name) inner) =
            findIn x inner := find_loop hx
        cases hf : find x (loopNode around index (r.map Item.id) l items (.loop name) inner) with
        | some k =>
            have hin : (findIn x inner).isSome = true := by
              rw [← hinner, hf]
              rfl
            have hmember := (hnode.members_iff x).mpr ((findIn_isSome x inner).mp hin)
            rw [enclosingIn_head hf, loopNode, enclosing_loop hx] at hsplit
            cases before with
            | nil =>
                rw [List.nil_append] at hsplit
                subst hsplit
                exact descends_through hc hx hx hmember (hi.any_iff.mpr hin) hp
            | cons l' before =>
                rw [List.cons_append] at hsplit
                obtain ⟨rfl, hafter⟩ := List.cons.inj hsplit
                apply descends_loop hc hf hx hmember hp (hl _ List.mem_cons_self) hlimit
                intro m row rest hc hp
                exact ihInner hin hafter (fun l hm => hl l (List.mem_cons_of_mem _ hm)) hc hp
        | none =>
            have hout : ¬(∃ n ∈ flattenIn inner, n.id = x) := by
              rw [← findIn_isSome, ← hinner, hf]
              simp
            rw [findIn_tail hf] at hfind
            rw [enclosingIn_tail hf] at hsplit
            have hmember : (loopNode around index (r.map Item.id) l items (.loop name)
                inner).guard.members.contains x = false := by
              apply eq_false_of_ne_true
              intro hm
              exact hout ((hnode.members_iff x).mp hm)
            apply descends_tail hc hf hx hmember hp
            intro m hc hp
            exact ih hfind hsplit hl hc hp

/-- A run has come to the first node with an id, on the shortest way. -/
structure Lands (env : Environment σ ρ) (t : Timeline) (x : ItemId) (nodes : List Node)
    (m m' : Moment σ ρ) : Prop where
  target : ∃ n stimulus rest, findIn x nodes = some n ∧ m'.control = .running (.work stimulus n :: rest)
  reaches : env.Reaches t m m'
  trace : m'.session.trace = (approachIn x nodes).reverse ++ m.session.trace
  store : m'.session.context.jumpStore = none
  memory : m'.session.context.jumpMemory = none

/-- A pending jump leads to the first node with its id. -/
theorem compiled_lands {around : Surroundings} {index : Nat} {items : List Item} {nodes : List Node}
    (h : Compiled around index items nodes) (hlimit : 0 < env.settings.maxLoopRuns.toNat)
    (hfind : (findIn x nodes).isSome = true)
    (hl : ∀ l ∈ enclosingIn x nodes, 0 < l.repetitions.toNat)
    (hc : m.control = .running (.visit stimulus nodes :: rest))
    (hp : m.session.context.pendingJump = some x) : ∃ m', Lands env t x nodes m m' := by
  obtain ⟨m', ⟨n, stimulus', inner, hcontrol, harrives⟩, hreach, new, later, happroach, hlater, htrace⟩ :=
    compiled_descends (t := t) h hlimit hfind (List.append_nil _).symm hl hc hp
  obtain rfl := hlater rfl
  rw [List.append_nil] at happroach
  cases harrives with
  | target hn hstore hmemory =>
      exact ⟨m', ⟨n, stimulus', _, hn, hcontrol⟩, hreach, happroach ▸ htrace, hstore, hmemory⟩

/-- A session that starts with a stored jump to a known id comes to the node that `find` returns,
if the loops around it have repetitions. Until then it skips nodes for the jump, and enters each of
those loops once, from the outside in. The node starts with no jump left. -/
theorem jump_lands {settings : Settings} {items : List Item} (hc : compile settings items = .ok t)
    (hx : t.knownIds.contains x = true) (hl : ∀ l ∈ t.enclosing x, 0 < l.repetitions)
    (env : Environment σ ρ) (hlimit : 0 < env.settings.maxLoopRuns) {c : Context}
    (hj : c.jumpStore = some x) (hs : s.context = c.reload) (archived : List DataLog) (left : Nat) :
    ∃ n m, t.find x = some n ∧
      env.Reaches t ⟨.running [.visit none t.nodes], s, archived, left⟩ m ∧
      (∃ stimulus rest, m.control = .running (.work stimulus n :: rest)) ∧
      m.session.trace = (approachIn x t.nodes).reverse ++ s.trace ∧
      (∀ e ∈ approachIn x t.nodes, (∃ id, e = .skipped id .skippedForJump) ∨ ∃ id, e = .loopRun id 1) ∧
      (approachIn x t.nodes).filter Event.isLoopRun =
        (t.enclosing x).map (fun l => .loopRun l.id 1) ∧
      (∀ l, l ∈ t.enclosing x ↔
        ∃ p inner, .loop p l inner ∈ flattenIn t.nodes ∧ n ∈ flattenIn inner) ∧
      m.session.context.jumpStore = none ∧ m.session.context.jumpMemory = none ∧
      ∃ u logs k, env.Reaches t m ⟨.ended (env.sessions t archived.length archived s left).1, u, logs, k⟩ ∧
        (env.sessions t archived.length archived s left).2 = .ofSession logs.length logs u := by
  have hfind : (findIn x t.nodes).isSome = true :=
    (findIn_isSome x t.nodes).mpr ((knownIds_iff hc x).mp hx).2
  have hp : s.context.pendingJump = some x := by
    rw [hs]
    simp [Context.reload, Context.pendingJump, hj]
  obtain ⟨m, hland⟩ := compiled_lands (t := t) (m := ⟨.running [.visit none t.nodes], s, archived, left⟩)
    (compiled_of_compile hc) (UInt32.lt_iff_toNat_lt.mp hlimit) hfind
    (fun l hm => UInt32.lt_iff_toNat_lt.mp (hl l hm)) rfl hp
  obtain ⟨n, stimulus, rest, hn, hcontrol⟩ := hland.target
  obtain ⟨u, logs, k, hend, hout⟩ := reaches_sessions env t archived s left
  exact ⟨n, m, hn, hland.reaches, ⟨stimulus, rest, hcontrol⟩, hland.trace, fun e => mem_approachIn,
    loopRuns_approachIn x t.nodes, fun l => mem_enclosing_iff hc hn, hland.store, hland.memory,
    u, logs, k, reaches_end hland.reaches hend rfl, hout⟩

def nestedCore : List Item := [.loop (.plain ⟨"k"⟩) [.trial (.plain ⟨"b"⟩)]]

def nested : List Item := [.trial (.plain ⟨"a"⟩), .loop (.plain ⟨"l"⟩) nestedCore]

def nestedTimeline : Timeline := (compile .default nested).toOption.getD ⟨[], .empty, []⟩

def nestedCoreNodes : List Node :=
  [loopNode (.inside (.plain ⟨"l"⟩) (.loop "l") []) 0 [] (.plain ⟨"k"⟩) [.trial (.plain ⟨"b"⟩)] (.loop "k")
    [trialNode (.inside (.plain ⟨"k"⟩) (.loop "k") []) 0 [] (.plain ⟨"b"⟩)]]

def nestedNodes : List Node :=
  [trialNode .root 0 [⟨"l"⟩] (.plain ⟨"a"⟩), loopNode .root 1 [] (.plain ⟨"l"⟩) nestedCore (.loop "l") nestedCoreNodes]

theorem nestedTimeline_nodes : nestedTimeline.nodes = nestedNodes := by cbv

def jumping : Context := { Context.start with jumpStore := some ⟨"b"⟩ }

theorem jump_lands_nested :
    compile .default nested = .ok nestedTimeline ∧
      ∃ n m, nestedTimeline.find ⟨"b"⟩ = some n ∧
        silent.Reaches nestedTimeline
          ⟨.running [.visit none nestedTimeline.nodes], ⟨jumping.reload, .empty, [], (), ()⟩, [], 0⟩ m ∧
        m.session.trace = [.loopRun ⟨"k"⟩ 1, .loopRun ⟨"l"⟩ 1, .skipped ⟨"a"⟩ .skippedForJump] := by
  have hc : compile .default nested = .ok nestedTimeline := by cbv
  have hx : nestedTimeline.knownIds.contains ⟨"b"⟩ = true := by
    rw [knownIds_iff hc, nestedTimeline_nodes]
    exact ⟨by cbv, (findIn_isSome _ _).mp (by decide)⟩
  have hl : (nestedTimeline.enclosing ⟨"b"⟩).all (fun l => 0 < l.repetitions) = true := by
    rw [Timeline.enclosing, nestedTimeline_nodes]
    decide
  have happroach : (approachIn ⟨"b"⟩ nestedTimeline.nodes).reverse =
      [.loopRun ⟨"k"⟩ 1, .loopRun ⟨"l"⟩ 1, .skipped ⟨"a"⟩ .skippedForJump] := by
    rw [nestedTimeline_nodes]
    decide
  obtain ⟨n, m, hn, hm, -, htrace, -⟩ := jump_lands hc hx
    (fun l hm => of_decide_eq_true (List.all_eq_true.mp hl l hm)) silent (by decide) (c := jumping) rfl
    (s := ⟨jumping.reload, .empty, [], (), ()⟩) rfl [] 0
  rw [happroach] at htrace
  exact ⟨hc, n, m, hn, hm, htrace⟩

end Environment

end BranchingTimeline
