import BranchingTimeline.Proofs.Session.History

namespace BranchingTimeline

variable {σ ρ : Type}

theorem splitOnP_reverse {α : Type} (p : α → Bool) (l : List α) :
    l.reverse.splitOnP p = ((l.splitOnP p).map List.reverse).reverse := by
  induction hn : l.length using Nat.strong_induction_on generalizing l with
  | _ n ih =>
      by_cases hp : ∃ a ∈ l, p a = true
      · obtain ⟨a, ha, hpa⟩ := hp
        obtain ⟨pre, post, rfl⟩ := List.append_of_mem ha
        rw [List.length_append, List.length_cons] at hn
        have hpre := ih pre.length (by omega) pre rfl
        have hpost := ih post.length (by omega) post rfl
        rw [List.splitOnP_append_cons _ _ hpa, List.reverse_append, List.reverse_cons, List.append_assoc,
          List.singleton_append, List.splitOnP_append_cons _ _ hpa, hpre, hpost, List.map_append,
          List.reverse_append]
      · have hl : ∀ a ∈ l, p a = false := by simpa using hp
        have hr : ∀ a ∈ l.reverse, p a = false := by simpa using hp
        rw [List.splitOnP_eq_singleton hl, List.splitOnP_eq_singleton hr]
        rfl

namespace Event

def trialsBySession (events : List Event) : List (List Event) :=
  (events.splitOnP isRestarted).map (·.filter isTrial)

theorem trialsBySession_ne_nil (events : List Event) : trialsBySession events ≠ [] := by
  simp [trialsBySession, List.splitOnP_ne_nil]

theorem trialsBySession_restarted {e : Event} (he : e.isRestarted = true) (events : List Event) :
    trialsBySession (e :: events) = [] :: trialsBySession events := by
  simp [trialsBySession, List.splitOnP_cons_eq_if_modifyHead, he]

theorem trialsBySession_cons {e : Event} (he : e.isRestarted = false) (events : List Event) :
    trialsBySession (e :: events) = (trialsBySession events).modifyHead ([e].filter isTrial ++ ·) := by
  rw [trialsBySession, trialsBySession, List.splitOnP_cons_eq_if_modifyHead, he]
  cases events.splitOnP isRestarted with
  | nil => rfl
  | cons first rest =>
      cases ht : e.isTrial <;> simp [ht]

theorem trialsBySession_flatten (events : List Event) :
    (trialsBySession events).flatten = events.filter isTrial := by
  induction events with
  | nil => rfl
  | cons e events ih =>
      cases he : e.isRestarted with
      | true =>
          have ht : e.isTrial = false := by
            cases e with
            | restarted => rfl
            | skipped | trial | loopRun | finished | jumpDropped => cases he
          rw [trialsBySession_restarted he, List.flatten_cons, List.nil_append, ih,
            List.filter_cons_of_neg (by simp [ht])]
      | false =>
          obtain ⟨first, rest, hl⟩ := List.exists_cons_of_ne_nil (trialsBySession_ne_nil events)
          rw [hl, List.flatten_cons] at ih
          rw [trialsBySession_cons he, hl, List.modifyHead_cons, List.flatten_cons, List.append_assoc, ih,
            ← List.filter_append, List.singleton_append]

theorem trialsBySession_reverse (events : List Event) :
    trialsBySession events.reverse = ((trialsBySession events).map List.reverse).reverse := by
  simp [trialsBySession, splitOnP_reverse, Function.comp_def, List.filter_reverse]

end Event

namespace DataLog

/-- A record that differs from a response in the members that tell the trial, and the loop around it
if there is one. -/
structure Labels (id : ItemId) (around : Option ItemId) (response r : Record) : Prop where
  trial : r.get? trialColumn = some (Value.str id.text)
  loop : ∀ l, around = some l → r.get? loopColumn = some (Value.str l.text)
  others : ∀ key, key ≠ trialColumn → (key = loopColumn → around = none) →
    r.get? key = response.get? key

theorem labels_label (id : ItemId) (around : Option ItemId) (response : Record) :
    Labels id around response (label id around response) := by
  have hne : trialColumn ≠ loopColumn := by decide
  cases around with
  | none =>
      refine ⟨?_, ?_, ?_⟩
      · simp [label, SortedMap.get?_insert]
      · intro l hl
        cases hl
      · intro key ht _
        simp [label, SortedMap.get?_insert, Key.text, ht]
  | some l =>
      refine ⟨?_, ?_, ?_⟩
      · simp [label, SortedMap.get?_insert, Key.text, hne]
      · intro l hl
        obtain rfl := Option.some.inj hl
        simp [label, SortedMap.get?_insert]
      · intro key ht hl
        have hl : key ≠ loopColumn := by
          intro he
          cases hl he
        simp [label, SortedMap.get?_insert, Key.text, ht, hl]

theorem isOf_label {x id : ItemId} {around : Option ItemId} {response : Record} :
    isOf x (label id around response) = true ↔ id = x := by
  rw [isOf, (labels_label id around response).trial, decide_eq_true_iff]
  constructor
  · intro he
    exact Key.text_inj (Json.str.inj (congrArg Value.json (Option.some.inj he)))
  · rintro rfl
    rfl

def namedLoop (r : Record) : Option ItemId :=
  match (r.get? loopColumn).map Value.json with
  | some (.str l) => some ⟨l⟩
  | _ => none

theorem isWithin_iff {loops : IdSet} {r : Record} :
    isWithin loops r = true ↔ ∃ l, namedLoop r = some l ∧ SortedMap.contains loops l = true := by
  unfold isWithin namedLoop
  cases (r.get? loopColumn).map Value.json with
  | none => simp
  | some v => cases v <;> simp

theorem namedLoop_label (id : ItemId) (around : Option ItemId) (response : Record) :
    namedLoop (label id around response) = around.or (namedLoop response) := by
  have hlabels := labels_label id around response
  cases around with
  | none => rw [namedLoop, hlabels.others _ (by decide) fun _ => rfl, Option.none_or, namedLoop]
  | some l => simp [namedLoop, hlabels.loop l rfl, Value.str]

end DataLog

namespace Responses

/-- The response to a presentation of a trial, after a number of others. -/
def nth (s : Responses) (x : ItemId) (earlier : Nat) : Record :=
  let script := (s.get? x).getD []
  (script[min earlier (script.length - 1)]?).getD .empty

variable (t : TrialPlan) (parameters : Record) (stimulus : Option Record) (s : Responses)

theorem respond_fst : (respond t parameters stimulus s).1 = s.nth t.id 0 := by
  unfold respond nth
  split <;> simp [*]

theorem respond_snd (x : ItemId) (k : Nat) :
    (respond t parameters stimulus s).2.nth x k = s.nth x (k + if t.id = x then 1 else 0) := by
  by_cases hx : t.id = x
  · subst hx
    unfold respond nth
    split
    · rename_i r next rest hs
      simp [hs, SortedMap.get?_insert, Nat.add_min_add_right]
    · simp [*]
    · simp [*]
    · simp [*]
  · have hk : Key.text x ≠ Key.text t.id := fun h => hx (Key.text_inj h).symm
    unfold respond nth
    split <;> simp [SortedMap.get?_insert, hx, hk]

end Responses

namespace Environment

open Node

variable (env : Environment σ ρ)

def respondAll : σ → List Answer → List Record
  | _, [] => []
  | x, a :: r => (env.respond a.plan a.parameters a.stimulus x).1 :: respondAll (env.responded x a) r

theorem respondAll_append (x : σ) (l r : List Answer) :
    env.respondAll x (l ++ r) = env.respondAll x l ++ env.respondAll (l.foldl env.responded x) r := by
  induction l generalizing x with
  | nil => rfl
  | cons a l ih => exact congrArg (_ :: ·) (ih _)

theorem length_respondAll (x : σ) (l : List Answer) : (env.respondAll x l).length = l.length := by
  induction l generalizing x with
  | nil => rfl
  | cons a l ih => exact congrArg (· + 1) (ih _)

theorem respondAll_at {x : σ} {l pre post : List Answer} {a : Answer}
    (h : env.respondAll x l = l.map Answer.response) (hl : l = pre ++ a :: post) :
    a.response = (env.respond a.plan a.parameters a.stimulus (pre.foldl env.responded x)).1 := by
  subst hl
  rw [respondAll_append, List.map_append] at h
  obtain ⟨-, hr⟩ := List.append_inj' h (by simp [length_respondAll])
  exact (List.cons.inj hr).1.symm

theorem nth_foldl {env : Environment Responses ρ} (he : env.respond = Responses.respond)
    (l : List Answer) (s : Responses) (x : ItemId) (k : Nat) :
    (l.foldl env.responded s).nth x k = s.nth x (k + l.countP fun a => a.plan.id = x) := by
  induction l generalizing s with
  | nil => rfl
  | cons a l ih =>
      rw [List.foldl_cons, ih, responded, he, Responses.respond_snd, List.countP_cons]
      congr 1
      simp only [decide_eq_true_eq]
      omega

variable {env} {t : Timeline} {responses : σ} {arranger : ρ} {past : List (List Answer)}
  {now : List Answer} {m : Moment σ ρ}

theorem trialsBySession_perform (task : Task) (s : Session σ ρ) {answers : List (List Answer)}
    (h : Event.trialsBySession s.trace = (now :: answers).map (·.map Answer.event)) :
    Event.trialsBySession (env.perform task s).2.2.trace =
      (((env.answerOf task s).toList ++ now) :: answers).map (·.map Answer.event) := by
  obtain ⟨htrial, hsession⟩ := eventOf_answer env task s
  rw [perform_trace, List.map_cons, List.map_append, ← htrial]
  cases he : eventOf task s with
  | none => simpa [he] using h
  | some e =>
      rw [Option.toList_some, List.singleton_append, Event.trialsBySession_cons (hsession e he), h]
      rfl

theorem History.trials (h : env.History t responses arranger past now m) :
    Event.trialsBySession m.session.trace = (now :: past).map (·.map Answer.event) := by
  refine History.induction (P := fun past now s _ =>
    Event.trialsBySession s.trace = (now :: past).map (·.map Answer.event)) rfl ?_ ?_ ?_ h
  · intro past now s _ task ih
    exact trialsBySession_perform task s ih
  · intro past now s _ x ih
    exact (Event.trialsBySession_restarted rfl s.trace).trans (congrArg ([] :: ·) ih)
  · intro past now s _ x ih
    exact (Event.trialsBySession_cons rfl s.trace).trans ((congrArg _ ih).trans rfl)

theorem History.answered (h : env.History t responses arranger past now m) :
    m.session.responses = (now :: past).flatten.reverse.foldl env.responded responses ∧
      env.respondAll responses (now :: past).flatten.reverse =
        (now :: past).flatten.reverse.map Answer.response := by
  refine History.induction (P := fun past now s _ =>
    s.responses = (now :: past).flatten.reverse.foldl env.responded responses ∧
      env.respondAll responses (now :: past).flatten.reverse =
        (now :: past).flatten.reverse.map Answer.response) ⟨rfl, rfl⟩ ?_ ?_ ?_ h
  · rintro past now s _ task ⟨hs, hr⟩
    rw [(perform_answer env task s).2]
    cases ha : env.answerOf task s with
    | none => exact ⟨hs, hr⟩
    | some a =>
        have hlist : (((some a).toList ++ now) :: past).flatten.reverse =
            (now :: past).flatten.reverse ++ [a] := by simp
        rw [hlist, List.foldl_append, ← hs, respondAll_append, hr, ← hs, List.map_append]
        exact ⟨rfl, congrArg (_ ++ [·]) (answerOf_response ha).symm⟩
  · exact fun _ _ _ _ _ h => h
  · exact fun _ _ _ _ _ h => h

/-- What a run leaves behind of the trials that it presented, session by session and in the order
in which they were presented: events, records and responses belong together. -/
structure Recorded (env : Environment σ ρ) (t : Timeline) (responses : σ) (o : Outcome)
    (answered : List (List Answer)) : Prop where
  trials : o.trace.filter Event.isTrial = answered.flatten.map Answer.event
  records : (o.archived ++ [o.data]).flatMap DataLog.toList = answered.flatten.map Answer.record
  sessions : Event.trialsBySession o.trace = answered.map (·.map Answer.event)
  logs : (o.archived ++ [o.data]).map DataLog.toList = answered.map (·.map Answer.record)
  responses : env.respondAll responses answered.flatten = answered.flatten.map Answer.response
  labels : ∀ a ∈ answered.flatten, DataLog.Labels a.plan.id a.plan.loop a.response a.record
  nodes : ∀ a ∈ answered.flatten, a.node ∈ flattenIn t.nodes

theorem History.recorded {e : Option Error} {u : Session σ ρ} {logs : List DataLog} {left : Nat}
    (h : env.History t responses arranger past now ⟨.ended e, u, logs, left⟩) :
    env.Recorded t responses (.ofSession logs.length logs u) ((now :: past).map List.reverse).reverse := by
  have hflat : ((now :: past).map List.reverse).reverse.flatten = (now :: past).flatten.reverse :=
    List.reverse_flatten.symm
  have hsessions : Event.trialsBySession u.trace.reverse =
      ((now :: past).map List.reverse).reverse.map (·.map Answer.event) := by
    rw [Event.trialsBySession_reverse, h.trials]
    simp [Function.comp_def]
  have hlogs : (logs.reverse ++ [u.log]).map DataLog.toList =
      ((now :: past).map List.reverse).reverse.map (·.map Answer.record) := by
    obtain ⟨hlog, harchived⟩ := h.log
    calc
      (logs.reverse ++ [u.log]).map DataLog.toList =
          (((u.log :: logs).map DataLog.latestFirst).map List.reverse).reverse := by
        simp [DataLog.toList, Function.comp_def]
      _ = ((now :: past).map List.reverse).reverse.map (·.map Answer.record) := by
        rw [List.map_cons, hlog, harchived]
        simp [Function.comp_def]
  refine ⟨?_, ?_, hsessions, hlogs, ?_, fun a _ => DataLog.labels_label _ _ _, ?_⟩
  · rw [← Event.trialsBySession_flatten, List.map_flatten]
    exact congrArg List.flatten hsessions
  · rw [List.flatMap_def]
    exact (congrArg List.flatten hlogs).trans List.map_flatten.symm
  · rw [hflat]
    exact h.answered.2
  · intro a ha
    rw [hflat, List.mem_reverse, List.flatten_cons, List.mem_append, List.mem_flatten] at ha
    exact h.node_mem ha

variable (t arranger)

theorem recorded_of_run {o : Outcome} (h : env.run t responses arranger = .ok o) :
    ∃ answered, env.Recorded t responses o answered := by
  obtain ⟨u, logs, left, hend, ho⟩ := env.opening_reaches_end t responses arranger
  rw [env.run_eq_ok.mp h] at hend ho
  obtain ⟨past, now, hh⟩ := exists_history hend
  exact ⟨_, ho ▸ hh.recorded⟩

/-- A run that ends well leaves one record for each presentation of a trial, in order and each in the
log of its session: the response that was given there, labelled with the trial and the loop around
it. A scripted response is the next one of the trial's script, or the last one at its end, however
the presentations of other trials stand among its own. -/
theorem run_recorded (t : Timeline) (arranger : ρ) :
    (∀ (env : Environment σ ρ) (responses : σ) (o : Outcome), env.run t responses arranger = .ok o →
      ∃ answered, env.Recorded t responses o answered) ∧
    ∀ (env : Environment Responses ρ) (scripts : Responses) (o : Outcome),
      env.respond = Responses.respond → env.run t scripts arranger = .ok o →
        ∃ answered, env.Recorded t scripts o answered ∧
          ∀ pre a post, answered.flatten = pre ++ a :: post →
            a.response = scripts.nth a.plan.id (pre.countP fun b => b.plan.id = a.plan.id) := by
  refine ⟨fun env responses o h => recorded_of_run t arranger h, ?_⟩
  intro env scripts o he h
  obtain ⟨answered, hr⟩ := recorded_of_run t arranger h
  refine ⟨answered, hr, ?_⟩
  intro pre a post hl
  rw [env.respondAll_at hr.responses hl, he, Responses.respond_fst, nth_foldl he, Nat.zero_add]

def retrying : Trial :=
  { Trial.plain ⟨"a"⟩ with
    repeatConditions :=
      [⟨0, [{ Rule.blank with trial := some ⟨"a"⟩, column := "sure", value := "no" }], ⟨some ⟨"a"⟩⟩⟩] }

def retryTimeline : Timeline :=
  (compile .default [.trial retrying, .trial (.plain ⟨"b"⟩)]).toOption.getD ⟨[], .empty, []⟩

def retryScripts : Responses :=
  .ofList [(⟨"a"⟩, [.ofList [("sure", .str "no")], .ofList [("sure", .str "yes")]])]

def scripted : Environment Responses Unit := ⟨.default, Responses.respond, RowOrder.keep⟩

def retried : Outcome :=
  (scripted.run retryTimeline retryScripts ()).toOption.getD (.ofSession 0 [] (start retryScripts ()))

theorem run_recorded_retry :
    scripted.run retryTimeline retryScripts () = .ok retried ∧
      ∃ answered, scripted.Recorded retryTimeline retryScripts retried answered ∧
        answered.map List.length = [1, 2] ∧
        ∀ pre a post, answered.flatten = pre ++ a :: post →
          a.response = retryScripts.nth a.plan.id (pre.countP fun b => b.plan.id = a.plan.id) := by
  have hrun : scripted.run retryTimeline retryScripts () = .ok retried := by rfl
  obtain ⟨answered, hr, hscript⟩ :=
    (@run_recorded Responses Unit retryTimeline ()).2 scripted retryScripts retried rfl hrun
  refine ⟨hrun, answered, hr, ?_, hscript⟩
  have hlengths : (Event.trialsBySession retried.trace).map List.length = [1, 2] := by rfl
  rw [hr.sessions, List.map_map] at hlengths
  simpa [Function.comp_def] using hlengths

end Environment

end BranchingTimeline
