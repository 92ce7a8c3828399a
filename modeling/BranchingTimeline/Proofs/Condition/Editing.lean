import BranchingTimeline.Condition.Edit
import BranchingTimeline.Proofs.Condition.FreshId
import BranchingTimeline.Proofs.Json.Layout

namespace BranchingTimeline

theorem modify_middle {α : Type} (f : α → α) (a : α) (before after : List α) :
    (before ++ a :: after).modify before.length f = before ++ f a :: after :=
  List.modifyTailIdx_add (List.modifyHead f) 0 before (a :: after)

theorem eraseIdx_middle {α : Type} (a : α) (before after : List α) :
    (before ++ a :: after).eraseIdx before.length = before ++ after := by
  rw [List.eraseIdx_append_of_length_le (Nat.le_refl _), Nat.sub_self, List.eraseIdx_zero, List.tail_cons]

theorem exists_middle {α : Type} {l : List α} {i : Nat} {a : α} (h : l[i]? = some a) :
    ∃ before after, l = before ++ a :: after ∧ before.length = i := by
  obtain ⟨hi, rfl⟩ := List.getElem?_eq_some_iff.mp h
  refine ⟨l.take i, l.drop (i + 1), ?_, ?_⟩
  · rw [← List.drop_eq_getElem_cons hi, List.take_append_drop]
  · rw [List.length_take, Nat.min_eq_left (Nat.le_of_lt hi)]

structure SortedMap.Around {κ α : Type} [Key κ] (m : SortedMap κ α) (k : κ) (before : List (κ × α))
    (value? : Option α) (after : List (κ × α)) : Prop where
  entries : m.entries = before ++ (value?.map (k, ·)).toList ++ after
  others : ∀ e ∈ before ++ after, e.1 ≠ k

namespace SortedMap

variable {κ α : Type} [Key κ]

theorem entries_around (k : κ) {l : List (κ × α)}
    (h : l.Pairwise fun a b => Key.text a.1 < Key.text b.1) :
    ∃ before after, l = before ++ ((lookup k l).map (k, ·)).toList ++ after ∧
      (∀ v, insertEntry k v l = before ++ (k, v) :: after) ∧
      (l.filter fun e => Key.text e.1 ≠ Key.text k) = before ++ after := by
  induction l with
  | nil => exact ⟨[], [], rfl, fun _ => rfl, rfl⟩
  | cons a l ih =>
      obtain ⟨hfirst, hrest⟩ := List.pairwise_cons.mp h
      rcases Std.lt_trichotomy (Key.text k) (Key.text a.1) with hlt | heq | hgt
      · have hall : ∀ e ∈ a :: l, Key.text k < Key.text e.1 := by
          intro e he
          rcases List.mem_cons.mp he with rfl | he
          · exact hlt
          · exact String.lt_trans hlt (hfirst e he)
        refine ⟨[], a :: l, ?_, ?_, ?_⟩
        · rw [lookup_eq_none]
          · rfl
          · intro hk
            obtain ⟨e, he, rfl⟩ := List.mem_map.mp hk
            exact String.lt_irrefl _ (hall e he)
        · intro v
          rw [insertEntry, if_pos hlt]
          rfl
        · rw [List.nil_append, List.filter_eq_self]
          intro e he
          exact decide_eq_true (String.ne_of_lt (hall e he)).symm
      · obtain rfl := Key.text_inj heq
        refine ⟨[], l, ?_, ?_, ?_⟩
        · rw [lookup, if_pos rfl]
          rfl
        · intro v
          rw [insertEntry, if_neg (String.lt_irrefl _), if_pos rfl]
          rfl
        · rw [List.nil_append, List.filter_cons_of_neg (by simp), List.filter_eq_self]
          intro e he
          exact decide_eq_true (String.ne_of_lt (hfirst e he)).symm
      · obtain ⟨before, after, hl, hinsert, hfilter⟩ := ih hrest
        have hne : Key.text k ≠ Key.text a.1 := (String.ne_of_lt hgt).symm
        refine ⟨a :: before, after, ?_, ?_, ?_⟩
        · rw [lookup, if_neg hne]
          exact congrArg (a :: ·) hl
        · intro v
          rw [insertEntry, if_neg (String.lt_asymm hgt), if_neg hne, hinsert]
          rfl
        · rw [List.filter_cons_of_pos (by simpa using hne.symm), hfilter]
          rfl

theorem exists_around (m : SortedMap κ α) (k : κ) :
    ∃ before after, m.Around k before (m.get? k) after ∧
      (∀ v, (m.insert k v).Around k before (some v) after) ∧ (m.erase k).Around k before none after := by
  obtain ⟨before, after, hl, hinsert, hfilter⟩ := entries_around k m.ascending
  have hothers : ∀ e ∈ before ++ after, e.1 ≠ k := by
    intro e he heq
    rw [← hfilter, List.mem_filter] at he
    exact of_decide_eq_true he.2 (congrArg Key.text heq)
  refine ⟨before, after, ⟨hl, hothers⟩, ?_, ⟨?_, hothers⟩⟩
  · intro v
    exact ⟨by simpa [insert] using hinsert v, hothers⟩
  · simpa [erase] using hfilter

end SortedMap

def settle {σ α : Type} (s : σ) : Except Error (α × σ) → Except Error α × σ
  | .ok (a, t) => (.ok a, t)
  | .error err => (.error err, s)

theorem inside_settle {σ τ α : Type} (whole : σ → τ) (s : σ) (x : Except Error (α × σ)) :
    inside whole (settle s x) = settle (whole s) (x.map fun r => (r.1, whole r.2)) := by
  cases x <;> rfl

namespace Condition

variable {ε δ α β : Type} {id : Int64}

def map (g : ε → δ) (c : Condition ε) : Condition δ := ⟨c.id, c.rules, g c.effect⟩

def alterFirst (id : Int64) (f : Condition ε → Except Error (α × Option (Condition ε))) :
    List (Condition ε) → Except Error (α × List (Condition ε))
  | [] => .error (.unknownCondition id)
  | c :: r =>
    if c.id = id then (f c).map fun (a, d?) => (a, d?.toList ++ r)
    else (alterFirst id f r).map fun (a, ds) => (a, c :: ds)

theorem alterFirst_absent {f : Condition ε → Except Error (α × Option (Condition ε))}
    {cs : List (Condition ε)} (h : ∀ c ∈ cs, c.id ≠ id) :
    alterFirst id f cs = .error (.unknownCondition id) := by
  induction cs with
  | nil => rfl
  | cons c r ih =>
      rw [alterFirst, if_neg (h c (by simp)), ih fun d hd => h d (by simp [hd])]
      rfl

theorem alterFirst_split {f : Condition ε → Except Error (α × Option (Condition ε))}
    {before after : List (Condition ε)} {c : Condition ε} (hc : c.id = id)
    (h : ∀ b ∈ before, b.id ≠ id) :
    alterFirst id f (before ++ c :: after) =
      (f c).map fun (a, d?) => (a, before ++ (d?.toList ++ after)) := by
  induction before with
  | nil =>
      rw [List.nil_append, alterFirst, if_pos hc]
      rfl
  | cons b r ih =>
      rw [List.cons_append, alterFirst, if_neg (h b (by simp)), ih fun d hd => h d (by simp [hd])]
      cases f c <;> rfl

theorem inFirst_map {f : InPlace (Condition ε) α} {t : α → β} {g : ε → δ}
    {h : Condition δ → Except Error (β × Option (Condition δ))}
    (hf : ∀ c, ((f c).1.map t, some ((f c).2.map g)) = settle (some (c.map g)) (h (c.map g)))
    (cs : List (Condition ε)) :
    ((inFirst id f cs).1.map t, (inFirst id f cs).2.map (map g)) =
      settle (cs.map (map g)) (alterFirst id h (cs.map (map g))) := by
  induction cs with
  | nil => rfl
  | cons c r ih =>
      rw [List.map_cons, alterFirst, inFirst]
      by_cases hc : c.id = id
      · have hput := congrArg (inside fun d? => d?.toList ++ r.map (map g)) (hf c)
        rw [if_pos hc, if_pos (show (c.map g).id = id from hc)]
        rw [inside_settle] at hput
        exact hput
      · have hput := congrArg (inside (c.map g :: ·)) ih
        rw [if_neg hc, if_neg (show (c.map g).id ≠ id from hc)]
        rw [inside_settle] at hput
        exact hput

theorem removeFirst_map (b : β) (g : ε → δ) (cs : List (Condition ε)) :
    ((removeFirst id cs).1.map fun _ => b, (removeFirst id cs).2.map (map g)) =
      settle (cs.map (map g)) (alterFirst id (fun _ => .ok (b, none)) (cs.map (map g))) := by
  induction cs with
  | nil => rfl
  | cons c r ih =>
      rw [List.map_cons, alterFirst, removeFirst]
      by_cases hc : c.id = id
      · rw [if_pos hc, if_pos (show (c.map g).id = id from hc)]
        rfl
      · have hput := congrArg (inside (c.map g :: ·)) ih
        rw [if_neg hc, if_neg (show (c.map g).id ≠ id from hc)]
        rw [inside_settle] at hput
        exact hput

theorem maxId_map (g : ε → δ) (cs : List (Condition ε)) : maxId (cs.map (map g)) = maxId cs := by
  induction cs with
  | nil => rfl
  | cons c r ih =>
      cases r with
      | nil => rfl
      | cons d r =>
          exact congrArg (max c.id) ih

theorem freshId_map (id : Int64) (g : ε → δ) (cs : List (Condition ε)) :
    freshId id (cs.map (map g)) = freshId id cs := by
  rw [freshId, freshId, maxId_map, List.any_map]
  rfl

end Condition

namespace ConditionList

inductive Kind where
  | looping
  | branching
  | repeating
  | overriding
deriving DecidableEq

def kind : ConditionList → Kind
  | looping _ => .looping
  | branching _ => .branching
  | repeating _ => .repeating
  | overriding _ => .overriding

def conditions : ConditionList → List BranchCondition
  | looping cs => cs.map (.map fun _ => ⟨none, none⟩)
  | branching cs => cs.map (.map id)
  | repeating cs => cs.map (.map fun j => ⟨j.target, none⟩)
  | overriding cs => cs.map (.map fun r => ⟨none, some r.parameters⟩)

def ids (l : ConditionList) : List Int64 := l.conditions.map Condition.id

def Kind.blank : Kind → BranchTo
  | overriding => ⟨none, some .empty⟩
  | looping | branching | repeating => ⟨none, none⟩

def view (l : ConditionList) : Kind × List BranchCondition := (l.kind, l.conditions)

theorem map_injective {ε δ : Type} {g : ε → δ} (hg : g.Injective) :
    (List.map (Condition.map g)).Injective := by
  apply List.map_injective_iff.mpr
  rintro ⟨id, rules, e⟩ ⟨id', rules', e'⟩ h
  simp only [Condition.map, Condition.mk.injEq] at h
  obtain ⟨rfl, rfl, he⟩ := h
  rw [hg he]

theorem view_injective : view.Injective := by
  intro l m h
  obtain ⟨hk, hc⟩ := Prod.mk.inj h
  cases l <;> cases m <;> cases hk
  · exact congrArg looping (map_injective (fun _ _ _ => rfl) hc)
  · exact congrArg branching (map_injective Function.injective_id hc)
  · refine congrArg repeating (map_injective ?_ hc)
    rintro ⟨j⟩ ⟨k⟩ he
    cases he
    rfl
  · refine congrArg overriding (map_injective ?_ hc)
    rintro ⟨r⟩ ⟨s⟩ he
    cases he
    rfl

namespace Edit

def condition? : Edit → Option Int64
  | add _ => none
  | remove id | addRule id | removeRule id _ | updateRule id _ _ | setTarget id _
  | setParameter id _ _ | removeOverride id _ => some id

def rule? : Edit → Option UInt64
  | removeRule _ index | updateRule _ index _ => some index
  | add _ | remove _ | addRule _ | setTarget .. | setParameter .. | removeOverride .. => none

def refusal? : Kind → Edit → Option Error
  | .looping, setTarget .. | .overriding, setTarget .. => some .noTargets
  | .looping, setParameter .. | .repeating, setParameter .. => some .noParameters
  | .looping, removeOverride .. | .branching, removeOverride .. | .repeating, removeOverride .. =>
    some .noParameters
  | _, _ => none

/-- What a request makes of the condition that it addresses, and what it tells. -/
def alter : Edit → BranchCondition → Except Error (Told × Option BranchCondition)
  | add _, c => .ok (.nothing, some c)
  | remove _, _ => .ok (.nothing, none)
  | addRule _, c => .ok (.index c.rules.length, some { c with rules := c.rules ++ [Rule.blank] })
  | removeRule id index, c =>
    if index.toNat < c.rules.length then
      .ok (.nothing, some { c with rules := c.rules.eraseIdx index.toNat })
    else .error (.noSuchRule id index)
  | updateRule id index edit, c =>
    if index.toNat < c.rules.length then
      .ok (.nothing, some { c with rules := c.rules.modify index.toNat edit.apply })
    else .error (.noSuchRule id index)
  | setTarget _ target, c =>
    .ok (.nothing, some { c with effect := { c.effect with target := ItemId.named? target } })
  | setParameter _ key value, c =>
    .ok (.nothing, some { c with effect := { c.effect with
      parameters := some ((c.effect.parameters.getD .empty).insert key value) } })
  | removeOverride _ key, c =>
    .ok (.removed ((c.effect.parameters.getD .empty).get? key), some { c with effect := { c.effect with
      parameters := some ((c.effect.parameters.getD .empty).erase key) } })

end Edit

section Step

variable {l m : ConditionList} {e : Edit} {told : Told} {err : Error} {id : Int64} {α : Type}

def seen (r : Except Error Told × ConditionList) : Except Error Told × Kind × List BranchCondition :=
  inside view r

theorem step_refused (h : e.refusal? l.kind = some err) : l.step e = (.error err, l) := by
  cases e <;> cases l <;> cases h <;> rfl

theorem step_add (id : Int64) (l : ConditionList) :
    seen (l.step (.add id)) =
      settle l.view ((Condition.freshId id l.conditions).map fun new =>
        (.id new, l.kind, l.conditions ++ [⟨new, [Rule.blank], l.kind.blank⟩])) := by
  cases l with
  | looping cs | branching cs | repeating cs | overriding cs =>
      rw [conditions, Condition.freshId_map, step, add, Condition.add]
      cases Condition.freshId id cs with
      | error err => rfl
      | ok new => exact Prod.ext rfl (Prod.ext rfl List.map_append)

theorem seen_edit {f : {ε : Type} → InPlace (List (Condition ε)) α} {t : α → Told}
    {h : List BranchCondition → Except Error (Told × List BranchCondition)}
    (hf : ∀ {ε : Type} (g : ε → BranchTo) (cs : List (Condition ε)),
      ((f cs).1.map t, (f cs).2.map (.map g)) = settle (cs.map (.map g)) (h (cs.map (.map g))))
    (l : ConditionList) :
    seen (telling t (edit f l)) =
      settle l.view ((h l.conditions).map fun r => (r.1, l.kind, r.2)) := by
  cases l with
  | looping cs | branching cs | repeating cs | overriding cs =>
      rw [view, ← inside_settle, conditions, ← hf]
      rfl

theorem seen_inFirst {ε : Type} {f : InPlace (Condition ε) α} {t : α → Told} {g : ε → BranchTo}
    {k : Kind} {h : BranchCondition → Except Error (Told × Option BranchCondition)}
    {wrap : List (Condition ε) → ConditionList} (hw : ∀ cs, (wrap cs).view = (k, cs.map (.map g)))
    (hf : ∀ c, ((f c).1.map t, some ((f c).2.map g)) = settle (some (c.map g)) (h (c.map g)))
    (cs : List (Condition ε)) :
    seen (telling t (inside wrap (Condition.inFirst id f cs))) =
      settle (k, cs.map (.map g))
        ((Condition.alterFirst id h (cs.map (.map g))).map fun r => (r.1, k, r.2)) := by
  rw [← inside_settle (k, ·), ← Condition.inFirst_map hf]
  exact congrArg ((Condition.inFirst id f cs).1.map t, ·) (hw _)

/-- Every request for a condition that is not refused is one alteration of the first condition with
its id. -/
theorem step_alters (hk : e.refusal? l.kind = none) (he : e.condition? = some id) :
    seen (l.step e) =
      settle l.view ((Condition.alterFirst id e.alter l.conditions).map fun r => (r.1, l.kind, r.2)) := by
  cases e with
  | add => cases he
  | remove =>
      cases he
      exact seen_edit (Condition.removeFirst_map Told.nothing) l
  | addRule =>
      cases he
      exact seen_edit (fun g cs => Condition.inFirst_map (fun _ => rfl) cs) l
  | removeRule id index | updateRule id index edit =>
      cases he
      refine seen_edit (fun g cs => Condition.inFirst_map ?_ cs) l
      intro c
      change _ = settle _ (if index.toNat < c.rules.length then _ else _)
      split <;> rfl
  | setTarget id target =>
      cases he
      cases l with
      | looping | overriding => cases hk
      | branching cs | repeating cs => exact seen_inFirst (fun _ => rfl) (fun _ => rfl) cs
  | setParameter =>
      cases he
      cases l with
      | looping | repeating => cases hk
      | branching cs | overriding cs => exact seen_inFirst (fun _ => rfl) (fun _ => rfl) cs
  | removeOverride =>
      cases he
      cases l with
      | looping | repeating | branching => cases hk
      | overriding cs => exact seen_inFirst (fun _ => rfl) (fun _ => rfl) cs

end Step

/-- The first condition with an id, and the conditions around it. -/
structure Addressed (id : Int64) (cs before : List BranchCondition) (c : BranchCondition)
    (after : List BranchCondition) : Prop where
  split : cs = before ++ c :: after
  id_eq : c.id = id
  first : ∀ b ∈ before, b.id ≠ id

theorem Addressed.unique {id : Int64} {cs before before' after after' : List BranchCondition}
    {c c' : BranchCondition} (h : Addressed id cs before c after) (h' : Addressed id cs before' c' after') :
    before = before' ∧ c = c' ∧ after = after' := by
  obtain ⟨rfl, hc, hfirst⟩ := h
  obtain ⟨heq, hc', hfirst'⟩ := h'
  induction before generalizing before' with
  | nil =>
      cases before' with
      | nil =>
          cases heq
          exact ⟨rfl, rfl, rfl⟩
      | cons b r =>
          cases heq
          exact absurd hc (hfirst' c List.mem_cons_self)
  | cons b r ih =>
      cases before' with
      | nil =>
          cases heq
          exact absurd hc' (hfirst c' List.mem_cons_self)
      | cons b' r' =>
          obtain ⟨rfl, hr⟩ := List.cons.inj heq
          obtain ⟨rfl, hcc, ha⟩ := ih (fun d hd => hfirst d (List.mem_cons_of_mem _ hd)) hr
            fun d hd => hfirst' d (List.mem_cons_of_mem _ hd)
          exact ⟨rfl, hcc, ha⟩

theorem addressed_or_absent (id : Int64) (cs : List BranchCondition) :
    (∃ before c after, Addressed id cs before c after) ∨ ∀ c ∈ cs, c.id ≠ id := by
  induction cs with
  | nil => exact .inr fun c hc => nomatch hc
  | cons d r ih =>
      by_cases hd : d.id = id
      · exact .inl ⟨[], d, r, rfl, hd, fun b hb => nomatch hb⟩
      · rcases ih with ⟨before, c, after, rfl, hc, hfirst⟩ | habsent
        · exact .inl ⟨d :: before, c, after, rfl, hc, List.forall_mem_cons.mpr ⟨hd, hfirst⟩⟩
        · exact .inr (List.forall_mem_cons.mpr ⟨hd, habsent⟩)

namespace Edit

/-- What a successful request makes of the condition that it addresses, and what it tells. Of the
condition it changes the rule, the target or the parameter that it is about. -/
inductive Changes : Edit → BranchCondition → Told → Option BranchCondition → Prop
  | remove {id c} : Changes (remove id) c .nothing none
  | addRule {id c} :
      Changes (addRule id) c (.index c.rules.length) (some { c with rules := c.rules ++ [Rule.blank] })
  | removeRule {id index c before r after} (hr : c.rules = before ++ r :: after)
      (hi : before.length = index.toNat) :
      Changes (removeRule id index) c .nothing (some { c with rules := before ++ after })
  | updateRule {id index edit c before r after} (hr : c.rules = before ++ r :: after)
      (hi : before.length = index.toNat) :
      Changes (updateRule id index edit) c .nothing
        (some { c with rules := before ++ edit.apply r :: after })
  | setTarget {id target c} :
      Changes (setTarget id target) c .nothing
        (some { c with effect := { c.effect with target := ItemId.named? target } })
  | setParameter {id key value c} {old : Option Value} {p : Record} {before after}
      (ho : (c.effect.parameters.getD .empty).Around key before old after)
      (hp : p.Around key before (some value) after) :
      Changes (setParameter id key value) c .nothing
        (some { c with effect := { c.effect with parameters := some p } })
  | removeOverride {id key c} {old : Option Value} {p : Record} {before after}
      (ho : (c.effect.parameters.getD .empty).Around key before old after)
      (hp : p.Around key before none after) :
      Changes (removeOverride id key) c (.removed old)
        (some { c with effect := { c.effect with parameters := some p } })

/-- What a successful request makes of conditions of a kind, and what it tells. -/
inductive Does (k : Kind) (cs : List BranchCondition) : Edit → Told → List BranchCondition → Prop
  | add {id new} (h : Condition.freshId id cs = .ok new) :
      Does k cs (add id) (.id new) (cs ++ [⟨new, [Rule.blank], k.blank⟩])
  | change {e id before c after told d?} (he : e.condition? = some id)
      (hc : Addressed id cs before c after) (h : e.Changes c told d?) :
      Does k cs e told (before ++ (d?.toList ++ after))

theorem Does.addressed {k : Kind} {e : Edit} {id : Int64} {told : Told} {c : BranchCondition}
    {cs ds before after : List BranchCondition} (h : e.Does k cs told ds) (he : e.condition? = some id)
    (hc : Addressed id cs before c after) :
    ∃ d?, e.Changes c told d? ∧ ds = before ++ (d?.toList ++ after) := by
  cases h with
  | add => cases he
  | change he' hc' hchanges =>
      obtain rfl := Option.some.inj (he.symm.trans he')
      obtain ⟨rfl, rfl, rfl⟩ := hc.unique hc'
      exact ⟨_, hchanges, rfl⟩

/-- Why a request to conditions of a kind has no result: their kind does not have what it is about, or
no condition has its id, or the first one that has it does not have the rule. -/
inductive Refused (k : Kind) (cs : List BranchCondition) (e : Edit) : Error → Prop
  | kind {err} (h : e.refusal? k = some err) : Refused k cs e err
  | absent {id} (hk : e.refusal? k = none) (he : e.condition? = some id) (h : ∀ c ∈ cs, c.id ≠ id) :
      Refused k cs e (.unknownCondition id)
  | rule {id index before c after} (hk : e.refusal? k = none) (he : e.condition? = some id)
      (hi : e.rule? = some index) (hc : Addressed id cs before c after)
      (h : c.rules.length ≤ index.toNat) : Refused k cs e (.noSuchRule id index)

/-- Why a request has no result: it is refused, or there is no id for a new condition. -/
inductive Fails (k : Kind) (cs : List BranchCondition) (e : Edit) : Error → Prop
  | refused {err} (h : e.Refused k cs err) : Fails k cs e err
  | overflow {id} (he : e = .add id) (h : Condition.OutOfIds (cs.map Condition.id) id) :
      Fails k cs e .overflow

variable {e : Edit} {c : BranchCondition} {id : Int64} {k : Kind} {cs : List BranchCondition} {err : Error}

theorem alter_past_end {index : UInt64} (he : e.condition? = some id) (hi : e.rule? = some index)
    (h : c.rules.length ≤ index.toNat) : e.alter c = .error (.noSuchRule id index) := by
  cases e <;> cases he <;> cases hi <;> exact if_neg (Nat.not_lt.mpr h)

theorem eq_add (he : e.condition? = none) : ∃ id, e = .add id := by
  cases e <;> cases he
  exact ⟨_, rfl⟩

theorem exists_changes (he : e.condition? = some id)
    (h : ∀ index, e.rule? = some index → index.toNat < c.rules.length) :
    ∃ told d?, e.alter c = .ok (told, d?) ∧ e.Changes c told d? := by
  cases e with
  | add => cases he
  | remove => exact ⟨_, _, rfl, .remove⟩
  | addRule => exact ⟨_, _, rfl, .addRule⟩
  | removeRule _ index =>
      obtain ⟨r, hindex⟩ : ∃ r, c.rules[index.toNat]? = some r :=
        ⟨_, List.getElem?_eq_getElem (h index rfl)⟩
      obtain ⟨before, after, hr, hi⟩ := exists_middle hindex
      refine ⟨_, _, if_pos (h index rfl), ?_⟩
      rw [hr, ← hi, eraseIdx_middle]
      exact .removeRule hr hi
  | updateRule _ index edit =>
      obtain ⟨r, hindex⟩ : ∃ r, c.rules[index.toNat]? = some r :=
        ⟨_, List.getElem?_eq_getElem (h index rfl)⟩
      obtain ⟨before, after, hr, hi⟩ := exists_middle hindex
      refine ⟨_, _, if_pos (h index rfl), ?_⟩
      rw [hr, ← hi, modify_middle]
      exact .updateRule hr hi
  | setTarget => exact ⟨_, _, rfl, .setTarget⟩
  | setParameter _ key value =>
      obtain ⟨before, after, ho, hinsert, -⟩ := (c.effect.parameters.getD .empty).exists_around key
      exact ⟨_, _, rfl, .setParameter ho (hinsert value)⟩
  | removeOverride _ key =>
      obtain ⟨before, after, ho, -, herase⟩ := (c.effect.parameters.getD .empty).exists_around key
      exact ⟨_, _, rfl, .removeOverride ho herase⟩

end Edit

variable {l m : ConditionList} {e : Edit} {told : Told} {err : Error} {id : Int64}

theorem step_absent (hk : e.refusal? l.kind = none) (he : e.condition? = some id)
    (h : ∀ c ∈ l.conditions, c.id ≠ id) : seen (l.step e) = (.error (.unknownCondition id), l.view) := by
  rw [step_alters hk he, Condition.alterFirst_absent h]
  rfl

theorem step_addressed {before after : List BranchCondition} {c : BranchCondition}
    (hk : e.refusal? l.kind = none) (he : e.condition? = some id)
    (hc : Addressed id l.conditions before c after) :
    seen (l.step e) =
      settle l.view ((e.alter c).map fun r => (r.1, l.kind, before ++ (r.2.toList ++ after))) := by
  rw [step_alters hk he, hc.split, Condition.alterFirst_split hc.id_eq hc.first]
  cases e.alter c <;> rfl

theorem eq_of_seen {r : Except Error Told} (h : seen (l.step e) = (r, m.view)) : l.step e = (r, m) := by
  obtain ⟨hr, hm⟩ := Prod.mk.inj h
  exact Prod.ext hr (view_injective hm)

theorem Edit.Refused.step (h : e.Refused l.kind l.conditions err) : l.step e = (.error err, l) := by
  cases h with
  | kind hk => exact step_refused hk
  | absent hk he habsent => exact eq_of_seen (step_absent hk he habsent)
  | rule hk he hi hc hlen =>
      apply eq_of_seen
      rw [step_addressed hk he hc, alter_past_end he hi hlen]
      rfl

theorem Edit.Fails.step (h : e.Fails l.kind l.conditions err) : l.step e = (.error err, l) := by
  cases h with
  | refused h => exact h.step
  | overflow he h =>
      subst he
      apply eq_of_seen
      rw [step_add, Condition.freshId_overflow h]
      rfl

/-- There is a reason for a request to fail, or it has a result. -/
theorem fails_or_does (l : ConditionList) (e : Edit) :
    (∃ err, e.Fails l.kind l.conditions err) ∨
      ∃ told m, l.step e = (.ok told, m) ∧ m.kind = l.kind ∧
        e.Does l.kind l.conditions told m.conditions := by
  cases hk : e.refusal? l.kind with
  | some err => exact .inl ⟨err, .refused (.kind hk)⟩
  | none =>
      cases he : e.condition? with
      | none =>
          obtain ⟨id, rfl⟩ := e.eq_add he
          by_cases hout : Condition.OutOfIds l.ids id
          · exact .inl ⟨_, .overflow rfl hout⟩
          · obtain ⟨new, hnew, -, -⟩ := Condition.exists_freshId hout
            have hseen := step_add id l
            rw [hnew] at hseen
            obtain ⟨htold, hview⟩ := Prod.mk.inj hseen
            obtain ⟨hkind, hconditions⟩ := Prod.mk.inj hview
            refine .inr ⟨_, (l.step (.add id)).2, Prod.ext htold rfl, hkind, ?_⟩
            rw [hconditions]
            exact .add hnew
      | some id =>
          rcases addressed_or_absent id l.conditions with ⟨before, c, after, hc⟩ | habsent
          · by_cases hlen : ∀ index, e.rule? = some index → index.toNat < c.rules.length
            · obtain ⟨told, d?, halter, hchanges⟩ := Edit.exists_changes he hlen
              have hseen := step_addressed hk he hc
              rw [halter] at hseen
              obtain ⟨htold, hview⟩ := Prod.mk.inj hseen
              obtain ⟨hkind, hconditions⟩ := Prod.mk.inj hview
              refine .inr ⟨told, (l.step e).2, Prod.ext htold rfl, hkind, ?_⟩
              rw [hconditions]
              exact .change he hc hchanges
            · push Not at hlen
              obtain ⟨index, hi, hlen⟩ := hlen
              exact .inl ⟨_, .refused (.rule hk he hi hc hlen)⟩
          · exact .inl ⟨_, .refused (.absent hk he habsent)⟩

theorem fails_of_error (h : (l.step e).1 = .error err) :
    e.Fails l.kind l.conditions err ∧ (l.step e).2 = l := by
  rcases fails_or_does l e with ⟨err', hr⟩ | ⟨told, m, hm, -⟩
  · rw [hr.step] at h ⊢
    cases h
    exact ⟨hr, rfl⟩
  · rw [hm] at h
    cases h

theorem does_of_ok (h : (l.step e).1 = .ok told) :
    (l.step e).2.kind = l.kind ∧ e.Does l.kind l.conditions told (l.step e).2.conditions := by
  rcases fails_or_does l e with ⟨err, hr⟩ | ⟨told', m, hm, hdoes⟩
  · rw [hr.step] at h
    cases h
  · rw [hm] at h ⊢
    cases h
    exact hdoes

def after (l : ConditionList) (e : Edit) : ConditionList := (l.step e).2

theorem after_eq_or_does (l : ConditionList) (e : Edit) :
    l.after e = l ∨ ∃ told, (l.step e).1 = .ok told ∧ (l.after e).kind = l.kind ∧
      e.Does l.kind l.conditions told (l.after e).conditions := by
  cases h : (l.step e).1 with
  | error err => exact .inl (fails_of_error h).2
  | ok told => exact .inr ⟨told, rfl, does_of_ok h⟩

def edited (l : ConditionList) (es : List Edit) : ConditionList := es.foldl after l

theorem edited_concat (l : ConditionList) (es : List Edit) (e : Edit) :
    l.edited (es ++ [e]) = (l.edited es).after e := List.foldl_concat ..

/-- A request that fails leaves the list as it is. It fails exactly if the kind of the list does not
have what it is about, no condition has its id, the first one with its id does not have its rule, or it
adds a condition under a taken id where the largest id of all is taken. Any other request appends a
condition, or changes of the first condition with its id only what it is about. -/
theorem step_local (l : ConditionList) (e : Edit) :
    (∀ err, (l.step e).1 = .error err ↔ e.Fails l.kind l.conditions err) ∧
    (∀ err, (l.step e).1 = .error err → (l.step e).2 = l) ∧
    ∀ told, (l.step e).1 = .ok told →
      ∃ cs, e.Does l.kind l.conditions told cs ∧
        ∀ m : ConditionList, m = (l.step e).2 ↔ m.kind = l.kind ∧ m.conditions = cs := by
  refine ⟨?_, fun _ h => (fails_of_error h).2, ?_⟩
  · intro err
    constructor
    · intro h
      exact (fails_of_error h).1
    · intro h
      rw [h.step]
  · intro told h
    obtain ⟨hkind, hdoes⟩ := does_of_ok h
    refine ⟨_, hdoes, ?_⟩
    intro m
    constructor
    · rintro rfl
      exact ⟨hkind, rfl⟩
    · rintro ⟨hk, hc⟩
      exact view_injective (Prod.ext (hk.trans hkind.symm) hc)

def paired : ConditionList :=
  .branching [⟨7, [.blank], ⟨some ⟨"a"⟩, none⟩⟩, ⟨7, [.blank, .blank], ⟨none, none⟩⟩]

/-- The first of two conditions with one id gets its first parameter; it has no second rule. -/
theorem step_local_paired :
    (paired.step (.setParameter 7 "k" (.str "v"))).1 = .ok .nothing ∧
    (∃ cs, Edit.Does .branching paired.conditions (.setParameter 7 "k" (.str "v")) .nothing cs ∧
      cs = [⟨7, [.blank], ⟨some ⟨"a"⟩, some (.ofList [("k", .str "v")])⟩⟩,
        ⟨7, [.blank, .blank], ⟨none, none⟩⟩]) ∧
    (paired.step (.removeRule 7 1)).1 = .error (.noSuchRule 7 1) ∧
    (paired.step (.removeRule 7 1)).2 = paired := by
  have hset : (paired.step (.setParameter 7 "k" (.str "v"))).1 = .ok .nothing := by decide
  have hpast : (paired.step (.removeRule 7 1)).1 = .error (.noSuchRule 7 1) := by decide
  obtain ⟨-, -, hdoes⟩ := step_local paired (.setParameter 7 "k" (.str "v"))
  obtain ⟨-, hkept, -⟩ := step_local paired (.removeRule 7 1)
  obtain ⟨cs, hcs, hlist⟩ := hdoes _ hset
  obtain ⟨-, hcs'⟩ := (hlist _).mp rfl
  refine ⟨hset, ⟨cs, hcs, ?_⟩, hpast, hkept _ hpast⟩
  rw [← hcs']
  decide

def last : ConditionList := .looping [⟨Int64.maxValue, [], ()⟩]

/-- A condition that is added under the largest of all ids, which is taken, has no id. Nothing refuses
the request: lists of any kind have conditions, and it asks for none that is there. -/
theorem add_overflows :
    (last.step (.add Int64.maxValue)).1 = .error .overflow ∧
      ¬∃ err, (Edit.add Int64.maxValue).Refused last.kind last.conditions err := by
  refine ⟨by decide, ?_⟩
  rintro ⟨err, h⟩
  cases h with
  | kind hk => cases hk
  | absent _ he | rule _ he => cases he

end ConditionList

end BranchingTimeline
