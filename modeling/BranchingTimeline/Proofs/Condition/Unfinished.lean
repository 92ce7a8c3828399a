import BranchingTimeline.Proofs.Condition.Editing
import BranchingTimeline.Session.Finish

namespace BranchingTimeline

theorem findSome?_eraseIdx {α β : Type} {f : α → Option β} {l : List α} {a : α} {i : Nat}
    (ha : l[i]? = some a) (h : f a = none) : (l.eraseIdx i).findSome? f = l.findSome? f := by
  obtain ⟨before, after, rfl, rfl⟩ := exists_middle ha
  rw [eraseIdx_middle, List.findSome?_append, List.findSome?_append, List.findSome?_cons, h]

theorem exists_beside {α β : Type} {R : α → β → Prop} {before after : List α} {a : α} {l : List β}
    (h : List.Forall₂ R (before ++ a :: after) l) :
    ∃ before' b after', l = before' ++ b :: after' ∧ before'.length = before.length ∧
      List.Forall₂ R before before' ∧ R a b ∧ List.Forall₂ R after after' := by
  induction before generalizing l with
  | nil =>
      cases h with
      | cons hab hafter => exact ⟨[], _, _, rfl, rfl, .nil, hab, hafter⟩
  | cons d r ih =>
      cases h with
      | cons hd hr =>
          obtain ⟨before', b, after', rfl, hlen, hbefore, hab, hafter⟩ := ih hr
          exact ⟨_ :: before', b, after', rfl, congrArg (· + 1) hlen, .cons hd hbefore, hab, hafter⟩

theorem Rule.not_holdsIn {r : Rule} (h : r.isComplete = false) (latest : Lookup) :
    r.holdsIn latest = false := by
  unfold holdsIn
  cases r.target.bind latest with
  | none => rfl
  | some data =>
      change (r.isComplete && _) = false
      rw [h, Bool.false_and]

theorem Rule.not_complete_of_blank {r : Rule} (h : ∀ x, r.trial = some x → x.isBlank = true) :
    r.isComplete = false := by
  have htarget : r.target = none := by
    rw [target, ItemId.named?, Option.filter_eq_none_iff]
    intro x hx
    rw [h x hx]
    exact Bool.false_ne_true
  rw [isComplete, htarget]
  rfl

def Rule.Columnless (r : Rule) : Prop := r.column = "" ∧ r.prop = ""

theorem Rule.Columnless.not_complete {r : Rule} (h : r.Columnless) : r.isComplete = false := by
  have hcolumn : r.resolvedColumn = "" := by
    rw [resolvedColumn, if_neg (not_not_intro h.1), h.2]
    cases r.component with
    | none => rfl
    | some c => exact if_neg fun hc => hc.2 rfl
  rw [isComplete, hcolumn, decide_eq_false (not_not_intro rfl), Bool.and_false]

namespace Condition

variable {ε : Type} {cs : List (Condition ε)} {c : Condition ε} {i : Nat} {latest : Lookup}

theorem not_holds {r : Rule} (hr : r ∈ c.rules) (h : r.isComplete = false) (latest : Lookup) :
    c.holds latest = false := by
  have hall : c.rules.all (·.holdsIn latest) = false :=
    List.all_eq_false.mpr ⟨r, hr, by rw [Rule.not_holdsIn h]; exact Bool.false_ne_true⟩
  rw [holds, hall, Bool.and_false]

/-- The condition at a place holds on no records, and what is asked of a list of conditions is answered
without it as with it. -/
structure Idle (cs : List (Condition ε)) (i : Nat) (latest : Lookup) : Prop where
  fails : ∃ c, cs[i]? = some c ∧ c.holds latest = false
  any : anyHolds (cs.eraseIdx i) latest = anyHolds cs latest
  first : firstHolding (cs.eraseIdx i) latest = firstHolding cs latest

theorem idle_of_fails (hc : cs[i]? = some c) (h : c.holds latest = false) : Idle cs i latest := by
  refine ⟨⟨c, hc, h⟩, ?_, ?_⟩
  · obtain ⟨before, after, rfl, rfl⟩ := exists_middle hc
    rw [anyHolds, anyHolds, eraseIdx_middle, List.any_append, List.any_append, List.any_cons, h,
      Bool.false_or]
  · obtain ⟨before, after, rfl, rfl⟩ := exists_middle hc
    rw [firstHolding, firstHolding, eraseIdx_middle, List.find?_append, List.find?_append,
      List.find?_cons_of_neg (by rw [h]; exact Bool.false_ne_true)]

theorem exists_failing {δ : Type} {g : ε → δ} {d : Condition δ} {r : Rule}
    (hd : (cs.map (map g))[i]? = some d) (hr : r ∈ d.rules) (h : r.isComplete = false)
    (latest : Lookup) : ∃ c, cs[i]? = some c ∧ c.holds latest = false := by
  rw [List.getElem?_map, Option.map_eq_some_iff] at hd
  obtain ⟨c, hc, rfl⟩ := hd
  exact ⟨c, hc, not_holds hr h latest⟩

end Condition

theorem BranchPlan.satisfied_eraseIdx {cs : List BranchCondition} {c : BranchCondition} {i : Nat}
    {latest : Lookup} (hc : cs[i]? = some c) (h : c.holds latest = false) :
    satisfied (cs.eraseIdx i) latest = satisfied cs latest := by
  refine findSome?_eraseIdx hc ?_
  cases c.effect.destination with
  | none => rfl
  | some target => exact if_neg (by rw [h]; exact Bool.false_ne_true)

namespace ConditionList

def Idle (l : ConditionList) (i : Nat) : Prop :=
  ∀ latest, match l with
    | looping cs => Condition.Idle cs i latest
    | branching cs => Condition.Idle cs i latest ∧ ∀ b : BranchPlan,
        { b with conditions := cs.eraseIdx i }.select latest = { b with conditions := cs }.select latest
    | repeating cs => Condition.Idle cs i latest ∧
        repeatTarget (cs.eraseIdx i) latest = repeatTarget cs latest
    | overriding cs => Condition.Idle cs i latest ∧
        overrideFor (cs.eraseIdx i) latest = overrideFor cs latest

theorem idle_of_incomplete {l : ConditionList} {i : Nat} {c : BranchCondition} {r : Rule}
    (hc : l.conditions[i]? = some c) (hr : r ∈ c.rules) (h : r.isComplete = false) : l.Idle i := by
  intro latest
  cases l with
  | looping cs =>
      obtain ⟨d, hd, hfails⟩ := Condition.exists_failing hc hr h latest
      exact Condition.idle_of_fails hd hfails
  | branching cs =>
      obtain ⟨d, hd, hfails⟩ := Condition.exists_failing hc hr h latest
      refine ⟨Condition.idle_of_fails hd hfails, ?_⟩
      intro b
      rw [BranchPlan.select, BranchPlan.select, BranchPlan.satisfied_eraseIdx hd hfails]
  | repeating cs =>
      obtain ⟨d, hd, hfails⟩ := Condition.exists_failing hc hr h latest
      refine ⟨Condition.idle_of_fails hd hfails, findSome?_eraseIdx hd ?_⟩
      cases d.effect.destination with
      | none => rfl
      | some target => exact if_neg (by rw [hfails]; exact Bool.false_ne_true)
  | overriding cs =>
      obtain ⟨d, hd, hfails⟩ := Condition.exists_failing hc hr h latest
      have hidle := Condition.idle_of_fails hd hfails
      refine ⟨hidle, ?_⟩
      rw [overrideFor, overrideFor, hidle.first]

/-- What has been done to a rule since it was added blank or got another trial, if it was. -/
abbrev Account := Option (List RuleEdit)

namespace Account

def note (edit : RuleEdit) (a : Account) : Account :=
  match edit with
  | .trial _ => some []
  | .column _ | .op _ | .value _ => a.map (· ++ [edit])

def Unfinished (a : Account) : Prop :=
  ∃ edits, a = some edits ∧ ∀ c, .column c ∈ edits → c.column = "" ∧ c.prop = ""

end Account

/-- A list under edit, and beside it the account of each rule of each condition. -/
structure Watched where
  list : ConditionList
  accounts : List (List Account)

def place (l : ConditionList) (id : Int64) : Nat := l.conditions.findIdx (·.id = id)

def Edit.accounts (l : ConditionList) (as : List (List Account)) : Edit → List (List Account)
  | add _ => as ++ [[some []]]
  | remove id => as.eraseIdx (l.place id)
  | addRule id => as.modify (l.place id) (· ++ [some []])
  | removeRule id index => as.modify (l.place id) (·.eraseIdx index.toNat)
  | updateRule id index edit => as.modify (l.place id) (·.modify index.toNat (Account.note edit))
  | setTarget .. | setParameter .. | removeOverride .. => as

namespace Watched

def start (l : ConditionList) : Watched := ⟨l, l.conditions.map fun c => c.rules.map fun _ => none⟩

def after (w : Watched) (e : Edit) : Watched :=
  match w.list.step e with
  | (.ok _, l) => ⟨l, e.accounts w.list w.accounts⟩
  | (.error _, l) => ⟨l, w.accounts⟩

def edited (w : Watched) (es : List Edit) : Watched := es.foldl after w

end Watched

def Agrees (r : Rule) (a : Account) : Prop := a.Unfinished → r.Columnless

def AgreeOn (c : BranchCondition) (as : List Account) : Prop := List.Forall₂ Agrees c.rules as

theorem agrees_blank : Agrees Rule.blank (some []) := fun _ => ⟨rfl, rfl⟩

theorem Agrees.note {r : Rule} {a : Account} (h : Agrees r a) (edit : RuleEdit) :
    Agrees (edit.apply r) (a.note edit) := by
  cases edit with
  | trial => exact fun _ => ⟨rfl, rfl⟩
  | column c =>
      rintro ⟨edits, hedits, hcolumns⟩
      obtain ⟨earlier, -, rfl⟩ := Option.map_eq_some_iff.mp hedits
      exact hcolumns c (List.mem_append_right _ (List.mem_singleton_self _))
  | op | value =>
      rintro ⟨edits, hedits, hcolumns⟩
      obtain ⟨earlier, rfl, rfl⟩ := Option.map_eq_some_iff.mp hedits
      exact h ⟨earlier, rfl, fun c hc => hcolumns c (List.mem_append_left _ hc)⟩

theorem Addressed.place_eq {l : ConditionList} {id : Int64} {before after : List BranchCondition}
    {c : BranchCondition} (h : Addressed id l.conditions before c after) :
    l.place id = before.length := by
  have hnone : before.findIdx (·.id = id) = before.length := by
    rw [List.findIdx_eq_length]
    intro b hb
    exact decide_eq_false (h.first b hb)
  rw [place, h.split, List.findIdx_append, if_neg (by rw [hnone]; exact Nat.lt_irrefl _),
    List.findIdx_cons, decide_eq_true h.id_eq, cond_true, Nat.zero_add]

theorem Edit.Does.agree {l : ConditionList} {k : Kind} {e : Edit} {told : Told} {as : List (List Account)}
    {cs : List BranchCondition} (h : e.Does k l.conditions told cs)
    (ha : List.Forall₂ AgreeOn l.conditions as) : List.Forall₂ AgreeOn cs (e.accounts l as) := by
  cases h with
  | add => exact List.rel_append ha (.cons (.cons agrees_blank .nil) .nil)
  | change he hc h =>
      rw [hc.split] at ha
      obtain ⟨asBefore, a, asAfter, rfl, hlen, hbefore, hca, hafter⟩ := exists_beside ha
      have hplace := hc.place_eq
      rw [← hlen] at hplace
      cases h with
      | remove =>
          cases he
          rw [accounts, hplace, eraseIdx_middle]
          exact List.rel_append hbefore hafter
      | addRule =>
          cases he
          rw [accounts, hplace, modify_middle]
          refine List.rel_append hbefore (.cons ?_ hafter)
          exact List.rel_append hca (.cons agrees_blank .nil)
      | removeRule hr hi =>
          cases he
          rw [AgreeOn, hr] at hca
          obtain ⟨before', b, after', rfl, hlen', hbefore', -, hafter'⟩ := exists_beside hca
          rw [accounts, hplace, modify_middle, ← hi, ← hlen', eraseIdx_middle]
          exact List.rel_append hbefore (.cons (List.rel_append hbefore' hafter') hafter)
      | @updateRule _ _ edit _ _ _ _ hr hi =>
          cases he
          rw [AgreeOn, hr] at hca
          obtain ⟨before', b, after', rfl, hlen', hbefore', hrb, hafter'⟩ := exists_beside hca
          rw [accounts, hplace, modify_middle, ← hi, ← hlen', modify_middle]
          refine List.rel_append hbefore (.cons ?_ hafter)
          exact List.rel_append hbefore' (.cons (hrb.note edit) hafter')
      | setTarget | setParameter | removeOverride => exact List.rel_append hbefore (.cons hca hafter)

theorem lengths_of_agree {cs : List BranchCondition} {as : List (List Account)}
    (h : List.Forall₂ AgreeOn cs as) : as.map List.length = cs.map (·.rules.length) := by
  induction h with
  | nil => rfl
  | cons hc _ ih => rw [List.map_cons, List.map_cons, ih, hc.length_eq]

theorem exists_agreeing {cs : List BranchCondition} {as : List (List Account)} {i : Nat}
    {bs : List Account} {a : Account} (h : List.Forall₂ AgreeOn cs as) (hi : as[i]? = some bs)
    (ha : a ∈ bs) : ∃ c, cs[i]? = some c ∧ ∃ r ∈ c.rules, Agrees r a := by
  obtain ⟨before, after, rfl, rfl⟩ := exists_middle hi
  obtain ⟨before', c, after', rfl, hlen, -, hc, -⟩ := exists_beside h.flip
  obtain ⟨xs, ys, rfl⟩ := List.append_of_mem ha
  obtain ⟨xs', r, ys', hrules, -, -, hr, -⟩ := exists_beside (List.Forall₂.flip hc)
  refine ⟨c, ?_, r, ?_, hr⟩
  · rw [← hlen, List.getElem?_append_right (Nat.le_refl _), Nat.sub_self, List.getElem?_cons_zero]
  · rw [hrules]
    exact List.mem_append_right _ List.mem_cons_self

namespace Watched

variable {w : Watched}

/-- The accounts tell of each rule of the list, and what they tell of its column is so. -/
def Agree (w : Watched) : Prop := List.Forall₂ AgreeOn w.list.conditions w.accounts

theorem agree_start (l : ConditionList) : (start l).Agree := by
  rw [Agree, start, List.forall₂_map_right_iff, List.forall₂_same]
  intro c _
  rw [AgreeOn, List.forall₂_map_right_iff, List.forall₂_same]
  rintro r _ ⟨edits, hnone, -⟩
  cases hnone

theorem after_list (w : Watched) (e : Edit) : (w.after e).list = w.list.after e := by
  rw [after, ConditionList.after]
  cases w.list.step e with
  | mk r l => cases r <;> rfl

theorem Agree.after (h : w.Agree) (e : Edit) : (w.after e).Agree := by
  rw [Watched.after]
  cases hstep : w.list.step e with
  | mk r l =>
      cases r with
      | error err =>
          have hsame := (fails_of_error (congrArg Prod.fst hstep)).2
          rw [hstep] at hsame
          obtain rfl : l = w.list := hsame
          exact h
      | ok told =>
          have hdoes := (does_of_ok (congrArg Prod.fst hstep)).2
          rw [hstep] at hdoes
          exact hdoes.agree h

/-- After every history of requests the accounts agree with the list that is left. -/
theorem agree_edited (l : ConditionList) (es : List Edit) :
    ((start l).edited es).list = l.edited es ∧ ((start l).edited es).Agree := by
  induction es using List.reverseRecOn with
  | nil => exact ⟨rfl, agree_start l⟩
  | append_singleton es e ih =>
      obtain ⟨hlist, hagree⟩ := ih
      rw [edited, List.foldl_concat, edited_concat, ← hlist]
      exact ⟨after_list _ e, hagree.after e⟩

end Watched

/-- A condition is idle as long as it has a rule that was added blank or got another trial and got no
column since, and as long as it has a rule without a trial. -/
theorem unfinished_idle (l : ConditionList) (es : List Edit) (i : Nat) :
    ((Watched.start l).edited es).list = l.edited es ∧
    ((Watched.start l).edited es).accounts.map List.length =
      (l.edited es).conditions.map (·.rules.length) ∧
    ((∃ as, ((Watched.start l).edited es).accounts[i]? = some as ∧ ∃ a ∈ as, a.Unfinished) →
      (l.edited es).Idle i) ∧
    ((∃ c, (l.edited es).conditions[i]? = some c ∧
        ∃ r ∈ c.rules, ∀ x, r.trial = some x → x.isBlank = true) → (l.edited es).Idle i) := by
  obtain ⟨hlist, hagree⟩ := Watched.agree_edited l es
  rw [Watched.Agree, hlist] at hagree
  refine ⟨hlist, lengths_of_agree hagree, ?_, ?_⟩
  · rintro ⟨as, has, a, ha, hunfinished⟩
    obtain ⟨c, hc, r, hr, hagrees⟩ := exists_agreeing hagree has ha
    exact idle_of_incomplete hc hr (hagrees hunfinished).not_complete
  · rintro ⟨c, hc, r, hr, hblank⟩
    exact idle_of_incomplete hc hr (Rule.not_complete_of_blank hblank)

/-- A condition gets a complete rule, whose trial is then exchanged and whose operator and text are
chosen anew. -/
def repointing : List Edit :=
  [.add 1, .updateRule 1 0 (.trial (some ⟨"a"⟩)), .updateRule 1 0 (.column ⟨"rt", "rt", none⟩),
    .updateRule 1 0 (.trial (some ⟨"b"⟩)), .updateRule 1 0 (.op .ne), .updateRule 1 0 (.value "0")]

/-- The exchange of the trial takes the column from the rule, and the condition is idle until the rule
gets another one. -/
theorem unfinished_idle_repointing :
    ((Watched.start (.branching [])).edited repointing).accounts = [[some [.op .ne, .value "0"]]] ∧
      ((ConditionList.branching []).edited repointing).Idle 0 := by
  have haccounts : ((Watched.start (.branching [])).edited repointing).accounts =
      [[some [.op .ne, .value "0"]]] := by decide
  refine ⟨haccounts, (unfinished_idle (.branching []) repointing 0).2.2.1 ?_⟩
  rw [haccounts]
  refine ⟨_, rfl, _, List.mem_singleton_self _, _, rfl, ?_⟩
  intro c hc
  simp at hc

end ConditionList

end BranchingTimeline
