import BranchingTimeline.Proofs.Timeline.Plans

namespace BranchingTimeline

namespace Node

mutual

/-- The loops around the first node with an id, from the outside in. -/
def enclosing (x : ItemId) : Node → List LoopPlan
  | trial .. => []
  | loop p l items => if p.guard.id = x then [] else l :: enclosingIn x items

def enclosingIn (x : ItemId) : List Node → List LoopPlan
  | [] => []
  | n :: r => if (find x n).isSome then enclosing x n else enclosingIn x r

end

variable {x : ItemId} {n m : Node} {nodes r : List Node}

theorem find_self (h : n.id = x) : find x n = some n := by
  cases n with
  | trial p t => simp only [find, if_pos (show p.guard.id = x from h)]
  | loop p l items => simp only [find, if_pos (show p.guard.id = x from h)]

theorem find_trial {p : Place} {t : TrialPlan} (h : p.guard.id ≠ x) : find x (trial p t) = none := by
  simp only [find, if_neg h]

theorem find_loop {p : Place} {l : LoopPlan} {items : List Node} (h : p.guard.id ≠ x) :
    find x (loop p l items) = findIn x items := by
  simp only [find, if_neg h]

theorem findIn_head (h : find x n = some m) : findIn x (n :: r) = some m := by
  simp only [findIn, h]

theorem findIn_tail (h : find x n = none) : findIn x (n :: r) = findIn x r := by
  simp only [findIn, h]

theorem enclosingIn_head (h : find x n = some m) : enclosingIn x (n :: r) = enclosing x n := by
  simp [enclosingIn, h]

theorem enclosingIn_tail (h : find x n = none) : enclosingIn x (n :: r) = enclosingIn x r := by
  simp [enclosingIn, h]

theorem enclosing_self (h : n.id = x) : enclosing x n = [] := by
  cases n with
  | trial p t => simp only [enclosing]
  | loop p l items => simp only [enclosing, if_pos (show p.guard.id = x from h)]

theorem enclosing_loop {p : Place} {l : LoopPlan} {items : List Node} (h : p.guard.id ≠ x) :
    enclosing x (loop p l items) = l :: enclosingIn x items := by
  simp only [enclosing, if_neg h]

theorem findIn_cons (x : ItemId) (n : Node) (r : List Node) :
    findIn x (n :: r) = (find x n).or (findIn x r) := by
  simp only [findIn]
  cases find x n <;> rfl

/-- The search finds the first node with an id among all nodes in depth-first order. -/
theorem findIn_eq_find? (x : ItemId) (nodes : List Node) :
    findIn x nodes = (flattenIn nodes).find? (·.id = x) := by
  induction nodes using forest_induction with
  | nil => simp [findIn]
  | trial p t r ih =>
      rw [findIn_cons, flattenIn_cons, flatten_trial, List.singleton_append, List.find?_cons, ← ih]
      by_cases h : p.guard.id = x
      · rw [find_self (n := trial p t) h, decide_eq_true (show (trial p t).id = x from h)]
        rfl
      · rw [find_trial h, decide_eq_false (show ¬(trial p t).id = x from h)]
        rfl
  | loop p l items r ihItems ih =>
      rw [findIn_cons, flattenIn_cons, flatten_loop, List.cons_append, List.find?_cons, List.find?_append,
        ← ihItems, ← ih]
      by_cases h : p.guard.id = x
      · rw [find_self (n := loop p l items) h, decide_eq_true (show (loop p l items).id = x from h)]
        rfl
      · rw [find_loop h, decide_eq_false (show ¬(loop p l items).id = x from h)]

theorem findIn_isSome (x : ItemId) (nodes : List Node) :
    (findIn x nodes).isSome = true ↔ ∃ n ∈ flattenIn nodes, n.id = x := by
  rw [findIn_eq_find?, List.find?_isSome]
  simp

theorem mem_of_findIn (h : findIn x nodes = some n) : n ∈ flattenIn nodes := by
  rw [findIn_eq_find?] at h
  exact List.mem_of_find?_eq_some h

theorem id_of_findIn (h : findIn x nodes = some n) : n.id = x := by
  rw [findIn_eq_find?] at h
  simpa using List.find?_some h

theorem mem_of_enclosingIn {l : LoopPlan} (hn : findIn x nodes = some n)
    (hl : l ∈ enclosingIn x nodes) :
    ∃ p items, loop p l items ∈ flattenIn nodes ∧ n ∈ flattenIn items := by
  induction nodes using forest_induction with
  | nil => simp [findIn] at hn
  | trial p t r ih =>
      by_cases h : p.guard.id = x
      · rw [enclosingIn_head (find_self (n := trial p t) h), enclosing_self (n := trial p t) h] at hl
        cases hl
      · rw [enclosingIn_tail (find_trial h)] at hl
        rw [findIn_tail (find_trial h)] at hn
        obtain ⟨p', items, hp, hmem⟩ := ih hn hl
        exact ⟨p', items, by simp [flattenIn_cons, hp], hmem⟩
  | loop p l' items r ihItems ih =>
      by_cases h : p.guard.id = x
      · rw [enclosingIn_head (find_self (n := loop p l' items) h),
          enclosing_self (n := loop p l' items) h] at hl
        cases hl
      · cases hf : find x (loop p l' items) with
        | some m =>
            rw [enclosingIn_head hf, enclosing_loop h] at hl
            rw [findIn_head hf] at hn
            obtain rfl := Option.some.inj hn
            rw [find_loop h] at hf
            rcases List.mem_cons.mp hl with rfl | hl
            · refine ⟨p, items, by simp [flattenIn_cons], ?_⟩
              exact mem_of_findIn hf
            · obtain ⟨p', items', hp, hmem⟩ := ihItems hf hl
              exact ⟨p', items', by simp [flattenIn_cons, hp], hmem⟩
        | none =>
            rw [enclosingIn_tail hf] at hl
            rw [findIn_tail hf] at hn
            obtain ⟨p', items', hp, hmem⟩ := ih hn hl
            exact ⟨p', items', by simp [flattenIn_cons, hp], hmem⟩

end Node

namespace Compile

open Node

variable {around : Surroundings} {index : Nat} {items : List Item} {nodes inner : List Node}
  {n : Node} {p : Place} {l : LoopPlan} {x : ItemId}

theorem Compiled.scope_of_mem (h : Compiled around index items nodes) (hn : n ∈ flattenIn nodes) :
    n.guard.scope = around.scope ∨ n.guard.scope ∈ scopesIn nodes := by
  induction h with
  | nil => cases hn
  | trial hr ih =>
      simp only [flattenIn_cons, trialNode, flatten_trial, List.singleton_append, List.mem_cons,
        scopesIn_trial] at hn ⊢
      rcases hn with rfl | hn
      · exact .inl rfl
      · exact ih hn
  | loop name hi hr ihInner ih =>
      simp only [flattenIn_cons, loopNode, flatten_loop, List.cons_append, List.mem_cons,
        List.mem_append, scopesIn_loop] at hn ⊢
      rcases hn with rfl | hn | hn
      · exact .inl rfl
      · rcases ihInner hn with hs | hs
        · exact .inr (.inl hs)
        · exact .inr (.inr (.inl hs))
      · rcases ih hn with hs | hs
        · exact .inl hs
        · exact .inr (.inr (.inr hs))

theorem Compiled.scope_of_inside (h : Compiled around index items nodes)
    (hl : .loop p l inner ∈ flattenIn nodes) (hn : n ∈ flattenIn inner) :
    n.guard.scope ∈ scopesIn nodes := by
  induction h with
  | nil => cases hl
  | trial hr ih =>
      simp only [flattenIn_cons, trialNode, flatten_trial, List.singleton_append, List.mem_cons,
        scopesIn_trial, reduceCtorEq, false_or] at hl ⊢
      exact ih hl
  | loop name hi hr ihInner ih =>
      simp only [flattenIn_cons, loopNode, flatten_loop, List.cons_append, List.mem_cons,
        List.mem_append, scopesIn_loop, Node.loop.injEq] at hl ⊢
      rcases hl with ⟨-, -, rfl⟩ | hl | hl
      · rcases hi.scope_of_mem hn with hs | hs
        · exact .inl hs
        · exact .inr (.inl hs)
      · exact .inr (.inl (ihInner hl))
      · exact .inr (.inr (ih hl))

theorem Compiled.not_mem_of_scope (h : Compiled around index items inner)
    (hs : around.scope ∉ scopesIn nodes) (hd : ∀ a ∈ scopesIn inner, ∀ b ∈ scopesIn nodes, a ≠ b)
    (hn : n.guard.scope ∈ scopesIn nodes) : n ∉ flattenIn inner := by
  intro hin
  rcases h.scope_of_mem hin with hk | hk
  · rw [hk] at hn
    exact hs hn
  · exact hd _ hk _ hn rfl

/-- Scopes tell apart what stands in different loops, so the loops that have the found node inside
them are those around its place. -/
theorem Compiled.mem_enclosingIn (h : Compiled around index items nodes)
    (hs : around.scope ∉ scopesIn nodes) (hd : (scopesIn nodes).Nodup)
    (hfind : findIn x nodes = some n) (hl : .loop p l inner ∈ flattenIn nodes)
    (hn : n ∈ flattenIn inner) : l ∈ enclosingIn x nodes := by
  have hscope := h.scope_of_inside hl hn
  induction h with
  | nil => cases hl
  | @trial around index plan r nodes hr ih =>
      by_cases hx : plan.id = x
      · have hself := find_self (n := trialNode around index (r.map Item.id) plan) hx
        rw [findIn_head hself] at hfind
        obtain rfl := Option.some.inj hfind
        exact absurd hscope hs
      · have hnone : find x (trialNode around index (r.map Item.id) plan) = none := find_trial hx
        rw [findIn_tail hnone] at hfind
        rw [enclosingIn_tail hnone]
        simp only [flattenIn_cons, trialNode, flatten_trial, List.singleton_append, List.mem_cons,
          reduceCtorEq, false_or, scopesIn_trial] at hl hs hd hscope
        exact ih hs hd hfind hl hscope
  | @loop around index plan items r body nodes name hi hr ihBody ih =>
      by_cases hx : plan.id = x
      · have hself := find_self (n := loopNode around index (r.map Item.id) plan items (.loop name) body) hx
        rw [findIn_head hself] at hfind
        obtain rfl := Option.some.inj hfind
        exact absurd hscope hs
      · have hbody : find x (loopNode around index (r.map Item.id) plan items (.loop name) body) =
            findIn x body := find_loop hx
        simp only [flattenIn_cons, loopNode, flatten_loop, List.cons_append, List.mem_cons,
          List.mem_append, scopesIn_loop, Node.loop.injEq, not_or, List.nodup_cons,
          List.nodup_append] at hl hs hd
        obtain ⟨⟨hname, hrest⟩, hnodup, hnodupRest, hdisjoint⟩ := hd
        cases hf : find x (loopNode around index (r.map Item.id) plan items (.loop name) body) with
        | some k =>
            rw [findIn_head hf] at hfind
            obtain rfl := Option.some.inj hfind
            rw [hbody] at hf
            rw [enclosingIn_head (hbody.trans hf), loopNode, enclosing_loop hx]
            have hin := mem_of_findIn hf
            rcases hl with ⟨-, rfl, -⟩ | hl | hl
            · exact List.mem_cons_self
            · exact List.mem_cons_of_mem _ (ihBody hname hnodup hf hl (hi.scope_of_inside hl hn))
            · exact absurd hin (hi.not_mem_of_scope hrest hdisjoint (hr.scope_of_inside hl hn))
        | none =>
            have hout : n ∉ flattenIn body := by
              intro hin
              have hsome := (findIn_isSome x body).mpr ⟨n, hin, id_of_findIn hfind⟩
              rw [← hbody, hf] at hsome
              cases hsome
            rw [findIn_tail hf] at hfind
            rw [enclosingIn_tail hf]
            rcases hl with ⟨-, -, rfl⟩ | hl | hl
            · exact absurd hn hout
            · exact absurd (flattenIn_subset hl hn) hout
            · exact ih hs.2.2 hnodupRest hfind hl (hr.scope_of_inside hl hn)

theorem mem_enclosing_iff {settings : Settings} {t : Timeline} (h : compile settings items = .ok t)
    (hfind : findIn x t.nodes = some n) :
    l ∈ enclosingIn x t.nodes ↔ ∃ p inner, .loop p l inner ∈ flattenIn t.nodes ∧ n ∈ flattenIn inner := by
  have hc := compiled_of_compile h
  constructor
  · exact mem_of_enclosingIn hfind
  · rintro ⟨p, inner, hl, hn⟩
    exact hc.mem_enclosingIn (root_not_mem_scopesIn hc) (scopesIn_nodup h) hfind hl hn

end Compile

def Timeline.enclosing (t : Timeline) (x : ItemId) : List LoopPlan := Node.enclosingIn x t.nodes

end BranchingTimeline
