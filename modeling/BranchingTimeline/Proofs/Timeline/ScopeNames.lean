import BranchingTimeline.Proofs.Timeline.Compiled

namespace BranchingTimeline

namespace Namer

theorem numbered_injective (base : String) : Function.Injective (numbered base) := by
  intro n k h
  have hr : n.repr = k.repr := (String.append_right_inj _).mp h
  have hd : Nat.toDigits 10 n = Nat.toDigits 10 k := by
    rw [← Nat.toList_repr, ← Nat.toList_repr, hr]
  simpa only [Nat.ofDigitChars_ten_toDigits] using congrArg (Nat.ofDigitChars 10 · 0) hd

theorem freeNumber_spec (used : List String) (base : String) (n steps : Nat) :
    ∃ i ≤ steps, freeNumber used base n steps = n + i ∧
      (∀ j < i, numbered base (n + j) ∈ used) ∧ (i < steps → numbered base (n + i) ∉ used) := by
  induction steps generalizing n with
  | zero => exact ⟨0, Nat.le_refl _, rfl, by omega, by omega⟩
  | succ steps ih =>
      by_cases hn : numbered base n ∈ used
      · obtain ⟨i, hi, he, hlow, hfree⟩ := ih (n + 1)
        refine ⟨i + 1, by omega, ?_, ?_, ?_⟩
        · rw [freeNumber, if_pos (by simpa using hn), he]
          omega
        · intro j hj
          cases j with
          | zero => exact hn
          | succ j =>
              have := hlow j (by omega)
              rwa [Nat.add_right_comm] at this
        · intro hlt
          have := hfree (by omega)
          rwa [Nat.add_right_comm] at this
      · refine ⟨0, by omega, ?_, by omega, fun _ => hn⟩
        rw [freeNumber, if_neg (by simpa using hn)]
        rfl

theorem numbered_freeNumber_not_mem (used : List String) (base : String) (n : Nat) :
    numbered base (freeNumber used base n used.length) ∉ used := by
  obtain ⟨i, hi, he, hlow, hfree⟩ := freeNumber_spec used base n used.length
  rw [he]
  intro hmem
  have hend : i = used.length := by
    by_contra hne
    exact hfree (by omega) hmem
  have hsub : (List.range (used.length + 1)).map (fun j => numbered base (n + j)) ⊆ used := by
    intro x hx
    obtain ⟨j, hj, rfl⟩ := List.mem_map.mp hx
    rcases Nat.lt_succ_iff_lt_or_eq.mp (List.mem_range.mp hj) with hlt | rfl
    · exact hlow j (by omega)
    · rwa [← hend]
  have hnodup : ((List.range (used.length + 1)).map (fun j => numbered base (n + j))).Nodup :=
    List.Nodup.map (fun _ _ h => Nat.add_left_cancel (numbered_injective base h)) List.nodup_range
  have hlen := (List.subperm_of_subset hnodup hsub).length_le
  simp only [List.length_map, List.length_range] at hlen
  omega

theorem nameFor_not_mem (m : Namer) (id : ItemId) : (m.nameFor id).1 ∉ m.used := by
  simp only [nameFor]
  split
  · exact numbered_freeNumber_not_mem _ _ _
  · rename_i h
    simpa using h

@[simp] theorem nameFor_used (m : Namer) (id : ItemId) :
    (m.nameFor id).2.used = (m.nameFor id).1 :: m.used := rfl

/-- A text of ASCII letters, digits and underscores, and not an empty one. -/
def IsWord (name : String) : Prop := name ≠ "" ∧ ∀ c ∈ name.toList, c.isAlphanum = true ∨ c = '_'

theorem isWord_sanitize (id : ItemId) : IsWord (sanitize id) := by
  unfold sanitize
  split
  · exact ⟨by decide, by simp⟩
  · rename_i h
    constructor
    · intro he
      have hnil : id.text.toList = [] := by simpa using congrArg String.toList he
      exact h (String.toList_eq_nil_iff.mp hnil)
    · intro c hc
      rw [String.toList_ofList] at hc
      obtain ⟨x, -, rfl⟩ := List.mem_map.mp hc
      split
      · exact .inl ‹_›
      · exact .inr rfl

theorem IsWord.numbered {base : String} (h : IsWord base) (n : Nat) : IsWord (numbered base n) := by
  constructor
  · intro he
    have hnil := congrArg String.toList he
    simp [Namer.numbered] at hnil
  · intro c hc
    rw [Namer.numbered, String.toList_append, String.toList_append, List.mem_append, List.mem_append] at hc
    rcases hc with (hc | hc) | hc
    · exact h.2 c hc
    · exact .inr (by simpa using hc)
    · rw [Nat.toList_repr] at hc
      have hd := Nat.isDigit_of_mem_toDigits (by decide) (by decide) hc
      exact .inl (by simp [Char.isAlphanum, hd])

theorem isWord_nameFor (m : Namer) (id : ItemId) : IsWord (m.nameFor id).1 := by
  simp only [nameFor]
  split
  · exact (isWord_sanitize id).numbered _
  · exact isWord_sanitize id

structure Sound (m : Namer) : Prop where
  nodup : m.used.Nodup
  words : ∀ name ∈ m.used, IsWord name

theorem sound_start : start.Sound := ⟨List.nodup_nil, by simp [start]⟩

theorem Sound.nameFor {m : Namer} (h : m.Sound) (id : ItemId) : (m.nameFor id).2.Sound where
  nodup := List.nodup_cons.mpr ⟨nameFor_not_mem m id, h.nodup⟩
  words := List.forall_mem_cons.mpr ⟨isWord_nameFor m id, h.words⟩

def nameAll (m : Namer) : List ItemId → List String × Namer
  | [] => ([], m)
  | id :: r =>
    let (name, m) := m.nameFor id
    let (names, m) := m.nameAll r
    (name :: names, m)

theorem nameAll_cons (m : Namer) (id : ItemId) (r : List ItemId) :
    m.nameAll (id :: r) =
      ((m.nameFor id).1 :: ((m.nameFor id).2.nameAll r).1, ((m.nameFor id).2.nameAll r).2) := rfl

theorem nameAll_append (m : Namer) (ids r : List ItemId) :
    m.nameAll (ids ++ r) =
      ((m.nameAll ids).1 ++ ((m.nameAll ids).2.nameAll r).1, ((m.nameAll ids).2.nameAll r).2) := by
  induction ids generalizing m with
  | nil => rfl
  | cons id ids ih => rw [List.cons_append, nameAll_cons, ih, nameAll_cons, List.cons_append]

theorem nameAll_used (m : Namer) (ids : List ItemId) :
    (m.nameAll ids).2.used = (m.nameAll ids).1.reverse ++ m.used := by
  induction ids generalizing m with
  | nil => rfl
  | cons id r ih => rw [nameAll_cons, ih, nameFor_used, List.reverse_cons, List.append_assoc]; rfl

theorem Sound.nameAll {m : Namer} (h : m.Sound) (ids : List ItemId) : (m.nameAll ids).2.Sound := by
  induction ids generalizing m with
  | nil => exact h
  | cons id r ih => exact ih (h.nameFor id)

end Namer

namespace Compile

open Node

variable {known : Known} {d e : Draft}

theorem sequence_named {around : Surroundings} {index : Nat} {items : List Item} {nodes : List Node}
    (h : sequence known around index items d = .ok (nodes, e)) :
    scopesIn nodes = (d.namer.nameAll (Item.loopIds items)).1.map Scope.loop ∧
      e.namer = (d.namer.nameAll (Item.loopIds items)).2 := by
  induction items using Item.forest_induction generalizing around index nodes d e with
  | nil =>
      simp only [sequence] at h
      obtain ⟨rfl, rfl⟩ := pure_ok h
      simp [Namer.nameAll]
  | trial t r ih =>
      simp only [sequence] at h
      obtain ⟨n, b, hn, h⟩ := bind_ok h
      obtain ⟨ns, c, hr, h⟩ := bind_ok h
      obtain ⟨rfl, rfl⟩ := pure_ok h
      obtain ⟨rfl, hb⟩ := trial_ok hn
      have hi := ih hr
      rw [hb] at hi
      simpa only [trialNode, scopesIn_trial, Item.loopIds_trial] using hi
  | loop l items r ihItems ih =>
      simp only [sequence] at h
      obtain ⟨n, b, hn, h⟩ := bind_ok h
      obtain ⟨ns, c, hr, h⟩ := bind_ok h
      obtain ⟨rfl, rfl⟩ := pure_ok h
      obtain ⟨b', c', inner, hb, hc, hi, rfl⟩ := loop_ok hn
      obtain ⟨hscopes, hnamer⟩ := ihItems hi
      obtain ⟨hscopes', hnamer'⟩ := ih hr
      rw [hc, hnamer, hb] at hscopes' hnamer'
      rw [hb] at hscopes
      rw [Item.loopIds_loop, Namer.nameAll_cons, Namer.nameAll_append]
      refine ⟨?_, hnamer'⟩
      simp only [loopNode, loopPlan, scopesIn_loop, hscopes, hscopes', List.map_cons, List.map_append]

theorem scopesIn_eq_map {around : Surroundings} {index : Nat} {items : List Item}
    {nodes : List Node} (h : Compiled around index items nodes) :
    ∃ names : List String, scopesIn nodes = names.map Scope.loop := by
  induction h with
  | nil => exact ⟨[], by simp⟩
  | trial _ ih => simpa only [trialNode, scopesIn_trial] using ih
  | loop name _ _ ihInner ih =>
      obtain ⟨inner, hi⟩ := ihInner
      obtain ⟨rest, hr⟩ := ih
      exact ⟨name :: (inner ++ rest), by simp [loopNode, loopPlan, hi, hr]⟩

theorem root_not_mem_scopesIn {around : Surroundings} {index : Nat} {items : List Item}
    {nodes : List Node} (h : Compiled around index items nodes) : .root ∉ scopesIn nodes := by
  obtain ⟨names, hn⟩ := scopesIn_eq_map h
  simp [hn]

theorem scopesIn_eq {settings : Settings} {items : List Item} {t : Timeline}
    (h : compile settings items = .ok t) :
    scopesIn t.nodes = (Namer.start.nameAll (Item.loopIds items)).1.map Scope.loop := by
  obtain ⟨_, d, _, hd, hs, -⟩ := compile_ok h
  rw [(sequence_named hs).1, hd]

theorem scopesIn_named {settings : Settings} {items : List Item} {t : Timeline}
    (h : compile settings items = .ok t) :
    ∃ m : Namer, m.Sound ∧ scopesIn t.nodes = m.used.reverse.map Scope.loop := by
  refine ⟨(Namer.start.nameAll (Item.loopIds items)).2, Namer.sound_start.nameAll _, ?_⟩
  rw [scopesIn_eq h, Namer.nameAll_used]
  simp [Namer.start]

theorem scopesIn_nodup {settings : Settings} {items : List Item} {t : Timeline}
    (h : compile settings items = .ok t) : (scopesIn t.nodes).Nodup := by
  obtain ⟨m, hm, hs⟩ := scopesIn_named h
  rw [hs]
  exact (List.nodup_reverse.mpr hm.nodup).map fun _ _ => Scope.loop.inj

end Compile

end BranchingTimeline
