import BranchingTimeline.Proofs.Timeline.Checks

namespace BranchingTimeline

namespace Namer

/-- The name of an id if some names are used: the sanitized id, or, if that is used, the sanitized id
with the least number from 2 on that makes it unused. -/
inductive Names (used : List String) (id : ItemId) : String → Prop
  | plain (h : sanitize id ∉ used) : Names used id (sanitize id)
  | suffixed {n} (h : sanitize id ∈ used) (hn : 2 ≤ n) (hfree : numbered (sanitize id) n ∉ used)
      (hleast : ∀ k, 2 ≤ k → k < n → numbered (sanitize id) k ∈ used) :
      Names used id (numbered (sanitize id) n)

/-- Distinct words for some ids, each the name of its id if those before it are used. -/
structure NamesAll (ids : List ItemId) (names : List String) : Prop where
  length : names.length = ids.length
  nodup : names.Nodup
  words : ∀ name ∈ names, IsWord name
  each : ∀ k id name, ids[k]? = some id → names[k]? = some name → Names (names.take k) id name

variable {used used' : List String} {id : ItemId} {name : String}

theorem Names.congr (h : Names used id name) (hu : ∀ x, x ∈ used ↔ x ∈ used') : Names used' id name := by
  cases h with
  | plain h => exact .plain (by rwa [← hu])
  | suffixed h hn hfree hleast =>
      exact .suffixed ((hu _).mp h) hn (by rwa [← hu]) fun k hk hlt => (hu _).mp (hleast k hk hlt)

theorem Names.unique {name' : String} (h : Names used id name) (h' : Names used id name') :
    name = name' := by
  cases h with
  | plain h =>
      cases h' with
      | plain _ => rfl
      | suffixed h' _ _ _ => exact absurd h' h
  | @suffixed n h hn hfree hleast =>
      cases h' with
      | plain h' => exact absurd h h'
      | @suffixed n' _ hn' hfree' hleast' =>
          rcases Nat.lt_trichotomy n n' with hlt | rfl | hlt
          · exact absurd (hleast' n hn hlt) hfree
          · rfl
          · exact absurd (hleast n' hn' hlt) hfree'

theorem NamesAll.unique {ids : List ItemId} {names names' : List String} (h : NamesAll ids names)
    (h' : NamesAll ids names') : names = names' := by
  have hlength := h.length.trans h'.length.symm
  have htake : ∀ k ≤ names.length, names.take k = names'.take k := by
    intro k hk
    induction k with
    | zero => rfl
    | succ k ih =>
        have hlt' : k < names'.length := hlength ▸ hk
        have hid : ids[k]? = some (ids.get ⟨k, h.length ▸ hk⟩) := List.getElem?_eq_getElem _
        have hname := h.each k _ _ hid (List.getElem?_eq_getElem hk)
        have hname' := h'.each k _ _ hid (List.getElem?_eq_getElem hlt')
        rw [ih (Nat.le_of_lt hk)] at hname
        rw [List.take_succ_eq_append_getElem hk, List.take_succ_eq_append_getElem hlt',
          ih (Nat.le_of_lt hk), hname.unique hname']
  have hall := htake names.length (Nat.le_refl _)
  rwa [List.take_length, hlength, List.take_length] at hall

theorem freeNumber_least (used : List String) (base : String) :
    2 ≤ freeNumber used base 2 used.length ∧ freeNumber used base 2 used.length ≤ used.length + 2 ∧
      ∀ k, 2 ≤ k → k < freeNumber used base 2 used.length → numbered base k ∈ used := by
  obtain ⟨i, hi, he, hlow, -⟩ := freeNumber_spec used base 2 used.length
  rw [he]
  refine ⟨by omega, by omega, fun k hk hlt => ?_⟩
  have hmem := hlow (k - 2) (by omega)
  rwa [Nat.add_sub_cancel' hk] at hmem

/-- Fewer names than a signed number of 32 bits counts leave the search among such numbers. -/
theorem freeNumber_fits (used : List String) (base : String) (h : used.length + 2 < 2 ^ 31) {n : Nat}
    (hn : n ≤ freeNumber used base 2 used.length) : (Int32.ofNat n).toInt = n := by
  obtain ⟨-, hend, -⟩ := freeNumber_least used base
  exact Int32.toInt_ofNat_of_lt (by omega)

theorem nameFor_names (m : Namer) (id : ItemId) : Names m.used id (m.nameFor id).1 := by
  simp only [nameFor]
  split
  · rename_i h
    obtain ⟨hn, -, hleast⟩ := freeNumber_least m.used (sanitize id)
    exact .suffixed (by simpa using h) hn (numbered_freeNumber_not_mem _ _ _) hleast
  · rename_i h
    exact .plain (by simpa using h)

theorem length_nameAll (m : Namer) (ids : List ItemId) : (m.nameAll ids).1.length = ids.length := by
  induction ids generalizing m with
  | nil => rfl
  | cons id r ih => rw [nameAll_cons, List.length_cons, ih, List.length_cons]

theorem nameAll_each (m : Namer) {ids : List ItemId} {k : Nat} (hid : ids[k]? = some id)
    (hname : (m.nameAll ids).1[k]? = some name) :
    Names (m.used ++ (m.nameAll ids).1.take k) id name := by
  induction ids generalizing m k with
  | nil => cases hid
  | cons x r ih =>
      rw [nameAll_cons] at hname ⊢
      cases k with
      | zero =>
          obtain rfl := Option.some.inj hid
          obtain rfl := Option.some.inj hname
          simpa using m.nameFor_names x
      | succ k =>
          refine (ih (m.nameFor x).2 hid hname).congr fun y => ?_
          simp only [nameFor_used, List.take_succ_cons, List.mem_append, List.mem_cons]
          grind

theorem namesAll_start (ids : List ItemId) : NamesAll ids (start.nameAll ids).1 := by
  have hused : (start.nameAll ids).2.used = (start.nameAll ids).1.reverse :=
    (nameAll_used start ids).trans (List.append_nil _)
  have hsound := sound_start.nameAll ids
  refine ⟨length_nameAll start ids, ?_, fun name hname => ?_, fun k id name hid hname => ?_⟩
  · rw [← List.nodup_reverse, ← hused]
    exact hsound.nodup
  · exact hsound.words name (by rw [hused]; simpa using hname)
  · exact nameAll_each start hid hname

end Namer

open Node

/-- A namer's search for a free number ends, among the signed numbers of 32 bits unless there are more
names than these, and its names are distinct. The scopes of a compiled timeline have the names that one
namer gives to the loops of the tree. -/
theorem scopes_named :
    (∀ (used : List String) base, ∃ n, 2 ≤ n ∧ n ≤ used.length + 2 ∧ Namer.numbered base n ∉ used ∧
        (used.length + 2 < 2 ^ 31 → ∀ k ≤ n, (Int32.ofNat k).toInt = k)) ∧
      (∀ ids names, Namer.NamesAll ids names ↔ names = (Namer.start.nameAll ids).1) ∧
      ∀ settings items t, compile settings items = .ok t →
        ∃ names, Namer.NamesAll (Item.loopIds items) names ∧ scopesIn t.nodes = names.map Scope.loop := by
  refine ⟨fun used base => ?_, fun ids names => ?_, fun settings items t h => ?_⟩
  · obtain ⟨hn, hend, -⟩ := Namer.freeNumber_least used base
    exact ⟨_, hn, hend, Namer.numbered_freeNumber_not_mem used base 2, fun hused _ =>
      Namer.freeNumber_fits used base hused⟩
  · have hstart := Namer.namesAll_start ids
    exact ⟨fun h => h.unique hstart, fun h => h ▸ hstart⟩
  · exact ⟨_, Namer.namesAll_start _, Compile.scopesIn_eq h⟩

def lookalikes : List Item :=
  [.loop (.plain ⟨"a-b"⟩) [.loop (.plain ⟨"a_b_2"⟩) []], .loop (.plain ⟨"a.b"⟩) [],
    .loop (.plain ⟨""⟩) []]

theorem scopes_named_lookalikes :
    ∃ t, compile .default lookalikes = .ok t ∧
      Namer.NamesAll (Item.loopIds lookalikes) ["a_b", "a_b_2", "a_b_3", "item"] ∧
      scopesIn t.nodes = ["a_b", "a_b_2", "a_b_3", "item"].map Scope.loop := by
  obtain ⟨t, ht⟩ := Compile.exists_compile (show Compile.checksIn lookalikes = [] by decide) .default
  obtain ⟨-, hnames, htree⟩ := scopes_named
  obtain ⟨names, hall, hscopes⟩ := htree _ _ _ ht
  have hgiven : (Namer.start.nameAll (Item.loopIds lookalikes)).1 = ["a_b", "a_b_2", "a_b_3", "item"] := by
    decide +kernel
  obtain rfl := ((hnames _ _).mp hall).trans hgiven
  exact ⟨t, ht, hall, hscopes⟩

end BranchingTimeline
