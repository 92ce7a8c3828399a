import Mathlib.Data.Finset.Card
import Mathlib.Data.List.Nodup
import Mathlib.Data.Nat.ModEq
import BranchingTimeline.Stimuli

namespace BranchingTimeline

namespace Value

def kind (v : Value) : Json := v.json.unsignZeros

def zeroOf (negative : Bool) : Value := ⟨.num (.double ⟨negative, 0⟩ (Nat.mul_pos (by decide) (by decide))), rfl, rfl⟩

theorem alike_iff {a b : Value} : a.alike b = true ↔ a.kind = b.kind := decide_eq_true_iff

end Value

namespace Participant

def after (p : Participant) (k : Nat) : Participant := ⟨p.number + UInt32.ofNat k⟩

theorem zeroBased_after {p : Participant} {k : Nat} (hp : 1 ≤ p.number.toNat)
    (hk : p.number.toNat + k < UInt32.size) : (p.after k).zeroBased = p.zeroBased + k := by
  have hnumber : (p.after k).number.toNat = p.number.toNat + k := by
    have hsize : k < UInt32.size := by omega
    rw [after, UInt32.toNat_add, UInt32.toNat_ofNat_of_lt' hsize]
    exact Nat.mod_eq_of_lt hk
  rw [zeroBased, zeroBased, hnumber]
  omega

end Participant

namespace StimulusPlan

variable {s : StimulusPlan} {p : Participant}

section Categories

theorem mem_of_mem_distinct {l : List Value} {c : Value} (h : c ∈ distinct l) : c ∈ l := by
  induction l with
  | nil => cases h
  | cons a r ih =>
      rw [distinct, List.mem_cons] at h
      rcases h with rfl | h
      · exact List.mem_cons_self
      · exact List.mem_cons_of_mem _ (ih (List.mem_of_mem_filter h))

theorem kind_mem_distinct {l : List Value} {k : Json} :
    k ∈ (distinct l).map Value.kind ↔ k ∈ l.map Value.kind := by
  induction l with
  | nil => rfl
  | cons a r ih =>
      rw [distinct, List.map_cons, List.map_cons, List.mem_cons, List.mem_cons, ← ih]
      by_cases hk : k = a.kind
      · simp [hk]
      · have hunlike (d : Value) (hd : d.kind = k) : (!d.alike a) = true := by
          rw [Bool.not_eq_true', ← Bool.not_eq_true, Value.alike_iff, hd]
          exact hk
        simp only [hk, false_or, List.mem_map, List.mem_filter]
        constructor
        · rintro ⟨d, ⟨hd, -⟩, rfl⟩
          exact ⟨d, hd, rfl⟩
        · rintro ⟨d, hd, hkind⟩
          exact ⟨d, ⟨hd, hunlike d hkind⟩, hkind⟩

theorem nodup_distinct (l : List Value) : ((distinct l).map Value.kind).Nodup := by
  induction l with
  | nil => exact List.nodup_nil
  | cons a r ih =>
      rw [distinct, List.map_cons, List.nodup_cons]
      constructor
      · intro hmem
        obtain ⟨d, hd, hkind⟩ := List.mem_map.mp hmem
        have hunlike := List.of_mem_filter hd
        rw [Value.alike_iff.mpr hkind] at hunlike
        cases hunlike
      · exact ih.sublist (List.filter_sublist.map _)

def categoryCount (s : StimulusPlan) : Nat := (s.categoryData.map Value.kind).toFinset.card

theorem length_distinctCategories (s : StimulusPlan) :
    s.distinctCategories.length = s.categoryCount := by
  have hsame : ((distinct s.categoryData).map Value.kind).toFinset =
      (s.categoryData.map Value.kind).toFinset := by
    ext k
    rw [List.mem_toFinset, List.mem_toFinset, kind_mem_distinct]
  rw [categoryCount, ← hsame, List.toFinset_card_of_nodup (nodup_distinct _), List.length_map]
  rfl

def OfCategory (s : StimulusPlan) (c : Value) (i : Nat) : Prop :=
  ∃ v, s.categoryData[i]? = some v ∧ v.alike c = true

theorem mem_inCategory {c : Value} (h : s.categoryFor p = some c) {i : Nat} :
    i ∈ s.inCategory p ↔ i < s.rows.length ∧ s.OfCategory c i := by
  simp [inCategory, h, OfCategory, Option.any_eq_true]

theorem inCategory_sublist (s : StimulusPlan) (p : Participant) :
    (s.inCategory p).Sublist (List.range s.rows.length) := by
  simp only [inCategory]
  split
  · exact List.filter_sublist
  · exact List.Sublist.refl _

theorem selectIndices_of_unordered (h : s.orderFor p = none) : s.selectIndices p = s.inCategory p := by
  rw [selectIndices, h]

theorem categoryFor_eq (h : s.categories = true) :
    s.categoryFor p = s.distinctCategories[p.zeroBased % s.categoryCount]? := by
  rw [categoryFor, if_pos h, assigned, length_distinctCategories]

theorem inCategory_congr {q : Participant}
    (h : p.zeroBased % s.categoryCount = q.zeroBased % s.categoryCount) :
    s.inCategory p = s.inCategory q := by
  have hcategory : s.categoryFor p = s.categoryFor q := by
    simp only [categoryFor, assigned, length_distinctCategories, h]
  simp only [inCategory, hcategory]

theorem exists_categoryFor (h : s.categories = true) (hd : 1 ≤ s.categoryCount) (p : Participant) :
    ∃ c ∈ s.categoryData, s.categoryFor p = some c := by
  have hlt : p.zeroBased % s.categoryCount < s.distinctCategories.length := by
    rw [length_distinctCategories]
    exact Nat.mod_lt _ hd
  refine ⟨s.distinctCategories[p.zeroBased % s.categoryCount], ?_, ?_⟩
  · exact mem_of_mem_distinct (List.getElem_mem hlt)
  · rw [categoryFor_eq h, List.getElem?_eq_getElem hlt]

/-- Participants with a row in common have the same category. -/
theorem residue_eq_of_common {q : Participant} {i : Nat} (h : s.categories = true)
    (hd : 1 ≤ s.categoryCount) (hp : i ∈ s.inCategory p) (hq : i ∈ s.inCategory q) :
    p.zeroBased % s.categoryCount = q.zeroBased % s.categoryCount := by
  obtain ⟨c, -, hc⟩ := exists_categoryFor h hd p
  obtain ⟨e, -, he⟩ := exists_categoryFor h hd q
  obtain ⟨-, v, hv, hvc⟩ := (mem_inCategory hc).mp hp
  obtain ⟨-, w, hw, hwe⟩ := (mem_inCategory he).mp hq
  obtain rfl : v = w := Option.some.inj (hv.symm.trans hw)
  have hkind : c.kind = e.kind := (Value.alike_iff.mp hvc).symm.trans (Value.alike_iff.mp hwe)
  have hlt : p.zeroBased % s.categoryCount < (s.distinctCategories.map Value.kind).length := by
    rw [List.length_map, length_distinctCategories]
    exact Nat.mod_lt _ hd
  apply (List.getElem?_inj hlt (nodup_distinct s.categoryData)).mp
  rw [categoryFor_eq h] at hc he
  rw [List.getElem?_map, List.getElem?_map, hc, he, Option.map_some, Option.map_some, hkind]

theorem exists_residue {i : Nat} (h : s.categories = true) (hrow : i < s.rows.length)
    (hi : i < s.categoryData.length) :
    ∃ r < s.categoryCount, ∀ q : Participant, q.zeroBased % s.categoryCount = r →
      i ∈ s.inCategory q := by
  have hkind : s.categoryData[i].kind ∈ s.distinctCategories.map Value.kind :=
    kind_mem_distinct.mpr (List.mem_map_of_mem (List.getElem_mem hi))
  obtain ⟨r, hr, hrk⟩ := List.getElem_of_mem hkind
  rw [List.length_map] at hr
  refine ⟨r, by rwa [← length_distinctCategories], ?_⟩
  rintro q rfl
  have hc := categoryFor_eq (p := q) h
  rw [List.getElem?_eq_getElem hr] at hc
  refine (mem_inCategory hc).mpr ⟨hrow, _, List.getElem?_eq_getElem hi, ?_⟩
  rw [Value.alike_iff, ← hrk, List.getElem_map]

theorem exists_rest (a : Nat) {r d : Nat} (h : r < d) : ∃ k < d, (a + k) % d = r := by
  have hd : 0 < d := by omega
  have ha : a % d < d := Nat.mod_lt a hd
  refine ⟨(r + (d - a % d)) % d, Nat.mod_lt _ hd, ?_⟩
  have hsum : a % d + (r + (d - a % d)) = r + d := by omega
  rw [Nat.add_mod_mod, ← Nat.mod_add_mod, hsum, Nat.add_mod_right, Nat.mod_eq_of_lt h]

/-- As many participants in a row as there are categories share the rows of the table out among them.
Each has the rows of one category in their order, no row goes to two of them, and none is left but those
that have no category. The next participants begin again. -/
theorem categories_partition {d : Nat} (hcategories : s.categories = true)
    (horders : s.orders = false) (hd : s.categoryCount = d) (hpos : 1 ≤ d)
    (hp : 1 ≤ p.number.toNat) (hlast : p.number.toNat + d < UInt32.size) :
    (∀ j < d, ∀ k < d, j ≠ k →
      (s.selectIndices (p.after j)).Disjoint (s.selectIndices (p.after k))) ∧
    (∀ k < d, (s.selectIndices (p.after k)).Pairwise (· < ·) ∧
      ∃ c ∈ s.categoryData, ∀ i, i ∈ s.selectIndices (p.after k) ↔
        i < s.rows.length ∧ s.OfCategory c i) ∧
    (∀ i, (∃ k < d, i ∈ s.selectIndices (p.after k)) ↔
      i < s.rows.length ∧ i < s.categoryData.length) ∧
    s.selectIndices (p.after d) = s.selectIndices p ∧
    s.selectIndices ⟨0⟩ = s.selectIndices ⟨1⟩ := by
  subst hd
  have hselect (q : Participant) : s.selectIndices q = s.inCategory q := by
    apply selectIndices_of_unordered
    simp [orderFor, horders]
  have hzero : ∀ k ≤ s.categoryCount, (p.after k).zeroBased = p.zeroBased + k := by
    intro k hk
    exact Participant.zeroBased_after hp (by omega)
  simp only [hselect]
  refine ⟨?_, ?_, ?_, ?_, ?_⟩
  · intro j hj k hk hne i hij hik
    have hrest := residue_eq_of_common hcategories hpos hij hik
    rw [hzero j hj.le, hzero k hk.le] at hrest
    exact hne (Nat.ModEq.eq_of_lt_of_lt (Nat.ModEq.add_left_cancel' _ hrest) hj hk)
  · intro k hk
    obtain ⟨c, hmem, hc⟩ := exists_categoryFor hcategories hpos (p.after k)
    refine ⟨?_, c, hmem, fun i => mem_inCategory hc⟩
    exact List.pairwise_lt_range.sublist (inCategory_sublist s _)
  · intro i
    constructor
    · rintro ⟨k, hk, hi⟩
      obtain ⟨c, -, hc⟩ := exists_categoryFor hcategories hpos (p.after k)
      obtain ⟨hrow, v, hv, -⟩ := (mem_inCategory hc).mp hi
      exact ⟨hrow, (List.getElem?_eq_some_iff.mp hv).1⟩
    · rintro ⟨hrow, hi⟩
      obtain ⟨r, hr, hshown⟩ := exists_residue hcategories hrow hi
      obtain ⟨k, hk, hrest⟩ := exists_rest p.zeroBased hr
      refine ⟨k, hk, hshown _ ?_⟩
      rw [hzero k hk.le, hrest]
  · apply inCategory_congr
    rw [hzero _ le_rfl, Nat.add_mod_right]
  · rfl

def coloured : StimulusPlan where
  rows := List.replicate 7 .empty
  orders := false
  stimuliOrders := []
  categories := true
  categoryData := [.str "red", .zeroOf false, .str "blue", .zeroOf true, .str "red", .str "blue"]

theorem categories_partition_coloured :
    coloured.categoryCount = 3 ∧
      (coloured.selectIndices ⟨7⟩, coloured.selectIndices ⟨8⟩, coloured.selectIndices ⟨9⟩) =
        ([0, 4], [1, 3], [2, 5]) ∧
      coloured.selectIndices ⟨10⟩ = [0, 4] := by
  have hcount : coloured.categoryCount = 3 := by decide
  obtain ⟨-, -, -, hagain, -⟩ := categories_partition (s := coloured) (p := ⟨7⟩) rfl rfl hcount
    (by decide) (by decide) (by decide)
  exact ⟨hcount, by decide, hagain.trans (by decide)⟩

end Categories

section Orders

def withoutOrders (s : StimulusPlan) : StimulusPlan := { s with orders := false }

theorem selectIndices_withoutOrders (s : StimulusPlan) (p : Participant) :
    s.withoutOrders.selectIndices p = s.inCategory p :=
  selectIndices_of_unordered rfl

theorem selectIndices_of_ordered {order : List UInt64} (h : s.orderFor p = some order) :
    s.selectIndices p = order.filterMap fun position => (s.inCategory p)[position.toNat]? := by
  rw [selectIndices, h]

theorem orderFor_eq_none (h : s.orders = false ∨ s.stimuliOrders = []) : s.orderFor p = none := by
  rcases h with h | h <;> simp [orderFor, assigned, h]

theorem exists_orderFor (h : s.orders = true) (hne : s.stimuliOrders ≠ []) (p : Participant) :
    ∃ order, s.stimuliOrders[p.zeroBased % s.stimuliOrders.length]? = some order ∧
      s.orderFor p = some order := by
  have hlt : p.zeroBased % s.stimuliOrders.length < s.stimuliOrders.length :=
    Nat.mod_lt _ (List.length_pos_iff.mpr hne)
  refine ⟨_, List.getElem?_eq_getElem hlt, ?_⟩
  rw [orderFor, if_pos h, assigned, List.getElem?_eq_getElem hlt]

theorem nodup_inCategory (s : StimulusPlan) (p : Participant) : (s.inCategory p).Nodup :=
  List.nodup_range.sublist (inCategory_sublist s p)

theorem selectIndices_subset (s : StimulusPlan) (p : Participant) :
    s.selectIndices p ⊆ s.inCategory p := by
  intro i hi
  cases horder : s.orderFor p with
  | none => rwa [selectIndices_of_unordered horder] at hi
  | some order =>
      rw [selectIndices_of_ordered horder, List.mem_filterMap] at hi
      obtain ⟨position, -, hposition⟩ := hi
      exact List.mem_of_getElem? hposition

theorem lt_of_mem_selectIndices {i : Nat} (h : i ∈ s.selectIndices p) : i < s.rows.length :=
  List.mem_range.mp ((inCategory_sublist s p).subset (selectIndices_subset s p h))

theorem map_some_filterMap {α β : Type} {f : α → Option β} {l : List α}
    (h : ∀ a ∈ l, (f a).isSome = true) : (l.filterMap f).map some = l.map f := by
  induction l with
  | nil => rfl
  | cons a l ih =>
      rw [List.forall_mem_cons] at h
      obtain ⟨b, hb⟩ := Option.isSome_iff_exists.mp h.1
      rw [List.filterMap_cons_some hb, List.map_cons, List.map_cons, ih h.2, hb]

theorem nodup_pick {own : List Nat} {order : List UInt64} (hown : own.Nodup) (h : order.Nodup) :
    (order.filterMap fun position => own[position.toNat]?).Nodup := by
  refine h.filterMap ?_
  intro a b i ha hb
  obtain ⟨hlt, -⟩ := List.getElem?_eq_some_iff.mp ha
  apply UInt64.toNat_inj.mp
  exact (List.getElem?_inj hlt hown).mp (ha.trans hb.symm)

theorem pick_perm {own : List Nat} {order : List UInt64}
    (h : (order.map UInt64.toNat).Perm (List.range own.length)) :
    (order.filterMap fun position => own[position.toNat]?).Perm own := by
  have hall : (List.range own.length).filterMap (own[·]?) = own := by
    apply List.map_injective_iff.mpr (Option.some_injective Nat)
    rw [map_some_filterMap fun i hi => by simpa using List.mem_range.mp hi]
    exact List.ext_getElem (by simp) (by simp)
  have hpick := h.filterMap (own[·]?)
  rwa [hall, List.filterMap_map] at hpick

/-- An order rearranges the rows that its participant has without it: it lists their positions, and
positions beyond them are passed over. Whatever the tables, only rows of the table are shown, and only
those of the participant's category if there is one. -/
theorem orders_rearrange (s : StimulusPlan) (p : Participant) :
    (s.orders = true → s.stimuliOrders ≠ [] →
      ∃ order, s.stimuliOrders[p.zeroBased % s.stimuliOrders.length]? = some order ∧
        s.orderFor p = some order ∧
        s.selectIndices p =
          order.filterMap fun position => (s.withoutOrders.selectIndices p)[position.toNat]?) ∧
    (s.orders = false ∨ s.stimuliOrders = [] →
      s.orderFor p = none ∧ s.selectIndices p = s.withoutOrders.selectIndices p) ∧
    (∀ i ∈ s.selectIndices p,
      i < s.rows.length ∧ ∀ c, s.categoryFor p = some c → s.OfCategory c i) ∧
    (s.materialize p).map some = (s.selectIndices p).map (s.rows[·]?) ∧
    ∀ order, s.orderFor p = some order →
      (order.Nodup → (s.selectIndices p).Nodup) ∧
      ((order.map UInt64.toNat).Perm (List.range (s.withoutOrders.selectIndices p).length) →
        (s.selectIndices p).Perm (s.withoutOrders.selectIndices p) ∧
          (s.materialize p).Perm (s.withoutOrders.materialize p)) := by
  rw [selectIndices_withoutOrders]
  refine ⟨?_, ?_, ?_, ?_, ?_⟩
  · intro horders hne
    obtain ⟨order, hget, horder⟩ := exists_orderFor horders hne p
    exact ⟨order, hget, horder, selectIndices_of_ordered horder⟩
  · intro h
    have hnone := orderFor_eq_none (p := p) h
    exact ⟨hnone, selectIndices_of_unordered hnone⟩
  · intro i hi
    refine ⟨lt_of_mem_selectIndices hi, ?_⟩
    intro c hc
    exact ((mem_inCategory hc).mp (selectIndices_subset s p hi)).2
  · apply map_some_filterMap
    intro i hi
    simpa using lt_of_mem_selectIndices hi
  · intro order horder
    rw [selectIndices_of_ordered horder]
    refine ⟨nodup_pick (nodup_inCategory s p), ?_⟩
    intro hperm
    have hpick := pick_perm hperm
    refine ⟨hpick, ?_⟩
    rw [materialize, materialize, selectIndices_withoutOrders, selectIndices_of_ordered horder]
    exact hpick.filterMap _

def shuffled : StimulusPlan := { coloured with orders := true, stimuliOrders := [[0, 5, 1, 1], [1, 0]] }

theorem orders_rearrange_shuffled :
    shuffled.orderFor ⟨1⟩ = some [0, 5, 1, 1] ∧ shuffled.selectIndices ⟨1⟩ = [0, 4, 4] ∧
      shuffled.orderFor ⟨2⟩ = some [1, 0] ∧
        (shuffled.selectIndices ⟨2⟩).Perm (shuffled.withoutOrders.selectIndices ⟨2⟩) := by
  have horder : shuffled.orderFor ⟨2⟩ = some [1, 0] := by decide
  obtain ⟨-, -, -, -, hordered⟩ := orders_rearrange shuffled ⟨2⟩
  exact ⟨by decide, by decide, horder, ((hordered _ horder).2 (by decide)).1⟩

end Orders

end StimulusPlan

end BranchingTimeline
