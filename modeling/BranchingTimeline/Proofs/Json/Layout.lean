import Mathlib
import BranchingTimeline.Json.Tag

namespace BranchingTimeline

namespace SortedMap

variable {κ α : Type} [Key κ] {k : κ} {v : α} {l : List (κ × α)} {m : SortedMap κ α}

theorem insertEntry_perm (h : k ∉ l.map Prod.fst) : (insertEntry k v l).Perm ((k, v) :: l) := by
  induction l with
  | nil => exact .refl _
  | cons a l ih =>
      rw [List.map_cons, List.mem_cons, not_or] at h
      simp only [insertEntry]
      split
      · exact .refl _
      · split
        · exact absurd (Key.text_inj ‹_›) h.1
        · exact ((ih h.2).cons a).trans (.swap _ _ _)

theorem insertMany_perm (h : ((m.entries ++ l).map Prod.fst).Nodup) :
    (m.insertMany l).entries.Perm (m.entries ++ l) := by
  induction l generalizing m with
  | nil => simp [insertMany]
  | cons e l ih =>
      have hmiddle : (m.entries ++ e :: l).Perm ((e :: m.entries) ++ l) := List.perm_middle
      rw [(hmiddle.map _).nodup_iff] at h
      have he : (m.insert e.1 e.2).entries.Perm (e :: m.entries) := by
        refine insertEntry_perm fun hm => ?_
        rw [List.cons_append, List.map_cons, List.nodup_cons, List.map_append] at h
        exact h.1 (List.mem_append_left _ hm)
      have hperm : ((m.insert e.1 e.2).entries ++ l).Perm ((e :: m.entries) ++ l) := he.append_right l
      exact (ih ((hperm.map _).nodup_iff.mpr h)).trans (hperm.trans hmiddle.symm)

theorem ofList_perm (h : (l.map Prod.fst).Nodup) : (ofList l).entries.Perm l :=
  insertMany_perm (m := empty) h

theorem keys_nodup (m : SortedMap κ α) : (m.entries.map Prod.fst).Nodup := by
  rw [List.Nodup, List.pairwise_map]
  refine m.ascending.imp ?_
  intro a b hlt he
  rw [he] at hlt
  exact String.lt_irrefl _ hlt

theorem ofList_of_perm (h : l.Perm m.entries) : ofList l = m := by
  apply eq_of_entries
  have hperm := (ofList_perm ((h.map _).nodup_iff.mpr m.keys_nodup)).trans h
  refine hperm.eq_of_pairwise ?_ (ofList l).ascending m.ascending
  intro a b _ _ hab hba
  exact absurd hba (String.lt_asymm hab)

theorem lookup_eq_some (h : (l.map Prod.fst).Nodup) (hm : (k, v) ∈ l) : lookup k l = some v := by
  induction l with
  | nil => cases hm
  | cons e l ih =>
      rw [List.map_cons, List.nodup_cons] at h
      rw [lookup]
      rcases List.mem_cons.mp hm with rfl | hm
      · rw [if_pos rfl]
      · rw [if_neg, ih h.2 hm]
        intro he
        obtain rfl := Key.text_inj he
        exact h.1 (List.mem_map.mpr ⟨_, hm, rfl⟩)

theorem lookup_cons_string (name : String) (e : String × α) (l : List (String × α)) :
    lookup name (e :: l) = if e.1 = name then some e.2 else lookup name l := by
  by_cases h : e.1 = name
  · rw [if_pos h, lookup]
    exact if_pos h.symm
  · rw [if_neg h, lookup]
    exact if_neg fun he => h he.symm

theorem lookup_eq_none (h : k ∉ l.map Prod.fst) : lookup k l = none := by
  induction l with
  | nil => rfl
  | cons e l ih =>
      rw [List.map_cons, List.mem_cons, not_or] at h
      rw [lookup, if_neg fun he => h.1 (Key.text_inj he), ih h.2]

theorem mem_of_lookup (h : lookup k l = some v) : (k, v) ∈ l := by
  induction l with
  | nil => cases h
  | cons e l ih =>
      rw [lookup] at h
      split at h
      · rename_i hk
        obtain rfl := Key.text_inj hk
        obtain rfl := Option.some.inj h
        exact List.mem_cons_self
      · exact List.mem_cons_of_mem e (ih h)

theorem get?_eq_some_iff : m.get? k = some v ↔ (k, v) ∈ m.entries :=
  ⟨mem_of_lookup, lookup_eq_some m.keys_nodup⟩

theorem get?_insertMany (h : (l.map Prod.fst).Nodup) :
    (m.insertMany l).get? k = (lookup k l).or (m.get? k) := by
  induction l generalizing m with
  | nil => rfl
  | cons e l ih =>
      rw [List.map_cons, List.nodup_cons] at h
      have hrest : (m.insertMany (e :: l)).get? k = (lookup k l).or ((m.insert e.1 e.2).get? k) := ih h.2
      rw [hrest, get?_insert, lookup]
      split
      · rename_i hk
        obtain rfl := Key.text_inj hk
        rw [lookup_eq_none h.1, Option.none_or, Option.some_or]
      · rfl

/-- What is left of a map whose entries others with the same keys have replaced. -/
def Overwritten (m new out : SortedMap κ α) : Prop := ∀ k, out.get? k = (new.get? k).or (m.get? k)

theorem overwritten_union (m new : SortedMap κ α) : m.Overwritten new (m.union new) :=
  fun _ => get?_insertMany new.keys_nodup

end SortedMap

theorem mapM_eq_filterMap {α β : Type} {g : α → Option β} {l : List α} (h : ∀ a ∈ l, (g a).isSome = true) :
    l.mapM g = some (l.filterMap g) := by
  induction l with
  | nil => rfl
  | cons a l ih =>
      obtain ⟨b, hb⟩ := Option.isSome_iff_exists.mp (h a List.mem_cons_self)
      rw [List.mapM_cons, ih fun c hc => h c (List.mem_cons_of_mem a hc), hb, List.filterMap_cons, hb]
      rfl

theorem mapM_eq_some {α β : Type} {g : α → Option β} {l : List α} {r : List β}
    (h : List.Forall₂ (fun a b => g a = some b) l r) : l.mapM g = some r := by
  induction h with
  | nil => rfl
  | cons hb _ ih =>
      rw [List.mapM_cons, hb, ih]
      rfl

namespace Json

/-- A way to lay values out: the members of an object, if their names differ, stand in any order, and
nothing else is changed. -/
structure Layout (f : Json → Json) : Prop where
  null : f .null = .null
  bool (b : Bool) : f (.bool b) = .bool b
  num (n : Number) : f (.num n) = .num n
  str (s : String) : f (.str s) = .str s
  arr (items : List Json) : f (.arr items) = .arr (items.map f)
  obj (members : List (String × Json)) (h : (members.map Prod.fst).Nodup) :
    ∃ laid, f (.obj members) = .obj laid ∧ laid.Perm (members.map fun e => (e.1, f e.2))
  canonical (j : Json) : (f j).canonical = j.canonical
  readable {j : Json} (h : j.readable = true) : (f j).readable = true

theorem layout_id : Layout id where
  null := rfl
  bool _ := rfl
  num _ := rfl
  str _ := rfl
  arr items := by rw [List.map_id]; rfl
  obj members _ := ⟨members, rfl, by simp⟩
  canonical _ := rfl
  readable h := h

theorem canonicalItems_eq (items : List Json) : canonicalItems items = items.map canonical := by
  induction items with
  | nil => rfl
  | cons j r ih => rw [canonicalItems, ih, List.map_cons]

theorem canonicalMembers_eq (members : List (String × Json)) :
    canonicalMembers members = members.map fun e => (e.1, e.2.canonical) := by
  induction members with
  | nil => rfl
  | cons e r ih => rw [canonicalMembers, ih, List.map_cons]

theorem layout_canonical : Layout canonical where
  null := rfl
  bool _ := rfl
  num _ := rfl
  str _ := rfl
  arr items := by rw [canonical, canonicalItems_eq]
  obj members h := by
    refine ⟨_, rfl, ?_⟩
    rw [canonicalMembers_eq]
    refine SortedMap.ofList_perm ?_
    rw [List.map_map]
    exact h
  canonical := canonical_canonical
  readable h := readable_canonical _ h

@[simp] theorem readable_null : Json.null.readable = true := rfl

@[simp] theorem readable_bool (b : Bool) : (Json.bool b).readable = true := rfl

@[simp] theorem readable_num (n : Number) : (Json.num n).readable = true := rfl

@[simp] theorem readable_str (s : String) : (Json.str s).readable = true := rfl

@[simp] theorem readable_arr (items : List Json) :
    (Json.arr items).readable = true ↔ ∀ j ∈ items, j.readable = true := by
  rw [readable]
  induction items with
  | nil => simp [readableItems]
  | cons j r ih => simp [readableItems, ih]

@[simp] theorem readable_obj (members : List (String × Json)) :
    (Json.obj members).readable = true ↔ ∀ e ∈ members, e.2.readable = true := by
  rw [readable, readableMembers_iff]

@[simp] theorem readable_record (members : List (String × Option Json)) :
    (record members).readable = true ↔ ∀ e ∈ members, ∀ j ∈ e.2, j.readable = true := by
  simp only [record, readable_obj, List.mem_filterMap, Option.map_eq_some_iff]
  constructor
  · intro h e he j hj
    exact h (e.1, j) ⟨e, he, j, hj, rfl⟩
  · rintro h _ ⟨e, he, j, hj, rfl⟩
    exact h e he j hj

theorem orElse_some {α : Type} (a : α) (read : Json → Option α) (j : Json) :
    orElse a read (some j) = read j := rfl

namespace Member

@[simp] theorem name_required (name : String) : (required name).name = name := rfl

@[simp] theorem name_default (name : String) : (default name).name = name := rfl

@[simp] theorem absence_default (name : String) : (default name).absence = .default := rfl

def Apart (shape : List Member) : Prop :=
  shape.Pairwise fun a b => a.accepts b.name = false ∧ b.accepts a.name = false

instance (shape : List Member) : Decidable (Apart shape) :=
  inferInstanceAs (Decidable (List.Pairwise _ _))

def Fits : List Member → List (String × Option Json) → Prop
  | [], [] => True
  | m :: shape, e :: members => (e.1 = m.name ∧ (e.2 = none → m.absence = .default)) ∧ Fits shape members
  | _, _ => False

variable {f : Json → Json} {shape : List Member} {members : List (String × Option Json)}

def laidOut (f : Json → Json) (members : List (String × Option Json)) : List (String × Json) :=
  members.filterMap fun e => e.2.map fun j => (e.1, f j)

theorem map_fst_laidOut (hf : Fits shape members) :
    ((laidOut f members).map Prod.fst).Sublist (shape.map Member.name) := by
  induction shape generalizing members with
  | nil =>
      cases members with
      | nil => exact .slnil
      | cons e members => cases hf
  | cons m shape ih =>
      cases members with
      | nil => cases hf
      | cons e members =>
          obtain ⟨⟨hname, -⟩, hf⟩ := hf
          obtain ⟨name, j⟩ := e
          obtain rfl : name = m.name := hname
          cases j with
          | none => exact (ih hf).cons _
          | some j => exact (ih hf).cons_cons _

theorem map_laidOut (members : List (String × Option Json)) :
    (laidOut id members).map (fun w => (w.1, f w.2)) = laidOut f members := by
  rw [laidOut, List.map_filterMap, laidOut]
  congr 1
  funext e
  cases e.2 <;> rfl

theorem laidOut_cons (e : String × Option Json) (members : List (String × Option Json)) :
    laidOut f (e :: members) = (e.2.map fun j => (e.1, f j)).toList ++ laidOut f members := by
  rw [laidOut, List.filterMap_cons]
  cases e.2 <;> rfl

theorem filter_laidOut (ha : Apart shape) (hf : Fits shape members) (before : List (String × Json))
    (hb : ∀ m ∈ shape, ∀ w ∈ before, m.accepts w.1 = false) :
    List.Forall₂ (fun m e => (before ++ laidOut f members).filter (fun w => m.accepts w.1) =
      (e.2.map fun j => (e.1, f j)).toList) shape members := by
  induction shape generalizing members before with
  | nil =>
      cases members with
      | nil => exact .nil
      | cons e members => cases hf
  | cons m shape ih =>
      cases members with
      | nil => cases hf
      | cons e members =>
          obtain ⟨⟨hname, -⟩, hf⟩ := hf
          obtain ⟨hm, ha⟩ := List.pairwise_cons.mp ha
          have hown : ∀ w ∈ (e.2.map fun j => (e.1, f j)).toList, w.1 = m.name := by
            intro w hw
            obtain ⟨j, -, rfl⟩ := Option.map_eq_some_iff.mp (Option.mem_toList.mp hw)
            exact hname
          have hlater : ∀ w ∈ laidOut f members, m.accepts w.1 = false := by
            intro w hw
            have hmem := (map_fst_laidOut hf).subset (List.mem_map_of_mem hw)
            obtain ⟨b, hb, he⟩ := List.mem_map.mp hmem
            rw [← he]
            exact (hm b hb).1
          refine .cons ?_ ?_
          · have hbefore : before.filter (fun w => m.accepts w.1) = [] :=
              List.filter_eq_nil_iff.mpr (by simpa using hb m List.mem_cons_self)
            have hrest : (laidOut f members).filter (fun w => m.accepts w.1) = [] :=
              List.filter_eq_nil_iff.mpr (by simpa using hlater)
            have hself : (e.2.map fun j => (e.1, f j)).toList.filter (fun w => m.accepts w.1) =
                (e.2.map fun j => (e.1, f j)).toList :=
              List.filter_eq_self.mpr fun w hw => by simp [accepts, hown w hw]
            rw [laidOut_cons, List.filter_append, List.filter_append, hbefore, hself, hrest,
              List.nil_append, List.append_nil]
          · rw [laidOut_cons, ← List.append_assoc]
            refine ih ha hf _ ?_
            intro b hmem w hw
            rcases List.mem_append.mp hw with hw | hw
            · exact hb b (List.mem_cons_of_mem m hmem) w hw
            · rw [hown w hw]
              exact (hm b hmem).2

theorem names_nodup (ha : Apart shape) : (shape.map Member.name).Nodup := by
  rw [List.Nodup, List.pairwise_map]
  refine ha.imp ?_
  rintro a b ⟨hab, -⟩ he
  simp [accepts, he] at hab

theorem find_of_filter {m : Member} {e : String × Option Json} {laid : List (String × Json)}
    (h : laid.filter (fun w => m.accepts w.1) = (e.2.map fun j => (e.1, f j)).toList)
    (ha : e.2 = none → m.absence = .default) : m.find laid = some (e.2.map f) := by
  obtain ⟨name, j⟩ := e
  cases j with
  | none => simp [find, show laid.filter (fun w => m.accepts w.1) = [] from h, ha]
  | some j => simp [find, show laid.filter (fun w => m.accepts w.1) = [(name, f j)] from h]

theorem find_laidOut (ha : Apart shape) (hf : Fits shape members) {laid : List (String × Json)}
    (hp : laid.Perm (laidOut f members)) :
    List.Forall₂ (fun m e => m.find laid = some (e.2.map f)) shape members := by
  have hfilter := filter_laidOut (f := f) ha hf [] (by simp)
  rw [List.nil_append] at hfilter
  generalize laidOut f members = written at hfilter hp
  induction hfilter with
  | nil => exact .nil
  | @cons m e shape members h _ ih =>
      obtain ⟨⟨-, habsent⟩, hf⟩ := hf
      refine .cons (find_of_filter ?_ habsent) (ih (List.pairwise_cons.mp ha).2 hf)
      have hperm := hp.filter fun w => m.accepts w.1
      rw [h] at hperm
      cases hj : e.2 with
      | none =>
          rw [hj] at hperm
          exact hperm.eq_nil
      | some j =>
          rw [hj] at hperm
          exact hperm.eq_singleton

end Member

variable {f : Json → Json} {shape : List Member} {members : List (String × Option Json)}

theorem Layout.record (hl : Layout f) (ha : Member.Apart shape) (hf : Member.Fits shape members) :
    ∃ laid, f (record members) = .obj laid ∧ (laid.map Prod.fst).Nodup ∧
      laid.Perm (Member.laidOut f members) ∧ slots shape (.obj laid) = some (members.map fun e => e.2.map f) := by
  have hnodup : ∀ g : Json → Json, ((Member.laidOut g members).map Prod.fst).Nodup := fun g =>
    (Member.names_nodup ha).sublist (Member.map_fst_laidOut hf)
  obtain ⟨laid, hlaid, hp⟩ := hl.obj (Member.laidOut id members) (hnodup id)
  rw [Member.map_laidOut] at hp
  refine ⟨laid, hlaid, (hp.map _).nodup_iff.mpr (hnodup f), hp, mapM_eq_some ?_⟩
  exact List.forall₂_map_right_iff.mpr (Member.find_laidOut ha hf hp)

theorem Layout.slots_record (hl : Layout f) (ha : Member.Apart shape) (hf : Member.Fits shape members) :
    slots shape (f (Json.record members)) = some (members.map fun e => e.2.map f) := by
  obtain ⟨laid, hlaid, -, -, hs⟩ := hl.record ha hf
  rw [hlaid, hs]

theorem obj_eq_record (members : List (String × Json)) :
    Json.obj members = Json.record (members.map fun e => (e.1, some e.2)) := by
  rw [Json.record, List.filterMap_map]
  exact congrArg Json.obj (List.filterMap_some).symm

theorem Member.fits_of_names {members : List (String × Json)}
    (h : members.map Prod.fst = shape.map Member.name) :
    Member.Fits shape (members.map fun e => (e.1, some e.2)) := by
  induction shape generalizing members with
  | nil =>
      obtain rfl := List.map_eq_nil_iff.mp h
      trivial
  | cons m shape ih =>
      obtain ⟨e, members, rfl, he, hm⟩ := List.map_eq_cons_iff.mp h
      exact ⟨⟨he, nofun⟩, ih hm⟩

theorem Layout.slots_obj (hl : Layout f) {members : List (String × Json)} (ha : Member.Apart shape)
    (h : members.map Prod.fst = shape.map Member.name) :
    slots shape (f (.obj members)) = some (members.map fun e => some (f e.2)) := by
  rw [obj_eq_record, hl.slots_record ha (Member.fits_of_names h), List.map_map]
  rfl

theorem apart_tagged {tag content : String} (h : tag ≠ content) :
    Member.Apart [.required tag, .default content] := by
  simp [Member.Apart, Member.accepts, Member.required, Member.default, h, h.symm]

theorem Layout.tagged_alone (hl : Layout f) (r : Reading) (names : List String) {tag content : String}
    (h : tag ≠ content) {s : String} :
    tagged r names tag content (f (.obj [(tag, .str s)])) = some (s, none) := by
  have hfits : Member.Fits [.required tag, .default content] [(tag, some (.str s)), (content, none)] := by
    simp [Member.Fits]
  obtain ⟨laid, hlaid, -, -, hs⟩ := hl.record (apart_tagged h) hfits
  rw [show f (.obj [(tag, .str s)]) = .obj laid from hlaid]
  simp only [tagged, hs, List.map, Option.map_some, Option.map_none, hl.str, toTag, Option.bind_eq_bind,
    Option.bind_some]
  rfl

theorem Layout.tagged_content (hl : Layout f) (r : Reading) (names : List String) (tag content : String)
    (h : tag ≠ content) (s : String) {j : Json} (hj : j.readable = true) :
    ∃ reading, tagged r names tag content (f (.obj [(tag, .str s), (content, j)])) =
      some (s, some (reading, f j)) := by
  have hfits : Member.Fits [.required tag, .default content] [(tag, some (.str s)), (content, some j)] := by
    simp [Member.Fits]
  obtain ⟨laid, hlaid, -, -, hs⟩ := hl.record (apart_tagged h) hfits
  rw [show f (.obj [(tag, .str s), (content, j)]) = .obj laid from hlaid]
  simp only [tagged, hs, List.map, Option.map_some, hl.str, toTag, Option.bind_eq_bind, Option.bind_some,
    hl.readable hj, if_true]
  cases precedes content tag laid with
  | true => exact ⟨.setAside, rfl⟩
  | false => exact ⟨r, rfl⟩

/-- Of a labelled record both the label and the record are read, whatever the order of the members. -/
theorem Layout.labelled (hl : Layout f) (r : Reading) (names : List String) (tag s : String)
    (shape : List Member) {members : List (String × Json)} (ha : Member.Apart (.required tag :: shape))
    (h : members.map Prod.fst = shape.map Member.name) (hr : ∀ e ∈ members, e.2.readable = true) :
    ∃ laid, f (.obj ((tag, .str s) :: members)) = .obj laid ∧ (laid.map Prod.fst).Nodup ∧
      (∀ e ∈ members, (e.1, f e.2) ∈ laid) ∧
      Json.labelled r names tag (.obj laid) = some (s, .obj laid) ∧
      slots shape (.obj laid) = some (members.map fun e => some (f e.2)) := by
  have hnames : ((tag, Json.str s) :: members).map Prod.fst = (Member.required tag :: shape).map Member.name :=
    congrArg (tag :: ·) h
  obtain ⟨laid, hlaid, hnodup, hp, hs⟩ := hl.record ha (Member.fits_of_names hnames)
  rw [← obj_eq_record] at hlaid
  have hreadable : (Json.obj laid).readable = true := by
    rw [← hlaid]
    exact hl.readable (by simpa using hr)
  have hmem : ∀ e ∈ members, (e.1, f e.2) ∈ laid := by
    intro e he
    refine hp.mem_iff.mpr (List.mem_filterMap.mpr ⟨(e.1, some e.2), ?_, rfl⟩)
    exact List.mem_map_of_mem (List.mem_cons_of_mem _ he)
  rw [slots, List.mapM_cons] at hs
  obtain ⟨t, ht, hs⟩ := Option.bind_eq_some_iff.mp hs
  obtain ⟨rest, hrest, hs⟩ := Option.bind_eq_some_iff.mp hs
  obtain ⟨rfl, rfl⟩ := List.cons.inj (Option.some.inj hs)
  refine ⟨laid, hlaid, hnodup, hmem, ?_, by rw [slots, hrest, List.map_map]; rfl⟩
  have htag : slots [.required tag] (.obj laid) = some [some (.str s)] := by
    refine mapM_eq_some (.cons (ht.trans ?_) .nil)
    exact congrArg (fun j => some (some j)) (hl.str s)
  simp only [Json.labelled, hreadable, htag, toName, Bool.not_true, Bool.false_eq_true, if_false,
    Option.bind_eq_bind, Option.bind_some]
  rfl

/-- A value that is readable, and is read as `a` in whatever way it is laid out. -/
structure Denotes {α : Type} (read : Json → Option α) (j : Json) (a : α) : Prop where
  readable : j.readable = true
  reads {f : Json → Json} (hl : Layout f) : read (f j) = some a

theorem Denotes.value {α : Type} {read : Json → Option α} {j : Json} {a : α} (h : Denotes read j a) :
    ∃ v, Value.ofJson j = some v ∧ read v.json = some a := by
  refine ⟨⟨j.canonical, j.canonical_canonical, j.readable_canonical h.readable⟩, ?_, h.reads layout_canonical⟩
  rw [Value.ofJson, dif_pos h.readable]

/-- A reader goes on with what it has read. -/
theorem reads_bind {α β : Type} {x : Option α} {a : α} {next : α → Option β} {b : β} (hx : x = some a)
    (h : next a = some b) : (x >>= next) = some b := by
  rw [hx]
  exact h

theorem denotes_str (s : String) : Denotes toStr (.str s) s where
  readable := rfl
  reads hl := by
    rw [hl.str]
    rfl

theorem toStr_null (s : String) : toStr .null ≠ some s := nofun

theorem denotes_bool (b : Bool) : Denotes toBool (.bool b) b where
  readable := rfl
  reads hl := by
    rw [hl.bool]
    rfl

theorem toIntIn_num {low high n : Int} {fits : -Nat.pow 2 63 ≤ n ∧ n < Nat.pow 2 64} (h : low ≤ n ∧ n < high) :
    toIntIn low high (.num (.int n fits)) = some n := by
  rw [toIntIn, if_pos h]

theorem denotes_uint32 (n : UInt32) : Denotes toUInt32 (ofUInt32 n) n where
  readable := rfl
  reads hl := by
    have hn := n.toNat_lt
    rw [ofUInt32, ofUInt64, hl.num, toUInt32, Number.ofUInt64, toIntIn_num ⟨by omega, by simpa using hn⟩]
    simp

theorem denotes_uint64 (n : UInt64) : Denotes toUInt64 (ofUInt64 n) n where
  readable := rfl
  reads hl := by
    have hn := n.toNat_lt
    rw [ofUInt64, hl.num, toUInt64, Number.ofUInt64, toIntIn_num ⟨by omega, by simpa using hn⟩]
    simp

theorem denotes_int64 (n : Int64) : Denotes toInt64 (ofInt64 n) n where
  readable := rfl
  reads hl := by
    have hlow := n.le_toInt
    have hhigh := n.toInt_lt
    rw [ofInt64, hl.num, toInt64, Number.ofInt64, toIntIn_num ⟨by simpa using hlow, by simpa using hhigh⟩]
    simp

theorem denotes_value (v : Value) : Denotes Value.ofJson v.json v where
  readable := v.readable
  reads hl := by
    obtain ⟨j, hj, hr⟩ := v
    rw [Value.ofJson, dif_pos (hl.readable hr)]
    congr
    exact (hl.canonical j).trans hj

section Combined

variable {α κ : Type} [Key κ] {read : Json → Option α} {write : α → Json}

theorem denotes_listOf {l : List α} (h : ∀ a ∈ l, Denotes read (write a) a) :
    Denotes (listOf read) (ofList write l) l where
  readable := by
    simp only [ofList, readable_arr, List.mem_map]
    rintro _ ⟨a, ha, rfl⟩
    exact (h a ha).readable
  reads hl := by
    rw [ofList, hl.arr, List.map_map]
    refine mapM_eq_some (List.forall₂_map_left_iff.mpr (List.forall₂_same.mpr ?_))
    exact fun a ha => (h a ha).reads hl

theorem nullable_of_read {j : Json} {a : α} (hn : read .null ≠ some a) (h : read j = some a) :
    nullable read j = some (some a) := by
  unfold nullable
  split
  · exact absurd h hn
  · rw [h]
    rfl

theorem denotes_nullable {o : Option α} (h : ∀ a ∈ o, Denotes read (write a) a)
    (hn : ∀ a ∈ o, read .null ≠ some a) :
    Denotes (nullable read) (ofOption write o) o := by
  cases o with
  | none => exact ⟨rfl, fun hl => by rw [ofOption, hl.null]; rfl⟩
  | some a => exact ⟨(h a rfl).readable, fun hl => nullable_of_read (hn a rfl) ((h a rfl).reads hl)⟩

theorem reads_omitted {o : Option α} (h : ∀ a ∈ o, Denotes read (write a) a)
    (hn : ∀ a ∈ o, read .null ≠ some a) (hl : Layout f) : orElse none (nullable read) ((o.map write).map f) = some o := by
  cases o with
  | none => rfl
  | some a => exact nullable_of_read (hn a rfl) ((h a rfl).reads hl)

theorem denotes_ofMap {key : String → κ} (hk : ∀ k, key (Key.text k) = k) {m : SortedMap κ α}
    (h : ∀ a ∈ m.values, Denotes read (write a) a) : Denotes (toMap key read) (ofMap write m) m where
  readable := by
    simp only [ofMap, readable_obj, List.mem_map]
    rintro _ ⟨e, he, rfl⟩
    exact (h e.2 (List.mem_map_of_mem he)).readable
  reads {f} hl := by
    have hnames : ((m.entries.map fun e => (Key.text e.1, write e.2)).map Prod.fst).Nodup := by
      rw [List.map_map, List.Nodup, List.pairwise_map]
      refine m.ascending.imp ?_
      intro a b hlt he
      rw [show Key.text a.1 = Key.text b.1 from he] at hlt
      exact String.lt_irrefl _ hlt
    obtain ⟨laid, hlaid, hp⟩ := hl.obj _ hnames
    rw [List.map_map] at hp
    have hentry : ∀ e ∈ m.entries, ((read (f (write e.2))).map fun a => (key (Key.text e.1), a)) = some e := by
      intro e he
      rw [(h e.2 (List.mem_map_of_mem he)).reads hl, hk]
      rfl
    have hsome : ∀ w ∈ laid, ((read w.2).map fun a => (key w.1, a)).isSome = true := by
      intro w hw
      obtain ⟨e, he, rfl⟩ := List.mem_map.mp (hp.subset hw)
      exact Option.isSome_of_eq_some (hentry e he)
    have hentries : (laid.filterMap fun w => (read w.2).map fun a => (key w.1, a)).Perm m.entries := by
      refine (hp.filterMap _).trans ?_
      rw [List.filterMap_map]
      exact .of_eq ((List.filterMap_congr hentry).trans List.filterMap_some)
    rw [ofMap, hlaid]
    simp only [toMap, mapM_eq_filterMap hsome, Option.map_some, SortedMap.ofList_of_perm hentries]

theorem toRecord_null (r : Record) : toRecord .null ≠ some r := nofun

theorem denotes_record (r : Record) : Denotes toRecord (ofRecord r) r :=
  denotes_ofMap (fun _ => rfl) fun v _ => denotes_value v

end Combined

end Json

namespace Value

theorem json_injective : json.Injective := by
  intro v w h
  cases v
  cases w
  cases h
  rfl

theorem exists_record {v : Value} {members : List (String × Json)} (h : v.json = .obj members) :
    ∃ r : Record, v.json = Json.ofRecord r ∧ members = r.entries.map fun e => (e.1, e.2.json) := by
  have hcanonical := v.canonical
  have hreadable := v.readable
  rw [h, Json.canonical, Json.obj.injEq] at hcanonical
  rw [h, Json.readable_obj] at hreadable
  have hvalue : ∀ e ∈ members, e.2.canonical = e.2 := by
    intro e he
    rw [← hcanonical] at he
    exact Json.canonical_mem_canonicalMembers members e (SortedMap.mem_ofList he)
  let r : Record :=
    ⟨members.attach.map fun e => (e.1.1, ⟨e.1.2, hvalue e.1 e.2, hreadable e.1 e.2⟩), by
      have hascending := (SortedMap.ofList (Json.canonicalMembers members)).ascending
      rw [hcanonical, ← List.attach_map_subtype_val members, List.pairwise_map] at hascending
      exact List.pairwise_map.mpr hascending⟩
  have hmembers : members = r.entries.map fun e => (e.1, e.2.json) := by
    rw [List.map_map]
    exact (List.attach_map_subtype_val members).symm
  exact ⟨r, h.trans (congrArg Json.obj hmembers), hmembers⟩

end Value

end BranchingTimeline
