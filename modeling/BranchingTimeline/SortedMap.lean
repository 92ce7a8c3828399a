namespace BranchingTimeline

/-- A key type with an injective spelling. Keys are ordered as their spellings are, which for
strings is the order of their UTF-8 bytes. -/
class Key (κ : Type) where
  text : κ → String
  text_inj : ∀ {a b : κ}, text a = text b → a = b

instance : Key String := ⟨id, id⟩

/-- A finite map, kept as its entries in ascending order of their keys, so that equal maps are
equal values. -/
structure SortedMap (κ α : Type) [Key κ] where
  entries : List (κ × α)
  ascending : entries.Pairwise fun a b => Key.text a.1 < Key.text b.1

namespace SortedMap

variable {κ α β : Type} [Key κ]

theorem eq_of_entries {m n : SortedMap κ α} (h : m.entries = n.entries) : m = n := by
  cases m; cases n; cases h; rfl

instance [DecidableEq κ] [DecidableEq α] : DecidableEq (SortedMap κ α) := fun m n =>
  if h : m.entries = n.entries then .isTrue (eq_of_entries h)
  else .isFalse fun e => h (congrArg entries e)

def empty : SortedMap κ α := ⟨[], .nil⟩

instance : Inhabited (SortedMap κ α) := ⟨empty⟩

def keys (m : SortedMap κ α) : List κ := m.entries.map Prod.fst

def values (m : SortedMap κ α) : List α := m.entries.map Prod.snd

def lookup (k : κ) : List (κ × α) → Option α
  | [] => none
  | e :: r => if Key.text k = Key.text e.1 then some e.2 else lookup k r

def get? (m : SortedMap κ α) (k : κ) : Option α := lookup k m.entries

def contains (m : SortedMap κ α) (k : κ) : Bool := (m.get? k).isSome

def insertEntry (k : κ) (v : α) : List (κ × α) → List (κ × α)
  | [] => [(k, v)]
  | e :: r =>
    if Key.text k < Key.text e.1 then (k, v) :: e :: r
    else if Key.text k = Key.text e.1 then (k, v) :: r
    else e :: insertEntry k v r

theorem mem_insertEntry {k : κ} {v : α} {e : κ × α} {l : List (κ × α)} :
    e ∈ insertEntry k v l → e = (k, v) ∨ e ∈ l := by
  induction l with
  | nil => simp [insertEntry]
  | cons a l ih =>
    simp only [insertEntry]
    split
    · simp
    · split
      · simp only [List.mem_cons]
        rintro (h | h) <;> simp [h]
      · simp only [List.mem_cons]
        rintro (h | h)
        · simp [h]
        · rcases ih h with h | h <;> simp [h]

theorem pairwise_insertEntry {k : κ} {v : α} {l : List (κ × α)}
    (h : l.Pairwise fun a b => Key.text a.1 < Key.text b.1) :
    (insertEntry k v l).Pairwise fun a b => Key.text a.1 < Key.text b.1 := by
  induction l with
  | nil => simp [insertEntry]
  | cons a l ih =>
    rw [List.pairwise_cons] at h
    simp only [insertEntry]
    split
    · rename_i hk
      refine List.pairwise_cons.2 ⟨?_, List.pairwise_cons.2 h⟩
      intro b hb
      rcases List.mem_cons.1 hb with rfl | hb
      · exact hk
      · exact String.lt_trans hk (h.1 b hb)
    · split
      · rename_i hk
        exact List.pairwise_cons.2 ⟨fun b hb => hk ▸ h.1 b hb, h.2⟩
      · rename_i hk hne
        refine List.pairwise_cons.2 ⟨?_, ih h.2⟩
        intro b hb
        rcases mem_insertEntry hb with rfl | hb
        · rcases Std.lt_trichotomy (Key.text a.1) (Key.text k) with h | h | h
          · exact h
          · exact absurd h.symm hne
          · exact absurd h hk
        · exact h.1 b hb

def insert (m : SortedMap κ α) (k : κ) (v : α) : SortedMap κ α :=
  ⟨insertEntry k v m.entries, pairwise_insertEntry m.ascending⟩

def erase (m : SortedMap κ α) (k : κ) : SortedMap κ α :=
  ⟨m.entries.filter fun e => Key.text e.1 ≠ Key.text k, m.ascending.filter _⟩

def insertMany (m : SortedMap κ α) (l : List (κ × α)) : SortedMap κ α :=
  l.foldl (fun m e => m.insert e.1 e.2) m

def ofList (l : List (κ × α)) : SortedMap κ α := empty.insertMany l

def union (m n : SortedMap κ α) : SortedMap κ α := m.insertMany n.entries

def map (f : α → β) (m : SortedMap κ α) : SortedMap κ β :=
  ⟨m.entries.map fun e => (e.1, f e.2), by
    rw [List.pairwise_map]; exact m.ascending⟩

theorem lookup_insertEntry (k j : κ) (v : α) (l : List (κ × α)) :
    lookup j (insertEntry k v l) = if Key.text j = Key.text k then some v else lookup j l := by
  induction l with
  | nil => simp [insertEntry, lookup]
  | cons a l ih =>
    simp only [insertEntry]
    split
    · simp [lookup]
    · split
      · rename_i hk
        simp only [lookup, hk]
        split <;> rfl
      · rename_i hk
        simp only [lookup, ih]
        split
        · rename_i ha
          rw [if_neg fun h : Key.text j = Key.text k => hk (h ▸ ha)]
        · rfl

theorem get?_insert (m : SortedMap κ α) (k j : κ) (v : α) :
    (m.insert k v).get? j = if Key.text j = Key.text k then some v else m.get? j :=
  lookup_insertEntry k j v m.entries

@[simp] theorem get?_empty (k : κ) : (empty : SortedMap κ α).get? k = none := rfl

theorem insertEntry_append {k : κ} {v : α} {l : List (κ × α)}
    (h : ∀ e ∈ l, Key.text e.1 < Key.text k) : insertEntry k v l = l ++ [(k, v)] := by
  induction l with
  | nil => rfl
  | cons a l ih =>
    have ha := h a (by simp)
    simp only [insertEntry]
    rw [if_neg (String.lt_asymm ha), if_neg (fun e => String.lt_irrefl _ (e ▸ ha)),
      ih fun e he => h e (by simp [he]), List.cons_append]

theorem entries_insertMany {m : SortedMap κ α} {l : List (κ × α)}
    (h : (m.entries ++ l).Pairwise fun a b => Key.text a.1 < Key.text b.1) :
    (m.insertMany l).entries = m.entries ++ l := by
  induction l generalizing m with
  | nil => simp [insertMany]
  | cons e l ih =>
    have he : (m.insert e.1 e.2).entries = m.entries ++ [e] :=
      insertEntry_append fun a ha => (List.pairwise_append.1 h).2.2 a ha e (by simp)
    have hi := ih (m := m.insert e.1 e.2) (by simpa [he] using h)
    rw [he, List.append_assoc] at hi
    exact hi

theorem mem_insertMany {m : SortedMap κ α} {l : List (κ × α)} {e : κ × α}
    (h : e ∈ (m.insertMany l).entries) : e ∈ m.entries ∨ e ∈ l := by
  induction l generalizing m with
  | nil => exact .inl h
  | cons a l ih =>
    rcases ih (m := m.insert a.1 a.2) h with h | h
    · rcases mem_insertEntry h with rfl | h
      · simp
      · exact .inl h
    · simp [h]

theorem mem_ofList {l : List (κ × α)} {e : κ × α} (h : e ∈ (ofList l).entries) : e ∈ l := by
  rcases mem_insertMany h with h | h
  · simp [empty] at h
  · exact h

theorem ofList_entries (m : SortedMap κ α) : ofList m.entries = m :=
  eq_of_entries (entries_insertMany (m := empty) m.ascending)

end SortedMap

end BranchingTimeline
