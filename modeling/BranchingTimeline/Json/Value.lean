import BranchingTimeline.Json.Basic
import BranchingTimeline.SortedMap

namespace BranchingTimeline

namespace Json

mutual

/-- The value with the members of every object in ascending order of their names. Of several
members with one name the last is kept. -/
def canonical : Json → Json
  | .arr items => .arr (canonicalItems items)
  | .obj members => .obj (SortedMap.ofList (canonicalMembers members)).entries
  | j => j

def canonicalItems : List Json → List Json
  | [] => []
  | j :: r => j.canonical :: canonicalItems r

def canonicalMembers : List (String × Json) → List (String × Json)
  | [] => []
  | (k, j) :: r => (k, j.canonical) :: canonicalMembers r

end

theorem canonicalMembers_eq_self {l : List (String × Json)}
    (h : ∀ e ∈ l, e.2.canonical = e.2) : canonicalMembers l = l := by
  induction l with
  | nil => rfl
  | cons e r ih =>
    rw [canonicalMembers, h e (by simp), ih fun e he => h e (by simp [he])]

theorem canonical_obj {m : SortedMap String Json} (h : ∀ e ∈ m.entries, e.2.canonical = e.2) :
    (obj m.entries).canonical = obj m.entries := by
  rw [canonical, canonicalMembers_eq_self h, SortedMap.ofList_entries]

mutual

theorem canonical_canonical : (j : Json) → j.canonical.canonical = j.canonical
  | .unreadable | .null | .bool _ | .num _ | .str _ => rfl
  | .arr items => congrArg arr (canonicalItems_canonicalItems items)
  | .obj members =>
    canonical_obj fun e he => canonical_mem_canonicalMembers members e (SortedMap.mem_ofList he)

theorem canonicalItems_canonicalItems :
    (l : List Json) → canonicalItems (canonicalItems l) = canonicalItems l
  | [] => rfl
  | j :: r => by
    simp only [canonicalItems]
    rw [canonical_canonical j, canonicalItems_canonicalItems r]

theorem canonical_mem_canonicalMembers :
    (l : List (String × Json)) → ∀ e ∈ canonicalMembers l, e.2.canonical = e.2
  | [], e, he => by simp [canonicalMembers] at he
  | (k, j) :: r, e, he => by
    rcases List.mem_cons.1 he with rfl | he
    · exact canonical_canonical j
    · exact canonical_mem_canonicalMembers r e he

end

theorem readableMembers_iff {l : List (String × Json)} :
    readableMembers l ↔ ∀ e ∈ l, e.2.readable := by
  induction l with
  | nil => simp [readableMembers]
  | cons e r ih => simp [readableMembers, ih]

theorem readable_obj_ofList {l : List (String × Json)} (h : readableMembers l) :
    (obj (SortedMap.ofList l).entries).readable :=
  readableMembers_iff.2 fun e he => readableMembers_iff.1 h e (SortedMap.mem_ofList he)

mutual

theorem readable_canonical : (j : Json) → j.readable → j.canonical.readable
  | .unreadable, h | .null, h | .bool _, h | .num _, h | .str _, h => h
  | .arr items, h => readableItems_canonicalItems items h
  | .obj members, h => readable_obj_ofList (readableMembers_canonicalMembers members h)

theorem readableItems_canonicalItems :
    (l : List Json) → readableItems l → readableItems (canonicalItems l)
  | [], _ => rfl
  | j :: r, h => by
    simp only [readableItems, Bool.and_eq_true] at h
    simp only [canonicalItems, readableItems, Bool.and_eq_true]
    exact ⟨readable_canonical j h.1, readableItems_canonicalItems r h.2⟩

theorem readableMembers_canonicalMembers :
    (l : List (String × Json)) → readableMembers l → readableMembers (canonicalMembers l)
  | [], _ => rfl
  | (k, j) :: r, h => by
    simp only [readableMembers, Bool.and_eq_true] at h
    simp only [canonicalMembers, readableMembers, Bool.and_eq_true]
    exact ⟨readable_canonical j h.1, readableMembers_canonicalMembers r h.2⟩

end

end Json

/-- Free-form data. All of it is readable, and the order in which members were written is not part
of it. -/
structure Value where
  json : Json
  canonical : json.canonical = json
  readable : json.readable = true
deriving DecidableEq

namespace Value

def ofJson (j : Json) : Option Value :=
  if h : j.readable then some ⟨j.canonical, j.canonical_canonical, j.readable_canonical h⟩ else none

/-- Two values are alike when they differ at most in the signs of their zeros. -/
def alike (a b : Value) : Bool := a.json.unsignZeros = b.json.unsignZeros

def str (s : String) : Value := ⟨.str s, rfl, rfl⟩

instance : Inhabited Value := ⟨⟨.null, rfl, rfl⟩⟩

end Value

abbrev Record := SortedMap String Value

end BranchingTimeline
