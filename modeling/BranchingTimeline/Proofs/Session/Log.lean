import BranchingTimeline.Proofs.Session.Continuation

namespace BranchingTimeline

namespace DataLog

structure Entry where
  trial : ItemId
  loop : Option ItemId
  response : Record

namespace Entry

variable {x : ItemId} {loops : IdSet} {e : Entry}

def record (e : Entry) : Record := label e.trial e.loop e.response

def Inside (loops : IdSet) (e : Entry) : Prop :=
  ∃ l, e.loop = some l ∧ SortedMap.contains loops l = true

/-- The trial of the entry stands outside all loops, yet its response names one of some loops. -/
def Pretends (loops : IdSet) (e : Entry) : Prop :=
  e.loop = none ∧ ∃ l, namedLoop e.response = some l ∧ SortedMap.contains loops l = true

theorem isOf_record : isOf x e.record = true ↔ e.trial = x := isOf_label

theorem isWithin_record : isWithin loops e.record = true ↔ e.Inside loops ∨ e.Pretends loops := by
  rw [isWithin_iff, record, namedLoop_label, Inside, Pretends]
  cases e.loop with
  | none => simp
  | some l => simp

end Entry

/-- The log after some entries, in the order in which they were made. -/
def ofEntries (entries : List Entry) : DataLog :=
  entries.foldl (fun d e => d.record e.trial e.loop e.response) empty

theorem latestFirst_ofEntries (entries : List Entry) :
    (ofEntries entries).latestFirst = entries.reverse.map Entry.record := by
  induction entries using List.reverseRecOn with
  | nil => rfl
  | append_singleton entries e ih =>
      rw [ofEntries, List.foldl_append, List.reverse_append]
      exact congrArg (e.record :: ·) ih

theorem find?_ofEntries {entries : List Entry} {P : Entry → Prop} {p : Record → Bool}
    (h : ∀ e ∈ entries, p e.record = true ↔ P e) (r : Record) :
    (ofEntries entries).latestFirst.find? p = some r ↔
      ∃ e, IsFirst P entries.reverse e ∧ e.record = r := by
  have hp : ∀ e ∈ entries.reverse, (p ∘ Entry.record) e = true ↔ P e := by
    intro e he
    exact h e (List.mem_reverse.mp he)
  rw [latestFirst_ofEntries, List.find?_map, Option.map_eq_some_iff]
  simp only [isFirst_iff_find? hp]

/-- A log keeps one record for each entry. What is found of a trial is the record of its latest entry,
and among the records of some loops that of its latest entry from inside them. An entry from outside
all loops counts among these exactly if its response names one of the loops. -/
theorem lookups_ofEntries (entries : List Entry) (x : ItemId) :
    (ofEntries entries).toList = entries.map Entry.record ∧
    (∀ r, (ofEntries entries).latest x = some r ↔
      ∃ e, IsFirst (fun e => e.trial = x) entries.reverse e ∧ e.record = r) ∧
    ∀ loops,
      (∀ r, (ofEntries entries).latestWithin loops x = some r ↔
        ∃ e, IsFirst (fun e => e.trial = x ∧ (e.Inside loops ∨ e.Pretends loops)) entries.reverse e ∧
          e.record = r) ∧
      ((∀ e ∈ entries, e.trial = x → ¬e.Pretends loops) →
        ∀ r, (ofEntries entries).latestWithin loops x = some r ↔
          ∃ e, IsFirst (fun e => e.trial = x ∧ e.Inside loops) entries.reverse e ∧ e.record = r) := by
  have hwithin (loops : IdSet) (e : Entry) : (isOf x e.record && isWithin loops e.record) = true ↔
      e.trial = x ∧ (e.Inside loops ∨ e.Pretends loops) := by
    rw [Bool.and_eq_true, Entry.isOf_record, Entry.isWithin_record]
  refine ⟨?_, ?_, ?_⟩
  · rw [toList, latestFirst_ofEntries, List.map_reverse, List.reverse_reverse]
  · exact find?_ofEntries fun e _ => Entry.isOf_record
  · intro loops
    refine ⟨find?_ofEntries fun e _ => hwithin loops e, ?_⟩
    intro hfree
    apply find?_ofEntries
    intro e he
    rw [hwithin]
    constructor
    · rintro ⟨hx, hin | hpretends⟩
      · exact ⟨hx, hin⟩
      · exact absurd hpretends (hfree e he hx)
    · rintro ⟨hx, hin⟩
      exact ⟨hx, .inl hin⟩

def shownTwice : List Entry :=
  [⟨⟨"a"⟩, some ⟨"k"⟩, .ofList [("loop_id", .str "z")]⟩, ⟨⟨"b"⟩, none, .ofList [("loop_id", .str "l")]⟩,
    ⟨⟨"a"⟩, none, .ofList [("loop_id", .str "z")]⟩]

def bothLoops : IdSet := .ofList [⟨"k"⟩, ⟨"l"⟩]

theorem lookups_ofEntries_shownTwice :
    (∀ e ∈ shownTwice, e.trial = ⟨"a"⟩ → ¬e.Pretends bothLoops) ∧
      (ofEntries shownTwice).latestWithin bothLoops ⟨"a"⟩ =
        some (.ofList [("loop_id", .str "k"), ("trial_id", .str "a")]) := by
  have hfree : ∀ e ∈ shownTwice, e.trial = ⟨"a"⟩ → ¬e.Pretends bothLoops := by
    rintro e he hx ⟨hloop, l, hnamed, hl⟩
    simp only [shownTwice, List.mem_cons, List.not_mem_nil, or_false] at he
    rcases he with rfl | rfl | rfl
    · cases hloop
    · exact absurd hx (by decide)
    · obtain rfl : ⟨"z"⟩ = l := Option.some.inj hnamed
      exact absurd hl (by decide)
  obtain ⟨-, -, hlookup⟩ := lookups_ofEntries shownTwice ⟨"a"⟩
  refine ⟨hfree, ((hlookup bothLoops).2 hfree _).mpr ?_⟩
  refine ⟨_, ⟨[⟨⟨"a"⟩, none, _⟩, ⟨⟨"b"⟩, none, _⟩], [], rfl, ⟨rfl, ⟨"k"⟩, rfl, by decide⟩, ?_⟩, by decide⟩
  intro e he hin
  obtain ⟨-, l, hloop, -⟩ := hin
  simp only [List.mem_cons, List.not_mem_nil, or_false] at he
  rcases he with rfl | rfl <;> cases hloop

def pretender : Entry := ⟨⟨"a"⟩, none, .ofList [("loop_id", .str "l")]⟩

/-- A response from outside all loops that names a loop is found among the records of that loop. -/
theorem pretender_found :
    (ofEntries [pretender]).latestWithin bothLoops ⟨"a"⟩ = some pretender.record ∧
      ∀ e ∈ [pretender], ¬e.Inside bothLoops := by
  refine ⟨by decide, ?_⟩
  rintro e he ⟨l, hl, -⟩
  obtain rfl := List.mem_singleton.mp he
  cases hl

end DataLog

end BranchingTimeline
