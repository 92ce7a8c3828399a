import BranchingTimeline.Item.Codec
import BranchingTimeline.Proofs.Timeline.Denotes
import BranchingTimeline.Proofs.Timeline.Loops

namespace BranchingTimeline

open Json

namespace Trial

/-- A trial as it is read: a null in the place of its mapped parameters means that it has none. -/
def Normal (t : Trial) : Prop := ∀ v ∈ t.mapped, v.json ≠ .null

theorem ne_null_of_ofJson {j : Json} {v : Value} (h : Value.ofJson j = some v) (hj : j ≠ .null) :
    v.json ≠ .null := by
  rw [Value.ofJson] at h
  split at h
  · cases h
    cases j with
    | null => exact absurd rfl hj
    | unreadable | bool | num | str | arr | obj => simp [canonical]
  · cases h

theorem ne_null_of_mapped {slot : Option Json} {o : Option Value}
    (h : orElse none (nullable Value.ofJson) slot = some o) : ∀ v ∈ o, v.json ≠ .null := by
  rintro v rfl
  cases slot with
  | none => cases h
  | some j =>
      rw [orElse_some] at h
      unfold nullable at h
      split at h
      · cases h
      · obtain ⟨w, hw, he⟩ := Option.map_eq_some_iff.mp h
        cases he
        exact ne_null_of_ofJson hw ‹_›

theorem normal_of_ofJson {j : Json} {t : Trial} (h : ofJson j = some t) : t.Normal := by
  simp only [ofJson, Option.bind_eq_bind, Option.bind_eq_some_iff] at h
  obtain ⟨members, -, h⟩ := h
  split at h
  · simp only [Option.bind_eq_some_iff] at h
    obtain ⟨id, -, name, -, plugin, -, props, -, mapped, hmapped, branches, -, choices, -, repeats, -,
      overrides, -, h⟩ := h
    cases h
    exact ne_null_of_mapped hmapped
  · cases h

theorem denotes (t : Trial) (ht : t.Normal) : Denotes ofJson t.toJson t := by
  have hnull : ∀ v ∈ t.mapped, Value.ofJson .null ≠ some v := by
    rintro v hv hn
    cases hn
    exact ht _ hv rfl
  have hbranches := ItemId.denotes_list t.branches
  have hchoices := Condition.denotes_list Effect.denoted_branchTo t.branchConditions
  have hrepeats := Condition.denotes_list Effect.denoted_jumpTo t.repeatConditions
  have hoverrides := Condition.denotes_list Effect.denoted_replace t.overrides
  constructor
  · have hid := t.id.denotes.readable
    have hvalue : ∀ v : Value, v.json.readable = true := Value.readable
    simp [toJson, writeIds, hid, hvalue, hbranches.readable, hchoices.readable, hrepeats.readable,
      hoverrides.readable]
  · intro f hl
    have hs : slots shape (f t.toJson) = _ := hl.slots_record (by decide) (by simp [shape, Member.Fits])
    have hmapped := reads_omitted (o := t.mapped) (fun v _ => denotes_value v) hnull hl
    rw [ofJson]
    exact reads_bind hs <| reads_bind (t.id.denotes.reads hl) <| reads_bind ((denotes_str t.name).reads hl) <|
      reads_bind ((denotes_str t.plugin).reads hl) <| reads_bind ((denotes_str t.props).reads hl) <|
      reads_bind hmapped <| reads_bind (hbranches.reads hl) <| reads_bind (hchoices.reads hl) <|
      reads_bind (hrepeats.reads hl) <| reads_bind (hoverrides.reads hl) rfl

theorem laid_toJson {f : Json → Json} (hl : Layout f) (t : Trial) :
    ∃ laid, f t.toJson = .obj laid ∧ laid.map Prod.fst ⊆ shape.map Member.name := by
  obtain ⟨members, hmembers, hfits⟩ : ∃ members, t.toJson = record members ∧ Member.Fits shape members :=
    ⟨_, rfl, by simp [shape, Member.Fits]⟩
  obtain ⟨laid, hlaid, -, hp, -⟩ := hl.record (by decide) hfits
  rw [← hmembers] at hlaid
  exact ⟨laid, hlaid, fun _ hn => (Member.map_fst_laidOut hfits).subset ((hp.map Prod.fst).subset hn)⟩

end Trial

namespace Loop

theorem readable_toJson (l : Loop) {items : List Json} (h : ∀ j ∈ items, j.readable = true) :
    (l.toJson items).readable = true := by
  have hid := l.id.denotes.readable
  have hrepetitions := (denotes_uint32 l.repetitions).readable
  have horders := (StimulusPlan.denotes_orders l.stimuli.stimuliOrders).readable
  have hcategories := (StimulusPlan.denotes_categories l.stimuli.categoryData).readable
  have hrows := (StimulusPlan.denotes_rows l.stimuli.rows).readable
  have hbranches := (ItemId.denotes_list l.branches).readable
  have hchoices := (Condition.denotes_list Effect.denoted_branchTo l.branchConditions).readable
  have hrepeats := (Condition.denotes_list Effect.denoted_jumpTo l.repeatConditions).readable
  have hconditions := (Condition.denotes_list Effect.denoted_unit l.loopConditions).readable
  simpa [toJson, writeIds, hid, hrepetitions, horders, hcategories, hrows, hbranches, hchoices, hrepeats,
    hconditions] using h

theorem laid_toJson {f : Json → Json} (hl : Layout f) (l : Loop) (items : List Json) :
    ∃ laid, f (l.toJson items) = .obj laid ∧ (laid.map Prod.fst).Nodup ∧
      ("items", f (.arr items)) ∈ laid ∧ ("isLoop", .bool true) ∈ laid ∧
      ofJson (.obj laid) = some (l, some (f (.arr items))) := by
  have horders := StimulusPlan.denotes_orders l.stimuli.stimuliOrders
  have hcategories := StimulusPlan.denotes_categories l.stimuli.categoryData
  have hrows := StimulusPlan.denotes_rows l.stimuli.rows
  have hbranches := ItemId.denotes_list l.branches
  have hchoices := Condition.denotes_list Effect.denoted_branchTo l.branchConditions
  have hrepeats := Condition.denotes_list Effect.denoted_jumpTo l.repeatConditions
  have hconditions := Condition.denotes_list Effect.denoted_unit l.loopConditions
  obtain ⟨members, hmembers⟩ : ∃ members, l.toJson items = .obj members := ⟨_, rfl⟩
  have hnames : members.map Prod.fst = shape.map Member.name := by
    cases hmembers
    rfl
  obtain ⟨laid, hlaid, hnodup, hp, hs⟩ := hl.record (by decide) (Member.fits_of_names hnames)
  rw [← obj_eq_record, ← hmembers] at hlaid
  have hmem : ∀ e ∈ members, (e.1, f e.2) ∈ laid := by
    intro e he
    exact hp.mem_iff.mpr (List.mem_filterMap.mpr ⟨(e.1, some e.2), List.mem_map_of_mem he, rfl⟩)
  cases hmembers
  refine ⟨laid, hlaid, hnodup, hmem ("items", .arr items) (by simp), ?_, ?_⟩
  · rw [← hl.bool true]
    exact hmem ("isLoop", .bool true) (by simp)
  · rw [ofJson]
    exact reads_bind hs <| reads_bind (hrows.reads hl) <|
      reads_bind ((denotes_bool l.stimuli.orders).reads hl) <| reads_bind (horders.reads hl) <|
      reads_bind ((denotes_bool l.stimuli.categories).reads hl) <| reads_bind (hcategories.reads hl) <|
      reads_bind ((denotes_bool true).reads hl) <| reads_bind (l.id.denotes.reads hl) <|
      reads_bind ((denotes_str l.name).reads hl) <| reads_bind ((denotes_uint32 l.repetitions).reads hl) <|
      reads_bind ((denotes_bool l.randomize).reads hl) <| reads_bind (hbranches.reads hl) <|
      reads_bind (hchoices.reads hl) <| reads_bind (hrepeats.reads hl) <|
      reads_bind (hconditions.reads hl) <| reads_bind ((denotes_bool l.isConditional).reads hl) rfl

end Loop

namespace Item

def Normal (items : List Item) : Prop := ∀ t, trial t ∈ flattenIn items → t.Normal

theorem normal_trial {t : Trial} {items : List Item} : Normal (.trial t :: items) ↔ t.Normal ∧ Normal items := by
  simp only [Normal, flattenIn, flatten, List.singleton_append, List.mem_cons, trial.injEq]
  constructor
  · exact fun h => ⟨h t (.inl rfl), fun u hu => h u (.inr hu)⟩
  · rintro ⟨ht, h⟩ u (rfl | hu)
    · exact ht
    · exact h u hu

theorem normal_loop {l : Loop} {inner items : List Item} :
    Normal (.loop l inner :: items) ↔ Normal inner ∧ Normal items := by
  simp only [Normal, flattenIn, flatten, List.cons_append, List.mem_cons, List.mem_append, reduceCtorEq,
    false_or]
  constructor
  · exact fun h => ⟨fun u hu => h u (.inl hu), fun u hu => h u (.inr hu)⟩
  · rintro ⟨hi, h⟩ u (hu | hu)
    · exact hi u hu
    · exact h u hu

theorem itemsMember_eq (members : List (String × Json)) :
    itemsMember members = (SortedMap.lookup "items" members).elim (some []) listOfJson := by
  induction members with
  | nil => rw [itemsMember]; rfl
  | cons e members ih =>
      rw [itemsMember, SortedMap.lookup_cons_string, ih]
      split <;> rfl

theorem listOfJson_inv {j : Json} {items : List Item} (h : listOfJson j = some items) :
    ∃ js, j = .arr js ∧ ofJsons js = some items := by
  cases j with
  | arr js => exact ⟨js, rfl, by rwa [listOfJson] at h⟩
  | unreadable | null | bool | num | str | obj => simp [listOfJson] at h

theorem ofJsons_cons_inv {js : List Json} {item : Item} {items : List Item}
    (h : ofJsons js = some (item :: items)) :
    ∃ j rest, js = j :: rest ∧ ofJson j = some item ∧ ofJsons rest = some items := by
  cases js with
  | nil => simp [ofJsons] at h
  | cons j rest =>
      simp only [ofJsons, Option.bind_eq_bind, Option.bind_eq_some_iff] at h
      obtain ⟨i, hi, is, his, h⟩ := h
      cases h
      exact ⟨j, rest, rfl, hi, his⟩

theorem trial_inv {j : Json} {t : Trial} (h : ofJson j = some (.trial t)) : Trial.ofJson j = some t := by
  cases j with
  | obj members =>
      rw [ofJson] at h
      split at h
      · simp [Option.bind_eq_some_iff] at h
      · obtain ⟨u, hu, he⟩ := Option.bind_eq_some_iff.mp h
        cases he
        exact hu
  | unreadable | null | bool | num | str | arr =>
      simp only [ofJson, Option.map_eq_some_iff, trial.injEq] at h
      obtain ⟨u, hu, rfl⟩ := h
      exact hu

theorem loop_inv {j : Json} {l : Loop} {inner : List Item} (h : ofJson j = some (.loop l inner)) :
    inner = [] ∨ ∃ js, ofJsons js = some inner := by
  cases j with
  | obj members =>
      rw [ofJson] at h
      split at h
      · obtain ⟨⟨k, rest⟩, -, h⟩ := Option.bind_eq_some_iff.mp h
        obtain ⟨is, his, he⟩ := Option.bind_eq_some_iff.mp h
        cases he
        rw [itemsMember_eq] at his
        cases hj : SortedMap.lookup "items" members with
        | none =>
            rw [hj] at his
            exact .inl (Option.some.inj his).symm
        | some j =>
            rw [hj] at his
            obtain ⟨js, -, hjs⟩ := listOfJson_inv his
            exact .inr ⟨js, hjs⟩
      · simp [Option.bind_eq_some_iff] at h
  | unreadable | null | bool | num | str | arr => simp [ofJson] at h

theorem normal_of_ofJsons {js : List Json} {items : List Item} (h : ofJsons js = some items) :
    Normal items := by
  induction items using forest_induction generalizing js with
  | nil => simp [Normal, flattenIn]
  | trial t r ih =>
      obtain ⟨j, rest, -, hj, hrest⟩ := ofJsons_cons_inv h
      exact normal_trial.mpr ⟨Trial.normal_of_ofJson (trial_inv hj), ih hrest⟩
  | loop l inner r ihItems ih =>
      obtain ⟨j, rest, -, hj, hrest⟩ := ofJsons_cons_inv h
      refine normal_loop.mpr ⟨?_, ih hrest⟩
      rcases loop_inv hj with rfl | ⟨js, hjs⟩
      · simp [Normal, flattenIn]
      · exact ihItems hjs

theorem isLoop_obj (members : List (String × Json)) :
    isLoop (.obj members) = decide (SortedMap.lookup "isLoop" members.reverse = some (.bool true)) := rfl

theorem denotes_trial {t : Trial} (ht : t.Normal) : Denotes ofJson (toJson (.trial t)) (.trial t) where
  readable := by
    rw [toJson]
    exact (t.denotes ht).readable
  reads {f} hl := by
    obtain ⟨laid, hlaid, hnames⟩ := Trial.laid_toJson hl t
    have hloop : isLoop (.obj laid) = false := by
      rw [isLoop_obj, SortedMap.lookup_eq_none, decide_eq_false]
      · exact nofun
      · rw [List.map_reverse, List.mem_reverse]
        exact fun hm => absurd (hnames hm) (by decide)
    have hread := (t.denotes ht).reads hl
    rw [hlaid] at hread
    rw [toJson, hlaid, ofJson, hloop, if_neg Bool.false_ne_true]
    exact reads_bind hread rfl

theorem denotes_loop (l : Loop) {inner : List Item}
    (hi : Denotes listOfJson (.arr (toJsons inner)) inner) :
    Denotes ofJson (toJson (.loop l inner)) (.loop l inner) where
  readable := by
    rw [toJson]
    exact l.readable_toJson ((readable_arr _).mp hi.readable)
  reads {f} hl := by
    obtain ⟨laid, hlaid, hnodup, hitems, hmark, hread⟩ := l.laid_toJson hl (toJsons inner)
    have hloop : isLoop (.obj laid) = true := by
      rw [isLoop_obj, decide_eq_true_eq]
      refine SortedMap.lookup_eq_some ?_ (List.mem_reverse.mpr hmark)
      rw [List.map_reverse]
      exact List.nodup_reverse.mpr hnodup
    have hinner : itemsMember laid = some inner := by
      rw [itemsMember_eq, SortedMap.lookup_eq_some hnodup hitems]
      exact hi.reads hl
    rw [toJson, hlaid, ofJson, if_pos hloop]
    exact reads_bind hread (reads_bind hinner rfl)

theorem denotes_cons {item : Item} {items : List Item} (hi : Denotes ofJson item.toJson item)
    (h : Denotes listOfJson (.arr (toJsons items)) items) :
    Denotes listOfJson (.arr (toJsons (item :: items))) (item :: items) where
  readable := by
    have hitems := h.readable
    rw [readable_arr] at hitems
    simpa [toJsons, hi.readable] using hitems
  reads {f} hl := by
    have hitems := h.reads hl
    rw [hl.arr, listOfJson] at hitems
    rw [hl.arr, listOfJson, toJsons, List.map_cons, ofJsons]
    exact reads_bind (hi.reads hl) (reads_bind hitems rfl)

theorem denotes_items {items : List Item} (h : Normal items) :
    Denotes listOfJson (.arr (toJsons items)) items := by
  induction items using forest_induction with
  | nil =>
      constructor
      · simp [toJsons]
      · intro f hl
        rw [hl.arr, listOfJson, toJsons, List.map_nil, ofJsons]
  | trial t rest ih =>
      obtain ⟨ht, hrest⟩ := normal_trial.mp h
      exact denotes_cons (denotes_trial ht) (ih hrest)
  | loop l inner rest ihItems ih =>
      obtain ⟨hinner, hrest⟩ := normal_loop.mp h
      exact denotes_cons (denotes_loop l (ihItems hinner)) (ih hrest)

theorem normal_of_listOfValue {v : Value} {items : List Item} (h : listOfValue v = some items) :
    Normal items := by
  obtain ⟨js, -, hjs⟩ := listOfJson_inv h
  exact normal_of_ofJsons hjs

/-- A tree that was read from free-form data is written as data from which the same tree is read: a
loop as that loop and a trial as that trial, and both data have the same timelines. -/
theorem listOfValue_restored {v : Value} {items : List Item} (h : listOfValue v = some items) :
    ∃ w, Value.ofJson (.arr (toJsons items)) = some w ∧ listOfValue w = some items ∧
      ∀ settings, (listOfValue w).map (compile settings) = (listOfValue v).map (compile settings) := by
  obtain ⟨w, hw, hread⟩ := (denotes_items (normal_of_listOfValue h)).value
  refine ⟨w, hw, hread, fun settings => ?_⟩
  rw [listOfValue, hread, h]

def sketched : Value where
  json := .arr [.arr [.num (.ofInt64 7), .str "first"],
    .obj [("id", .str "again"), ("isLoop", .bool true),
      ("items", .arr [.obj [
        ("branchConditions", .arr [.obj [("nextTrialId", .num (.ofInt64 8)),
          ("rules", .arr [.obj [("op", .str " === "), ("trialId", .num (.ofInt64 7)), ("value", .bool true)],
            .obj [("op", .str "=~"), ("value", .null)]])]]),
        ("branches", .arr [.num (.ofInt64 8)]), ("isLoop", .str "true"), ("trialId", .str "inner")],
        .obj [("id", .num (.ofInt64 8)), ("mappedJson", .null)]])]]
  canonical := by decide
  readable := by decide

def sketchedItems : List Item :=
  [.trial { Trial.plain ⟨"7"⟩ with name := "first" },
    .loop (.plain ⟨"again"⟩) [
      .trial { Trial.plain ⟨"inner"⟩ with
        branches := [⟨"8"⟩]
        branchConditions := [⟨0, [⟨some ⟨"7"⟩, "", "", none, .eq, "true"⟩,
          ⟨none, "", "", none, .unsupported, ""⟩], ⟨some ⟨"8"⟩, none⟩⟩] },
      .trial (.plain ⟨"8"⟩)]]

theorem listOfValue_restored_sketched :
    listOfValue sketched = some sketchedItems ∧ ∃ w, Value.ofJson (.arr (toJsons sketchedItems)) = some w ∧
      w ≠ sketched ∧ listOfValue w = some sketchedItems := by
  have hs : listOfValue sketched = some sketchedItems := by cbv
  obtain ⟨w, hw, hread, -⟩ := listOfValue_restored hs
  refine ⟨hs, w, hw, ?_, hread⟩
  rintro rfl
  exact absurd hw (by decide)

end Item

end BranchingTimeline
