import BranchingTimeline.Proofs.Condition.Denotes
import BranchingTimeline.Proofs.Timeline.Forest
import BranchingTimeline.Script.Emit
import BranchingTimeline.Timeline.Codec

namespace BranchingTimeline

open Json

namespace Scope

theorem denotes (r : Reading) (s : Scope) : Denotes (ofJson r) s.toJson s where
  readable := by cases s <;> simp [toJson]
  reads {f} hl := by
    cases s with
    | root =>
        rw [toJson, ofJson, hl.tagged_alone r _ (by decide)]
        rfl
    | loop name =>
        obtain ⟨reading, ht⟩ := hl.tagged_content r ["root", "loop"] "kind" "name" (by decide) "loop"
          (readable_str name)
        rw [toJson, ofJson, ht, hl.str]
        rfl

theorem denotes_option (r : Reading) (o : Option Scope) :
    Denotes (nullable (ofJson r)) (ofOption toJson o) o :=
  denotes_nullable (fun s _ => s.denotes r) fun _ _ => nofun

end Scope

namespace Guard

theorem denotes (r : Reading) (g : Guard) : Denotes (ofJson r) g.toJson g where
  readable := by
    have hid := g.id.denotes.readable
    have hscope := (g.scope.denotes r).readable
    have hmembers := g.members.denotes.readable
    simp [toJson, hid, hscope, hmembers]
  reads {f} hl := by
    have hs : slots shape (f g.toJson) = _ := hl.slots_obj (by decide) rfl
    rw [ofJson]
    exact reads_bind hs <| reads_bind (g.id.denotes.reads hl) <| reads_bind ((g.scope.denotes r).reads hl) <|
      reads_bind (g.members.denotes.reads hl) <| reads_bind ((denotes_bool g.beginsPass).reads hl) rfl

end Guard

namespace Route

theorem denotes (r : Reading) (route : Route) : Denotes (ofJson r) route.toJson route where
  readable := by
    cases route with
    | scope s => simp [toJson, (s.denotes r).readable]
    | jump => simp [toJson]
  reads {f} hl := by
    cases route with
    | scope s =>
        obtain ⟨reading, ht⟩ := hl.tagged_content r ["scope", "jump"] "kind" "scope" (by decide) "scope"
          (s.denotes r).readable
        rw [toJson, ofJson, ht]
        exact congrArg (Option.map Route.scope) ((s.denotes reading).reads hl)
    | jump =>
        rw [toJson, ofJson, hl.tagged_alone r _ (by decide)]
        rfl

end Route

namespace BranchPlan

theorem denotes (b : BranchPlan) : Denotes ofJson b.toJson b := by
  have hbranches := ItemId.denotes_list b.branches
  have hconditions := Condition.denotes_list Effect.denoted_branchTo b.conditions
  have hroutes : Denotes (toMap ItemId.mk (Route.ofJson .setAside)) (ofMap Route.toJson b.routes) b.routes :=
    denotes_ofMap (fun _ => rfl) fun route _ => route.denotes .setAside
  constructor
  · simp [toJson, writeIds, hbranches.readable, hconditions.readable, hroutes.readable]
  · intro f hl
    have hs : slots shape (f b.toJson) = _ := hl.slots_obj (by decide) rfl
    rw [ofJson]
    exact reads_bind hs <| reads_bind (hbranches.reads hl) <| reads_bind (hconditions.reads hl) <|
      reads_bind (hroutes.reads hl) rfl

end BranchPlan

namespace FinishPlan

theorem denotes (p : FinishPlan) : Denotes ofJson p.toJson p := by
  have hrepeats := Condition.denotes_list Effect.denoted_jumpTo p.repeats
  have hbranch : Denotes (nullable BranchPlan.ofJson) (ofOption BranchPlan.toJson p.branch) p.branch :=
    denotes_nullable (fun b _ => b.denotes) fun _ _ => nofun
  have hscope := Scope.denotes_option .setAside p.escalateTo
  constructor
  · simp [toJson, hrepeats.readable, hbranch.readable, hscope.readable]
  · intro f hl
    have hs : slots shape (f p.toJson) = _ := hl.slots_obj (by decide) rfl
    rw [ofJson]
    exact reads_bind hs <| reads_bind (hrepeats.reads hl) <| reads_bind (hbranch.reads hl) <|
      reads_bind (hscope.reads hl) rfl

end FinishPlan

namespace StimulusPlan

theorem denotes_orders (orders : List (List UInt64)) :
    Denotes (listOf (listOf toUInt64)) (ofList orderToJson orders) orders :=
  denotes_listOf fun _ _ => denotes_listOf fun n _ => denotes_uint64 n

theorem denotes_rows (rows : List Record) : Denotes (listOf toRecord) (ofList ofRecord rows) rows :=
  denotes_listOf fun r _ => denotes_record r

theorem denotes_categories (values : List Value) :
    Denotes (listOf Value.ofJson) (ofList Value.json values) values :=
  denotes_listOf fun v _ => denotes_value v

theorem denotes (s : StimulusPlan) : Denotes ofJson s.toJson s := by
  have hrows := denotes_rows s.rows
  have horders := denotes_orders s.stimuliOrders
  have hcategories := denotes_categories s.categoryData
  constructor
  · simp [toJson, hrows.readable, horders.readable, hcategories.readable]
  · intro f hl
    have hs : slots shape (f s.toJson) = _ := hl.slots_obj (by decide) rfl
    rw [ofJson]
    exact reads_bind hs <| reads_bind (hrows.reads hl) <| reads_bind ((denotes_bool s.orders).reads hl) <|
      reads_bind (horders.reads hl) <| reads_bind ((denotes_bool s.categories).reads hl) <|
      reads_bind (hcategories.reads hl) rfl

end StimulusPlan

namespace TrialPlan

theorem members_readable (t : TrialPlan) : ∀ e ∈ t.members, e.2.readable = true := by
  have hid := t.id.denotes.readable
  have hloop := (ItemId.denotes_option t.loop).readable
  have hparameters := (denotes_record t.parameters).readable
  have hoverrides := (Condition.denotes_list Effect.denoted_replace t.overrides).readable
  have hfinish := t.finish.denotes.readable
  simp [members, hid, hloop, hparameters, hoverrides, hfinish]

theorem ofJson_eq_some {f : Json → Json} (hl : Layout f) (t : TrialPlan) {j : Json}
    (hs : slots shape j = some (t.members.map fun e => some (f e.2))) : ofJson j = some t := by
  have hoverrides := Condition.denotes_list Effect.denoted_replace t.overrides
  rw [ofJson]
  exact reads_bind hs <| reads_bind (t.id.denotes.reads hl) <| reads_bind ((denotes_str t.name).reads hl) <|
    reads_bind ((denotes_str t.plugin).reads hl) <| reads_bind ((ItemId.denotes_option t.loop).reads hl) <|
    reads_bind ((denotes_str t.props).reads hl) <| reads_bind ((denotes_record t.parameters).reads hl) <|
    reads_bind (hoverrides.reads hl) <| reads_bind (t.finish.denotes.reads hl) rfl

end TrialPlan

namespace LoopPlan

theorem members_readable (l : LoopPlan) {items : List Json} (h : ∀ j ∈ items, j.readable = true) :
    ∀ e ∈ l.members items, e.2.readable = true := by
  have hid := l.id.denotes.readable
  have hscope := (l.scope.denotes .setAside).readable
  have hrepetitions := (denotes_uint32 l.repetitions).readable
  have hstimuli := l.stimuli.denotes.readable
  have hcontinuation := (Condition.denotes_list Effect.denoted_unit l.continuation).readable
  have hdata := l.dataScope.denotes.readable
  have hfinish := l.finish.denotes.readable
  simpa [members, hid, hscope, hrepetitions, hstimuli, hcontinuation, hdata, hfinish] using h

theorem ofJson_eq_some {f : Json → Json} (hl : Layout f) (l : LoopPlan) {items : List Json} {j : Json}
    (hs : slots shape j = some ((l.members items).map fun e => some (f e.2))) : ofJson j = some l := by
  have hcontinuation := Condition.denotes_list Effect.denoted_unit l.continuation
  rw [ofJson]
  exact reads_bind hs <| reads_bind (l.id.denotes.reads hl) <| reads_bind ((denotes_str l.name).reads hl) <|
    reads_bind ((l.scope.denotes .setAside).reads hl) <|
    reads_bind ((denotes_uint32 l.repetitions).reads hl) <|
    reads_bind ((denotes_bool l.randomize).reads hl) <| reads_bind (l.stimuli.denotes.reads hl) <|
    reads_bind (hcontinuation.reads hl) <| reads_bind (l.dataScope.denotes.reads hl) <|
    reads_bind (l.finish.denotes.reads hl) <| reads_bind ((denotes_bool l.terminal).reads hl) rfl

end LoopPlan

namespace Node

theorem kindMember_eq (r : Reading) (members : List (String × Json)) :
    kindMember r members = (SortedMap.lookup "kind" members).bind (kindOfJson r) := by
  induction members with
  | nil => rw [kindMember]; rfl
  | cons e members ih =>
      rw [kindMember, SortedMap.lookup_cons_string, ih]
      split <;> rfl

theorem itemsMember_eq (members : List (String × Json)) :
    itemsMember members = (SortedMap.lookup "items" members).bind (listOfJson .setAside) := by
  induction members with
  | nil => rw [itemsMember]; rfl
  | cons e members ih =>
      rw [itemsMember, SortedMap.lookup_cons_string, ih]
      split <;> rfl

theorem placeOfJson_eq {f : Json → Json} (hl : Layout f) (r : Reading) (p : Place) :
    placeOfJson r (f p.guard.toJson) (f (.bool p.isLast)) = some p := by
  rw [placeOfJson]
  exact reads_bind ((p.guard.denotes r).reads hl) <| reads_bind ((denotes_bool p.isLast).reads hl) rfl

theorem denotes_objectOf (r : Reading) (p : Place) (type : String) {members : List (String × Json)}
    (hm : ∀ e ∈ members, e.2.readable = true) {make : Place → Node}
    (hk : ∀ {f}, Layout f → kindOfJson r (f (.obj (("type", .str type) :: members))) = some make) :
    Denotes (ofJson r) (objectOf p type members) (make p) where
  readable := by
    have hguard := (p.guard.denotes r).readable
    simpa [objectOf, hguard] using hm
  reads {f} hl := by
    have hfits : Member.Fits shape
        ([("guard", p.guard.toJson), ("kind", .obj (("type", .str type) :: members)),
          ("is_last", .bool p.isLast)].map fun e => (e.1, some e.2)) := Member.fits_of_names rfl
    obtain ⟨laid, hlaid, hnodup, hp, hs⟩ := hl.record (by decide) hfits
    rw [← obj_eq_record] at hlaid
    have hkind : SortedMap.lookup "kind" laid = some (f (.obj (("type", .str type) :: members))) :=
      SortedMap.lookup_eq_some hnodup (hp.mem_iff.mpr (by simp [Member.laidOut]))
    rw [objectOf, hlaid, ofJson]
    simp only [hs, List.map, Option.map_some, Option.bind_eq_bind, Option.bind_some, kindMember_eq, hkind, hk hl,
      placeOfJson_eq hl]
    rfl

theorem trial_kind {f : Json → Json} (hl : Layout f) (r : Reading) (t : TrialPlan) :
    kindOfJson r (f (.obj (("type", .str "trial") :: t.members))) = some fun p => .trial p t := by
  obtain ⟨laid, hlaid, -, -, hlabelled, hs⟩ :=
    hl.labelled r ["trial", "loop"] "type" "trial" TrialPlan.shape (by decide) rfl t.members_readable
  rw [hlaid, kindOfJson]
  simp only [kindOf, hlabelled, Option.bind_eq_bind, Option.bind_some, t.ofJson_eq_some hl hs]
  rfl

theorem loop_kind {f : Json → Json} (hl : Layout f) (r : Reading) (l : LoopPlan) {items : List Node}
    (hi : Denotes (listOfJson .setAside) (.arr (toJsons items)) items) :
    kindOfJson r (f (.obj (("type", .str "loop") :: l.members (toJsons items)))) =
      some fun p => .loop p l items := by
  obtain ⟨laid, hlaid, hnodup, hmem, hlabelled, hs⟩ :=
    hl.labelled r ["trial", "loop"] "type" "loop" LoopPlan.shape (by decide) rfl
      (l.members_readable ((readable_arr _).mp hi.readable))
  have hitems : SortedMap.lookup "items" laid = some (f (.arr (toJsons items))) :=
    SortedMap.lookup_eq_some hnodup (hmem ("items", .arr (toJsons items)) (by simp [LoopPlan.members]))
  rw [hlaid, kindOfJson]
  simp only [kindOf, hlabelled, Option.bind_eq_bind, Option.bind_some, l.ofJson_eq_some hl hs, itemsMember_eq,
    hitems, hi.reads hl]
  rfl

theorem denotes_cons (r : Reading) {n : Node} {nodes : List Node} (hn : Denotes (ofJson r) n.toJson n)
    (h : Denotes (listOfJson r) (.arr (toJsons nodes)) nodes) :
    Denotes (listOfJson r) (.arr (toJsons (n :: nodes))) (n :: nodes) where
  readable := by
    have hnodes := h.readable
    rw [readable_arr] at hnodes
    simpa [toJsons, hn.readable] using hnodes
  reads {f} hl := by
    have hnodes := h.reads hl
    rw [hl.arr, listOfJson] at hnodes
    rw [hl.arr, listOfJson, toJsons, List.map_cons, ofJsons]
    simp only [hn.reads hl, hnodes, Option.bind_eq_bind, Option.bind_some]
    rfl

theorem denotes_nodes (r : Reading) (nodes : List Node) :
    Denotes (listOfJson r) (.arr (toJsons nodes)) nodes := by
  induction nodes using forest_induction generalizing r with
  | nil =>
      constructor
      · simp [toJsons]
      · intro f hl
        rw [hl.arr, listOfJson, toJsons, List.map_nil, ofJsons]
  | trial p t rest ih =>
      refine denotes_cons r ?_ (ih r)
      rw [toJson]
      exact denotes_objectOf r p "trial" t.members_readable fun hl => trial_kind hl r t
  | loop p l items rest ihItems ih =>
      refine denotes_cons r ?_ (ih r)
      have hitems := ihItems .setAside
      rw [toJson]
      exact denotes_objectOf r p "loop" (l.members_readable ((readable_arr _).mp hitems.readable))
        fun hl => loop_kind hl r l hitems

end Node

theorem Severity.denotes (s : Severity) : Denotes ofJson s.toJson s where
  readable := by cases s <;> rfl
  reads hl := by cases s <;> (rw [toJson, hl.str]; rfl)

theorem Diagnostic.denotes (d : Diagnostic) : Denotes ofJson d.toJson d where
  readable := by
    have hseverity := d.severity.denotes.readable
    have hitem := (ItemId.denotes_option d.item).readable
    simp [toJson, hseverity, hitem]
  reads {f} hl := by
    have hs : slots shape (f d.toJson) = _ := hl.slots_obj (by decide) rfl
    rw [ofJson]
    exact reads_bind hs <| reads_bind (d.severity.denotes.reads hl) <|
      reads_bind ((ItemId.denotes_option d.item).reads hl) <| reads_bind ((denotes_str d.message).reads hl) rfl

namespace Timeline

theorem denotes (t : Timeline) : Denotes ofJson t.toJson t := by
  have hnodes := Node.denotes_nodes .direct t.nodes
  have hids := t.knownIds.denotes
  have hdiagnostics : Denotes (listOf Diagnostic.ofJson) (ofList Diagnostic.toJson t.diagnostics) t.diagnostics :=
    denotes_listOf fun d _ => d.denotes
  constructor
  · have hn := hnodes.readable
    rw [readable_arr] at hn
    simpa [toJson, hids.readable, hdiagnostics.readable] using hn
  · intro f hl
    have hs : slots shape (f t.toJson) = _ := hl.slots_obj (by decide) rfl
    rw [ofJson]
    exact reads_bind hs <| reads_bind (hnodes.reads hl) <| reads_bind (hids.reads hl) <|
      reads_bind (hdiagnostics.reads hl) rfl

/-- Every timeline, and so every compiled one, is read again from what is written of it, both with the
members in the order in which they are written and as free-form data, and has the same scripts then. -/
theorem ofJson_restored (t : Timeline) :
    ofJson t.toJson = some t ∧ ∃ v, Value.ofJson t.toJson = some v ∧ ofJson v.json = some t ∧
      ∀ settings, (ofJson v.json).map (fun again => again.emit settings) = some (t.emit settings) := by
  obtain ⟨v, hv, hread⟩ := t.denotes.value
  refine ⟨t.denotes.reads layout_id, v, hv, hread, fun settings => ?_⟩
  rw [hread]
  rfl

end Timeline

end BranchingTimeline
