import BranchingTimeline.Proofs.Script.Filling
import BranchingTimeline.Proofs.Timeline.Strictness

namespace BranchingTimeline

namespace Prelude

def nameAfter (cs : List Char) : String :=
  String.ofList (cs.takeWhile fun c => Emit.startsIdentifier c || c.isDigit)

def declared? (line : List Char) : Option String :=
  if "var ".toList.isPrefixOf line then some (nameAfter (line.drop 4))
  else if "function ".toList.isPrefixOf line then some (nameAfter (line.drop 9))
  else none

def names : List String :=
  ["tlJumpKey", "tlJumpMemory", "tlRootScope", "tlScope", "tlPendingJump", "tlSetJump", "tlClearJump",
    "tlCompare", "tlColumn", "tlLatest", "tlBlank", "tlRuleHolds", "tlConditionHolds", "tlAnyHolds",
    "tlItemGuard", "tlResetPass", "tlEnterLoop", "tlSelectBranch", "tlResolveBranch", "tlCheckRepeats",
    "tlFinish", "tlFinishLoop", "tlContinueLoop", "tlParticipantIndex", "tlMaterialize", "tlInstrument"]

theorem declaredIn_cons {cs : List Char} {ls : List String} {declared : List String}
    (h : ls.filterMap (fun l => declared? l.toList) = declared) :
    (String.ofList cs :: ls).filterMap (fun l => declared? l.toList) = (declared? cs).toList ++ declared := by
  rw [List.filterMap_cons, String.toList_ofList, h]
  cases declared? cs <;> rfl

set_option maxRecDepth 4000 in
theorem declaredIn_lines : lines.filterMap (fun l => declared? l.toList) = names := by
  unfold lines
  repeat first
    | refine (declaredIn_cons ?_ : _ = none.toList ++ _)
    | refine declaredIn_cons ?_
  rfl

theorem FilledIn.declared?_eq {key p line line' : List Char} (h : FilledIn key p line line') :
    declared? line' = declared? line := by
  cases h with
  | key | participant | plain => rfl

theorem declaredIn_fill {settings : Settings}
    (h : Emit.checkPath "participant_global" settings.participantGlobal = .ok ()) :
    (fill (Json.str settings.jumpStorageKey).literal settings.participantGlobal).filterMap
      (fun l => declared? l.toList) = names := by
  have hfilled := filled h
  rw [← declaredIn_lines]
  generalize lines = ls, fill (Json.str settings.jumpStorageKey).literal settings.participantGlobal = ls' at hfilled
  induction hfilled with
  | nil => rfl
  | cons hl _ ih => rw [List.filterMap_cons, List.filterMap_cons, hl.declared?_eq, ih]

end Prelude

open Emit Node

namespace Emit

theorem pathParts_of_not_mem {cs : List Char} (h : '.' ∉ cs) : pathParts cs = [cs] := by
  induction cs with
  | nil => rfl
  | cons c cs ih =>
      rw [List.mem_cons, not_or] at h
      rw [pathParts, if_neg (Ne.symm h.1), ih h.2]

theorem isIdentifier_iff {setting value : String} (h : checkPath setting value = .ok ()) :
    isIdentifier value.toList = true ↔ '.' ∉ value.toList := by
  constructor
  · intro hid hpoint
    exact absurd (of_isIdentifier hid _ hpoint) (by decide)
  · intro hpoint
    have hparts := parts_of_path h
    rw [pathParts_of_not_mem hpoint] at hparts
    simpa using hparts

/-- The names that a script declares: the variables and functions of the runtime, and the constants
of the lines after it. -/
def declaredNames (settings : Settings) (lines : List Line) : List String :=
  (Prelude.fill (Json.str settings.jumpStorageKey).literal settings.participantGlobal).filterMap
    (fun l => Prelude.declared? l.toList) ++ (Line.declaredIn lines).map Variable.text

/-- A script declares its timeline under an identifier that it declares nothing else under. -/
structure Fresh (settings : Settings) (lines : List Line) : Prop where
  line : ⟨0, [.text "const ", .declared (.timeline settings.timelineVar), .text " = [];"]⟩ ∈ lines
  identifier : isIdentifier settings.timelineVar.toList = true
  unreserved : settings.timelineVar ∉ Variable.reservedWords
  once : (declaredNames settings lines).count settings.timelineVar = 1

/-- A name that no script declares, apart from its timeline. -/
structure Free (name : String) : Prop where
  undotted : '.' ∉ name.toList
  unreserved : name ∉ Variable.reservedWords
  runtime : name ∉ Prelude.names
  knownIds : name ≠ "TL_KNOWN_IDS"
  generated : ∀ lead ∈ ["tl_scope_", "trial_", "node_", "loop_"], ∀ word, Namer.IsWord word → name ≠ lead ++ word

variable {t : Timeline} {settings : Settings} {named : List (Node × String)}

theorem Naming.declaredNames_eq (h : Naming t named)
    (hp : checkPath "participant_global" settings.participantGlobal = .ok ()) :
    declaredNames settings (script t settings) =
      Prelude.names ++ ((constants t named).map Variable.text ++ (ownTimeline settings).map Variable.text) := by
  rw [declaredNames, Prelude.declaredIn_fill hp, script_eq, Line.declaredIn_append, declaredIn_preludeLines,
    List.nil_append, (h.scoped_body settings).declaredIn_eq, List.map_append]

/-- The timeline is declared once exactly if no other name is spelled the same. -/
theorem Naming.count_eq_one_iff (h : Naming t named) (hd : settings.declareTimeline = true)
    (hp : checkPath "participant_global" settings.participantGlobal = .ok ()) :
    (declaredNames settings (script t settings)).count settings.timelineVar = 1 ↔
      settings.timelineVar ∉ Prelude.names ∧ ∀ v ∈ constants t named, v.text ≠ settings.timelineVar := by
  have hown : (ownTimeline settings).map Variable.text = [settings.timelineVar] := by
    rw [ownTimeline, if_pos hd]
    rfl
  have hothers : settings.timelineVar ∉ (constants t named).map Variable.text ↔
      ∀ v ∈ constants t named, v.text ≠ settings.timelineVar := by
    simp only [List.mem_map, not_exists, not_and]
  rw [h.declaredNames_eq hp, hown, List.count_append, List.count_append, List.count_singleton_self, ← hothers,
    ← List.count_eq_zero, ← List.count_eq_zero]
  omega

theorem nameFor_word {word : String} (h : Namer.IsWord word) : (Namer.start.nameFor ⟨word⟩).1 = word := by
  have hchars : ∀ c ∈ word.toList, (if c.isAlphanum then c else '_') = c := by
    intro c hc
    rcases h.2 c hc with halnum | rfl
    · rw [if_pos halnum]
    · rfl
  have hsanitized : sanitize ⟨word⟩ = word := by
    rw [sanitize, if_neg h.1, List.map_congr_left hchars, List.map_id', String.ofList_toList]
  exact hsanitized

theorem exists_compiled (items : List Item) :
    ∃ t, compile { Settings.default with strictTargets := false } items = .ok t := by
  obtain ⟨t, ht, -⟩ := Compile.compile_strict .default items
  exact ⟨t, ht⟩

theorem Emitted.single {n : Node} {name : String} {lines : List Line}
    (h : Emitted [n] lines [n.holder name] named) (hi : n.items = []) : named = [(n, name)] := by
  cases h with
  | trial =>
      rename_i hr
      cases hr
      rfl
  | loop =>
      rename_i hbody hr
      cases hi
      cases hbody
      cases hr
      rfl

variable {options : Settings} {word : String}

theorem constants_of_trial (hw : Namer.IsWord word) (hc : compile options [.trial (.plain ⟨word⟩)] = .ok t)
    (h : Naming t named) : .trial word ∈ constants t named ∧ .node word ∈ constants t named := by
  have hcompiled := Compile.compiled_of_compile hc
  have hemitted := h.emitted
  have hnodes : ∃ p plan, plan.id = ⟨word⟩ ∧ t.nodes = [.trial p plan] := by
    generalize t.nodes = nodes at hcompiled
    cases hcompiled with
    | trial hr =>
        cases hr
        exact ⟨_, _, rfl, rfl⟩
  obtain ⟨p, plan, hid, hnodes⟩ := hnodes
  rw [hnodes] at hemitted
  simp only [Emit.nodes, Emit.node, hid, nameFor_word hw] at hemitted
  rw [constants, hemitted.single rfl]
  simp [constantsOf, Node.constants]

theorem constants_of_loop (hw : Namer.IsWord word) (hc : compile options [.loop (.plain ⟨word⟩) []] = .ok t)
    (h : Naming t named) : .scope word ∈ constants t named ∧ .loop word ∈ constants t named := by
  have hcompiled := Compile.compiled_of_compile hc
  have hemitted := h.emitted
  have hnodes : ∃ p plan, plan.id = ⟨word⟩ ∧ t.nodes = [.loop p plan []] := by
    generalize t.nodes = nodes at hcompiled
    cases hcompiled with
    | loop name hi hr =>
        cases hi
        cases hr
        exact ⟨_, _, rfl, rfl⟩
  have hscopes : scopesIn t.nodes = [.loop word] := by
    rw [Compile.scopesIn_eq hc]
    simp [Namer.nameAll, Loop.plain, nameFor_word hw]
  obtain ⟨p, plan, hid, hnodes⟩ := hnodes
  rw [hnodes] at hemitted
  simp only [Emit.nodes, Emit.node, hid, nameFor_word hw] at hemitted
  rw [constants, hscopes, hemitted.single rfl]
  simp [constantsOf, Node.constants, Variable.ofScope]

theorem mem_script (hd : settings.declareTimeline = true) (t : Timeline) :
    ⟨0, [.text "const ", .declared (.timeline settings.timelineVar), .text " = [];"]⟩ ∈ script t settings := by
  rw [script_eq, body, pushLines, if_pos hd]
  simp

theorem Free.text_ne {name : String} (h : Free name) {v : Variable} (hv : v.Generated) : v.text ≠ name := by
  rintro rfl
  cases v with
  | rootScope | timeline => exact hv
  | knownIds => exact h.knownIds rfl
  | scope word => exact h.generated "tl_scope_" (by simp) word hv rfl
  | trial word => exact h.generated "trial_" (by simp) word hv rfl
  | node word => exact h.generated "node_" (by simp) word hv rfl
  | loop word => exact h.generated "loop_" (by simp) word hv rfl

/-- A generated name is that of a constant in the script of some tree. -/
theorem exists_constant {lead : String} (hl : lead ∈ ["tl_scope_", "trial_", "node_", "loop_"])
    (hw : Namer.IsWord word) : ∃ options items t, compile options items = .ok t ∧
      ∀ named, Naming t named → ∃ v ∈ constants t named, v.text = lead ++ word := by
  obtain ⟨t, ht⟩ := exists_compiled [.trial (.plain ⟨word⟩)]
  obtain ⟨l, hloop⟩ := exists_compiled [.loop (.plain ⟨word⟩) []]
  simp only [List.mem_cons, List.not_mem_nil, or_false] at hl
  rcases hl with rfl | rfl | rfl | rfl
  · exact ⟨_, _, l, hloop, fun named hn => ⟨_, (constants_of_loop hw hloop hn).1, rfl⟩⟩
  · exact ⟨_, _, t, ht, fun named hn => ⟨_, (constants_of_trial hw ht hn).1, rfl⟩⟩
  · exact ⟨_, _, t, ht, fun named hn => ⟨_, (constants_of_trial hw ht hn).2, rfl⟩⟩
  · exact ⟨_, _, l, hloop, fun named hn => ⟨_, (constants_of_loop hw hloop hn).2, rfl⟩⟩

end Emit

/-- The timeline of every script is declared under a name of its own exactly if the settings name it
by a free one. -/
theorem timeline_fresh_iff {settings : Settings} {u : Timeline} {text : String}
    (hd : settings.declareTimeline = true) (he : u.emit settings = .ok text) :
    (∀ options items t lines, compile options items = .ok t → t.emitLines settings = .ok lines →
      Fresh settings lines) ↔ Free settings.timelineVar := by
  obtain ⟨ht, hp, -⟩ := u.emitLines_ok (u.emit_ok he).1
  have hlines : ∀ t : Timeline, t.emitLines settings = .ok (script t settings) :=
    fun t => (t.emit_ok (t.emit_of_paths ht hp)).1
  constructor
  · intro hfresh
    have hothers : ∀ {options items t named}, compile options items = .ok t → Naming t named →
        settings.timelineVar ∉ Prelude.names ∧ ∀ v ∈ constants t named, v.text ≠ settings.timelineVar :=
      fun hc hn => (hn.count_eq_one_iff hd hp).mp (hfresh _ _ _ _ hc (hlines _)).once
    obtain ⟨t, hc⟩ := exists_compiled []
    obtain ⟨named, hn⟩ := exists_naming hc
    have hbare := hfresh _ _ _ _ hc (hlines t)
    refine ⟨(isIdentifier_iff ht).mp hbare.identifier, hbare.unreserved, (hothers hc hn).1, ?_, ?_⟩
    · exact ((hothers hc hn).2 .knownIds List.mem_cons_self).symm
    · intro lead hl word hw hname
      obtain ⟨options, items, t', hc', hconstant⟩ := exists_constant hl hw
      obtain ⟨named', hn'⟩ := exists_naming hc'
      obtain ⟨v, hv, hvtext⟩ := hconstant named' hn'
      exact (hothers hc' hn').2 v hv (hvtext.trans hname.symm)
  · intro hfree options items t lines hc hl
    obtain ⟨-, -, rfl⟩ := t.emitLines_ok hl
    obtain ⟨named, hn⟩ := exists_naming hc
    refine ⟨mem_script hd t, (isIdentifier_iff ht).mpr hfree.undotted, hfree.unreserved, ?_⟩
    exact (hn.count_eq_one_iff hd hp).mpr ⟨hfree.runtime, fun v hv => hfree.text_ne (hn.generated v hv)⟩

theorem timeline_fresh_default :
    (∃ text, bareTimeline.emit .default = .ok text) ∧ Free Settings.default.timelineVar ∧
      ∀ options items t lines, compile options items = .ok t → t.emitLines .default = .ok lines →
        Fresh .default lines := by
  have he : bareTimeline.emit .default = .ok _ := bareTimeline.emit_of_paths (by decide) (by decide)
  have hfree : Free Settings.default.timelineVar := by
    have hleads : ∀ lead ∈ ["tl_scope_", "trial_", "node_", "loop_"], ¬lead.toList <+: "timeline".toList := by
      decide
    refine ⟨by decide, by decide, by decide, by decide, fun lead hl word _ hname => hleads lead hl ?_⟩
    have hchars := congrArg String.toList hname
    rw [String.toList_append] at hchars
    exact ⟨_, hchars.symm⟩
  exact ⟨⟨_, he⟩, hfree, (timeline_fresh_iff rfl he).mpr hfree⟩

def pointed : Settings := { Settings.default with timelineVar := "window.timeline" }

theorem timeline_not_fresh :
    compile pointed [] = .ok bareTimeline ∧
      ∃ lines, bareTimeline.emitLines pointed = .ok lines ∧
        ⟨0, [.text "const ", .declared (.timeline "window.timeline"), .text " = [];"]⟩ ∈ lines ∧
        isIdentifier "window.timeline".toList = false := by
  have hc : compile pointed [] = .ok bareTimeline := by cbv
  have he : bareTimeline.emitLines pointed = .ok _ :=
    (bareTimeline.emit_ok (bareTimeline.emit_of_paths (by decide) (by decide))).1
  exact ⟨hc, _, he, mem_script rfl bareTimeline, by decide⟩

end BranchingTimeline
