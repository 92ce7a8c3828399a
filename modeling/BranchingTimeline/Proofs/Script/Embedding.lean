import BranchingTimeline.Proofs.Script.Scoping
import BranchingTimeline.Proofs.Script.Tags
import BranchingTimeline.Proofs.Script.Words

namespace BranchingTimeline

open Text

def Node.title : Node → String × ItemId
  | trial _ t => (t.name, t.id)
  | loop _ l _ => (l.name, l.id)

def Piece.isOpaque : Piece → Bool
  | source _ | comment _ => true
  | text _ | declared _ | used _ | literal _ => false

/-- A part that makes no tag, not even with what stands after it. -/
structure Piece.Settled (p : Piece) : Prop where
  tagless : ¬HasTag p.render.toList
  closed : Closed p.render.toList

namespace Line

def isOpaque (l : Line) : Bool := l.pieces.any Piece.isOpaque

theorem hasTag_render (l : Line) : HasTag l.render.toList ↔ HasTag (chars l.pieces) := by
  have hindent : '<' ∉ List.replicate (2 * l.depth) ' ' := fun h =>
    absurd (List.eq_of_mem_replicate h) (by decide)
  rw [toList_render, row, hasTag_append_of_not_mem hindent]

theorem hasTag_renderAll (ls : List Line) :
    HasTag (renderAll ls).toList ↔ ∃ l ∈ ls, HasTag l.render.toList := by
  rw [renderAll, String.toList_join, List.flatMap_map]
  induction ls with
  | nil => simp [HasTag]
  | cons l ls ih =>
      have hend : Closed (l.render ++ "\n").toList := by
        rw [String.toList_append]
        exact closed_concat (by decide) _
      have hline : HasTag (l.render ++ "\n").toList ↔ HasTag l.render.toList := by
        rw [String.toList_append, hasTag_append_of_head (by decide)]
        exact or_iff_left (by decide)
      rw [List.flatMap_cons, hend.hasTag_append, hline, ih]
      simp

theorem not_hasTag_chars {pieces : List Piece} (h : ∀ p ∈ pieces, p.Settled) :
    ¬HasTag (chars pieces) := by
  induction pieces with
  | nil => simp [chars, HasTag]
  | cons p pieces ih =>
      rw [List.forall_mem_cons] at h
      rw [chars_cons, h.1.closed.hasTag_append, not_or]
      exact ⟨h.1.tagless, ih h.2⟩

end Line

theorem Piece.settled_of_not_mem {p : Piece} (h : '<' ∉ p.render.toList) : p.Settled :=
  ⟨not_hasTag_of_not_mem h, closed_of_not_mem h⟩

theorem Variable.Generated.not_mem {v : Variable} (h : v.Generated) : '<' ∉ v.text.toList := by
  have hleads : ∀ a ∈ leads, '<' ∉ a.toList := by decide
  rw [h.text_eq, String.toList_append, List.mem_append, not_or]
  exact ⟨hleads _ h.lead_mem, fun hc => absurd (h.given_word _ hc) (by decide)⟩

namespace Emit

open Node

theorem not_mem_wording : ∀ s ∈ wording, '<' ∉ s.toList := by
  unfold wording
  repeat refine forall_literals (fun cs => '<' ∉ cs) (by decide) ?_
  simp

variable {known : List Variable} {l : Line}

theorem Within.settled {p : Piece} (h : Within known p) (hk : ∀ v ∈ known, '<' ∉ v.text.toList)
    (ho : p.isOpaque = false) : p.Settled := by
  cases p with
  | text s => exact Piece.settled_of_not_mem (not_mem_wording s h)
  | declared v => cases h
  | used v => exact Piece.settled_of_not_mem (hk v h)
  | literal j => exact ⟨j.not_hasTag_literal, j.closed_literal⟩
  | source s | comment s => cases ho

/-- A line makes no tag unless it has authored text in it as it is. -/
theorem Written.not_hasTag (h : Written known l) (hk : ∀ v ∈ known, '<' ∉ v.text.toList)
    (ho : l.isOpaque = false) : ¬HasTag l.render.toList := by
  have hplain : ∀ p ∈ l.pieces, p.isOpaque = false := by simpa [Line.isOpaque] using ho
  rw [Line.hasTag_render]
  refine Line.not_hasTag_chars fun p hp => ?_
  rcases h with h | ⟨v, hv, pieces, rfl, h⟩
  · exact (h p hp).settled hk (hplain p hp)
  · simp only [List.mem_cons] at hp
    rcases hp with rfl | rfl | hp
    · exact Piece.settled_of_not_mem (by decide)
    · exact Piece.settled_of_not_mem (hk v hv)
    · exact (h p hp).settled hk (hplain p (by simp [hp]))

def instrumentLine (t : TrialPlan) (name : String) : Line :=
  ⟨0, [.text "const ", .declared (.trial name), .text " = tlInstrument(",
    .source (if Text.isBlank t.props then "\x7b\x7d" else Text.trim t.props), .text ", \x7b"]⟩

theorem plain_finishPieces (f : FinishPlan) : ∀ p ∈ finishPieces f, p.isOpaque = false := by
  have hentries : ∀ b : BranchPlan, ∀ p ∈ separated ", " (routeEntries b), p.isOpaque = false := by
    intro b p hp
    rcases mem_separated hp with rfl | ⟨part, hpart, hp⟩
    · rfl
    · obtain ⟨⟨target, route⟩, -, hroute⟩ := List.mem_filterMap.mp hpart
      cases route with
      | jump => cases hroute
      | scope s =>
          cases hroute
          simp only [List.mem_cons, List.not_mem_nil, or_false] at hp
          rcases hp with rfl | rfl | rfl <;> rfl
  simp only [finishPieces, List.forall_mem_append]
  refine ⟨⟨by simp [Piece.isOpaque], ?_⟩, ?_⟩
  · cases f.branch with
    | none => simp [Piece.isOpaque]
    | some b =>
        simp only [branchPieces, List.forall_mem_append]
        exact ⟨⟨by simp [Piece.isOpaque], hentries b⟩, by simp [Piece.isOpaque]⟩
  · cases f.escalateTo <;> simp [Piece.isOpaque, scopePiece]

@[simp] theorem isOpaque_ofText (depth : Nat) (s : String) : (Line.ofText depth s).isOpaque = false := rfl

@[simp] theorem isOpaque_resetLine (s : Scope) : (resetLine s).isOpaque = false := rfl

theorem filter_guardLines (g : Guard) : (guardLines g).filter Line.isOpaque = [] := by
  rw [guardLines]
  split <;> rfl

theorem filter_finishLines (p : Place) {own : List Line} (h : ∀ l ∈ own, l.isOpaque = false) :
    (finishLines p own).filter Line.isOpaque = [] := by
  have hown : own.filter Line.isOpaque = [] := List.filter_eq_nil_iff.mpr fun l hl => by simp [h l hl]
  have hreset : (if p.isLast then [resetLine p.guard.scope] else []).filter Line.isOpaque = [] := by
    split <;> rfl
  simp [finishLines, List.filter_append, hown, hreset]

theorem isOpaque_finish (f : FinishPlan) (depth : Nat) (s : String) :
    (⟨depth, .text s :: finishPieces f⟩ : Line).isOpaque = false := by
  simpa [Line.isOpaque, Piece.isOpaque] using plain_finishPieces f

theorem opaque_trialLines (p : Place) (t : TrialPlan) (name : String) :
    (trialLines p t name).filter Line.isOpaque = [heading "// " t.name t.id, instrumentLine t name] := by
  have hfinish := isOpaque_finish t.finish 1 "finish: "
  have hown : (finishLines p []).filter Line.isOpaque = [] := filter_finishLines p (by simp)
  simp only [trialLines, List.filter_append, List.filter_cons, filter_guardLines, hown, hfinish]
  rfl

theorem opaque_loopLines (p : Place) (l : LoopPlan) (name : String) (children : List Variable) :
    (loopLines p l name children).filter Line.isOpaque = [heading "// loop " l.name l.id] := by
  have hchildren : (⟨1, .text "timeline: [" :: separated ", " (children.map fun v => [.used v])
      ++ [.text "],"]⟩ : Line).isOpaque = false := by
    have hused : ∀ p ∈ separated ", " (children.map fun v => [Piece.used v]), p.isOpaque = false := by
      intro p hp
      rcases mem_separated hp with rfl | ⟨part, hpart, hp⟩
      · rfl
      · obtain ⟨v, -, rfl⟩ := List.mem_map.mp hpart
        obtain rfl := List.mem_singleton.mp hp
        rfl
    simpa [Line.isOpaque, Piece.isOpaque] using hused
  have hstimuli : (if l.stimuli.rows.isEmpty then []
      else [(⟨1, [.text "timeline_variables: tlMaterialize(", .literal l.stimuli.toJson,
        .text "),"]⟩ : Line)]).filter Line.isOpaque = [] := by
    split <;> rfl
  have hfinish : (⟨2, [.text "tlFinishLoop(", scopePiece l.scope, .text ", "] ++ finishPieces l.finish
      ++ [.text ", ", .literal (.bool l.terminal), .text ");"]⟩ : Line).isOpaque = false := by
    simpa [Line.isOpaque, Piece.isOpaque, scopePiece] using plain_finishPieces l.finish
  have hown := filter_finishLines p (List.forall_mem_singleton.mpr hfinish)
  simp only [loopLines, List.filter_append, List.filter_cons, filter_guardLines, hchildren, hstimuli,
    hown]
  rfl

def titleLine : Node → Line
  | .trial _ t => heading "// " t.name t.id
  | .loop _ l _ => heading "// loop " l.name l.id

theorem hasTag_comment (s : String) :
    HasTag (Piece.comment s).render.toList ↔ HasTag s.toList := by
  rw [Piece.render, String.toList_ofList]
  refine hasTag_map (fun c => ?_) fun c => ?_
  · split
    · rename_i hc
      rcases hc with rfl | rfl <;> decide
    · rfl
  · split
    · rename_i hc
      rcases hc with rfl | rfl <;> decide
    · rfl

theorem hasTag_heading {label : String} (hl : '<' ∉ label.toList) (name : String) (id : ItemId) :
    HasTag (heading label name id).render.toList ↔ HasTag name.toList ∨ HasTag id.text.toList := by
  have hlabel : '<' ∉ (Piece.text label).render.toList := hl
  have hopen : '<' ∉ (Piece.text " (").render.toList := by decide
  have hclose : ¬HasTag (Line.chars [.text ")"]) := by decide
  rw [Line.hasTag_render, heading, Line.chars_cons, Line.chars_cons, Line.chars_cons, Line.chars_cons,
    hasTag_append_of_not_mem hlabel,
    hasTag_append_of_head (by simp [Piece.render, List.cons_prefix_cons]), hasTag_comment,
    hasTag_append_of_not_mem hopen,
    hasTag_append_of_head (by decide), hasTag_comment, or_iff_left hclose]

theorem hasTag_titleLine (n : Node) :
    HasTag (titleLine n).render.toList ↔ HasTag n.title.1.toList ∨ HasTag n.title.2.text.toList := by
  cases n <;> exact hasTag_heading (by decide) _ _

theorem not_hasTag_instrumentLine {t : TrialPlan} (hp : ¬HasTag t.props.toList) {name : String}
    (hn : '<' ∉ (Variable.trial name).text.toList) : ¬HasTag (instrumentLine t name).render.toList := by
  have hsource : ¬HasTag (if Text.isBlank t.props then "\x7b\x7d" else Text.trim t.props).toList := by
    split
    · decide
    · exact fun h => hp (List.IsInfix.trans h (trim_within t.props))
  have hconst : '<' ∉ (Piece.text "const ").render.toList := by decide
  have hcall : '<' ∉ (Piece.text " = tlInstrument(").render.toList := by decide
  have hvariable : '<' ∉ (Piece.declared (.trial name)).render.toList := hn
  rw [Line.hasTag_render, instrumentLine, Line.chars_cons, Line.chars_cons, Line.chars_cons,
    Line.chars_cons, hasTag_append_of_not_mem hconst, hasTag_append_of_not_mem hvariable,
    hasTag_append_of_not_mem hcall, hasTag_append_of_head (by decide), not_or]
  exact ⟨hsource, by decide⟩

section Nodes

variable {nodes : List Node} {lines : List Line} {holders : List Variable} {named : List (Node × String)}

theorem Emitted.opaque_inv (h : Emitted nodes lines holders named) (hl : l ∈ lines)
    (ho : l.isOpaque = true) :
    ∃ n name, (n, name) ∈ named ∧
      (l = titleLine n ∨ ∃ p t, n = .trial p t ∧ l = instrumentLine t name) := by
  obtain ⟨n, name, children, hn, hl⟩ := h.exists_block hl
  refine ⟨n, name, hn, ?_⟩
  cases n with
  | trial p t =>
      have hmem : l ∈ (trialLines p t name).filter Line.isOpaque := List.mem_filter.mpr ⟨hl, ho⟩
      rw [opaque_trialLines, List.mem_cons, List.mem_singleton] at hmem
      exact hmem.imp id fun he => ⟨p, t, rfl, he⟩
  | loop p plan items =>
      have hmem : l ∈ (loopLines p plan name children).filter Line.isOpaque := List.mem_filter.mpr ⟨hl, ho⟩
      rw [opaque_loopLines, List.mem_singleton] at hmem
      exact .inl hmem

theorem titleLine_mem_block (name : String) (children : List Variable) (n : Node) :
    titleLine n ∈ block name children n := by
  cases n <;> simp [titleLine, block, trialLines, loopLines]

end Nodes

theorem plain_declarations (t : Timeline) : ∀ l ∈ declarations t, l.isOpaque = false := by
  simp only [declarations, List.forall_mem_cons, List.forall_mem_map]
  exact ⟨rfl, fun s _ => rfl⟩

theorem plain_pushLines (settings : Settings) (roots : List Variable) :
    ∀ l ∈ pushLines settings roots, l.isOpaque = false := by
  simp only [pushLines, List.cons_append, List.forall_mem_cons, List.forall_mem_append,
    List.forall_mem_map]
  exact ⟨rfl, by split <;> simp [Line.isOpaque, Piece.isOpaque], fun v _ => rfl⟩

theorem plain_reloadLines (settings : Settings) :
    ∀ l ∈ (if settings.emitReloadGuard then reloadLines (.timeline settings.timelineVar) else []),
      l.isOpaque = false := by
  split
  · simp [reloadLines, Line.isOpaque, Piece.isOpaque, Line.blank, Line.ofText]
  · simp

theorem mem_nodes_of_authored {t : Timeline} {settings : Settings} (hl : l ∈ body t settings)
    (ho : l.isOpaque = true) : l ∈ (Emit.nodes .start t.nodes).1 := by
  rcases List.mem_append.mp hl with hl | hl
  · rcases List.mem_append.mp hl with hl | hl
    · simp [plain_declarations t l hl] at ho
    · exact hl
  · rcases List.mem_append.mp hl with hl | hl
    · simp [plain_pushLines settings _ l hl] at ho
    · simp [plain_reloadLines settings l hl] at ho

end Emit

namespace Compile

open Node

variable {settings : Settings} {items : List Item} {t : Timeline} {around : Surroundings} {index : Nat}
  {later : List ItemId} {item : Item} {n : Node} {p : Place} {plan : TrialPlan}

theorem NodeOf.title_eq (h : NodeOf around index later item n) : n.title = (item.name, item.id) := by
  cases h <;> rfl

theorem NodeOf.trial_props (h : NodeOf around index later item (.trial p plan)) :
    ∃ trial, item = .trial trial ∧ plan.props = trial.props := by
  cases h with
  | trial trial => exact ⟨trial, rfl, rfl⟩

theorem titles_eq (h : compile settings items = .ok t) :
    (flattenIn t.nodes).map Node.title = (Item.flattenIn items).map fun i => (i.name, i.id) := by
  have hs := (compiled_of_compile h).sources
  generalize Item.flattenIn items = sources, flattenIn t.nodes = standing at hs
  induction hs with
  | nil => rfl
  | cons hn _ ih =>
      obtain ⟨_, _, _, hn⟩ := hn
      rw [List.map_cons, List.map_cons, hn.title_eq, ih]

end Compile

open Emit Node

theorem Emit.Naming.not_mem {t : Timeline} {config : Settings} {named : List (Node × String)}
    (h : Naming t named) (ht : checkPath "timeline_var" config.timelineVar = .ok ()) :
    ∀ v ∈ Emit.constants t named ++ [.rootScope, .timeline config.timelineVar],
      '<' ∉ v.text.toList := by
  intro v hv
  simp only [List.mem_append, List.mem_cons, List.not_mem_nil, or_false] at hv
  rcases hv with hv | rfl | rfl
  · exact (h.generated v hv).not_mem
  · decide
  · exact (insertable_path ht).1

theorem not_hasTag_preludeLines {config : Settings}
    (hp : checkPath "participant_global" config.participantGlobal = .ok ()) :
    ∀ l ∈ preludeLines config, ¬HasTag l.render.toList := by
  have hkey := Json.insertable_str config.jumpStorageKey
  have hfill := Prelude.not_hasTag_fill hkey (insertable_path hp).2
  intro l hl
  rw [Line.hasTag_render]
  rcases List.mem_append.mp hl with hl | hl
  · obtain ⟨s, hs, rfl⟩ := List.mem_map.mp hl
    simpa [Line.chars, Line.ofText, Piece.render] using hfill s hs
  · obtain rfl := List.mem_singleton.mp hl
    decide

/-- Of the lines with authored text in them as it is, only the comments can have a tag in them. -/
theorem Emit.Naming.title_of_hasTag {settings : Settings} {items : List Item} {t : Timeline}
    {named : List (Node × String)} (hnaming : Naming t named) (h : compile settings items = .ok t)
    (hprops : ∀ trial, .trial trial ∈ Item.flattenIn items → ¬HasTag trial.props.toList) {l : Line}
    (hl : l ∈ (Emit.nodes .start t.nodes).1) (ho : l.isOpaque = true) (htag : HasTag l.render.toList) :
    ∃ n ∈ flattenIn t.nodes, HasTag n.title.1.toList ∨ HasTag n.title.2.text.toList := by
  obtain ⟨n, name, hn, hline⟩ := hnaming.emitted.opaque_inv hl ho
  have hmem : n ∈ flattenIn t.nodes := hnaming.emitted.perm.mem_iff.mp (List.mem_map_of_mem hn)
  rcases hline with rfl | ⟨p, plan, rfl, rfl⟩
  · exact ⟨n, hmem, (hasTag_titleLine n).mp htag⟩
  · obtain ⟨item, hitem, _, _, _, hsource⟩ := (Compile.compiled_of_compile h).source hmem
    obtain ⟨trial, rfl, hsame⟩ := hsource.trial_props
    have hvariable : .trial name ∈ Emit.constants t named :=
      List.mem_append_right _ (List.mem_flatMap.mpr ⟨_, hn, by simp [Node.constants]⟩)
    have hplan : ¬HasTag plan.props.toList := by
      rw [hsame]
      exact hprops trial hitem
    exact absurd htag (not_hasTag_instrumentLine hplan (hnaming.generated _ hvariable).not_mem)

theorem hasTag_of_title {t : Timeline} {n : Node} (hn : n ∈ flattenIn t.nodes)
    (htag : HasTag n.title.1.toList ∨ HasTag n.title.2.text.toList) (config : Settings) :
    HasTag (Line.renderAll (script t config)).toList := by
  have hmem := mem_script_of_block hn config fun name children => titleLine_mem_block name children n
  exact (Line.hasTag_renderAll _).mpr ⟨titleLine n, hmem, (hasTag_titleLine n).mpr htag⟩

/-- If no trial has a closing tag in its properties, one gets into the script by the comments above
the nodes only: those have the names and the ids as they are. -/
theorem emit_hasTag_iff {settings config : Settings} {items : List Item} {t : Timeline} {text : String}
    (h : compile settings items = .ok t) (he : t.emit config = .ok text)
    (hprops : ∀ trial, .trial trial ∈ Item.flattenIn items → ¬HasTag trial.props.toList) :
    HasTag text.toList ↔ ∃ i ∈ Item.flattenIn items, HasTag i.name.toList ∨ HasTag i.id.text.toList := by
  obtain ⟨hlines, htext⟩ := t.emit_ok he
  obtain ⟨ht, hp, -⟩ := t.emitLines_ok hlines
  obtain ⟨named, hnaming⟩ := exists_naming h
  have htitles : (∃ i ∈ Item.flattenIn items, HasTag i.name.toList ∨ HasTag i.id.text.toList) ↔
      ∃ n ∈ flattenIn t.nodes, HasTag n.title.1.toList ∨ HasTag n.title.2.text.toList := by
    have hmap := congrArg (fun titles => ∃ e ∈ titles, HasTag e.1.toList ∨ HasTag e.2.text.toList)
      (Compile.titles_eq h)
    simpa using hmap.symm
  rw [htext, htitles]
  constructor
  · intro hscript
    obtain ⟨l, hl, htag⟩ := (Line.hasTag_renderAll _).mp hscript
    rw [script_eq, List.mem_append] at hl
    rcases hl with hl | hl
    · exact absurd htag (not_hasTag_preludeLines hp l hl)
    · cases ho : l.isOpaque with
      | false =>
          have hwritten := hnaming.written_body config l hl
          exact absurd htag (hwritten.not_hasTag (hnaming.not_mem ht) ho)
      | true => exact hnaming.title_of_hasTag h hprops (mem_nodes_of_authored hl ho) ho htag
  · rintro ⟨n, hn, htag⟩
    exact hasTag_of_title hn htag config

def tagBranch : Trial := { Trial.plain ⟨"t"⟩ with branches := [⟨"</"⟩] }

def tagBranchTimeline : Timeline := (compile .default [.trial tagBranch]).toOption.getD ⟨[], .empty, []⟩

def tagKey : Settings := { Settings.default with jumpStorageKey := "</script>" }

theorem emit_hasTag_iff_literals :
    compile .default [.trial tagBranch] = .ok tagBranchTimeline ∧
      ∃ text, tagBranchTimeline.emit tagKey = .ok text ∧ ¬HasTag text.toList := by
  have hc : compile .default [.trial tagBranch] = .ok tagBranchTimeline := by cbv
  have hitems : Item.flattenIn [.trial tagBranch] = [.trial tagBranch] := by
    simp [Item.flattenIn, Item.flatten]
  have hprops : ∀ trial, .trial trial ∈ Item.flattenIn [.trial tagBranch] →
      ¬HasTag trial.props.toList := by
    intro trial hmem
    obtain rfl : trial = tagBranch := by simpa [hitems] using hmem
    decide
  have he : tagBranchTimeline.emit tagKey = .ok _ :=
    tagBranchTimeline.emit_of_paths (by decide) (by decide)
  refine ⟨hc, _, he, fun htag => ?_⟩
  obtain ⟨i, hi, hname⟩ := (emit_hasTag_iff hc he hprops).mp htag
  rw [hitems] at hi
  obtain rfl := List.mem_singleton.mp hi
  revert hname
  decide

def closing : Trial := { Trial.plain ⟨"t"⟩ with name := "</script>" }

def closingTimeline : Timeline := (compile .default [.trial closing]).toOption.getD ⟨[], .empty, []⟩

theorem emit_closing :
    compile .default [.trial closing] = .ok closingTimeline ∧
      (∀ trial, .trial trial ∈ Item.flattenIn [.trial closing] → ¬HasTag trial.props.toList) ∧
      ∃ text, closingTimeline.emit .default = .ok text ∧ HasTag text.toList := by
  have hc : compile .default [.trial closing] = .ok closingTimeline := by cbv
  have hitems : Item.flattenIn [.trial closing] = [.trial closing] := by
    simp [Item.flattenIn, Item.flatten]
  have he : closingTimeline.emit .default = .ok _ :=
    closingTimeline.emit_of_paths (by decide) (by decide)
  refine ⟨hc, fun trial hmem => ?_, _, he, ?_⟩
  · obtain rfl : trial = closing := by simpa [hitems] using hmem
    decide
  · have htitle : ("</script>", ⟨"t"⟩) ∈ (flattenIn closingTimeline.nodes).map Node.title := by
      rw [Compile.titles_eq hc, hitems]
      exact List.mem_cons_self
    obtain ⟨n, hn, he⟩ := List.mem_map.mp htitle
    refine hasTag_of_title hn (.inl ?_) .default
    rw [he]
    decide

end BranchingTimeline
