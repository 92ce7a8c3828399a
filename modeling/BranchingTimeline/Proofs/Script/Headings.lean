import BranchingTimeline.Proofs.Script.Embedding
import BranchingTimeline.Proofs.Timeline.Renaming

namespace BranchingTimeline

namespace Text

def endsLine (c : Char) : Bool := c = '\n' || c = '\r' || c = '\u2028' || c = '\u2029'

/-- What is left of a text when the comment at its front is taken away up to the end of its line. -/
def dropComment : List Char → List Char
  | '/' :: '/' :: r => r.dropWhile fun c => !endsLine c
  | cs => cs

/-- A text with neither of the separators that end a line of a script and are no newlines. -/
def Unbroken (s : String) : Prop := ∀ c ∈ s.toList, c ≠ '\u2028' ∧ c ≠ '\u2029'

instance (s : String) : Decidable (Unbroken s) := List.decidableBAll _ _

end Text

open Text

namespace Line

def isHeading (l : Line) : Bool := l.pieces.any fun
  | .comment _ => true
  | _ => false

/-- The text of a line with the newline after it, less the comment if it is one above a node. -/
def remains (l : Line) : List Char :=
  if l.isHeading then dropComment (l.render ++ "\n").toList else (l.render ++ "\n").toList

def uncommented (ls : List Line) : List Char := ls.flatMap remains

theorem isHeading_of_plain {l : Line} (h : l.isOpaque = false) : l.isHeading = false := by
  simp only [isOpaque, List.any_eq_false] at h
  simp only [isHeading, List.any_eq_false]
  intro p hp
  have hplain := h p hp
  cases p with
  | comment s => exact absurd rfl hplain
  | text | declared | used | literal | source => simp

end Line

/-- The script of a tree, or the error of the compilation or the emission. -/
def scriptOf (settings config : Settings) (items : List Item) : Except Error (List Line) := do
  let t ← compile settings items
  t.emitLines config

namespace Emit

open Node Line

section Comment

variable {label name : String}

theorem unbroken_iff (s : String) :
    Unbroken s ↔ ∀ c ∈ (Piece.comment s).render.toList, (!endsLine c) = true := by
  rw [Piece.render, String.toList_ofList, List.forall_mem_map, Unbroken]
  refine forall₂_congr fun c _ => ?_
  split
  · rename_i hc
    rcases hc with rfl | rfl <;> decide
  · rename_i hc
    rw [not_or] at hc
    simp [endsLine, hc]

def headingEnd (id : ItemId) : List Char :=
  " (".toList ++ ((Piece.comment id.text).render.toList ++ ")\n".toList)

def OpensComment (label : String) : Prop :=
  ∃ r, label.toList = '/' :: '/' :: r ∧ ∀ c ∈ r, (!endsLine c) = true

theorem remains_heading (h : OpensComment label) (name : String) (id : ItemId) :
    (heading label name id).remains =
      ((Piece.comment name).render.toList ++ headingEnd id).dropWhile fun c => !endsLine c := by
  obtain ⟨r, hr, hends⟩ := h
  have htext : ((heading label name id).render ++ "\n").toList =
      '/' :: '/' :: (r ++ ((Piece.comment name).render.toList ++ headingEnd id)) := by
    simp [heading, Line.render, Piece.render, headingEnd, hr]
  have hheading : (heading label name id).isHeading = true := rfl
  rw [remains, if_pos hheading, htext, dropComment, List.dropWhile_append_of_pos hends]

theorem remains_heading_eq (h : OpensComment label) (hn : Unbroken name) (id : ItemId) :
    (heading label "" id).remains = (heading label name id).remains := by
  rw [remains_heading h, remains_heading h, List.dropWhile_append_of_pos ((unbroken_iff name).mp hn)]
  rfl

theorem length_remains_heading (h : OpensComment label) (hn : ¬Unbroken name) (id : ItemId) :
    (heading label "" id).remains.length < (heading label name id).remains.length := by
  have hleft : (Piece.comment name).render.toList.dropWhile (fun c => !endsLine c) ≠ [] := by
    rw [unbroken_iff] at hn
    rwa [Ne, List.dropWhile_eq_nil_iff]
  have hshort : (heading label "" id).remains.length ≤ (headingEnd id).length := by
    rw [remains_heading h]
    exact (List.dropWhile_suffix _).length_le
  have hlong : (heading label name id).remains.length =
      ((Piece.comment name).render.toList.dropWhile fun c => !endsLine c).length + (headingEnd id).length := by
    rw [remains_heading h, List.dropWhile_append, if_neg (by simpa using hleft), List.length_append]
  have hpos := List.length_pos_of_ne_nil hleft
  omega

theorem opensComment_trial : OpensComment "// " := ⟨[' '], rfl, by simp [endsLine]⟩

theorem opensComment_loop : OpensComment "// loop " := ⟨" loop ".toList, rfl, by simp [endsLine]⟩

end Comment

theorem isHeading_titleLine (n : Node) : (titleLine n).isHeading = true := by cases n <;> rfl

theorem remains_titleLine_eq {n : Node} (h : Unbroken n.title.1) :
    (titleLine n.unnamed).remains = (titleLine n).remains := by
  cases n with
  | trial p t =>
      rw [unnamed_trial]
      exact remains_heading_eq opensComment_trial h _
  | loop p l items =>
      rw [unnamed_loop]
      exact remains_heading_eq opensComment_loop h _

theorem length_remains_titleLine {n : Node} (h : ¬Unbroken n.title.1) :
    (titleLine n.unnamed).remains.length < (titleLine n).remains.length := by
  cases n with
  | trial p t =>
      rw [unnamed_trial]
      exact length_remains_heading opensComment_trial h _
  | loop p l items =>
      rw [unnamed_loop]
      exact length_remains_heading opensComment_loop h _

theorem name_eq_of_titleLine {n m : Node} (h : titleLine n = titleLine m) : n.title.1 = m.title.1 := by
  cases n <;> cases m <;> simp_all [titleLine, heading, title]

/-- A line of a script and the same one in the script without names. -/
inductive Erases : Line → Line → Prop
  | heading (n : Node) : Erases (titleLine n) (titleLine n.unnamed)
  | other {l} (h : l.isHeading = false) : Erases l l

section Erases

variable {l l' : Line} {ls rs : List Line}

theorem Erases.remains_eq (h : Erases l l') (hn : ∀ n, l = titleLine n → Unbroken n.title.1) :
    l'.remains = l.remains := by
  cases h with
  | heading n => exact remains_titleLine_eq (hn n rfl)
  | other => rfl

theorem Erases.length_lt {n : Node} (h : Erases (titleLine n) l') (hn : ¬Unbroken n.title.1) :
    l'.remains.length < (titleLine n).remains.length := by
  generalize hl : titleLine n = l at h
  cases h with
  | heading m =>
      rw [name_eq_of_titleLine hl] at hn
      exact length_remains_titleLine hn
  | other hother =>
      rw [← hl, isHeading_titleLine] at hother
      cases hother

theorem Erases.length_le (h : Erases l l') : l'.remains.length ≤ l.remains.length := by
  cases h with
  | heading n =>
      by_cases hn : Unbroken n.title.1
      · rw [remains_titleLine_eq hn]
      · exact (length_remains_titleLine hn).le
  | other => exact le_rfl

theorem erases_others (h : ∀ l ∈ ls, l.isHeading = false) : List.Forall₂ Erases ls ls :=
  List.forall₂_same.mpr fun l hl => .other (h l hl)

theorem length_uncommented_le (h : List.Forall₂ Erases ls rs) :
    (uncommented rs).length ≤ (uncommented ls).length := by
  induction h with
  | nil => exact le_rfl
  | cons hl _ ih =>
      simp only [uncommented, List.flatMap_cons, List.length_append] at ih ⊢
      exact Nat.add_le_add hl.length_le ih

/-- Text of a name gets past the comments exactly if there is a separator in a name. -/
theorem uncommented_eq_iff (h : List.Forall₂ Erases ls rs) :
    uncommented rs = uncommented ls ↔ ∀ n, titleLine n ∈ ls → Unbroken n.title.1 := by
  constructor
  · intro he n hn
    by_contra hbroken
    suffices hlt : (uncommented rs).length < (uncommented ls).length from
      absurd (congrArg List.length he) hlt.ne
    clear he
    induction h with
    | nil => cases hn
    | @cons l l' ls rs hl hrest ih =>
        have hle := length_uncommented_le hrest
        simp only [uncommented, List.flatMap_cons, List.length_append] at ih hle ⊢
        rcases List.mem_cons.mp hn with rfl | hn
        · exact Nat.add_lt_add_of_lt_of_le (hl.length_lt hbroken) hle
        · exact Nat.add_lt_add_of_le_of_lt hl.length_le (ih hn)
  · intro hn
    induction h with
    | nil => rfl
    | cons hl _ ih =>
        simp only [uncommented, List.flatMap_cons] at ih ⊢
        rw [hl.remains_eq fun n he => hn n (by simp [he]), ih fun n hmem => hn n (by simp [hmem])]

end Erases

section Nodes

theorem headings_block (name : String) (children : List Variable) (n : Node) :
    (block name children n).filter Line.isHeading = [titleLine n] := by
  have hfilter : ∀ ls : List Line,
      ls.filter Line.isHeading = (ls.filter Line.isOpaque).filter Line.isHeading := by
    intro ls
    rw [List.filter_filter]
    refine List.filter_congr fun l _ => ?_
    cases ho : l.isOpaque with
    | false => rw [Bool.and_false, isHeading_of_plain ho]
    | true => rw [Bool.and_true]
  rw [hfilter]
  cases n with
  | trial p t =>
      rw [block, opaque_trialLines]
      rfl
  | loop p l items =>
      rw [block, opaque_loopLines]
      rfl

theorem block_unnamed (name : String) (children : List Variable) (n : Node) :
    ∃ rest, block name children n = .blank :: titleLine n :: rest ∧
      block name children n.unnamed = .blank :: titleLine n.unnamed :: rest ∧
      ∀ l ∈ rest, l.isHeading = false := by
  have hrest : ∀ rest, block name children n = .blank :: titleLine n :: rest →
      ∀ l ∈ rest, l.isHeading = false := by
    intro rest he l hl
    have hblank : ¬Line.blank.isHeading = true := by decide
    have hheadings := headings_block name children n
    rw [he, List.filter_cons_of_neg hblank, List.filter_cons_of_pos (isHeading_titleLine n),
      List.cons.injEq, List.filter_eq_nil_iff] at hheadings
    simpa using hheadings.2 l hl
  cases n with
  | trial p t =>
      rw [unnamed_trial]
      exact ⟨_, rfl, rfl, hrest _ rfl⟩
  | loop p l items =>
      rw [unnamed_loop]
      exact ⟨_, rfl, rfl, hrest _ rfl⟩

theorem erases_block (name : String) (children : List Variable) (n : Node) :
    List.Forall₂ Erases (block name children n) (block name children n.unnamed) := by
  obtain ⟨rest, hn, hunnamed, hrest⟩ := block_unnamed name children n
  rw [hn, hunnamed]
  exact .cons (.other rfl) (.cons (.heading n) (erases_others hrest))

theorem erases_nodes (m : Namer) (nodes : List Node) :
    List.Forall₂ Erases (Emit.nodes m nodes).1 (Emit.nodes m (unnamedIn nodes)).1 ∧
      (Emit.nodes m (unnamedIn nodes)).2 = (Emit.nodes m nodes).2 := by
  induction nodes using forest_induction generalizing m with
  | nil =>
      rw [unnamedIn_nil, Emit.nodes]
      exact ⟨.nil, rfl⟩
  | trial p t r ih =>
      obtain ⟨hlines, hrest⟩ := ih (m.nameFor t.id).2
      have hown := erases_block (m.nameFor t.id).1 [] (.trial p t)
      rw [unnamed_trial] at hown
      simp only [unnamedIn_cons, unnamed_trial, Emit.nodes, Emit.node]
      have hid : t.unnamed.id = t.id := rfl
      simp only [hid, hrest]
      exact ⟨List.rel_append hown hlines, trivial⟩
  | loop p l items r ihItems ih =>
      obtain ⟨hbody, hinner⟩ := ihItems m
      obtain ⟨hlines, hrest⟩ := ih ((Emit.nodes m items).2.2.nameFor l.id).2
      have hown := erases_block ((Emit.nodes m items).2.2.nameFor l.id).1 (Emit.nodes m items).2.1
        (.loop p l items)
      rw [unnamed_loop] at hown
      simp only [unnamedIn_cons, unnamed_loop, Emit.nodes, Emit.node]
      have hid : l.unnamed.id = l.id := rfl
      simp only [hid, hinner, hrest]
      exact ⟨List.rel_append (List.rel_append hbody hown) hlines, trivial⟩

theorem loopsIn_unnamedIn (nodes : List Node) : loopsIn (unnamedIn nodes) = loopsIn nodes := by
  induction nodes using forest_induction with
  | nil => rw [unnamedIn_nil]
  | trial p t r ih => simp only [unnamedIn_cons, unnamed_trial, loopsIn, loopsOf, ih]
  | loop p l items r ihItems ih =>
      simp only [unnamedIn_cons, unnamed_loop, loopsIn, loopsOf, ihItems, ih]
      rfl

theorem plain_preludeLines (config : Settings) : ∀ l ∈ preludeLines config, l.isHeading = false := by
  intro l hl
  rcases List.mem_append.mp hl with hl | hl
  · obtain ⟨s, -, rfl⟩ := List.mem_map.mp hl
    rfl
  · obtain rfl := List.mem_singleton.mp hl
    rfl

variable {t t' : Timeline}

theorem erases_script (hn : t'.nodes = unnamedIn t.nodes) (hk : t'.knownIds = t.knownIds)
    (config : Settings) : List.Forall₂ Erases (script t config) (script t' config) := by
  obtain ⟨hnodes, hrest⟩ := erases_nodes .start t.nodes
  have hdeclarations : declarations t' = declarations t := by
    rw [declarations, declarations, hn, hk, loopsIn_unnamedIn]
  have hplain : ∀ ls : List Line, (∀ l ∈ ls, l.isOpaque = false) → List.Forall₂ Erases ls ls :=
    fun ls h => erases_others fun l hl => isHeading_of_plain (h l hl)
  rw [script_eq, script_eq, body, body, hdeclarations, hn, hrest]
  refine List.rel_append (erases_others (plain_preludeLines config)) (List.rel_append ?nodes ?pushes)
  case nodes => exact List.rel_append (hplain _ (plain_declarations t)) hnodes
  case pushes =>
    exact List.rel_append (hplain _ (plain_pushLines config _)) (hplain _ (plain_reloadLines config))

theorem titleLine_mem_script {settings : Settings} {items : List Item} (h : compile settings items = .ok t)
    (config : Settings) (P : String → Prop) :
    (∀ n, titleLine n ∈ script t config → P n.title.1) ↔ ∀ i ∈ Item.flattenIn items, P i.name := by
  have htitles := Compile.titles_eq h
  constructor
  · intro hn i hi
    have hmem : (i.name, i.id) ∈ (flattenIn t.nodes).map Node.title := by
      rw [htitles]
      exact List.mem_map_of_mem hi
    obtain ⟨n, hflat, he⟩ := List.mem_map.mp hmem
    have hname := hn n (mem_script_of_block hflat config fun name children =>
      titleLine_mem_block name children n)
    rwa [he] at hname
  · intro hi n hn
    rw [script_eq, List.mem_append] at hn
    rcases hn with hn | hn
    · have hheading := plain_preludeLines config _ hn
      rw [isHeading_titleLine] at hheading
      cases hheading
    · have ho : (titleLine n).isOpaque = true := by cases n <;> rfl
      obtain ⟨named, hnaming⟩ := exists_naming h
      obtain ⟨m, name, hm, hline⟩ := hnaming.emitted.opaque_inv (mem_nodes_of_authored hn ho) ho
      rcases hline with he | ⟨p, plan, rfl, he⟩
      · rw [name_eq_of_titleLine he]
        have hmem : m ∈ flattenIn t.nodes := hnaming.emitted.perm.mem_iff.mp (List.mem_map_of_mem hm)
        have htitle := List.mem_map_of_mem (f := Node.title) hmem
        rw [htitles] at htitle
        obtain ⟨i, hitem, he⟩ := List.mem_map.mp htitle
        rw [← he]
        exact hi i hitem
      · have hheading := isHeading_titleLine n
        rw [he] at hheading
        cases hheading

end Nodes

end Emit

open Emit

/-- Without its names a tree has a script with the same lines but for the comments, or the same
error. -/
theorem scriptOf_unnamedIn (settings config : Settings) (items : List Item) :
    (∃ lines lines', scriptOf settings config items = .ok lines ∧
        scriptOf settings config (Item.unnamedIn items) = .ok lines' ∧
        (Line.uncommented lines' = Line.uncommented lines ↔
          ∀ i ∈ Item.flattenIn items, Unbroken i.name)) ∨
      ∃ e, scriptOf settings config items = .error e ∧
        scriptOf settings config (Item.unnamedIn items) = .error e := by
  rcases Compile.compile_unnamedIn settings items with ⟨t, t', ht, ht', hnodes, hids⟩ | ⟨e, he, he'⟩
  · have hscript : ∀ u : Timeline, u.emitLines config =
        (do checkPath "timeline_var" config.timelineVar
            checkPath "participant_global" config.participantGlobal).map fun _ => script u config := by
      intro u
      rw [Timeline.emitLines]
      cases checkPath "timeline_var" config.timelineVar with
      | error e => rfl
      | ok a => cases checkPath "participant_global" config.participantGlobal <;> rfl
    have hs : scriptOf settings config items = t.emitLines config := by rw [scriptOf, ht]; rfl
    have hs' : scriptOf settings config (Item.unnamedIn items) = t'.emitLines config := by
      rw [scriptOf, ht']
      rfl
    rw [hs, hs', hscript, hscript]
    cases (do checkPath "timeline_var" config.timelineVar
              checkPath "participant_global" config.participantGlobal) with
    | error e => exact .inr ⟨e, rfl, rfl⟩
    | ok a =>
        refine .inl ⟨_, _, rfl, rfl, ?_⟩
        rw [uncommented_eq_iff (erases_script hnodes hids config)]
        exact titleLine_mem_script ht config Unbroken
  · refine .inr ⟨e, ?_, ?_⟩
    · rw [scriptOf, he]
      rfl
    · rw [scriptOf, he']
      rfl

/-- Two trees that differ in nothing but names have the same script but for the comments above the
nodes, or the same error, if no name has a separator in it that ends a line of a script. What follows
such a separator in a name stands in the script outside of all comments. -/
theorem scriptOf_renamed (settings config : Settings) {items items' : List Item}
    (h : Item.unnamedIn items = Item.unnamedIn items') :
    ((∀ i ∈ Item.flattenIn items ++ Item.flattenIn items', Unbroken i.name) →
        (scriptOf settings config items).map Line.uncommented =
          (scriptOf settings config items').map Line.uncommented) ∧
      ∀ lines, scriptOf settings config items = .ok lines →
        ((scriptOf settings config (Item.unnamedIn items)).map Line.uncommented =
            .ok (Line.uncommented lines) ↔
          ∀ i ∈ Item.flattenIn items, Unbroken i.name) := by
  have hunnamed := scriptOf_unnamedIn settings config items
  have hunnamed' := scriptOf_unnamedIn settings config items'
  rw [← h] at hunnamed'
  constructor
  · intro hnames
    rw [List.forall_mem_append] at hnames
    rcases hunnamed with ⟨lines, base, hl, hb, hiff⟩ | ⟨e, he, hb⟩
    · rcases hunnamed' with ⟨lines', base', hl', hb', hiff'⟩ | ⟨e', -, hb'⟩
      · obtain rfl := Except.ok.inj (hb.symm.trans hb')
        rw [hl, hl', Except.map, Except.map, ← hiff.mpr hnames.1, ← hiff'.mpr hnames.2]
      · rw [hb] at hb'
        cases hb'
    · rcases hunnamed' with ⟨lines', base', -, hb', -⟩ | ⟨e', he', hb'⟩
      · rw [hb] at hb'
        cases hb'
      · obtain rfl := Except.error.inj (hb.symm.trans hb')
        rw [he, he']
  · intro lines hl
    rcases hunnamed with ⟨lines', base, hl', hb, hiff⟩ | ⟨e, he, -⟩
    · obtain rfl := Except.ok.inj (hl.symm.trans hl')
      rw [hb, Except.map, Except.ok.injEq]
      exact hiff
    · rw [hl] at he
      cases he

def twoLines : Trial := { Trial.plain ⟨"t"⟩ with name := "one\n// two" }

theorem exists_scriptOf (items : List Item) (h : (compile .default items).isOk = true) :
    ∃ lines, scriptOf .default .default items = .ok lines := by
  cases hc : compile .default items with
  | error e =>
      rw [hc] at h
      cases h
  | ok t =>
      refine ⟨script t .default, ?_⟩
      rw [scriptOf, hc]
      rfl

theorem scriptOf_renamed_twoLines :
    (scriptOf .default .default [.trial twoLines]).map Line.uncommented =
        (scriptOf .default .default [.trial (Trial.plain ⟨"t"⟩)]).map Line.uncommented ∧
      ∃ lines, scriptOf .default .default [.trial twoLines] = .ok lines ∧
        (scriptOf .default .default (Item.unnamedIn [.trial twoLines])).map Line.uncommented =
          .ok (Line.uncommented lines) := by
  have hunnamed : Item.unnamedIn [.trial twoLines] = Item.unnamedIn [.trial (Trial.plain ⟨"t"⟩)] := by
    simp [Item.unnamedIn, Trial.unnamed, twoLines, Trial.plain]
  have hitems : ∀ t, Item.flattenIn [.trial t] = [.trial t] := by simp [Item.flattenIn, Item.flatten]
  have hname : Unbroken twoLines.name := by simp [Unbroken, twoLines]
  obtain ⟨lines, hl⟩ := exists_scriptOf [.trial twoLines] (by cbv)
  have hrenamed := scriptOf_renamed .default .default hunnamed
  refine ⟨hrenamed.1 ?_, lines, hl, (hrenamed.2 lines hl).mpr ?_⟩
  · simpa [hitems, Item.name, Trial.plain, Unbroken] using hname
  · simpa [hitems, Item.name] using hname

def separatedName : Trial := { Trial.plain ⟨"t"⟩ with name := "\u2028x" }

theorem scriptOf_separated :
    Item.unnamedIn [.trial separatedName] = Item.unnamedIn [.trial (Trial.plain ⟨"t"⟩)] ∧
      ∃ lines lines', scriptOf .default .default [.trial separatedName] = .ok lines ∧
        scriptOf .default .default [.trial (Trial.plain ⟨"t"⟩)] = .ok lines' ∧
        Line.uncommented lines ≠ Line.uncommented lines' := by
  have hplain : Item.unnamedIn [.trial separatedName] = [.trial (Trial.plain ⟨"t"⟩)] := by
    simp [Item.unnamedIn, Trial.unnamed, separatedName, Trial.plain]
  have hunnamed : Item.unnamedIn [.trial (Trial.plain ⟨"t"⟩)] = [.trial (Trial.plain ⟨"t"⟩)] := by
    simp [Item.unnamedIn, Trial.unnamed, Trial.plain]
  refine ⟨hplain.trans hunnamed.symm, ?_⟩
  obtain ⟨script, hscript⟩ := exists_scriptOf [.trial separatedName] (by cbv)
  rcases scriptOf_unnamedIn .default .default [.trial separatedName] with
    ⟨lines, lines', hl, hl', hiff⟩ | ⟨e, he, -⟩
  · refine ⟨lines, lines', hl, hplain ▸ hl', fun hsame => ?_⟩
    have hnames := hiff.mp hsame.symm (.trial separatedName) (by simp [Item.flattenIn, Item.flatten])
    exact absurd hnames (by simp [Unbroken, Item.name, separatedName])
  · rw [hscript] at he
    cases he

end BranchingTimeline
