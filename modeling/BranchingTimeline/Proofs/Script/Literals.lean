import BranchingTimeline.Proofs.Json.Printing
import BranchingTimeline.Proofs.Script.Scoping
import BranchingTimeline.Proofs.Script.Tags
import BranchingTimeline.Proofs.Timeline.Denotes

namespace BranchingTimeline

open Text

section Breaking

variable {cs r : List Char} {c : Char}

theorem breakTags_cons (h : c ≠ '<') (cs : List Char) : breakTags (c :: cs) = c :: breakTags cs :=
  breakTags.eq_2 c cs fun _ hc => absurd hc h

theorem breakTags_append (h : '<' ∉ cs) (r : List Char) : breakTags (cs ++ r) = cs ++ breakTags r := by
  induction cs with
  | nil => rfl
  | cons c cs ih =>
      rw [List.mem_cons, not_or] at h
      rw [List.cons_append, breakTags_cons (Ne.symm h.1), ih h.2, List.cons_append]

theorem head?_breakTags (cs : List Char) : (breakTags cs).head? = cs.head? := by
  fun_cases breakTags cs with
  | _ => rfl

theorem mem_breakTags (h : c ∈ breakTags cs) : c ∈ cs ∨ c = '\\' := by
  fun_induction breakTags cs with
  | case1 r ih =>
      simp only [List.mem_cons] at h ⊢
      rcases h with h | h | h | h
      · exact .inl (.inl h)
      · exact .inr h
      · exact .inl (.inr (.inl h))
      · exact (ih h).imp_left fun h => .inr (.inr h)
  | case2 d r hne ih =>
      rcases List.mem_cons.mp h with rfl | h
      · exact .inl List.mem_cons_self
      · exact (ih h).imp_left (List.mem_cons_of_mem d)
  | case3 => cases h

end Breaking

namespace Json

open Reader (isBlank escaped hexDigit isNumberPart)

theorem skip_breakTags (cs : List Char) : skip (breakTags cs) = breakTags (skip cs) := by
  induction cs with
  | nil => rfl
  | cons c cs ih =>
      by_cases hc : isBlank c = true
      · have hopen : c ≠ '<' := by
          rintro rfl
          cases hc
        rw [breakTags_cons hopen, skip, skip, List.dropWhile_cons_of_pos hc, List.dropWhile_cons_of_pos hc]
        exact ih
      · have hhead := head?_breakTags (c :: cs)
        have hskip : skip (c :: cs) = c :: cs := List.dropWhile_cons_of_neg hc
        rw [hskip]
        cases hb : breakTags (c :: cs) with
        | nil =>
            rw [hb] at hhead
            cases hhead
        | cons d ds =>
            rw [hb, List.head?_cons, List.head?_cons, Option.some_inj] at hhead
            rw [hhead]
            exact List.dropWhile_cons_of_neg hc

theorem hexDigit_ne {c : Char} (h : hexDigit c ≠ none) : c ≠ '<' := by
  rintro rfl
  exact h rfl

theorem breakTags_unit {a b c d : Char} {u : Nat} (h : codeUnit a b c d = some u) (r : List Char) :
    breakTags ('\\' :: 'u' :: a :: b :: c :: d :: r) = '\\' :: 'u' :: a :: b :: c :: d :: breakTags r := by
  have hdigits : hexDigit a ≠ none ∧ hexDigit b ≠ none ∧ hexDigit c ≠ none ∧ hexDigit d ≠ none := by
    refine ⟨?_, ?_, ?_, ?_⟩ <;> rintro hnone <;> simp [codeUnit, hnone] at h
  have hopen : '<' ∉ ['\\', 'u', a, b, c, d] := by
    simp [(hexDigit_ne hdigits.1).symm, (hexDigit_ne hdigits.2.1).symm, (hexDigit_ne hdigits.2.2.1).symm,
      (hexDigit_ne hdigits.2.2.2).symm]
  exact breakTags_append hopen r

/-- In a string, a tag whose slash is set off stands for the same two characters as before. -/
theorem InString.broken {cs s r : List Char} (h : InString cs s r) :
    InString (breakTags cs) s (breakTags r) := by
  induction h with
  | close =>
      rw [breakTags_cons (by decide)]
      exact .close
  | @plain c cs s r hquote hslash hc h ih =>
      by_cases htag : c = '<' ∧ ∃ ds, cs = '/' :: ds
      · obtain ⟨rfl, ds, rfl⟩ := htag
        rw [breakTags_cons (by decide)] at ih
        cases ih with
        | plain _ _ _ ih => exact .plain hquote hslash hc (.escape rfl ih)
      · rw [breakTags.eq_2 c cs fun ds hopen hcs => htag ⟨hopen, ds, hcs⟩]
        exact .plain hquote hslash hc ih
  | @escape c e cs s r he h ih =>
      have hopen : '<' ∉ ['\\', c] := by
        simp only [List.mem_cons, List.not_mem_nil, or_false, not_or]
        refine ⟨by decide, ?_⟩
        rintro rfl
        cases he
      have hcs := breakTags_append hopen cs
      rw [List.cons_append, List.singleton_append] at hcs
      rw [hcs]
      exact .escape he ih
  | @unit a b c d u cs s r hu hhigh hlow h ih =>
      rw [breakTags_unit hu]
      exact .unit hu hhigh hlow ih
  | @pair a b c d a' b' c' d' u u' cs s r hu hu' hhigh hlow h ih =>
      rw [breakTags_unit hu, breakTags_unit hu']
      exact .pair hu hu' hhigh hlow ih

theorem not_mem_of_number {w : List Char} (h : ∀ c ∈ w, isNumberPart c = true) : '<' ∉ w := by
  intro hc
  exact absurd (h _ hc) (by decide)

/-- Setting off the slash of every tag in a text changes nothing of what the text spells. -/
theorem Spells.broken {cs r : List Char} {p : Part} (h : Spells cs p r) :
    Spells (breakTags cs) p (breakTags r) := by
  have hskipped : ∀ {cs r : List Char} {p : Part}, Spells (breakTags (skip cs)) p r →
      Spells (skip (breakTags cs)) p r := by
    intro cs r p h
    rwa [skip_breakTags]
  induction h with
  | @null r =>
      change Spells (breakTags (['n', 'u', 'l', 'l'] ++ r)) _ _
      rw [breakTags_append (by decide)]
      exact .null
  | @true r =>
      change Spells (breakTags (['t', 'r', 'u', 'e'] ++ r)) _ _
      rw [breakTags_append (by decide)]
      exact .true
  | @false r =>
      change Spells (breakTags (['f', 'a', 'l', 's', 'e'] ++ r)) _ _
      rw [breakTags_append (by decide)]
      exact .false
  | num hw hr =>
      rw [breakTags_append (not_mem_of_number hw.chars)]
      refine .num hw ?_
      rwa [head?_breakTags]
  | str h =>
      rw [breakTags_cons (by decide)]
      exact .str h.broken
  | arr _ ih =>
      rw [breakTags_cons (by decide)]
      exact .arr (hskipped ih)
  | obj _ ih =>
      rw [breakTags_cons (by decide)]
      exact .obj (hskipped ih)
  | noItem =>
      rw [breakTags_cons (by decide)]
      exact .noItem
  | firstItem _ _ ih ihRest => exact .firstItem ih (hskipped ihRest)
  | lastItem =>
      rw [breakTags_cons (by decide)]
      exact .lastItem
  | nextItem _ _ ih ihRest =>
      rw [breakTags_cons (by decide)]
      exact .nextItem (hskipped ih) (hskipped ihRest)
  | noMember =>
      rw [breakTags_cons (by decide)]
      exact .noMember
  | firstMember _ _ ih ihRest => exact .firstMember ih (hskipped ihRest)
  | lastMember =>
      rw [breakTags_cons (by decide)]
      exact .lastMember
  | nextMember _ _ ih ihRest =>
      rw [breakTags_cons (by decide)]
      exact .nextMember (hskipped ih) (hskipped ihRest)
  | member hk hcolon _ ih =>
      rw [breakTags_cons (by decide)]
      refine .member hk.broken ?_ (hskipped ih)
      rw [skip_breakTags, hcolon, breakTags_cons (by decide)]

theorem IsTextOf.broken {text : String} {j : Json} (h : IsTextOf text j) :
    IsTextOf (String.ofList (breakTags text.toList)) j := by
  obtain ⟨r, hj, hend⟩ := h
  refine ⟨breakTags r, ?_, ?_⟩
  · rw [String.toList_ofList, skip_breakTags]
    exact hj.broken
  · rw [skip_breakTags, hend]
    rfl

theorem isTextOf_render {j : Json} (h : j.readable = true) : IsTextOf j.render j := by
  have hj := spells_render j h [] (by simp)
  rw [List.append_nil] at hj
  exact ⟨[], hj.skipped, rfl⟩

theorem isTextOf_literal {j : Json} (h : j.readable = true) : IsTextOf j.literal j :=
  (isTextOf_render h).broken

theorem printable_literal {j : Json} (h : j.readable = true) : Printable j.literal.toList := by
  intro c hc
  rw [literal, String.toList_ofList] at hc
  rcases mem_breakTags hc with hc | rfl
  · exact printable_render j h c hc
  · decide

/-- A literal can stand in a script, and it stands for one value only. -/
structure Faithful (j : Json) : Prop where
  tagless : ¬HasTag j.literal.toList
  printable : Printable j.literal.toList
  denotes : ∀ k, IsTextOf j.literal k ↔ k = j
  distinct : ∀ k : Json, k.readable = true → (k.literal = j.literal ↔ k = j)

theorem faithful {j : Json} (h : j.readable = true) : j.Faithful where
  tagless := j.not_hasTag_literal
  printable := printable_literal h
  denotes k := by
    refine ⟨fun hk => hk.unique (isTextOf_literal h), ?_⟩
    rintro rfl
    exact isTextOf_literal h
  distinct k hk := by
    refine ⟨fun he => ?_, fun he => he ▸ rfl⟩
    have htext := isTextOf_literal hk
    rw [he] at htext
    exact htext.unique (isTextOf_literal h)

/-- A backslash in front of a tag is escaped, and does not take the one that sets off the slash. -/
example : (str "\\</").literal = "\"\\\\<\\/\"" := by decide

end Json

/-- What a part of a line writes as a literal. -/
def Piece.value? : Piece → Option Json
  | literal j => some j
  | text _ | declared _ | used _ | source _ | comment _ => none

def Line.values (l : Line) : List Json := l.pieces.filterMap Piece.value?

namespace Emit

open Node

def printed (settings : Settings) (lines : List Line) : List Json :=
  .str settings.jumpStorageKey :: lines.flatMap Line.values

def ReadablePieces (pieces : List Piece) : Prop := ∀ p ∈ pieces, ∀ j ∈ p.value?, j.readable = true

section Pieces

variable {p : Piece} {ps qs : List Piece}

@[simp] theorem readablePieces_nil : ReadablePieces [] := List.forall_mem_nil _

@[simp] theorem readablePieces_cons :
    ReadablePieces (p :: ps) ↔ (∀ j ∈ p.value?, j.readable = true) ∧ ReadablePieces ps := List.forall_mem_cons

@[simp] theorem readablePieces_append : ReadablePieces (ps ++ qs) ↔ ReadablePieces ps ∧ ReadablePieces qs :=
  List.forall_mem_append

@[simp] theorem value?_text (s : String) : (Piece.text s).value? = none := rfl

@[simp] theorem value?_declared (v : Variable) : (Piece.declared v).value? = none := rfl

@[simp] theorem value?_used (v : Variable) : (Piece.used v).value? = none := rfl

@[simp] theorem value?_source (s : String) : (Piece.source s).value? = none := rfl

@[simp] theorem value?_comment (s : String) : (Piece.comment s).value? = none := rfl

@[simp] theorem value?_scopePiece (s : Scope) : (scopePiece s).value? = none := rfl

@[simp] theorem value?_literal (j : Json) : (Piece.literal j).value? = some j := rfl

@[simp] theorem value?_idsLiteral (ids : IdSet) : (idsLiteral ids).value? = some ids.toJson := rfl

@[simp] theorem readable_id (id : ItemId) : id.toJson.readable = true := rfl

@[simp] theorem readable_idSet (ids : IdSet) : ids.toJson.readable = true := ids.denotes.readable

@[simp] theorem readable_idOption (id : Option ItemId) : (Json.ofOption ItemId.toJson id).readable = true :=
  (ItemId.denotes_option id).readable

@[simp] theorem readable_ids (ids : List ItemId) : (writeIds ids).readable = true :=
  (ItemId.denotes_list ids).readable

@[simp] theorem readable_stimuli (s : StimulusPlan) : s.toJson.readable = true := s.denotes.readable

@[simp] theorem readable_uint32 (n : UInt32) : (Json.ofUInt32 n).readable = true := rfl

theorem readable_conditions {ε : Type} [Effect ε] (he : Effect.Denoted ε) (cs : List (Condition ε)) :
    (Condition.listToJson cs).readable = true :=
  (Condition.denotes_list he cs).readable

theorem readable_separated {separator : String} {parts : List (List Piece)}
    (h : ∀ part ∈ parts, ReadablePieces part) : ReadablePieces (separated separator parts) := by
  intro p hp
  rcases mem_separated hp with rfl | ⟨part, hpart, hp⟩
  · simp
  · exact h part hpart p hp

theorem readable_routeEntries (b : BranchPlan) : ∀ part ∈ routeEntries b, ReadablePieces part := by
  intro part hpart
  obtain ⟨⟨target, route⟩, -, hroute⟩ := List.mem_filterMap.mp hpart
  cases route with
  | jump => cases hroute
  | scope s =>
      cases hroute
      simp

theorem readable_branchPieces (b : BranchPlan) : ReadablePieces (branchPieces b) := by
  simp [branchPieces, readable_conditions Effect.denoted_branchTo, readable_separated (readable_routeEntries b)]

theorem readable_finishPieces (f : FinishPlan) : ReadablePieces (finishPieces f) := by
  simp only [finishPieces, readablePieces_append]
  refine ⟨⟨by simp [readable_conditions Effect.denoted_jumpTo], ?_⟩, ?_⟩
  · cases f.branch with
    | none => simp
    | some b => exact readable_branchPieces b
  · cases f.escalateTo <;> simp

theorem readable_separated_used (children : List Variable) :
    ReadablePieces (separated ", " (children.map fun v => [.used v])) := by
  refine readable_separated fun part hpart => ?_
  obtain ⟨v, -, rfl⟩ := List.mem_map.mp hpart
  simp

end Pieces

def ReadableLines (ls : List Line) : Prop := ∀ l ∈ ls, ReadablePieces l.pieces

section Lines

variable {l : Line} {ls rs : List Line}

@[simp] theorem readableLines_nil : ReadableLines [] := List.forall_mem_nil _

@[simp] theorem readableLines_cons : ReadableLines (l :: ls) ↔ ReadablePieces l.pieces ∧ ReadableLines ls :=
  List.forall_mem_cons

@[simp] theorem readableLines_append : ReadableLines (ls ++ rs) ↔ ReadableLines ls ∧ ReadableLines rs :=
  List.forall_mem_append

@[simp] theorem readable_ofText (depth : Nat) (s : String) : ReadablePieces (Line.ofText depth s).pieces := by
  simp [Line.ofText]

@[simp] theorem readable_blank : ReadablePieces Line.blank.pieces := by
  simp [Line.blank]

theorem readable_guardLines (g : Guard) : ReadableLines (guardLines g) := by
  rw [guardLines]
  split <;> simp [resetLine]

theorem readable_finishLines (p : Place) {own : List Line} (h : ReadableLines own) :
    ReadableLines (finishLines p own) := by
  have hreset : ReadableLines (if p.isLast then [resetLine p.guard.scope] else []) := by
    split <;> simp [resetLine]
  simp [finishLines, h, hreset]

theorem readable_trialLines (p : Place) (t : TrialPlan) (name : String) : ReadableLines (trialLines p t name) := by
  simp [trialLines, heading, readable_guardLines, readable_finishLines,
    readable_conditions Effect.denoted_replace, readable_finishPieces]

theorem readable_loopLines (p : Place) (l : LoopPlan) (name : String) (children : List Variable) :
    ReadableLines (loopLines p l name children) := by
  have hstimuli : ReadableLines (if l.stimuli.rows.isEmpty then []
      else [⟨1, [.text "timeline_variables: tlMaterialize(", .literal l.stimuli.toJson, .text "),"]⟩]) := by
    split <;> simp
  have hown : ReadableLines [⟨2, [.text "tlFinishLoop(", scopePiece l.scope, .text ", "] ++ finishPieces l.finish
      ++ [.text ", ", .literal (.bool l.terminal), .text ");"]⟩] := by
    simp [readable_finishPieces]
  simp only [loopLines, readableLines_append]
  refine ⟨⟨⟨⟨⟨⟨?_, hstimuli⟩, ?_⟩, readable_guardLines _⟩, ?_⟩, readable_finishLines p hown⟩, ?_⟩
  · simp [heading, readable_separated_used]
  · simp
  · simp [readable_conditions Effect.denoted_unit]
  · simp

theorem Emitted.readable {nodes : List Node} {holders : List Variable} {named : List (Node × String)}
    (h : Emitted nodes ls holders named) : ReadableLines ls := by
  intro l hl
  obtain ⟨n, name, children, -, hl⟩ := h.exists_block hl
  cases n with
  | trial p t => exact readable_trialLines p t name l hl
  | loop p plan items => exact readable_loopLines p plan name children l hl

theorem readable_preludeLines (settings : Settings) : ReadableLines (preludeLines settings) := by
  rw [preludeLines, readableLines_append]
  refine ⟨?_, by simp⟩
  intro l hl
  obtain ⟨s, -, rfl⟩ := List.mem_map.mp hl
  exact readable_ofText 0 s

theorem readable_declarations (t : Timeline) : ReadableLines (declarations t) := by
  rw [declarations, readableLines_cons]
  refine ⟨by simp, fun l hl => ?_⟩
  obtain ⟨s, -, rfl⟩ := List.mem_map.mp hl
  simp [scopeLine]

theorem readable_pushLines (settings : Settings) (roots : List Variable) :
    ReadableLines (pushLines settings roots) := by
  have hpush : ReadableLines (roots.map (pushLine settings)) := by
    intro l hl
    obtain ⟨v, -, rfl⟩ := List.mem_map.mp hl
    simp [pushLine]
  rw [pushLines, List.cons_append, readableLines_cons, readableLines_append]
  refine ⟨readable_blank, ?_, hpush⟩
  split <;> simp

theorem readable_reloadLines (timeline : Variable) : ReadableLines (reloadLines timeline) := by
  simp [reloadLines]

theorem readable_script (t : Timeline) (settings : Settings) : ReadableLines (script t settings) := by
  obtain ⟨named, hnamed, -, -⟩ := emitted_nodes .start t.nodes
  rw [script_eq, body]
  simp only [readableLines_append]
  refine ⟨readable_preludeLines settings, ⟨readable_declarations t, hnamed.readable⟩, readable_pushLines _ _, ?_⟩
  split
  · exact readable_reloadLines _
  · exact readableLines_nil

end Lines

end Emit

open Emit

/-- Every value that a script has a literal of can be read off the literal, which breaks neither the
line nor the script element, and no other value has the same literal. -/
theorem printed_faithful {t : Timeline} {settings : Settings} {lines : List Line}
    (h : t.emitLines settings = .ok lines) : ∀ j ∈ printed settings lines, j.Faithful := by
  obtain ⟨-, -, rfl⟩ := t.emitLines_ok h
  rw [printed, List.forall_mem_cons]
  refine ⟨Json.faithful (Json.readable_str _), fun j hj => Json.faithful ?_⟩
  obtain ⟨l, hl, hj⟩ := List.mem_flatMap.mp hj
  obtain ⟨p, hp, hvalue⟩ := List.mem_filterMap.mp hj
  exact readable_script t settings l hl p hp j hvalue

def tagged : Loop :=
  { Loop.plain ⟨"l"⟩ with
    stimuli := { (Loop.plain ⟨"l"⟩).stimuli with rows := [.ofList [("<\\</", .str "</script>")]] } }

def taggedTimeline : Timeline := (compile .default [.loop tagged []]).toOption.getD ⟨[], .empty, []⟩

theorem printed_faithful_tagged :
    compile .default [.loop tagged []] = .ok taggedTimeline ∧
      ∃ lines, taggedTimeline.emitLines .default = .ok lines ∧
        tagged.stimuli.toJson ∈ printed .default lines ∧
        ∀ j ∈ printed .default lines, j.Faithful := by
  have hc : compile .default [.loop tagged []] = .ok taggedTimeline := by cbv
  have he : taggedTimeline.emitLines .default = .ok _ :=
    (taggedTimeline.emit_ok (taggedTimeline.emit_of_paths (by decide) (by decide))).1
  have hn : ∃ p plan, taggedTimeline.nodes = [.loop p plan []] ∧ plan.stimuli = tagged.stimuli :=
    ⟨_, _, rfl, rfl⟩
  have hprinted : tagged.stimuli.toJson ∈ printed .default (script taggedTimeline .default) := by
    obtain ⟨p, plan, hn, hs⟩ := hn
    have hrows : plan.stimuli.rows.isEmpty = false := by rw [hs]; rfl
    refine List.mem_cons_of_mem _ (List.mem_flatMap.mpr
      ⟨⟨1, [.text "timeline_variables: tlMaterialize(", .literal plan.stimuli.toJson, .text "),"]⟩, ?_, ?_⟩)
    · simp [script_eq, body, hn, nodes, node, loopLines, hrows]
    · simp [hs, Line.values]
  exact ⟨hc, _, he, hprinted, printed_faithful he⟩

end BranchingTimeline
