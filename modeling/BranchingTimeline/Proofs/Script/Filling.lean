import BranchingTimeline.Proofs.Script.Literals

namespace BranchingTimeline

namespace Prelude

/-- A text, and the same with every mark in it, from left to right, replaced. -/
inductive Replaced (mark r : List Char) : List Char → List Char → Prop where
  | nil : Replaced mark r [] []
  | mark {cs ds} (h : Replaced mark r cs ds) : Replaced mark r (mark ++ cs) (r ++ ds)
  | plain {c cs ds} (hc : ¬mark <+: c :: cs) (h : Replaced mark r cs ds) : Replaced mark r (c :: cs) (c :: ds)

variable {mark r cs ds : List Char} {c : Char}

theorem replaceFrom_skip (a cs : List Char) :
    replaceFrom mark r a.length (a ++ cs) = replaceFrom mark r 0 cs := by
  induction a with
  | nil => rfl
  | cons c a ih => exact ih

theorem Replaced.eq (h : Replaced mark r cs ds) (hm : mark ≠ []) : replaceFrom mark r 0 cs = ds := by
  induction h with
  | nil => rfl
  | @mark cs ds h ih =>
      obtain ⟨c, a, rfl⟩ := List.exists_cons_of_ne_nil hm
      have hbegins : (c :: a).isPrefixOf (c :: (a ++ cs)) = true :=
        List.isPrefixOf_iff_prefix.mpr (List.prefix_append (c :: a) cs)
      rw [List.cons_append, replaceFrom, if_pos hbegins, List.length_cons, Nat.add_sub_cancel, replaceFrom_skip, ih]
  | plain hc h ih =>
      rw [replaceFrom, if_neg fun hbegins => hc (List.isPrefixOf_iff_prefix.mp hbegins), ih]

theorem exists_replaced (hm : mark ≠ []) (cs : List Char) : ∃ ds, Replaced mark r cs ds := by
  induction hn : cs.length using Nat.strongRecOn generalizing cs with
  | ind n ih =>
      by_cases hbegins : mark <+: cs
      · obtain ⟨rest, rfl⟩ := hbegins
        have hpos : 0 < mark.length := List.length_pos_iff.mpr hm
        obtain ⟨ds, h⟩ := ih rest.length (by simp only [List.length_append] at hn; omega) rest rfl
        exact ⟨r ++ ds, h.mark⟩
      · cases cs with
        | nil => exact ⟨[], .nil⟩
        | cons c cs =>
            obtain ⟨ds, h⟩ := ih cs.length (by simp only [List.length_cons] at hn; omega) cs rfl
            exact ⟨c :: ds, h.plain hbegins⟩

theorem replaced_replaceFrom (hm : mark ≠ []) (cs : List Char) :
    Replaced mark r cs (replaceFrom mark r 0 cs) := by
  obtain ⟨ds, h⟩ := exists_replaced (r := r) hm cs
  rwa [h.eq hm]

theorem Replaced.absent (h : ¬mark <:+: cs) : Replaced mark r cs cs := by
  induction cs with
  | nil => exact .nil
  | cons c cs ih =>
      rw [List.infix_cons_iff, not_or] at h
      exact .plain h.1 (ih h.2)

theorem Replaced.length_eq (h : Replaced mark r cs ds) :
    ∃ n, ds.length + n * mark.length = cs.length + n * r.length := by
  induction h with
  | nil => exact ⟨0, by simp⟩
  | mark _ ih =>
      obtain ⟨n, hn⟩ := ih
      refine ⟨n + 1, ?_⟩
      simp only [List.length_append, Nat.succ_mul]
      omega
  | plain _ _ ih =>
      obtain ⟨n, hn⟩ := ih
      refine ⟨n, ?_⟩
      simp only [List.length_cons]
      omega

/-- A replacement changes a text that has the mark in it, unless it is the mark itself. -/
theorem Replaced.unchanged_iff (h : Replaced mark r cs ds) (hm : mark ≠ []) :
    ds = cs ↔ ¬mark <:+: cs ∨ r = mark := by
  induction h with
  | nil => simp [hm]
  | @mark cs ds h ih =>
      have hown : mark <:+: mark ++ cs := (List.prefix_append mark cs).isInfix
      rw [or_iff_right (not_not_intro hown)]
      constructor
      · intro he
        obtain ⟨n, hn⟩ := h.length_eq
        have hlength : r.length + ds.length = mark.length + cs.length := by
          rw [← List.length_append, ← List.length_append, he]
        have hsame : r.length = mark.length := by
          rcases Nat.lt_trichotomy r.length mark.length with hlt | heq | hgt
          · have hmul := Nat.mul_le_mul_left n hlt.le
            omega
          · exact heq
          · have hmul := Nat.mul_le_mul_left n hgt.le
            omega
        exact (List.append_inj he hsame).1
      · rintro rfl
        rw [ih.mpr (.inr rfl)]
  | plain hc h ih =>
      rw [List.cons_inj_right, ih, List.infix_cons_iff, or_iff_right hc]

theorem Replaced.append {a : List Char} (h : Replaced mark r cs ds) (ha : ∀ c ∈ a, mark.head? ≠ some c)
    (hm : mark ≠ []) : Replaced mark r (a ++ cs) (a ++ ds) := by
  induction a with
  | nil => exact h
  | cons c a ih =>
      rw [List.forall_mem_cons] at ha
      refine .plain (fun hbegins => ha.1 ?_) (ih ha.2)
      obtain ⟨d, m, rfl⟩ := List.exists_cons_of_ne_nil hm
      rw [List.head?_cons, (List.cons_prefix_cons.mp hbegins).1]

theorem Replaced.cons_inv (h : Replaced mark r (c :: cs) ds) (hc : mark.head? ≠ some c) (hm : mark ≠ []) :
    ∃ es, ds = c :: es := by
  obtain ⟨d, m, rfl⟩ := List.exists_cons_of_ne_nil hm
  rw [← h.eq hm, replaceFrom, if_neg]
  · exact ⟨_, rfl⟩
  · intro hbegins
    rw [(List.cons_prefix_cons.mp (List.isPrefixOf_iff_prefix.mp hbegins)).1] at hc
    exact hc rfl

theorem Replaced.concat (h : Replaced mark r cs ds) (hc : c ∉ mark) (hm : mark ≠ []) :
    Replaced mark r (cs ++ [c]) (ds ++ [c]) := by
  have hend : ∀ {l : List Char}, mark <+: l ++ [c] → mark <+: l := by
    intro l hbegins
    rcases List.prefix_concat_iff.mp hbegins with he | hbegins
    · exact absurd (he ▸ by simp) hc
    · exact hbegins
  induction h with
  | nil => exact .plain (fun hbegins => hm (List.prefix_nil.mp (hend hbegins))) .nil
  | mark h ih =>
      rw [List.append_assoc, List.append_assoc]
      exact ih.mark
  | plain hplain h ih => exact .plain (fun hbegins => hplain (hend hbegins)) ih

end Prelude

namespace Json

theorem escape_plain {c : Char} (hquote : c ≠ '"') (hslash : c ≠ '\\') (hc : 0x20 ≤ c.toNat) : escape c = [c] := by
  have hcontrol : ∀ d : Char, d.toNat < 0x20 → c ≠ d := by
    rintro d hd rfl
    omega
  rw [escape, if_neg hquote, if_neg hslash, if_neg (hcontrol _ (by decide)), if_neg (hcontrol _ (by decide)),
    if_neg (hcontrol _ (by decide)), if_neg (hcontrol _ (by decide)), if_neg (hcontrol _ (by decide)),
    if_neg (Nat.not_lt.mpr hc)]

theorem escape_identifier {c : Char} (h : (Emit.startsIdentifier c || c.isDigit) = true) : escape c = [c] := by
  have hcontrol : ∀ n : Fin 0x20,
      (Emit.startsIdentifier (Char.ofNat n) || (Char.ofNat n).isDigit) = false := by decide
  refine escape_plain ?_ ?_ ?_
  · rintro rfl
    exact absurd h (by decide)
  · rintro rfl
    exact absurd h (by decide)
  · by_contra hlow
    have hnone := hcontrol ⟨c.toNat, Nat.lt_of_not_le hlow⟩
    rw [Char.ofNat_toNat, h] at hnone
    cases hnone

theorem escape_cases (c : Char) : escape c = [c] ∨ (∃ t, escape c = '\\' :: t) ∧ '_' ∉ escape c := by
  have hletter : ∀ n : Fin 16, '_' ≠ hexLetter n := by decide
  fun_cases escape c with
  | case8 _ _ _ _ _ _ _ hcontrol =>
      have hhigh := hletter ⟨c.toNat / 16, by omega⟩
      have hlow := hletter ⟨c.toNat % 16, by omega⟩
      exact .inr ⟨⟨_, rfl⟩, by simpa using ⟨hhigh, hlow⟩⟩
  | case9 => exact .inl rfl
  | _ => exact .inr ⟨⟨_, rfl⟩, by decide⟩

theorem prefix_of_escaped {m l : List Char} (hm : ∀ c ∈ m, escape c = [c]) (h : m <+: l.flatMap escape) : m <+: l := by
  induction m generalizing l with
  | nil => exact List.nil_prefix
  | cons d m ih =>
      rw [List.forall_mem_cons] at hm
      cases l with
      | nil => simp at h
      | cons c l =>
          rw [List.flatMap_cons] at h
          rcases escape_cases c with hc | ⟨⟨t, ht⟩, -⟩
          · rw [hc, List.singleton_append, List.cons_prefix_cons] at h
            exact List.cons_prefix_cons.mpr ⟨h.1, ih hm.2 h.2⟩
          · rw [ht, List.cons_append, List.cons_prefix_cons] at h
            rw [h.1] at hm
            exact absurd hm.1 (by decide)

theorem prefix_of_breakTags {m l : List Char} (hm : '<' ∉ m) (h : m <+: breakTags l) : m <+: l := by
  induction m generalizing l with
  | nil => exact List.nil_prefix
  | cons d m ih =>
      rw [List.mem_cons, not_or] at hm
      fun_cases breakTags l with
      | case1 l =>
          rw [breakTags, List.cons_prefix_cons] at h
          exact absurd h.1.symm hm.1
      | case2 c l hne =>
          rw [breakTags.eq_2 c l hne, List.cons_prefix_cons] at h
          exact List.cons_prefix_cons.mpr ⟨h.1, ih hm.2 h.2⟩
      | case3 => simp [breakTags] at h

end Json

namespace Prelude

open Text Json

variable {mark r cs ds : List Char}

structure IsMark (mark : List Char) : Prop where
  head : mark.head? = some '_'
  plain : ∀ c ∈ mark, escape c = [c]
  tagless : '<' ∉ mark

theorem IsMark.ne_nil (h : IsMark mark) : mark ≠ [] := by
  rintro rfl
  cases h.head

theorem IsMark.head_ne (h : IsMark mark) {c : Char} (hc : c ≠ '_') : mark.head? ≠ some c := by
  rw [h.head]
  exact fun he => hc (Option.some.inj he).symm

theorem isMark_participant : IsMark participantMark.toList where
  head := by decide
  plain c hc := escape_identifier (Emit.of_isIdentifier (by decide) c hc)
  tagless := by decide

theorem Replaced.behind {a : List Char} (h : Replaced mark r cs ds) (hm : IsMark mark) (ha : '_' ∉ a) :
    Replaced mark r (a ++ cs) (a ++ ds) :=
  h.append (fun _ hc => hm.head_ne fun he => ha (he ▸ hc)) hm.ne_nil

theorem Replaced.escaped (h : Replaced mark r cs ds) (hm : IsMark mark) (hr : ∀ c ∈ r, escape c = [c]) :
    Replaced mark r (cs.flatMap escape) (ds.flatMap escape) := by
  have hplain : ∀ {l : List Char}, (∀ c ∈ l, escape c = [c]) → l.flatMap escape = l := by
    intro l hl
    rw [List.flatMap_congr hl]
    simp
  induction h with
  | nil => exact .nil
  | mark h ih =>
      rw [List.flatMap_append, List.flatMap_append, hplain hm.plain, hplain hr]
      exact ih.mark
  | @plain c cs ds hc h ih =>
      rw [List.flatMap_cons, List.flatMap_cons]
      rcases escape_cases c with hown | ⟨-, hnone⟩
      · rw [hown]
        refine .plain (fun hbegins => hc (prefix_of_escaped hm.plain ?_)) ih
        rwa [List.flatMap_cons, hown]
      · exact ih.behind hm hnone

theorem Replaced.broken (h : Replaced mark r cs ds) (hm : IsMark mark) (hr : Insertable r) (ho : '<' ∉ r) :
    Replaced mark r (breakTags cs) (breakTags ds) := by
  induction h with
  | nil => exact .nil
  | mark h ih =>
      rw [breakTags_append hm.tagless, breakTags_append ho]
      exact ih.mark
  | @plain c cs ds hc h ih =>
      by_cases htag : c = '<' ∧ ∃ t, cs = '/' :: t
      · obtain ⟨rfl, t, rfl⟩ := htag
        obtain ⟨es, rfl⟩ := h.cons_inv (hm.head_ne (by decide)) hm.ne_nil
        rw [breakTags_cons (by decide), breakTags_cons (by decide)] at ih
        have hset : '_' ∉ ['<', '\\'] := by decide
        exact ih.behind hm hset
      · have hslash : ∀ t, ds = '/' :: t → ∃ t, cs = '/' :: t := by
          rintro t rfl
          obtain ⟨t, rfl⟩ := head_replaceFrom hr (by rw [h.eq hm.ne_nil]; exact ⟨t, rfl⟩)
          exact ⟨t, rfl⟩
        rw [breakTags.eq_2 c cs fun t hopen ht => htag ⟨hopen, t, ht⟩,
          breakTags.eq_2 c ds fun t hopen ht => htag ⟨hopen, hslash t ht⟩]
        refine .plain (fun hbegins => hc (prefix_of_breakTags hm.tagless ?_)) ih
        rwa [breakTags.eq_2 c cs fun t hopen ht => htag ⟨hopen, t, ht⟩]

theorem Replaced.literal {s : String} (h : Replaced mark r s.toList ds) (hm : IsMark mark)
    (hr : ∀ c ∈ r, escape c = [c]) (hi : Insertable r) (ho : '<' ∉ r) :
    Replaced mark r (Json.str s).literal.toList (Json.str (String.ofList ds)).literal.toList := by
  have hquote : '"' ∉ mark := fun hc => absurd (hm.plain _ hc) (by decide)
  have hlead : '_' ∉ ['"'] := by decide
  rw [Json.literal, Json.literal, String.toList_ofList, String.toList_ofList, render, render, toList_quote,
    toList_quote, String.toList_ofList]
  exact (((h.escaped hm hr).concat hquote hm.ne_nil).behind hm hlead).broken hm hi ho

def keyLine (key : List Char) : List Char := "var tlJumpKey = ".toList ++ (key ++ [';'])

def participantLine (p : List Char) : List Char :=
  "  var p = typeof ".toList ++
    (p ++ (" !== \"undefined\" ? Math.floor(Number(".toList ++ (p ++ ")) : 1;".toList)))

/-- A line of the runtime, and the line that is written for it. -/
inductive FilledIn (key p : List Char) : List Char → List Char → Prop where
  | key : FilledIn key p (keyLine jumpKeyMark.toList) (keyLine key)
  | participant : FilledIn key p (participantLine participantMark.toList) (participantLine p)
  | plain {line} (hk : ¬jumpKeyMark.toList <:+: line) (hp : ¬participantMark.toList <:+: line) :
      FilledIn key p line line

/-- A line has neither mark, or it is one of the two with places for what is filled in. -/
inductive Places : List Char → Prop where
  | key : Places (keyLine jumpKeyMark.toList)
  | participant : Places (participantLine participantMark.toList)
  | plain {line} (h : ¬['_', '_'] <:+: line) : Places line

set_option maxRecDepth 4000 in
theorem places_lines : ∀ l ∈ lines, Places l.toList := by
  unfold lines
  repeat first
    | refine forall_literals Places (.plain (by decide)) ?_
    | refine forall_literals Places .key ?_
    | refine forall_literals Places .participant ?_
  simp

theorem replace_toList (mark r s : String) : (replace mark r s).toList = replaceFrom mark.toList r.toList 0 s.toList :=
  String.toList_ofList

theorem not_infix_of_places {line mark : List Char} (h : ¬['_', '_'] <:+: line) (hm : ['_', '_'] <+: mark) :
    ¬mark <:+: line := fun hwithin => h (hm.isInfix.trans hwithin)

theorem isMark_jumpKey : IsMark jumpKeyMark.toList where
  head := by decide
  plain c hc := escape_identifier (Emit.of_isIdentifier (by decide) c hc)
  tagless := by decide

theorem replaced_keyLine {key p : String} (hp : ∀ c ∈ p.toList, escape c = [c]) (hi : Insertable p.toList)
    (ho : '<' ∉ p.toList) :
    Replaced participantMark.toList p.toList (keyLine (Json.str key).literal.toList)
      (keyLine (Json.str (replace participantMark p key)).literal.toList) := by
  have hm := isMark_participant
  have hlead : '_' ∉ "var tlJumpKey = ".toList := by decide
  have hliteral := (replaced_replaceFrom hm.ne_nil key.toList).literal hm hp hi ho
  exact (hliteral.concat (by decide) hm.ne_nil).behind hm hlead

theorem replaced_participantLine (p : List Char) :
    Replaced participantMark.toList p (participantLine participantMark.toList) (participantLine p) := by
  have hm := isMark_participant
  have hlead : '_' ∉ "  var p = typeof ".toList := by decide
  have hmiddle : '_' ∉ " !== \"undefined\" ? Math.floor(Number(".toList := by decide
  have hend : Replaced participantMark.toList p (")) : 1;".toList ++ []) (")) : 1;".toList ++ []) :=
    Replaced.nil.behind hm (by decide)
  rw [List.append_nil] at hend
  exact (hend.mark.behind hm hmiddle).mark.behind hm hlead

theorem replaced_mark (key : List Char) :
    Replaced jumpKeyMark.toList key (keyLine jumpKeyMark.toList) (keyLine key) := by
  have hm := isMark_jumpKey
  have hlead : '_' ∉ "var tlJumpKey = ".toList := by decide
  have hend : Replaced jumpKeyMark.toList key ([';'] ++ []) ([';'] ++ []) := Replaced.nil.behind hm (by decide)
  exact hend.mark.behind hm hlead

/-- The key under which a script keeps its jumps. -/
def storedKey (settings : Settings) : String :=
  replace participantMark settings.participantGlobal settings.jumpStorageKey

theorem storedKey_eq_iff (settings : Settings) : storedKey settings = settings.jumpStorageKey ↔
    ¬participantMark.toList <:+: settings.jumpStorageKey.toList ∨ settings.participantGlobal = participantMark := by
  have hm := isMark_participant
  have hkey := replaced_replaceFrom (r := settings.participantGlobal.toList) hm.ne_nil settings.jumpStorageKey.toList
  rw [← String.toList_inj, storedKey, replace_toList, hkey.unchanged_iff hm.ne_nil, String.toList_inj]

theorem filled {settings : Settings}
    (h : Emit.checkPath "participant_global" settings.participantGlobal = .ok ()) :
    List.Forall₂ (fun l l' => FilledIn (Json.str (storedKey settings)).literal.toList
        settings.participantGlobal.toList l.toList l'.toList) lines
      (fill (Json.str settings.jumpStorageKey).literal settings.participantGlobal) := by
  obtain ⟨ho, hi⟩ := Emit.insertable_path h
  have hp : ∀ c ∈ settings.participantGlobal.toList, escape c = [c] := by
    intro c hc
    rcases Emit.path_chars h c hc with rfl | hc
    · rfl
    · exact escape_identifier hc
  rw [fill, List.forall₂_map_right_iff]
  refine List.forall₂_same.mpr fun l hl => ?_
  have hplace := places_lines l hl
  rw [replace_toList, replace_toList]
  generalize l.toList = line at hplace
  cases hplace with
  | key =>
      rw [(replaced_mark _).eq isMark_jumpKey.ne_nil, (replaced_keyLine hp hi ho).eq isMark_participant.ne_nil]
      exact .key
  | participant =>
      have hletter : 'J' ∉ participantLine participantMark.toList := by
        have hmark : 'J' ∉ participantMark.toList := by decide
        unfold participantLine
        apply List.not_mem_append (by decide)
        apply List.not_mem_append hmark
        apply List.not_mem_append (by decide)
        exact List.not_mem_append hmark (by decide)
      have hmark : 'J' ∈ jumpKeyMark.toList := by decide
      have hnone : ¬jumpKeyMark.toList <:+: participantLine participantMark.toList :=
        fun hwithin => hletter (hwithin.subset hmark)
      rw [(Replaced.absent hnone).eq isMark_jumpKey.ne_nil,
        (replaced_participantLine _).eq isMark_participant.ne_nil]
      exact .participant
  | plain hplain =>
      have hk : ¬jumpKeyMark.toList <:+: line := not_infix_of_places hplain (by decide)
      have hp : ¬participantMark.toList <:+: line := not_infix_of_places hplain (by decide)
      rw [(Replaced.absent hk).eq isMark_jumpKey.ne_nil, (Replaced.absent hp).eq isMark_participant.ne_nil]
      exact .plain hk hp

end Prelude

open Prelude Emit

theorem Line.renderAll_append (ls rs : List Line) : renderAll (ls ++ rs) = renderAll ls ++ renderAll rs := by
  rw [← String.toList_inj, String.toList_append, renderAll, renderAll, renderAll, String.toList_join,
    String.toList_join, String.toList_join, List.map_append, List.flatMap_append]

theorem Line.renderAll_ofText (texts : List String) :
    renderAll (texts.map (ofText 0)) = String.join (texts.map (· ++ "\n")) := by
  have hline : ∀ s : String, (ofText 0 s).render = s := by
    intro s
    simp [ofText, render, Piece.render]
  rw [renderAll, List.map_map]
  refine congrArg String.join (List.map_congr_left fun s _ => ?_)
  rw [Function.comp_apply, hline]

section Text

variable {t : Timeline} {settings : Settings} {text : String}

/-- A script begins with the lines of the runtime, the places in them filled in. -/
theorem text_filled (h : t.emit settings = .ok text) :
    ∃ filled rest, text = String.join (filled.map (· ++ "\n")) ++ rest ∧
      List.Forall₂ (fun l l' => FilledIn (Json.str (storedKey settings)).literal.toList
        settings.participantGlobal.toList l.toList l'.toList) Prelude.lines filled := by
  obtain ⟨hlines, htext⟩ := t.emit_ok h
  obtain ⟨-, hp, -⟩ := t.emitLines_ok hlines
  refine ⟨_, Line.renderAll ([.blank] ++ body t settings), ?_, filled hp⟩
  rw [htext, script_eq, preludeLines, List.append_assoc, Line.renderAll_append, Line.renderAll_ofText]

/-- The literal of the storage key is that of the key with its own marks replaced, so it is read as the
key itself only where there are none. -/
theorem emit_filled (h : t.emit settings = .ok text) :
    ∃ filled rest, text = String.join (filled.map (· ++ "\n")) ++ rest ∧
      List.Forall₂ (fun l l' => FilledIn (Json.str (storedKey settings)).literal.toList
        settings.participantGlobal.toList l.toList l'.toList) Prelude.lines filled ∧
      (∀ j, Json.IsTextOf (Json.str (storedKey settings)).literal j ↔ j = .str (storedKey settings)) ∧
      (Json.IsTextOf (Json.str (storedKey settings)).literal (.str settings.jumpStorageKey) ↔
        ¬participantMark.toList <:+: settings.jumpStorageKey.toList ∨
          settings.participantGlobal = participantMark) := by
  obtain ⟨filled, rest, htext, hfilled⟩ := text_filled h
  have hfaithful := Json.faithful (Json.readable_str (storedKey settings))
  refine ⟨filled, rest, htext, hfilled, hfaithful.denotes, ?_⟩
  rw [hfaithful.denotes, Json.str.injEq, eq_comm, storedKey_eq_iff]

end Text

def bareTimeline : Timeline := ⟨[], .empty, []⟩

def quotedKey : Settings :=
  { Settings.default with jumpStorageKey := "\"</__JUMP_KEY__\"", participantGlobal := "window.p" }

theorem emit_filled_quoted :
    ∃ text, bareTimeline.emit quotedKey = .ok text ∧
      ∃ filled rest, text = String.join (filled.map (· ++ "\n")) ++ rest ∧
        List.Forall₂ (fun l l' => FilledIn (Json.str (storedKey quotedKey)).literal.toList
          quotedKey.participantGlobal.toList l.toList l'.toList) Prelude.lines filled ∧
        Json.IsTextOf (Json.str (storedKey quotedKey)).literal (.str quotedKey.jumpStorageKey) := by
  have he : bareTimeline.emit quotedKey = .ok _ := bareTimeline.emit_of_paths (by decide) (by decide)
  obtain ⟨filled, rest, htext, hfilled, -, hkey⟩ := emit_filled he
  exact ⟨_, he, filled, rest, htext, hfilled, hkey.mpr (.inl (by decide))⟩

def markedKey : Settings := { Settings.default with jumpStorageKey := "__PARTICIPANT__" }

theorem emit_filled_marked :
    ∃ text, bareTimeline.emit markedKey = .ok text ∧
      ∃ filled rest, text = String.join (filled.map (· ++ "\n")) ++ rest ∧
        List.Forall₂ (fun l l' => FilledIn "\"participantNumber\"".toList "participantNumber".toList
          l.toList l'.toList) Prelude.lines filled ∧
        ¬Json.IsTextOf "\"participantNumber\"" (.str markedKey.jumpStorageKey) := by
  have he : bareTimeline.emit markedKey = .ok _ := bareTimeline.emit_of_paths (by decide) (by decide)
  have hstored : storedKey markedKey = "participantNumber" := by decide
  have hliteral : (Json.str "participantNumber").literal = "\"participantNumber\"" := by decide
  obtain ⟨filled, rest, htext, hfilled⟩ := text_filled he
  rw [hstored, hliteral] at hfilled
  refine ⟨_, he, filled, rest, htext, hfilled, ?_⟩
  rw [← hliteral, (Json.faithful (Json.readable_str "participantNumber")).denotes]
  decide

end BranchingTimeline
