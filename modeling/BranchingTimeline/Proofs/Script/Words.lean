import BranchingTimeline.Proofs.Script.Lines

namespace BranchingTimeline

open Emit

def isWordChar (c : Char) : Bool := startsIdentifier c || c.isDigit

/-- The words of a text that goes on from the start of a word. The keys of objects, which a colon
follows, are left out. -/
def wordsFrom (word : List Char) : List Char → List String
  | [] => if word = [] then [] else [String.ofList word]
  | c :: r =>
    if isWordChar c then wordsFrom (word ++ [c]) r
    else (if word = [] ∨ c = ':' then [] else [String.ofList word]) ++ wordsFrom [] r

def words (cs : List Char) : List String := wordsFrom [] cs

section Words

variable {c : Char} {w : String}

theorem words_cons_of_not (hc : isWordChar c = false) (cs : List Char) : words (c :: cs) = words cs := by
  simp [words, wordsFrom, hc]

theorem wordsFrom_append_cons (hc : isWordChar c = false) (word ls rs : List Char) :
    wordsFrom word (ls ++ c :: rs) = wordsFrom word (ls ++ [c]) ++ words rs := by
  induction ls generalizing word with
  | nil => simp [words, wordsFrom, hc]
  | cons d ls ih =>
      rw [List.cons_append, List.cons_append, wordsFrom, wordsFrom]
      split
      · exact ih _
      · rw [ih, List.append_assoc]

theorem words_append_cons (hc : isWordChar c = false) (ls rs : List Char) :
    words (ls ++ c :: rs) = words (ls ++ [c]) ++ words rs := wordsFrom_append_cons hc [] ls rs

theorem wordsFrom_concat_subset (hc : isWordChar c = false) (word ls : List Char) :
    wordsFrom word (ls ++ [c]) ⊆ wordsFrom word ls := by
  induction ls generalizing word with
  | nil =>
      simp only [List.nil_append, wordsFrom, hc, Bool.false_eq_true, if_false, if_true, List.append_nil]
      split
      · exact List.nil_subset _
      · rename_i hkey
        rw [if_neg fun hw => hkey (.inl hw)]
        exact List.Subset.refl _
  | cons d ls ih =>
      rw [List.cons_append, wordsFrom, wordsFrom]
      split
      · exact ih _
      · exact List.append_subset.mpr ⟨List.subset_append_left _ _,
          List.subset_append_of_subset_right _ (ih _)⟩

theorem mem_words_append_of_last (hc : isWordChar c = false) {ls rs : List Char}
    (hw : w ∈ words (ls ++ [c] ++ rs)) : w ∈ words (ls ++ [c]) ∨ w ∈ words rs := by
  rw [List.append_assoc, List.singleton_append, words_append_cons hc] at hw
  exact List.mem_append.mp hw

theorem mem_words_append_of_head (hc : isWordChar c = false) {ls rs : List Char}
    (hw : w ∈ words (ls ++ c :: rs)) : w ∈ words ls ∨ w ∈ words (c :: rs) := by
  rw [words_append_cons hc] at hw
  rw [words_cons_of_not hc]
  exact (List.mem_append.mp hw).imp_left fun h => wordsFrom_concat_subset hc [] ls h

theorem wordsFrom_of_all {cs : List Char} (h : ∀ c ∈ cs, isWordChar c = true) (word : List Char) :
    wordsFrom word cs = if word ++ cs = [] then [] else [String.ofList (word ++ cs)] := by
  induction cs generalizing word with
  | nil => rw [wordsFrom, List.append_nil]
  | cons c cs ih =>
      rw [List.forall_mem_cons] at h
      rw [wordsFrom, if_pos h.1, ih h.2, List.append_assoc, List.singleton_append]

theorem words_of_all {cs : List Char} (h : ∀ c ∈ cs, isWordChar c = true) (hne : cs ≠ []) :
    words cs = [String.ofList cs] := by
  rw [words, wordsFrom_of_all h, List.nil_append, if_neg hne]

theorem takeWhile_append_of_stops {p : Char → Bool} {cs rs : List Char} (hcs : ∀ c ∈ cs, p c = true)
    (hrs : rs = [] ∨ ∃ c r, rs = c :: r ∧ p c = false) :
    (cs ++ rs).takeWhile p = cs ∧ (cs ++ rs).dropWhile p = rs := by
  rw [List.takeWhile_append_of_pos hcs, List.dropWhile_append_of_pos hcs]
  rcases hrs with rfl | ⟨c, r, rfl, hc⟩
  · simp
  · simp [hc]

theorem isWordChar_of_isIdentifier {cs : List Char} (h : isIdentifier cs = true) :
    cs ≠ [] ∧ ∀ c ∈ cs, isWordChar c = true := by
  cases cs with
  | nil => cases h
  | cons c cs =>
      rw [isIdentifier, Bool.and_eq_true, List.all_eq_true] at h
      refine ⟨List.cons_ne_nil _ _, List.forall_mem_cons.mpr ⟨?_, h.2⟩⟩
      rw [isWordChar, h.1, Bool.true_or]

end Words

def Variable.worded : Variable → Bool
  | .timeline _ => false
  | _ => true

namespace Piece

/-- Whether a part is worded by the emitter, and not by the settings, the data or a trial. -/
def worded : Piece → Bool
  | .text _ => true
  | .declared v | .used v => v.worded
  | .literal _ | .source _ | .comment _ => false

/-- The characters of a part, with a quotation mark for what the emitter does not word. -/
def code (p : Piece) : List Char := if p.worded then p.render.toList else ['"']

def isRemark : Piece → Bool
  | .text s => "//".toList.isPrefixOf s.toList
  | _ => false

def isTimeline : Piece → Bool
  | .used (.timeline _) => true
  | _ => false

def appends : Piece → Bool
  | .text s => "push" ∈ words s.toList
  | _ => false

def closes : Piece → Bool
  | .text s => s.toList.head?.any (!isWordChar ·)
  | .declared _ | .used _ => false
  | .literal _ | .source _ | .comment _ => true

def closed : Piece → Bool
  | .text s => s.toList.getLast?.any (!isWordChar ·)
  | .declared _ | .used _ => false
  | .literal _ | .source _ | .comment _ => true

/-- Whether a part can stand after another: no words run together, no comment begins, and only a
timeline is appended to. -/
def precedes (p q : Piece) : Bool := (p.closed || q.closes) && !q.isRemark && (!q.appends || p.isTimeline)

def joins : Piece → List Piece → Bool
  | _, [] => true
  | p, q :: r => p.precedes q && joins q r

theorem exists_code_of_closes {p : Piece} (h : p.closes = true) :
    ∃ c cs, p.code = c :: cs ∧ isWordChar c = false := by
  cases p with
  | text s =>
      cases hs : s.toList with
      | nil => simp [closes, hs] at h
      | cons c cs => exact ⟨c, cs, hs, by simpa [closes, hs] using h⟩
  | declared | used => cases h
  | literal | source | comment => exact ⟨'"', [], rfl, by decide⟩

theorem exists_code_of_closed {p : Piece} (h : p.closed = true) :
    ∃ c cs, p.code = cs ++ [c] ∧ isWordChar c = false := by
  cases p with
  | text s =>
      rcases List.eq_nil_or_concat s.toList with hs | ⟨cs, c, hs⟩
      · simp [closed, hs] at h
      · rw [List.concat_eq_append] at hs
        exact ⟨c, cs, hs, by simpa [closed, hs] using h⟩
  | declared | used => cases h
  | literal | source | comment => exact ⟨'"', [], rfl, by decide⟩

variable {p q : Piece} {ps : List Piece}

theorem joins_cons (h : joins p (q :: ps) = true) :
    (p.closed = true ∨ q.closes = true) ∧ q.isRemark = false ∧ (q.appends = true → p.isTimeline = true) ∧
      joins q ps = true := by
  simp only [joins, precedes, Bool.and_eq_true, Bool.or_eq_true, Bool.not_eq_true'] at h
  obtain ⟨⟨⟨hw, hr⟩, ha⟩, hj⟩ := h
  refine ⟨hw, hr, fun happ => ?_, hj⟩
  simpa [happ] using ha

/-- Each word of parts in a row is a word of one of them. -/
theorem exists_words_of_joins {w : String} (h : joins p ps = true) (hw : w ∈ words (ps.flatMap code)) :
    ∃ q ∈ ps, w ∈ words q.code := by
  induction ps generalizing p with
  | nil => cases hw
  | cons q ps ih =>
      obtain ⟨-, -, -, hj⟩ := joins_cons h
      rw [List.flatMap_cons] at hw
      have hsplit : w ∈ words q.code ∨ w ∈ words (ps.flatMap code) := by
        cases ps with
        | nil => exact .inl (by simpa using hw)
        | cons r ps =>
            rcases (joins_cons hj).1 with hc | hc
            · obtain ⟨c, cs, hcode, hc⟩ := exists_code_of_closed hc
              rw [hcode] at hw ⊢
              exact mem_words_append_of_last hc hw
            · obtain ⟨c, cs, hcode, hc⟩ := exists_code_of_closes hc
              rw [List.flatMap_cons, hcode] at hw ⊢
              exact mem_words_append_of_head hc hw
      rcases hsplit with hw | hw
      · exact ⟨q, List.mem_cons_self, hw⟩
      · obtain ⟨q', hq, hw⟩ := ih hj hw
        exact ⟨q', List.mem_cons_of_mem _ hq, hw⟩

theorem not_isRemark_of_joins (h : joins p ps = true) : ∀ q ∈ ps, q.isRemark = false := by
  induction ps generalizing p with
  | nil => simp
  | cons q ps ih =>
      obtain ⟨-, hr, -, hj⟩ := joins_cons h
      exact List.forall_mem_cons.mpr ⟨hr, ih hj⟩

theorem exists_timeline_of_joins (h : joins p ps = true) (hq : q ∈ ps) (ha : q.appends = true) :
    ∃ r ∈ p :: ps, r.isTimeline = true := by
  induction ps generalizing p with
  | nil => cases hq
  | cons r ps ih =>
      obtain ⟨-, -, happ, hj⟩ := joins_cons h
      rcases List.mem_cons.mp hq with rfl | hq
      · exact ⟨p, List.mem_cons_self, happ ha⟩
      · obtain ⟨s, hs, ht⟩ := ih hj hq
        exact ⟨s, List.mem_cons_of_mem _ hs, ht⟩

end Piece

namespace Line

def chars (pieces : List Piece) : List Char := pieces.flatMap fun p => p.render.toList

theorem chars_cons (p : Piece) (pieces : List Piece) :
    chars (p :: pieces) = p.render.toList ++ chars pieces := List.flatMap_cons

def row (l : Line) : List Char := List.replicate (2 * l.depth) ' ' ++ chars l.pieces

/-- The text of a line as far as the emitter words it. -/
def code (l : Line) : List Char := List.replicate (2 * l.depth) ' ' ++ l.pieces.flatMap Piece.code

def isRemark (l : Line) : Bool := "//".toList.isPrefixOf l.code

def afterConst? (l : Line) : Option (List Char) :=
  if "const ".toList.isPrefixOf l.code then some (l.code.drop 6) else none

/-- The name that the text of a line declares, unless the settings give it. -/
def constant? (l : Line) : Option String :=
  l.afterConst?.bind fun rest =>
    let name := rest.takeWhile isWordChar
    if name = [] then none else some (String.ofList name)

/-- The words in the text of a line, without the name that it declares. -/
def names (l : Line) : List String :=
  if l.isRemark then [] else words ((l.afterConst?.map (List.dropWhile isWordChar)).getD l.code)

/-- Whether a line is a comment, or no words run together in it. -/
def legible (l : Line) : Bool := l.isRemark || Piece.joins (.text " ") l.pieces

variable {l : Line} {v : Variable} {ps : List Piece} {w : String}

theorem words_indented (n : Nat) (cs : List Char) : words (List.replicate n ' ' ++ cs) = words cs := by
  induction n with
  | zero => rfl
  | succ n ih => rw [List.replicate_succ, List.cons_append, words_cons_of_not (by decide), ih]

theorem joins_of_legible (hl : l.legible = true) (hr : l.isRemark = false) :
    Piece.joins (.text " ") l.pieces = true := by
  rwa [legible, hr, Bool.false_or] at hl

theorem exists_words_of_mem_names (hl : l.legible = true) (hc : l.afterConst? = none) (hw : w ∈ l.names) :
    Piece.joins (.text " ") l.pieces = true ∧ ∃ q ∈ l.pieces, w ∈ words q.code := by
  rw [names, hc, Option.map_none, Option.getD_none] at hw
  cases hr : l.isRemark with
  | true => simp [hr] at hw
  | false =>
      have hj := joins_of_legible hl hr
      rw [hr, if_neg Bool.false_ne_true] at hw
      refine ⟨hj, Piece.exists_words_of_joins hj ?_⟩
      rwa [code, words_indented] at hw

def declaring (v : Variable) (ps : List Piece) : Line := ⟨0, .text "const " :: .declared v :: ps⟩

theorem afterConst?_declaring (v : Variable) (ps : List Piece) :
    (declaring v ps).afterConst? = some ((Piece.declared v).code ++ ps.flatMap Piece.code) := by
  have hcode : (declaring v ps).code =
      "const ".toList ++ ((Piece.declared v).code ++ ps.flatMap Piece.code) := rfl
  rw [afterConst?, hcode, if_pos (List.isPrefixOf_iff_prefix.mpr (List.prefix_append _ _))]
  exact congrArg some (List.drop_left' rfl)

theorem stops_of_joins_declared (h : Piece.joins (.declared v) ps = true) :
    ps.flatMap Piece.code = [] ∨ ∃ c cs, ps.flatMap Piece.code = c :: cs ∧ isWordChar c = false := by
  cases ps with
  | nil => exact .inl rfl
  | cons q ps =>
      obtain ⟨hw, -, -, -⟩ := Piece.joins_cons h
      obtain ⟨c, cs, hcode, hc⟩ := Piece.exists_code_of_closes (hw.resolve_left Bool.false_ne_true)
      refine .inr ⟨c, cs ++ ps.flatMap Piece.code, ?_, hc⟩
      rw [List.flatMap_cons, hcode, List.cons_append]

/-- A line that declares a name is read as such, and its other words are those of what follows. -/
theorem constant?_declaring (hv : v.worded = true → isIdentifier v.text.toList = true)
    (h : Piece.joins (.declared v) ps = true) :
    (declaring v ps).constant? = (if v.worded then some v.text else none) ∧
      ∀ w ∈ (declaring v ps).names, ∃ q ∈ ps, w ∈ words q.code := by
  have hstop := stops_of_joins_declared h
  have hremark : (declaring v ps).isRemark = false := rfl
  rw [constant?, names, hremark, afterConst?_declaring, Piece.code, Piece.worded, Piece.render]
  cases hworded : v.worded with
  | true =>
      obtain ⟨hne, hchars⟩ := isWordChar_of_isIdentifier (hv hworded)
      obtain ⟨htake, hdrop⟩ := takeWhile_append_of_stops hchars hstop
      simp only [if_true, Bool.false_eq_true, if_false, Option.bind_some, Option.map_some, Option.getD_some,
        htake, hdrop, if_neg hne, String.ofList_toList, true_and]
      exact fun w hw => Piece.exists_words_of_joins h hw
  | false => exact ⟨rfl, fun w hw => Piece.exists_words_of_joins h hw⟩

theorem toList_render (l : Line) : l.render.toList = l.row := by
  have hindent : (List.replicate l.depth "  ").flatMap String.toList = List.replicate (2 * l.depth) ' ' := by
    induction l.depth with
    | zero => rfl
    | succ n ih =>
        rw [List.replicate_succ, List.flatMap_cons, ih]
        rfl
  rw [render, String.toList_append, String.toList_join, String.toList_join, hindent, List.flatMap_map, row,
    chars]

end Line

end BranchingTimeline
