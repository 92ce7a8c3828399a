import Mathlib.Data.List.Infix
import BranchingTimeline.Json.Printer
import BranchingTimeline.Script.Emit

namespace BranchingTimeline

namespace Text

/-- The text has `</` in it, with which a closing tag begins. -/
def HasTag (cs : List Char) : Prop := ['<', '/'] <:+: cs

/-- A text that can stand before any other: it does not end in half a tag. -/
def Closed (cs : List Char) : Prop := ¬['<'] <:+ cs

variable {cs ds : List Char} {c : Char}

theorem hasTag_cons : HasTag (c :: cs) ↔ (c = '<' ∧ ['/'] <+: cs) ∨ HasTag cs := by
  rw [HasTag, List.infix_cons_iff, List.cons_prefix_cons, eq_comm]
  rfl

def findsTag : List Char → Bool
  | '<' :: '/' :: _ => true
  | _ :: r => findsTag r
  | [] => false

theorem findsTag_iff : findsTag cs = true ↔ HasTag cs := by
  fun_induction findsTag cs with
  | case1 r => simp [hasTag_cons, List.cons_prefix_cons]
  | case2 c r hne ih =>
      have hhead : ¬(c = '<' ∧ ['/'] <+: r) := by
        rintro ⟨rfl, s, rfl⟩
        exact hne s rfl rfl
      rw [ih, hasTag_cons, or_iff_right hhead]
  | case3 => simp [HasTag]

instance : Decidable (HasTag cs) := decidable_of_iff _ findsTag_iff

theorem hasTag_append :
    HasTag (cs ++ ds) ↔ HasTag cs ∨ HasTag ds ∨ (['<'] <:+ cs ∧ ['/'] <+: ds) := by
  rw [HasTag, List.infix_append_iff]
  constructor
  · rintro (h | h | ⟨l, r, he, hl, hr⟩)
    · exact .inl h
    · exact .inr (.inl h)
    · rcases List.append_eq_cons_iff.mp he.symm with ⟨rfl, rfl⟩ | ⟨l, rfl, hslash⟩
      · exact .inr (.inl hr.isInfix)
      · rcases List.append_eq_cons_iff.mp hslash.symm with ⟨rfl, rfl⟩ | ⟨l, rfl, hnil⟩
        · exact .inr (.inr ⟨hl, hr⟩)
        · obtain ⟨rfl, rfl⟩ := List.append_eq_nil_iff.mp hnil.symm
          exact .inl hl.isInfix
  · rintro (h | h | ⟨hl, hr⟩)
    · exact .inl h
    · exact .inr (.inl h)
    · exact .inr (.inr ⟨['<'], ['/'], rfl, hl, hr⟩)

theorem Closed.hasTag_append (h : Closed cs) : HasTag (cs ++ ds) ↔ HasTag cs ∨ HasTag ds := by
  rw [Text.hasTag_append]
  exact or_congr_right (or_iff_left fun hd => h hd.1)

theorem hasTag_append_of_head (h : ¬['/'] <+: ds) : HasTag (cs ++ ds) ↔ HasTag cs ∨ HasTag ds := by
  rw [Text.hasTag_append]
  exact or_congr_right (or_iff_left fun hd => h hd.2)

theorem not_hasTag_of_not_mem (h : '<' ∉ cs) : ¬HasTag cs := fun ht => h (ht.subset (by simp))

theorem closed_of_not_mem (h : '<' ∉ cs) : Closed cs := fun hs => h (hs.subset (by simp))

theorem hasTag_append_of_not_mem (h : '<' ∉ cs) : HasTag (cs ++ ds) ↔ HasTag ds := by
  rw [(closed_of_not_mem h).hasTag_append, or_iff_right (not_hasTag_of_not_mem h)]

theorem closed_concat (h : c ≠ '<') (cs : List Char) : Closed (cs ++ [c]) := by
  intro hs
  rw [List.singleton_suffix_iff_getLast?_eq_some] at hs
  simp [h] at hs

theorem hasTag_map {f : Char → Char} (ho : ∀ c, f c = '<' ↔ c = '<') (hs : ∀ c, f c = '/' ↔ c = '/') :
    HasTag (cs.map f) ↔ HasTag cs := by
  induction cs with
  | nil => rfl
  | cons c cs ih =>
      have hhead : ['/'] <+: cs.map f ↔ ['/'] <+: cs := by
        cases cs with
        | nil => rfl
        | cons d cs => simp [List.cons_prefix_cons, eq_comm, hs]
      rw [List.map_cons, hasTag_cons, hasTag_cons, ho, hhead, ih]

theorem forall_literals (P : List Char → Prop) {ls : List String} (h : P cs) (hl : ∀ l ∈ ls, P l.toList) :
    ∀ l ∈ String.ofList cs :: ls, P l.toList := by
  rw [List.forall_mem_cons, String.toList_ofList]
  exact ⟨h, hl⟩

theorem trim_within (s : String) : (trim s).toList <:+: s.toList := by
  rw [trim, String.toList_ofList]
  have hleft : dropSpaces s.toList <:+ s.toList := List.dropWhile_suffix _
  have hright : (dropSpaces (dropSpaces s.toList).reverse).reverse <+: dropSpaces s.toList := by
    rw [← List.reverse_suffix, List.reverse_reverse]
    exact List.dropWhile_suffix _
  exact hright.isInfix.trans hleft.isInfix

end Text

open Text

section Literal

theorem head_breakTags {cs : List Char} (h : ['/'] <+: breakTags cs) : ['/'] <+: cs := by
  fun_cases breakTags cs with
  | case1 r => simp [breakTags] at h
  | case2 c r hne =>
      rw [breakTags] at h
      · simpa [List.cons_prefix_cons] using h
      · exact hne
  | case3 => exact h

/-- The slash of a tag is set off, so no tag is left. -/
theorem not_hasTag_breakTags (cs : List Char) : ¬HasTag (breakTags cs) := by
  fun_induction breakTags cs with
  | case1 r ih => simpa [hasTag_cons] using ih
  | case2 c r hne ih =>
      rw [hasTag_cons]
      rintro (⟨rfl, hs⟩ | h)
      · obtain ⟨s, rfl⟩ := head_breakTags hs
        exact hne s rfl rfl
      · exact ih h
  | case3 => simp [HasTag]

theorem getLast?_breakTags (cs : List Char) : (breakTags cs).getLast? = cs.getLast? := by
  fun_induction breakTags cs with
  | case1 r ih => simp [List.getLast?_cons, ih]
  | case2 c r hne ih => simp [List.getLast?_cons, ih]
  | case3 => rfl

theorem closed_breakTags {cs : List Char} (h : Closed cs) : Closed (breakTags cs) := by
  rw [Closed, List.singleton_suffix_iff_getLast?_eq_some] at h ⊢
  rwa [getLast?_breakTags]

end Literal

namespace Number

theorem not_mem_repr (n : Nat) : '<' ∉ n.repr.toList := by
  intro h
  rw [Nat.toList_repr] at h
  exact absurd (Nat.isDigit_of_mem_toDigits (by decide) (by decide) h) (by decide)

theorem not_mem_plain {digits : List Char} (h : '<' ∉ digits) (k : Int) : '<' ∉ plain digits k := by
  have htake : ∀ n, '<' ∉ digits.take n := fun n hn => h (List.mem_of_mem_take hn)
  have hdrop : ∀ n, '<' ∉ digits.drop n := fun n hn => h (List.mem_of_mem_drop hn)
  have hzeros : ∀ n, '<' ∉ List.replicate n '0' := fun n hn => by cases List.eq_of_mem_replicate hn
  simp only [plain]
  split
  · simp [h]
  · split
    · simp [htake, hdrop]
    · simp [h]

theorem not_mem_scientific {digits : List Char} (h : '<' ∉ digits) (power : Int) :
    '<' ∉ scientific digits power := by
  have hsign : '<' ≠ (if power < 0 then '-' else '+') := by split <;> decide
  unfold scientific
  simp only [List.mem_append, List.mem_cons, not_or]
  refine ⟨?_, by decide, hsign, not_mem_repr _⟩
  split
  · simpa using h
  · exact h

theorem not_mem_rankText (rank : Nat) : '<' ∉ rankText rank := by
  simp only [rankText]
  split
  · decide
  · split
    · exact not_mem_plain (not_mem_repr _) _
    · exact not_mem_scientific (not_mem_repr _) _

theorem not_mem_text (n : Number) : '<' ∉ n.text.toList := by
  fun_cases text n with
  | case1 n => exact not_mem_repr n
  | case2 n => simpa [text] using not_mem_repr (n + 1)
  | case3 d =>
      rw [String.toList_ofList]
      split
      · simpa using not_mem_rankText d.rank
      · exact not_mem_rankText d.rank

end Number

namespace Json

theorem closed_render (j : Json) : Closed j.render.toList := by
  cases j with
  | unreadable | null => exact closed_of_not_mem (by decide)
  | bool b => cases b <;> exact closed_of_not_mem (by decide)
  | num n => exact closed_of_not_mem (by simpa [render] using n.not_mem_text)
  | str s =>
      rw [render, quote, String.toList_append]
      exact closed_concat (by decide) _
  | arr items =>
      rw [render, String.toList_append]
      exact closed_concat (by decide) _
  | obj members =>
      rw [render, String.toList_append]
      exact closed_concat (by decide) _

theorem closed_literal (j : Json) : Closed j.literal.toList := by
  rw [literal, String.toList_ofList]
  exact closed_breakTags j.closed_render

theorem not_hasTag_literal (j : Json) : ¬HasTag j.literal.toList := by
  rw [literal, String.toList_ofList]
  exact not_hasTag_breakTags _

end Json

structure Text.Insertable (cs : List Char) : Prop where
  tagless : ¬HasTag cs
  closed : Closed cs
  nonempty : cs ≠ []
  head : ¬['/'] <+: cs

theorem Json.insertable_str (s : String) : Insertable (Json.str s).literal.toList := by
  have hhead : ∃ r, (Json.str s).literal.toList = '"' :: r := by
    rw [literal, String.toList_ofList, render, quote, String.toList_append, String.toList_append]
    exact ⟨_, breakTags.eq_2 '"' _ (by simp)⟩
  obtain ⟨r, hr⟩ := hhead
  refine ⟨not_hasTag_literal _, closed_literal _, ?_, ?_⟩
  · simp [hr]
  · simp [hr, List.cons_prefix_cons]

namespace Prelude

variable {mark replacement cs : List Char}

theorem head_replaceFrom (hr : Insertable replacement)
    (h : ['/'] <+: replaceFrom mark replacement 0 cs) : ['/'] <+: cs := by
  cases cs with
  | nil => simp [replaceFrom] at h
  | cons c cs =>
      rw [replaceFrom] at h
      split at h
      · obtain ⟨d, r, rfl⟩ := List.exists_cons_of_ne_nil hr.nonempty
        exact absurd (by simpa [List.cons_prefix_cons] using h) hr.head
      · simpa [List.cons_prefix_cons] using h

theorem not_hasTag_replaceFrom (hr : Insertable replacement) (skip : Nat) (h : ¬HasTag cs) :
    ¬HasTag (replaceFrom mark replacement skip cs) := by
  fun_induction replaceFrom mark replacement skip cs with
  | case1 skip => exact h
  | case2 skip c r ih => exact ih fun ht => h (hasTag_cons.mpr (.inr ht))
  | case3 c r hmark ih =>
      rw [hr.closed.hasTag_append, not_or]
      exact ⟨hr.tagless, ih fun ht => h (hasTag_cons.mpr (.inr ht))⟩
  | case4 c r hmark ih =>
      rw [hasTag_cons, not_or]
      refine ⟨fun hs => h (hasTag_cons.mpr (.inl ⟨hs.1, head_replaceFrom hr hs.2⟩)), ?_⟩
      exact ih fun ht => h (hasTag_cons.mpr (.inr ht))

theorem not_hasTag_lines : ∀ l ∈ lines, ¬HasTag l.toList := by
  unfold lines
  repeat refine forall_literals (fun cs => ¬HasTag cs) (by decide) ?_
  simp

theorem not_hasTag_fill {jumpKey participant : String} (hk : Insertable jumpKey.toList)
    (hp : Insertable participant.toList) : ∀ l ∈ fill jumpKey participant, ¬HasTag l.toList := by
  intro l hl
  obtain ⟨base, hb, rfl⟩ := List.mem_map.mp hl
  rw [replace, String.toList_ofList, replace, String.toList_ofList]
  exact not_hasTag_replaceFrom hp 0 (not_hasTag_replaceFrom hk 0 (not_hasTag_lines base hb))

end Prelude

namespace Emit

theorem mem_pathParts {cs : List Char} {c : Char} (h : c ∈ cs) :
    c = '.' ∨ ∃ part ∈ pathParts cs, c ∈ part := by
  induction cs with
  | nil => cases h
  | cons d r ih =>
      rw [pathParts]
      split
      · rcases List.mem_cons.mp h with rfl | h
        · exact .inl ‹_›
        · rcases ih h with hd | ⟨part, hp, hc⟩
          · exact .inl hd
          · exact .inr ⟨part, List.mem_cons_of_mem _ hp, hc⟩
      · rcases List.mem_cons.mp h with rfl | h
        · split <;> simp
        · rcases ih h with hd | ⟨part, hp, hc⟩
          · exact .inl hd
          · split
            · rename_i first rest he
              rw [he, List.mem_cons] at hp
              rcases hp with rfl | hp
              · exact .inr ⟨_, List.mem_cons_self, List.mem_cons_of_mem _ hc⟩
              · exact .inr ⟨part, List.mem_cons_of_mem _ hp, hc⟩
            · rename_i he
              simp [he] at hp

theorem of_isIdentifier {cs : List Char} (h : isIdentifier cs = true) :
    ∀ c ∈ cs, (startsIdentifier c || c.isDigit) = true := by
  cases cs with
  | nil => cases h
  | cons d r =>
      rw [isIdentifier, Bool.and_eq_true] at h
      rw [List.forall_mem_cons, h.1]
      exact ⟨rfl, List.all_eq_true.mp h.2⟩

theorem parts_of_path {setting value : String} (h : checkPath setting value = .ok ()) :
    (pathParts value.toList).all isIdentifier = true := by
  rw [checkPath] at h
  split at h
  · assumption
  · cases h

theorem path_chars {setting value : String} (h : checkPath setting value = .ok ()) :
    ∀ c ∈ value.toList, c = '.' ∨ (startsIdentifier c || c.isDigit) = true := by
  intro c hc
  rcases mem_pathParts hc with hd | ⟨part, hp, hc⟩
  · exact .inl hd
  · exact .inr (of_isIdentifier (List.all_eq_true.mp (parts_of_path h) part hp) c hc)

theorem insertable_path {setting value : String} (h : checkPath setting value = .ok ()) :
    '<' ∉ value.toList ∧ Insertable value.toList := by
  have hparts := parts_of_path h
  have hchars := path_chars h
  have hopen : '<' ∉ value.toList := fun hc => absurd (hchars _ hc) (by decide)
  have hslash : '/' ∉ value.toList := fun hc => absurd (hchars _ hc) (by decide)
  refine ⟨hopen, not_hasTag_of_not_mem hopen, closed_of_not_mem hopen, fun he => ?_, ?_⟩
  · rw [he] at hparts
    exact absurd hparts (by decide)
  · exact fun hs => hslash (hs.subset (by simp))

end Emit

end BranchingTimeline
