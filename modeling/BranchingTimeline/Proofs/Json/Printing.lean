import BranchingTimeline.Json.Printer
import BranchingTimeline.Proofs.Decimal.Shortest
import BranchingTimeline.Proofs.Json.Grammar

namespace BranchingTimeline

namespace Numeral

theorem natural_repr (n : Nat) : natural n.repr.toList = n := by
  rw [Nat.toList_repr]
  exact Nat.ofDigitChars_ten_toDigits

theorem digits_repr (n : Nat) : Digits n.repr.toList := by
  rw [Nat.toList_repr]
  refine ⟨Nat.toDigits_ne_nil, ?_⟩
  intro c hc
  have hdigit := Nat.isDigit_of_mem_toDigits (by decide) (by decide) hc
  simpa [isDigit, Char.isDigit, Char.le_def] using hdigit

theorem digits_zero : Digits ['0'] := ⟨List.cons_ne_nil _ _, List.forall_mem_singleton.mpr rfl⟩

theorem head_toDigits (n : Nat) (h : 0 < n) : (Nat.toDigits 10 n).head? ≠ some '0' := by
  induction n using Nat.strongRecOn with
  | ind n ih =>
      by_cases hn : n < 10
      · rw [Nat.toDigits_of_lt_base hn]
        match n, h, hn with
        | 1, _, _ | 2, _, _ | 3, _, _ | 4, _, _ | 5, _, _ | 6, _, _ | 7, _, _ | 8, _, _ | 9, _, _ => decide
      · rw [Nat.toDigits_of_base_le (by decide) (by omega), List.head?_append,
          Option.or_of_isSome (by simp [Nat.toDigits_ne_nil])]
        exact ih (n / 10) (by omega) (by omega)

theorem natural_zeros (ds : List Char) (k : Nat) :
    natural (ds ++ List.replicate k '0') = natural ds * 10 ^ k := by
  induction k with
  | zero => simp
  | succ k ih =>
      rw [List.replicate_succ', ← List.append_assoc, natural_concat, ih, pow_succ, Nat.sub_self,
        Nat.add_zero]
      ring

theorem natural_leading (ds : List Char) (k : Nat) : natural (List.replicate k '0' ++ ds) = natural ds := by
  induction k with
  | zero => rfl
  | succ k ih => exact ih

end Numeral

namespace Number

open Numeral (Digits Power Sign isDigit natural signed natural_repr digits_repr digits_zero natural_zeros
  natural_leading)
open Double (infinityRank IsNearest)

theorem whole_repr (n : Nat) : Whole n.repr.toList := by
  refine ⟨digits_repr n, fun hzero => ?_⟩
  rcases Nat.eq_zero_or_pos n with rfl | hpos
  · rfl
  · rw [Nat.toList_repr] at hzero
    exact absurd hzero (Numeral.head_toDigits n hpos)

section Double

variable {negative : Bool} {rank : Nat} {ds : List Char}

theorem denoted_double {whole : List Char} {fraction : Option (List Char)} {power : Option Int}
    (hpart : fraction ≠ none ∨ power ≠ none) (hr : rank < infinityRank)
    (hn : IsNearest (natural (whole ++ fraction.getD []) *
      10 ^ (power.getD 0 - (fraction.getD []).length)) rank) :
    denoted negative whole fraction power = some (.double ⟨negative, rank⟩ hr) := by
  have hrank := (Double.isNearest_nearestDecimal _ _).unique hn
  simp only [denoted]
  rw [dif_neg (by tauto), dif_neg (by tauto)]
  simp only [hrank, dif_pos hr]

theorem spelled_pointed {whole fraction : List Char} (hw : Whole whole) (hf : Digits fraction)
    (hr : rank < infinityRank)
    (hn : IsNearest (natural (whole ++ fraction) * 10 ^ (-(fraction.length : ℤ))) rank) :
    Spelled (minus negative ++ (whole ++ '.' :: fraction)) (.double ⟨negative, rank⟩ hr) := by
  have hdenoted : denoted negative whole (some fraction) none = some (.double ⟨negative, rank⟩ hr) := by
    refine denoted_double (.inl (by simp)) hr ?_
    rwa [Option.getD_some, Option.getD_none, zero_sub]
  have hword : minus negative ++ (whole ++ '.' :: fraction) =
      minus negative ++ (whole ++ (('.' :: fraction) ++ [])) := by rw [List.append_nil]
  rw [hword]
  exact .literal hw (.present hf) .absent hdenoted

theorem spelled_plain (hd : Digits ds) (hz : ds.head? ≠ some '0') (hr : rank < infinityRank) {k : ℤ}
    (hn : IsNearest (natural ds * 10 ^ k) rank) :
    Spelled (minus negative ++ plain ds k) (.double ⟨negative, rank⟩ hr) := by
  have hzeros : ∀ m, ∀ c ∈ List.replicate m '0', isDigit c = true := by
    intro m c hc
    rw [List.eq_of_mem_replicate hc]
    rfl
  have hwhole : ∀ c r, ds = c :: r → ∀ s, (∀ d ∈ s, isDigit d = true) → Whole (c :: s) := by
    rintro c r rfl s hs
    refine ⟨⟨List.cons_ne_nil _ _, List.forall_mem_cons.mpr ⟨hd.2 c List.mem_cons_self, hs⟩⟩, ?_⟩
    exact fun hzero => absurd hzero hz
  obtain ⟨c, r, hds, -⟩ := hd.exists_cons
  simp only [plain]
  split
  · rename_i hk
    obtain ⟨m, rfl⟩ := Int.eq_ofNat_of_zero_le hk
    have hvalue : natural (ds ++ List.replicate m '0' ++ ['0']) = natural ds * 10 ^ (m + 1) := by
      rw [List.append_assoc, ← natural_zeros, List.replicate_succ']
    have hpow : (natural ds * 10 ^ (m : ℤ) : ℚ) =
        (natural ds * 10 ^ (m + 1) : Nat) * 10 ^ (-(1 : ℤ)) := by
      rw [Nat.cast_mul, Nat.cast_pow, pow_succ, zpow_natCast, zpow_neg_one]
      field_simp
      norm_num
    have hword : ds ++ List.replicate m '0' ++ ['.', '0'] =
        (ds ++ List.replicate m '0') ++ '.' :: ['0'] := rfl
    rw [Int.toNat_natCast, hword]
    refine spelled_pointed ?_ digits_zero hr ?_
    · rw [hds, List.cons_append]
      refine hwhole c r hds _ (List.forall_mem_append.mpr ⟨fun d hd' => hd.2 d ?_, hzeros m⟩)
      rw [hds]
      exact List.mem_cons_of_mem c hd'
    · rw [hvalue]
      exact hpow ▸ hn
  · rename_i hk
    obtain ⟨m, hm⟩ := Int.eq_ofNat_of_zero_le (by omega : 0 ≤ -k)
    obtain rfl : k = -m := by omega
    rw [neg_neg, Int.toNat_natCast]
    split
    · rename_i hplaces
      have hlength : (ds.drop (ds.length - m)).length = m := by
        rw [List.length_drop]
        omega
      have hfraction : Digits (ds.drop (ds.length - m)) := by
        refine ⟨?_, fun d hd' => hd.2 d (List.mem_of_mem_drop hd')⟩
        rw [← List.length_pos_iff_ne_nil, hlength]
        omega
      refine spelled_pointed ?_ hfraction hr ?_
      · obtain ⟨t, ht⟩ := Nat.exists_eq_add_of_lt (Nat.sub_pos_of_lt hplaces)
        have htake : ds.take (ds.length - m) = c :: r.take t := by
          rw [ht, zero_add, hds, List.take_succ_cons]
        rw [htake]
        refine hwhole c r hds _ fun d hd' => hd.2 d ?_
        rw [hds]
        exact List.mem_cons_of_mem c (List.mem_of_mem_take hd')
      · rwa [List.take_append_drop, hlength]
    · rename_i hplaces
      have hword : ['0', '.'] ++ List.replicate (m - ds.length) '0' ++ ds =
          ['0'] ++ '.' :: (List.replicate (m - ds.length) '0' ++ ds) := rfl
      have hlength : (List.replicate (m - ds.length) '0' ++ ds).length = m := by
        rw [List.length_append, List.length_replicate]
        omega
      have hvalue : natural (['0'] ++ (List.replicate (m - ds.length) '0' ++ ds)) = natural ds :=
        natural_leading ds (m - ds.length + 1)
      rw [hword]
      refine spelled_pointed ⟨digits_zero, fun _ => rfl⟩ ?_ hr ?_
      · exact ⟨by simp [hd.1], List.forall_mem_append.mpr ⟨hzeros _, hd.2⟩⟩
      · rwa [hvalue, hlength]

theorem signed_repr (power : ℤ) : signed natural (power < 0) power.natAbs.repr.toList = power := by
  rw [signed, natural_repr]
  split
  · rename_i h
    have hneg := of_decide_eq_true h
    omega
  · rename_i h
    have hpos : ¬power < 0 := fun hlt => h (decide_eq_true hlt)
    omega

theorem power_repr (power : ℤ) :
    Power (power < 0) power.natAbs.repr.toList
      ('e' :: (if power < 0 then '-' else '+') :: power.natAbs.repr.toList) := by
  by_cases h : power < 0
  · rw [if_pos h, decide_eq_true h]
    exact .present (.inl rfl) .minus (digits_repr _)
  · rw [if_neg h, decide_eq_false h]
    exact .present (.inl rfl) .plus (digits_repr _)

theorem spelled_scientific (hd : Digits ds) (hz : ds.head? ≠ some '0') (hr : rank < infinityRank)
    {k : ℤ} (hn : IsNearest (natural ds * 10 ^ k) rank) :
    Spelled (minus negative ++ scientific ds (k + ds.length - 1)) (.double ⟨negative, rank⟩ hr) := by
  have hpower := power_repr (k + ds.length - 1)
  have hsigned := signed_repr (k + ds.length - 1)
  have hwhole : ∀ d r, ds = d :: r → Whole [d] := by
    rintro d r rfl
    exact ⟨⟨by simp, by simpa using hd.2 d List.mem_cons_self⟩, fun h => absurd h hz⟩
  unfold scientific
  match ds, hd, hz, hn, hpower, hsigned, hwhole with
  | [], hd, _, _, _, _, _ => exact absurd rfl hd.1
  | [d], _, _, hn, hpower, hsigned, hwhole =>
      refine .literal (hwhole d [] rfl) .absent hpower ?_
      rw [if_neg (List.cons_ne_nil _ _), hsigned]
      refine denoted_double (.inr (Option.some_ne_none _)) hr ?_
      simpa using hn
  | d :: c :: r, hd, _, hn, hpower, hsigned, hwhole =>
      have hfraction : Digits (c :: r) := ⟨List.cons_ne_nil _ _, fun e he => hd.2 e (List.mem_cons_of_mem d he)⟩
      have hplaces : k + (d :: c :: r).length - 1 - (c :: r).length = k := by
        simp only [List.length_cons]
        omega
      refine .literal (hwhole d _ rfl) (.present hfraction) hpower ?_
      rw [if_neg (List.cons_ne_nil _ _), hsigned]
      refine denoted_double (.inr (Option.some_ne_none _)) hr ?_
      rw [Option.getD_some, Option.getD_some, hplaces]
      exact hn

theorem spelled_rankText (hr : rank < infinityRank) :
    Spelled (minus negative ++ rankText rank) (.double ⟨negative, rank⟩ hr) := by
  simp only [rankText]
  by_cases hzero : rank = 0
  · subst hzero
    rw [if_pos rfl]
    refine spelled_pointed ⟨digits_zero, fun _ => rfl⟩ digits_zero (by decide) ?_
    have hvalue : (natural (['0'] ++ ['0']) * 10 ^ (-((['0'].length : Nat) : ℤ)) : ℚ) = 0 := by
      rw [show natural (['0'] ++ ['0']) = 0 from rfl, Nat.cast_zero, zero_mul]
    rw [hvalue]
    exact Double.isNearest_zero_zero
  · have hpos := Nat.pos_of_ne_zero hzero
    have hdigits := digits_repr (Double.shortest rank).1
    have hhead : (Double.shortest rank).1.repr.toList.head? ≠ some '0' := by
      rw [Nat.toList_repr]
      exact Numeral.head_toDigits _ (Double.shortest_pos hpos hr)
    have hnearest := Double.isNearest_shortest hpos hr
    rw [← natural_repr (Double.shortest rank).1] at hnearest
    rw [if_neg hzero]
    split
    · exact spelled_plain hdigits hhead hr hnearest
    · exact spelled_scientific hdigits hhead hr hnearest

end Double

/-- A number's text spells the number. -/
theorem spelled_text (n : Number) : Spelled n.text.toList n := by
  have hint : ∀ (negative : Bool) (m : Nat) (n : Number), denoted negative m.repr.toList none none = some n →
      Spelled (minus negative ++ m.repr.toList) n := by
    intro negative m n hn
    have hword := Spelled.literal (whole_repr m) .absent .absent hn
    rwa [List.append_nil, List.append_nil] at hword
  match n with
  | .int (.ofNat m) fits =>
      refine hint false m _ ?_
      have hm : m < Nat.pow 2 64 := Int.ofNat_lt.mp fits.2
      simp only [denoted, natural_repr, true_and]
      rw [dif_pos hm]
      rfl
  | .int (.negSucc m) fits =>
      rw [text, String.toList_append]
      refine hint true (m + 1) _ ?_
      have hm : 0 < m + 1 ∧ m + 1 ≤ Nat.pow 2 63 := by
        have hlow := fits.1
        omega
      simp only [denoted, natural_repr, true_and, Bool.true_eq_false, false_and]
      rw [dif_neg not_false, dif_pos hm]
      rfl
  | .double d finite =>
      have hword : Spelled (minus d.negative ++ rankText d.rank) (.double d finite) := spelled_rankText finite
      rw [text, String.toList_ofList]
      rw [minus] at hword
      split
      · rename_i hneg
        rwa [if_pos hneg] at hword
      · rename_i hneg
        rwa [if_neg hneg] at hword

end Number

namespace Json

open Reader (escaped hexDigit isNumberPart)

theorem hexDigit_hexLetter (n : Fin 16) : hexDigit (hexLetter n) = some n.val := by
  revert n
  decide

theorem codeUnit_control {n : Nat} (h : n < 0x20) :
    codeUnit '0' '0' (hexLetter (n / 16)) (hexLetter (n % 16)) = some n := by
  have hhigh := hexDigit_hexLetter ⟨n / 16, by omega⟩
  have hlow := hexDigit_hexLetter ⟨n % 16, by omega⟩
  have hzero : hexDigit '0' = some 0 := rfl
  simp only [codeUnit, hzero, hhigh, hlow, Option.bind_eq_bind, Option.bind_some, Option.pure_def]
  rw [Option.some_inj]
  omega

theorem InString.escape_append {cs s r : List Char} (c : Char) (h : InString cs s r) :
    InString (Json.escape c ++ cs) (c :: s) r := by
  fun_cases Json.escape c with
  | case8 _ _ _ _ _ _ _ hcontrol =>
      have hunit := InString.unit (codeUnit_control hcontrol) (by rw [IsHigh]; omega) (by rw [IsLow]; omega) h
      rwa [Char.ofNat_toNat] at hunit
  | case9 hquote hslash _ _ _ _ _ hcontrol => exact .plain hquote hslash (Nat.le_of_not_lt hcontrol) h
  | _ =>
      subst c
      exact .escape rfl h

theorem inString_quoted (s r : List Char) : InString (s.flatMap Json.escape ++ '"' :: r) s r := by
  induction s with
  | nil => exact .close
  | cons c s ih =>
      rw [List.flatMap_cons, List.append_assoc]
      exact ih.escape_append c

theorem toList_quote (s : String) : (quote s).toList = '"' :: (s.toList.flatMap Json.escape ++ ['"']) := by
  simp [quote]

theorem quote_append (s : String) (r : List Char) :
    (quote s).toList ++ r = '"' :: (s.toList.flatMap Json.escape ++ '"' :: r) := by
  rw [toList_quote, List.cons_append, List.append_assoc, List.singleton_append]

theorem toList_intercalate_cons (x : String) (xs : List String) :
    (",".intercalate (x :: xs)).toList = x.toList ++ xs.flatMap fun s => ',' :: s.toList := by
  induction xs generalizing x with
  | nil => simp
  | cons y ys ih =>
      rw [String.intercalate_cons_cons, String.toList_append, String.toList_append, ih, List.flatMap_cons,
        List.append_assoc]
      rfl

theorem skip_cons {c : Char} (h : Reader.isBlank c = false) (cs : List Char) : skip (c :: cs) = c :: cs :=
  List.dropWhile_cons_of_neg (by simp [h])

theorem not_blank_of_number {c : Char} (h : Numeral.isDigit c = true ∨ c = '-') : Reader.isBlank c = false := by
  rcases h with h | rfl
  · have hblanks : ∀ b ∈ [' ', '\t', '\n', '\r'], Numeral.isDigit b = false := by
      simp [Numeral.isDigit]
    by_contra hblank
    have hmem : c ∈ [' ', '\t', '\n', '\r'] := by
      simpa [Reader.isBlank, or_assoc, -Classical.not_imp, ← or_iff_not_imp_left] using hblank
    rw [hblanks c hmem] at h
    cases h
  · rfl

theorem Spells.skip_eq {cs r : List Char} {p : Part} (h : Spells cs p r) : skip cs = cs := by
  induction h with
  | num hw =>
      obtain ⟨c, w, rfl, hc⟩ := hw.head
      exact skip_cons (not_blank_of_number hc) _
  | firstItem _ _ ih => exact ih
  | firstMember _ _ ih => exact ih
  | _ => exact skip_cons rfl _

def listed (texts : List String) : List Char := texts.flatMap fun s => ',' :: s.toList

theorem listed_stops (texts : List String) {c : Char} (h : isNumberPart c = false) (r : List Char) :
    ∀ d ∈ (listed texts ++ c :: r).head?, isNumberPart d = false := by
  intro d hd
  cases texts with
  | nil =>
      obtain rfl := Option.some.inj hd
      exact h
  | cons =>
      obtain rfl := Option.some.inj hd
      rfl

theorem Spells.skipped {cs r : List Char} {p : Part} (h : Spells cs p r) : Spells (skip cs) p r := by
  rwa [h.skip_eq]

theorem spells_member {k : String} {j : Json} {text : String} {r : List Char}
    (h : Spells (text.toList ++ r) (.value j) r) :
    Spells ((quote k ++ ":" ++ text).toList ++ r) (.member k j) r := by
  have hk := Spells.member (inString_quoted k.toList _) (skip_cons rfl _) h.skipped
  rw [String.ofList_toList] at hk
  rwa [String.toList_append, String.toList_append, List.append_assoc, List.append_assoc, quote_append]

mutual

/-- The text of a value spells it, in front of any text that does not go on with a number. -/
theorem spells_render (j : Json) (h : j.readable = true) (r : List Char)
    (hr : ∀ c ∈ r.head?, isNumberPart c = false) : Spells (j.render.toList ++ r) (.value j) r := by
  match j, h with
  | null, _ => exact .null
  | bool true, _ => exact .true
  | bool false, _ => exact .false
  | num n, _ => exact .num n.spelled_text hr
  | str s, _ =>
      have hs := Spells.str (inString_quoted s.toList r)
      rw [String.ofList_toList] at hs
      rw [render, quote_append]
      exact hs
  | arr [], _ => exact .arr .noItem
  | arr (j :: items), h =>
      obtain ⟨hfirst, hrest⟩ := Bool.and_eq_true_iff.mp h
      have hj := spells_render j hfirst _ (listed_stops (renderItems items) (c := ']') rfl r)
      have hitems := Spells.firstItem hj (spells_renderItems items hrest r).skipped
      rw [render, renderItems, String.toList_append, String.toList_append, toList_intercalate_cons]
      simpa [listed] using Spells.arr hitems.skipped
  | obj [], _ => exact .obj .noMember
  | obj ((k, j) :: members), h =>
      obtain ⟨hfirst, hrest⟩ := Bool.and_eq_true_iff.mp h
      have hj := spells_render j hfirst _ (listed_stops (renderMembers members) (c := '\x7d') rfl r)
      have hmembers := Spells.firstMember (spells_member (k := k) hj) (spells_renderMembers members hrest r).skipped
      rw [render, renderMembers, String.toList_append, String.toList_append, toList_intercalate_cons]
      simpa [listed] using Spells.obj hmembers.skipped

theorem spells_renderItems (items : List Json) (h : readableItems items = true) (r : List Char) :
    Spells (listed (renderItems items) ++ ']' :: r) (.items items) r := by
  match items, h with
  | [], _ => exact .lastItem
  | j :: items, h =>
      obtain ⟨hfirst, hrest⟩ := Bool.and_eq_true_iff.mp h
      have hj := spells_render j hfirst _ (listed_stops (renderItems items) (c := ']') rfl r)
      have hitems := Spells.nextItem hj.skipped (spells_renderItems items hrest r).skipped
      rw [renderItems, listed, List.flatMap_cons, List.append_assoc]
      exact hitems

theorem spells_renderMembers (members : List (String × Json)) (h : readableMembers members = true)
    (r : List Char) :
    Spells (listed (renderMembers members) ++ '\x7d' :: r) (.members members) r := by
  match members, h with
  | [], _ => exact .lastMember
  | (k, j) :: members, h =>
      obtain ⟨hfirst, hrest⟩ := Bool.and_eq_true_iff.mp h
      have hj := spells_render j hfirst _ (listed_stops (renderMembers members) (c := '\x7d') rfl r)
      have hmembers := Spells.nextMember (spells_member (k := k) hj).skipped
        (spells_renderMembers members hrest r).skipped
      rw [renderMembers, listed, List.flatMap_cons, List.append_assoc]
      exact hmembers

end

def Printable (cs : List Char) : Prop := ∀ c ∈ cs, 0x20 ≤ c.toNat

theorem Printable.append {cs ds : List Char} (h : Printable cs) (h' : Printable ds) : Printable (cs ++ ds) :=
  List.forall_mem_append.mpr ⟨h, h'⟩

theorem printable_listed {texts : List String} (h : ∀ s ∈ texts, Printable s.toList) : Printable (listed texts) := by
  intro c hc
  obtain ⟨s, hs, hc⟩ := List.mem_flatMap.mp hc
  rcases List.mem_cons.mp hc with rfl | hc
  · decide
  · exact h s hs c hc

theorem printable_intercalate {texts : List String} (h : ∀ s ∈ texts, Printable s.toList) :
    Printable (",".intercalate texts).toList := by
  cases texts with
  | nil => simp [Printable]
  | cons s texts =>
      rw [toList_intercalate_cons]
      rw [List.forall_mem_cons] at h
      exact h.1.append (printable_listed h.2)

theorem printable_escape (c : Char) : Printable (escape c) := by
  have hletter : ∀ n : Fin 16, 0x20 ≤ (hexLetter n).toNat := by decide
  fun_cases escape c with
  | case8 _ _ _ _ _ _ _ hcontrol =>
      have hhigh := hletter ⟨c.toNat / 16, by omega⟩
      have hlow := hletter ⟨c.toNat % 16, by omega⟩
      simpa [Printable] using ⟨hhigh, hlow⟩
  | case9 _ _ _ _ _ _ _ hcontrol =>
      rw [Printable, List.forall_mem_singleton]
      exact Nat.le_of_not_lt hcontrol
  | _ => simp [Printable]

theorem printable_quote (s : String) : Printable (quote s).toList := by
  rw [toList_quote]
  refine List.forall_mem_cons.mpr ⟨by decide, Printable.append ?_ (List.forall_mem_singleton.mpr (by decide))⟩
  intro c hc
  obtain ⟨d, -, hc⟩ := List.mem_flatMap.mp hc
  exact printable_escape d c hc

theorem printable_of_number {c : Char} (h : isNumberPart c = true) : 0x20 ≤ c.toNat := by
  by_contra hlow
  have hcontrol : ∀ n : Fin 0x20, isNumberPart (Char.ofNat n) = false := by decide
  have hpart := hcontrol ⟨c.toNat, Nat.lt_of_not_le hlow⟩
  rw [Char.ofNat_toNat, h] at hpart
  cases hpart

mutual

theorem printable_render (j : Json) (h : j.readable = true) : Printable j.render.toList := by
  have hends : ∀ a b : Char, 0x20 ≤ a.toNat → 0x20 ≤ b.toNat → ∀ {cs}, Printable cs →
      Printable (a :: (cs ++ [b])) := by
    intro a b ha hb cs hcs
    exact List.forall_mem_cons.mpr ⟨ha, hcs.append (List.forall_mem_singleton.mpr hb)⟩
  match j, h with
  | null, _ | bool true, _ | bool false, _ => simp [Printable, render]
  | num n, _ => exact fun c hc => printable_of_number (n.spelled_text.chars c hc)
  | str s, _ => exact printable_quote s
  | arr items, h =>
      rw [render, String.toList_append, String.toList_append, List.append_assoc]
      exact hends '[' ']' (by decide) (by decide) (printable_intercalate (printable_renderItems items h))
  | obj members, h =>
      rw [render, String.toList_append, String.toList_append, List.append_assoc]
      exact hends '\x7b' '\x7d' (by decide) (by decide)
        (printable_intercalate (printable_renderMembers members h))

theorem printable_renderItems (items : List Json) (h : readableItems items = true) :
    ∀ s ∈ renderItems items, Printable s.toList := by
  match items, h with
  | [], _ => simp [renderItems]
  | j :: items, h =>
      obtain ⟨hfirst, hrest⟩ := Bool.and_eq_true_iff.mp h
      rw [renderItems, List.forall_mem_cons]
      exact ⟨printable_render j hfirst, printable_renderItems items hrest⟩

theorem printable_renderMembers (members : List (String × Json)) (h : readableMembers members = true) :
    ∀ s ∈ renderMembers members, Printable s.toList := by
  match members, h with
  | [], _ => simp [renderMembers]
  | (k, j) :: members, h =>
      obtain ⟨hfirst, hrest⟩ := Bool.and_eq_true_iff.mp h
      rw [renderMembers, List.forall_mem_cons, String.toList_append, String.toList_append]
      have hcolon : Printable ":".toList := by simp [Printable]
      exact ⟨((printable_quote k).append hcolon).append (printable_render j hfirst),
        printable_renderMembers members hrest⟩

end

end Json

end BranchingTimeline
