import Mathlib.Data.String.Basic
import BranchingTimeline.Proofs.Decimal.Grammar
import BranchingTimeline.Proofs.Decimal.Rounding

namespace BranchingTimeline

def Double.IsNaN (d : Double) : Prop := infinityRank < d.rank

namespace Numeral

/-- The word is a numeral, and the longest with which a text begins. -/
structure Longest (cs w : List Char) (x : Written) : Prop where
  isPrefix : w <+: cs
  spells : Spells x w
  longest : ∀ v y, v <+: cs → Spells y v → v.length ≤ w.length

section Scan

variable {cs w v : List Char} {x y : Written}

theorem longest_of_scan {rest : List Char} {n : Numeral} (h : scan cs = some (n, rest)) :
    ∃ w x, Longest cs w x ∧ x.numeral = n := by
  obtain ⟨x, w, hspells, hn, hcs⟩ := scan_spells h
  refine ⟨w, x, ⟨⟨rest, hcs.symm⟩, hspells, ?_⟩, hn⟩
  rintro v y ⟨r, hr⟩ hv
  obtain ⟨n', rest', hscan, hsuffix⟩ := scan_reaches hv r
  rw [hr, h] at hscan
  obtain ⟨rfl, rfl⟩ := Prod.mk.inj (Option.some.inj hscan)
  have hle := hsuffix.length_le
  have hlength := congrArg List.length (hr.trans hcs)
  simp only [List.length_append] at hlength
  omega

theorem Longest.unique (h : Longest cs w x) (k : Longest cs v y) : x.numeral = y.numeral := by
  have hle := h.longest v y k.isPrefix k.spells
  have hle' := k.longest w x h.isPrefix h.spells
  obtain rfl : w = v :=
    (List.prefix_of_prefix_length_le h.isPrefix k.isPrefix hle').eq_of_length_le hle
  have hscan := (scan_word h.spells).symm.trans (scan_word k.spells)
  exact (Prod.mk.inj (Option.some.inj hscan)).1

theorem scan_eq_none_iff : scan cs = none ↔ ∀ w x, w <+: cs → ¬Spells x w := by
  constructor
  · rintro h w x ⟨r, rfl⟩ hspells
    obtain ⟨n, rest, hscan, -⟩ := scan_reaches hspells r
    rw [h] at hscan
    cases hscan
  · intro h
    by_contra hne
    obtain ⟨⟨n, rest⟩, hscan⟩ := Option.ne_none_iff_exists'.mp hne
    obtain ⟨w, x, hlongest, -⟩ := longest_of_scan hscan
    exact h w x hlongest.isPrefix hlongest.spells

end Scan

section Value

/-- The double that a written numeral is read as, the digits of its power being counted in some way: the
nearest to the number that it stands for. -/
inductive Written.RoundsTo (count : List Char → Nat) : Written → Double → Prop where
  | infinity {negative : Bool} : RoundsTo count (.infinity negative) ⟨negative, Double.infinityRank⟩
  | decimal {negative down : Bool} {whole fraction tens : List Char} {rank : Nat} :
      Double.IsNearest
        (natural (whole ++ fraction) * 10 ^ (signed count down tens - fraction.length)) rank →
      RoundsTo count (.decimal negative whole fraction down tens) ⟨negative, rank⟩

variable {x : Written} {d : Double}

theorem Written.roundsTo_iff : x.RoundsTo power d ↔ x.numeral.value = d := by
  cases x with
  | infinity negative =>
      constructor
      · rintro ⟨⟩
        rfl
      · rintro rfl
        exact .infinity
  | decimal negative whole fraction down tens =>
      have hnearest := Double.isNearest_nearestDecimal (natural (whole ++ fraction))
        (signed power down tens - fraction.length)
      constructor
      · rintro ⟨⟩
        rename_i rank h
        rw [numeral, value, hnearest.unique h]
      · rintro rfl
        exact .decimal hnearest

theorem Written.RoundsTo.not_isNaN {count : List Char → Nat} (h : x.RoundsTo count d) : ¬d.IsNaN := by
  cases h with
  | infinity => exact lt_irrefl _
  | decimal hnearest => exact not_lt.mpr hnearest.le

theorem leading_not_isNaN {s : String} (h : leading s = some d) : ¬d.IsNaN := by
  obtain ⟨⟨n, rest⟩, hscan, rfl⟩ := Option.map_eq_some_iff.mp h
  obtain ⟨w, x, -, rfl⟩ := longest_of_scan hscan
  exact (Written.roundsTo_iff.mpr rfl).not_isNaN

theorem toNat_le_of_isDigit {c : Char} (h : isDigit c = true) : c.toNat ≤ '9'.toNat := by
  rw [isDigit, Bool.and_eq_true, decide_eq_true_eq, decide_eq_true_eq] at h
  exact h.2

theorem toNat_digit {c : Char} (h : isDigit c = true) : c.toNat - '0'.toNat ≤ 9 :=
  Nat.sub_le_sub_right (toNat_le_of_isDigit h) _

theorem natural_concat (ds : List Char) (c : Char) :
    natural (ds ++ [c]) = 10 * natural ds + (c.toNat - '0'.toNat) := by
  rw [natural, List.foldl_append]
  rfl

theorem power_concat (ds : List Char) (c : Char) :
    power (ds ++ [c]) =
      if power ds < 2 ^ 16 then 10 * power ds + (c.toNat - '0'.toNat) else power ds := by
  rw [power, List.foldl_append]
  rfl

theorem natural_lt {ds : List Char} (h : ∀ c ∈ ds, isDigit c = true) : natural ds < 10 ^ ds.length := by
  induction ds using List.reverseRecOn with
  | nil => decide
  | append_singleton ds c ih =>
      have hc := toNat_digit (h c (by simp))
      have hds := ih fun c hc => h c (by simp [hc])
      rw [natural_concat, List.length_append, List.length_singleton, pow_succ]
      omega

theorem power_or (tens : List Char) :
    power tens = natural tens ∨ 2 ^ 16 ≤ power tens ∧ 2 ^ 16 ≤ natural tens := by
  induction tens using List.reverseRecOn with
  | nil => exact .inl rfl
  | append_singleton tens c ih =>
      rw [power_concat, natural_concat]
      split <;> omega

theorem Mantissa.length_le {whole fraction word : List Char} (h : Mantissa whole fraction word) :
    whole.length + fraction.length ≤ word.length ∧
      ∀ c ∈ whole ++ fraction, isDigit c = true := by
  cases h with
  | whole hd => simpa using hd.2
  | pointed hd hf =>
      rw [List.length_append, List.length_cons]
      exact ⟨by omega, fun c hc => (List.mem_append.mp hc).elim (hd.2 c) (hf c)⟩
  | fraction hd => simpa using hd.2

theorem isNearest_extreme {digits : List Char} {places : Nat} (down : Bool) (tens : List Char)
    (hdigits : ∀ c ∈ digits, isDigit c = true) (hplaces : places ≤ digits.length)
    (hlength : digits.length < 65000) :
    ∃ rank, ∀ count : List Char → Nat, 2 ^ 16 ≤ count tens →
      Double.IsNearest (natural digits * 10 ^ (signed count down tens - places)) rank := by
  by_cases hzero : natural digits = 0
  · refine ⟨0, fun count _ => ?_⟩
    rw [hzero, Nat.cast_zero, zero_mul]
    exact Double.isNearest_zero_zero
  cases down with
  | true =>
      refine ⟨0, fun count hcount => Double.isNearest_of_small (natural_lt hdigits) ?_⟩
      rw [signed, if_pos rfl]
      omega
  | false =>
      have hone : (2 : ℚ) ^ (0 : ℤ) ≤ natural digits := by
        rw [zpow_zero]
        exact_mod_cast Nat.pos_of_ne_zero hzero
      refine ⟨Double.infinityRank, fun count hcount => ?_⟩
      rw [signed, if_neg Bool.false_ne_true]
      exact Double.isNearest_of_large hone (by omega) (by omega)

theorem Written.RoundsTo.exact {w : List Char} (h : x.RoundsTo power d) (hw : Spells x w)
    (hlength : w.length < 65000) : x.RoundsTo natural d := by
  cases h with
  | infinity => exact .infinity
  | @decimal negative down whole fraction tens rank hnearest =>
      cases hw with
      | @decimal _ _ sg _ _ mantissa _ word hsign hm hp =>
          refine .decimal ?_
          rcases power_or tens with he | ⟨hpower, hnatural⟩
          · rwa [signed, ← he]
          · obtain ⟨hle, hdigits⟩ := hm.length_le
            simp only [List.length_append] at hlength
            have hplaces : fraction.length ≤ (whole ++ fraction).length := by simp
            have hshort : (whole ++ fraction).length < 65000 := by
              rw [List.length_append]
              omega
            obtain ⟨extreme, hextreme⟩ := isNearest_extreme down tens hdigits hplaces hshort
            rw [hnearest.unique (hextreme power hpower)]
            exact hextreme natural hnatural

end Value

section Text

def names : List (List Char) := ["inf".toList, "infinity".toList, "nan".toList]

def IsName (w : List Char) : Prop :=
  ∃ negative sg body, Sign negative sg ∧ w = sg ++ body ∧ body.map Char.toLower ∈ names

/-- The texts that a reader of doubles takes:
`[+-]? (inf | infinity | nan | (D+ | D+ . D* | D* . D+) [(e|E) [+-]? D+])`. -/
inductive FloatText : List Char → Prop where
  | name {w : List Char} : IsName w → FloatText w
  | whole {negative down : Bool} {sg whole tens power : List Char} : Sign negative sg → Digits whole →
      Power down tens power → FloatText (sg ++ (whole ++ power))
  | pointed {negative down : Bool} {sg whole fraction tens power : List Char} : Sign negative sg →
      Digits whole → (∀ c ∈ fraction, isDigit c = true) → Power down tens power →
      FloatText (sg ++ (whole ++ '.' :: fraction ++ power))
  | fraction {negative down : Bool} {sg whole fraction tens power : List Char} : Sign negative sg →
      (∀ c ∈ whole, isDigit c = true) → Digits fraction → Power down tens power →
      FloatText (sg ++ (whole ++ '.' :: fraction ++ power))

variable {negative down : Bool} {whole fraction tens w : List Char} {x : Written}

theorem Spells.floatText (h : Spells (.decimal negative whole fraction down tens) w) : FloatText w := by
  cases h with
  | decimal hs hm hp =>
      cases hm with
      | whole hd => exact .whole hs hd hp
      | pointed hd hf => exact .pointed hs hd hf hp
      | fraction hd =>
          have hempty : ∀ c ∈ ([] : List Char), isDigit c = true := by simp
          exact .fraction hs hempty hd hp

def marks : List Char := ['+', '-', '.', 'e', 'E']

theorem Sign.chars {sg : List Char} (h : Sign negative sg) : ∀ c ∈ sg, c ∈ marks := by
  cases h <;> simp [marks]

theorem Mantissa.chars {word : List Char} (h : Mantissa whole fraction word) :
    ∀ c ∈ word, isDigit c = true ∨ c ∈ marks := by
  have hpoint : '.' ∈ marks := by decide
  cases h with
  | whole hd => exact fun c hc => .inl (hd.2 c hc)
  | pointed hd hf =>
      simp only [List.mem_append, List.mem_cons]
      rintro c (hc | rfl | hc)
      · exact .inl (hd.2 c hc)
      · exact .inr hpoint
      · exact .inl (hf c hc)
  | fraction hd =>
      rw [List.forall_mem_cons]
      exact ⟨.inr hpoint, fun c hc => .inl (hd.2 c hc)⟩

theorem Power.chars {word : List Char} (h : Power down tens word) :
    ∀ c ∈ word, isDigit c = true ∨ c ∈ marks := by
  cases h with
  | absent => simp
  | present hmark hs hd =>
      rw [List.forall_mem_cons]
      constructor
      · rcases hmark with rfl | rfl <;> exact .inr (by decide)
      · intro c hc
        exact (List.mem_append.mp hc).elim (fun h => .inr (hs.chars c h)) fun h => .inl (hd.2 c h)

theorem Spells.chars (h : Spells (.decimal negative whole fraction down tens) w) :
    ∀ c ∈ w, isDigit c = true ∨ c ∈ marks := by
  cases h with
  | decimal hs hm hp =>
      simp only [List.mem_append]
      rintro c (hc | hc | hc)
      · exact .inr (hs.chars c hc)
      · exact hm.chars c hc
      · exact hp.chars c hc

theorem Spells.not_isName (h : Spells (.decimal negative whole fraction down tens) w) : ¬IsName w := by
  rintro ⟨sign, sg, body, -, rfl, hname⟩
  have hn : ∀ name ∈ names, 'n' ∈ name := by decide
  obtain ⟨c, hc, hlower⟩ := List.mem_map.mp (hn _ hname)
  rcases h.chars c (List.mem_append_right _ hc) with hdigit | hmark
  · have hle : c.toNat ≤ 57 := toNat_le_of_isDigit hdigit
    have hself : c.toLower = c :=
      dif_neg fun hupper => absurd (hle.trans_lt (by decide)) (not_lt.mpr hupper.1)
    rw [hself] at hlower
    subst hlower
    exact absurd hle (by decide)
  · have hmarks : ∀ c ∈ marks, c.toLower ≠ 'n' := by simp [marks]
    exact hmarks c hmark hlower

theorem Spells.ascii (h : Spells x w) : ∀ c ∈ w, c.toNat ≤ 127 := by
  have hmarks : ∀ c ∈ marks, c.toNat ≤ 127 := by simp [marks]
  cases x with
  | infinity negative =>
      cases h with
      | infinity hs =>
          have hword : ∀ c ∈ "Infinity".toList, c.toNat ≤ 127 := by simp
          intro c hc
          exact (List.mem_append.mp hc).elim (fun h => hmarks c (hs.chars c h)) (hword c)
  | decimal negative whole fraction down tens =>
      intro c hc
      rcases h.chars c hc with hdigit | hmark
      · exact (toNat_le_of_isDigit hdigit).trans (by decide)
      · exact hmarks c hmark

theorem Spells.size (h : Spells x w) : (String.ofList w).utf8ByteSize = w.length := by
  have hsize : ∀ c ∈ w, c.utf8Size = 1 := fun c hc => Char.utf8Size_eq_one_iff.mpr (h.ascii c hc)
  clear h
  rw [String.utf8ByteSize_ofList]
  induction w with
  | nil => rfl
  | cons c w ih =>
      rw [List.forall_mem_cons] at hsize
      rw [String.utf8Len_cons, ih hsize.2, hsize.1, List.length_cons]

theorem Longest.isValid {cs : List Char} (h : Longest cs w x) :
    String.Pos.Raw.IsValid (String.ofList cs) ⟨w.length⟩ := by
  obtain ⟨r, rfl⟩ := h.isPrefix
  refine String.Pos.Raw.isValid_iff_exists_append.mpr ⟨_, _, String.ofList_append, ?_⟩
  rw [String.rawEndPos, h.spells.size]

end Text

def unspaced (s : String) : List Char := Text.dropSpaces s.toList

/-- The number that a text begins with is that of the longest numeral there, and a text without one has
none. The numeral is one that a reader of doubles takes, it is no name of infinity or what is not a
number, and it ends where a character ends, its bytes being no fewer than those of any other numeral. -/
theorem leading_longest (s : String) :
    (leading s = none ↔ ∀ w x, w <+: unspaced s → ¬Spells x w) ∧
    (∀ d, leading s = some d ↔ ∃ w x, Longest (unspaced s) w x ∧ x.RoundsTo power d) ∧
    ∀ w x d, Longest (unspaced s) w x → x.RoundsTo power d →
      (w.length < 65000 → x.RoundsTo natural d) ∧ ¬d.IsNaN ∧
      ((∃ negative, x = .infinity negative) ∨ FloatText w ∧ ¬IsName w) ∧
      String.Pos.Raw.IsValid (String.ofList (unspaced s)) ⟨w.length⟩ ∧
      ∀ v y bytes, Spells y v → v.utf8Encode ++ bytes = (unspaced s).utf8Encode →
        v.length ≤ w.length := by
  refine ⟨?_, ?_, ?_⟩
  · rw [leading, Option.map_eq_none_iff, scan_eq_none_iff, unspaced]
  · intro d
    rw [leading, Option.map_eq_some_iff]
    constructor
    · rintro ⟨⟨n, rest⟩, hscan, rfl⟩
      obtain ⟨w, x, hlongest, rfl⟩ := longest_of_scan hscan
      exact ⟨w, x, hlongest, Written.roundsTo_iff.mpr rfl⟩
    · rintro ⟨w, x, hlongest, hrounds⟩
      obtain ⟨r, hr⟩ := hlongest.isPrefix
      obtain ⟨n, rest, hscan, -⟩ := scan_reaches hlongest.spells r
      rw [hr] at hscan
      obtain ⟨v, y, hlongest', rfl⟩ := longest_of_scan hscan
      refine ⟨_, hscan, ?_⟩
      rw [hlongest'.unique hlongest]
      exact Written.roundsTo_iff.mp hrounds
  · intro w x d hlongest hrounds
    refine ⟨hrounds.exact hlongest.spells, hrounds.not_isNaN, ?_, hlongest.isValid, ?_⟩
    · have hspells := hlongest.spells
      cases x with
      | infinity negative => exact .inl ⟨negative, rfl⟩
      | decimal => exact .inr ⟨hspells.floatText, hspells.not_isName⟩
    · intro v y bytes hv hbytes
      exact hlongest.longest v y (List.isPrefix_of_utf8Encode_append_eq_utf8Encode bytes hbytes) hv

theorem leading_longest_spaced :
    leading " -1.5e+é" = some ⟨true, 1023 * 2 ^ 52 + 2 ^ 51⟩ ∧
    ∃ w x, Longest (unspaced " -1.5e+é") w x ∧ x.RoundsTo natural ⟨true, 1023 * 2 ^ 52 + 2 ^ 51⟩ ∧
      FloatText w := by
  have hvalue : leading " -1.5e+é" = some ⟨true, 1023 * 2 ^ 52 + 2 ^ 51⟩ := by decide +kernel
  obtain ⟨-, hsome, hspelled⟩ := leading_longest " -1.5e+é"
  obtain ⟨w, x, hlongest, hrounds⟩ := (hsome _).mp hvalue
  obtain ⟨hexact, -, hread, -, -⟩ := hspelled w x _ hlongest hrounds
  have hshort : w.length < 65000 := hlongest.isPrefix.length_le.trans_lt (by decide)
  refine ⟨hvalue, w, x, hlongest, hexact hshort, ?_⟩
  rcases hread with ⟨negative, rfl⟩ | ⟨hread, -⟩
  · cases hrounds
  · exact hread

end Numeral

end BranchingTimeline
