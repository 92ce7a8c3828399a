import Mathlib.Data.List.Infix
import Mathlib.Data.List.TakeWhile
import BranchingTimeline.Decimal.Numeral

namespace BranchingTimeline.Numeral

/-- The parts of a numeral as it is written; `down` stands for a negative power of ten. -/
inductive Written where
  | infinity (negative : Bool)
  | decimal (negative : Bool) (whole fraction : List Char) (down : Bool) (tens : List Char)

def Digits (ds : List Char) : Prop := ds ≠ [] ∧ ∀ c ∈ ds, isDigit c = true

inductive Sign : Bool → List Char → Prop where
  | absent : Sign false []
  | plus : Sign false ['+']
  | minus : Sign true ['-']

/-- `D+ [. D*] | . D+`, with the digits on both sides of the point. -/
inductive Mantissa : List Char → List Char → List Char → Prop where
  | whole {whole : List Char} : Digits whole → Mantissa whole [] whole
  | pointed {whole fraction : List Char} : Digits whole → (∀ c ∈ fraction, isDigit c = true) →
      Mantissa whole fraction (whole ++ '.' :: fraction)
  | fraction {fraction : List Char} : Digits fraction → Mantissa [] fraction ('.' :: fraction)

inductive Power : Bool → List Char → List Char → Prop where
  | absent : Power false [] []
  | present {mark : Char} {down : Bool} {sg tens : List Char} : (mark = 'e' ∨ mark = 'E') →
      Sign down sg → Digits tens → Power down tens (mark :: (sg ++ tens))

/-- `[+-]? (Infinity | (D+ [. D*] | . D+) [(e|E) [+-]? D+])` -/
inductive Spells : Written → List Char → Prop where
  | infinity {negative : Bool} {sg : List Char} : Sign negative sg →
      Spells (.infinity negative) (sg ++ "Infinity".toList)
  | decimal {negative down : Bool} {sg whole fraction mantissa tens power : List Char} :
      Sign negative sg → Mantissa whole fraction mantissa → Power down tens power →
      Spells (.decimal negative whole fraction down tens) (sg ++ (mantissa ++ power))

def signed (count : List Char → Nat) (down : Bool) (tens : List Char) : Int :=
  if down then -(count tens : Int) else count tens

def Written.numeral : Written → Numeral
  | .infinity negative => .infinity negative
  | .decimal negative whole fraction down tens =>
    .decimal negative whole fraction (signed power down tens)

def behindPoint : List Char → List Char × List Char
  | '.' :: cs => (cs.takeWhile isDigit, cs.dropWhile isDigit)
  | cs => ([], cs)

theorem scan_eq (cs : List Char) :
    scan cs =
      let body := (sign cs).2
      let whole := body.takeWhile isDigit
      let after := behindPoint (body.dropWhile isDigit)
      if "Infinity".toList.isPrefixOf body then
        some (.infinity (sign cs).1, body.drop "Infinity".toList.length)
      else if whole = [] ∧ after.1 = [] then none
      else some (.decimal (sign cs).1 whole after.1 (exponent after.2).1, (exponent after.2).2) :=
  rfl

section Digits

variable {ds r : List Char}

theorem takeWhile_digits (h : ∀ c ∈ ds, isDigit c = true) (r : List Char) :
    (ds ++ r).takeWhile isDigit = ds ++ r.takeWhile isDigit :=
  List.takeWhile_append_of_pos h

theorem dropWhile_digits (h : ∀ c ∈ ds, isDigit c = true) (r : List Char) :
    (ds ++ r).dropWhile isDigit = r.dropWhile isDigit :=
  List.dropWhile_append_of_pos h

theorem digits_takeWhile (h : r.takeWhile isDigit ≠ []) : Digits (r.takeWhile isDigit) :=
  ⟨h, fun _ hc => List.mem_takeWhile_imp hc⟩

theorem no_digits (h : ∀ c ∈ r.head?, isDigit c = false) :
    r.takeWhile isDigit = [] ∧ r.dropWhile isDigit = r := by
  cases r with
  | nil => exact ⟨rfl, rfl⟩
  | cons c r =>
      have hc : isDigit c = false := h c rfl
      exact ⟨List.takeWhile_cons_of_neg (by simp [hc]), List.dropWhile_cons_of_neg (by simp [hc])⟩

theorem Digits.exists_cons (h : Digits ds) : ∃ c r, ds = c :: r ∧ isDigit c = true := by
  obtain ⟨c, r, rfl⟩ := List.exists_cons_of_ne_nil h.1
  exact ⟨c, r, rfl, h.2 c List.mem_cons_self⟩

end Digits

def Unsigned (cs : List Char) : Prop := ∀ c ∈ cs.head?, c ≠ '+' ∧ c ≠ '-'

theorem sign_spells (cs : List Char) : ∃ sg, Sign (sign cs).1 sg ∧ cs = sg ++ (sign cs).2 := by
  fun_cases sign cs with
  | case1 cs => exact ⟨_, .minus, rfl⟩
  | case2 cs => exact ⟨_, .plus, rfl⟩
  | case3 cs => exact ⟨_, .absent, rfl⟩

theorem sign_append {negative : Bool} {sg body : List Char} (h : Sign negative sg)
    (hbody : Unsigned body) : sign (sg ++ body) = (negative, body) := by
  cases h with
  | absent =>
      cases body with
      | nil => rfl
      | cons c r =>
          obtain ⟨hplus, hminus⟩ := hbody c rfl
          exact sign.eq_3 _ (fun _ he => hminus (List.cons.inj he).1)
            (fun _ he => hplus (List.cons.inj he).1)
  | plus => rfl
  | minus => rfl

theorem mantissa_spells (body : List Char)
    (h : ¬(body.takeWhile isDigit = [] ∧ (behindPoint (body.dropWhile isDigit)).1 = [])) :
    ∃ word, Mantissa (body.takeWhile isDigit) (behindPoint (body.dropWhile isDigit)).1 word ∧
      body = word ++ (behindPoint (body.dropWhile isDigit)).2 := by
  have hbody : body.takeWhile isDigit ++ body.dropWhile isDigit = body :=
    List.takeWhile_append_dropWhile
  generalize hrest : body.dropWhile isDigit = rest at h hbody ⊢
  fun_cases behindPoint rest with
  | case1 cs =>
      have hcs : cs.takeWhile isDigit ++ cs.dropWhile isDigit = cs := List.takeWhile_append_dropWhile
      simp only [behindPoint] at h ⊢
      by_cases hwhole : body.takeWhile isDigit = []
      · rw [hwhole] at hbody ⊢
        refine ⟨_, .fraction (digits_takeWhile fun he => h ⟨hwhole, he⟩), ?_⟩
        rw [List.cons_append, hcs]
        exact hbody.symm
      · refine ⟨_, .pointed (digits_takeWhile hwhole) (fun _ => List.mem_takeWhile_imp), ?_⟩
        rw [List.append_assoc, List.cons_append, hcs]
        exact hbody.symm
  | case2 rest hpoint =>
      rw [behindPoint.eq_2 _ hpoint] at h
      exact ⟨_, .whole (digits_takeWhile fun he => h ⟨he, rfl⟩), hbody.symm⟩

theorem Mantissa.not_empty {whole fraction word : List Char} (h : Mantissa whole fraction word) :
    ¬(whole = [] ∧ fraction = []) := by
  cases h with
  | whole hd => exact fun he => hd.1 he.1
  | pointed hd _ => exact fun he => hd.1 he.1
  | fraction hd => exact fun he => hd.1 he.2

theorem mantissa_append {whole fraction word : List Char} (h : Mantissa whole fraction word)
    (r : List Char) :
    ((word ++ r).takeWhile isDigit = whole ++ r.takeWhile isDigit ∧ fraction = [] ∧
        behindPoint ((word ++ r).dropWhile isDigit) = behindPoint (r.dropWhile isDigit)) ∨
      ((word ++ r).takeWhile isDigit = whole ∧
        behindPoint ((word ++ r).dropWhile isDigit) =
          (fraction ++ r.takeWhile isDigit, r.dropWhile isDigit)) := by
  have hpoint (fraction : List Char) (hf : ∀ c ∈ fraction, isDigit c = true) :
      behindPoint ('.' :: fraction ++ r) = (fraction ++ r.takeWhile isDigit, r.dropWhile isDigit) := by
    rw [List.cons_append, behindPoint, takeWhile_digits hf, dropWhile_digits hf]
  obtain ⟨hnone, hall⟩ := no_digits (r := '.' :: fraction ++ r) (by simp [isDigit])
  cases h with
  | whole hd =>
      left
      rw [takeWhile_digits hd.2, dropWhile_digits hd.2]
      exact ⟨rfl, rfl, rfl⟩
  | pointed hd hf =>
      right
      rw [List.append_assoc, takeWhile_digits hd.2, dropWhile_digits hd.2, hnone, hall, hpoint _ hf,
        List.append_nil]
      exact ⟨rfl, rfl⟩
  | fraction hd =>
      right
      rw [hnone, hall, hpoint _ hd.2]
      exact ⟨rfl, rfl⟩

theorem behindPoint_suffix (cs : List Char) : (behindPoint cs).2 <:+ cs := by
  fun_cases behindPoint cs with
  | case1 cs => exact (List.dropWhile_suffix _).trans (List.suffix_cons _ _)
  | case2 => exact List.suffix_rfl

theorem mantissa_reaches {whole fraction word : List Char} (h : Mantissa whole fraction word)
    (r : List Char) :
    ¬((word ++ r).takeWhile isDigit = [] ∧
      (behindPoint ((word ++ r).dropWhile isDigit)).1 = []) ∧
      (behindPoint ((word ++ r).dropWhile isDigit)).2 <:+ r := by
  have hne := h.not_empty
  rcases mantissa_append h r with ⟨hw, hf, hb⟩ | ⟨hw, hb⟩
  · rw [hw, hb]
    refine ⟨?_, (behindPoint_suffix _).trans (List.dropWhile_suffix _)⟩
    rintro ⟨he, -⟩
    exact hne ⟨(List.append_eq_nil_iff.mp he).1, hf⟩
  · rw [hw, hb]
    refine ⟨?_, List.dropWhile_suffix _⟩
    rintro ⟨he, he'⟩
    exact hne ⟨he, (List.append_eq_nil_iff.mp he').1⟩

theorem mantissa_stops {whole fraction word : List Char} (h : Mantissa whole fraction word)
    {r : List Char} (hr : ∀ c ∈ r.head?, isDigit c = false ∧ c ≠ '.') :
    (word ++ r).takeWhile isDigit = whole ∧
      behindPoint ((word ++ r).dropWhile isDigit) = (fraction, r) := by
  obtain ⟨hnone, hall⟩ := no_digits fun c hc => (hr c hc).1
  rcases mantissa_append h r with ⟨hw, rfl, hb⟩ | ⟨hw, hb⟩
  · have hpoint : behindPoint r = ([], r) := by
      apply behindPoint.eq_2
      rintro cs rfl
      exact (hr '.' rfl).2 rfl
    rw [hw, hb, hnone, hall, hpoint, List.append_nil]
    exact ⟨rfl, rfl⟩
  · rw [hw, hb, hnone, hall, List.append_nil]
    exact ⟨rfl, rfl⟩

theorem Digits.unsigned {ds : List Char} (h : Digits ds) (r : List Char) : Unsigned (ds ++ r) := by
  obtain ⟨c, ds, rfl, hc⟩ := h.exists_cons
  rintro d ⟨⟩
  constructor <;> rintro rfl <;> exact absurd hc (by decide)

theorem exponent_spells (cs : List Char) :
    ∃ down tens word, Power down tens word ∧ cs = word ++ (exponent cs).2 ∧
      (exponent cs).1 = signed power down tens := by
  fun_cases exponent cs with
  | case1 c cs negative body hsign digits h =>
      obtain ⟨hmark, hne⟩ := h
      obtain ⟨sg, hsg, hcs⟩ := sign_spells cs
      rw [hsign] at hsg hcs
      refine ⟨negative, digits, _, .present hmark hsg (digits_takeWhile hne), ?_, rfl⟩
      rw [List.cons_append, List.append_assoc, List.takeWhile_append_dropWhile, ← hcs]
  | case2 c cs negative body hsign digits h =>
      exact ⟨false, [], [], .absent, rfl, rfl⟩
  | case3 => exact ⟨false, [], [], .absent, rfl, rfl⟩

theorem exponent_append {mark : Char} {down : Bool} {sg tens : List Char}
    (hmark : mark = 'e' ∨ mark = 'E') (hsign : Sign down sg) (htens : Digits tens) (r : List Char) :
    exponent (mark :: (sg ++ tens) ++ r) =
      (signed power down (tens ++ r.takeWhile isDigit), r.dropWhile isDigit) := by
  rw [List.cons_append, List.append_assoc]
  simp only [exponent, sign_append hsign (htens.unsigned r), takeWhile_digits htens.2,
    dropWhile_digits htens.2]
  rw [if_pos ⟨hmark, fun he => htens.1 (List.append_eq_nil_iff.mp he).1⟩]
  rfl

theorem exponent_suffix (cs : List Char) : (exponent cs).2 <:+ cs := by
  obtain ⟨down, tens, word, -, hcs, -⟩ := exponent_spells cs
  exact ⟨word, hcs.symm⟩

theorem exponent_reaches {down : Bool} {tens word : List Char} (h : Power down tens word)
    (r : List Char) : (exponent (word ++ r)).2 <:+ r := by
  cases h with
  | absent => exact exponent_suffix r
  | present hmark hsign htens =>
      rw [exponent_append hmark hsign htens]
      exact List.dropWhile_suffix _

theorem exponent_word {down : Bool} {tens word : List Char} (h : Power down tens word) :
    exponent word = (signed power down tens, []) := by
  cases h with
  | absent => rfl
  | present hmark hsign htens =>
      have hread := exponent_append hmark hsign htens []
      simpa using hread

theorem Power.head {down : Bool} {tens word : List Char} (h : Power down tens word) :
    ∀ c ∈ word.head?, isDigit c = false ∧ c ≠ '.' := by
  cases h with
  | absent => simp
  | present hmark =>
      rintro c ⟨⟩
      rcases hmark with rfl | rfl <;> decide

theorem Mantissa.head {whole fraction word : List Char} (h : Mantissa whole fraction word) :
    ∃ c r, word = c :: r ∧ (isDigit c = true ∨ c = '.') := by
  cases h with
  | whole hd =>
      obtain ⟨c, r, rfl, hc⟩ := hd.exists_cons
      exact ⟨c, r, rfl, .inl hc⟩
  | pointed hd _ =>
      obtain ⟨c, r, rfl, hc⟩ := hd.exists_cons
      exact ⟨c, _, rfl, .inl hc⟩
  | fraction _ => exact ⟨_, _, rfl, .inr rfl⟩

theorem sign_mantissa {negative : Bool} {sg whole fraction word : List Char} (hs : Sign negative sg)
    (hm : Mantissa whole fraction word) (r : List Char) :
    sign (sg ++ (word ++ r)) = (negative, word ++ r) ∧
      "Infinity".toList.isPrefixOf (word ++ r) = false := by
  obtain ⟨c, word, rfl, hc⟩ := hm.head
  constructor
  · apply sign_append hs
    rintro d ⟨⟩
    constructor <;> rintro rfl <;> exact absurd hc (by decide)
  · rw [Bool.eq_false_iff, Ne, List.isPrefixOf_iff_prefix]
    rintro ⟨s, hs⟩
    obtain rfl : 'I' = c := (List.cons.inj hs).1
    exact absurd hc (by decide)

theorem sign_infinity {negative : Bool} {sg : List Char} (hs : Sign negative sg) (r : List Char) :
    sign (sg ++ "Infinity".toList ++ r) = (negative, "Infinity".toList ++ r) := by
  rw [List.append_assoc]
  apply sign_append hs
  rintro c ⟨⟩
  decide

/-- What is scanned is spelled by the characters before the rest. -/
theorem scan_spells {cs rest : List Char} {n : Numeral} (h : scan cs = some (n, rest)) :
    ∃ x w, Spells x w ∧ x.numeral = n ∧ cs = w ++ rest := by
  obtain ⟨sg, hsign, hcs⟩ := sign_spells cs
  rw [scan_eq] at h
  simp only at h
  split at h
  · rename_i hword
    obtain ⟨r, hr⟩ := List.isPrefixOf_iff_prefix.mp hword
    rw [← hr, List.drop_left] at h
    obtain ⟨rfl, rfl⟩ := Prod.mk.inj (Option.some.inj h)
    refine ⟨_, _, .infinity hsign, rfl, ?_⟩
    rw [List.append_assoc, hr]
    exact hcs
  · split at h
    · cases h
    · rename_i hne
      obtain ⟨word, hm, hbody⟩ := mantissa_spells _ hne
      obtain ⟨down, tens, power, hp, hafter, he⟩ := exponent_spells
        (behindPoint ((sign cs).2.dropWhile isDigit)).2
      obtain ⟨rfl, rfl⟩ := Prod.mk.inj (Option.some.inj h)
      refine ⟨_, _, .decimal hsign hm hp, ?_, ?_⟩
      · rw [Written.numeral, he]
      · rw [List.append_assoc, List.append_assoc, ← hafter, ← hbody]
        exact hcs

/-- Whatever stands after a numeral, it is scanned at least. -/
theorem scan_reaches {x : Written} {w : List Char} (h : Spells x w) (r : List Char) :
    ∃ n rest, scan (w ++ r) = some (n, rest) ∧ rest <:+ r := by
  rw [scan_eq]
  cases h with
  | infinity hs =>
      simp only [sign_infinity hs]
      rw [if_pos (List.isPrefixOf_iff_prefix.mpr (List.prefix_append _ _)), List.drop_left]
      exact ⟨_, _, rfl, List.suffix_rfl⟩
  | @decimal negative down sg whole fraction mantissa tens power hs hm hp =>
      obtain ⟨hsign, hword⟩ := sign_mantissa hs hm (power ++ r)
      obtain ⟨hne, hafter⟩ := mantissa_reaches hm (power ++ r)
      rw [List.append_assoc, List.append_assoc]
      simp only [hsign, hword]
      rw [if_neg Bool.false_ne_true, if_neg hne]
      refine ⟨_, _, rfl, ?_⟩
      cases hp with
      | absent => exact (exponent_suffix _).trans hafter
      | present hmark hdown htens =>
          obtain ⟨-, hstop⟩ := mantissa_stops hm (r := _ :: (_ ++ tens) ++ r)
            (Power.present hmark hdown htens).head
          rw [hstop]
          exact exponent_reaches (.present hmark hdown htens) r

theorem scan_word {x : Written} {w : List Char} (h : Spells x w) : scan w = some (x.numeral, []) := by
  rw [scan_eq]
  cases h with
  | @infinity negative sg hs =>
      have hsign := sign_infinity hs []
      rw [List.append_nil, List.append_nil] at hsign
      simp only [hsign]
      rfl
  | @decimal negative down sg whole fraction mantissa tens power hs hm hp =>
      obtain ⟨hsign, hword⟩ := sign_mantissa hs hm power
      obtain ⟨hwhole, hafter⟩ := mantissa_stops hm hp.head
      simp only [hsign, hword, hwhole, hafter, exponent_word hp]
      rw [if_neg Bool.false_ne_true, if_neg hm.not_empty]
      rfl

end BranchingTimeline.Numeral
