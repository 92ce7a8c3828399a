import BranchingTimeline.Json.Reader
import BranchingTimeline.Proofs.Decimal.Leading

namespace BranchingTimeline

theorem Numeral.Power.unique {down down' : Bool} {tens tens' power power' : List Char}
    (h : Power down tens power) (h' : Power down' tens' power') (he : power = power') :
    down = down' ∧ tens = tens' := by
  cases h with
  | absent =>
      cases h' with
      | absent => exact ⟨rfl, rfl⟩
      | present => cases he
  | present _ hsign htens =>
      cases h' with
      | absent => cases he
      | present _ hsign' htens' =>
          have htail := congrArg sign (List.cons.inj he).2
          rw [sign_append hsign (by simpa using htens.unsigned []),
            sign_append hsign' (by simpa using htens'.unsigned [])] at htail
          exact Prod.mk.inj htail

namespace Number

open Numeral (Digits Power isDigit natural signed)

def Whole (ds : List Char) : Prop := Digits ds ∧ (ds.head? = some '0' → ds = ['0'])

inductive Fraction : Option (List Char) → List Char → Prop where
  | absent : Fraction none []
  | present {ds : List Char} : Digits ds → Fraction (some ds) ('.' :: ds)

def minus (negative : Bool) : List Char := if negative then ['-'] else []

/-- The number that a literal stands for: an integer if it is written as one that fits, and else the
nearest double. There is none for a literal beyond the doubles. -/
def denoted (negative : Bool) (whole : List Char) (fraction : Option (List Char))
    (power : Option Int) : Option Number :=
  let n := natural whole
  let rank := Double.nearestDecimal (natural (whole ++ fraction.getD []))
    (power.getD 0 - (fraction.getD []).length)
  if h : fraction = none ∧ power = none ∧ negative = false ∧ n < Nat.pow 2 64 then
    some (.int n ⟨by omega, by omega⟩)
  else if h : fraction = none ∧ power = none ∧ negative = true ∧ 0 < n ∧ n ≤ Nat.pow 2 63 then
    some (.int (-n) ⟨by omega, by omega⟩)
  else if h : rank < Double.infinityRank then some (.double ⟨negative, rank⟩ h) else none

/-- `-? (0 | [1-9] D*) [. D+] [(e|E) [+-]? D+]` -/
inductive Spelled : List Char → Number → Prop where
  | literal {negative down : Bool} {whole point tens power : List Char} {fraction : Option (List Char)}
      {n : Number} (hwhole : Whole whole) (hpoint : Fraction fraction point)
      (hpower : Power down tens power)
      (hn : denoted negative whole fraction
        (if power = [] then none else some (signed natural down tens)) = some n) :
      Spelled (minus negative ++ (whole ++ (point ++ power))) n

end Number

namespace Json

open Reader (isBlank escaped hexDigit isNumberPart)

def skip (cs : List Char) : List Char := cs.dropWhile isBlank

def codeUnit (a b c d : Char) : Option Nat := do
  return 4096 * (← hexDigit a) + 256 * (← hexDigit b) + 16 * (← hexDigit c) + (← hexDigit d)

def IsHigh (u : Nat) : Prop := 0xD800 ≤ u ∧ u < 0xDC00

def IsLow (u : Nat) : Prop := 0xDC00 ≤ u ∧ u < 0xE000

/-- The text of a string after its opening quote, the characters of the string, and what stands after
the closing quote. Code units of which two stand for one character come in pairs. -/
inductive InString : List Char → List Char → List Char → Prop where
  | close {r} : InString ('"' :: r) [] r
  | plain {c cs s r} (hquote : c ≠ '"') (hslash : c ≠ '\\') (hc : 0x20 ≤ c.toNat)
      (h : InString cs s r) : InString (c :: cs) (c :: s) r
  | escape {c e cs s r} (he : escaped c = some e) (h : InString cs s r) :
      InString ('\\' :: c :: cs) (e :: s) r
  | unit {a b c d u cs s r} (hu : codeUnit a b c d = some u) (hhigh : ¬IsHigh u) (hlow : ¬IsLow u)
      (h : InString cs s r) : InString ('\\' :: 'u' :: a :: b :: c :: d :: cs) (Char.ofNat u :: s) r
  | pair {a b c d a' b' c' d' u u' cs s r} (hu : codeUnit a b c d = some u)
      (hu' : codeUnit a' b' c' d' = some u') (hhigh : IsHigh u) (hlow : IsLow u') (h : InString cs s r) :
      InString ('\\' :: 'u' :: a :: b :: c :: d :: '\\' :: 'u' :: a' :: b' :: c' :: d' :: cs)
        (Char.ofNat (0x10000 + 0x400 * (u - 0xD800) + (u' - 0xDC00)) :: s) r

/-- What a text can begin with: a value; the items of an array after its bracket, or after one of
them; the members of an object in the same way; one member. -/
inductive Part where
  | value (j : Json)
  | array (items : List Json)
  | items (items : List Json)
  | object (members : List (String × Json))
  | members (members : List (String × Json))
  | member (name : String) (j : Json)

/-- What a text that begins with some part spells, and what stands after the part. A number reaches
as far as it can. -/
inductive Spells : List Char → Part → List Char → Prop where
  | null {r} : Spells ('n' :: 'u' :: 'l' :: 'l' :: r) (.value .null) r
  | true {r} : Spells ('t' :: 'r' :: 'u' :: 'e' :: r) (.value (.bool true)) r
  | false {r} : Spells ('f' :: 'a' :: 'l' :: 's' :: 'e' :: r) (.value (.bool false)) r
  | num {w n r} (hw : Number.Spelled w n) (hr : ∀ c ∈ r.head?, isNumberPart c = false) :
      Spells (w ++ r) (.value (.num n)) r
  | str {cs s r} (h : InString cs s r) : Spells ('"' :: cs) (.value (.str (String.ofList s))) r
  | arr {cs items r} (h : Spells (skip cs) (.array items) r) : Spells ('[' :: cs) (.value (.arr items)) r
  | obj {cs members r} (h : Spells (skip cs) (.object members) r) :
      Spells ('\x7b' :: cs) (.value (.obj members)) r
  | noItem {r} : Spells (']' :: r) (.array []) r
  | firstItem {cs j r items s} (h : Spells cs (.value j) r) (hr : Spells (skip r) (.items items) s) :
      Spells cs (.array (j :: items)) s
  | lastItem {r} : Spells (']' :: r) (.items []) r
  | nextItem {cs j r items s} (h : Spells (skip cs) (.value j) r) (hr : Spells (skip r) (.items items) s) :
      Spells (',' :: cs) (.items (j :: items)) s
  | noMember {r} : Spells ('\x7d' :: r) (.object []) r
  | firstMember {cs k j r members s} (h : Spells cs (.member k j) r)
      (hr : Spells (skip r) (.members members) s) : Spells cs (.object ((k, j) :: members)) s
  | lastMember {r} : Spells ('\x7d' :: r) (.members []) r
  | nextMember {cs k j r members s} (h : Spells (skip cs) (.member k j) r)
      (hr : Spells (skip r) (.members members) s) : Spells (',' :: cs) (.members ((k, j) :: members)) s
  | member {cs k r after j s} (hk : InString cs k r) (hcolon : skip r = ':' :: after)
      (h : Spells (skip after) (.value j) s) : Spells ('"' :: cs) (.member (String.ofList k) j) s

/-- A text spells a value, with nothing but white space around it. -/
def IsTextOf (text : String) (j : Json) : Prop :=
  ∃ r, Spells (skip text.toList) (.value j) r ∧ skip r = []

theorem escaped_unit {e : Char} : escaped 'u' ≠ some e := by simp [escaped]

theorem InString.unique {cs s r s' r'} (h : InString cs s r) (h' : InString cs s' r') :
    s = s' ∧ r = r' := by
  induction h generalizing s' r' with
  | close =>
      cases h' with
      | close => exact ⟨rfl, rfl⟩
      | plain hquote => exact absurd rfl hquote
  | plain hquote hslash hc h ih =>
      cases h' with
      | close => exact absurd rfl hquote
      | plain _ _ _ h' =>
          obtain ⟨rfl, rfl⟩ := ih h'
          exact ⟨rfl, rfl⟩
      | escape | unit | pair => exact absurd rfl hslash
  | escape he h ih =>
      cases h' with
      | plain _ hslash => exact absurd rfl hslash
      | escape he' h' =>
          obtain rfl := Option.some.inj (he.symm.trans he')
          obtain ⟨rfl, rfl⟩ := ih h'
          exact ⟨rfl, rfl⟩
      | unit | pair => exact absurd he escaped_unit
  | unit hu hhigh hlow h ih =>
      cases h' with
      | plain _ hslash => exact absurd rfl hslash
      | escape he' => exact absurd he' escaped_unit
      | unit hu' _ _ h' =>
          obtain rfl := Option.some.inj (hu.symm.trans hu')
          obtain ⟨rfl, rfl⟩ := ih h'
          exact ⟨rfl, rfl⟩
      | pair hu' _ hhigh' =>
          obtain rfl := Option.some.inj (hu.symm.trans hu')
          exact absurd hhigh' hhigh
  | pair hu hv hhigh hlow h ih =>
      cases h' with
      | plain _ hslash => exact absurd rfl hslash
      | escape he' => exact absurd he' escaped_unit
      | unit hu' hhigh' =>
          obtain rfl := Option.some.inj (hu.symm.trans hu')
          exact absurd hhigh hhigh'
      | pair hu' hv' _ _ h' =>
          obtain rfl := Option.some.inj (hu.symm.trans hu')
          obtain rfl := Option.some.inj (hv.symm.trans hv')
          obtain ⟨rfl, rfl⟩ := ih h'
          exact ⟨rfl, rfl⟩

end Json

namespace Number

open Numeral (Digits Power isDigit takeWhile_digits dropWhile_digits no_digits)

theorem Fraction.head {fraction : Option (List Char)} {point : List Char} (h : Fraction fraction point)
    (r : List Char) (hr : ∀ c ∈ r.head?, isDigit c = false) : ∀ c ∈ (point ++ r).head?, isDigit c = false := by
  cases h with
  | absent => exact hr
  | present => simp [isDigit]

theorem minus_append {negative negative' : Bool} {whole whole' r r' : List Char} (h : Whole whole)
    (h' : Whole whole') (he : minus negative ++ (whole ++ r) = minus negative' ++ (whole' ++ r')) :
    negative = negative' ∧ whole ++ r = whole' ++ r' := by
  obtain ⟨c, ds, rfl, hc⟩ := h.1.exists_cons
  obtain ⟨c', ds', rfl, hc'⟩ := h'.1.exists_cons
  have hminus : isDigit '-' = false := by decide
  cases negative <;> cases negative' <;> simp [minus] at he ⊢
  · exact he
  · rw [he.1, hminus] at hc
    cases hc
  · rw [← he.1, hminus] at hc'
    cases hc'
  · exact he

theorem Whole.unique {whole whole' r r' : List Char} (h : Whole whole) (h' : Whole whole')
    (hr : ∀ c ∈ r.head?, isDigit c = false) (hr' : ∀ c ∈ r'.head?, isDigit c = false)
    (he : whole ++ r = whole' ++ r') : whole = whole' ∧ r = r' := by
  have htake := congrArg (List.takeWhile isDigit) he
  rw [takeWhile_digits h.1.2, takeWhile_digits h'.1.2, (no_digits hr).1, (no_digits hr').1,
    List.append_nil, List.append_nil] at htake
  rw [htake, List.append_right_inj] at he
  exact ⟨htake, he⟩

theorem Fraction.unique {fraction fraction' : Option (List Char)} {point point' r r' : List Char}
    (h : Fraction fraction point) (h' : Fraction fraction' point')
    (hr : ∀ c ∈ r.head?, isDigit c = false ∧ c ≠ '.') (hr' : ∀ c ∈ r'.head?, isDigit c = false ∧ c ≠ '.')
    (he : point ++ r = point' ++ r') : fraction = fraction' ∧ r = r' := by
  cases h with
  | absent =>
      cases h' with
      | absent => exact ⟨rfl, he⟩
      | present =>
          rw [List.nil_append] at he
          exact absurd rfl (hr '.' (by simp [he])).2
  | @present ds hd =>
      cases h' with
      | absent =>
          rw [List.nil_append] at he
          have hpoint := hr' '.' (by simp [← he])
          exact absurd rfl hpoint.2
      | @present ds' hd' =>
          have hds : ds ++ r = ds' ++ r' := (List.cons.inj he).2
          have htake := congrArg (List.takeWhile isDigit) hds
          rw [takeWhile_digits hd.2, takeWhile_digits hd'.2, (no_digits fun c hc => (hr c hc).1).1,
            (no_digits fun c hc => (hr' c hc).1).1, List.append_nil, List.append_nil] at htake
          rw [htake, List.append_right_inj] at hds
          rw [htake]
          exact ⟨rfl, hds⟩

theorem Spelled.unique {w w' : List Char} {n n' : Number} (h : Spelled w n) (h' : Spelled w' n')
    (he : w = w') : n = n' := by
  obtain @⟨negative, down, whole, point, tens, power, fraction, _, hwhole, hpoint, hpower, hn⟩ := h
  obtain @⟨negative', down', whole', point', tens', power', fraction', _, hwhole', hpoint', hpower', hn'⟩ := h'
  obtain ⟨rfl, hbody⟩ := minus_append hwhole hwhole' he
  have hdigit := hpoint.head power fun c hc => (hpower.head c hc).1
  have hdigit' := hpoint'.head power' fun c hc => (hpower'.head c hc).1
  obtain ⟨rfl, hrest⟩ := hwhole.unique hwhole' hdigit hdigit' hbody
  obtain ⟨rfl, rfl⟩ := hpoint.unique hpoint' hpower.head hpower'.head hrest
  obtain ⟨rfl, rfl⟩ := hpower.unique hpower' rfl
  exact Option.some.inj (hn.symm.trans hn')

theorem Spelled.head {w : List Char} {n : Number} (h : Spelled w n) :
    ∃ c r, w = c :: r ∧ (isDigit c = true ∨ c = '-') := by
  obtain @⟨negative, down, whole, point, tens, power, fraction, _, hwhole, hpoint, hpower, hn⟩ := h
  obtain ⟨c, ds, rfl, hc⟩ := hwhole.1.exists_cons
  cases negative with
  | false => exact ⟨c, _, rfl, .inl hc⟩
  | true => exact ⟨'-', _, rfl, .inr rfl⟩

theorem Spelled.chars {w : List Char} {n : Number} (h : Spelled w n) :
    ∀ c ∈ w, Json.Reader.isNumberPart c = true := by
  obtain @⟨negative, down, whole, point, tens, power, fraction, _, hwhole, hpoint, hpower, hn⟩ := h
  have hdigit : ∀ c, isDigit c = true → Json.Reader.isNumberPart c = true := by
    intro c hc
    simp [Json.Reader.isNumberPart, hc]
  have hpointChars : ∀ c ∈ point, Json.Reader.isNumberPart c = true := by
    cases hpoint with
    | absent => simp
    | present hd =>
        rw [List.forall_mem_cons]
        exact ⟨by decide, fun c hc => hdigit c (hd.2 c hc)⟩
  have hpowerChars : ∀ c ∈ power, Json.Reader.isNumberPart c = true := by
    have hmarks : ∀ c ∈ Numeral.marks, Json.Reader.isNumberPart c = true := by
      simp [Numeral.marks, Json.Reader.isNumberPart]
    intro c hc
    exact (hpower.chars c hc).elim (hdigit c) (hmarks c)
  simp only [List.forall_mem_append]
  refine ⟨?_, fun c hc => hdigit c (hwhole.1.2 c hc), hpointChars, hpowerChars⟩
  cases negative with
  | false => simp [minus]
  | true => exact List.forall_mem_singleton.mpr rfl

end Number

namespace Json

open Reader (isBlank escaped hexDigit isNumberPart)

def Part.kind : Part → Nat
  | value _ => 0
  | array _ => 1
  | items _ => 2
  | object _ => 3
  | members _ => 4
  | member _ _ => 5

theorem spelled_append {w w' r r' : List Char} {n n' : Number} (h : Number.Spelled w n)
    (h' : Number.Spelled w' n') (hr : ∀ c ∈ r.head?, isNumberPart c = false)
    (hr' : ∀ c ∈ r'.head?, isNumberPart c = false) (he : w ++ r = w' ++ r') : n = n' ∧ r = r' := by
  have hstop : ∀ r : List Char, (∀ c ∈ r.head?, isNumberPart c = false) → r.takeWhile isNumberPart = [] := by
    intro r hr
    cases r with
    | nil => rfl
    | cons c r => exact List.takeWhile_cons_of_neg (by simp [hr c rfl])
  have htake := congrArg (List.takeWhile isNumberPart) he
  rw [List.takeWhile_append_of_pos h.chars, List.takeWhile_append_of_pos h'.chars, hstop r hr,
    hstop r' hr', List.append_nil, List.append_nil] at htake
  rw [htake, List.append_right_inj] at he
  exact ⟨h.unique h' htake, he⟩

theorem spelled_head {w cs r : List Char} {n : Number} {c : Char} (h : Number.Spelled w n)
    (he : c :: cs = w ++ r) : Numeral.isDigit c = true ∨ c = '-' := by
  obtain ⟨d, w, rfl, hd⟩ := h.head
  rw [(List.cons.inj he).1]
  exact hd

theorem Spells.value_head {cs r : List Char} {j : Json} (h : Spells (']' :: cs) (.value j) r) : False := by
  generalize he : ']' :: cs = text at h
  cases h with
  | num hw => exact absurd (spelled_head hw he) (by decide)
  | _ => cases he

theorem Spells.member_head {cs r : List Char} {k : String} {j : Json}
    (h : Spells ('\x7d' :: cs) (.member k j) r) : False := by
  generalize he : '\x7d' :: cs = text at h
  cases h with
  | member => cases he

/-- A text begins with no more than one part of a kind. -/
theorem Spells.unique {cs cs' r s : List Char} {p q : Part} (h : Spells cs p r) (h' : Spells cs' q s)
    (he : cs = cs') (hk : p.kind = q.kind) : p = q ∧ r = s := by
  induction h generalizing cs' q s with
  | null | true | false =>
      cases h' with
      | num hw => exact absurd (spelled_head hw he) (by decide)
      | null | true | false => first | (cases he; done) | (cases he; exact ⟨rfl, rfl⟩)
      | _ => first | (cases hk; done) | cases he
  | num hw hr =>
      cases h' with
      | num hw' hr' =>
          obtain ⟨rfl, rfl⟩ := spelled_append hw hw' hr hr' he
          exact ⟨rfl, rfl⟩
      | null | true | false | str | arr | obj => exact absurd (spelled_head hw he.symm) (by decide)
      | _ => cases hk
  | str hs =>
      cases h' with
      | num hw => exact absurd (spelled_head hw he) (by decide)
      | str hs' =>
          cases he
          obtain ⟨rfl, rfl⟩ := hs.unique hs'
          exact ⟨rfl, rfl⟩
      | _ => first | (cases hk; done) | cases he
  | arr _ ih =>
      cases h' with
      | num hw => exact absurd (spelled_head hw he) (by decide)
      | arr h' =>
          cases he
          obtain ⟨hp, rfl⟩ := ih h' rfl rfl
          cases hp
          exact ⟨rfl, rfl⟩
      | _ => first | (cases hk; done) | cases he
  | obj _ ih =>
      cases h' with
      | num hw => exact absurd (spelled_head hw he) (by decide)
      | obj h' =>
          cases he
          obtain ⟨hp, rfl⟩ := ih h' rfl rfl
          cases hp
          exact ⟨rfl, rfl⟩
      | _ => first | (cases hk; done) | cases he
  | noItem =>
      cases h' with
      | noItem =>
          cases he
          exact ⟨rfl, rfl⟩
      | firstItem h' =>
          cases he
          exact h'.value_head.elim
      | _ => cases hk
  | firstItem h _ ih ihRest =>
      cases h' with
      | noItem =>
          cases he
          exact h.value_head.elim
      | firstItem h' hr' =>
          cases he
          obtain ⟨hp, rfl⟩ := ih h' rfl rfl
          obtain ⟨hq, rfl⟩ := ihRest hr' rfl rfl
          cases hp
          cases hq
          exact ⟨rfl, rfl⟩
      | _ => cases hk
  | lastItem =>
      cases h' with
      | lastItem =>
          cases he
          exact ⟨rfl, rfl⟩
      | _ => first | (cases hk; done) | cases he
  | nextItem _ _ ih ihRest =>
      cases h' with
      | nextItem h' hr' =>
          cases he
          obtain ⟨hp, rfl⟩ := ih h' rfl rfl
          obtain ⟨hq, rfl⟩ := ihRest hr' rfl rfl
          cases hp
          cases hq
          exact ⟨rfl, rfl⟩
      | _ => first | (cases hk; done) | cases he
  | noMember =>
      cases h' with
      | noMember =>
          cases he
          exact ⟨rfl, rfl⟩
      | firstMember h' =>
          cases he
          exact h'.member_head.elim
      | _ => cases hk
  | firstMember h _ ih ihRest =>
      cases h' with
      | noMember =>
          cases he
          exact h.member_head.elim
      | firstMember h' hr' =>
          cases he
          obtain ⟨hp, rfl⟩ := ih h' rfl rfl
          obtain ⟨hq, rfl⟩ := ihRest hr' rfl rfl
          cases hp
          cases hq
          exact ⟨rfl, rfl⟩
      | _ => cases hk
  | lastMember =>
      cases h' with
      | lastMember =>
          cases he
          exact ⟨rfl, rfl⟩
      | _ => first | (cases hk; done) | cases he
  | nextMember _ _ ih ihRest =>
      cases h' with
      | nextMember h' hr' =>
          cases he
          obtain ⟨hp, rfl⟩ := ih h' rfl rfl
          obtain ⟨hq, rfl⟩ := ihRest hr' rfl rfl
          cases hp
          cases hq
          exact ⟨rfl, rfl⟩
      | _ => first | (cases hk; done) | cases he
  | member hs hcolon _ ih =>
      cases h' with
      | member hs' hcolon' h' =>
          cases he
          obtain ⟨rfl, rfl⟩ := hs.unique hs'
          obtain ⟨-, rfl⟩ := List.cons.inj (hcolon.symm.trans hcolon')
          obtain ⟨hp, rfl⟩ := ih h' rfl rfl
          cases hp
          exact ⟨rfl, rfl⟩
      | _ => cases hk

/-- A text spells no more than one value. -/
theorem IsTextOf.unique {text : String} {j k : Json} (h : IsTextOf text j) (h' : IsTextOf text k) : j = k := by
  obtain ⟨_, hj, -⟩ := h
  obtain ⟨_, hk, -⟩ := h'
  exact Part.value.inj (hj.unique hk rfl rfl).1

end Json

end BranchingTimeline
