import BranchingTimeline.Decimal.Double

namespace BranchingTimeline

/-- A number is an integer of 64 bits or a finite double; `1` and `1.0` are two numbers. -/
inductive Number where
  | int (n : Int) (fits : -Nat.pow 2 63 ≤ n ∧ n < Nat.pow 2 64)
  | double (d : Double) (finite : d.rank < Double.infinityRank)
deriving DecidableEq, Repr

namespace Number

def ofNat? (n : Nat) : Option Number :=
  if h : n < Nat.pow 2 64 then some (.int n ⟨by omega, by omega⟩) else none

def ofUInt64 (n : UInt64) : Number := .int n.toNat ⟨by omega, Int.ofNat_lt.mpr n.toNat_lt⟩

def ofInt64 (n : Int64) : Number :=
  .int n.toInt ⟨n.le_toInt, Int.lt_trans n.toInt_lt (by decide)⟩

end Number

/-- A value as it is written: the members of an object stand in the order of their text. A part is
unreadable if it is well formed and more than a value can hold, such as a number beyond the doubles;
it does no harm where it is passed over. -/
inductive Json where
  | unreadable
  | null
  | bool (b : Bool)
  | num (n : Number)
  | str (s : String)
  | arr (items : List Json)
  | obj (members : List (String × Json))
deriving Repr, Inhabited

namespace Json

mutual

def decEq : (a b : Json) → Decidable (a = b)
  | .unreadable, .unreadable => isTrue rfl
  | .null, .null => isTrue rfl
  | .bool a, .bool b => if h : a = b then isTrue (h ▸ rfl) else isFalse fun e => h (Json.bool.inj e)
  | .num a, .num b => if h : a = b then isTrue (h ▸ rfl) else isFalse fun e => h (Json.num.inj e)
  | .str a, .str b => if h : a = b then isTrue (h ▸ rfl) else isFalse fun e => h (Json.str.inj e)
  | .arr a, .arr b => match decEqItems a b with
    | isTrue h => isTrue (h ▸ rfl)
    | isFalse h => isFalse fun e => h (Json.arr.inj e)
  | .obj a, .obj b => match decEqMembers a b with
    | isTrue h => isTrue (h ▸ rfl)
    | isFalse h => isFalse fun e => h (Json.obj.inj e)
  | .unreadable, .null | .unreadable, .bool _ | .unreadable, .num _ | .unreadable, .str _
  | .unreadable, .arr _ | .unreadable, .obj _
  | .null, .unreadable | .null, .bool _ | .null, .num _ | .null, .str _ | .null, .arr _
  | .null, .obj _
  | .bool _, .unreadable | .bool _, .null | .bool _, .num _ | .bool _, .str _ | .bool _, .arr _
  | .bool _, .obj _
  | .num _, .unreadable | .num _, .null | .num _, .bool _ | .num _, .str _ | .num _, .arr _
  | .num _, .obj _
  | .str _, .unreadable | .str _, .null | .str _, .bool _ | .str _, .num _ | .str _, .arr _
  | .str _, .obj _
  | .arr _, .unreadable | .arr _, .null | .arr _, .bool _ | .arr _, .num _ | .arr _, .str _
  | .arr _, .obj _
  | .obj _, .unreadable | .obj _, .null | .obj _, .bool _ | .obj _, .num _ | .obj _, .str _
  | .obj _, .arr _ =>
    isFalse (by simp)

def decEqItems : (a b : List Json) → Decidable (a = b)
  | [], [] => isTrue rfl
  | [], _ :: _ => isFalse (by simp)
  | _ :: _, [] => isFalse (by simp)
  | x :: xs, y :: ys => match decEq x y, decEqItems xs ys with
    | isTrue h, isTrue k => isTrue (h ▸ k ▸ rfl)
    | isFalse h, _ => isFalse fun e => h (List.cons.inj e).1
    | _, isFalse k => isFalse fun e => k (List.cons.inj e).2

def decEqMembers : (a b : List (String × Json)) → Decidable (a = b)
  | [], [] => isTrue rfl
  | [], _ :: _ => isFalse (by simp)
  | _ :: _, [] => isFalse (by simp)
  | (k, x) :: xs, (l, y) :: ys =>
    if hk : k = l then match decEq x y, decEqMembers xs ys with
      | isTrue h, isTrue t => isTrue (hk ▸ h ▸ t ▸ rfl)
      | isFalse h, _ => isFalse fun e => h (Prod.mk.inj (List.cons.inj e).1).2
      | _, isFalse t => isFalse fun e => t (List.cons.inj e).2
    else isFalse fun e => hk (Prod.mk.inj (List.cons.inj e).1).1

end

instance : DecidableEq Json := decEq

mutual

def readable : Json → Bool
  | .unreadable => false
  | .arr items => readableItems items
  | .obj members => readableMembers members
  | _ => true

def readableItems : List Json → Bool
  | [] => true
  | j :: r => j.readable && readableItems r

def readableMembers : List (String × Json) → Bool
  | [] => true
  | (_, j) :: r => j.readable && readableMembers r

end

mutual

def unsignZeros : Json → Json
  | .num (.double ⟨_, 0⟩ h) => .num (.double ⟨false, 0⟩ h)
  | .arr items => .arr (unsignItems items)
  | .obj members => .obj (unsignMembers members)
  | j => j

def unsignItems : List Json → List Json
  | [] => []
  | j :: r => j.unsignZeros :: unsignItems r

def unsignMembers : List (String × Json) → List (String × Json)
  | [] => []
  | (k, j) :: r => (k, j.unsignZeros) :: unsignMembers r

end

end Json

end BranchingTimeline
