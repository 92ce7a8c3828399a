import BranchingTimeline.Json.Value

namespace BranchingTimeline.Json

def toMap {κ α : Type} [Key κ] (key : String → κ) (read : Json → Option α) :
    Json → Option (SortedMap κ α)
  | .obj members =>
    (members.mapM fun e => (read e.2).map fun a => (key e.1, a)).map SortedMap.ofList
  | _ => none

def ofMap {κ α : Type} [Key κ] (write : α → Json) (m : SortedMap κ α) : Json :=
  .obj (m.entries.map fun e => (Key.text e.1, write e.2))

def toRecord (j : Json) : Option Record := j.toMap id Value.ofJson

def ofRecord (r : Record) : Json := ofMap Value.json r

/-- What it means that a member of a record is absent. An optional member stands for null, but may
be absent only where members are written by name. -/
inductive Absence where
  | refused
  | optional
  | default
deriving DecidableEq

structure Member where
  name : String
  alias? : Option String
  absence : Absence

namespace Member

def required (name : String) : Member := ⟨name, none, .refused⟩

def optional (name : String) : Member := ⟨name, none, .optional⟩

def default (name : String) : Member := ⟨name, none, .default⟩

def accepts (m : Member) (name : String) : Bool := name = m.name || some name = m.alias?

def find (m : Member) (members : List (String × Json)) : Option (Option Json) :=
  match members.filter fun e => m.accepts e.1, m.absence with
  | [(_, v)], _ => some (some v)
  | [], .optional => some (some .null)
  | [], .default => some none
  | _, _ => none

def inOrder : List Member → List Json → Option (List (Option Json))
  | [], [] => some []
  | [], _ :: _ => none
  | _ :: ms, v :: vs => (some v :: ·) <$> inOrder ms vs
  | m :: ms, [] => if m.absence = .default then (none :: ·) <$> inOrder ms [] else none

end Member

/-- The values of a record's members, which are written by name in any order or by position. Other
names are passed over; a name given twice is refused. -/
def slots (shape : List Member) : Json → Option (List (Option Json))
  | .obj members => shape.mapM fun m => m.find members
  | .arr values => Member.inOrder shape values
  | _ => none

def needed {α : Type} (read : Json → Option α) (slot : Option Json) : Option α := slot.bind read

def orElse {α : Type} (default : α) (read : Json → Option α) : Option Json → Option α
  | none => some default
  | some j => read j

def nullable {α : Type} (read : Json → Option α) : Json → Option (Option α)
  | .null => some none
  | j => (read j).map some

def listOf {α : Type} (read : Json → Option α) : Json → Option (List α)
  | .arr items => items.mapM read
  | _ => none

def toBool : Json → Option Bool
  | .bool b => some b
  | _ => none

def toStr : Json → Option String
  | .str s => some s
  | _ => none

def toIntIn (low high : Int) : Json → Option Int
  | .num (.int n _) => if low ≤ n ∧ n < high then some n else none
  | _ => none

def toUInt32 (j : Json) : Option UInt32 := (j.toIntIn 0 UInt32.size).map fun n => UInt32.ofNat n.toNat

def toUInt64 (j : Json) : Option UInt64 := (j.toIntIn 0 UInt64.size).map fun n => UInt64.ofNat n.toNat

def toInt64 (j : Json) : Option Int64 := (j.toIntIn (-Nat.pow 2 63) (Nat.pow 2 63)).map Int64.ofInt

def ofNat (n : Nat) : Json := (Number.ofNat? n).elim .unreadable .num

def ofUInt64 (n : UInt64) : Json := .num (.ofUInt64 n)

def ofUInt32 (n : UInt32) : Json := ofUInt64 n.toUInt64

def ofInt64 (n : Int64) : Json := .num (.ofInt64 n)

def ofOption {α : Type} (write : α → Json) : Option α → Json
  | none => .null
  | some a => write a

def ofList {α : Type} (write : α → Json) (l : List α) : Json := .arr (l.map write)

def record (members : List (String × Option Json)) : Json :=
  .obj (members.filterMap fun e => e.2.map (e.1, ·))

def member? (name : String) : Json → Option Json
  | .obj members => SortedMap.lookup name members.reverse
  | _ => none

end BranchingTimeline.Json
