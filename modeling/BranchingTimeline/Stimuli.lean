import BranchingTimeline.Json.Record

namespace BranchingTimeline

/-- The row table of a loop, and the tables by which participants get different rows of it. -/
structure StimulusPlan where
  rows : List Record
  orders : Bool
  stimuliOrders : List (List UInt64)
  categories : Bool
  categoryData : List Value
deriving DecidableEq

structure Participant where
  number : UInt32
deriving DecidableEq

def Participant.zeroBased (p : Participant) : Nat := max p.number.toNat 1 - 1

namespace StimulusPlan

def isStatic (s : StimulusPlan) : Bool := !s.orders && !s.categories

def distinct : List Value → List Value
  | [] => []
  | c :: r => c :: (distinct r).filter fun d => !d.alike c

def distinctCategories (s : StimulusPlan) : List Value := distinct s.categoryData

def assigned {α : Type} (l : List α) (p : Participant) : Option α := l[p.zeroBased % l.length]?

def categoryFor (s : StimulusPlan) (p : Participant) : Option Value :=
  if s.categories then assigned s.distinctCategories p else none

def orderFor (s : StimulusPlan) (p : Participant) : Option (List UInt64) :=
  if s.orders then assigned s.stimuliOrders p else none

def inCategory (s : StimulusPlan) (p : Participant) : List Nat :=
  let all := List.range s.rows.length
  match s.categoryFor p with
  | some c => all.filter fun i => (s.categoryData[i]?).any (·.alike c)
  | none => all

/-- The row numbers shown to a participant. An order lists positions among the rows of the
participant's category; positions past their end are passed over. -/
def selectIndices (s : StimulusPlan) (p : Participant) : List Nat :=
  let indices := s.inCategory p
  match s.orderFor p with
  | some order => order.filterMap fun position => indices[position.toNat]?
  | none => indices

def materialize (s : StimulusPlan) (p : Participant) : List Record :=
  (s.selectIndices p).filterMap fun i => s.rows[i]?

def shape : List Json.Member :=
  [.required "rows", .required "orders", .required "stimuliOrders", .required "categories",
    .required "categoryData"]

def ofJson (j : Json) : Option StimulusPlan := do
  let [rows, orders, stimuliOrders, categories, categoryData] ← j.slots shape | none
  return {
    rows := ← Json.needed (Json.listOf Json.toRecord) rows
    orders := ← Json.needed Json.toBool orders
    stimuliOrders := ← Json.needed (Json.listOf (Json.listOf Json.toUInt64)) stimuliOrders
    categories := ← Json.needed Json.toBool categories
    categoryData := ← Json.needed (Json.listOf Value.ofJson) categoryData }

def orderToJson (order : List UInt64) : Json := Json.ofList Json.ofUInt64 order

def toJson (s : StimulusPlan) : Json :=
  .obj [("rows", Json.ofList Json.ofRecord s.rows), ("orders", .bool s.orders),
    ("stimuliOrders", Json.ofList orderToJson s.stimuliOrders), ("categories", .bool s.categories),
    ("categoryData", Json.ofList Value.json s.categoryData)]

end StimulusPlan

end BranchingTimeline
