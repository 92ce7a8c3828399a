import BranchingTimeline.Json.Number
import BranchingTimeline.Json.Record
import BranchingTimeline.Text.Space

namespace BranchingTimeline

/-- The name of a trial or a loop. A name written as a number is the text of that number. -/
structure ItemId where
  text : String
deriving DecidableEq, Repr, Inhabited

instance : Key ItemId := ⟨ItemId.text, fun {a b} h => by cases a; cases b; cases h; rfl⟩

namespace ItemId

/-- A blank id names no item. -/
def isBlank (id : ItemId) : Bool := Text.isBlank id.text

def named? (id : Option ItemId) : Option ItemId := id.filter fun i => !i.isBlank

def ofJson : Json → Option ItemId
  | .str s => some ⟨s⟩
  | .num n => some ⟨n.text⟩
  | _ => none

def toJson (id : ItemId) : Json := .str id.text

end ItemId

abbrev IdSet := SortedMap ItemId Unit

namespace IdSet

def ofList (ids : List ItemId) : IdSet := SortedMap.ofList (ids.map (·, ()))

def toList (s : IdSet) : List ItemId := s.keys

def ofJson (j : Json) : Option IdSet := (j.listOf ItemId.ofJson).map ofList

def toJson (s : IdSet) : Json := Json.ofList ItemId.toJson s.toList

end IdSet

end BranchingTimeline
