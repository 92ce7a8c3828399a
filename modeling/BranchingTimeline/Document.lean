import BranchingTimeline.Error
import BranchingTimeline.Json.Reader

namespace BranchingTimeline.Document

def read {α : Type} (ofJson : Json → Option α) (s : String) : Except Error α :=
  match (Json.parse s).bind ofJson with
  | some a => .ok a
  | none => .error .unreadable

def readOr {α : Type} (default : α) (ofJson : Json → Option α) (s : String) : Except Error α :=
  if Text.isBlank s then .ok default else read ofJson s

end BranchingTimeline.Document
