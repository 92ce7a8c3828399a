import BranchingTimeline.Item.Basic

namespace BranchingTimeline

structure RuleTarget where
  id : ItemId
  name : String
  plugin : String
deriving DecidableEq

namespace RuleTarget

def ofTrial (t : Trial) : RuleTarget := ⟨t.id, t.name, t.plugin⟩

mutual

/-- The trials of an item up to the first item named by `stop?`, and whether that was met. -/
def collect (stop? : Option ItemId) : Item → List RuleTarget × Bool
  | .trial t => if some t.id = stop? then ([], true) else ([ofTrial t], false)
  | .loop l items => if some l.id = stop? then ([], true) else collectList stop? items

def collectList (stop? : Option ItemId) : List Item → List RuleTarget × Bool
  | [] => ([], false)
  | i :: r =>
    match collect stop? i with
    | (found, true) => (found, true)
    | (found, false) =>
      let (rest, met) := collectList stop? r
      (found ++ rest, met)

end

def before (owner : ItemId) (tree : List Item) : List RuleTarget := (collectList (some owner) tree).1

def inside (items : List Item) : List RuleTarget := (collectList none items).1

def toJson (t : RuleTarget) : Json :=
  .obj [("id", t.id.toJson), ("name", .str t.name), ("pluginName", .str t.plugin)]

end RuleTarget

end BranchingTimeline
