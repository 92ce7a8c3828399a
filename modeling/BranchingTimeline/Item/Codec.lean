import BranchingTimeline.Condition.Codec
import BranchingTimeline.Error
import BranchingTimeline.Item.Basic
import BranchingTimeline.Json.Reader

namespace BranchingTimeline

def readIds : Json → Option (List ItemId) := Json.listOf ItemId.ofJson

def writeIds (ids : List ItemId) : Json := Json.ofList ItemId.toJson ids

namespace Trial

def shape : List Json.Member :=
  [⟨"trialId", some "id", .refused⟩, .default "trialName", .default "pluginName",
    .default "timelineProps", .default "mappedJson", .default "branches",
    .default "branchConditions", .default "repeatConditions", .default "paramsOverride"]

def ofJson (j : Json) : Option Trial := do
  let [id, name, plugin, props, mapped, branches, branchConditions, repeatConditions,
    overrides] ← j.slots shape | none
  return {
    id := ← Json.needed ItemId.ofJson id
    name := ← Json.orElse "" Json.toStr name
    plugin := ← Json.orElse "" Json.toStr plugin
    props := ← Json.orElse "" Json.toStr props
    mapped := ← Json.orElse none (Json.nullable Value.ofJson) mapped
    branches := ← Json.orElse [] readIds branches
    branchConditions := ← Json.orElse [] Condition.listOfJson branchConditions
    repeatConditions := ← Json.orElse [] Condition.listOfJson repeatConditions
    overrides := ← Json.orElse [] Condition.listOfJson overrides }

def toJson (t : Trial) : Json :=
  Json.record
    [("trialId", some t.id.toJson), ("trialName", some (.str t.name)),
      ("pluginName", some (.str t.plugin)), ("timelineProps", some (.str t.props)),
      ("mappedJson", t.mapped.map Value.json), ("branches", some (writeIds t.branches)),
      ("branchConditions", some (Condition.listToJson t.branchConditions)),
      ("repeatConditions", some (Condition.listToJson t.repeatConditions)),
      ("paramsOverride", some (Condition.listToJson t.overrides))]

end Trial

namespace Loop

def shape : List Json.Member :=
  [⟨"loopId", some "id", .refused⟩, .default "loopName", .default "repetitions",
    .default "randomize", .default "orders", .default "stimuliOrders", .default "categories",
    .default "categoryData", .default "branches", .default "branchConditions",
    .default "repeatConditions", .default "loopConditions", .default "isConditionalLoop",
    .default "items", .default "unifiedStimuli", .default "isLoop"]

def ofJson (j : Json) : Option (Loop × Option Json) := do
  let [id, name, repetitions, randomize, orders, stimuliOrders, categories, categoryData, branches,
    branchConditions, repeatConditions, loopConditions, isConditional, items, rows,
    isLoop] ← j.slots shape | none
  let stimuli : StimulusPlan := {
    rows := ← Json.orElse [] (Json.listOf Json.toRecord) rows
    orders := ← Json.orElse false Json.toBool orders
    stimuliOrders := ← Json.orElse [] (Json.listOf (Json.listOf Json.toUInt64)) stimuliOrders
    categories := ← Json.orElse false Json.toBool categories
    categoryData := ← Json.orElse [] (Json.listOf Value.ofJson) categoryData }
  let _ ← Json.orElse true Json.toBool isLoop
  return ({
    id := ← Json.needed ItemId.ofJson id
    name := ← Json.orElse "" Json.toStr name
    repetitions := ← Json.orElse 1 Json.toUInt32 repetitions
    randomize := ← Json.orElse false Json.toBool randomize
    stimuli := stimuli
    branches := ← Json.orElse [] readIds branches
    branchConditions := ← Json.orElse [] Condition.listOfJson branchConditions
    repeatConditions := ← Json.orElse [] Condition.listOfJson repeatConditions
    loopConditions := ← Json.orElse [] Condition.listOfJson loopConditions
    isConditional := ← Json.orElse false Json.toBool isConditional }, items)

def toJson (l : Loop) (items : List Json) : Json :=
  .obj
    [("loopId", l.id.toJson), ("loopName", .str l.name),
      ("repetitions", Json.ofUInt32 l.repetitions), ("randomize", .bool l.randomize),
      ("orders", .bool l.stimuli.orders),
      ("stimuliOrders", Json.ofList StimulusPlan.orderToJson l.stimuli.stimuliOrders),
      ("categories", .bool l.stimuli.categories), ("categoryData", Json.ofList Value.json l.stimuli.categoryData),
      ("branches", writeIds l.branches),
      ("branchConditions", Condition.listToJson l.branchConditions),
      ("repeatConditions", Condition.listToJson l.repeatConditions),
      ("loopConditions", Condition.listToJson l.loopConditions),
      ("isConditionalLoop", .bool l.isConditional), ("items", .arr items),
      ("unifiedStimuli", Json.ofList Json.ofRecord l.stimuli.rows), ("isLoop", .bool true)]

end Loop

namespace Item

def isLoop (j : Json) : Bool := j.member? "isLoop" = some (.bool true)

mutual

def ofJson : Json → Option Item
  | .obj members => do
    if isLoop (.obj members) then
      let (l, _) ← Loop.ofJson (.obj members)
      return .loop l (← itemsMember members)
    else
      return .trial (← Trial.ofJson (.obj members))
  | j => (Trial.ofJson j).map .trial

def itemsMember : List (String × Json) → Option (List Item)
  | [] => some []
  | (name, j) :: r => if name = "items" then listOfJson j else itemsMember r

def listOfJson : Json → Option (List Item)
  | .arr items => ofJsons items
  | _ => none

def ofJsons : List Json → Option (List Item)
  | [] => some []
  | j :: r => do return (← ofJson j) :: (← ofJsons r)

end

/-- Items are free-form data before they are items, so that repeated members are settled. -/
def listOfValue (v : Value) : Option (List Item) := listOfJson v.json

def loopOfJson (j : Json) : Option (Loop × List Item) := do
  let (l, items) ← Loop.ofJson j
  return (l, ← Json.orElse [] (fun j => (Value.ofJson j).bind listOfValue) items)

mutual

def toJson : Item → Json
  | trial t => t.toJson
  | loop l items => l.toJson (toJsons items)

def toJsons : List Item → List Json
  | [] => []
  | i :: r => i.toJson :: toJsons r

end

def parseTree (s : String) : Except Error (List Item) :=
  match (Json.parse s).bind Value.ofJson with
  | none => .error .unreadable
  | some v => match listOfValue v with
    | none => .error .notATimeline
    | some items => .ok items

end Item

end BranchingTimeline
