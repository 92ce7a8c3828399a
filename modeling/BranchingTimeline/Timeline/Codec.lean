import BranchingTimeline.Condition.Codec
import BranchingTimeline.Item.Codec
import BranchingTimeline.Json.Tag
import BranchingTimeline.Timeline.Node

namespace BranchingTimeline

namespace Scope

def ofJson (r : Reading) (j : Json) : Option Scope := do
  match ← j.tagged r ["root", "loop"] "kind" "name" with
  | ("root", none) | ("root", some (_, .null)) => some .root
  | ("loop", some (_, .str name)) => some (.loop name)
  | _ => none

def toJson : Scope → Json
  | root => .obj [("kind", .str "root")]
  | loop name => .obj [("kind", .str "loop"), ("name", .str name)]

end Scope

namespace Guard

def shape : List Json.Member :=
  [.required "id", .required "scope", .required "members", .required "begins_pass"]

def ofJson (r : Reading) (j : Json) : Option Guard := do
  let [id, scope, members, beginsPass] ← j.slots shape | none
  return {
    id := ← Json.needed ItemId.ofJson id
    scope := ← Json.needed (Scope.ofJson r) scope
    members := ← Json.needed IdSet.ofJson members
    beginsPass := ← Json.needed Json.toBool beginsPass }

def toJson (g : Guard) : Json :=
  .obj [("id", g.id.toJson), ("scope", g.scope.toJson), ("members", g.members.toJson),
    ("begins_pass", .bool g.beginsPass)]

end Guard

namespace Route

def ofJson (r : Reading) (j : Json) : Option Route := do
  match ← j.tagged r ["scope", "jump"] "kind" "scope" with
  | ("jump", none) | ("jump", some (_, .null)) => some .jump
  | ("scope", some (r, s)) => (Scope.ofJson r s).map .scope
  | _ => none

def toJson : Route → Json
  | scope s => .obj [("kind", .str "scope"), ("scope", s.toJson)]
  | jump => .obj [("kind", .str "jump")]

end Route

namespace BranchPlan

def shape : List Json.Member := [.required "branches", .required "conditions", .required "routes"]

def ofJson (j : Json) : Option BranchPlan := do
  let [branches, conditions, routes] ← j.slots shape | none
  return {
    branches := ← Json.needed readIds branches
    conditions := ← Json.needed Condition.listOfJson conditions
    routes := ← Json.needed (Json.toMap ItemId.mk (Route.ofJson .setAside)) routes }

def toJson (b : BranchPlan) : Json :=
  .obj [("branches", writeIds b.branches), ("conditions", Condition.listToJson b.conditions),
    ("routes", Json.ofMap Route.toJson b.routes)]

end BranchPlan

namespace FinishPlan

def shape : List Json.Member := [.required "repeats", .optional "branch", .optional "escalate_to"]

def ofJson (j : Json) : Option FinishPlan := do
  let [repeats, branch, escalateTo] ← j.slots shape | none
  return {
    repeats := ← Json.needed Condition.listOfJson repeats
    branch := ← Json.needed (Json.nullable BranchPlan.ofJson) branch
    escalateTo := ← Json.needed (Json.nullable (Scope.ofJson .setAside)) escalateTo }

def toJson (f : FinishPlan) : Json :=
  .obj [("repeats", Condition.listToJson f.repeats),
    ("branch", Json.ofOption BranchPlan.toJson f.branch),
    ("escalate_to", Json.ofOption Scope.toJson f.escalateTo)]

end FinishPlan

namespace TrialPlan

def shape : List Json.Member :=
  [.required "id", .required "name", .required "plugin", .optional "loop_id", .required "props",
    .required "parameters", .required "overrides", .required "finish"]

def ofJson (j : Json) : Option TrialPlan := do
  let [id, name, plugin, loop, props, parameters, overrides, finish] ← j.slots shape | none
  return {
    id := ← Json.needed ItemId.ofJson id
    name := ← Json.needed Json.toStr name
    plugin := ← Json.needed Json.toStr plugin
    loop := ← Json.needed (Json.nullable ItemId.ofJson) loop
    props := ← Json.needed Json.toStr props
    parameters := ← Json.needed Json.toRecord parameters
    overrides := ← Json.needed Condition.listOfJson overrides
    finish := ← Json.needed FinishPlan.ofJson finish }

def members (t : TrialPlan) : List (String × Json) :=
  [("id", t.id.toJson), ("name", .str t.name), ("plugin", .str t.plugin),
    ("loop_id", Json.ofOption ItemId.toJson t.loop), ("props", .str t.props),
    ("parameters", Json.ofRecord t.parameters), ("overrides", Condition.listToJson t.overrides),
    ("finish", t.finish.toJson)]

end TrialPlan

namespace LoopPlan

def shape : List Json.Member :=
  [.required "id", .required "name", .required "scope", .required "repetitions",
    .required "randomize", .required "stimuli", .required "items", .required "continuation",
    .required "data_scope", .required "finish", .required "terminal"]

def ofJson (j : Json) : Option LoopPlan := do
  let [id, name, scope, repetitions, randomize, stimuli, _, continuation, dataScope, finish,
    terminal] ← j.slots shape | none
  return {
    id := ← Json.needed ItemId.ofJson id
    name := ← Json.needed Json.toStr name
    scope := ← Json.needed (Scope.ofJson .setAside) scope
    repetitions := ← Json.needed Json.toUInt32 repetitions
    randomize := ← Json.needed Json.toBool randomize
    stimuli := ← Json.needed StimulusPlan.ofJson stimuli
    continuation := ← Json.needed Condition.listOfJson continuation
    dataScope := ← Json.needed IdSet.ofJson dataScope
    finish := ← Json.needed FinishPlan.ofJson finish
    terminal := ← Json.needed Json.toBool terminal }

def members (l : LoopPlan) (items : List Json) : List (String × Json) :=
  [("id", l.id.toJson), ("name", .str l.name), ("scope", l.scope.toJson),
    ("repetitions", Json.ofUInt32 l.repetitions), ("randomize", .bool l.randomize),
    ("stimuli", l.stimuli.toJson), ("items", .arr items),
    ("continuation", Condition.listToJson l.continuation), ("data_scope", l.dataScope.toJson),
    ("finish", l.finish.toJson), ("terminal", .bool l.terminal)]

end LoopPlan

namespace Node

def shape : List Json.Member := [.required "guard", .required "kind", .required "is_last"]

def placeOfJson (r : Reading) (guard isLast : Json) : Option Place := do
  return ⟨← Guard.ofJson r guard, ← isLast.toBool⟩

def kindOf (r : Reading) (kind : Json) (items : Option (List Node)) : Option (Place → Node) := do
  match ← kind.labelled r ["trial", "loop"] "type" with
  | ("trial", record) => do
    let t ← TrialPlan.ofJson record
    return fun p => .trial p t
  | ("loop", record) => do
    let l ← LoopPlan.ofJson record
    let items ← items
    return fun p => .loop p l items
  | _ => none

mutual

def ofJson (r : Reading) : Json → Option Node
  | .obj members => do
    let [some guard, _, some isLast] ← Json.slots shape (.obj members) | none
    return (← kindMember r members) (← placeOfJson r guard isLast)
  | .arr [guard, kind, isLast] => do return (← kindOfJson r kind) (← placeOfJson r guard isLast)
  | _ => none

def kindMember (r : Reading) : List (String × Json) → Option (Place → Node)
  | [] => none
  | (name, j) :: rest => if name = "kind" then kindOfJson r j else kindMember r rest

def kindOfJson (r : Reading) : Json → Option (Place → Node)
  | .obj members => kindOf r (.obj members) (itemsMember members)
  | .arr (tag :: values) => kindOf r (.arr (tag :: values)) (itemsValue values)
  | _ => none

def itemsMember : List (String × Json) → Option (List Node)
  | [] => none
  | (name, j) :: r => if name = "items" then listOfJson .setAside j else itemsMember r

def itemsValue : List Json → Option (List Node)
  | _ :: _ :: _ :: _ :: _ :: _ :: j :: _ => listOfJson .setAside j
  | _ => none

def listOfJson (r : Reading) : Json → Option (List Node)
  | .arr items => ofJsons r items
  | _ => none

def ofJsons (r : Reading) : List Json → Option (List Node)
  | [] => some []
  | j :: rest => do return (← ofJson r j) :: (← ofJsons r rest)

end

def objectOf (place : Place) (type : String) (members : List (String × Json)) : Json :=
  .obj [("guard", place.guard.toJson), ("kind", .obj (("type", .str type) :: members)),
    ("is_last", .bool place.isLast)]

mutual

def toJson : Node → Json
  | trial p t => objectOf p "trial" t.members
  | loop p l items => objectOf p "loop" (l.members (toJsons items))

def toJsons : List Node → List Json
  | [] => []
  | n :: r => n.toJson :: toJsons r

end

end Node

namespace Severity

def ofJson (j : Json) : Option Severity := do
  match ← j.toTag .direct with
  | "info" => some .info
  | "warning" => some .warning
  | _ => none

def toJson : Severity → Json
  | info => .str "info"
  | warning => .str "warning"

end Severity

namespace Diagnostic

def shape : List Json.Member := [.required "severity", .optional "item", .required "message"]

def ofJson (j : Json) : Option Diagnostic := do
  let [severity, item, message] ← j.slots shape | none
  return {
    severity := ← Json.needed Severity.ofJson severity
    item := ← Json.needed (Json.nullable ItemId.ofJson) item
    message := ← Json.needed Json.toStr message }

def toJson (d : Diagnostic) : Json :=
  .obj [("severity", d.severity.toJson), ("item", Json.ofOption ItemId.toJson d.item),
    ("message", .str d.message)]

end Diagnostic

namespace Timeline

def shape : List Json.Member := [.required "nodes", .required "known_ids", .required "diagnostics"]

def ofJson (j : Json) : Option Timeline := do
  let [nodes, knownIds, diagnostics] ← j.slots shape | none
  return {
    nodes := ← Json.needed (Node.listOfJson .direct) nodes
    knownIds := ← Json.needed IdSet.ofJson knownIds
    diagnostics := ← Json.needed (Json.listOf Diagnostic.ofJson) diagnostics }

def toJson (t : Timeline) : Json :=
  .obj [("nodes", .arr (Node.toJsons t.nodes)), ("known_ids", t.knownIds.toJson),
    ("diagnostics", Json.ofList Diagnostic.toJson t.diagnostics)]

end Timeline

end BranchingTimeline
