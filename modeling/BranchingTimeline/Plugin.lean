import BranchingTimeline.Condition.Basic

namespace BranchingTimeline

structure DataColumn where
  column : String
  prop : String
  component : Option String
deriving DecidableEq, Repr

namespace DataColumn

def shape : List Json.Member := [.required "column", .required "prop", .default "componentIdx"]

def ofJson (j : Json) : Option DataColumn := do
  let [column, prop, component] ← j.slots shape | none
  return {
    column := ← Json.needed Json.toStr column
    prop := ← Json.needed Json.toStr prop
    component := ← Json.orElse none (Json.nullable Json.toStr) component }

def toJson (c : DataColumn) : Json :=
  Json.record
    [("column", some (.str c.column)), ("prop", some (.str c.prop)),
      ("componentIdx", c.component.map .str)]

end DataColumn

structure FieldInfo where
  type : Option Value
  description : Option String
deriving DecidableEq

namespace FieldInfo

def shape : List Json.Member := [.default "type", .default "description"]

def ofJson (j : Json) : Option FieldInfo := do
  let [type, description] ← j.slots shape | none
  return {
    type := ← Json.orElse none (Json.nullable Value.ofJson) type
    description := ← Json.orElse none (Json.nullable Json.toStr) description }

def toJson (f : FieldInfo) : Json :=
  Json.record [("type", f.type.map Value.json), ("description", f.description.map .str)]

end FieldInfo

structure PluginMetadata where
  name : String
  parameters : SortedMap String FieldInfo
  data : SortedMap String FieldInfo
deriving DecidableEq

namespace PluginMetadata

def shape : List Json.Member := [.default "name", .default "parameters", .default "data"]

def ofJson (j : Json) : Option PluginMetadata := do
  let [name, parameters, data] ← j.slots shape | none
  return {
    name := ← Json.orElse "" Json.toStr name
    parameters := ← Json.orElse .empty (Json.toMap id FieldInfo.ofJson) parameters
    data := ← Json.orElse .empty (Json.toMap id FieldInfo.ofJson) data }

def toJson (m : PluginMetadata) : Json :=
  .obj [("name", .str m.name), ("parameters", Json.ofMap FieldInfo.toJson m.parameters),
    ("data", Json.ofMap FieldInfo.toJson m.data)]

def dataColumns (m : PluginMetadata) (component : Option String) : List DataColumn :=
  match component.filter (· ≠ "") with
  | some c => m.data.keys.map fun prop => ⟨c ++ "_" ++ prop, prop, some c⟩
  | none => m.data.keys.map fun prop => ⟨prop, prop, none⟩

end PluginMetadata

end BranchingTimeline
