import BranchingTimeline.Condition.Basic
import BranchingTimeline.Json.Coercion

namespace BranchingTimeline

namespace Operator

def ofJson : Json → Option Operator
  | .str s => some (ofText s)
  | _ => none

def toJson (o : Operator) : Json := .str o.symbol

end Operator

namespace Rule

/-- Any value can be compared with; it is kept as text. -/
def valueOfJson : Json → Option String
  | .null => some ""
  | j => if j.readable then some j.coerce else none

def shape : List Json.Member :=
  [.default "trialId", .default "column", .default "prop", .default "componentIdx", .default "op",
    .default "value"]

def ofJson (j : Json) : Option Rule := do
  let [trial, column, prop, component, op, value] ← j.slots shape | none
  return {
    trial := ← Json.orElse none (Json.nullable ItemId.ofJson) trial
    column := ← Json.orElse "" Json.toStr column
    prop := ← Json.orElse "" Json.toStr prop
    component := ← Json.orElse none (Json.nullable Json.toStr) component
    op := ← Json.orElse .eq Operator.ofJson op
    value := ← Json.orElse "" valueOfJson value }

def toJson (r : Rule) : Json :=
  Json.record
    [("trialId", some (Json.ofOption ItemId.toJson r.trial)), ("column", some (.str r.column)),
      ("prop", some (.str r.prop)), ("componentIdx", r.component.map .str),
      ("op", some r.op.toJson), ("value", some (.str r.value))]

end Rule

/-- How the members of an effect are read and written, and the effect of a condition just added. -/
class Effect (ε : Type) where
  shape : List Json.Member
  read : List (Option Json) → Option ε
  write : ε → List (String × Option Json)
  blank : ε

instance : Effect Unit where
  shape := []
  read _ := some ()
  write _ := []
  blank := ()

instance : Effect BranchTo where
  shape := [.default "nextTrialId", .default "customParameters"]
  read
    | [target, parameters] => do
      return {
        target := ← Json.orElse none (Json.nullable ItemId.ofJson) target
        parameters := ← Json.orElse none (Json.nullable Json.toRecord) parameters }
    | _ => none
  write b :=
    [("nextTrialId", some (Json.ofOption ItemId.toJson b.target)),
      ("customParameters", b.parameters.map Json.ofRecord)]
  blank := ⟨none, none⟩

instance : Effect JumpTo where
  shape := [.default "jumpToTrialId"]
  read
    | [target] => do return ⟨← Json.orElse none (Json.nullable ItemId.ofJson) target⟩
    | _ => none
  write j := [("jumpToTrialId", some (Json.ofOption ItemId.toJson j.target))]
  blank := ⟨none⟩

instance : Effect Replace where
  shape := [.default "paramsToOverride"]
  read
    | [parameters] => do return ⟨← Json.orElse .empty Json.toRecord parameters⟩
    | _ => none
  write r := [("paramsToOverride", some (Json.ofRecord r.parameters))]
  blank := ⟨.empty⟩

namespace Condition

variable {ε : Type} [Effect ε]

def ofJson (j : Json) : Option (Condition ε) := do
  let id :: rules :: rest ← j.slots (.default "id" :: .default "rules" :: Effect.shape ε) | none
  return {
    id := ← Json.orElse 0 Json.toInt64 id
    rules := ← Json.orElse [] (Json.listOf Rule.ofJson) rules
    effect := ← Effect.read rest }

def toJson (c : Condition ε) : Json :=
  Json.record (("id", some (Json.ofInt64 c.id)) ::
    ("rules", some (Json.ofList Rule.toJson c.rules)) :: Effect.write c.effect)

def listOfJson (j : Json) : Option (List (Condition ε)) := j.listOf ofJson

def listToJson (cs : List (Condition ε)) : Json := Json.ofList toJson cs

end Condition

end BranchingTimeline
