import BranchingTimeline.Condition.Codec
import BranchingTimeline.Document
import BranchingTimeline.Json.Tag
import BranchingTimeline.Plugin

namespace BranchingTimeline

inductive RuleEdit where
  | trial (id : Option ItemId)
  | column (c : DataColumn)
  | op (o : Operator)
  | value (v : String)
deriving DecidableEq, Repr

/-- Another trial makes the column and the value meaningless, but not the operator. -/
def RuleEdit.apply : RuleEdit → Rule → Rule
  | trial id, r => { Rule.blank with trial := id, op := r.op }
  | column c, r => { r with column := c.column, prop := c.prop, component := c.component }
  | op o, r => { r with op := o }
  | value v, r => { r with value := v }

/-- An edit in place: its answer, and what it leaves. An error does not take back what was changed. -/
abbrev InPlace (σ α : Type) := σ → Except Error α × σ

def inside {σ τ α : Type} (whole : σ → τ) (r : Except Error α × σ) : Except Error α × τ :=
  (r.1, whole r.2)

namespace Condition

variable {ε α : Type}

def inFirst (id : Int64) (f : InPlace (Condition ε) α) : InPlace (List (Condition ε)) α
  | [] => (.error (.unknownCondition id), [])
  | c :: r =>
    if c.id = id then inside (· :: r) (f c) else inside (c :: ·) (inFirst id f r)

def removeFirst (id : Int64) : InPlace (List (Condition ε)) Unit
  | [] => (.error (.unknownCondition id), [])
  | c :: r => if c.id = id then (.ok (), r) else inside (c :: ·) (removeFirst id r)

def maxId : List (Condition ε) → Int64
  | [] => 0
  | [c] => c.id
  | c :: r => max c.id (maxId r)

/-- The id itself unless it is taken, else the one after the largest. -/
def freshId (id : Int64) (cs : List (Condition ε)) : Except Error Int64 :=
  if cs.any fun c => c.id = id then
    if maxId cs = Int64.maxValue then .error .overflow else .ok (maxId cs + 1)
  else .ok id

def add [Effect ε] (id : Int64) : InPlace (List (Condition ε)) Int64 := fun cs =>
  match freshId id cs with
  | .ok new => (.ok new, cs ++ [⟨new, [Rule.blank], Effect.blank⟩])
  | .error e => (.error e, cs)

def addRule (id : Int64) : InPlace (List (Condition ε)) Nat :=
  inFirst id fun c => (.ok c.rules.length, { c with rules := c.rules ++ [Rule.blank] })

def removeRule (id : Int64) (index : UInt64) : InPlace (List (Condition ε)) Unit :=
  inFirst id fun c =>
    if index.toNat < c.rules.length then (.ok (), { c with rules := c.rules.eraseIdx index.toNat })
    else (.error (.noSuchRule id index), c)

def updateRule (id : Int64) (index : UInt64) (edit : RuleEdit) : InPlace (List (Condition ε)) Unit :=
  inFirst id fun c =>
    if index.toNat < c.rules.length then
      (.ok (), { c with rules := c.rules.modify index.toNat edit.apply })
    else (.error (.noSuchRule id index), c)

def modifyEffect (id : Int64) (f : ε → ε) : InPlace (List (Condition ε)) Unit :=
  inFirst id fun c => (.ok (), { c with effect := f c.effect })

end Condition

inductive ConditionList where
  | looping (cs : List LoopCondition)
  | branching (cs : List BranchCondition)
  | repeating (cs : List RepeatCondition)
  | overriding (cs : List OverrideCondition)
deriving DecidableEq

namespace ConditionList

def ofKind : String → Except Error ConditionList
  | "loop" => .ok (.looping [])
  | "branch" => .ok (.branching [])
  | "repeat" => .ok (.repeating [])
  | "override" => .ok (.overriding [])
  | kind => .error (.unknownConditionKind kind)

def ofJson (j : Json) : ConditionList → Option ConditionList
  | looping _ => (Condition.listOfJson j).map .looping
  | branching _ => (Condition.listOfJson j).map .branching
  | repeating _ => (Condition.listOfJson j).map .repeating
  | overriding _ => (Condition.listOfJson j).map .overriding

def parse (kind s : String) : Except Error ConditionList := do
  let empty ← ofKind kind
  Document.readOr empty (fun j => ofJson j empty) s

def toJson : ConditionList → Json
  | looping cs => Condition.listToJson cs
  | branching cs => Condition.listToJson cs
  | repeating cs => Condition.listToJson cs
  | overriding cs => Condition.listToJson cs

def add (id : Int64) : InPlace ConditionList Int64
  | looping cs => inside .looping (Condition.add id cs)
  | branching cs => inside .branching (Condition.add id cs)
  | repeating cs => inside .repeating (Condition.add id cs)
  | overriding cs => inside .overriding (Condition.add id cs)

def edit {α : Type} (f : {ε : Type} → InPlace (List (Condition ε)) α) : InPlace ConditionList α
  | looping cs => inside .looping (f cs)
  | branching cs => inside .branching (f cs)
  | repeating cs => inside .repeating (f cs)
  | overriding cs => inside .overriding (f cs)

def remove (id : Int64) : InPlace ConditionList Unit := edit (Condition.removeFirst id)

def addRule (id : Int64) : InPlace ConditionList Nat := edit (Condition.addRule id)

def removeRule (id : Int64) (index : UInt64) : InPlace ConditionList Unit :=
  edit (Condition.removeRule id index)

def updateRule (id : Int64) (index : UInt64) (e : RuleEdit) : InPlace ConditionList Unit :=
  edit (Condition.updateRule id index e)

def setTarget (id : Int64) (target : Option ItemId) : InPlace ConditionList Unit
  | branching cs =>
    inside .branching
      (Condition.modifyEffect id (fun b => { b with target := ItemId.named? target }) cs)
  | repeating cs =>
    inside .repeating (Condition.modifyEffect id (fun _ => ⟨ItemId.named? target⟩) cs)
  | l => (.error .noTargets, l)

def setParameter (id : Int64) (key : String) (value : Value) : InPlace ConditionList Unit
  | branching cs =>
    inside .branching (Condition.modifyEffect id (fun b =>
      { b with parameters := some ((b.parameters.getD .empty).insert key value) }) cs)
  | overriding cs =>
    inside .overriding (Condition.modifyEffect id (fun r => ⟨r.parameters.insert key value⟩) cs)
  | l => (.error .noParameters, l)

def removeOverride (id : Int64) (key : String) : InPlace ConditionList (Option Value)
  | overriding cs =>
    inside .overriding (Condition.inFirst id (fun c =>
      (.ok (c.effect.parameters.get? key), { c with effect := ⟨c.effect.parameters.erase key⟩ })) cs)
  | l => (.error .noParameters, l)

end ConditionList

namespace RuleEdit

def ofJson (j : Json) : Option RuleEdit := do
  match ← j.tagged .direct ["trialId", "column", "op", "value"] "field" "value" with
  | ("trialId", none) => some (.trial none)
  | ("trialId", some (_, v)) => (Json.nullable ItemId.ofJson v).map .trial
  | ("column", some (_, v)) => (DataColumn.ofJson v).map .column
  | ("op", some (_, v)) => (Operator.ofJson v).map .op
  | ("value", some (_, v)) => v.toStr.map .value
  | _ => none

def toJson : RuleEdit → Json
  | trial id => .obj [("field", .str "trialId"), ("value", Json.ofOption ItemId.toJson id)]
  | column c => .obj [("field", .str "column"), ("value", c.toJson)]
  | op o => .obj [("field", .str "op"), ("value", o.toJson)]
  | value v => .obj [("field", .str "value"), ("value", .str v)]

end RuleEdit

end BranchingTimeline
