import BranchingTimeline.Condition.Basic
import BranchingTimeline.Stimuli

namespace BranchingTimeline

/-- A trial as authored. Its properties are source text that is passed through as it is. -/
structure Trial where
  id : ItemId
  name : String
  plugin : String
  props : String
  mapped : Option Value
  branches : List ItemId
  branchConditions : List BranchCondition
  repeatConditions : List RepeatCondition
  overrides : List OverrideCondition
deriving DecidableEq

structure Loop where
  id : ItemId
  name : String
  repetitions : UInt32
  randomize : Bool
  stimuli : StimulusPlan
  branches : List ItemId
  branchConditions : List BranchCondition
  repeatConditions : List RepeatCondition
  loopConditions : List LoopCondition
  isConditional : Bool
deriving DecidableEq

def Trial.plain (id : ItemId) : Trial := ⟨id, "", "", "", none, [], [], [], []⟩

def Loop.plain (id : ItemId) : Loop :=
  ⟨id, "", 1, false, ⟨[], false, [], false, []⟩, [], [], [], [], false⟩

/-- The authored tree: trials, and loops with their items. -/
inductive Item where
  | trial (t : Trial)
  | loop (l : Loop) (items : List Item)

def Trial.parameters (t : Trial) : Record :=
  (t.mapped.bind fun v => v.json.toRecord).getD .empty

namespace Item

def id : Item → ItemId
  | trial t => t.id
  | loop l _ => l.id

def name : Item → String
  | trial t => t.name
  | loop l _ => l.name

def branches : Item → List ItemId
  | trial t => t.branches
  | loop l _ => l.branches

def branchConditions : Item → List BranchCondition
  | trial t => t.branchConditions
  | loop l _ => l.branchConditions

mutual

def nested : Item → List ItemId
  | trial _ => []
  | loop _ items => nestedList items

def nestedList : List Item → List ItemId
  | [] => []
  | i :: r => i.id :: (nested i ++ nestedList r)

end

def contains (i : Item) (id : ItemId) : Bool := i.id = id || i.nested.contains id

def descendantIds (i : Item) : IdSet := IdSet.ofList i.nested

end Item

end BranchingTimeline
