import BranchingTimeline.Condition.Basic
import BranchingTimeline.Stimuli

namespace BranchingTimeline

/-- Whose flags a node reads and writes: those of the top level, or those of one loop. -/
inductive Scope where
  | root
  | loop (name : String)
deriving DecidableEq, Repr

def Scope.isRoot (s : Scope) : Bool := s = .root

/-- What decides whether a node runs: its id, the ids of everything inside it, and its scope. The
first node of a loop body also begins a pass through it. -/
structure Guard where
  id : ItemId
  scope : Scope
  members : IdSet
  beginsPass : Bool
deriving DecidableEq

/-- How a branch target is reached: by skipping ahead within a scope, or by a jump. -/
inductive Route where
  | scope (s : Scope)
  | jump
deriving DecidableEq, Repr

structure BranchPlan where
  branches : List ItemId
  conditions : List BranchCondition
  routes : SortedMap ItemId Route
deriving DecidableEq

def BranchPlan.routeFor (b : BranchPlan) (target : ItemId) : Route :=
  (b.routes.get? target).getD .jump

/-- What a node does when it has finished: repeat, else branch, else mark the loop around it. -/
structure FinishPlan where
  repeats : List RepeatCondition
  branch : Option BranchPlan
  escalateTo : Option Scope
deriving DecidableEq

structure TrialPlan where
  id : ItemId
  name : String
  plugin : String
  loop : Option ItemId
  props : String
  parameters : Record
  overrides : List OverrideCondition
  finish : FinishPlan
deriving DecidableEq

/-- A loop apart from the nodes in it. `dataScope` names the loops whose records its continuation
reads; a terminal loop ends the experiment if it finishes while the top level is branching. -/
structure LoopPlan where
  id : ItemId
  name : String
  scope : Scope
  repetitions : UInt32
  randomize : Bool
  stimuli : StimulusPlan
  continuation : List LoopCondition
  dataScope : IdSet
  finish : FinishPlan
  terminal : Bool
deriving DecidableEq

structure Place where
  guard : Guard
  isLast : Bool
deriving DecidableEq

inductive Node where
  | trial (place : Place) (plan : TrialPlan)
  | loop (place : Place) (plan : LoopPlan) (items : List Node)

namespace Node

def place : Node → Place
  | trial p _ => p
  | loop p _ _ => p

def guard (n : Node) : Guard := n.place.guard

def id (n : Node) : ItemId := n.guard.id

def finish : Node → FinishPlan
  | trial _ t => t.finish
  | loop _ l _ => l.finish

mutual

/-- The first node with an id, each node coming before those inside it. -/
def find (id : ItemId) : Node → Option Node
  | trial p t => if p.guard.id = id then some (trial p t) else none
  | loop p l items => if p.guard.id = id then some (loop p l items) else findIn id items

def findIn (id : ItemId) : List Node → Option Node
  | [] => none
  | n :: r => match find id n with
    | some m => some m
    | none => findIn id r

end

end Node

inductive Severity where
  | info
  | warning
deriving DecidableEq, Repr

structure Diagnostic where
  severity : Severity
  item : Option ItemId
  message : String
deriving DecidableEq, Repr

/-- A compiled tree with the ids of all its items. -/
structure Timeline where
  nodes : List Node
  knownIds : IdSet
  diagnostics : List Diagnostic

namespace Timeline

def find (t : Timeline) (id : ItemId) : Option Node := Node.findIn id t.nodes

def warnings (t : Timeline) : List Diagnostic :=
  t.diagnostics.filter fun d => d.severity = .warning

end Timeline

end BranchingTimeline
