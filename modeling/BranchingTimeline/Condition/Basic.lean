import BranchingTimeline.ItemId

namespace BranchingTimeline

inductive Operator where
  | eq
  | ne
  | gt
  | lt
  | ge
  | le
  | unsupported
deriving DecidableEq, Repr

namespace Operator

def symbol : Operator → String
  | eq => "=="
  | ne => "!="
  | gt => ">"
  | lt => "<"
  | ge => ">="
  | le => "<="
  | unsupported => "?"

def ofText (s : String) : Operator :=
  let t := Text.trim s
  if t = "==" ∨ t = "===" then eq
  else if t = "!=" ∨ t = "!==" then ne
  else if t = ">" then gt
  else if t = "<" then lt
  else if t = ">=" then ge
  else if t = "<=" then le
  else unsupported

def all : List Operator := [eq, ne, gt, lt, ge, le, unsupported]

end Operator

/-- A comparison of one column of a trial's latest record with a text. -/
structure Rule where
  trial : Option ItemId
  column : String
  prop : String
  component : Option String
  op : Operator
  value : String
deriving DecidableEq, Repr

namespace Rule

def blank : Rule := ⟨none, "", "", none, .eq, ""⟩

/-- Without a column of its own, a rule reads its property, prefixed by the component that records it. -/
def resolvedColumn (r : Rule) : String :=
  if r.column ≠ "" then r.column
  else match r.component with
    | some c => if c ≠ "" ∧ r.prop ≠ "" then c ++ "_" ++ r.prop else r.prop
    | none => r.prop

def target (r : Rule) : Option ItemId := ItemId.named? r.trial

def isComplete (r : Rule) : Bool := r.target.isSome && r.resolvedColumn ≠ ""

end Rule

/-- Rules that must all hold, and what follows if they do. -/
structure Condition (ε : Type) where
  id : Int64
  rules : List Rule
  effect : ε
deriving DecidableEq

/-- The branch that a satisfied condition takes, and the parameters it hands to the item there. -/
structure BranchTo where
  target : Option ItemId
  parameters : Option Record
deriving DecidableEq

structure JumpTo where
  target : Option ItemId
deriving DecidableEq

structure Replace where
  parameters : Record
deriving DecidableEq

abbrev LoopCondition := Condition Unit

abbrev BranchCondition := Condition BranchTo

abbrev RepeatCondition := Condition JumpTo

abbrev OverrideCondition := Condition Replace

def BranchTo.destination (b : BranchTo) : Option ItemId := ItemId.named? b.target

def JumpTo.destination (j : JumpTo) : Option ItemId := ItemId.named? j.target

end BranchingTimeline
