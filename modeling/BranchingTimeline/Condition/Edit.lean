import BranchingTimeline.Condition.Editor

namespace BranchingTimeline

namespace ConditionList

/-- A request to a list of conditions. A condition is addressed by its id, a rule in it by its index. -/
inductive Edit where
  | add (id : Int64)
  | remove (id : Int64)
  | addRule (id : Int64)
  | removeRule (id : Int64) (index : UInt64)
  | updateRule (id : Int64) (index : UInt64) (edit : RuleEdit)
  | setTarget (id : Int64) (target : Option ItemId)
  | setParameter (id : Int64) (key : String) (value : Value)
  | removeOverride (id : Int64) (key : String)
deriving DecidableEq

inductive Told where
  | nothing
  | id (id : Int64)
  | index (index : Nat)
  | removed (value : Option Value)
deriving DecidableEq

def telling {σ α : Type} (t : α → Told) (r : Except Error α × σ) : Except Error Told × σ :=
  (r.1.map t, r.2)

def step (l : ConditionList) : Edit → Except Error Told × ConditionList
  | .add id => telling .id (l.add id)
  | .remove id => telling (fun _ => .nothing) (l.remove id)
  | .addRule id => telling .index (l.addRule id)
  | .removeRule id index => telling (fun _ => .nothing) (l.removeRule id index)
  | .updateRule id index edit => telling (fun _ => .nothing) (l.updateRule id index edit)
  | .setTarget id target => telling (fun _ => .nothing) (l.setTarget id target)
  | .setParameter id key value => telling (fun _ => .nothing) (l.setParameter id key value)
  | .removeOverride id key => telling .removed (l.removeOverride id key)

end ConditionList

end BranchingTimeline
