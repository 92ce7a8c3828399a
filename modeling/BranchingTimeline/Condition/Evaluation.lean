import BranchingTimeline.Condition.Basic
import BranchingTimeline.Json.Coercion

namespace BranchingTimeline

namespace Operator

def onDoubles (op : Operator) (a b : Double) : Bool :=
  match op with
  | eq => a.beq b
  | ne => !a.beq b
  | gt => b.blt a
  | lt => a.blt b
  | ge => b.ble a
  | le => a.ble b
  | unsupported => false

def onTexts (op : Operator) (a b : String) : Bool :=
  match op with
  | eq => a == b
  | ne => a != b
  | _ => false

/-- Compares as numbers if both texts begin with one, else as texts. -/
def holds (op : Operator) (actual : Option Value) (expected : String) : Bool :=
  match Numeral.leading (Json.coerce? actual), Numeral.leading expected with
  | some a, some b => op.onDoubles a b
  | _, _ => op.onTexts (Json.coerce? actual) expected

end Operator

/-- The latest record of each trial that has one. -/
abbrev Lookup := ItemId → Option Record

def Rule.holds (r : Rule) (data : Record) : Bool :=
  r.isComplete && r.op.holds (data.get? r.resolvedColumn) r.value

def Rule.holdsIn (r : Rule) (latest : Lookup) : Bool :=
  match r.target.bind latest with
  | some data => r.holds data
  | none => false

namespace Condition

variable {ε : Type}

/-- A condition without rules is never satisfied. -/
def holds (c : Condition ε) (latest : Lookup) : Bool :=
  !c.rules.isEmpty && c.rules.all (·.holdsIn latest)

def anyHolds (cs : List (Condition ε)) (latest : Lookup) : Bool := cs.any (·.holds latest)

def firstHolding (cs : List (Condition ε)) (latest : Lookup) : Option (Condition ε) :=
  cs.find? (·.holds latest)

end Condition

end BranchingTimeline
