import BranchingTimeline.Condition.Evaluation

namespace BranchingTimeline

structure DataLog where
  latestFirst : List Record
deriving DecidableEq

namespace DataLog

def trialColumn : String := "trial_id"

def loopColumn : String := "loop_id"

def empty : DataLog := ⟨[]⟩

def toList (d : DataLog) : List Record := d.latestFirst.reverse

def size (d : DataLog) : Nat := d.latestFirst.length

def label (trial : ItemId) (loop : Option ItemId) (response : Record) : Record :=
  let r := response.insert trialColumn (Value.str trial.text)
  match loop with
  | some l => r.insert loopColumn (Value.str l.text)
  | none => r

def record (d : DataLog) (trial : ItemId) (loop : Option ItemId) (response : Record) : DataLog :=
  ⟨label trial loop response :: d.latestFirst⟩

def isOf (trial : ItemId) (r : Record) : Bool := r.get? trialColumn = some (Value.str trial.text)

def isWithin (loops : IdSet) (r : Record) : Bool :=
  match (r.get? loopColumn).map Value.json with
  | some (.str l) => loops.contains ⟨l⟩
  | _ => false

def latest (d : DataLog) : Lookup := fun trial => d.latestFirst.find? (isOf trial)

def latestWithin (d : DataLog) (loops : IdSet) : Lookup := fun trial =>
  d.latestFirst.find? fun r => isOf trial r && isWithin loops r

end DataLog

end BranchingTimeline
