import BranchingTimeline.ItemId

namespace BranchingTimeline

inductive Error where
  | unreadable
  | notATimeline
  | unreadableRunSettings
  | notAnIdentifier (setting value : String)
  | unknownConditionKind (kind : String)
  | noTargets
  | noParameters
  | unresolvedTarget (source target : ItemId)
  | loopLimit (loop : ItemId) (limit : UInt32)
  | restartLimit (target : ItemId) (limit : UInt32)
  | overflow
  | unknownCondition (id : Int64)
  | noSuchRule (condition : Int64) (index : UInt64)
deriving DecidableEq, Repr

namespace Error

/-- The wording of an error. A text that cannot be read has none, and neither has a number that
passes the largest of its type. -/
def message : Error → Option String
  | unreadable | notATimeline | unreadableRunSettings | overflow => none
  | notAnIdentifier setting value =>
    some ("Invalid configuration: " ++ setting ++ " must be a JavaScript identifier, got '" ++ value
      ++ "'")
  | unknownConditionKind kind =>
    some ("Invalid configuration: unknown condition kind '" ++ kind ++ "'")
  | noTargets => some "Invalid configuration: only branch and repeat conditions have targets"
  | noParameters =>
    some "Invalid configuration: only branch and override conditions carry parameters"
  | unresolvedTarget source target =>
    some ("Branch target '" ++ target.text ++ "' referenced from '" ++ source.text
      ++ "' does not exist in the timeline")
  | loopLimit loop limit =>
    some ("Loop '" ++ loop.text ++ "' re-ran more than " ++ limit.toNat.repr ++ " times")
  | restartLimit target limit =>
    some ("Pending jump to '" ++ target.text ++ "' still unresolved after " ++ limit.toNat.repr
      ++ " restarts")
  | unknownCondition id => some ("Unknown condition " ++ (Number.ofInt64 id).text)
  | noSuchRule condition index =>
    some ("Rule " ++ index.toNat.repr ++ " does not exist on condition "
      ++ (Number.ofInt64 condition).text)

end Error

end BranchingTimeline
