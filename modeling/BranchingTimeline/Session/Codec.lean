import BranchingTimeline.Session.Run
import BranchingTimeline.Timeline.Codec

namespace BranchingTimeline

namespace Flags

def shape : List Json.Member :=
  [.optional "next_trial_id", .required "skip_remaining", .required "target_executed",
    .required "branching_active", .optional "custom_parameters",
    .required "should_branch_on_finish"]

def ofJson (j : Json) : Option Flags := do
  let [nextTrial, skipRemaining, targetExecuted, branchingActive, customParameters,
    shouldBranch] ← j.slots shape | none
  return {
    nextTrial := ← Json.needed (Json.nullable ItemId.ofJson) nextTrial
    skipRemaining := ← Json.needed Json.toBool skipRemaining
    targetExecuted := ← Json.needed Json.toBool targetExecuted
    branchingActive := ← Json.needed Json.toBool branchingActive
    customParameters := ← Json.needed (Json.nullable Json.toRecord) customParameters
    shouldBranch := ← Json.needed Json.toBool shouldBranch }

def toJson (f : Flags) : Json :=
  .obj [("next_trial_id", Json.ofOption ItemId.toJson f.nextTrial),
    ("skip_remaining", .bool f.skipRemaining), ("target_executed", .bool f.targetExecuted),
    ("branching_active", .bool f.branchingActive),
    ("custom_parameters", Json.ofOption Json.ofRecord f.customParameters),
    ("should_branch_on_finish", .bool f.shouldBranch)]

end Flags

namespace Context

def shape : List Json.Member :=
  [.required "root", .required "loops", .optional "jump_memory", .optional "jump_store",
    .optional "aborted"]

def ofJson (j : Json) : Option Context := do
  let [root, loops, jumpMemory, jumpStore, aborted] ← j.slots shape | none
  return {
    root := ← Json.needed Flags.ofJson root
    loops := ← Json.needed (Json.toMap id Flags.ofJson) loops
    jumpMemory := ← Json.needed (Json.nullable ItemId.ofJson) jumpMemory
    jumpStore := ← Json.needed (Json.nullable ItemId.ofJson) jumpStore
    aborted := ← Json.needed (Json.nullable Json.toStr) aborted }

def toJson (c : Context) : Json :=
  .obj [("root", c.root.toJson), ("loops", Json.ofMap Flags.toJson c.loops),
    ("jump_memory", Json.ofOption ItemId.toJson c.jumpMemory),
    ("jump_store", Json.ofOption ItemId.toJson c.jumpStore),
    ("aborted", Json.ofOption .str c.aborted)]

end Context

def Decision.toJson : Decision → Json
  | jumpTarget => .str "jump_target"
  | jumpThrough => .str "jump_through"
  | skippedForJump => .str "skipped_for_jump"
  | normal => .str "normal"
  | branchTarget => .str "branch_target"
  | skippedForBranch => .str "skipped_for_branch"

namespace FinishOutcome

def members : FinishOutcome → List (String × Json)
  | idle => [("outcome", .str "idle")]
  | repeated target => [("outcome", .str "repeat"), ("target", target.toJson)]
  | branched target route =>
    [("outcome", .str "branch"), ("target", target.toJson), ("route", route.toJson)]
  | escalated scope => [("outcome", .str "escalate"), ("scope", scope.toJson)]
  | aborted => [("outcome", .str "abort")]

def toJson (o : FinishOutcome) : Json := .obj o.members

end FinishOutcome

def Event.toJson : Event → Json
  | skipped id decision =>
    .obj [("event", .str "skipped"), ("id", id.toJson), ("decision", decision.toJson)]
  | trial id loop parameters stimulus =>
    Json.record
      [("event", some (.str "trial")), ("id", some id.toJson),
        ("loop_id", some (Json.ofOption ItemId.toJson loop)),
        ("parameters", some (Json.ofRecord parameters)), ("stimulus", stimulus.map Json.ofRecord)]
  | loopRun id run =>
    .obj [("event", .str "loop_run"), ("id", id.toJson), ("run", Json.ofNat run)]
  | finished id outcome => .obj (("event", .str "finished") :: ("id", id.toJson) :: outcome.members)
  | restarted target => .obj [("event", .str "restarted"), ("target", target.toJson)]
  | jumpDropped target => .obj [("event", .str "jump_dropped"), ("target", target.toJson)]

namespace DataLog

def toJson (d : DataLog) : Json := .obj [("records", Json.ofList Json.ofRecord d.toList)]

end DataLog

def Outcome.toJson (o : Outcome) : Json :=
  .obj [("trace", Json.ofList Event.toJson o.trace), ("data", o.data.toJson),
    ("archived", Json.ofList DataLog.toJson o.archived), ("restarts", Json.ofNat o.restarts),
    ("aborted", Json.ofOption .str o.aborted), ("context", o.context.toJson)]

def Responses.ofJson (j : Json) : Option Responses := j.toMap ItemId.mk (Json.listOf Json.toRecord)

end BranchingTimeline
