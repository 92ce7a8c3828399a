import BranchingTimeline.Stimuli

namespace BranchingTimeline

structure Settings where
  timelineVar : String
  declareTimeline : Bool
  participantGlobal : String
  jumpStorageKey : String
  emitReloadGuard : Bool
  strictTargets : Bool
deriving DecidableEq, Repr

namespace Settings

def default : Settings := ⟨"timeline", true, "participantNumber", "jsPsych_jumpToTrial", true, false⟩

instance : Inhabited Settings := ⟨default⟩

def shape : List Json.Member :=
  [.default "timeline_var", .default "declare_timeline", .default "participant_global",
    .default "jump_storage_key", .default "emit_reload_guard", .default "strict_targets"]

def ofJson (j : Json) : Option Settings := do
  let [timelineVar, declareTimeline, participantGlobal, jumpStorageKey, emitReloadGuard,
    strictTargets] ← j.slots shape | none
  return {
    timelineVar := ← Json.orElse default.timelineVar Json.toStr timelineVar
    declareTimeline := ← Json.orElse true Json.toBool declareTimeline
    participantGlobal := ← Json.orElse default.participantGlobal Json.toStr participantGlobal
    jumpStorageKey := ← Json.orElse default.jumpStorageKey Json.toStr jumpStorageKey
    emitReloadGuard := ← Json.orElse true Json.toBool emitReloadGuard
    strictTargets := ← Json.orElse false Json.toBool strictTargets }

def toJson (s : Settings) : Json :=
  .obj [("timeline_var", .str s.timelineVar), ("declare_timeline", .bool s.declareTimeline),
    ("participant_global", .str s.participantGlobal), ("jump_storage_key", .str s.jumpStorageKey),
    ("emit_reload_guard", .bool s.emitReloadGuard), ("strict_targets", .bool s.strictTargets)]

end Settings

def Participant.ofJson (j : Json) : Option Participant := j.toUInt32.map .mk

def Participant.toJson (p : Participant) : Json := Json.ofUInt32 p.number

structure RunSettings where
  participant : Participant
  maxRestarts : UInt32
  maxLoopRuns : UInt32
deriving DecidableEq

namespace RunSettings

def default : RunSettings := ⟨⟨1⟩, 3, 100⟩

instance : Inhabited RunSettings := ⟨default⟩

def shape : List Json.Member :=
  [.default "participant_number", .default "max_restarts", .default "max_loop_runs"]

def ofJson (j : Json) : Option RunSettings := do
  let [participant, maxRestarts, maxLoopRuns] ← j.slots shape | none
  return {
    participant := ← Json.orElse ⟨1⟩ Participant.ofJson participant
    maxRestarts := ← Json.orElse 3 Json.toUInt32 maxRestarts
    maxLoopRuns := ← Json.orElse 100 Json.toUInt32 maxLoopRuns }

def toJson (s : RunSettings) : Json :=
  .obj [("participant_number", s.participant.toJson),
    ("max_restarts", Json.ofUInt32 s.maxRestarts),
    ("max_loop_runs", Json.ofUInt32 s.maxLoopRuns)]

end RunSettings

end BranchingTimeline
