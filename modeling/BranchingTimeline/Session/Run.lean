import BranchingTimeline.Session.Step
import BranchingTimeline.Settings

namespace BranchingTimeline

/-- What a run depends on besides the timeline: its settings, what trials record, and how rows are
arranged where a loop asks for random order. -/
structure Environment (σ ρ : Type) where
  settings : RunSettings
  respond : TrialPlan → (parameters : Record) → (stimulus : Option Record) → σ → Record × σ
  arrange : (loop : ItemId) → List Record → ρ → List Record × ρ

namespace Environment

variable {σ ρ : Type} (env : Environment σ ρ)

def reportFinish (id : ItemId) (r : FinishOutcome × Context) : Step σ ρ := fun s =>
  let s := s.withContext r.2
  match r.1 with
  | .idle => (.next, s)
  | .aborted => (.abort, s.report (.finished id .aborted))
  | outcome => (.next, s.report (.finished id outcome))

/-- The authored parameters, with those of the first satisfied override and of the branch taken. -/
def parametersFor (t : TrialPlan) (scope : Scope) (s : Session σ ρ) : Record :=
  let p := t.parameters.union ((overrideFor t.overrides s.log.latest).getD .empty)
  p.union ((s.context.customParametersFor scope t.id).getD .empty)

def present (t : TrialPlan) (scope : Scope) (stimulus : Option Record) (s : Session σ ρ) :
    Session σ ρ :=
  let parameters := parametersFor t scope s
  let (response, responses) := env.respond t parameters stimulus s.responses
  let s := s.report (.trial t.id t.loop parameters stimulus)
  { s with responses, log := s.log.record t.id t.loop response }

def runTrial (t : TrialPlan) (scope : Scope) (stimulus : Option Record) : Step σ ρ := fun s =>
  let s := env.present t scope stimulus s
  reportFinish t.id (s.context.finishTrial t.finish s.log.latest) s

def rowsFor (l : LoopPlan) (s : Session σ ρ) : List Record × Session σ ρ :=
  let rows := l.stimuli.materialize env.settings.participant
  if l.randomize then
    let (rows, arranger) := env.arrange l.id rows s.arranger
    (rows, { s with arranger })
  else (rows, s)

def passes (pass : Option Record → Step σ ρ) (rows : List Record) : Step σ ρ :=
  if rows.isEmpty then pass none else Step.forEach (fun row => pass (some row)) rows

def loopBody (l : LoopPlan) (pass : Option Record → Step σ ρ) (run : Nat) : Step σ ρ := fun s =>
  let s := (s.withContext (s.context.enterLoop l.scope)).report (.loopRun l.id run)
  let (rows, s) := env.rowsFor l s
  Step.times (passes pass rows) l.repetitions.toNat s

/-- The count of runs that passes the limit is itself out of range if the limit is the largest. -/
def overLimit (limit : UInt32) (e : Error) : Error :=
  if limit.toNat + 1 < UInt32.size then e else .overflow

def askAgain (l : LoopPlan) (items : List Node) (s : Session σ ρ) : Bool × Session σ ρ :=
  let (again, c) := s.context.continueLoop l items s.log
  (again, s.withContext c)

/-- A loop is run until it asks for no other run, at most as often as the settings allow. -/
def reruns (l : LoopPlan) (items : List Node) (pass : Option Record → Step σ ρ) : Step σ ρ :=
  let limit := env.settings.maxLoopRuns
  Step.rerun (env.loopBody l pass) (askAgain l items) (overLimit limit (.loopLimit l.id limit))
    limit.toNat 1

def runLoop (l : LoopPlan) (items : List Node) (pass : Option Record → Step σ ρ) : Step σ ρ :=
  (env.reruns l items pass).andThen fun s =>
    reportFinish l.id (s.context.finishLoop l s.log.latest) s

def consult (place : Place) (s : Session σ ρ) : Decision × Session σ ρ :=
  let g := place.guard
  let c := if g.beginsPass then s.context.resetPass g.scope else s.context
  let (decision, c) := c.decide g
  (decision, s.withContext c)

def leave (place : Place) (s : Session σ ρ) : Session σ ρ :=
  if place.isLast then s.withContext (s.context.resetPass place.guard.scope) else s

def guarded (place : Place) (body : Step σ ρ) : Step σ ρ := fun s =>
  let (decision, s) := consult place s
  if decision.runs then body.andThen (fun s => (.next, leave place s)) s
  else (.next, s.report (.skipped place.guard.id decision))

mutual

def runNode (stimulus : Option Record) : Node → Step σ ρ
  | .trial p t => guarded p (env.runTrial t p.guard.scope stimulus)
  | .loop p l items => guarded p (env.runLoop l items fun row => runNodes row items)

/-- Runs nodes one after the other, with a row of the innermost loop around them. -/
def runNodes (stimulus : Option Record) : List Node → Step σ ρ
  | [] => Step.done
  | n :: r => (runNode stimulus n).andThen (runNodes stimulus r)

end

end Environment

structure Outcome where
  trace : List Event
  data : DataLog
  archived : List DataLog
  restarts : Nat
  context : Context

namespace Outcome

def aborted (o : Outcome) : Option String := o.context.aborted

def executedTrials (o : Outcome) : List ItemId :=
  o.trace.filterMap fun
    | .trial id .. => some id
    | _ => none

def ofSession {σ ρ : Type} (restarts : Nat) (archived : List DataLog) (s : Session σ ρ) : Outcome :=
  { trace := s.trace.reverse
    data := s.log
    archived := archived.reverse
    restarts
    context := s.context }

end Outcome

namespace Environment

variable {σ ρ : Type} (env : Environment σ ρ)

def restart (target : ItemId) (s : Session σ ρ) : Session σ ρ :=
  let s := s.report (.restarted target)
  { s with context := s.context.reload, log := .empty }

/-- Runs sessions until one ends without a jump to a known item. So far there were `restarts`, and `left`
more are allowed. The logs of earlier sessions are archived, the latest first. An error comes with what
was done so far. -/
def sessions (t : Timeline) (restarts : Nat) (archived : List DataLog) (s : Session σ ρ) (left : Nat) :
    Option Error × Outcome :=
  match env.runNodes none t.nodes s with
  | (.failed e, s) => (some e, .ofSession restarts archived s)
  | (.abort, s) => (none, .ofSession restarts archived s)
  | (.next, s) =>
    match s.context.pendingJump with
    | none => (none, .ofSession restarts archived s)
    | some target =>
      if t.knownIds.contains target then
        match left with
        | 0 =>
          let limit := env.settings.maxRestarts
          (some (overLimit limit (.restartLimit target limit)), .ofSession restarts archived s)
        | left + 1 => sessions t (restarts + 1) (s.log :: archived) (restart target s) left
      else
        let s := (s.withContext s.context.clearJump).report (.jumpDropped target)
        (none, .ofSession restarts archived s)

def start (responses : σ) (arranger : ρ) : Session σ ρ := ⟨.start, .empty, [], responses, arranger⟩

def run (t : Timeline) (responses : σ) (arranger : ρ) : Except Error Outcome :=
  match env.sessions t 0 [] (start responses arranger) env.settings.maxRestarts.toNat with
  | (some e, _) => .error e
  | (none, o) => .ok o

end Environment

abbrev Responses := SortedMap ItemId (List Record)

namespace Responses

def respond (t : TrialPlan) (_ : Record) (_ : Option Record) (s : Responses) : Record × Responses :=
  match s.get? t.id with
  | some (r :: next :: rest) => (r, s.insert t.id (next :: rest))
  | some [r] => (r, s)
  | some [] | none => (.empty, s)

end Responses

namespace RowOrder

def keep (_ : ItemId) (rows : List Record) (_ : Unit) : List Record × Unit := (rows, ())

def reverse (_ : ItemId) (rows : List Record) (_ : Unit) : List Record × Unit := (rows.reverse, ())

end RowOrder

end BranchingTimeline
