import BranchingTimeline.Error
import BranchingTimeline.Session.Finish

namespace BranchingTimeline

inductive Event where
  | skipped (id : ItemId) (decision : Decision)
  | trial (id : ItemId) (loop : Option ItemId) (parameters : Record) (stimulus : Option Record)
  | loopRun (id : ItemId) (run : Nat)
  | finished (id : ItemId) (outcome : FinishOutcome)
  | restarted (target : ItemId)
  | jumpDropped (target : ItemId)
deriving DecidableEq

inductive Flow where
  | next
  | abort
  | failed (e : Error)
deriving DecidableEq

/-- The state of a run within a session, with the events of the whole run, the latest first. Where
responses come from and how rows are arranged have states of their own, `σ` and `ρ`. -/
structure Session (σ ρ : Type) where
  context : Context
  log : DataLog
  trace : List Event
  responses : σ
  arranger : ρ

namespace Session

variable {σ ρ : Type}

def withContext (s : Session σ ρ) (c : Context) : Session σ ρ := { s with context := c }

def report (s : Session σ ρ) (e : Event) : Session σ ρ := { s with trace := e :: s.trace }

end Session

abbrev Step (σ ρ : Type) := Session σ ρ → Flow × Session σ ρ

namespace Step

variable {σ ρ : Type}

def done : Step σ ρ := fun s => (.next, s)

@[inline] def andThen (a b : Step σ ρ) : Step σ ρ := fun s =>
  match a s with
  | (.next, t) => b t
  | (.abort, t) => (.abort, t)
  | (.failed e, t) => (.failed e, t)

def times (a : Step σ ρ) : Nat → Step σ ρ
  | 0, s => done s
  | n + 1, s => a.andThen (times a n) s

def forEach {α : Type} (f : α → Step σ ρ) : List α → Step σ ρ
  | [], s => done s
  | x :: r, s => (f x).andThen (forEach f r) s

/-- Runs a body, and again as long as `again` asks for it. With `left` runs still allowed, one more
is the `failed` outcome. -/
def rerun (body : Nat → Step σ ρ) (again : Session σ ρ → Bool × Session σ ρ) (failed : Error) :
    (left run : Nat) → Step σ ρ
  | 0, _, s => (.failed failed, s)
  | left + 1, run, s => (body run).andThen (fun s =>
    match again s with
    | (true, t) => rerun body again failed left (run + 1) t
    | (false, t) => (.next, t)) s

end Step

end BranchingTimeline
