import BranchingTimeline.Session.Context
import BranchingTimeline.Session.DataLog

namespace BranchingTimeline

inductive FinishOutcome where
  | idle
  | repeated (target : ItemId)
  | branched (target : ItemId) (route : Route)
  | escalated (scope : Scope)
  | aborted
deriving DecidableEq, Repr

structure BranchChoice where
  target : ItemId
  parameters : Option Record
deriving DecidableEq

namespace BranchPlan

def satisfied (conditions : List BranchCondition) (latest : Lookup) : Option BranchChoice :=
  conditions.findSome? fun c => do
    let target ← c.effect.destination
    if c.holds latest then some ⟨target, c.effect.parameters⟩ else none

/-- Conditions choose among two branches or more; otherwise the first branch is taken. -/
def select (b : BranchPlan) (latest : Lookup) : Option BranchChoice :=
  match b.branches with
  | [] => none
  | [target] => some ⟨target, none⟩
  | target :: _ => some ((satisfied b.conditions latest).getD ⟨target, none⟩)

end BranchPlan

def repeatTarget (repeats : List RepeatCondition) (latest : Lookup) : Option ItemId :=
  repeats.findSome? fun c => do
    let target ← c.effect.destination
    if c.holds latest then some target else none

def overrideFor (overrides : List OverrideCondition) (latest : Lookup) : Option Record :=
  (Condition.firstHolding overrides latest).map (·.effect.parameters)

namespace Context

def takeBranch (c : Context) (b : BranchPlan) (latest : Lookup) : FinishOutcome × Context :=
  match b.select latest with
  | some choice =>
    let route := b.routeFor choice.target
    (.branched choice.target route, c.follow route choice.target choice.parameters)
  | none => (.idle, c)

def escalate (c : Context) (s : Scope) : FinishOutcome × Context :=
  (.escalated s, c.update s fun f => { f with shouldBranch := true })

def finishTrial (c : Context) (plan : FinishPlan) (latest : Lookup) : FinishOutcome × Context :=
  match repeatTarget plan.repeats latest with
  | some target => (.repeated target, c.setJump target)
  | none =>
    match plan.branch, plan.escalateTo with
    | some b, _ => c.takeBranch b latest
    | none, some s => c.escalate s
    | none, none => (.idle, c)

def abortReason (loop : ItemId) : String :=
  "terminal loop '" ++ loop.text ++ "' finished during a branch"

/-- A jump set inside the loop counts before anything that the loop would do. A loop with branches
takes one only if it was marked. -/
def finishLoop (c : Context) (l : LoopPlan) (latest : Lookup) : FinishOutcome × Context :=
  if c.pendingJump.isSome then (.idle, c)
  else match repeatTarget l.finish.repeats latest with
    | some target => (.repeated target, c.setJump target)
    | none =>
      match l.finish.branch, l.finish.escalateTo with
      | some b, _ =>
        let c := c.update l.scope id
        if (c.flags l.scope).shouldBranch then
          (c.update l.scope fun f => { f with shouldBranch := false }).takeBranch b latest
        else (.idle, c)
      | none, some s => c.escalate s
      | none, none =>
        if l.terminal && c.root.branchingActive then (.aborted, c.abort (abortReason l.id))
        else (.idle, c)

/-- Whether a loop runs once more: for a pending jump to it, which is thereby consumed, or into it,
or without a jump if its own data ask for it. -/
def continueLoop (c : Context) (l : LoopPlan) (items : List Node) (log : DataLog) :
    Bool × Context :=
  match c.pendingJump with
  | some jump =>
    if jump = l.id then (true, c.clearJump)
    else (items.any fun n => n.id = jump || n.guard.members.contains jump, c)
  | none => (Condition.anyHolds l.continuation (log.latestWithin l.dataScope), c)

end Context

end BranchingTimeline
