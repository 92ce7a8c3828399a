import BranchingTimeline.Timeline.Node

namespace BranchingTimeline

structure Flags where
  nextTrial : Option ItemId
  skipRemaining : Bool
  targetExecuted : Bool
  branchingActive : Bool
  customParameters : Option Record
  shouldBranch : Bool
deriving DecidableEq

namespace Flags

def clear : Flags := ⟨none, false, false, false, none, false⟩

instance : Inhabited Flags := ⟨clear⟩

def resetPass (f : Flags) : Flags := { clear with shouldBranch := f.shouldBranch }

def arm (target : ItemId) (parameters : Option Record) (f : Flags) : Flags :=
  { f with
    nextTrial := some target
    skipRemaining := true
    targetExecuted := false
    branchingActive := true
    customParameters := parameters }

end Flags

/-- What a guard decides. A pending jump either names the node, or something inside it, or makes it
skipped; without one, the branch of the scope decides. -/
inductive Decision where
  | jumpTarget
  | jumpThrough
  | skippedForJump
  | normal
  | branchTarget
  | skippedForBranch
deriving DecidableEq, Repr

def Decision.runs : Decision → Bool
  | jumpTarget | jumpThrough | normal | branchTarget => true
  | skippedForJump | skippedForBranch => false

/-- The branching state of a session. A jump is kept in memory and in a store that outlives the
session; the store counts first. -/
structure Context where
  root : Flags
  loops : SortedMap String Flags
  jumpMemory : Option ItemId
  jumpStore : Option ItemId
  aborted : Option String
deriving DecidableEq

namespace Context

def start : Context := ⟨.clear, .empty, none, none, none⟩

def reload (c : Context) : Context := { start with jumpStore := c.jumpStore }

def flags? (c : Context) : Scope → Option Flags
  | .root => some c.root
  | .loop name => c.loops.get? name

def flags (c : Context) (s : Scope) : Flags := (c.flags? s).getD .clear

def update (c : Context) (s : Scope) (f : Flags → Flags) : Context :=
  match s with
  | .root => { c with root := f c.root }
  | .loop name => { c with loops := c.loops.insert name (f (c.flags s)) }

def pendingJump (c : Context) : Option ItemId := c.jumpStore.or c.jumpMemory

@[simp] theorem jumpStore_update (c : Context) (s : Scope) (f : Flags → Flags) :
    (c.update s f).jumpStore = c.jumpStore := by
  cases s <;> rfl

@[simp] theorem jumpMemory_update (c : Context) (s : Scope) (f : Flags → Flags) :
    (c.update s f).jumpMemory = c.jumpMemory := by
  cases s <;> rfl

@[simp] theorem aborted_update (c : Context) (s : Scope) (f : Flags → Flags) :
    (c.update s f).aborted = c.aborted := by
  cases s <;> rfl

@[simp] theorem pendingJump_update (c : Context) (s : Scope) (f : Flags → Flags) :
    (c.update s f).pendingJump = c.pendingJump := by
  simp only [pendingJump, jumpStore_update, jumpMemory_update]

theorem flags_update (c : Context) (s t : Scope) (f : Flags → Flags) :
    (c.update s f).flags t = if t = s then f (c.flags s) else c.flags t := by
  cases s with
  | root => cases t <;> simp [update, flags, flags?]
  | loop name =>
    cases t with
    | root => simp [update, flags, flags?]
    | loop other =>
      by_cases h : other = name <;>
        simp [update, flags, flags?, SortedMap.get?_insert, Key.text, h]

def setJump (c : Context) (target : ItemId) : Context :=
  { c with jumpStore := some target, jumpMemory := some target }

def clearJump (c : Context) : Context := { c with jumpStore := none, jumpMemory := none }

def abort (c : Context) (reason : String) : Context := { c with aborted := some reason }

def enterLoop (c : Context) (s : Scope) : Context := c.update s fun _ => .clear

def resetPass (c : Context) (s : Scope) : Context := c.update s .resetPass

def decide (c : Context) (g : Guard) : Decision × Context :=
  match c.pendingJump with
  | some jump =>
    if jump = g.id then (.jumpTarget, c.clearJump)
    else if g.members.contains jump then (.jumpThrough, c)
    else (.skippedForJump, c)
  | none =>
    let c := c.update g.scope id
    let f := c.flags g.scope
    if f.targetExecuted then (.skippedForBranch, c)
    else if !f.skipRemaining then (.normal, c)
    else if f.nextTrial = some g.id then
      (.branchTarget, c.update g.scope fun f => { f with targetExecuted := true })
    else (.skippedForBranch, c)

def follow (c : Context) (route : Route) (target : ItemId) (parameters : Option Record) : Context :=
  match route with
  | .scope s => c.update s (Flags.arm target parameters)
  | .jump => c.setJump target

def customParametersFor (c : Context) (s : Scope) (id : ItemId) : Option Record :=
  let f := c.flags s
  if f.targetExecuted ∧ f.nextTrial = some id then f.customParameters else none

end Context

end BranchingTimeline
