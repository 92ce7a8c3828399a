import BranchingTimeline.Error
import BranchingTimeline.Item.Basic
import BranchingTimeline.Settings
import BranchingTimeline.Timeline.Node
import BranchingTimeline.Timeline.ScopeName

namespace BranchingTimeline

inductive Finding where
  | noId (name : String)
  | duplicateId (id : ItemId)
  | unresolved (source target : ItemId)
  | conditionsWithoutBranches (id : ItemId)
  | repeatsOfEmptyLoop (id : ItemId)
  | noRepetitions (id : ItemId)
  | noLoopConditions (id : ItemId)
deriving DecidableEq, Repr

def Finding.diagnostic : Finding → Diagnostic
  | noId name => ⟨.warning, none, "'" ++ name ++ "' has no id"⟩
  | duplicateId id =>
    ⟨.warning, some id, "duplicate id '" ++ id.text ++ "'; branches to it are ambiguous"⟩
  | unresolved source target =>
    ⟨.warning, some source, "'" ++ source.text ++ "' targets '" ++ target.text
      ++ "', which is not in the timeline; the experiment will stall there"⟩
  | conditionsWithoutBranches id =>
    ⟨.info, some id, "'" ++ id.text ++ "' has branch conditions but no branches; ignored"⟩
  | repeatsOfEmptyLoop id =>
    ⟨.info, some id, "loop '" ++ id.text ++ "' is empty; its repeat conditions never fire"⟩
  | noRepetitions id =>
    ⟨.info, some id, "loop '" ++ id.text ++ "' has zero repetitions and never runs its body"⟩
  | noLoopConditions id =>
    ⟨.info, some id, "conditional loop '" ++ id.text ++ "' has no loop conditions"⟩

namespace Compile

structure Known where
  ids : IdSet
  strict : Bool

structure Draft where
  namer : Namer
  findings : List Finding

abbrev Compiling := StateT Draft (Except Error)

def note (f : Finding) : Compiling Unit :=
  modify fun d => { d with findings := f :: d.findings }

/-- What the items of one sequence share. `armed` holds the repeat conditions of the loop around
them, each with the position of the item after which it is checked. -/
structure Surroundings where
  scope : Scope
  loop : Option ItemId
  loopBranches : Bool
  armed : List (Nat × RepeatCondition)

def Surroundings.root : Surroundings := ⟨.root, none, false, []⟩

def Surroundings.armedAt (s : Surroundings) (index : Nat) : List RepeatCondition :=
  (s.armed.filter fun a => a.1 = index).map Prod.snd

def indexId (id : ItemId) (name : String) (s : IdSet × List Finding) : IdSet × List Finding :=
  if id.isBlank then (s.1, .noId name :: s.2)
  else if s.1.contains id then (s.1, .duplicateId id :: s.2)
  else (s.1.insert id (), s.2)

mutual

def indexItem : Item → IdSet × List Finding → IdSet × List Finding
  | .trial t, s => indexId t.id t.name s
  | .loop l items, s => indexItems items (indexId l.id l.name s)

def indexItems : List Item → IdSet × List Finding → IdSet × List Finding
  | [], s => s
  | i :: r, s => indexItems r (indexItem i s)

end

variable (known : Known)

/-- A target that is not in the tree is an error, or, if the compiler is lenient, a warning. -/
def checkTarget (source target : ItemId) : Compiling Unit :=
  if known.ids.contains target then pure ()
  else if known.strict then throw (.unresolvedTarget source target)
  else note (.unresolved source target)

def addRoutes (source : ItemId) (later : List ItemId) (scope : Scope) :
    List ItemId → SortedMap ItemId Route → Compiling (SortedMap ItemId Route)
  | [], routes => pure routes
  | target :: r, routes =>
    if routes.contains target then addRoutes source later scope r routes
    else if later.contains target then
      addRoutes source later scope r (routes.insert target (.scope scope))
    else do
      checkTarget known source target
      addRoutes source later scope r (routes.insert target .jump)

def branchPlan (item : Item) (later : List ItemId) (scope : Scope) :
    Compiling (Option BranchPlan) := do
  let branches := item.branches.filter fun b => !b.isBlank
  let conditions := item.branchConditions
  if branches.isEmpty then
    unless conditions.isEmpty do note (.conditionsWithoutBranches item.id)
    return none
  else
    let targets := branches ++ conditions.filterMap fun c => c.effect.destination
    let routes ← addRoutes known item.id later scope targets .empty
    return some ⟨branches, conditions, routes⟩

def checkRepeats (source : ItemId) : List RepeatCondition → Compiling Unit
  | [] => pure ()
  | c :: r => do
    match c.effect.destination with
    | some target => checkTarget known source target
    | none => pure ()
    checkRepeats source r

/-- The position after the last item with a trial that the rules read, but no further than the last
item; the first position if no item has such a trial. -/
def armingPosition (items : List Item) (rules : List Rule) : Nat :=
  let reads := rules.filterMap Rule.target
  let found := reads.filterMap fun id => items.findIdx? (·.contains id)
  (found.map fun i => min (i + 1) (items.length - 1)).foldl max 0

def armRepeats (l : Loop) (items : List Item) : Compiling (List (Nat × RepeatCondition)) := do
  if l.repeatConditions.isEmpty then return []
  else if items.isEmpty then
    note (.repeatsOfEmptyLoop l.id)
    return []
  else
    checkRepeats known l.id l.repeatConditions
    return l.repeatConditions.map fun c => (armingPosition items c.rules, c)

def dataScope (id : ItemId) (nodes : List Node) : IdSet :=
  nodes.foldl
    (fun s n => match n with
      | .trial .. => s
      | .loop _ l _ => s.union l.dataScope)
    (IdSet.ofList [id])

def nameScope (id : ItemId) : Compiling Scope := do
  let d ← get
  let (name, namer) := d.namer.nameFor id
  set { d with namer }
  return .loop name

def continuation (l : Loop) : Compiling (List LoopCondition) := do
  if l.repetitions = 0 then note (.noRepetitions l.id)
  if l.isConditional then
    if l.loopConditions.isEmpty then note (.noLoopConditions l.id)
    return l.loopConditions
  else
    return []

/-- A node without branches of its own leaves them to the loop around it. -/
def finishPlan (around : Surroundings) (index : Nat) (later : List ItemId) (item : Item) :
    Compiling FinishPlan := do
  let branch ← branchPlan known item later around.scope
  return {
    repeats := around.armedAt index
    branch
    escalateTo := if branch.isNone && around.loopBranches then some around.scope else none }

def placeOf (around : Surroundings) (index : Nat) (later : List ItemId) (item : Item) : Place :=
  let inLoop := !around.scope.isRoot
  ⟨⟨item.id, around.scope, item.descendantIds, index = 0 && inLoop⟩, later.isEmpty && inLoop⟩

def trialPlan (around : Surroundings) (t : Trial) (finish : FinishPlan) : TrialPlan where
  id := t.id
  name := t.name
  plugin := t.plugin
  loop := around.loop
  props := t.props
  parameters := t.parameters
  overrides := t.overrides
  finish := { finish with repeats := t.repeatConditions ++ finish.repeats }

def loopPlan (around : Surroundings) (l : Loop) (scope : Scope) (finish : FinishPlan)
    (continuation : List LoopCondition) (nodes : List Node) : LoopPlan where
  id := l.id
  name := l.name
  scope
  repetitions := l.repetitions
  randomize := l.randomize
  stimuli := l.stimuli
  continuation
  dataScope := dataScope l.id nodes
  finish
  terminal := l.branches.isEmpty && l.repeatConditions.isEmpty && around.scope.isRoot

def Surroundings.inside (l : Loop) (scope : Scope) (armed : List (Nat × RepeatCondition)) :
    Surroundings :=
  ⟨scope, some l.id, l.branches.any fun b => !b.isBlank, armed⟩

mutual

def node (around : Surroundings) (index : Nat) (later : List ItemId) : Item → Compiling Node
  | .trial t => do
    let finish ← finishPlan known around index later (.trial t)
    checkRepeats known t.id t.repeatConditions
    return .trial (placeOf around index later (.trial t)) (trialPlan around t finish)
  | .loop l items => do
    let finish ← finishPlan known around index later (.loop l items)
    let scope ← nameScope l.id
    let armed ← armRepeats known l items
    let nodes ← sequence (.inside l scope armed) 0 items
    let continuation ← continuation l
    return .loop (placeOf around index later (.loop l items))
      (loopPlan around l scope finish continuation nodes) nodes

def sequence (around : Surroundings) (index : Nat) : List Item → Compiling (List Node)
  | [] => pure []
  | item :: r => do
    let n ← node around index (r.map Item.id) item
    return n :: (← sequence around (index + 1) r)

end

end Compile

/-- Compiles a tree. Unless the settings are strict, every tree has a timeline. -/
def compile (settings : Settings) (items : List Item) : Except Error Timeline := do
  let (ids, findings) := Compile.indexItems items (.empty, [])
  let known := ⟨ids, settings.strictTargets⟩
  let (nodes, draft) ← (Compile.sequence known .root 0 items).run ⟨.start, findings⟩
  return ⟨nodes, ids, draft.findings.reverse.map Finding.diagnostic⟩

end BranchingTimeline
