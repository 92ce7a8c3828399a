import BranchingTimeline.Error
import BranchingTimeline.Script.Line
import BranchingTimeline.Script.Prelude
import BranchingTimeline.Settings
import BranchingTimeline.Timeline.Codec
import BranchingTimeline.Timeline.ScopeName

namespace BranchingTimeline.Emit

def startsIdentifier (c : Char) : Bool := c.isAlpha || c = '_' || c = '$'

def isIdentifier : List Char → Bool
  | [] => false
  | c :: r => startsIdentifier c && r.all fun c => startsIdentifier c || c.isDigit

def pathParts : List Char → List (List Char)
  | [] => [[]]
  | c :: r =>
    if c = '.' then [] :: pathParts r
    else match pathParts r with
      | p :: ps => (c :: p) :: ps
      | [] => [[c]]

def checkPath (setting value : String) : Except Error Unit :=
  if (pathParts value.toList).all isIdentifier then .ok ()
  else .error (.notAnIdentifier setting value)

def separated (separator : String) : List (List Piece) → List Piece
  | [] => []
  | [p] => p
  | p :: ps => p ++ .text separator :: separated separator ps

def idsLiteral (ids : IdSet) : Piece := .literal ids.toJson

def scopePiece (s : Scope) : Piece := .used (.ofScope s)

def routeEntries (b : BranchPlan) : List (List Piece) :=
  b.routes.entries.filterMap fun (target, route) =>
    match route with
    | .scope s => some [.literal target.toJson, .text ": ", scopePiece s]
    | .jump => none

def branchPieces (b : BranchPlan) : List Piece :=
  [.text "\x7b branches: ", .literal (writeIds b.branches), .text ", conditions: ",
    .literal (Condition.listToJson b.conditions), .text ", routes: \x7b "]
    ++ separated ", " (routeEntries b) ++ [.text " \x7d \x7d"]

def finishPieces (f : FinishPlan) : List Piece :=
  [.text "\x7b repeats: ", .literal (Condition.listToJson f.repeats), .text ", branch: "]
    ++ (match f.branch with
      | some b => branchPieces b
      | none => [.text "null"])
    ++ [.text ", escalateTo: ",
      match f.escalateTo with
      | some s => scopePiece s
      | none => .text "null",
      .text " \x7d"]

def resetLine (s : Scope) : Line := ⟨2, [.text "tlResetPass(", scopePiece s, .text ");"]⟩

def guardLines (g : Guard) : List Line :=
  .ofText 1 "conditional_function: function () \x7b"
    :: (if g.beginsPass then [resetLine g.scope] else [])
    ++ [⟨2, [.text "return tlItemGuard(", scopePiece g.scope, .text ", ", .literal g.id.toJson,
        .text ", ", idsLiteral g.members, .text ");"]⟩,
      .ofText 1 "\x7d,"]

/-- What follows a node: its own finish, and the end of the pass if it is the last of a loop. -/
def finishLines (p : Place) (own : List Line) : List Line :=
  .ofText 1 "on_timeline_finish: function () \x7b"
    :: own ++ (if p.isLast then [resetLine p.guard.scope] else []) ++ [.ofText 1 "\x7d"]

def heading (label name : String) (id : ItemId) : Line :=
  ⟨0, [.text label, .comment name, .text " (", .comment id.text, .text ")"]⟩

def trialLines (p : Place) (t : TrialPlan) (name : String) : List Line :=
  let props := if Text.isBlank t.props then "\x7b\x7d" else Text.trim t.props
  [.blank, heading "// " t.name t.id,
    ⟨0, [.text "const ", .declared (.trial name), .text " = tlInstrument(", .source props,
      .text ", \x7b"]⟩,
    ⟨1, [.text "id: ", .literal t.id.toJson, .text ","]⟩,
    ⟨1, [.text "loopId: ", .literal (Json.ofOption ItemId.toJson t.loop), .text ","]⟩,
    ⟨1, [.text "scope: ", scopePiece p.guard.scope, .text ","]⟩,
    ⟨1, [.text "overrides: ", .literal (Condition.listToJson t.overrides), .text ","]⟩,
    ⟨1, .text "finish: " :: finishPieces t.finish⟩,
    .ofText 0 "\x7d);",
    ⟨0, [.text "const ", .declared (.node name), .text " = \x7b"]⟩,
    ⟨1, [.text "timeline: [", .used (.trial name), .text "],"]⟩]
    ++ guardLines p.guard ++ finishLines p [] ++ [.ofText 0 "\x7d;"]

def loopLines (p : Place) (l : LoopPlan) (name : String) (children : List Variable) : List Line :=
  [.blank, heading "// loop " l.name l.id,
    ⟨0, [.text "const ", .declared (.loop name), .text " = \x7b"]⟩,
    ⟨1, .text "timeline: [" :: separated ", " (children.map fun v => [.used v])
      ++ [.text "],"]⟩]
    ++ (if l.stimuli.rows.isEmpty then []
      else [⟨1, [.text "timeline_variables: tlMaterialize(", .literal l.stimuli.toJson,
        .text "),"]⟩])
    ++ [⟨1, [.text "repetitions: ", .literal (Json.ofUInt32 l.repetitions), .text ","]⟩,
      ⟨1, [.text "randomize_order: ", .literal (.bool l.randomize), .text ","]⟩]
    ++ guardLines p.guard
    ++ [.ofText 1 "on_timeline_start: function () \x7b",
      ⟨2, [.text "tlEnterLoop(", scopePiece l.scope, .text ");"]⟩,
      .ofText 1 "\x7d,",
      .ofText 1 "loop_function: function () \x7b",
      ⟨2, [.text "return tlContinueLoop(", .literal l.id.toJson, .text ", ",
        idsLiteral p.guard.members, .text ", ", .literal (Condition.listToJson l.continuation),
        .text ", ", idsLiteral l.dataScope, .text ");"]⟩,
      .ofText 1 "\x7d,"]
    ++ finishLines p [⟨2, [.text "tlFinishLoop(", scopePiece l.scope, .text ", "]
      ++ finishPieces l.finish ++ [.text ", ", .literal (.bool l.terminal), .text ");"]⟩]
    ++ [.ofText 0 "\x7d;"]

mutual

/-- The lines of a node and all nodes in it, the name that holds it, and the names used by then. -/
def node (m : Namer) : Node → List Line × Variable × Namer
  | .trial p t =>
    let (name, m) := m.nameFor t.id
    (trialLines p t name, .node name, m)
  | .loop p l items =>
    let (lines, children, m) := nodes m items
    let (name, m) := m.nameFor l.id
    (lines ++ loopLines p l name children, .loop name, m)

def nodes (m : Namer) : List Node → List Line × List Variable × Namer
  | [] => ([], [], m)
  | n :: r =>
    let (lines, v, m) := node m n
    let (rest, vs, m) := nodes m r
    (lines ++ rest, v :: vs, m)

end

mutual

def loopsOf : Node → List (Scope × ItemId)
  | .trial .. => []
  | .loop _ l items => (l.scope, l.id) :: loopsIn items

def loopsIn : List Node → List (Scope × ItemId)
  | [] => []
  | n :: r => loopsOf n ++ loopsIn r

end

def scopeLine (s : Scope × ItemId) : Line :=
  ⟨0, [.text "const ", .declared (.ofScope s.1), .text " = tlScope(", .literal s.2.toJson,
    .text ");"]⟩

def preludeLines (settings : Settings) : List Line :=
  (Prelude.fill (Json.literal (.str settings.jumpStorageKey)) settings.participantGlobal).map
    (Line.ofText 0) ++ [.blank]

def reloadLines (timeline : Variable) : List Line :=
  [.blank, .ofText 0 "// Restart for a jump still pending at the end; drop jumps to unknown items.",
    ⟨0, [.used timeline, .text ".push(\x7b"]⟩,
    .ofText 1 "type: jsPsychCallFunction,",
    .ofText 1 "func: function () \x7b",
    .ofText 2 "var jump = tlPendingJump();",
    .ofText 2 "if (jump === null) return;",
    ⟨2, [.text "if (", .used .knownIds, .text ".indexOf(jump) !== -1) \x7b"]⟩,
    .ofText 3 "window.location.reload();",
    .ofText 2 "\x7d else \x7b",
    .ofText 3 "tlClearJump();",
    .ofText 2 "\x7d",
    .ofText 1 "\x7d",
    .ofText 0 "\x7d);"]

def declarations (t : Timeline) : List Line :=
  ⟨0, [.text "const ", .declared .knownIds, .text " = ", idsLiteral t.knownIds, .text ";"]⟩
    :: (loopsIn t.nodes).map scopeLine

def pushLines (settings : Settings) (roots : List Variable) : List Line :=
  let timeline := Variable.timeline settings.timelineVar
  .blank :: (if settings.declareTimeline then
      [⟨0, [.text "const ", .declared timeline, .text " = [];"]⟩] else [])
    ++ roots.map fun v => ⟨0, [.used timeline, .text ".push(", .used v, .text ");"]⟩

def script (t : Timeline) (settings : Settings) : List Line :=
  let (lines, roots, _) := nodes .start t.nodes
  preludeLines settings ++ declarations t ++ lines ++ pushLines settings roots
    ++ (if settings.emitReloadGuard then reloadLines (.timeline settings.timelineVar) else [])

end Emit

def Timeline.emitLines (t : Timeline) (settings : Settings) : Except Error (List Line) := do
  Emit.checkPath "timeline_var" settings.timelineVar
  Emit.checkPath "participant_global" settings.participantGlobal
  return Emit.script t settings

def Timeline.emit (t : Timeline) (settings : Settings) : Except Error String :=
  (t.emitLines settings).map Line.renderAll

end BranchingTimeline
