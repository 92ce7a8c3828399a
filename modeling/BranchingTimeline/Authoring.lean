import BranchingTimeline.Document
import BranchingTimeline.Script.Emit
import BranchingTimeline.Session.Codec
import BranchingTimeline.Timeline.Compile

namespace BranchingTimeline.Authoring

def readSettings : String → Except Error Settings := Document.readOr default Settings.ofJson

def readRunSettings : String → Except Error RunSettings :=
  Document.readOr default RunSettings.ofJson

def compileText (settings tree : String) : Except Error (Settings × Timeline) := do
  let s ← readSettings settings
  return (s, ← compile s (← Item.parseTree tree))

def script (settings tree : String) : Except Error String := do
  let (s, t) ← compileText settings tree
  t.emit s

def scriptOfTimeline (timeline settings : String) : Except Error String := do
  let t ← Document.read Timeline.ofJson timeline
  t.emit (← readSettings settings)

/-- A run of an authored tree with responses written down in advance. All texts are read before the
tree is compiled; run settings that cannot be read are an error of their own. -/
def preview (arrange : ItemId → List Record → Unit → List Record × Unit)
    (settings tree responses runSettings : String) : Except Error Outcome := do
  let s ← readSettings settings
  let items ← Item.parseTree tree
  let responses ← Document.readOr default Responses.ofJson responses
  let run ← (readRunSettings runSettings).mapError fun _ => .unreadableRunSettings
  let t ← compile s items
  Environment.run ⟨run, Responses.respond, arrange⟩ t responses ()

end BranchingTimeline.Authoring
