import BranchingTimeline.Authoring
import BranchingTimeline.Condition.Basic
import BranchingTimeline.Condition.Codec
import BranchingTimeline.Condition.Edit
import BranchingTimeline.Condition.Editor
import BranchingTimeline.Condition.Evaluation
import BranchingTimeline.Decimal.Double
import BranchingTimeline.Decimal.Numeral
import BranchingTimeline.Decimal.Shortest
import BranchingTimeline.Document
import BranchingTimeline.Error
import BranchingTimeline.Item.Basic
import BranchingTimeline.Item.Codec
import BranchingTimeline.Item.RuleTarget
import BranchingTimeline.ItemId
import BranchingTimeline.Json.Basic
import BranchingTimeline.Json.Coercion
import BranchingTimeline.Json.Number
import BranchingTimeline.Json.Printer
import BranchingTimeline.Json.Reader
import BranchingTimeline.Json.Record
import BranchingTimeline.Json.Tag
import BranchingTimeline.Json.Value
import BranchingTimeline.Plugin
import BranchingTimeline.Proofs.Session.Agreement
import BranchingTimeline.Proofs.Session.Delivery
import BranchingTimeline.Proofs.Session.Frame
import BranchingTimeline.Proofs.Session.Hooks
import BranchingTimeline.Proofs.Session.Isolation
import BranchingTimeline.Proofs.Session.Jump
import BranchingTimeline.Proofs.Session.Landing
import BranchingTimeline.Proofs.Session.Machine
import BranchingTimeline.Proofs.Session.Soundness
import BranchingTimeline.Proofs.Session.Steps
import BranchingTimeline.Proofs.Timeline.Compiled
import BranchingTimeline.Proofs.Timeline.Forest
import BranchingTimeline.Proofs.Timeline.KnownIds
import BranchingTimeline.Proofs.Timeline.Plans
import BranchingTimeline.Proofs.Timeline.ScopeNames
import BranchingTimeline.Proofs.Timeline.Search
import BranchingTimeline.Script.Emit
import BranchingTimeline.Script.Line
import BranchingTimeline.Script.Prelude
import BranchingTimeline.Session.Codec
import BranchingTimeline.Session.Context
import BranchingTimeline.Session.DataLog
import BranchingTimeline.Session.Finish
import BranchingTimeline.Session.Run
import BranchingTimeline.Session.Step
import BranchingTimeline.Settings
import BranchingTimeline.SortedMap
import BranchingTimeline.Stimuli
import BranchingTimeline.Text.Space
import BranchingTimeline.Timeline.Codec
import BranchingTimeline.Timeline.Compile
import BranchingTimeline.Timeline.Node
import BranchingTimeline.Timeline.ScopeName
import BranchingTimeline.Proofs.Session.Reentry
import BranchingTimeline.Proofs.Session.Restarts
import BranchingTimeline.Proofs.Timeline.Checks
import BranchingTimeline.Proofs.Session.Resolution
import BranchingTimeline.Proofs.Session.Unrolling
import BranchingTimeline.Proofs.Timeline.Loops
import BranchingTimeline.Proofs.Session.History
import BranchingTimeline.Proofs.Session.Continuation
import BranchingTimeline.Proofs.Session.Recording
import BranchingTimeline.Proofs.Session.Escalation
import BranchingTimeline.Proofs.Session.Abort
import BranchingTimeline.Proofs.Session.Passes
import BranchingTimeline.Proofs.Session.Progress
import BranchingTimeline.Proofs.Session.Shapes
import BranchingTimeline.Proofs.Session.Parameters
import BranchingTimeline.Proofs.Condition.Denotes
import BranchingTimeline.Proofs.Timeline.Denotes
import BranchingTimeline.Proofs.Item.Denotes
import BranchingTimeline.Proofs.Timeline.Strictness
import BranchingTimeline.Proofs.Timeline.Routes
import BranchingTimeline.Proofs.Timeline.Blanks
import BranchingTimeline.Proofs.Timeline.Naming
import BranchingTimeline.Proofs.Timeline.Arming
import BranchingTimeline.Proofs.Script.Scoping
import BranchingTimeline.Proofs.Script.Words
import BranchingTimeline.Proofs.Script.Legible
import BranchingTimeline.Proofs.Script.Declarations
import BranchingTimeline.Proofs.Script.Mirrors
import BranchingTimeline.Proofs.Script.Tags
import BranchingTimeline.Proofs.Script.Embedding
import BranchingTimeline.Proofs.Session.Log
import BranchingTimeline.Proofs.Session.Reruns
import BranchingTimeline.Proofs.Session.Counters
import BranchingTimeline.Proofs.Session.Spinning
import BranchingTimeline.Proofs.Decimal.Grammar
import BranchingTimeline.Proofs.Decimal.Leading
import BranchingTimeline.Proofs.Stimuli.Selection
import BranchingTimeline.Proofs.Condition.Comparison
import BranchingTimeline.Proofs.Condition.Editing
import BranchingTimeline.Proofs.Condition.Identity
import BranchingTimeline.Proofs.Condition.Unfinished
import BranchingTimeline.Proofs.Item.RuleTargets
import BranchingTimeline.Proofs.Timeline.Renaming
import BranchingTimeline.Proofs.Script.Headings
import BranchingTimeline.Proofs.Decimal.Shortest
import BranchingTimeline.Proofs.Json.Grammar
import BranchingTimeline.Proofs.Json.Printing
import BranchingTimeline.Proofs.Script.Literals
import BranchingTimeline.Proofs.Script.Filling
import BranchingTimeline.Proofs.Script.Freshness
import BranchingTimeline.Proofs.Session.Channels
