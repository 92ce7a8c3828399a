import BranchingTimeline.Json.Printer
import BranchingTimeline.Timeline.Node

namespace BranchingTimeline

inductive Variable where
  | rootScope
  | knownIds
  | timeline (name : String)
  | scope (name : String)
  | trial (name : String)
  | node (name : String)
  | loop (name : String)
deriving DecidableEq, Repr

namespace Variable

def text : Variable → String
  | rootScope => "tlRootScope"
  | knownIds => "TL_KNOWN_IDS"
  | timeline name => name
  | scope name => "tl_scope_" ++ name
  | trial name => "trial_" ++ name
  | node name => "node_" ++ name
  | loop name => "loop_" ++ name

def ofScope : Scope → Variable
  | .root => rootScope
  | .loop name => scope name

end Variable

/-- A value as a literal that can stand in a script element: no `</` is left in it. -/
def breakTags : List Char → List Char
  | '<' :: '/' :: r => '<' :: '\\' :: '/' :: breakTags r
  | c :: r => c :: breakTags r
  | [] => []

def Json.literal (j : Json) : String := String.ofList (breakTags j.render.toList)

/-- A part of a line. Source text of trials is passed through, and a comment is kept to one line. -/
inductive Piece where
  | text (s : String)
  | declared (v : Variable)
  | used (v : Variable)
  | literal (j : Json)
  | source (s : String)
  | comment (s : String)

def Piece.render : Piece → String
  | text s => s
  | declared v => v.text
  | used v => v.text
  | literal j => j.literal
  | source s => s
  | comment s => String.ofList (s.toList.map fun c => if c = '\n' ∨ c = '\r' then ' ' else c)

structure Line where
  depth : Nat
  pieces : List Piece

namespace Line

def blank : Line := ⟨0, []⟩

def ofText (depth : Nat) (s : String) : Line := ⟨depth, [.text s]⟩

def render (l : Line) : String :=
  String.join (List.replicate l.depth "  ") ++ String.join (l.pieces.map Piece.render)

def renderAll (ls : List Line) : String := String.join (ls.map fun l => l.render ++ "\n")

end Line

end BranchingTimeline
