import BranchingTimeline.Json.Record

namespace BranchingTimeline

/-- A value is read as it stands, or after it was set aside until a tag was known. What is set aside
is readable, and in it a few more spellings of tags are understood. -/
inductive Reading where
  | direct
  | setAside
deriving DecidableEq

namespace Json

def toName (r : Reading) (names : List String) : Json → Option String
  | .str s => some s
  | .num (.int (.ofNat n) _) => if r = .setAside then names[n]? else none
  | _ => none

/-- A name by itself, or the name of a member that is null. Set aside, the member may also be an
empty object. -/
def toTag (r : Reading) : Json → Option String
  | .str s => some s
  | .obj [(s, .null)] => some s
  | .obj [(s, .obj [])] => if r = .setAside then some s else none
  | _ => none

def precedes (first second : String) (members : List (String × Json)) : Bool :=
  (members.find? fun e => e.1 = first || e.1 = second).any fun e => e.1 = first

/-- A tag out of a few names and a content, with how the content is to be read. By name, the content
may be absent, and is set aside if it comes before the tag; by position, both are there. -/
def tagged (r : Reading) (names : List String) (tag content : String) :
    Json → Option (String × Option (Reading × Json))
  | .obj members => do
    let [some t, c] ← slots [.required tag, .default content] (.obj members) | none
    let name ← t.toTag r
    match c with
    | none => return (name, none)
    | some c =>
      if !precedes content tag members then return (name, some (r, c))
      else if c.readable then return (name, some (.setAside, c))
      else none
  | .arr [t, c] => do return (← t.toName r names, some (r, c))
  | _ => none

/-- A tag out of a few names and a record, which has the tag as one more member, or in front of its
values. The whole is set aside until the tag is known. -/
def labelled (r : Reading) (names : List String) (tag : String) (j : Json) :
    Option (String × Json) := do
  if !j.readable then none
  else match j with
    | .obj members => do
      let [some t] ← slots [.required tag] (.obj members) | none
      return (← t.toName r names, .obj members)
    | .arr (t :: values) => return (← t.toName r names, .arr values)
    | _ => none

end Json

end BranchingTimeline
