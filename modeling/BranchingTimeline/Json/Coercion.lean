import BranchingTimeline.Json.Number
import BranchingTimeline.Json.Value

namespace BranchingTimeline.Json

mutual

/-- The text by which a value is compared: a string is itself, a list is its items with commas
between them, a null in a list is empty, and all objects look the same. What is unreadable has no
text. -/
def coerce : Json → String
  | unreadable => ""
  | null => "null"
  | bool true => "true"
  | bool false => "false"
  | num n => n.text
  | str s => s
  | arr items => ",".intercalate (coerceItems items)
  | obj _ => "[object Object]"

def coerceItems : List Json → List String
  | [] => []
  | null :: r => "" :: coerceItems r
  | j :: r => j.coerce :: coerceItems r

end

def coerce? : Option Value → String
  | none => "undefined"
  | some v => v.json.coerce

end BranchingTimeline.Json
