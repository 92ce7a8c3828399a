import BranchingTimeline.Json.Number

namespace BranchingTimeline.Json

/-- What a string is written with: characters, and the ten bits of each half of a pair that stands
for one beyond U+FFFF. -/
inductive Piece where
  | char (c : Char)
  | high (bits : Nat)
  | low (bits : Nat)

namespace Piece

def ofUnit (unit : Nat) : Piece :=
  if 0xD800 ≤ unit ∧ unit < 0xDC00 then .high (unit - 0xD800)
  else if 0xDC00 ≤ unit ∧ unit < 0xE000 then .low (unit - 0xDC00)
  else .char (Char.ofNat unit)

def joinReversed (after : List Char) : List Piece → Option (List Char)
  | [] => some after
  | .char c :: r => joinReversed (c :: after) r
  | .low l :: .high h :: r => joinReversed (Char.ofNat (0x10000 + 0x400 * h + l) :: after) r
  | _ => none

end Piece

/-- An array or object whose end has not been read, with what stands in it so far in reverse. An
object has lost its members once the name of one is unreadable. -/
inductive Frame where
  | array (items : List Json)
  | object (members : Option (List (String × Json)))
  | member (members : Option (List (String × Json))) (name : Option String)

inductive Mode where
  | value
  | firstItem
  | name
  | firstName
  | colon (name : Option String)
  | after
  | string (isName : Bool) (read : List Piece)
  | escape (isName : Bool) (read : List Piece)
  | hex (isName : Bool) (read : List Piece) (unit digits : Nat)
  | number (read : List Char)
  | word (rest : List Char) (value : Json)
  | done (value : Json)

/-- A reader takes a text one character at a time and keeps the containers still open. -/
structure Reader where
  mode : Mode
  frames : List Frame

namespace Reader

def start : Reader := ⟨.value, []⟩

def maxOuter : Nat := 126

def isBlank (c : Char) : Bool := c = ' ' || c = '\t' || c = '\n' || c = '\r'

def complete (v : Json) : List Frame → Option Reader
  | [] => some ⟨.done v, []⟩
  | .array items :: r => some ⟨.after, .array (v :: items) :: r⟩
  | .member members name :: r =>
    some ⟨.after, .object (do return (← name, v) :: (← members)) :: r⟩
  | .object _ :: _ => none

def beginValue (c : Char) (frames : List Frame) : Option Reader :=
  match c with
  | '"' => some ⟨.string false [], frames⟩
  | '[' => some ⟨.firstItem, .array [] :: frames⟩
  | '\x7b' => some ⟨.firstName, .object (some []) :: frames⟩
  | 't' => some ⟨.word ['r', 'u', 'e'] (.bool true), frames⟩
  | 'f' => some ⟨.word ['a', 'l', 's', 'e'] (.bool false), frames⟩
  | 'n' => some ⟨.word ['u', 'l', 'l'] .null, frames⟩
  | c => if c = '-' || Numeral.isDigit c then some ⟨.number [c], frames⟩ else none

def close (v : Json) (outer : List Frame) : Option Reader :=
  complete (if outer.drop maxOuter matches [] then v else .unreadable) outer

def closeArray : List Frame → Option Reader
  | .array items :: r => close (.arr items.reverse) r
  | _ => none

def closeObject : List Frame → Option Reader
  | .object (some members) :: r => close (.obj members.reverse) r
  | .object none :: r => close .unreadable r
  | _ => none

def settle (r : Reader) (c : Char) : Option Reader :=
  if isBlank c then some r
  else match r.mode, c, r.frames with
    | .after, ',', .array items :: rest => some ⟨.value, .array items :: rest⟩
    | .after, ',', .object members :: rest => some ⟨.name, .object members :: rest⟩
    | .after, ']', frames => closeArray frames
    | .after, '\x7d', frames => closeObject frames
    | _, _, _ => none

def closeString (isName : Bool) (read : List Piece) (frames : List Frame) : Option Reader :=
  let s := (Piece.joinReversed [] read).map String.ofList
  if isName then some ⟨.colon s, frames⟩ else complete (s.elim .unreadable .str) frames

def number (read : List Char) : Option Json :=
  (Number.ofLiteral read.reverse).map fun n => n.elim .unreadable .num

def escaped : Char → Option Char
  | '"' => some '"'
  | '\\' => some '\\'
  | '/' => some '/'
  | 'b' => some '\x08'
  | 'f' => some '\x0c'
  | 'n' => some '\n'
  | 'r' => some '\r'
  | 't' => some '\t'
  | _ => none

def hexDigit (c : Char) : Option Nat :=
  if '0' ≤ c && c ≤ '9' then some (c.toNat - '0'.toNat)
  else if 'a' ≤ c && c ≤ 'f' then some (c.toNat - 'a'.toNat + 10)
  else if 'A' ≤ c && c ≤ 'F' then some (c.toNat - 'A'.toNat + 10)
  else none

def isNumberPart (c : Char) : Bool :=
  Numeral.isDigit c || c = '+' || c = '-' || c = '.' || c = 'e' || c = 'E'

def feed (r : Reader) (c : Char) : Option Reader :=
  match r.mode with
  | .value => if isBlank c then some r else beginValue c r.frames
  | .firstItem =>
    if isBlank c then some r else if c = ']' then closeArray r.frames else beginValue c r.frames
  | .name =>
    if isBlank c then some r else if c = '"' then some ⟨.string true [], r.frames⟩ else none
  | .firstName =>
    if isBlank c then some r
    else if c = '"' then some ⟨.string true [], r.frames⟩
    else if c = '\x7d' then closeObject r.frames else none
  | .colon name =>
    if isBlank c then some r
    else match c, r.frames with
      | ':', .object members :: rest => some ⟨.value, .member members name :: rest⟩
      | _, _ => none
  | .after | .done _ => settle r c
  | .string isName read =>
    if c = '"' then closeString isName read r.frames
    else if c = '\\' then some ⟨.escape isName read, r.frames⟩
    else if c.toNat < 0x20 then none
    else some ⟨.string isName (.char c :: read), r.frames⟩
  | .escape isName read =>
    if c = 'u' then some ⟨.hex isName read 0 0, r.frames⟩
    else (escaped c).map fun e => ⟨.string isName (.char e :: read), r.frames⟩
  | .hex isName read unit digits => do
    let unit := 16 * unit + (← hexDigit c)
    if digits = 3 then return ⟨.string isName (.ofUnit unit :: read), r.frames⟩
    else return ⟨.hex isName read unit (digits + 1), r.frames⟩
  | .number read =>
    if isNumberPart c then some ⟨.number (c :: read), r.frames⟩
    else do settle (← complete (← number read) r.frames) c
  | .word [] _ => none
  | .word (d :: rest) v =>
    if c ≠ d then none
    else if rest = [] then complete v r.frames
    else some ⟨.word rest v, r.frames⟩

def finish (r : Reader) : Option Json :=
  match r.mode, r.frames with
  | .done v, _ => some v
  | .number read, [] => number read
  | _, _ => none

end Reader

def parse (s : String) : Option Json := do
  let r ← s.toList.foldlM Reader.feed Reader.start
  r.finish

end BranchingTimeline.Json
