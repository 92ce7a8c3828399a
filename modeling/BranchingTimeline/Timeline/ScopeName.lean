import BranchingTimeline.ItemId

namespace BranchingTimeline

def sanitize (id : ItemId) : String :=
  if id.text = "" then "item"
  else String.ofList (id.text.toList.map fun c => if c.isAlphanum then c else '_')

structure Namer where
  used : List String
deriving DecidableEq, Repr

namespace Namer

def start : Namer := ⟨[]⟩

def numbered (base : String) (n : Nat) : String := base ++ "_" ++ n.repr

/-- The first number from `n` on whose name is free, if there is one among the next `steps`. -/
def freeNumber (used : List String) (base : String) (n : Nat) : Nat → Nat
  | 0 => n
  | steps + 1 =>
    if used.contains (numbered base n) then freeNumber used base (n + 1) steps else n

def nameFor (m : Namer) (id : ItemId) : String × Namer :=
  let base := sanitize id
  let name :=
    if m.used.contains base then numbered base (freeNumber m.used base 2 m.used.length) else base
  (name, ⟨name :: m.used⟩)

end Namer

end BranchingTimeline
