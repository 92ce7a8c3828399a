import BranchingTimeline.Proofs.Script.Scoping
import BranchingTimeline.Proofs.Script.Words

namespace BranchingTimeline

namespace Piece

def ends (p : Piece) : Bool := p.closes && !p.isRemark && !p.appends

variable {p q : Piece} {ps rs : List Piece}

end Piece

namespace Emit

open Node Piece

end Emit

end BranchingTimeline
