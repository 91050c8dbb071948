/-!
# Build errors

The two reasons for which a sequence of nodes makes no automaton.
-/

namespace Lockstep

inductive BuildError where
  /-- The node at `index`, or the whole sequence, lacks operands or leaves some over. -/
  | malformed (op : String) (index : Nat)
  /-- More than `limit` states are needed. -/
  | capacityExceeded (limit : Nat)
deriving DecidableEq, Repr

namespace BuildError

def message : BuildError → String
  | .malformed op index =>
    "malformed expression: \x60" ++ op ++ "\x60 at node " ++ toString index ++ " lacks operands"
  | .capacityExceeded limit => "automaton exceeds " ++ toString limit ++ " states"

end BuildError

end Lockstep
