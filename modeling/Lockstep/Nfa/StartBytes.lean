import Lockstep.Decoder
import Lockstep.Nfa.OfGraph

/-!
# Start bytes

When every transition out of the entry leads to an ASCII literal and does no work, a match begins
with one of these literals, and a scan with nothing under way may go on at the next of them. More
than three are not worth the search.
-/

namespace Lockstep

universe u

variable {α : Type u}

namespace StartBytes

def maxCount : Nat := 3

/-- The bytes with one more among them; `none` if there are too many. -/
def add? (bytes : List UInt8) (b : UInt8) : Option (List UInt8) :=
  if b ∈ bytes then some bytes
  else if bytes.length = maxCount then none
  else some (bytes ++ [b])

/-- The first offset from `offset` on at which one of the bytes stands. -/
def next? (s : StartBytes) (text : Text) (offset : Nat) : Option Nat :=
  if h : offset < text.size then
    if text[offset] ∈ s.bytes then some offset else s.next? text (offset + 1)
  else none
termination_by text.size - offset

end StartBytes

namespace Nfa

variable [Atom α]

/-- The byte that a transition's target consumes, if that is an ASCII literal and the transition
does no work. -/
def startByte? (nfa : Nfa α) (t : Transition) : Option UInt8 :=
  match t.closure, nfa.states[t.target]? with
  | none, some (.atom a) => do
    let c ← Atom.literal? a
    if c.val < 0x80 then some c.val.toUInt8 else none
  | _, _ => none

/-- The bytes the matches of an automaton begin with, in order of preference. -/
def findStartBytes? (nfa : Nfa α) : Option StartBytes := do
  let bytes ← (nfa.transitions entry).foldlM
    (fun bytes t ↦ do StartBytes.add? bytes (← nfa.startByte? t)) []
  if bytes.isEmpty then none else some ⟨bytes⟩

/-- The automaton of an expression in post-order, of a graph with at most `limit` nodes. -/
def compile (limit : Nat) (nodes : List (Node α)) : Except BuildError (Nfa α) :=
  match Graph.ofPostorder limit nodes with
  | .error e => .error e
  | .ok g =>
    let nfa := ofGraph g
    .ok { nfa with startBytes? := nfa.findStartBytes? }

/-- What is compiled is the automaton of the graph that is wired from the nodes. -/
theorem exists_of_compile {limit : Nat} {nodes : List (Node α)} {nfa : Nfa α}
    (h : compile limit nodes = .ok nfa) : ∃ g, Graph.ofPostorder limit nodes = .ok g ∧
      nfa = { ofGraph g with startBytes? := (ofGraph g).findStartBytes? } := by
  unfold compile at h
  split at h
  · cases h
  · rename_i g hgraph
    cases h
    exact ⟨g, hgraph, rfl⟩

end Nfa

end Lockstep
