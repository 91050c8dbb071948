import Lockstep.Decoder.Utf8
import Lockstep.Scan.Run

/-!
# Matches

The matches of an automaton in a text, with their groups.
-/

namespace Lockstep

universe u

variable {α : Type u}

/-- The groups of one match. Group 0 is the whole match, and a group that took no part in it has
no span. -/
structure Captures where
  text : Text
  spans : Array (Option Span)
  /-- The captures mark the end of the text and are no match. -/
  synthetic : Bool
deriving DecidableEq, Repr

namespace Captures

/-- The groups of a candidate whose history is in `t`. -/
def ofCandidate (groups : Nat) (text : Text) (t : CaptureTree) (c : Candidate) : Captures :=
  ⟨text, c.resolve t groups, c.synthetic⟩

def size (c : Captures) : Nat := c.spans.size

def isEmpty (c : Captures) : Bool := c.spans.isEmpty

/-- The span of a group. -/
def span? (c : Captures) (group : Nat) : Option Span := c.spans[group]?.join

/-- The bytes of a group. -/
def bytes? (c : Captures) (group : Nat) : Option Text := (c.span? group).map c.text.slice

/-- The characters of a group, if its bytes are well-formed UTF-8. -/
def string? (c : Captures) (group : Nat) : Option String := (c.bytes? group).bind Text.toString?

/-- How a group's span is shown. -/
def showSpan : Option Span → String
  | none => "None"
  | some s => "Some(" ++ toString s.start ++ ".." ++ toString s.stop ++ ")"

/-- The spans of all groups as text. -/
def render (c : Captures) : String :=
  "[" ++ ", ".intercalate (c.spans.toList.map showSpan) ++ "]"

end Captures

namespace Round

/-- The matches of a round in text order. -/
def captureList (groups : Nat) (text : Text) (r : Round) : List Captures :=
  r.found.toList.map (Captures.ofCandidate groups text r.captures)

end Round

namespace Nfa

variable [Atom α]

/-- The first match in a UTF-8 text. -/
def find? (nfa : Nfa α) (text : Text) : Option Captures :=
  let (outcome, s) := Scan.run ⟨nfa, .utf8, text, {}⟩ 0 .empty
  match outcome with
  | .notFound => none
  | _ => s.found.toList.head?.map (Captures.ofCandidate nfa.groups text s.captures)

/-- Whether there is a match in a UTF-8 text. -/
def isMatch (nfa : Nfa α) (text : Text) : Bool :=
  (Scan.run ⟨nfa, .utf8, text, {}⟩ 0 .empty).1 ≠ .notFound

/-- All matches in a text, none of which overlap. -/
def findAll (nfa : Nfa α) (text : Text) (decoder : Decoder) (flags : ScanFlags) : List Captures :=
  (Scan.drain ⟨nfa, decoder, text, flags⟩ 0 .empty).1.flatMap (Round.captureList nfa.groups text)

end Nfa

end Lockstep
