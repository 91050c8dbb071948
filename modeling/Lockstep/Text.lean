/-!
# Texts

A text is a sequence of bytes. Offsets count bytes, and a span runs from its start up to its stop.
-/

namespace Lockstep

abbrev Text : Type := Array UInt8

structure Span where
  start : Nat
  stop : Nat
deriving DecidableEq, Repr

namespace Span

def length (s : Span) : Nat := s.stop - s.start

def isEmpty (s : Span) : Bool := s.start == s.stop

end Span

/-- The bytes of a span. -/
def Text.slice (text : Text) (s : Span) : Text := text.extract s.start s.stop

/-- The characters of a text that is well-formed UTF-8. -/
def Text.toString? (text : Text) : Option String := String.fromUTF8? ⟨text⟩

end Lockstep
