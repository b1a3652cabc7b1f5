/-
Idl/Span.lean

Positions and spans.

All source files of a run share one line of positions: each file owns a range of it, and a
position names a byte of one file.  Zero is the position of nothing.  A span is a half-open
interval of positions.
-/

namespace Idl

/-- A position in the files of a run; 0 is the position of nothing. -/
abbrev Pos := Nat

/-- Whether `p` is the position of something. -/
def Pos.isValid (p : Pos) : Bool := p != 0

/-- The positions from `start` up to, but not including, `stop`. -/
structure Span where
  start : Pos
  stop : Pos
  deriving DecidableEq, Repr, Inhabited

namespace Span

/-- The empty span at a position. -/
def ofPos (p : Pos) : Span := ⟨p, p⟩

/-- The span of `width` bytes from `p` on. -/
def ofWidth (p : Pos) (width : Nat) : Span := ⟨p, p + width⟩

/-- The number of bytes covered. -/
def length (s : Span) : Nat := s.stop - s.start

/-- Whether no byte is covered. -/
def isEmpty (s : Span) : Bool := s.start == s.stop

/-- Whether `t` lies inside `s`. -/
def contains (s t : Span) : Bool := s.start ≤ t.start && t.stop ≤ s.stop

/-- The smallest span around both. -/
def merge (s t : Span) : Span := ⟨min s.start t.start, max s.stop t.stop⟩

/-- The span as offsets from `base`; what lies before `base` is moved to it. -/
def relativeTo (s : Span) (base : Pos) : Span := ⟨s.start - base, s.stop - base⟩

end Span

end Idl
