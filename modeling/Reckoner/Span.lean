/-!
# Spans of an input line

A span is a half-open range of character offsets. The offsets of tokens read from a line lie within
the line; tokens made by hand may have any integers of 64 bits with a sign. What is computed from
offsets is such an integer again: past the greatest one the least follows.
-/

set_option autoImplicit false

namespace Reckoner

/-- The characters from `start` up to, and without, `stop`. -/
structure Span where
  start : Int
  /-- The offset behind the last character. -/
  stop : Int
  deriving DecidableEq, Repr, Inhabited

namespace Span

/-- From the start of the first span to the stop of the second. -/
def union (a b : Span) : Span :=
  ⟨a.start, b.stop⟩

/-- From the stop of the first span to the stop of the second. -/
def betweenStops (a b : Span) : Span :=
  ⟨a.stop, b.stop⟩

/-- The offset that equals an integer but for multiples of the 64-bit range. -/
def wrapped (n : Int) : Int :=
  Int.bmod n (Nat.pow 2 64)

/-- Integers of 64 bits are not changed. -/
theorem wrapped_eq {n : Int} (hlow : -9223372036854775808 ≤ n) (hhigh : n < 9223372036854775808) :
    wrapped n = n :=
  Int.bmod_eq_of_le hlow hhigh

/-- The two characters around the stop, where something was expected to follow. -/
def after (s : Span) : Span :=
  ⟨wrapped (s.stop - 1), wrapped (s.stop + 1)⟩

/-- The number of characters covered. -/
def width (s : Span) : Int :=
  wrapped (s.stop - s.start)

/-- An integer in decimal digits, with a minus sign if it is negative. -/
def intText (n : Int) : String :=
  if n < 0 then "-" ++ Nat.repr n.natAbs else Nat.repr n.natAbs

/-- The two offsets with a hyphen between them. -/
def text (s : Span) : String :=
  intText s.start ++ "-" ++ intText s.stop

end Span

end Reckoner
