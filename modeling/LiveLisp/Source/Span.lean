/-
  Spans: a byte range of a text, with the line and the column where it starts. Lines and columns
  count from 1 and have 32 bits, byte offsets count from 0.
-/
namespace LiveLisp

/-- A byte range `start .. stop` and the line and column where it starts. -/
structure Span where
  start : Nat
  stop : Nat
  line : UInt32
  column : UInt32
deriving DecidableEq, Repr, Inhabited

/-- The smallest range that covers both, placed where the first one is. -/
def Span.to (a b : Span) : Span :=
  ⟨min a.start b.start, max a.stop b.stop, a.line, a.column⟩

namespace Span

/-- Line and column, as listings show them. -/
def brief (s : Span) : String :=
  s!"{s.line}:{s.column}"

/-- Line and column in words. -/
def describe (s : Span) : String :=
  s!"line {s.line}, column {s.column}"

end Span

end LiveLisp
