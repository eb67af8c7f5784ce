import SheetPackages.World.Instant

/-!
# Spans of time

A span counts nanoseconds, as instants do. A number of seconds is a span; a span has so many whole
seconds, counted towards zero, and perhaps a fraction of one.
-/

namespace SheetPackages

structure Span where
  nanoseconds : Int
deriving DecidableEq

namespace Span

def ofSeconds (n : Int) : Span :=
  ⟨n * Instant.nanosecondsPerSecond⟩

/-- How many whole seconds there are. -/
def seconds (s : Span) : Int :=
  s.nanoseconds.tdiv Instant.nanosecondsPerSecond

instance : Coe Int Span :=
  ⟨ofSeconds⟩

instance : Coe Span Int :=
  ⟨seconds⟩

/-- The span without the fraction of a second. -/
def truncated (s : Span) : Span :=
  ofSeconds s.seconds

end Span

end SheetPackages
