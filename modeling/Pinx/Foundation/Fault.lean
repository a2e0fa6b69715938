import Mathlib.Init

/-!
# How a kernel routine can fail to return

A routine that does not return a value either stops the machine or keeps
looping.  Both are kept apart from the error values a routine returns to its
caller.
-/

namespace Pinx.Foundation

/-- Why a routine did not return. -/
inductive Fault where
  /-- An explicit panic with its message. -/
  | panic (msg : String)
  /-- An arithmetic operation left its type's range in a checked build. -/
  | overflow
  /-- An index or a slice bound lay outside the buffer. -/
  | outOfBounds
  /-- A loop was still running when its fuel was used up. -/
  | outOfFuel
deriving DecidableEq, Repr

end Pinx.Foundation
