/-
Idl/Text/CharSet.lean

Sets of characters beyond ASCII, written as tables.

A set is given by the code points at which membership changes, in increasing order: the
first starts a run of members, the second ends it, and so on.  A character is a member if
an odd number of changes lies at or below it.
-/
import Idl.Bisect

namespace Idl

/-- A set of characters, as the code points at which membership changes. -/
structure CharSet where
  /-- Where runs of members start and end, in turn. -/
  bounds : Array Nat

/-- Membership: an odd number of changes lies at or below the character. -/
def CharSet.contains (s : CharSet) (c : Char) : Bool :=
  bisect (fun b => decide (b ≤ c.toNat)) s.bounds % 2 == 1

end Idl
