import Mathlib.Data.List.Basic

/-!
# Tables of entries

A table has entries of different sizes, one behind the other. An entry says how long it is, so that
a walk can find the next one; an entry of unknown length ends the walk.
-/

namespace Labs.Records

variable (length : Nat → Option Nat)

/-- The places of the entries that a walk visits which starts at `p` and expects `n` entries. -/
def places : Nat → Nat → List Nat
  | 0, _ => []
  | n + 1, p => p :: ((length p).elim [] fun size => places n (p + size))

variable {length} {n p size : Nat}

theorem places_known (h : length p = some size) :
    places length (n + 1) p = p :: places length n (p + size) := by
  rw [places, h]
  rfl

theorem places_unknown (h : length p = none) : places length (n + 1) p = [p] := by
  rw [places, h]
  rfl

end Labs.Records
