import Bookable.Store.Records

/-!
# The supply of stamps

The time, and identifiers in a fixed order. The time may go on from one request to
the next. A request that inserts uses up one identifier, whether or not its record
stays, and no identifier is given out twice.
-/

namespace Bookable.Store

open Time

/-- Identifiers in an order, each of them once. -/
structure Names where
  name : Nat → String
  distinct : ∀ {m n}, name m = name n → m = n

/-- The identifiers `id-0001`, `id-0002` and so on. -/
def numbered : Names where
  name n := "id-" ++ Text.padded 4 (n + 1)
  distinct := by
    intro m n h
    have hlists := congrArg String.toList h
    rw [String.toList_append, String.toList_append] at hlists
    have hpadded := String.toList_inj.mp (List.append_cancel_left hlists)
    exact Nat.succ.inj (Text.padded_injective hpadded)

/-- The time, and the identifiers with the number of those used up. -/
structure Supply where
  now : Instant
  /-- The time at the requests after the next one. In the end it stands still. -/
  later : List Instant := []
  issued : Nat := 0
  names : Names := numbered

namespace Supply

def stamp (s : Supply) : Stamp := ⟨s.now, s.names.name s.issued⟩

def after (s : Supply) (request : Request) : Supply :=
  { s with
    now := s.later.headD s.now
    later := s.later.tail
    issued := if request.inserts then s.issued + 1 else s.issued }

end Supply

end Bookable.Store
