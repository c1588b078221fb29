import Bookable.Store.Transaction

/-!
# The registry of locks

Each key that is held has a lock with a queue of tickets: the first ticket holds
the lock and the others wait, first come, first served. A lock is made when its
key is asked for and dropped when its last ticket leaves, so the registry lists
exactly the keys in use. Locks are numbered as they are made: a key that is
dropped and asked for again gets another lock.
-/

namespace Bookable.Store

/-- The place of a caller in the queue of a lock, on behalf of a transaction. -/
structure Ticket where
  caller : Nat
  handle : Nat
  deriving DecidableEq, Repr

/-- A key in use. -/
structure Lock where
  key : Key
  serial : Nat
  queue : List Ticket
  deriving DecidableEq, Repr

/-- The keys in use, and the number of locks made so far. -/
structure Registry where
  locks : List Lock := []
  made : Nat := 0
  deriving DecidableEq, Repr

namespace Lock

/-- The number of those who hold or wait for a lock. -/
def users (l : Lock) : Nat := l.queue.length

def holder? (l : Lock) : Option Ticket := l.queue.head?

end Lock

namespace Registry

def lock? (g : Registry) (key : Key) : Option Lock := g.locks.find? (·.key == key)

/-- Whether a ticket holds the lock of a key. -/
def isHeldBy (g : Registry) (key : Key) (ticket : Ticket) : Bool :=
  match g.lock? key with
  | some l => l.holder? == some ticket
  | none => false

/-- Queues a ticket for a key. The ticket holds the lock at once if nobody else uses the key. -/
def enter (g : Registry) (key : Key) (ticket : Ticket) : Registry :=
  match g.lock? key with
  | none => ⟨g.locks ++ [⟨key, g.made, [ticket]⟩], g.made + 1⟩
  | some _ =>
      { g with locks := g.locks.map fun l =>
          if l.key = key then { l with queue := l.queue ++ [ticket] } else l }

/-- Takes the holder off the lock of a key. The lock passes to the first who waits, or is
dropped. -/
def leave (g : Registry) (key : Key) : Registry :=
  { g with locks := g.locks.filterMap fun l =>
      if l.key = key then
        match l.queue.drop 1 with
        | [] => none
        | rest => some { l with queue := rest }
      else some l }

/-- The keys in use with the numbers of their users, locked bookings before locked starts, and
in the order of their identifiers, or users and seconds. -/
def report (g : Registry) : List (Key × Nat) :=
  let before : Key → Key → Bool
    | .booking a, .booking b => a ≤ b
    | .booking _, .start _ _ => true
    | .start _ _, .booking _ => false
    | .start u s, .start v t => u < v || (u == v && s ≤ t)
  (g.locks.map fun l => (l.key, l.users)).mergeSort fun a b => before a.1 b.1

end Registry

end Bookable.Store
