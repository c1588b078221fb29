import Bookable.Store.Registry

/-!
# A store that serves many callers

The machine keeps the committed records, the transactions that were ever opened,
by number, and the registry of locks. Its steps are whole requests and the
beginnings and endings of transactions. A request that needs a key which is in
use by another waits: it queues a ticket and is answered later, by `resume`, when
its ticket has come to hold the lock.

Ending a transaction releases its keys, the last one locked first. The tickets
that come to hold a lock in this way are reported, in that order, so that their
callers can be resumed.
-/

namespace Bookable.Store

open Time

/-- The committed records, the transactions and the locks of a store. -/
structure Machine where
  records : Records := {}
  transactions : List Transaction := []
  registry : Registry := {}

/-- What becomes of a request: an answer, or a place in the queue of a key. -/
inductive Outcome (ρ : Type) where
  | answered (reply : ρ) (m : Machine)
  | queued (key : Key) (m : Machine)

namespace Machine

/-- The transaction of a number. A number that was never given out stands for a transaction
that has ended. -/
def transaction (m : Machine) (handle : Nat) : Transaction :=
  (m.transactions[handle]?).getD { ended := true }

def setTransaction (m : Machine) (handle : Nat) (t : Transaction) : Machine :=
  { m with transactions := m.transactions.set handle t }

/-- Opens a transaction and gives its number. -/
def begin (m : Machine) : Nat × Machine :=
  (m.transactions.length, { m with transactions := m.transactions ++ [{}] })

/-- Answers a request whose key is held. -/
def perform (m : Machine) (stamp : Stamp) (handle : Nat) (request : Request) :
    request.Reply × Machine :=
  let (reply, t) := (m.transaction handle).perform m.records stamp request
  (reply, m.setTransaction handle t)

/-- Notes that a transaction holds a key. -/
def hold (m : Machine) (handle : Nat) (key : Key) : Machine :=
  let t := m.transaction handle
  m.setTransaction handle { t with held := t.held ++ [key] }

/-- Makes a request on behalf of a transaction. A key that the transaction holds already is not
locked again. -/
def ask (m : Machine) (stamp : Stamp) (caller handle : Nat) (request : Request) :
    Outcome request.Reply :=
  let answer (m : Machine) : Outcome request.Reply :=
    let (reply, m) := m.perform stamp handle request
    .answered reply m
  match keyOf? request with
  | none => answer m
  | some key =>
      if key ∈ (m.transaction handle).held then answer m
      else
        let registry := m.registry.enter key ⟨caller, handle⟩
        let entered := { m with registry }
        match m.registry.lock? key with
        | none => answer (entered.hold handle key)
        | some _ => .queued key entered

/-- Answers a request that waited for a key and now holds it. -/
def resume (m : Machine) (stamp : Stamp) (handle : Nat) (key : Key) (request : Request) :
    request.Reply × Machine :=
  (m.hold handle key).perform stamp handle request

/-- Releases keys one after the other, and gives the tickets that come to hold one of them. -/
def release (m : Machine) : List Key → List Ticket × Machine
  | [] => ([], m)
  | key :: keys =>
      let registry := m.registry.leave key
      let woken := ((registry.lock? key).bind (·.holder?)).toList
      let (others, m) := release { m with registry } keys
      (woken ++ others, m)

/-- Ends a transaction and releases its keys. -/
def finish (m : Machine) (handle : Nat) (t : Transaction) : List Ticket × Machine :=
  (m.setTransaction handle { t with held := [], ended := true }).release t.held.reverse

/-- Commits a transaction. In a conflict its writes are dropped and it ends all the same. A
transaction that has ended is left as it is. -/
def commit (m : Machine) (handle : Nat) : Except Error Unit × List Ticket × Machine :=
  let t := m.transaction handle
  if t.ended then (.ok (), [], m)
  else if t.conflicts m.records then
    let (woken, m) := m.finish handle t.cleared
    (.error .alreadyBooked, woken, m)
  else
    let (woken, m) := { m with records := t.publish m.records }.finish handle t
    (.ok (), woken, m)

/-- Drops the writes of a transaction and ends it. A transaction that has ended is left as it
is. -/
def rollback (m : Machine) (handle : Nat) : List Ticket × Machine :=
  let t := m.transaction handle
  if t.ended then ([], m) else m.finish handle t.cleared

end Machine

end Bookable.Store
