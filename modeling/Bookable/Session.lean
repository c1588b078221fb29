import Bookable.Store.Desk
import Bookable.Store.Table
import Bookable.Service.Reservation

/-!
# Sessions

A session is a sequence of steps on one store. Steps set the clock, open and end
transactions by name, run programs within a named transaction, and call services.
Every step is taken by a worker. On the store with locks a worker can be left
waiting; it takes no further step until somebody else's step lets it go on. After
each step the workers that can go on do so, in the order in which their keys were
released, each until its own step ends or waits again.

The store with tables never makes anybody wait.
-/

namespace Bookable

open Time Store

/-- What a step is answered with. -/
inductive Answer where
  | nothing
  | rules (rules : List Rule)
  | rule (rule : Option Rule)
  | identifier (id : Option String)
  | slots (slots : List Interval)
  | bookings (bookings : List Booking)
  | booking (booking : Booking)
  | status (status : Option Status)
  | count (n : Nat)
  /-- The name of what interrupted a transaction. -/
  | raised (name : String)

/-- What a step does. -/
inductive Action where
  | setClock (now : Instant)
  | begin (name : String)
  | commit (name : String)
  | rollback (name : String)
  /-- Leaves the scope of a transaction, by an interruption if one is named. -/
  | leave (name : String) (interruption : Option String)
  /-- Runs a program within a named transaction. -/
  | within (name : String) (program : Program Answer)
  /-- Calls a service. -/
  | call (program : Program Answer)

/-- How a step went. -/
inductive Response where
  | ended (result : Except Error Answer)
  /-- The step waits. -/
  | blocked
  /-- The worker still waits in an earlier step. -/
  | busy

/-- Records by name; a later record takes the place of an earlier one. -/
def bindName {α : Type} (name : String) (a : α) (entries : List (String × α)) :
    List (String × α) :=
  (name, a) :: entries.filter (·.1 != name)

def named? {α : Type} (name : String) (entries : List (String × α)) : Option α :=
  (entries.find? (·.1 == name)).map (·.2)

namespace Session

/-- A step in which a worker waits. -/
structure Pending where
  key : Key
  request : Request
  next : request.Reply → Program Answer
  place : Place

/-- A session on the store with locks. Workers have numbers, in the order of their first
steps. -/
structure Shared where
  desk : Desk
  handles : List (String × Nat) := []
  workers : List String := []
  pending : List (Nat × Pending) := []

namespace Shared

/-- The number of a worker, and the session with the worker known. -/
def enlist (s : Shared) (worker : String) : Nat × Shared :=
  match s.workers.findIdx? (· == worker) with
  | some caller => (caller, s)
  | none => (s.workers.length, { s with workers := s.workers ++ [worker] })

/-- The session after a worker has come as far as it could. -/
def settle (s : Shared) (caller : Nat) : Progress Answer × Desk → Response × Shared
  | (.ended result, desk) => (.ended result, { s with desk })
  | (.waiting key request next place, desk) =>
      (.blocked, { s with
        desk, pending := s.pending ++ [(caller, ⟨key, request, next, place⟩)] })

def run (s : Shared) (caller : Nat) (place : Option Place) (program : Program Answer) :
    Response × Shared :=
  s.settle caller (s.desk.serve caller program place)

def handle (s : Shared) (name : String) : Nat :=
  (named? name s.handles).getD s.desk.machine.transactions.length

def commit (s : Shared) (name : String) : Response × Shared :=
  let (result, woken, machine) := s.desk.machine.commit (s.handle name)
  let desk := { s.desk with machine, ready := s.desk.ready ++ woken }
  (.ended (result.map fun () => .nothing), { s with desk })

/-- Rolls back the transaction of a name. -/
def rollback (s : Shared) (name : String) : Shared :=
  let (woken, machine) := s.desk.machine.rollback (s.handle name)
  { s with desk := { s.desk with machine, ready := s.desk.ready ++ woken } }

/-- Does what a step of a worker says. -/
def act (s : Shared) (caller : Nat) : Action → Response × Shared
  | .setClock now =>
      (.ended (.ok .nothing),
        { s with desk := { s.desk with supply := { s.desk.supply with now } } })
  | .begin name =>
      let (handle, machine) := s.desk.machine.begin
      (.ended (.ok .nothing),
        { s with desk := { s.desk with machine }, handles := bindName name handle s.handles })
  | .commit name => s.commit name
  | .rollback name => (.ended (.ok .nothing), s.rollback name)
  | .leave name none => s.commit name
  | .leave name (some interruption) => (.ended (.ok (.raised interruption)), s.rollback name)
  | .within name program => s.run caller (some ⟨s.handle name, false⟩) program
  | .call program => s.run caller none program

/-- Lets workers go on until nobody can, and tells how it went for each. `rounds` bounds their
number: a step waits at most once, so each worker that waits goes on at most once. -/
def drain : Nat → Shared → List (String × Response) × Shared
  | 0, s => ([], s)
  | rounds + 1, s =>
      match s.desk.ready with
      | [] => ([], s)
      | ticket :: ready =>
          let s := { s with desk := { s.desk with ready } }
          match s.pending.find? (·.1 == ticket.caller) with
          | none => drain rounds s
          | some (caller, p) =>
              let s := { s with pending := s.pending.filter (·.1 != caller) }
              let (response, s) :=
                s.settle caller (s.desk.resume caller p.key p.request p.next p.place)
              let (others, s) := drain rounds s
              ((s.workers.getD caller "", response) :: others, s)

/-- Takes a step of a worker, and then the steps of those who can go on. -/
def take (s : Shared) (worker : String) (action : Action) :
    Response × List (String × Response) × Shared :=
  let (caller, s) := s.enlist worker
  if s.pending.any (·.1 == caller) then (.busy, [], s)
  else
    let (response, s) := s.act caller action
    let (resumed, s) := drain s.pending.length s
    (response, resumed, s)

/-- The names of the workers that wait, in order. -/
def blocked (s : Shared) : List String :=
  (s.pending.map fun p => s.workers.getD p.1 "").mergeSort fun a b => a ≤ b

end Shared

/-- A session on the store with tables. -/
structure Tabular where
  desk : TableDesk
  works : List (String × Work) := []

namespace Tabular

/-- The transaction of a name. One that has ended reads the committed tables afresh. -/
def work (s : Tabular) (name : String) : Work :=
  match named? name s.works with
  | some w => if w.ended then { records := s.desk.records, ended := true } else w
  | none => { records := s.desk.records, ended := true }

/-- The session with the transaction of a name ended. -/
def ended (s : Tabular) (name : String) : Tabular :=
  { s with works := bindName name { s.work name with ended := true } s.works }

def commit (s : Tabular) (name : String) : Response × Tabular :=
  let (result, desk) := s.desk.commit (s.work name)
  (.ended (result.map fun () => .nothing), ({ s with desk } : Tabular).ended name)

def take (s : Tabular) : Action → Response × Tabular
  | .setClock now =>
      (.ended (.ok .nothing),
        { s with desk := { s.desk with supply := { s.desk.supply with now } } })
  | .begin name =>
      (.ended (.ok .nothing), { s with works := bindName name s.desk.begin s.works })
  | .commit name => s.commit name
  | .rollback name => (.ended (.ok .nothing), s.ended name)
  | .leave name none => s.commit name
  | .leave name (some interruption) => (.ended (.ok (.raised interruption)), s.ended name)
  | .within name program =>
      let (result, work, desk) := s.desk.serve program (some (s.work name))
      let works := match work with
        | some w => bindName name w s.works
        | none => s.works
      (.ended result, { desk, works })
  | .call program =>
      let (result, _, desk) := s.desk.serve program none
      (.ended result, { s with desk })

end Tabular

end Session

end Bookable
