import Bookable.Store.Machine
import Bookable.Store.Supply

/-!
# Serving programs on a machine

A desk is a machine with a supply of stamps and a queue of the tickets whose
callers can go on. `serve` runs a program until it ends or has to wait, and
`resume` goes on with one that waited.
-/

namespace Bookable.Store

/-- A machine at work. -/
structure Desk where
  machine : Machine := {}
  supply : Supply
  ready : List Ticket := []

/-- The transaction in which a program works: its number, and whether the program opened it
itself. -/
structure Place where
  handle : Nat
  own : Bool

/-- How far a program has come. -/
inductive Progress (α : Type) where
  | ended (result : Except Error α)
  /-- The program waits for a key that a request needs. -/
  | waiting (key : Key) (request : Request) (next : request.Reply → Program α) (place : Place)

namespace Desk

/-- Rolls back the transaction that a failing program opened. -/
def abandon (d : Desk) : Option Place → Desk
  | some ⟨handle, true⟩ =>
      let (woken, machine) := d.machine.rollback handle
      { d with machine, ready := d.ready ++ woken }
  | _ => d

/-- Runs a program until it ends or waits. -/
def serve {α : Type} (caller : Nat) :
    Program α → Option Place → Desk → Progress α × Desk
  | .done result, _, d => (.ended (.ok result), d)
  | .fail cause, place, d => (.ended (.error cause), d.abandon place)
  | .opening next, _, d =>
      let (handle, machine) := d.machine.begin
      serve caller next (some ⟨handle, true⟩) { d with machine }
  | .ask request next, place?, d =>
      match place? with
      | none => (.ended (.error .abandoned), d)
      | some place =>
          match d.machine.ask d.supply.stamp caller place.handle request with
          | .answered reply machine =>
              serve caller (next reply) place?
                { d with machine, supply := d.supply.after request }
          | .queued key machine => (.waiting key request next place, { d with machine })
  | .closing next, place?, d =>
      match place? with
      | none => (.ended (.error .abandoned), d)
      | some place =>
          let (result, woken, machine) := d.machine.commit place.handle
          let d := { d with machine, ready := d.ready ++ woken }
          match result with
          | .ok () => serve caller next none d
          | .error cause => (.ended (.error cause), d)

/-- Goes on with a program whose ticket has come to hold the key for which it waited. -/
def resume {α : Type} (d : Desk) (caller : Nat) (key : Key) (request : Request)
    (next : request.Reply → Program α) (place : Place) : Progress α × Desk :=
  let (reply, machine) := d.machine.resume d.supply.stamp place.handle key request
  serve caller (next reply) (some place) { d with machine, supply := d.supply.after request }

end Desk

end Bookable.Store
