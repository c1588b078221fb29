import Bookable.Proofs.Store.Registry
import Bookable.Session

/-!
# Calls that take turns

A desk serves a program until it ends or waits. Here the same program is served a turn
at a time: a turn is one request, or the beginning or the ending of a transaction, and
between two turns of one caller others may take theirs. That the turns of one caller
without anybody else's come to what the desk does is the first theorem.

A hall is a machine with any number of calls that are served in this way, in any order.
An identifier that a turn is offered is a new one. Nothing is promised about the order
in which those who wait for a key are served. The calls that have committed are listed
in the order of their commits.
-/

namespace Bookable.Store

open Time

variable {α : Type}

/-- Where a program stands between two turns. -/
inductive Stage (α : Type) where
  | active (program : Program α) (place? : Option Place)
  | waiting (key : Key) (request : Request) (next : request.Reply → Program α) (place : Place)
  | ended (result : Except Error α)

/-- Where a program stands that a desk has served as far as it could. -/
def Progress.stage : Progress α → Stage α
  | .ended result => .ended result
  | .waiting key request next place => .waiting key request next place

/-- The machine after a failing program has left. -/
def Machine.abandon (m : Machine) : Option Place → Machine
  | some ⟨handle, true⟩ => (m.rollback handle).2
  | _ => m

namespace Stage

/-- A turn. Who waits goes on only if its ticket has come to hold the key. -/
def step (caller : Nat) (stamp : Stamp) : Stage α → Machine → Stage α × Machine
  | .active (.done result) _, m => (.ended (.ok result), m)
  | .active (.fail cause) place?, m => (.ended (.error cause), m.abandon place?)
  | .active (.opening next) _, m => (.active next (some ⟨m.begin.1, true⟩), m.begin.2)
  | .active (.ask request next) (some place), m =>
      match m.ask stamp caller place.handle request with
      | .answered reply m => (.active (next reply) (some place), m)
      | .queued key m => (.waiting key request next place, m)
  | .active (.ask _ _) none, m => (.ended (.error .abandoned), m)
  | .active (.closing next) (some place), m =>
      match m.commit place.handle with
      | (.ok (), _, m) => (.active next none, m)
      | (.error cause, _, m) => (.ended (.error cause), m)
  | .active (.closing _) none, m => (.ended (.error .abandoned), m)
  | .waiting key request next place, m =>
      if m.registry.isHeldBy key ⟨caller, place.handle⟩ then
        let (reply, m) := m.resume stamp place.handle key request
        (.active (next reply) (some place), m)
      else (.waiting key request next place, m)
  | .ended result, m => (.ended result, m)

def isEnded : Stage α → Bool
  | .ended _ => true
  | _ => false

/-- The turns of one caller without anybody else's. -/
def turns (caller : Nat) : List Stamp → Stage α → Machine → Stage α × Machine
  | [], s, m => (s, m)
  | stamp :: stamps, s, m =>
      turns caller stamps (s.step caller stamp m).1 (s.step caller stamp m).2

theorem step_closing (caller : Nat) (stamp : Stamp) (next : Program α) (place : Place)
    (m : Machine) :
    (step caller stamp (.active (.closing next) (some place)) m).2 =
      (m.commit place.handle).2.2 := by
  rw [step]
  split <;> next h => rw [h]

/-- Where a program goes on after a commit, or ends with a conflict. -/
theorem stage_closing (caller : Nat) (stamp : Stamp) (next : Program α) {place : Place}
    {m : Machine} (h : (m.transaction place.handle).ended = false) :
    (step caller stamp (.active (.closing next) (some place)) m).1 =
      if (m.transaction place.handle).conflicts m.records then
        .ended (.error .alreadyBooked)
      else .active next none := by
  have houtcome := Machine.commit_outcome h
  rw [step]
  split
  · next hcommit =>
      rw [hcommit] at houtcome
      split at houtcome
      · cases houtcome
      · next hclear => rw [if_neg hclear]
  · next hcommit =>
      rw [hcommit] at houtcome
      split at houtcome
      · next hconflict =>
          cases houtcome
          rw [if_pos hconflict]
      · cases houtcome

end Stage

/-! ## What a desk does -/

theorem Desk.machine_abandon (d : Desk) (place? : Option Place) :
    (d.abandon place?).machine = d.machine.abandon place? := by
  rcases place? with _ | ⟨handle, _ | _⟩ <;> rfl

/-- Serving a program is taking its turns, one after the other. -/
theorem Desk.serve_eq_turns (caller : Nat) (p : Program α) :
    ∀ (place? : Option Place) (d : Desk), ∃ stamps,
      Stage.turns caller stamps (.active p place?) d.machine =
        ((d.serve caller p place?).1.stage, (d.serve caller p place?).2.machine) := by
  induction p with
  | done result => exact fun place? d => ⟨[d.supply.stamp], rfl⟩
  | fail cause =>
      intro place? d
      refine ⟨[d.supply.stamp], ?_⟩
      rw [Desk.serve, Desk.machine_abandon]
      rfl
  | opening next ih =>
      intro place? d
      obtain ⟨stamps, h⟩ := ih (some ⟨d.machine.begin.1, true⟩)
        { d with machine := d.machine.begin.2 }
      exact ⟨d.supply.stamp :: stamps, h⟩
  | ask request next ih =>
      intro place? d
      cases place? with
      | none => exact ⟨[d.supply.stamp], rfl⟩
      | some place =>
          cases hask : d.machine.ask d.supply.stamp caller place.handle request with
          | answered reply machine =>
              obtain ⟨stamps, h⟩ := ih reply (some place)
                { d with machine, supply := d.supply.after request }
              refine ⟨d.supply.stamp :: stamps, ?_⟩
              rw [Stage.turns, Stage.step, hask, Desk.serve]
              simp only [hask]
              exact h
          | queued key machine =>
              refine ⟨[d.supply.stamp], ?_⟩
              rw [Stage.turns, Stage.step, hask, Desk.serve]
              simp only [hask]
              rfl
  | closing next ih =>
      intro place? d
      cases place? with
      | none => exact ⟨[d.supply.stamp], rfl⟩
      | some place =>
          rcases hcommit : d.machine.commit place.handle with ⟨_ | _, woken, machine⟩
          · refine ⟨[d.supply.stamp], ?_⟩
            rw [Stage.turns, Stage.step, hcommit, Desk.serve]
            simp only [hcommit]
            rfl
          · obtain ⟨stamps, h⟩ := ih none { d with machine, ready := d.ready ++ woken }
            refine ⟨d.supply.stamp :: stamps, ?_⟩
            rw [Stage.turns, Stage.step, hcommit, Desk.serve]
            simp only [hcommit]
            exact h

/-! ## Calls -/

/-- A call of a service. -/
inductive Call where
  | setAvailability (user : String) (drafts : List RuleDraft)
  | updateAvailability (user id : String) (changes : RuleChanges)
  | listAvailability (user : String)
  | listSlots (user : String) (start stop : Instant)
  | listBookings (user : String) (start stop : Option Instant)
  | createBooking (request : BookingRequest)
  | cancelBooking (id : String)

def Call.program : Call → Program Answer
  | setAvailability user drafts => (Service.setAvailability user drafts).bind (.done ∘ .rules)
  | updateAvailability user id changes =>
      (Service.updateAvailability user id changes).bind (.done ∘ .rule ∘ some)
  | listAvailability user => (Service.listAvailability user).bind (.done ∘ .rules)
  | listSlots user start stop => (Service.listSlots user start stop).bind (.done ∘ .slots)
  | listBookings user start stop =>
      (Service.listBookings user start stop).bind (.done ∘ .bookings)
  | createBooking request => (Service.createBooking request).bind (.done ∘ .booking)
  | cancelBooking id => (Service.cancelBooking id).bind fun () => .done .nothing

/-- A call and where it stands. -/
structure Visit where
  call : Call
  stage : Stage Answer

/-- A machine, the calls that are served at it, by number, and the numbers of those that have
committed, in the order of their commits. -/
structure Hall where
  machine : Machine := {}
  visits : List Visit := []
  commits : List Nat := []

/-- What can happen in a hall. -/
inductive Event where
  /-- A call comes in. -/
  | call (call : Call)
  /-- A caller takes a turn, and a stamp is there in case it writes. -/
  | turn (stamp : Stamp) (caller : Nat)
  /-- The tickets of a key change places. -/
  | reorder (key : Key) (queue : List Ticket)

/-- The call that comes in by an event. -/
def Event.call? : Event → Option Call
  | .call made => some made
  | _ => none

/-- Whether some record has an identifier, be it committed or still in a transaction. -/
def Machine.inUse (m : Machine) (id : String) : Bool :=
  m.records.rules.any (·.id == some id) || m.records.bookings.any (·.id == id) ||
    m.transactions.any fun t =>
      t.newRules.any (·.id == some id) || t.newBookings.any (·.id == id)

def Stage.commits (s : Stage α) (m : Machine) : Bool :=
  match s with
  | .active (.closing _) (some place) => m.publishes place.handle
  | _ => false

namespace Hall

/-- The hall after an event. A turn of nobody, or with an identifier that is not new, is none. -/
def take (h : Hall) : Event → Hall
  | .call call => { h with visits := h.visits ++ [⟨call, .active call.program none⟩] }
  | .turn stamp caller =>
      match h.visits[caller]? with
      | none => h
      | some v =>
          if h.machine.inUse stamp.id then h
          else
            { machine := (v.stage.step caller stamp h.machine).2
              visits := h.visits.set caller
                { v with stage := (v.stage.step caller stamp h.machine).1 }
              commits := if v.stage.commits h.machine then h.commits ++ [caller] else h.commits }
  | .reorder key queue => { h with machine := h.machine.reorder key queue }

def run (h : Hall) (events : List Event) : Hall := events.foldl take h

theorem run_append (h : Hall) (past events : List Event) :
    h.run (past ++ events) = (h.run past).run events :=
  List.foldl_append

/-- A turn is none, or a turn of a call with a stamp that is not in use. -/
theorem take_turn_cases (h : Hall) (stamp : Stamp) (caller : Nat) :
    h.take (.turn stamp caller) = h ∨ ∃ v, h.visits[caller]? = some v ∧
      h.machine.inUse stamp.id = false ∧ h.take (.turn stamp caller) =
        { machine := (v.stage.step caller stamp h.machine).2
          visits := h.visits.set caller
            { v with stage := (v.stage.step caller stamp h.machine).1 }
          commits := if v.stage.commits h.machine then h.commits ++ [caller] else h.commits } := by
  rw [take]
  split
  · exact Or.inl rfl
  · next v hv =>
      split
      · exact Or.inl rfl
      · next hnew => exact Or.inr ⟨v, hv, Bool.not_eq_true _ ▸ hnew, rfl⟩

theorem take_turn {h : Hall} {caller : Nat} {v : Visit} (hv : h.visits[caller]? = some v) {stamp : Stamp}
    (hstamp : h.machine.inUse stamp.id = false) :
    (h.take (.turn stamp caller)).machine = (v.stage.step caller stamp h.machine).2 ∧
      (h.take (.turn stamp caller)).visits = h.visits.set caller
        { v with stage := (v.stage.step caller stamp h.machine).1 } := by
  rw [take, hv]
  simp only []
  rw [if_neg (by rw [hstamp]; exact Bool.false_ne_true)]
  exact ⟨rfl, rfl⟩

theorem mem_commits_take {h : Hall} {caller : Nat} (hmem : caller ∈ h.commits) (event : Event) :
    caller ∈ (h.take event).commits := by
  cases event with
  | call call => exact hmem
  | reorder key queue => exact hmem
  | turn stamp other =>
      rcases h.take_turn_cases stamp other with heq | ⟨v, -, -, heq⟩
      · rw [heq]
        exact hmem
      · rw [heq]
        show caller ∈ (if _ then _ else _)
        split
        · exact List.mem_append_left _ hmem
        · exact hmem

theorem mem_commits_run {h : Hall} {caller : Nat} (hmem : caller ∈ h.commits)
    (events : List Event) : caller ∈ (h.run events).commits := by
  induction events generalizing h with
  | nil => exact hmem
  | cons event events ih => exact ih (mem_commits_take hmem event)

theorem calls_take (h : Hall) (event : Event) :
    (h.take event).visits.map Visit.call = h.visits.map Visit.call ++ event.call?.toList := by
  cases event with
  | call call =>
      rw [take, List.map_append]
      rfl
  | reorder key queue => exact (List.append_nil _).symm
  | turn stamp caller =>
      show _ = h.visits.map Visit.call ++ []
      rw [List.append_nil, take]
      split
      · rfl
      · next v hv =>
          split
          · rfl
          · obtain ⟨hlt, rfl⟩ := List.getElem?_eq_some_iff.mp hv
            rw [List.map_set]
            show (h.visits.map Visit.call).set caller (Visit.call h.visits[caller]) = _
            rw [← List.map_set, List.set_getElem_self]

theorem exists_visit_take {h : Hall} {caller : Nat} {v : Visit}
    (hv : h.visits[caller]? = some v) (event : Event) :
    ∃ w, (h.take event).visits[caller]? = some w ∧ w.call = v.call := by
  have hcall : (h.visits.map Visit.call)[caller]? = some v.call := by
    rw [List.getElem?_map, hv]
    rfl
  have hlt := (List.getElem?_eq_some_iff.mp hcall).1
  have hstill : ((h.take event).visits.map Visit.call)[caller]? = some v.call := by
    rw [calls_take, List.getElem?_append_left hlt]
    exact hcall
  rw [List.getElem?_map] at hstill
  exact Option.map_eq_some_iff.mp hstill

/-- The calls in a hall are those that have come in, in their order. -/
theorem calls_run (h : Hall) (events : List Event) :
    (h.run events).visits.map Visit.call =
      h.visits.map Visit.call ++ events.filterMap Event.call? := by
  induction events generalizing h with
  | nil => exact (List.append_nil _).symm
  | cons event events ih =>
      show ((h.take event).run events).visits.map Visit.call = _
      rw [ih, calls_take, List.append_assoc, List.filterMap_cons]
      cases event.call? <;> rfl

/-- Where the call of a caller stands. -/
def stage? (h : Hall) (caller : Nat) : Option (Stage Answer) :=
  h.visits[caller]?.map Visit.stage

def Finished (h : Hall) : Prop := ∀ v ∈ h.visits, v.stage.isEnded = true

instance (h : Hall) : Decidable h.Finished := by unfold Finished; infer_instance

end Hall

/-- A machine as calls of services can leave it, when none of them is served any more. -/
def Machine.Settled (m : Machine) : Prop :=
  ∃ events, (Hall.run {} events).Finished ∧ (Hall.run {} events).machine = m

theorem horizon_pos : 0 < horizon := by decide

/-- A turn at the beginning of the calendar. -/
def Event.turnOf (caller : Nat) (id : String) : Event := .turn ⟨⟨0, horizon_pos⟩, id⟩ caller

def opening : List Event :=
  .call (.setAvailability "anna" [{
    dayOfWeek := .int 1, startTime := .text "10:00", endTime := .text "10:40",
    slotLength := .int 20 }]) :: ["", "rule", "", "", ""].map (.turnOf 0)

def opened : Machine := (Hall.run {} opening).machine

theorem settled_opened : opened.Settled := ⟨opening, by decide +kernel, rfl⟩

/-- The first slot of the first Monday in the calendar. -/
def firstSlot : BookingRequest where
  user := "anna"
  email := some "guest"
  start := ⟨10 * hour, by decide⟩
  stop := ⟨10 * hour + 20 * minute, by decide⟩

/-- The first slot is booked. -/
def bookedOnce : List Event :=
  opening ++ .call (.createBooking firstSlot) ::
    ["", "", "", "", "booking", "", ""].map (.turnOf 1)

end Bookable.Store
