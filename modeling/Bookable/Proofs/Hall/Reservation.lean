import Bookable.Proofs.Hall.Pledge
import Bookable.Proofs.Slots.Admission

/-!
# Making and cancelling a booking among others

Between the requests of a reservation its peers take their turns, so each of its reads
is answered from other records than the one before. What it decides is nevertheless a
function of what it read, `accept`, which takes the rules from one state of the records
and the bookings from another. The two theorems of this file read the programs of the
services once: whatever a reservation or a cancellation is to promise follows from what
it may rely on between the reads that it makes.
-/

namespace Bookable

open Store Time

variable {α : Type}

/-! ## The programs, request by request -/

/-- What is left of a reservation when its start was looked up. -/
def reserve (request : BookingRequest) : Option String → Program Booking
  | some _ => .fail .alreadyBooked
  | none =>
      (Program.ofExcept (revalidated request)).bind fun window =>
        (Service.slotsWithin request.user window).bind fun slots =>
          if slots.any (·.isFrom request.start request.stop) then
            .ask (.insertBooking request) .done
          else .fail .slotNotAvailable

theorem slotsWithin_eq (user : String) (window : Interval) :
    Service.slotsWithin user window = .ask (.rulesOf user) fun rules =>
      if rules.isEmpty then .done []
      else (Program.ofExcept (expand rules window)).bind fun candidates =>
        if candidates.isEmpty then .done []
        else (Program.ofExcept (lookupRange window candidates)).bind fun range =>
          .ask (.confirmedWithin user range.start range.stop) fun bookings =>
            .done (removeBooked candidates bookings) := rfl

theorem createBooking_eq (request : BookingRequest) :
    Service.createBooking request =
      if Service.hasEmail request.email then
        if request.start < request.stop then
          Program.transaction
            (.ask (.confirmedAt request.user request.start true) (reserve request))
        else .fail .requestNotOrdered
      else .fail .emailMissing := by
  rw [Service.createBooking]
  split
  · split
    · refine congrArg Program.transaction (congrArg (Program.ask _) (funext fun reply => ?_))
      cases reply with
      | some id => rfl
      | none =>
          unfold reserve revalidated Service.slotsThrough
          generalize inCalendar (request.start.shift? (-Service.revalidationMargin)) = first
          generalize inCalendar (request.stop.shift? Service.revalidationMargin) = last
          cases first with
          | error cause => rfl
          | ok first =>
              cases last with
              | error cause => rfl
              | ok last =>
                  rw [ok_bind, ok_bind]
                  show ((Program.ofExcept (Service.window first last)).bind
                    (Service.slotsWithin request.user)).bind _ =
                      (Program.ofExcept (Service.window first last)).bind _
                  cases Service.window first last <;> rfl
    · rfl
  · rfl

theorem cancelBooking_eq (id : String) :
    Service.cancelBooking id = Program.transaction (.ask (.statusOf id) fun
      | none => .fail .bookingNotFound
      | some .cancelled => .fail .alreadyCancelled
      | some .confirmed => .ask (.cancelBooking id) fun count =>
          if count = 0 then .fail .bookingNotFound else .done ()) := by
  rw [Service.cancelBooking]
  refine congrArg Program.transaction (congrArg (Program.ask _) (funext fun reply => ?_))
  rcases reply with _ | _ | _
  · rfl
  · rfl
  · rfl

/-- Free slots are derived from the rules of one moment and the bookings of a later one. -/
theorem keeps_slotsWithin {peers : Peers} {pledge : Pledge (List Interval)} {user : String}
    {window : Interval} {held : List Key} {r : Records}
    (h : ∀ r₁ r₂, peers.may { held } r r₁ → peers.may { held } r₁ r₂ →
      match freeWithin (r₁.rulesOf user) (r₂.load user) window with
      | .ok slots => pledge.ends slots (some { held }) r₂
      | .error cause => ∀ r', peers.may { held } r₂ r' → pledge.fails cause r') :
    (Service.slotsWithin user window).Keeps peers pledge (some { held }) r := by
  rw [slotsWithin_eq]
  intro r₁ stamp hmay _
  simp only [Transaction.locked, keyOf?, Transaction.perform, Transaction.view_blank]
  have hnow := h r₁ r₁ hmay (peers.refl _ _)
  cases hempty : (r₁.rulesOf user).isEmpty with
  | true =>
      rw [freeWithin, hempty] at hnow
      exact hnow
  | false =>
      rw [freeWithin_eq _ _ hempty] at hnow
      rw [if_neg Bool.false_ne_true]
      cases hexpand : expand (r₁.rulesOf user) window with
      | error cause =>
          rw [hexpand, error_bind] at hnow
          exact hnow
      | ok candidates =>
          rw [hexpand, ok_bind] at hnow
          show Program.Keeps peers pledge (if candidates.isEmpty = true then _ else _) _ _
          cases hnone : candidates.isEmpty with
          | true =>
              rw [hnone] at hnow
              exact hnow
          | false =>
              rw [hnone] at hnow
              rw [if_neg Bool.false_ne_true]
              cases hrange : lookupRange window candidates with
              | error cause =>
                  rw [hrange] at hnow
                  exact hnow
              | ok range =>
                  intro r₂ stamp' hmay' _
                  simp only [Transaction.locked, keyOf?, Transaction.perform,
                    Transaction.view_blank]
                  have hlater := h r₁ r₂ hmay hmay'
                  rw [freeWithin_eq _ _ hempty, hexpand, ok_bind, hnone, hrange] at hlater
                  exact hlater

/-! ## Reservations -/

namespace BookingRequest

/-- The key of the start of a request. -/
def key (request : BookingRequest) : Key := .start request.user request.start.unixSecond

/-- The transaction of a reservation after the lookup. -/
def holding (request : BookingRequest) : Transaction := { held := [request.key] }

/-- The transaction of a reservation after the insertion. -/
def booking (request : BookingRequest) (stamp : Stamp) : Transaction :=
  { held := [request.key], newBookings := [newBooking stamp request] }

end BookingRequest

/-- A reservation that has found its start free is decided by the rules of one moment and the
bookings of a later one, and inserts its booking if it is accepted. -/
theorem keeps_reserve {peers : Peers} {pledge : Pledge Booking} {request : BookingRequest}
    {r₁ : Records}
    (h : ∀ r₂ r₃, peers.may request.holding r₁ r₂ → peers.may request.holding r₂ r₃ →
      match accept (r₂.rulesOf request.user) (r₃.load request.user) request with
      | .error cause => ∀ r', peers.may request.holding r₃ r' → pledge.fails cause r'
      | .ok () => ∀ r₄ stamp, peers.may request.holding r₃ r₄ → peers.stamps r₄ stamp →
          pledge.ends (newBooking stamp request) (some (request.booking stamp)) r₄) :
    (reserve request none).Keeps peers pledge (some request.holding) r₁ := by
  unfold accept at h
  cases hwindow : revalidated request with
  | error cause =>
      have hrefused := h r₁ r₁ (peers.refl _ _) (peers.refl _ _)
      rw [hwindow, error_bind] at hrefused
      rw [reserve, hwindow]
      exact hrefused
  | ok window =>
      rw [reserve, hwindow]
      show ((Service.slotsWithin request.user window).bind _).Keeps _ _ _ _
      rw [Program.keeps_bind]
      refine keeps_slotsWithin fun r₂ r₃ hmay₂ hmay₃ => ?_
      have hdecided := h r₂ r₃ hmay₂ hmay₃
      rw [hwindow, ok_bind] at hdecided
      cases hslots : freeWithin (r₂.rulesOf request.user) (r₃.load request.user) window with
      | error cause =>
          rw [hslots, error_bind] at hdecided
          exact hdecided
      | ok slots =>
          rw [hslots, ok_bind] at hdecided
          show Program.Keeps _ _ (if _ then _ else _) _ _
          split
          · next hslot =>
              rw [if_pos hslot] at hdecided
              exact hdecided
          · next hslot =>
              rw [if_neg hslot] at hdecided
              exact hdecided

/-- What a reservation comes to: it is refused at once, or its start is taken, or it is decided by
rules and bookings that were read later on, and if it is not refused then, its booking is
committed. -/
theorem keeps_createBooking {peers : Peers} {pledge : Pledge Booking}
    {request : BookingRequest} {r : Records}
    (hemail : Service.hasEmail request.email = false →
      ∀ r', peers.may {} r r' → pledge.fails .emailMissing r')
    (hord : ¬ request.start < request.stop →
      ∀ r', peers.may {} r r' → pledge.fails .requestNotOrdered r')
    (htaken : ∀ r₁ id, peers.may {} r r₁ →
      r₁.confirmedAt request.user request.start = some id →
      ∀ r', peers.may request.holding r₁ r' → pledge.fails .alreadyBooked r')
    (hfree : Service.hasEmail request.email = true → request.start < request.stop →
      ∀ r₁ r₂ r₃, peers.may {} r r₁ →
      r₁.confirmedAt request.user request.start = none →
      peers.may request.holding r₁ r₂ → peers.may request.holding r₂ r₃ →
      match accept (r₂.rulesOf request.user) (r₃.load request.user) request with
      | .error cause => ∀ r', peers.may request.holding r₃ r' → pledge.fails cause r'
      | .ok () => ∀ stamp r₄ r₅, peers.may request.holding r₃ r₄ → peers.stamps r₄ stamp →
          peers.may (request.booking stamp) r₄ r₅ →
          if (request.booking stamp).conflicts r₅ then
            pledge.clashes (request.booking stamp) r₅ ∧ pledge.fails .alreadyBooked r₅
          else
            pledge.commits (request.booking stamp) (.done (newBooking stamp request)) r₅ ∧
              pledge.ends (newBooking stamp request) none
                ((request.booking stamp).publish r₅)) :
    (Service.createBooking request).Keeps peers pledge none r := by
  rw [createBooking_eq]
  by_cases hgiven : Service.hasEmail request.email = true
  · rw [if_pos hgiven]
    by_cases hordered : request.start < request.stop
    · rw [if_pos hordered]
      intro r₀ hmay₀ r₁ stamp₁ hmay₁ _
      have hmay := peers.trans hmay₀ hmay₁
      have hlocked : ({} : Transaction).locked (.confirmedAt request.user request.start true) =
          request.holding := rfl
      have hview : ∀ r, request.holding.view r = r := Transaction.view_blank _
      simp only [hlocked, Transaction.perform, hview]
      rw [Program.keeps_bind]
      cases hlookup : r₁.confirmedAt request.user request.start with
      | some id => exact htaken r₁ id hmay hlookup
      | none =>
          refine keeps_reserve fun r₂ r₃ hmay₂ hmay₃ => ?_
          have hdecided := hfree hgiven hordered r₁ r₂ r₃ hmay hlookup hmay₂ hmay₃
          cases haccept : accept (r₂.rulesOf request.user) (r₃.load request.user) request with
          | error cause =>
              rw [haccept] at hdecided
              exact hdecided
          | ok accepted =>
              rw [haccept] at hdecided
              intro r₄ stamp hmay₄ hstamp r₅ hmay₅
              exact hdecided stamp r₄ r₅ hmay₄ hstamp hmay₅
    · rw [if_neg hordered]
      exact hord hordered
  · rw [if_neg hgiven]
    exact hemail (Bool.eq_false_iff.mpr hgiven)

/-! ## Cancellations -/

/-- The transaction of a cancellation after its key was locked. -/
def cancelling (id : String) (cancelled : List String) : Transaction :=
  { held := [.booking id], cancelled }

theorem keeps_cancelBooking {peers : Peers} {pledge : Pledge Unit} {id : String} {r : Records}
    (hnone : ∀ r₁, peers.may {} r r₁ → r₁.statusOf id = none →
      ∀ r', peers.may {} r₁ r' → pledge.fails .bookingNotFound r')
    (hcancelled : ∀ r₁, peers.may {} r r₁ → r₁.statusOf id = some .cancelled →
      ∀ r', peers.may {} r₁ r' → pledge.fails .alreadyCancelled r')
    (hconfirmed : ∀ r₁ r₂, peers.may {} r r₁ → r₁.statusOf id = some .confirmed →
      peers.may {} r₁ r₂ →
      if r₂.statusOf id = some .confirmed then
        ∀ r₃, peers.may (cancelling id [id]) r₂ r₃ →
          pledge.commits (cancelling id [id]) (.done ()) r₃ ∧
            pledge.ends () none ((cancelling id [id]).publish r₃)
      else ∀ r', peers.may (cancelling id []) r₂ r' → pledge.fails .bookingNotFound r') :
    (Service.cancelBooking id).Keeps peers pledge none r := by
  rw [cancelBooking_eq]
  intro r₀ hmay₀ r₁ stamp₁ hmay₁ _
  have hlocked : ({} : Transaction).locked (.statusOf id) = {} := rfl
  have hblank : ∀ r, ({} : Transaction).view r = r := Transaction.view_blank _
  have hmay := peers.trans hmay₀ hmay₁
  simp only [hlocked, Transaction.perform, hblank]
  cases hstatus : r₁.statusOf id with
  | none => exact hnone r₁ hmay hstatus
  | some status =>
      cases status with
      | cancelled => exact hcancelled r₁ hmay hstatus
      | confirmed =>
          intro r₂ stamp₂ hmay₂ _
          have hdecided := hconfirmed r₁ r₂ hmay hstatus hmay₂
          have hkey : ({} : Transaction).locked (.cancelBooking id) = cancelling id [] := rfl
          have hview : ∀ r, (cancelling id []).view r = r := Transaction.view_blank _
          simp only [hkey, Transaction.perform, hview]
          split
          · next h =>
              rw [if_pos h] at hdecided
              intro r₃ hmay₃
              exact hdecided r₃ hmay₃
          · next h =>
              rw [if_neg (fun h' => h h')] at hdecided
              exact hdecided

end Bookable
