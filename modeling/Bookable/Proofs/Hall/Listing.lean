import Bookable.Proofs.Hall.Race
import Bookable.Proofs.Slots.Offered
import Bookable.Proofs.Time.OfDay

/-!
# What is listed can be booked, and nothing else

The services leave tidy records behind: rules are valid, and bookings start with a
minute, since a booking is only made for a slot. On tidy records a listing and a
reservation that are served alone answer the same question, whether the records have
the slot, and neither of them is refused for the sake of a rule. So a slot is listed
in one window if and only if it is listed in every window that it overlaps, and if and
only if it is booked on request.
-/

namespace Bookable

open Store Time

/-! ## Tidy records -/

theorem Time.OfDay.ofStored?_text (t : OfDay) :
    OfDay.ofStored? (String.ofList t.text) = some t := by
  have hstored := storedTime_ofTime t
  rw [Value.ofTime, storedTime_text] at hstored
  cases hread : OfDay.ofStored? (String.ofList t.text) with
  | none =>
      rw [hread] at hstored
      cases hstored
  | some time =>
      rw [hread] at hstored
      cases hstored
      rfl

/-- The plan of a rule whose times are written as times are. -/
theorem Rule.plan?_ofTime {r : Rule} {length : Int} {start stop : OfDay}
    (hstart : r.startTime = .ofTime start) (hstop : r.endTime = .ofTime stop)
    (hlength : r.slotLength = .int length) (hord : start.minutes < stop.minutes)
    (hpos : 0 < length) : r.plan? = some ⟨start, stop, length.toNat, hord, by omega⟩ := by
  rw [plan?, hstart, hstop, hlength]
  simp only [Value.ofTime, OfDay.ofStored?_text]
  exact dif_pos ⟨hord, hpos⟩

/-- The times of a valid rule can be read back, so it has slots. -/
theorem Rule.Valid.usable {r : Rule} (h : r.Valid) : r.Usable := by
  refine ⟨h.typed, ?_⟩
  obtain ⟨day, length, start, stop, -, -, -, hlength, hpos, hstart, hstop, hord⟩ := h
  rw [plan?_ofTime hstart hstop hlength hord hpos]
  exact Option.some_ne_none _

theorem Store.Records.RulesValid.usable {r : Records} (h : r.RulesValid) (user : String) :
    ∀ rule ∈ r.rulesOf user, rule.Usable :=
  fun rule hrule => (h rule (List.mem_filter.mp hrule).1).usable

/-- New bookings start with a minute. -/
def Store.Transaction.OnMinute (t : Transaction) : Prop :=
  ∀ b ∈ t.newBookings, minute ∣ b.start.micros

/-- A transaction that leaves tidy records tidy. -/
def Store.Transaction.Tidy (t : Transaction) : Prop := t.RulesValid ∧ t.OnMinute

/-- Rules are valid and bookings start with a minute. -/
structure Store.Records.Tidy (r : Records) : Prop where
  rules : r.RulesValid
  minutes : r.OnMinute

namespace Store

theorem Records.Tidy.usable {r : Records} (h : r.Tidy) {user : String} :
    ∀ rule ∈ r.rulesOf user, rule.Usable :=
  h.rules.usable user

theorem Transaction.Tidy.publish {t : Transaction} (ht : t.Tidy) {r : Records} (hr : r.Tidy) :
    (t.publish r).Tidy := by
  refine ⟨ht.1.publish hr.rules, fun b hb => ?_⟩
  rw [Transaction.publish_bookings] at hb
  obtain ⟨a, ha, rfl⟩ := List.mem_map.mp hb
  have hstart : (t.seenBooking a).start = a.start := by
    rw [Transaction.seenBooking]
    split <;> rfl
  rw [hstart]
  rcases mem_of_mem_foldl_put ha with ha | ha
  · exact ht.2 a ha
  · exact hr.minutes a ha

/-- Only a request to insert a booking is of any consequence for the starts of bookings. -/
theorem tidy_upheld : Upheld Request.Routine (fun _ => True) Transaction.Tidy where
  opened := ⟨rulesValid_upheld.opened, fun _ h => absurd h List.not_mem_nil⟩
  touched held ended h := ⟨rulesValid_upheld.touched held ended h.1, h.2⟩
  performed {t r request} stamp hroutine _ ht := by
    refine ⟨rulesValid_upheld.performed stamp hroutine.proper trivial ht.1, ?_⟩
    intro b hb
    rw [Transaction.perform_newBookings] at hb
    cases request with
    | insertBooking request => exact hroutine.elim
    | _ => exact ht.2 b hb

theorem keeps_createBooking_tidy {request : BookingRequest} {r : Records} (hr : r.Tidy) :
    (Service.createBooking request).Keeps (Peers.keeping Records.Tidy)
      (Pledge.writing Transaction.Tidy) none r := by
  refine keeps_createBooking_writing fun r₁ r₂ r₃ stamp hmay₁ hmay₂ _ haccept => ?_
  have htidy : r₂.Tidy := hmay₂ (hmay₁ hr)
  refine ⟨rulesValid_booking request stamp, fun b hb => ?_⟩
  cases List.mem_singleton.mp hb
  exact start_on_minute (fun rule hrule => (htidy.usable rule hrule).1) haccept

theorem Machine.Settled.tidy {m : Machine} (h : m.Settled) : m.records.Tidy := by
  obtain ⟨events, -, rfl⟩ := h
  have hempty : (Hall.machine {}).records.Tidy :=
    ⟨fun _ h => absurd h List.not_mem_nil, fun _ h => absurd h List.not_mem_nil⟩
  have hfair : (Hall.run {} events).Fair (Peers.keeping Records.Tidy)
      (fun _ => Pledge.writing Transaction.Tidy) {} := by
    refine Hall.Fair.run (pact_writing fun ht hr => ht.publish hr) (fun call _ r hreached => ?_)
      (Hall.Fair.start Hall.orderly_empty)
    exact keeps_call tidy_upheld fun request _ => keeps_createBooking_tidy (hreached hempty)
  exact hfair.reached hempty

end Store

/-! ## Reservations and listings that are served alone -/

/-- How a reservation is decided that is served alone. -/
def Store.Records.decision (r : Records) (request : BookingRequest) : Except Error Unit :=
  if r.confirmedAt request.user request.start = none then
    accept (r.rulesOf request.user) (r.load request.user) request
  else .error .alreadyBooked

theorem keeps_createBooking_outcome {request : BookingRequest} {r : Records}
    (hemail : Service.hasEmail request.email = true) (hord : request.start < request.stop) :
    (Call.createBooking request).program.Keeps (Peers.nobody fun _ => True)
      (Pledge.outcome fun result r' =>
        match r.decision request with
        | .error cause => result = .error cause ∧ r' = r
        | .ok () => ∃ stamp, result = .ok (.booking (newBooking stamp request)) ∧
            r' = (request.booking stamp).publish r) none r := by
  show ((Service.createBooking request).bind _).Keeps _ _ _ _
  rw [Program.keeps_bind]
  unfold Records.decision
  refine keeps_createBooking ?_ ?_ ?_ ?_
  · intro hnone
    rw [hemail] at hnone
    cases hnone
  · exact fun hnot => absurd hord hnot
  · rintro r₁ id rfl hlookup r' rfl
    rw [if_neg (by rw [hlookup]; exact Option.some_ne_none id)]
    exact ⟨rfl, rfl⟩
  · rintro _ _ r₁ r₂ r₃ rfl hfree rfl rfl
    rw [if_pos hfree]
    cases haccept : accept (r₃.rulesOf request.user) (r₃.load request.user) request with
    | error cause =>
        rintro r' rfl
        exact ⟨rfl, rfl⟩
    | ok accepted =>
        rintro stamp r₄ r₅ rfl - rfl
        rw [conflicts_booking hfree, if_neg Bool.false_ne_true]
        exact ⟨trivial, rfl, stamp, rfl, rfl⟩

theorem Interval.window_bounds (a : Interval) : Service.window a.start a.stop = .ok a := by
  rw [Service.window, if_pos a.ordered, between, dif_pos a.ordered]

/-- A listing between two instants that is served alone shows a slot. -/
def Store.Machine.Shows (m : Machine) (user : String) (before after start stop : Instant) :
    Prop :=
  ∃ slots m', Alone m (.listSlots user before after) (.ok (.slots slots)) m' ∧
    ∃ slot ∈ slots, slot.isFrom start stop = true

section Listings

variable {m : Machine} {user : String} {start stop : Instant}

theorem shows_of_freeWithin (htidy : m.records.Tidy)
    (hord : start < stop) {before after : Instant} {window : Interval} {slots : List Interval}
    (hwindow : Service.window before after = .ok window)
    (hslots : freeWithin (m.records.rulesOf user) (m.records.load user) window = .ok slots)
    (hhas : m.records.Has user start stop)
    (hoverlaps : (⟨start, stop, hord⟩ : Interval).overlaps window = true) :
    m.Shows user before after start stop := by
  obtain ⟨m', halone⟩ := exists_listing m user before after
  rw [Records.listed, hwindow, ok_bind, hslots] at halone
  refine ⟨slots, m', halone, ⟨start, stop, hord⟩, ?_, ?_⟩
  · exact (mem_freeWithin htidy.usable htidy.minutes hslots).mpr ⟨hhas, hoverlaps⟩
  · rw [Interval.isFrom, beq_self_eq_true, beq_self_eq_true]
    rfl

theorem has_of_shows (htidy : m.records.Tidy)
    {before after : Instant} (h : m.Shows user before after start stop) :
    m.records.Has user start stop := by
  obtain ⟨slots, m', halone, slot, hslot, hfrom⟩ := h
  obtain ⟨window, -, hslots⟩ := bind_eq_ok.mp halone.listed
  obtain ⟨rfl, rfl⟩ := eq_of_isFrom hfrom
  exact ((mem_freeWithin htidy.usable htidy.minutes hslots).mp hslot).1

/-- A slot that the records have is shown between any two instants that it overlaps, unless
listing leaves the calendar. -/
theorem shows_of_has (htidy : m.records.Tidy)
    (hhas : m.records.Has user start stop) (hord : start < stop) {before after : Instant}
    (hwindow : before < after) (hbefore : before < stop) (hafter : start < after)
    (hin : ¬ ∃ m', Alone m (.listSlots user before after) (.error .outsideCalendar) m') :
    m.Shows user before after start stop := by
  have hbetween : Service.window before after = .ok ⟨before, after, hwindow⟩ :=
    (⟨before, after, hwindow⟩ : Interval).window_bounds
  have hoverlaps : (⟨start, stop, hord⟩ : Interval).overlaps ⟨before, after, hwindow⟩ = true := by
    rw [Interval.overlaps, Bool.and_eq_true, decide_eq_true_eq, decide_eq_true_eq]
    exact ⟨hafter, hbefore⟩
  cases hslots : freeWithin (m.records.rulesOf user) (m.records.load user)
      ⟨before, after, hwindow⟩ with
  | ok slots => exact shows_of_freeWithin htidy hord hbetween hslots hhas hoverlaps
  | error cause =>
      rw [freeWithin_error htidy.usable hslots] at hslots
      obtain ⟨m', halone⟩ := exists_listing m user before after
      rw [Records.listed, hbetween, ok_bind, hslots] at halone
      exact absurd ⟨m', halone⟩ hin

end Listings

/-! ## What can be booked -/

/-- On records that services leave behind, a reservation that is served alone, with an address and
a start before its end, comes to an end, and unless it leaves the calendar it ends in one of three
ways. It is told that its start is booked if and only if this is the case. Otherwise it makes its
booking if and only if the slot is listed in some window, which is to say in all windows that the
slot overlaps and that do not leave the calendar. And otherwise it is refused. -/
theorem booked_iff_listed {m : Machine} (hm : m.Settled) {request : BookingRequest}
    (hemail : Service.hasEmail request.email = true) (hord : request.start < request.stop) :
    (∃ result m', Alone m (.createBooking request) result m') ∧
    ∀ result m', Alone m (.createBooking request) result m' →
      result ≠ .error .outsideCalendar →
      (result = .error .alreadyBooked ↔
        m.records.bookedAt request.user request.start ≠ []) ∧
      (m.records.bookedAt request.user request.start = [] →
        ((∃ stamp, result = .ok (.booking (newBooking stamp request)) ∧
            (newBooking stamp request).isConfirmed = true ∧
            m'.records = { m.records with
              bookings := put Booking.id (newBooking stamp request) m.records.bookings }) ↔
          ∃ before after, m.Shows request.user before after request.start request.stop) ∧
        ((∃ before after, m.Shows request.user before after request.start request.stop) ↔
          ∀ before after, before < after → before < request.stop → request.start < after →
            (¬ ∃ m'', Alone m (.listSlots request.user before after)
              (.error .outsideCalendar) m'') →
            m.Shows request.user before after request.start request.stop) ∧
        ((¬ ∃ before after, m.Shows request.user before after request.start request.stop) →
          ∃ cause, result = .error cause ∧ cause.kind = .validation)) := by
  obtain ⟨hlocks, -, -⟩ := hm.spec
  have htidy := hm.tidy
  have hkeeps := keeps_createBooking_outcome (r := m.records) hemail hord
  refine ⟨?_, fun result m' halone hin => ?_⟩
  · obtain ⟨result, m', halone, -⟩ := Alone.exists_outcome hlocks hkeeps
    exact ⟨result, m', halone⟩
  have houtcome := halone.outcome hlocks hkeeps
  simp only [Records.decision] at houtcome
  by_cases hfree : m.records.confirmedAt request.user request.start = none
  · have hnil := Records.bookedAt_eq_nil.mpr hfree
    rw [if_pos hfree] at houtcome
    rcases accept_cases htidy.usable htidy.minutes hord with
      hout | ⟨⟨window, slots, hoverlaps, hslots⟩, hdecided⟩
    · rw [hout] at houtcome
      exact absurd houtcome.1 hin
    have hshown : (∃ before after, m.Shows request.user before after request.start
        request.stop) ↔ m.records.Has request.user request.start request.stop := by
      constructor
      · rintro ⟨before, after, hshows⟩
        exact has_of_shows htidy hshows
      · intro hhas
        refine ⟨window.start, window.stop, ?_⟩
        exact shows_of_freeWithin htidy hord window.window_bounds hslots hhas hoverlaps
    have hevery : m.records.Has request.user request.start request.stop ↔
        ∀ before after, before < after → before < request.stop → request.start < after →
          (¬ ∃ m'', Alone m (.listSlots request.user before after)
            (.error .outsideCalendar) m'') →
          m.Shows request.user before after request.start request.stop := by
      constructor
      · intro hhas before after hwindow hbefore hafter hcalendar
        exact shows_of_has htidy hhas hord hwindow hbefore hafter hcalendar
      · intro hall
        rw [Interval.overlaps, Bool.and_eq_true, decide_eq_true_eq, decide_eq_true_eq] at hoverlaps
        refine has_of_shows htidy
          (hall window.start window.stop window.ordered hoverlaps.2 hoverlaps.1 ?_)
        rintro ⟨m'', hlisted⟩
        have hresult := hlisted.listing
        rw [Records.listed, window.window_bounds, ok_bind, hslots] at hresult
        cases hresult
    rcases hdecided with ⟨hhas, haccept⟩ | ⟨hnot, haccept⟩
    · rw [haccept] at houtcome
      obtain ⟨stamp, rfl, hrecords⟩ := houtcome
      refine ⟨iff_of_false (fun h => by cases h) (fun h => h hnil), fun _ => ⟨?_, ?_, ?_⟩⟩
      · exact iff_of_true ⟨stamp, rfl, rfl, hrecords⟩ (hshown.mpr hhas)
      · exact hshown.trans hevery
      · exact fun hnone => absurd (hshown.mpr hhas) hnone
    · rw [haccept] at houtcome
      obtain ⟨rfl, -⟩ := houtcome
      refine ⟨iff_of_false (fun h => by cases h) (fun h => h hnil), fun _ => ⟨?_, ?_, ?_⟩⟩
      · refine iff_of_false ?_ fun hsome => hnot (hshown.mp hsome)
        rintro ⟨stamp, hmade, -⟩
        cases hmade
      · exact hshown.trans hevery
      · exact fun _ => ⟨_, rfl, rfl⟩
  · have hbooked : m.records.bookedAt request.user request.start ≠ [] :=
      fun hnil => hfree (Records.bookedAt_eq_nil.mp hnil)
    rw [if_neg hfree] at houtcome
    exact ⟨iff_of_true houtcome.1 hbooked, fun hnil => absurd hnil hbooked⟩

/-- The booking that a call has been answered with. -/
def Store.Stage.booked? : Stage Answer → Option Booking
  | .ended (.ok (.booking booking)) => some booking
  | _ => none

theorem Store.Stage.eq_of_booked? {s : Stage Answer} (h : s.booked?.isSome = true) :
    ∃ booking, s = .ended (.ok (.booking booking)) := by
  unfold booked? at h
  split at h
  · next booking => exact ⟨booking, rfl⟩
  · cases h

/-- The first slot of a rule that has just been stored can be booked, so it is listed. -/
theorem first_slot_listed :
    Service.hasEmail firstSlot.email = true ∧ firstSlot.start < firstSlot.stop ∧
      opened.records.bookedAt firstSlot.user firstSlot.start = [] ∧
      (∃ booking m', Alone opened (.createBooking firstSlot) (.ok (.booking booking)) m') ∧
      ∃ before after, opened.Shows firstSlot.user before after firstSlot.start
        firstSlot.stop := by
  have hemail : Service.hasEmail firstSlot.email = true := by decide
  have hord : firstSlot.start < firstSlot.stop := by decide
  have hnil : opened.records.bookedAt firstSlot.user firstSlot.start = [] := by decide +kernel
  have hbooked : (Stage.turns 0 (List.replicate 7 ⟨⟨0, horizon_pos⟩, "booking"⟩)
      (.active (Call.createBooking firstSlot).program none) opened).1.booked?.isSome = true := by
    decide +kernel
  obtain ⟨booking, hended⟩ := Stage.eq_of_booked? hbooked
  have halone : Alone opened (.createBooking firstSlot) (.ok (.booking booking)) _ :=
    ⟨_, Prod.ext hended rfl⟩
  obtain ⟨-, hrest⟩ := (booked_iff_listed settled_opened hemail hord).2 _ _ halone
    (fun h => nomatch h)
  obtain ⟨-, -, hrefused⟩ := hrest hnil
  refine ⟨hemail, hord, hnil, ⟨booking, _, halone⟩, ?_⟩
  by_cases hshown : ∃ before after, opened.Shows firstSlot.user before after firstSlot.start
      firstSlot.stop
  · exact hshown
  · obtain ⟨cause, hcause, -⟩ := hrefused hshown
    cases hcause

end Bookable
