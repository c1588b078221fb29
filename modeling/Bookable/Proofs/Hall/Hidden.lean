import Bookable.Proofs.Hall.Windows

/-!
# What a booking hides

A booking that is made takes away from the listings of its user the slots that start
when it does, and nothing else. What it takes away it takes away in every window, also
in those that begin long after its start, since the lookup of bookings reaches every
candidate. Slots and bookings start with a minute, so that no other slot starts in the
second of the booking. When it is cancelled, all listings are what they were before.
-/

namespace Bookable

open Store Time

/-! ## One more booking -/

/-- One more confirmed booking that starts with a minute takes away the slots that start when it
does. -/
theorem freeWithin_booked {rules : List Rule} (typed : ∀ rule ∈ rules, rule.Typed)
    (whole : ∀ rule ∈ rules, rule.WholeSeconds) {load load' : Interval → List Booking}
    {b : Booking} (hconfirmed : b.isConfirmed = true) (hminute : minute ∣ b.start.micros)
    (hload : ∀ range c, c ∈ load' range ↔
      c ∈ load range ∨ c = b ∧ b.startsWithin range.start range.stop = true)
    {window : Interval} {slots : List Interval} (h : freeWithin rules load window = .ok slots) :
    freeWithin rules load' window = .ok (slots.filter (·.start != b.start)) := by
  cases hempty : rules.isEmpty with
  | true =>
      rw [freeWithin, hempty] at h ⊢
      cases h
      rfl
  | false =>
      obtain ⟨candidates, hexpand, hlooked⟩ := (freeWithin_eq_ok hempty).mp h
      refine (freeWithin_eq_ok hempty).mpr ⟨candidates, hexpand, ?_⟩
      rcases hlooked with ⟨rfl, rfl⟩ | ⟨hsome, range, hrange, rfl⟩
      · exact Or.inl ⟨rfl, rfl⟩
      refine Or.inr ⟨hsome, range, hrange, removeBooked_eq_filter fun slot hslot => ?_⟩
      rw [bne_iff_ne]
      constructor
      · intro hfree
        refine ⟨fun hstart => ?_, fun c hc => hfree c ((hload range c).mpr (Or.inl hc))⟩
        have hsecond : b.start.unixSecond = slot.start.unixSecond := by rw [hstart]
        have hwithin := startsWithin_lookupRange whole hexpand hrange hslot hsecond
        exact hfree b ((hload range b).mpr (Or.inr ⟨rfl, hwithin⟩)) hconfirmed hsecond
      · rintro ⟨hstart, hfree⟩ c hc hc' hsecond
        rcases (hload range c).mp hc with hc | ⟨rfl, -⟩
        · exact hfree c hc hc' hsecond
        · exact hstart (eq_of_second (expand_on_minute typed hexpand hslot) hminute hsecond.symm)

section Records

variable {r : Records} {b : Booking}

theorem mem_load_append {user : String} (hconfirmed : b.isConfirmed = true)
    (huser : b.user = user) (range : Interval) (c : Booking) :
    c ∈ ({ r with bookings := r.bookings ++ [b] } : Records).load user range ↔
      c ∈ r.load user range ∨ c = b ∧ b.startsWithin range.start range.stop = true := by
  rw [Records.mem_load, Records.mem_load, List.mem_append, List.mem_singleton, or_and_right]
  refine or_congr_right (and_congr_right ?_)
  rintro rfl
  rw [hconfirmed, huser, beq_self_eq_true]
  exact and_iff_right rfl

/-- A booking that is not confirmed, or somebody else's, is not looked up. -/
theorem load_append_of_not {user : String} (hnot : ¬ (b.user = user ∧ b.isConfirmed = true)) :
    ({ r with bookings := r.bookings ++ [b] } : Records).load user = r.load user := by
  funext range
  unfold Records.load Records.confirmedWithin
  rw [List.filter_append, List.filter_cons_of_neg, List.filter_nil, List.append_nil]
  simp only [Bool.and_eq_true, beq_iff_eq]
  exact fun h => hnot h.1

theorem listed_append_of_not {user : String} (hnot : ¬ (b.user = user ∧ b.isConfirmed = true))
    (before after : Instant) :
    ({ r with bookings := r.bookings ++ [b] } : Records).listed user before after =
      r.listed user before after := by
  unfold Records.listed
  rw [load_append_of_not hnot]
  rfl

/-- What is listed with one more booking. -/
theorem listed_append (valid : r.RulesValid) (hconfirmed : b.isConfirmed = true)
    (hminute : minute ∣ b.start.micros) {user : String} {before after : Instant}
    {slots : List Interval} (h : r.listed user before after = .ok slots) :
    ({ r with bookings := r.bookings ++ [b] } : Records).listed user before after =
      .ok (if user = b.user then slots.filter (·.start != b.start) else slots) := by
  split
  · next huser =>
      obtain ⟨window, hwindow, hslots⟩ := bind_eq_ok.mp h
      refine bind_eq_ok.mpr ⟨window, hwindow, ?_⟩
      have valid' : ∀ rule ∈ r.rulesOf user, rule.Valid :=
        fun rule hrule => valid rule (List.mem_filter.mp hrule).1
      exact freeWithin_booked (fun rule hrule => (valid' rule hrule).typed)
        (fun rule hrule => (valid' rule hrule).wholeSeconds) hconfirmed hminute
        (mem_load_append hconfirmed huser.symm) hslots
  · next huser =>
      rw [listed_append_of_not fun hmine => huser hmine.1.symm]
      exact h

end Records

/-! ## Reservations and cancellations that succeed -/

/-- A reservation that is served alone, and succeeds, has been accepted. -/
theorem keeps_createBooking_success (request : BookingRequest) (r : Records) :
    (Call.createBooking request).program.Keeps (Peers.nobody fun _ => True)
      (Pledge.outcome fun result r' => ∀ answer, result = .ok answer → Admissible request r ∧
        ∃ stamp, answer = .booking (newBooking stamp request) ∧
          r' = (request.booking stamp).publish r) none r := by
  show ((Service.createBooking request).bind _).Keeps _ _ _ _
  rw [Program.keeps_bind]
  refine keeps_createBooking (fun _ _ _ _ h => nomatch h) (fun _ _ _ _ h => nomatch h)
    (fun _ _ _ _ _ _ _ h => nomatch h) ?_
  rintro hemail hord _ r₂ r₃ rfl hfree rfl rfl
  cases haccept : accept (r₃.rulesOf request.user) (r₃.load request.user) request with
  | error cause => exact fun _ _ _ h => nomatch h
  | ok accepted =>
      rintro stamp r₄ r₅ rfl - rfl
      rw [conflicts_booking hfree, if_neg Bool.false_ne_true]
      refine ⟨trivial, rfl, fun answer hanswer => ?_⟩
      cases hanswer
      exact ⟨⟨hemail, hord, hfree, haccept⟩, stamp, rfl, rfl⟩

theorem keeps_cancelBooking_success (id : String) (r : Records) :
    (Call.cancelBooking id).program.Keeps (Peers.nobody fun _ => True)
      (Pledge.outcome fun result r' => ∀ answer, result = .ok answer →
        answer = .nothing ∧ r' = (cancelling id [id]).publish r) none r := by
  show ((Service.cancelBooking id).bind _).Keeps _ _ _ _
  rw [Program.keeps_bind]
  refine keeps_cancelBooking (fun _ _ _ _ _ _ h => nomatch h) (fun _ _ _ _ _ _ h => nomatch h) ?_
  rintro r₁ r₂ rfl - rfl
  split
  · rintro r₃ rfl
    refine ⟨trivial, rfl, fun answer hanswer => ?_⟩
    cases hanswer
    exact ⟨rfl, rfl⟩
  · exact fun _ _ _ h => nomatch h

/-! ## A booking that comes and goes -/

/-- A new booking comes last and is confirmed. -/
theorem statusOf_append {r : Records} {b : Booking} (hnew : ∀ c ∈ r.bookings, c.id ≠ b.id) :
    ({ r with bookings := r.bookings ++ [b] } : Records).statusOf b.id = some b.status := by
  have hnone : r.bookings.find? (·.id == b.id) = none :=
    List.find?_eq_none.mpr fun c hc heq => hnew c hc (eq_of_beq heq)
  rw [Records.statusOf, List.find?_append, hnone, Option.none_or, List.find?_cons,
    beq_self_eq_true]
  rfl

section Alone

variable {m m₁ : Machine} {request : BookingRequest} {b : Booking}

theorem booked_records (valid : m.records.RulesValid) (hnew : ∀ c ∈ m.records.bookings, c.id ≠ b.id)
    (hmade : Alone m (.createBooking request) (.ok (.booking b)) m₁) :
    (∃ stamp, b = newBooking stamp request) ∧ minute ∣ request.start.micros ∧
      m₁.records = { m.records with bookings := m.records.bookings ++ [b] } := by
  obtain ⟨hadmissible, stamp, hanswer, hrecords⟩ :=
    hmade.fulfils (keeps_createBooking_success request m.records) _ rfl
  cases hanswer
  rw [publish_booking, put_of_fresh hnew] at hrecords
  refine ⟨⟨stamp, rfl⟩, start_on_minute (fun rule hrule => ?_) hadmissible.admitted, hrecords⟩
  exact (valid rule (List.mem_filter.mp hrule).1).typed

theorem cancelled_records {r : Records} (hnew : ∀ c ∈ r.bookings, c.id ≠ b.id)
    (hbooked : m.records = { r with bookings := r.bookings ++ [b] }) {answer : Answer}
    (hcancelled : Alone m (.cancelBooking b.id) (.ok answer) m₁) :
    m₁.records = { r with bookings := r.bookings ++ [{ b with status := .cancelled }] } := by
  obtain ⟨-, hrecords⟩ := hcancelled.fulfils (keeps_cancelBooking_success b.id m.records) _ rfl
  rw [hrecords, publish_cancelling, hbooked, cancelOne_append hnew]

end Alone

/-- In every state that services can reach, also in one in which other callers are being served: a
reservation that is served alone, and makes a booking with an identifier that is new, takes the
slots that start when it does out of all the listings of its user, and leaves the others there in
their order and as many as they were. Other users have the same listings as before. The booking can
be cancelled then if no key was in use; and when it is cancelled, all listings end as they did before
it was made. -/
theorem booking_hides_start (events : List Event) {request : BookingRequest} {b : Booking}
    {m₁ : Machine} (hnew : ∀ c ∈ (Hall.run {} events).machine.records.bookings, c.id ≠ b.id)
    (hmade : Alone (Hall.run {} events).machine (.createBooking request) (.ok (.booking b)) m₁) :
    let m := (Hall.run {} events).machine
    (∀ user before after slots, m.Lists user before after (.ok (.slots slots)) →
      m₁.Lists user before after (.ok (.slots
        (if user = request.user then slots.filter (·.start != request.start) else slots)))) ∧
    (m.registry.locks = [] → ∃ m₂, Alone m₁ (.cancelBooking b.id) (.ok .nothing) m₂) ∧
    ∀ answer m₂, Alone m₁ (.cancelBooking b.id) (.ok answer) m₂ →
      ∀ user before after result,
        m₂.Lists user before after result ↔ m.Lists user before after result := by
  intro m
  have valid : m.records.RulesValid := Hall.rulesValid_run events
  change ∀ c ∈ m.records.bookings, c.id ≠ b.id at hnew
  change Alone m _ _ m₁ at hmade
  clear_value m
  obtain ⟨⟨stamp, rfl⟩, hminute, hrecords⟩ := booked_records valid hnew hmade
  refine ⟨fun user before after slots hslots => ?_, fun hlocks => ?_,
    fun answer m₂ hcancelled user before after result => ?_⟩
  · rw [lists_slots_iff] at hslots ⊢
    rw [hrecords]
    exact listed_append (b := newBooking stamp request) valid rfl hminute hslots
  · have hlocks₁ := (hmade.solitary outcome_outside hlocks
      (keeps_createBooking_success request m.records)).locks_eq_nil
    have hstatus : m₁.records.statusOf (newBooking stamp request).id = some .confirmed := by
      rw [hrecords]
      exact statusOf_append hnew
    have hcommits : (Pledge.booker (.cancelBooking (newBooking stamp request).id)).commits
        (cancelling _ [_]) (.done .nothing) m₁.records := ⟨hstatus, rfl, rfl⟩
    obtain ⟨m₂, halone, -⟩ := alone_of_commits hcommits hlocks₁
    exact ⟨m₂, halone⟩
  · have hnot : ∀ b : Booking, ¬ (b.user = user ∧
        ({ b with status := .cancelled } : Booking).isConfirmed = true) :=
      fun b h => Bool.false_ne_true h.2
    rw [lists_iff, lists_iff, cancelled_records hnew hrecords hcancelled,
      listed_append_of_not (hnot _)]

/-- The first slot of a rule that has just been stored is booked, and is not listed any more. -/
theorem first_slot_hidden :
    ∃ b m₁, (∀ c ∈ (Hall.run {} opening).machine.records.bookings, c.id ≠ b.id) ∧
      Alone (Hall.run {} opening).machine (.createBooking firstSlot) (.ok (.booking b)) m₁ ∧
      ∃ slots, (slots.map (·.start)).contains firstSlot.start = true ∧
        opened.Lists "anna" firstSlot.start firstSlot.stop (.ok (.slots slots)) ∧
        m₁.Lists "anna" firstSlot.start firstSlot.stop
          (.ok (.slots (slots.filter (·.start != firstSlot.start)))) ∧
        ∃ m₂, Alone m₁ (.cancelBooking b.id) (.ok .nothing) m₂ ∧
          m₂.Lists "anna" firstSlot.start firstSlot.stop (.ok (.slots slots)) := by
  have hbooked : (Stage.turns 0 (List.replicate 7 ⟨⟨0, horizon_pos⟩, "booking"⟩)
      (.active (Call.createBooking firstSlot).program none) opened).1.booked?.isSome = true := by
    decide +kernel
  obtain ⟨b, hended⟩ := Stage.eq_of_booked? hbooked
  have halone : Alone opened (.createBooking firstSlot) (.ok (.booking b)) _ :=
    ⟨_, Prod.ext hended rfl⟩
  have hnone : opened.records.bookings = [] := by decide +kernel
  have hlocks : opened.registry.locks = [] := by decide +kernel
  have hnew : ∀ c ∈ (Hall.run {} opening).machine.records.bookings, c.id ≠ b.id := by
    intro c hc
    rw [show (Hall.run {} opening).machine.records.bookings = [] from hnone] at hc
    cases hc
  have hshown : (opened.records.listed "anna" firstSlot.start firstSlot.stop).toOption.map
      (fun slots => (slots.map (·.start)).contains firstSlot.start) = some true := by
    decide +kernel
  cases hslots : opened.records.listed "anna" firstSlot.start firstSlot.stop with
  | error cause =>
      rw [hslots] at hshown
      cases hshown
  | ok slots =>
      rw [hslots] at hshown
      have hlists := lists_slots_iff.mpr hslots
      obtain ⟨hhidden, hexists, hback⟩ := booking_hides_start opening hnew halone
      obtain ⟨m₂, hcancelled⟩ := hexists hlocks
      exact ⟨b, _, hnew, halone, slots, Option.some.inj hshown, hlists, hhidden _ _ _ _ hlists, m₂,
        hcancelled, (hback _ _ hcancelled _ _ _ _).mpr hlists⟩

end Bookable
