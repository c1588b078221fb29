import Bookable.Proofs.Hall.Serial

/-!
# A race for one slot

Callers who all want the same free slot, among others who book other slots: one of
them gets it, and every other one is told that it is booked. What carries this is
`Grown`. As long as nobody cancels, bookings are only added, and what is added while a
caller holds the key of the start is in no way a booking of that start's second. So
who finds the start free under its key finds the slot free as well, and nobody is told
that it is not available; and who does not find the start free can be told nothing else
than that it is booked.

How many have won is counted by a ledger. The callers who have committed a booking of
the start are, one by one, the owners of the confirmed bookings of the start on record,
and since a commit needs a free start, there is never more than one.
-/

namespace Bookable

open Store Time

variable {user : String} {start stop : Instant}

/-! ## Confirmed bookings of a start -/

/-- The confirmed bookings of a user with a start. -/
def Store.Records.bookedAt (r : Records) (user : String) (start : Instant) : List Booking :=
  r.bookings.filter fun b => b.user == user && b.isConfirmed && b.start == start

theorem Store.Records.mem_bookedAt {r : Records} {b : Booking} :
    b ∈ r.bookedAt user start ↔
      b ∈ r.bookings ∧ b.isConfirmed = true ∧ b.user = user ∧ b.start = start := by
  rw [bookedAt, List.mem_filter]
  simp only [Bool.and_eq_true, beq_iff_eq]
  constructor
  · rintro ⟨hb, ⟨huser, hconfirmed⟩, hstart⟩
    exact ⟨hb, hconfirmed, huser, hstart⟩
  · rintro ⟨hb, hconfirmed, huser, hstart⟩
    exact ⟨hb, ⟨huser, hconfirmed⟩, hstart⟩

theorem Store.Records.bookedAt_eq_nil {r : Records} :
    r.bookedAt user start = [] ↔ r.confirmedAt user start = none := by
  rw [confirmedAt_eq_none, List.eq_nil_iff_forall_not_mem]
  constructor
  · intro h b hb hconfirmed huser hstart
    exact h b (mem_bookedAt.mpr ⟨hb, hconfirmed, huser, hstart⟩)
  · intro h b hb
    obtain ⟨hb, hconfirmed, huser, hstart⟩ := mem_bookedAt.mp hb
    exact h b hb hconfirmed huser hstart

/-- A request is admitted for a slot of a user, whatever else is in it. -/
def Vacant (user : String) (start stop : Instant) (r : Records) : Prop :=
  ∀ request : BookingRequest, request.user = user → request.start = start →
    request.stop = stop → accept (r.rulesOf user) (r.load user) request = .ok ()

theorem Vacant.admitted {r : Records} (h : Vacant user start stop r) :
    accept (r.rulesOf user) (r.load user) { user, email := none, start, stop } = .ok () :=
  h _ rfl rfl rfl

theorem Vacant.second_free {r : Records} (h : Vacant user start stop r) :
    ∀ b ∈ r.bookings, b.isConfirmed = true → b.user = user →
      b.start.unixSecond ≠ start.unixSecond :=
  Bookable.second_free h.admitted

theorem Vacant.ordered {r : Records} (h : Vacant user start stop r) : start < stop := by
  obtain ⟨window, -, hfree⟩ := accept_eq_ok.mp h.admitted
  obtain ⟨-, -, -, -, -, slot, -, hfrom, -⟩ := exists_free_iff.mp hfree
  obtain ⟨hstart, hstop⟩ := eq_of_isFrom hfrom
  have hord := slot.ordered
  rw [hstart, hstop] at hord
  exact hord

theorem Vacant.bookedAt {r : Records} (h : Vacant user start stop r) :
    r.bookedAt user start = [] := by
  rw [List.eq_nil_iff_forall_not_mem]
  intro b hb
  obtain ⟨hb, hconfirmed, huser, hstart⟩ := Records.mem_bookedAt.mp hb
  exact h.second_free b hb hconfirmed huser (by rw [hstart])

/-! ## Peers that book -/

/-- A booking that leaves alone a transaction and, for a user, the second of a start. -/
structure Elsewhere (user : String) (start : Instant) (t : Transaction) (b : Booking) :
    Prop where
  key : Key.start b.user b.start.unixSecond ∉ t.held
  id : ∀ a ∈ t.newBookings, b.id ≠ a.id
  second : b.user = user → b.start.unixSecond = start.unixSecond → b.start = start

/-- What a transaction can rely on among peers that book: the rules are the same, and all that
happens to the bookings is that others are added, elsewhere. -/
structure Grown (user : String) (start : Instant) (t : Transaction) (r r' : Records) :
    Prop where
  rules : r'.rules = r.rules
  bookings : ∃ new, r'.bookings = r.bookings ++ new ∧ ∀ b ∈ new, Elsewhere user start t b

def Store.Peers.racers (user : String) (start : Instant) : Peers where
  may := Grown user start
  stamps r stamp := ∀ b ∈ r.bookings, b.id ≠ stamp.id
  refl _ r := ⟨rfl, [], (List.append_nil _).symm, fun _ hb => absurd hb List.not_mem_nil⟩
  trans h h' := by
    obtain ⟨new, hnew, helse⟩ := h.bookings
    obtain ⟨new', hnew', helse'⟩ := h'.bookings
    refine ⟨h'.rules.trans h.rules, new ++ new', ?_, ?_⟩
    · rw [hnew', hnew, List.append_assoc]
    · intro b hb
      rcases List.mem_append.mp hb with hb | hb
      · exact helse b hb
      · exact helse' b hb

namespace Grown

variable {t : Transaction} {r r' : Records}

theorem mem (h : Grown user start t r r') {b : Booking} (hb : b ∈ r.bookings) :
    b ∈ r'.bookings := by
  obtain ⟨new, hnew, -⟩ := h.bookings
  rw [hnew]
  exact List.mem_append_left _ hb

theorem bookedAt_ne_nil (h : Grown user start t r r') (hr : r.bookedAt user start ≠ []) :
    r'.bookedAt user start ≠ [] := by
  obtain ⟨b, hb⟩ := List.exists_mem_of_ne_nil _ hr
  rw [Records.mem_bookedAt] at hb
  exact List.ne_nil_of_mem (Records.mem_bookedAt.mpr ⟨h.mem hb.1, hb.2⟩)

/-- Nothing is added in a second whose key is held. -/
theorem mem_of_held (h : Grown user start t r r') {b : Booking} (hb : b ∈ r'.bookings)
    (hkey : Key.start b.user b.start.unixSecond ∈ t.held) : b ∈ r.bookings := by
  obtain ⟨new, hnew, helse⟩ := h.bookings
  rw [hnew] at hb
  rcases List.mem_append.mp hb with hb | hb
  · exact hb
  · exact absurd hkey (helse b hb).key

/-- Who can rely on this can rely on what is left alone among cancellations as well. -/
theorem kept (h : Grown user start t r r') : Kept t r r' where
  rules := h.rules
  starts holder second hkey b hb _ huser hsecond := by
    refine h.mem_of_held hb ?_
    rw [huser, hsecond]
    exact hkey
  status id _ hstatus := by
    obtain ⟨new, hnew, -⟩ := h.bookings
    rw [Records.statusOf] at hstatus ⊢
    rw [hnew, List.find?_append]
    cases hfound : r.bookings.find? (·.id == id) with
    | none =>
        rw [hfound] at hstatus
        cases hstatus
    | some b =>
        rw [hfound] at hstatus
        exact hstatus

theorem fresh (h : Grown user start t r r') {a : Booking} (ha : a ∈ t.newBookings)
    (hr : ∀ b ∈ r.bookings, b.id ≠ a.id) : ∀ b ∈ r'.bookings, b.id ≠ a.id := by
  intro b hb
  obtain ⟨new, hnew, helse⟩ := h.bookings
  rw [hnew] at hb
  rcases List.mem_append.mp hb with hb | hb
  · exact hr b hb
  · exact (helse b hb).id a ha

/-- What was booked in the second of a vacant slot was booked with its start. -/
theorem start_eq (h : Grown user start t r r') (hr : Vacant user start stop r) {b : Booking}
    (hb : b ∈ r'.bookings) (hconfirmed : b.isConfirmed = true) (huser : b.user = user)
    (hsecond : b.start.unixSecond = start.unixSecond) : b.start = start := by
  obtain ⟨new, hnew, helse⟩ := h.bookings
  rw [hnew] at hb
  rcases List.mem_append.mp hb with hb | hb
  · exact absurd hsecond (hr.second_free b hb hconfirmed huser)
  · exact (helse b hb).second huser hsecond

end Grown

/-! ## What the callers promise -/

/-- Whether a call is for a slot of a user with a start. -/
def Store.Call.isFor (user : String) (start : Instant) : Call → Bool
  | .createBooking request => request.user == user && request.start == start
  | _ => false

/-- Calls that book, and with a given start a given slot. -/
def Store.Call.Contends (user : String) (start stop : Instant) : Call → Prop
  | .createBooking request => request.user = user → request.start = start →
      request.stop = stop ∧ Service.hasEmail request.email = true
  | _ => False

/-- A request that may be booked. -/
structure Entering (user : String) (start : Instant) (request : BookingRequest)
    (stamp : Stamp) (r : Records) : Prop where
  free : r.confirmedAt request.user request.start = none
  fresh : ∀ b ∈ r.bookings, b.id ≠ stamp.id
  second : request.user = user → request.start.unixSecond = start.unixSecond →
    request.start = start

/-- To commit a booking in a free start, and to fail, if the call is for a given start, only because
this has been booked. -/
def Store.Pledge.racer (user : String) (start : Instant) (call : Call) : Pledge Answer where
  commits t next r := ∃ request stamp, call = .createBooking request ∧
    t = request.booking stamp ∧ next = .done (.booking (newBooking stamp request)) ∧
    Entering user start request stamp r
  clashes _ _ := False
  fails cause r := call.isFor user start = true →
    cause = .alreadyBooked ∧ r.bookedAt user start ≠ []
  ends _ t? _ := t? = none

/-- What is committed is elsewhere for every transaction apart. -/
theorem grown_publish {request : BookingRequest} {stamp : Stamp} {u : Transaction} {r : Records}
    (h : Entering user start request stamp r) (hapart : u.Apart (request.booking stamp)) :
    Grown user start u r ((request.booking stamp).publish r) := by
  rw [publish_booking]
  refine ⟨rfl, [newBooking stamp request], put_of_fresh h.fresh, ?_⟩
  intro b hb
  cases List.mem_singleton.mp hb
  refine ⟨fun hkey => ?_, fun a ha heq => ?_, h.second⟩
  · exact hapart.1 _ hkey (List.mem_singleton.mpr rfl)
  · exact hapart.2 a ha _ (List.mem_singleton.mpr rfl) heq.symm

theorem pact_racers : Hall.Pact (Peers.racers user start) (Pledge.racer user start) where
  sound call := by
    refine ⟨fun h => (nomatch h), fun h _ => h, ?_, ?_⟩
    · intro cause r r' hfails hmay hfor
      obtain ⟨hcause, hbooked⟩ := hfails hfor
      exact ⟨hcause, hmay.bookedAt_ne_nil hbooked⟩
    · rintro t next r ⟨request, stamp, -, rfl, -, hentering⟩ - u hapart
      exact grown_publish hentering hapart
  stamps hnew := (Hall.notInUse hnew).1

theorem racer_done {call : Call} {t : Transaction} {next : Program Answer} {r : Records}
    (h : (Pledge.racer user start call).commits t next r) : ∃ a, next = .done a := by
  obtain ⟨request, stamp, -, -, rfl, -⟩ := h
  exact ⟨_, rfl⟩

section Reservations

variable {r₀ r r₁ r₂ r₃ r₄ r₅ : Records} {request : BookingRequest}

/-- Who has found the start of a vacant slot free under its key is admitted. -/
theorem accept_under_key (hvacant : Vacant user start stop r₀) (huser : request.user = user)
    (hstart : request.start = start) (hstop : request.stop = stop)
    (h₁ : Grown user start {} r₀ r₁)
    (hfree : r₁.confirmedAt request.user request.start = none)
    (h₂ : Grown user start request.holding r₁ r₂)
    (h₃ : Grown user start request.holding r₂ r₃) :
    accept (r₂.rulesOf request.user) (r₃.load request.user) request = .ok () := by
  rw [h₂.kept.rulesOf, h₁.kept.rulesOf, huser]
  have hslot := hvacant request huser hstart hstop
  refine accept_of_second hslot fun range b hb hconfirmed hsecond => ?_
  unfold Records.load Records.confirmedWithin at hb
  rw [List.mem_filter] at hb
  obtain ⟨hmem, hwithin⟩ := hb
  simp only [Bool.and_eq_true, beq_iff_eq] at hwithin
  -- The booking was there when the start was looked up, so it is one with that start.
  have hkey : Key.start b.user b.start.unixSecond ∈ request.holding.held := by
    rw [hwithin.1.1, hsecond, ← huser]
    exact List.mem_singleton.mpr rfl
  have hold : b ∈ r₁.bookings := h₂.mem_of_held (h₃.mem_of_held hmem hkey) hkey
  have heq := h₁.start_eq hvacant hold hconfirmed hwithin.1.1 (by rw [hsecond, hstart])
  rw [Records.confirmedAt_eq_none] at hfree
  exact absurd (heq.trans hstart.symm)
    (hfree b hold hconfirmed (hwithin.1.1.trans huser.symm))

/-- Who is admitted under the key of its start may book when it commits. -/
theorem entering_of_accept (hvacant : Vacant user start stop r₀) (hrules : r₀.RulesValid)
    (h₁ : Grown user start {} r₀ r₁)
    (hfree : r₁.confirmedAt request.user request.start = none)
    (h₂ : Grown user start request.holding r₁ r₂)
    (h₃ : Grown user start request.holding r₂ r₃)
    (haccept : accept (r₂.rulesOf request.user) (r₃.load request.user) request = .ok ())
    (h₄ : Grown user start request.holding r₃ r₄) {stamp : Stamp}
    (hstamp : ∀ b ∈ r₄.bookings, b.id ≠ stamp.id)
    (h₅ : Grown user start (request.booking stamp) r₄ r₅) :
    Entering user start request stamp r₅ := by
  have hkey : request.key ∈ request.holding.held := List.mem_singleton.mpr rfl
  have htyped : ∀ user, ∀ rule ∈ r₀.rulesOf user, rule.Typed := by
    intro user rule hrule
    exact (hrules rule (List.mem_filter.mp hrule).1).typed
  constructor
  · have hlater := h₄.kept.confirmedAt hkey
      (h₃.kept.confirmedAt hkey (h₂.kept.confirmedAt hkey hfree))
    have hheld : request.key ∈ (request.booking stamp).held := hkey
    exact h₅.kept.confirmedAt hheld hlater
  · exact h₅.fresh (a := newBooking stamp request) (List.mem_singleton.mpr rfl) hstamp
  · intro _ hsecond
    rw [h₂.kept.rulesOf, h₁.kept.rulesOf] at haccept
    have hminute := start_on_minute (htyped _) haccept
    have hslot : minute ∣ start.micros := start_on_minute (htyped _) hvacant.admitted
    exact eq_of_second hminute hslot hsecond

theorem keeps_racing (hvacant : Vacant user start stop r₀) (hrules : r₀.RulesValid) {call : Call}
    (hcall : call.Contends user start stop) (hreached : Grown user start {} r₀ r) :
    call.program.Keeps (Peers.racers user start) (Pledge.racer user start call) none r := by
  cases call with
  | createBooking request =>
      have hslot : (Call.createBooking request).isFor user start = true →
          request.user = user ∧ request.start = start ∧ request.stop = stop ∧
            Service.hasEmail request.email = true := by
        intro hfor
        simp only [Call.isFor, Bool.and_eq_true, beq_iff_eq] at hfor
        exact ⟨hfor.1, hfor.2, hcall hfor.1 hfor.2⟩
      show ((Service.createBooking request).bind _).Keeps _ _ _ _
      rw [Program.keeps_bind]
      refine keeps_createBooking ?_ ?_ ?_ ?_
      · intro hemail r' _ hfor
        obtain ⟨-, -, -, hgiven⟩ := hslot hfor
        rw [hemail] at hgiven
        cases hgiven
      · intro hord r' _ hfor
        obtain ⟨-, hstart, hstop, -⟩ := hslot hfor
        rw [hstart, hstop] at hord
        exact absurd hvacant.ordered hord
      · intro r₁ id _ hlookup r' hmay hfor
        obtain ⟨huser, hstart, -, -⟩ := hslot hfor
        refine ⟨rfl, hmay.bookedAt_ne_nil fun hnil => ?_⟩
        rw [Records.bookedAt_eq_nil, ← huser, ← hstart, hlookup] at hnil
        cases hnil
      · intro _ _ r₁ r₂ r₃ hmay₁ hfree hmay₂ hmay₃
        have h₁ : Grown user start {} r₀ r₁ := (Peers.racers user start).trans hreached hmay₁
        split
        · next cause haccept =>
            intro r' _ hfor
            obtain ⟨huser, hstart, hstop, -⟩ := hslot hfor
            rw [accept_under_key hvacant huser hstart hstop h₁ hfree hmay₂ hmay₃] at haccept
            cases haccept
        · next haccept =>
            intro stamp r₄ r₅ hmay₄ hstamp hmay₅
            have hentering := entering_of_accept hvacant hrules h₁ hfree hmay₂ hmay₃ haccept
              hmay₄ hstamp hmay₅
            rw [conflicts_booking hentering.free, if_neg Bool.false_ne_true]
            exact ⟨⟨request, stamp, rfl, rfl, rfl, hentering⟩, rfl⟩
  | _ => exact hcall.elim

end Reservations

theorem Store.Call.Contends.reserves {call : Call} (h : call.Contends user start stop) :
    call.Reserves := by
  cases call with
  | createBooking request => trivial
  | _ => exact h.elim

/-! ## The ledger of the winners -/

namespace Store.Hall

/-- The callers who have booked a start, with their answers. -/
def winners (user : String) (start : Instant) (h : Hall) : List (Nat × Answer) :=
  h.commits.filterMap fun caller => (h.success? caller).bind fun success =>
    if success.1.isFor user start then some (caller, success.2) else none

/-- The winners are those whose bookings are on record, and there is at most one. -/
structure Raced (user : String) (start : Instant) (r : Records) (h : Hall) : Prop where
  fair : h.Fair (Peers.racers user start) (Pledge.racer user start) r
  tallied : h.Tallied
  ledger : (h.winners user start).map Prod.snd =
    (h.machine.records.bookedAt user start).map Answer.booking
  once : (h.winners user start).length ≤ 1

theorem mem_winners {h : Hall} (ht : h.Tallied) {caller : Nat} {call : Call} {answer : Answer}
    (hsuccess : h.success? caller = some (call, answer))
    (hfor : call.isFor user start = true) : (caller, answer) ∈ h.winners user start := by
  refine List.mem_filterMap.mpr ⟨caller, ?_, ?_⟩
  · rw [ht.answered, hsuccess]
    rfl
  · rw [hsuccess, Option.bind_some, if_pos hfor]

theorem visit_of_winner {h : Hall} (hfinished : h.Finished) {caller : Nat} {answer : Answer}
    (hmem : (caller, answer) ∈ h.winners user start) :
    ∃ v, h.visits[caller]? = some v ∧ v.call.isFor user start = true ∧
      v.stage = .ended (.ok answer) := by
  obtain ⟨other, -, hother⟩ := List.mem_filterMap.mp hmem
  cases hv : h.visits[other]? with
  | none =>
      rw [success?, hv] at hother
      cases hother
  | some v =>
      have hended := hfinished v (List.mem_of_getElem? hv)
      rw [success?_eq hv] at hother
      cases hstage : v.stage with
      | active p place? =>
          rw [hstage] at hended
          cases hended
      | waiting key request next place =>
          rw [hstage] at hended
          cases hended
      | ended result =>
          rw [hstage] at hother
          cases result with
          | error cause => cases hother
          | ok answer' =>
              change (if v.call.isFor user start then some (other, answer') else none) = _
                at hother
              split at hother
              · next hfor =>
                  cases hother
                  exact ⟨v, hv, hfor, hstage⟩
              · cases hother

theorem Raced.commit {r : Records} {h h' : Hall} (hr : h.Raced user start r)
    (hfair : h'.Fair (Peers.racers user start) (Pledge.racer user start) r) {caller : Nat}
    {call : Call} {t : Transaction} {answer : Answer}
    (hc : Commit (Pledge.racer user start) h h' caller call t answer) :
    h'.Raced user start r := by
  obtain ⟨request, stamp, rfl, rfl, hanswer, hentering⟩ := hc.pledged
  cases hanswer
  have hwinners := hr.tallied.filterMap_commit hc fun caller success =>
    if success.1.isFor user start then some (caller, success.2) else none
  change h'.winners user start = h.winners user start ++ _ at hwinners
  have hbooked : h'.machine.records.bookedAt user start =
      h.machine.records.bookedAt user start ++
        if (Call.createBooking request).isFor user start then [newBooking stamp request]
        else [] := by
    rw [hc.records, publish_booking]
    rw [Records.bookedAt]
    rw [put_of_fresh hentering.fresh, List.filter_append, List.filter_cons, List.filter_nil]
    have hconfirmed : (newBooking stamp request).isConfirmed = true := rfl
    rw [hconfirmed, Bool.and_true]
    rfl
  refine ⟨hfair, hr.tallied.commit hc, ?_, ?_⟩
  · rw [hwinners, hbooked, List.map_append, List.map_append, hr.ledger]
    split <;> rfl
  · rw [hwinners]
    split
    · next hfor =>
        -- The start was free at the commit, so nobody has won before.
        simp only [Call.isFor, Bool.and_eq_true, beq_iff_eq] at hfor
        have hfree := hentering.free
        rw [hfor.1, hfor.2, ← Records.bookedAt_eq_nil] at hfree
        have hledger := hr.ledger
        rw [hfree, List.map_nil, List.map_eq_nil_iff] at hledger
        rw [hledger]
        exact Nat.le_refl 1
    · rw [Option.toList_none, List.append_nil]
      exact hr.once

theorem Raced.take {r : Records} {h : Hall} (hr : h.Raced user start r)
    (hvacant : Vacant user start stop r) (hrules : r.RulesValid) (event : Event)
    (hcall : ∀ call, event = .call call → call.Contends user start stop) :
    (h.take event).Raced user start r := by
  have hfair := hr.fair.take pact_racers event fun call heq r' hreached =>
    keeps_racing hvacant hrules (hcall call heq) hreached
  rcases hr.fair.take_cases pact_racers racer_done event
      (fun call heq => answer?_reserves (hcall call heq).reserves) with
    ⟨hcommits, hrecords, hsuccess⟩ | ⟨caller, call, t, answer, hc⟩
  · have hwinners : (h.take event).winners user start = h.winners user start := by
      unfold winners
      rw [hcommits, show (h.take event).success? = h.success? from funext hsuccess]
    refine ⟨hfair, hr.tallied.of_eq hcommits hsuccess, ?_, ?_⟩
    · rw [hwinners, hrecords]
      exact hr.ledger
    · rw [hwinners]
      exact hr.once
  · exact hr.commit hfair hc

theorem Raced.run {r : Records} (hvacant : Vacant user start stop r) (hrules : r.RulesValid)
    {events : List Event} (hcalls : ∀ call, .call call ∈ events → call.Contends user start stop)
    {h : Hall} (hr : h.Raced user start r) : (h.run events).Raced user start r := by
  induction events generalizing h with
  | nil => exact hr
  | cons event events ih =>
      refine ih (fun call hcall => hcalls call (List.mem_cons_of_mem event hcall)) ?_
      refine hr.take hvacant hrules event fun call heq => ?_
      exact hcalls call (by rw [heq]; exact List.mem_cons_self)

/-- A caller who wanted the slot has won, or was told that it is booked, and it is. -/
theorem Raced.ended_cases {r : Records} {h : Hall} (hr : h.Raced user start r)
    (hfinished : h.Finished) {caller : Nat} {v : Visit} (hv : h.visits[caller]? = some v)
    (hfor : v.call.isFor user start = true) :
    (∃ answer, v.stage = .ended (.ok answer) ∧ (caller, answer) ∈ h.winners user start) ∨
      v.stage = .ended (.error .alreadyBooked) ∧
        h.machine.records.bookedAt user start ≠ [] := by
  have hkeeps := hr.fair.keeps hv
  have hended := hfinished v (List.mem_of_getElem? hv)
  cases hstage : v.stage with
  | active p place? =>
      rw [hstage] at hended
      cases hended
  | waiting key request next place =>
      rw [hstage] at hended
      cases hended
  | ended result =>
      cases result with
      | error cause =>
          rw [hstage] at hkeeps
          obtain ⟨rfl, hbooked⟩ := hkeeps hfor
          exact Or.inr ⟨rfl, hbooked⟩
      | ok answer =>
          refine Or.inl ⟨answer, rfl, mem_winners hr.tallied ?_ hfor⟩
          rw [success?_eq hv, hstage]
          rfl

/-- If the start is booked, there is one booking of it and one caller who has got it. -/
theorem Raced.exists_winner {r : Records} {h : Hall} (hr : h.Raced user start r)
    (hbooked : h.machine.records.bookedAt user start ≠ []) :
    ∃ winner booking, h.winners user start = [(winner, .booking booking)] ∧
      h.machine.records.bookedAt user start = [booking] := by
  have hledger := hr.ledger
  have honce := hr.once
  have hlength := congrArg List.length hledger
  rw [List.length_map, List.length_map] at hlength
  cases hlist : h.machine.records.bookedAt user start with
  | nil => exact absurd hlist hbooked
  | cons booking rest =>
      rw [hlist] at hledger hlength
      cases hwinners : h.winners user start with
      | nil =>
          rw [hwinners] at hlength
          cases hlength
      | cons entry entries =>
          rw [hwinners, List.length_cons] at honce hlength
          rw [List.length_cons] at hlength
          have hentries : entries.length = 0 := by omega
          have hrest : rest.length = 0 := by omega
          obtain rfl : entries = [] := List.length_eq_zero_iff.mp hentries
          obtain rfl : rest = [] := List.length_eq_zero_iff.mp hrest
          rw [hwinners] at hledger
          obtain ⟨winner, answer⟩ := entry
          cases hledger
          exact ⟨winner, booking, rfl, rfl⟩

end Store.Hall

/-! ## Slots that are listed -/

/-- The free slots of a user between two instants. -/
def Store.Records.listed (r : Records) (user : String) (before after : Instant) :
    Except Error (List Interval) :=
  Service.window before after >>= freeWithin (r.rulesOf user) (r.load user)

/-- A listing answers with the free slots on record, or with what is wrong with them. -/
theorem keeps_listSlots (user : String) (before after : Instant) (r : Records) :
    (Call.listSlots user before after).program.Keeps (Peers.nobody fun _ => True)
      (Pledge.outcome fun result r' =>
        result = (r.listed user before after).map Answer.slots ∧ r' = r) none r := by
  show ((Service.listSlots user before after).bind _).Keeps _ _ _ _
  rw [Program.keeps_bind]
  show ((Program.ofExcept (Service.window before after)).bind _).Keeps _ _ _ _
  unfold Records.listed
  cases hwindow : Service.window before after with
  | error cause =>
      rintro r' rfl
      exact ⟨rfl, rfl⟩
  | ok window =>
      rintro r' rfl
      show ((Service.slotsWithin user window).bind _).Keeps _ _ _ _
      rw [Program.keeps_bind, ok_bind]
      refine keeps_slotsWithin ?_
      rintro r₁ r₂ rfl rfl
      cases hslots : freeWithin (r₂.rulesOf user) (r₂.load user) window with
      | error cause =>
          rintro r' rfl
          exact ⟨rfl, rfl⟩
      | ok slots =>
          rintro r' rfl
          split
          · next hconflict => cases hconflict
          · exact ⟨trivial, rfl, rfl, rfl⟩

/-- A listing that was alone, and has come to an end, has ended with what is on record. -/
theorem Store.Alone.listing {m m' : Machine} {before after : Instant}
    {result : Except Error Answer} (h : Alone m (.listSlots user before after) result m') :
    result = (m.records.listed user before after).map Answer.slots :=
  (h.fulfils (keeps_listSlots user before after m.records)).1

theorem Store.Alone.listed {m m' : Machine} {before after : Instant} {slots : List Interval}
    (h : Alone m (.listSlots user before after) (.ok (.slots slots)) m') :
    m.records.listed user before after = .ok slots := by
  have hresult := h.listing
  cases hlisted : m.records.listed user before after with
  | error cause =>
      rw [hlisted] at hresult
      cases hresult
  | ok slots' =>
      rw [hlisted] at hresult
      cases hresult
      rfl

theorem keyless_of_asks {α : Type} {p : Program α}
    (h : p.Asks fun request => keyOf? request = none) : Keyless p := by
  induction p with
  | done a => trivial
  | fail cause => trivial
  | opening next ih => exact h.elim
  | ask request next ih => exact ⟨h.1, fun reply => ih reply (h.2 reply)⟩
  | closing next ih => exact h.elim

theorem keyless_listSlots (user : String) (start stop : Instant) :
    Keyless (Call.listSlots user start stop).program := by
  refine keyless_bind ?_ fun _ => trivial
  show Keyless ((Program.ofExcept (Service.window start stop)).bind _)
  refine keyless_bind ?_ fun window => ?_
  · cases Service.window start stop <;> trivial
  · have hasks : (Service.slotsWithin user window).Asks fun request => keyOf? request = none := by
      refine asks_slotsWithin ?_ ?_ window
      · rfl
      · exact fun _ _ => rfl
    exact keyless_bind (keyless_of_asks hasks) fun _ => trivial

/-- A listing comes to an end on every machine, whatever keys are in use. -/
theorem exists_listing (m : Machine) (user : String) (before after : Instant) :
    ∃ m', Alone m (.listSlots user before after)
      ((m.records.listed user before after).map Answer.slots) m' := by
  obtain ⟨result, m', halone, -⟩ := Alone.exists_keyless
    (keyless_listSlots user before after) (keeps_listSlots user before after m.records)
  rw [halone.listing] at halone
  exact ⟨m', halone⟩

/-- A listing that is served alone comes to an end, and with a certain result. -/
def Store.Machine.Lists (m : Machine) (user : String) (before after : Instant)
    (result : Except Error Answer) : Prop :=
  (∃ m', Alone m (.listSlots user before after) result m') ∧
    ∀ result' m', Alone m (.listSlots user before after) result' m' → result' = result

theorem lists_iff {m : Machine} {before after : Instant} {result : Except Error Answer} :
    m.Lists user before after result ↔
      (m.records.listed user before after).map Answer.slots = result := by
  constructor
  · rintro ⟨⟨m', halone⟩, -⟩
    exact halone.listing.symm
  · rintro rfl
    exact ⟨exists_listing m user before after, fun _ _ halone => halone.listing⟩

theorem lists_slots_iff {m : Machine} {before after : Instant} {slots : List Interval} :
    m.Lists user before after (.ok (.slots slots)) ↔
      m.records.listed user before after = .ok slots := by
  rw [lists_iff]
  cases m.records.listed user before after with
  | error cause => exact iff_of_false (fun h => nomatch h) (fun h => nomatch h)
  | ok slots' =>
      constructor
      · intro h
        cases h
        rfl
      · intro h
        cases h
        rfl

/-- A slot that is listed between a second before and a second after it is vacant. -/
theorem vacant_of_listed {m m' : Machine} {before after : Instant} {slots : List Interval}
    (hbefore : start.shift? (-second) = some before) (hafter : stop.shift? second = some after)
    (hlisted : Alone m (.listSlots user before after) (.ok (.slots slots)) m')
    {slot : Interval} (hslot : slot ∈ slots) (hfrom : slot.isFrom start stop = true) :
    Vacant user start stop m.records := by
  obtain ⟨window, hwindow, hfree⟩ := bind_eq_ok.mp hlisted.listed
  intro request huser hstart hstop
  refine accept_eq_ok.mpr ⟨window, ?_, slots, hfree, slot, hslot, ?_⟩
  · have hfirst : start.shift? (-Service.revalidationMargin) = some before := hbefore
    have hlast : stop.shift? Service.revalidationMargin = some after := hafter
    rw [revalidated, hstart, hstop, hfirst, hlast]
    exact hwindow
  · rw [hstart, hstop]
    exact hfrom

/-! ## Who wins the race -/

/-- Callers who book, and who all ask for the same slot and give an address if they want a certain
start at all. The slot is listed as free when the first of them comes in, and some of them want it.
When all of them have been served, in whatever order they took their turns, one of these has got
the booking, which is the only confirmed one with that start, and every other one of them has been
told that it is booked. -/
theorem one_winner {m m' : Machine} (hm : m.Settled) {before after : Instant}
    {slots : List Interval} {slot : Interval}
    (hbefore : start.shift? (-second) = some before) (hafter : stop.shift? second = some after)
    (hlisted : Alone m (.listSlots user before after) (.ok (.slots slots)) m')
    (hslot : slot ∈ slots) (hfrom : slot.isFrom start stop = true) {events : List Event}
    (hcalls : ∀ call, .call call ∈ events → call.Contends user start stop)
    (hsome : ∃ call, .call call ∈ events ∧ call.isFor user start = true)
    (hfinished : (Hall.run { machine := m } events).Finished) :
    let h := Hall.run { machine := m } events
    ∃ (winner : Nat) (v : Visit) (booking : Booking), h.visits[winner]? = some v ∧
      v.call.isFor user start = true ∧ v.stage = .ended (.ok (.booking booking)) ∧
      (∀ (other : Nat) (w : Visit), h.visits[other]? = some w →
        w.call.isFor user start = true → other ≠ winner →
        w.stage = .ended (.error .alreadyBooked)) ∧
      m.records.bookedAt user start = [] ∧
      h.machine.records.bookedAt user start = [booking] := by
  intro h
  obtain ⟨hlocks, horderly, hrules⟩ := hm.spec
  have hvacant := vacant_of_listed hbefore hafter hlisted hslot hfrom
  have hr : h.Raced user start m.records := by
    refine Hall.Raced.run hvacant hrules hcalls ?_
    refine ⟨Hall.Fair.start horderly, Hall.tallied_start m, ?_, Nat.zero_le _⟩
    rw [hvacant.bookedAt]
    rfl
  have hbooked : h.machine.records.bookedAt user start ≠ [] := by
    obtain ⟨call, hcall, hfor⟩ := hsome
    have hmem : call ∈ h.visits.map Visit.call := by
      rw [Hall.calls_run]
      exact List.mem_append_right _ (List.mem_filterMap.mpr ⟨_, hcall, rfl⟩)
    obtain ⟨v, hv, rfl⟩ := List.mem_map.mp hmem
    obtain ⟨caller, hcaller⟩ := List.getElem?_of_mem hv
    rcases hr.ended_cases hfinished hcaller hfor with ⟨answer, -, hwinner⟩ | ⟨-, hbooked⟩
    · intro hnil
      have hledger := hr.ledger
      rw [hnil, List.map_nil, List.map_eq_nil_iff] at hledger
      rw [hledger] at hwinner
      cases hwinner
    · exact hbooked
  obtain ⟨winner, booking, hwinners, hone⟩ := hr.exists_winner hbooked
  have hmem : (winner, .booking booking) ∈ h.winners user start := by
    rw [hwinners]
    exact List.mem_singleton_self _
  obtain ⟨v, hv, hfor, hstage⟩ := Hall.visit_of_winner hfinished hmem
  refine ⟨winner, v, booking, hv, hfor, hstage, ?_, hvacant.bookedAt, hone⟩
  intro other w hw hother hne
  rcases hr.ended_cases hfinished hw hother with ⟨answer, -, hwinner⟩ | ⟨hlost, -⟩
  · rw [hwinners] at hwinner
    cases List.mem_singleton.mp hwinner
    exact absurd rfl hne
  · exact hlost

/-- Whether a call has been answered with slots, a given one among them. -/
def Store.Stage.lists (start stop : Instant) : Stage Answer → Bool
  | .ended (.ok (.slots slots)) => slots.any (·.isFrom start stop)
  | _ => false

theorem Store.Stage.exists_of_lists {s : Stage Answer} (h : s.lists start stop = true) :
    ∃ slots slot, s = .ended (.ok (.slots slots)) ∧ slot ∈ slots ∧
      slot.isFrom start stop = true := by
  unfold lists at h
  split at h
  · next slots =>
      obtain ⟨slot, hslot, hfrom⟩ := List.any_eq_true.mp h
      exact ⟨slots, slot, rfl, hslot, hfrom⟩
  · cases h

/-- Two reservations of one slot and one of the slot after it. The second one looks the slot up
while the first one waits, and the third one commits before it. -/
def rush : List Event :=
  [.call (.createBooking firstSlot), .call (.createBooking firstSlot),
    .call (.createBooking { firstSlot with
      start := firstSlot.stop, stop := ⟨10 * hour + 40 * minute, by decide⟩ })] ++
    [0, 1, 1, 0, 2, 2, 1, 2, 2, 1].map (.turnOf · "") ++
    [.turnOf 2 "later", .turnOf 1 "booking"] ++ [2, 0, 1, 0, 0, 1, 2].map (.turnOf · "")

theorem one_winner_of_rush :
    (Hall.run { machine := opened } rush).Finished ∧
      ∃ (winner : Nat) (v : Visit) (booking : Booking),
        (Hall.run { machine := opened } rush).visits[winner]? = some v ∧
        v.call.isFor firstSlot.user firstSlot.start = true ∧
        v.stage = .ended (.ok (.booking booking)) ∧
        (∀ (other : Nat) (w : Visit),
          (Hall.run { machine := opened } rush).visits[other]? = some w →
          w.call.isFor firstSlot.user firstSlot.start = true → other ≠ winner →
          w.stage = .ended (.error .alreadyBooked)) ∧
        opened.records.bookedAt firstSlot.user firstSlot.start = [] ∧
        (Hall.run { machine := opened } rush).machine.records.bookedAt firstSlot.user
          firstSlot.start = [booking] := by
  have hfinished : (Hall.run { machine := opened } rush).Finished := by decide +kernel
  have hbefore : firstSlot.start.shift? (-second) =
      some ⟨10 * hour - second, by decide⟩ := by decide
  have hafter : firstSlot.stop.shift? second =
      some ⟨10 * hour + 20 * minute + second, by decide⟩ := by decide
  have hlists : (Stage.turns 0 (List.replicate 5 ⟨⟨0, horizon_pos⟩, ""⟩)
      (.active (Call.listSlots firstSlot.user ⟨10 * hour - second, by decide⟩
        ⟨10 * hour + 20 * minute + second, by decide⟩).program none) opened).1.lists
      firstSlot.start firstSlot.stop = true := by decide +kernel
  obtain ⟨slots, slot, hended, hslot, hfrom⟩ := Stage.exists_of_lists hlists
  have hlisted : Alone opened _ (.ok (.slots slots)) _ := ⟨_, Prod.ext hended rfl⟩
  have hcalls : ∀ call, .call call ∈ rush →
      call.Contends firstSlot.user firstSlot.start firstSlot.stop := by
    intro call hcall
    simp only [rush, Event.turnOf] at hcall
    simp at hcall
    rcases hcall with rfl | rfl
    · exact fun _ _ => ⟨rfl, by decide⟩
    · intro _ hstart
      revert hstart
      decide
  have hsome : ∃ call, .call call ∈ rush ∧
      call.isFor firstSlot.user firstSlot.start = true :=
    ⟨.createBooking firstSlot, List.mem_cons_self, by decide⟩
  exact ⟨hfinished,
    one_winner settled_opened hbefore hafter hlisted hslot hfrom hcalls hsome hfinished⟩

end Bookable
