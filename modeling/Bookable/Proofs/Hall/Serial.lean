import Bookable.Proofs.Hall.Alone
import Bookable.Proofs.Hall.Commits
import Bookable.Proofs.Hall.Rules

/-!
# Interleaved reservations and cancellations are serializable

While rules stay as they are, what a reservation has read stays true until it commits:
the start that it looked up is locked, so that no other reservation can take it, and a
cancellation only makes room. In the same way a booking whose key is locked stays
confirmed. This is `Kept`, and it is all that the calls rely on. A reservation can
therefore be decided by the records of the moment of its commit, where it would come to
the same result, and the calls that commit do one after the other, each of them alone,
what they did among each other.
-/

namespace Bookable

open Store Time

/-! ## What the two commits do to the records -/

theorem publish_booking (request : BookingRequest) (stamp : Stamp) (r : Records) :
    (request.booking stamp).publish r =
      { r with bookings := put Booking.id (newBooking stamp request) r.bookings } := rfl

theorem publish_cancelling (id : String) (r : Records) :
    (cancelling id [id]).publish r = { r with bookings := cancelOne id r.bookings } := rfl

theorem statusOf_put {r : Records} {b : Booking} (hb : b.status = .confirmed) {id : String}
    (h : r.statusOf id = some .confirmed) :
    ({ r with bookings := put Booking.id b r.bookings } : Records).statusOf id =
      some .confirmed := by
  rw [Records.statusOf] at h ⊢
  show ((put Booking.id b r.bookings).find? fun b => b.id == id).map Booking.status = _
  generalize r.bookings = bookings at h
  induction bookings with
  | nil => cases h
  | cons c rest ih =>
      rw [put]
      rw [List.find?_cons] at h
      split
      · next hid =>
          rw [List.find?_cons]
          by_cases hcid : c.id = id
          · rw [beq_iff_eq.mpr (hid.symm.trans hcid)]
            exact congrArg some hb
          · have hbid : b.id ≠ id := fun hbid => hcid (hid.trans hbid)
            rw [beq_eq_false_iff_ne.mpr hcid] at h
            rw [beq_eq_false_iff_ne.mpr hbid]
            exact h
      · rw [List.find?_cons]
        cases hcid : c.id == id with
        | true =>
            rw [hcid] at h
            exact h
        | false =>
            rw [hcid] at h
            exact ih h

theorem statusOf_cancelOne {r : Records} {id other : String} (hne : other ≠ id) :
    ({ r with bookings := cancelOne id r.bookings } : Records).statusOf other =
      r.statusOf other := by
  unfold Records.statusOf
  show ((cancelOne id r.bookings).find? fun b => b.id == other).map Booking.status = _
  generalize r.bookings = bookings
  induction bookings with
  | nil => rfl
  | cons b rest ih =>
      rw [cancelOne, List.map_cons, List.find?_cons, List.find?_cons, ← cancelOne]
      by_cases hid : b.id = id
      · have hother : (b.id == other) = false :=
          beq_eq_false_iff_ne.mpr fun h => hne (h.symm.trans hid)
        rw [if_pos hid]
        simp only [hother]
        exact ih
      · rw [if_neg hid]
        cases hother : b.id == other with
        | true => rfl
        | false => exact ih

theorem mem_cancelOne {id : String} {bookings : List Booking} {b : Booking}
    (hb : b ∈ cancelOne id bookings) (hconfirmed : b.isConfirmed = true) : b ∈ bookings := by
  obtain ⟨a, ha, rfl⟩ := List.mem_map.mp hb
  split at hconfirmed
  · cases hconfirmed
  · next hid =>
      rw [if_neg hid]
      exact ha

/-! ## Peers that book and cancel -/

/-- What the holder of some keys can rely on: the rules are the same, nobody books a start whose
key it holds, and a booking whose key it holds stays confirmed. -/
structure Kept (t : Transaction) (r r' : Records) : Prop where
  rules : r'.rules = r.rules
  starts : ∀ user second, Key.start user second ∈ t.held → ∀ b ∈ r'.bookings,
    b.isConfirmed = true → b.user = user → b.start.unixSecond = second → b ∈ r.bookings
  status : ∀ id, Key.booking id ∈ t.held → r.statusOf id = some .confirmed →
    r'.statusOf id = some .confirmed

def Store.Peers.bookers : Peers where
  may := Kept
  stamps _ _ := True
  refl _ _ := ⟨rfl, fun _ _ _ _ hb _ _ _ => hb, fun _ _ h => h⟩
  trans h h' := by
    refine ⟨h'.rules.trans h.rules, ?_, fun id hid hs => h'.status id hid (h.status id hid hs)⟩
    intro user second hkey b hb hconfirmed huser hsecond
    exact h.starts user second hkey b (h'.starts user second hkey b hb hconfirmed huser hsecond)
      hconfirmed huser hsecond

theorem Kept.of_held {t u : Transaction} (hheld : t.held = u.held) {r r' : Records}
    (h : Kept t r r') : Kept u r r' := by
  refine ⟨h.rules, ?_, ?_⟩
  · rw [← hheld]
    exact h.starts
  · rw [← hheld]
    exact h.status

theorem Kept.rulesOf {t : Transaction} {r r' : Records} (h : Kept t r r') (user : String) :
    r'.rulesOf user = r.rulesOf user := by
  unfold Records.rulesOf
  rw [h.rules]

/-- A booking is confirmed in a start that the holder of its key has found free. -/
theorem Kept.confirmedAt {request : BookingRequest} {t : Transaction}
    (hkey : request.key ∈ t.held) {r r' : Records} (h : Kept t r r')
    (hfree : r.confirmedAt request.user request.start = none) :
    r'.confirmedAt request.user request.start = none := by
  rw [Records.confirmedAt_eq_none] at hfree ⊢
  intro b hb hconfirmed huser hstart
  refine hfree b (h.starts _ _ hkey b hb hconfirmed huser ?_) hconfirmed huser hstart
  rw [hstart]

/-- A request that a reservation accepts on some records. -/
structure Admissible (request : BookingRequest) (r : Records) : Prop where
  email : Service.hasEmail request.email = true
  ordered : request.start < request.stop
  free : r.confirmedAt request.user request.start = none
  admitted : accept (r.rulesOf request.user) (r.load request.user) request = .ok ()

/-- A reservation that commits would be accepted at that moment; a cancellation that commits
cancels a booking that is confirmed at that moment. -/
def Store.Pledge.booker (call : Call) : Pledge Answer where
  commits t next r :=
    match call with
    | .createBooking request => Admissible request r ∧ ∃ stamp, t = request.booking stamp ∧
        next = .done (.booking (newBooking stamp request))
    | .cancelBooking id => r.statusOf id = some .confirmed ∧ t = cancelling id [id] ∧
        next = .done .nothing
    | _ => False
  clashes _ _ := False
  fails _ _ := True
  ends _ t? _ := t? = none

def Store.Call.Reserves : Call → Prop
  | .createBooking _ => True
  | .cancelBooking _ => True
  | _ => False

theorem conflicts_booking {request : BookingRequest} {r : Records}
    (hfree : r.confirmedAt request.user request.start = none) (stamp : Stamp) :
    (request.booking stamp).conflicts r = false := by
  rw [Records.confirmedAt_eq_none] at hfree
  refine Transaction.conflicts_eq_false_iff.mpr fun new hnew old hold hconfirmed huser hstart => ?_
  cases List.mem_singleton.mp hnew
  exact absurd hstart (hfree old hold hconfirmed huser)

theorem keeps_createBooking_bookers (request : BookingRequest) (r : Records) :
    (Call.createBooking request).program.Keeps Peers.bookers
      (Pledge.booker (.createBooking request)) none r := by
  show ((Service.createBooking request).bind _).Keeps _ _ _ _
  rw [Program.keeps_bind]
  refine keeps_createBooking (fun _ _ _ => trivial) (fun _ _ _ => trivial)
    (fun _ _ _ _ _ _ => trivial) fun hemail hord r₁ r₂ r₃ _ hfree hmay₂ hmay₃ => ?_
  split
  · exact fun _ _ => trivial
  · next haccept =>
      intro stamp r₄ r₅ hmay₄ _ hmay₅
      have hkey : request.key ∈ request.holding.held := List.mem_singleton.mpr rfl
      -- From the read of the bookings to the commit, everything that was read stays true.
      have hmay : Kept request.holding r₃ r₅ :=
        Peers.bookers.trans (t := request.holding) hmay₄
          (Kept.of_held (t := request.booking stamp) (u := request.holding) rfl hmay₅)
      have hfree' : r₅.confirmedAt request.user request.start = none :=
        hmay.confirmedAt hkey (hmay₃.confirmedAt hkey (hmay₂.confirmedAt hkey hfree))
      rw [conflicts_booking hfree', if_neg Bool.false_ne_true]
      refine ⟨⟨⟨hemail, hord, hfree', ?_⟩, stamp, rfl, rfl⟩, rfl⟩
      have hrules : r₅.rulesOf request.user = r₂.rulesOf request.user :=
        (hmay.rulesOf _).trans (hmay₃.rulesOf _)
      rw [hrules]
      refine accept_of_second haccept fun range b hb hconfirmed hsecond => ?_
      unfold Records.load Records.confirmedWithin at hb ⊢
      rw [List.mem_filter] at hb ⊢
      refine ⟨?_, hb.2⟩
      simp only [Bool.and_eq_true, beq_iff_eq] at hb
      exact hmay.starts _ _ hkey b hb.1 hconfirmed hb.2.1.1 hsecond

theorem keeps_cancelBooking_bookers (id : String) (r : Records) :
    (Call.cancelBooking id).program.Keeps Peers.bookers (Pledge.booker (.cancelBooking id))
      none r := by
  show ((Service.cancelBooking id).bind _).Keeps _ _ _ _
  rw [Program.keeps_bind]
  refine keeps_cancelBooking (fun _ _ _ _ _ => trivial) (fun _ _ _ _ _ => trivial)
    fun r₁ r₂ _ _ _ => ?_
  split
  · next hstatus =>
      intro r₃ hmay
      have hkey : Key.booking id ∈ (cancelling id [id]).held := List.mem_singleton.mpr rfl
      exact ⟨⟨hmay.status id hkey hstatus, rfl, rfl⟩, rfl⟩
  · exact fun _ _ => trivial

theorem keeps_reserves {call : Call} (hcall : call.Reserves) (r : Records) :
    call.program.Keeps Peers.bookers (Pledge.booker call) none r := by
  cases call with
  | createBooking request => exact keeps_createBooking_bookers request r
  | cancelBooking id => exact keeps_cancelBooking_bookers id r
  | _ => exact hcall.elim

/-- What a reservation commits is a booking in a start whose key nobody else holds. -/
theorem kept_publish_booking {request : BookingRequest} {stamp : Stamp} {u : Transaction}
    (hapart : u.Apart (request.booking stamp)) (r : Records) :
    Kept u r ((request.booking stamp).publish r) := by
  rw [publish_booking]
  refine ⟨rfl, ?_, fun id _ hstatus => statusOf_put rfl hstatus⟩
  intro user second hkey b hb _ huser hsecond
  rcases mem_of_mem_put hb with rfl | hb
  · refine absurd (List.mem_singleton.mpr ?_) (hapart.1 _ hkey)
    rw [← huser, ← hsecond]
    rfl
  · exact hb

/-- What a cancellation commits leaves every other booking as it was. -/
theorem kept_publish_cancelling {id : String} {u : Transaction}
    (hapart : u.Apart (cancelling id [id])) (r : Records) :
    Kept u r ((cancelling id [id]).publish r) := by
  rw [publish_cancelling]
  refine ⟨rfl, ?_, ?_⟩
  · exact fun user second _ b hb hconfirmed _ _ => mem_cancelOne hb hconfirmed
  · intro other hkey hstatus
    rw [statusOf_cancelOne]
    · exact hstatus
    · rintro rfl
      exact hapart.1 _ hkey (List.mem_singleton.mpr rfl)

theorem pact_bookers : Hall.Pact Peers.bookers Pledge.booker where
  sound call := by
    refine ⟨fun h => (nomatch h), fun h _ => h, fun _ _ => trivial, ?_⟩
    intro t next r hcommits _ u hapart
    cases call with
    | createBooking request =>
        obtain ⟨-, stamp, rfl, -⟩ := hcommits
        exact kept_publish_booking hapart r
    | cancelBooking id =>
        obtain ⟨-, rfl, -⟩ := hcommits
        exact kept_publish_cancelling hapart r
    | _ => exact hcommits.elim
  stamps _ := trivial

theorem booker_done {call : Call} {t : Transaction} {next : Program Answer} {r : Records}
    (h : (Pledge.booker call).commits t next r) : ∃ a, next = .done a := by
  cases call with
  | createBooking request =>
      obtain ⟨-, stamp, -, rfl⟩ := h
      exact ⟨_, rfl⟩
  | cancelBooking id =>
      obtain ⟨-, -, rfl⟩ := h
      exact ⟨_, rfl⟩
  | _ => exact h.elim

theorem answer?_reserves {call : Call} (hcall : call.Reserves) :
    (Stage.active call.program none).answer? = none := by
  cases call with
  | createBooking request =>
      show (Stage.active ((Service.createBooking request).bind _) none).answer? = none
      rw [createBooking_eq]
      split
      · split <;> rfl
      · rfl
  | cancelBooking id => rfl
  | _ => exact hcall.elim

/-! ## The same call alone -/

/-- To succeed with an answer and with certain records, or not at all. -/
def Store.Pledge.succeed (answer : Answer) (expected : Records) : Pledge Answer where
  commits _ _ _ := True
  clashes _ _ := False
  fails _ _ := False
  ends a t? r := t? = none ∧ a = answer ∧ r = expected

theorem succeed_outside {answer a : Answer} {expected r : Records} {t : Transaction} :
    ¬ (Pledge.succeed answer expected).ends a (some t) r :=
  fun h => nomatch h.1

theorem keeps_createBooking_alone {request : BookingRequest} {r : Records}
    (h : Admissible request r) (stamp : Stamp) :
    (Call.createBooking request).program.Keeps (Peers.nobody (· = stamp))
      (Pledge.succeed (.booking (newBooking stamp request))
        ((request.booking stamp).publish r)) none r := by
  show ((Service.createBooking request).bind _).Keeps _ _ _ _
  rw [Program.keeps_bind]
  refine keeps_createBooking ?_ ?_ ?_ ?_
  · intro hemail
    rw [h.email] at hemail
    cases hemail
  · exact fun hord => absurd h.ordered hord
  · rintro r₁ id rfl hlookup
    rw [h.free] at hlookup
    cases hlookup
  · rintro _ _ r₁ r₂ r₃ rfl _ rfl rfl
    rw [h.admitted]
    rintro _ r₄ r₅ rfl rfl rfl
    rw [conflicts_booking h.free, if_neg Bool.false_ne_true]
    exact ⟨trivial, rfl, rfl, rfl⟩

theorem keeps_cancelBooking_alone {id : String} {r : Records}
    (h : r.statusOf id = some .confirmed) (drawn : Stamp → Prop) :
    (Call.cancelBooking id).program.Keeps (Peers.nobody drawn)
      (Pledge.succeed .nothing ((cancelling id [id]).publish r)) none r := by
  show ((Service.cancelBooking id).bind _).Keeps _ _ _ _
  rw [Program.keeps_bind]
  refine keeps_cancelBooking ?_ ?_ ?_
  · rintro r₁ rfl hstatus
    rw [h] at hstatus
    cases hstatus
  · rintro r₁ rfl hstatus
    rw [h] at hstatus
    cases hstatus
  · rintro r₁ r₂ rfl _ rfl
    rw [if_pos h]
    rintro r₃ rfl
    exact ⟨trivial, rfl, rfl, rfl⟩

/-- A call that commits would do the same if it were alone. -/
theorem alone_of_commits {call : Call} {t : Transaction} {answer : Answer} {m : Machine}
    (h : (Pledge.booker call).commits t (.done answer) m.records)
    (hlocks : m.registry.locks = []) :
    ∃ m', Alone m call (.ok answer) m' ∧ m'.registry.locks = [] ∧
      m'.records = t.publish m.records := by
  have succeeds : ∀ (drawn : Stamp → Prop) (stamp : Stamp), drawn stamp →
      call.program.Keeps (Peers.nobody drawn) (Pledge.succeed answer (t.publish m.records))
        none m.records →
      ∃ m', Alone m call (.ok answer) m' ∧ m'.registry.locks = [] ∧
        m'.records = t.publish m.records := by
    intro drawn stamp hdrawn hkeeps
    obtain ⟨result, m', halone, hlocks', hended⟩ :=
      Alone.exists succeed_outside hdrawn hlocks hkeeps
    cases result with
    | error cause => exact hended.elim
    | ok a =>
        obtain ⟨-, rfl, hrecords⟩ := hended
        exact ⟨m', halone, hlocks', hrecords⟩
  cases call with
  | createBooking request =>
      obtain ⟨hadmissible, stamp, rfl, hanswer⟩ := h
      cases hanswer
      exact succeeds (· = stamp) stamp rfl (keeps_createBooking_alone hadmissible stamp)
  | cancelBooking id =>
      obtain ⟨hstatus, rfl, hanswer⟩ := h
      cases hanswer
      exact succeeds (fun _ => True) ⟨⟨0, horizon_pos⟩, ""⟩ trivial
        (keeps_cancelBooking_alone hstatus _)
  | _ => exact h.elim

/-! ## Serial execution -/

namespace Store.Hall

/-- The calls that have committed, with their answers, in the order of their commits. -/
def successes (h : Hall) : List (Call × Answer) := h.commits.filterMap h.success?

/-- What the calls have done so far, they do when they are alone, one after the other. -/
structure Serialized (m : Machine) (h : Hall) : Prop where
  fair : h.Fair Peers.bookers Pledge.booker m.records
  tallied : h.Tallied
  serial : ∃ m', Serial m h.successes m' ∧ m'.registry.locks = [] ∧
    m'.records = h.machine.records

theorem successes_commit {pledge : Call → Pledge Answer} {h h' : Hall} (ht : h.Tallied)
    {caller : Nat} {call : Call} {t : Transaction} {answer : Answer}
    (hc : Commit pledge h h' caller call t answer) :
    h'.successes = h.successes ++ [(call, answer)] := by
  have hlist := ht.filterMap_commit hc fun _ => some
  simp only [Option.bind_fun_some] at hlist
  exact hlist

theorem Serialized.take {m : Machine} {h : Hall} (hs : Serialized m h) (event : Event)
    (hcall : ∀ call, event = .call call → call.Reserves) : Serialized m (h.take event) := by
  have hfair := hs.fair.take pact_bookers event fun call heq r _ =>
    keeps_reserves (hcall call heq) r
  rcases hs.fair.take_cases pact_bookers booker_done event
      (fun call heq => answer?_reserves (hcall call heq)) with
    ⟨hcommits, hrecords, hsuccess⟩ | ⟨caller, call, t, answer, hc⟩
  · refine ⟨hfair, hs.tallied.of_eq hcommits hsuccess, ?_⟩
    obtain ⟨m', hserial, hlocks, heq⟩ := hs.serial
    refine ⟨m', ?_, hlocks, heq.trans hrecords.symm⟩
    rw [successes, hcommits, show (h.take event).success? = h.success? from funext hsuccess]
    exact hserial
  · refine ⟨hfair, hs.tallied.commit hc, ?_⟩
    obtain ⟨m', hserial, hlocks, heq⟩ := hs.serial
    have hpledged := hc.pledged
    rw [← heq] at hpledged
    obtain ⟨m'', halone, hlocks', heq'⟩ := alone_of_commits hpledged hlocks
    refine ⟨m'', ?_, hlocks', ?_⟩
    · rw [successes_commit hs.tallied hc]
      exact hserial.concat halone
    · rw [heq', heq, hc.records]

theorem Serialized.run {m : Machine} {events : List Event}
    (hcalls : ∀ call, .call call ∈ events → call.Reserves) {h : Hall}
    (hs : Serialized m h) : Serialized m (h.run events) := by
  induction events generalizing h with
  | nil => exact hs
  | cons event events ih =>
      refine ih (fun call hcall => hcalls call (List.mem_cons_of_mem event hcall)) ?_
      refine hs.take event fun call heq => ?_
      exact hcalls call (by rw [heq]; exact List.mem_cons_self)

end Store.Hall

/-- Calls that book and cancel, in any order of their turns, from a machine that the services have
left. No commit of theirs meets a conflict. Those that succeed are those that commit, and in the
order of their commits they also succeed one after the other, each of them alone, with the same
answers and the same records in the end. -/
theorem serial_in_commit_order {m : Machine} (hm : m.Settled) {events : List Event}
    (hcalls : ∀ call, .call call ∈ events → call.Reserves) :
    let h := Hall.run { machine := m } events
    (∀ caller next place, h.stage? caller = some (.active (.closing next) (some place)) →
        h.machine.publishes place.handle = true) ∧
      h.commits.Nodup ∧ (∀ caller, caller ∈ h.commits ↔ (h.success? caller).isSome) ∧
      ∃ m', Serial m h.successes m' ∧ m'.records = h.machine.records := by
  intro h
  obtain ⟨hlocks, horderly, -⟩ := hm.spec
  have hs : Hall.Serialized m h :=
    Hall.Serialized.run hcalls
      ⟨Hall.Fair.start horderly, Hall.tallied_start m, m, .nil m, hlocks, rfl⟩
  refine ⟨?_, hs.tallied.once, hs.tallied.answered, ?_⟩
  · intro caller next place hstage
    rw [Hall.stage?, Option.map_eq_some_iff] at hstage
    obtain ⟨v, hv, hstage⟩ := hstage
    have hkeeps := hs.fair.keeps hv
    rw [hstage] at hkeeps
    obtain ⟨hlive, hclose⟩ := hkeeps
    have hnow := hclose h.machine.records (Peers.bookers.refl _ _)
    cases hconflict : (h.machine.transaction place.handle).conflicts h.machine.records with
    | true =>
        rw [hconflict] at hnow
        exact hnow.1.elim
    | false => rw [Machine.publishes_of_live hlive.2, hconflict, Bool.not_false]
  · obtain ⟨m', hserial, -, heq⟩ := hs.serial
    exact ⟨m', hserial, heq⟩

/-- Two reservations of one slot and a cancellation. The second reservation is the first to look
the slot up, and what it books is cancelled before the run is over. -/
def contested : List Event :=
  [.call (.createBooking firstSlot), .call (.createBooking firstSlot)] ++
    [1, 1, 0, 0, 1, 1].map (.turnOf · "") ++ [.turnOf 1 "booking", .turnOf 1 ""] ++
    [.call (.cancelBooking "booking")] ++ [2, 2, 0, 2, 2, 0, 2].map (.turnOf · "")

theorem serial_contested :
    (Hall.run { machine := opened } contested).commits = [1, 2] ∧
      ∃ m', Serial opened (Hall.run { machine := opened } contested).successes m' ∧
        m'.records = (Hall.run { machine := opened } contested).machine.records := by
  have hcalls : ∀ call, .call call ∈ contested → call.Reserves := by
    intro call hcall
    simp [contested, Event.turnOf] at hcall
    rcases hcall with rfl | rfl <;> trivial
  obtain ⟨-, -, -, hserial⟩ := serial_in_commit_order settled_opened hcalls
  exact ⟨by decide +kernel, hserial⟩

end Bookable
