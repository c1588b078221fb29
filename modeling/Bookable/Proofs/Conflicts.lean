import Bookable.Proofs.Hall.Race
import Bookable.Proofs.Interchange
import Bookable.Proofs.Slots.Causes

/-!
# What a conflict says

A reservation on tables is told of a conflict in two places: where its start is looked
up, and where its booking is inserted. At the insertion everything that the table does
not accept is reported as a conflict, so the report says what it seems to say only if
nothing else is ever refused there. On tables that calls have left nothing is. The
identifier is new, since all identifiers on record were given out before. What is
missing in a request is filled with empty texts, all but the address, without which a
request does not get there. And the start is free, since it was looked up in the same
transaction.

So a conflict is reported exactly for a request that is complete and in order and whose
user has a confirmed booking with its start. Requests without an address and requests
that end before they start are refused before a table is asked.
-/

namespace Bookable

open Store Time

variable {α β : Type}

namespace Store

/-! ## Tables that calls have left -/

/-- Tables after calls that were made on them one after the other, from empty tables on. -/
def TableDesk.Reached (d : TableDesk) : Prop :=
  ∃ calls supply, d = (serveEach calls { supply }).2

theorem TableDesk.reached_serveEach (calls : List Call) (supply : Supply) :
    (serveEach calls { supply }).2.Reached :=
  ⟨calls, supply, rfl⟩

/-- The identifiers on the tables, and those that a transaction sees, were given out. -/
structure TableDesk.Covered (d : TableDesk) (work? : Option Work) : Prop where
  records : d.supply.Covers d.records
  work : ∀ work, work? = some work → d.supply.Covers work.records

theorem TableDesk.covered_none {d : TableDesk} (h : d.supply.Covers d.records) :
    d.Covered none where
  records := h
  work := by rintro _ ⟨⟩

theorem TableDesk.Covered.serve (p : Program α) :
    ∀ {work? : Option Work} {d : TableDesk}, d.Covered work? →
      (serve p work? d).2.2.supply.Covers (serve p work? d).2.2.records := by
  induction p with
  | done a => exact fun h => h.records
  | fail cause => exact fun h => h.records
  | opening next ih =>
      intro work? d h
      refine ih ⟨h.records, fun work hwork => ?_⟩
      cases hwork
      exact h.records
  | ask request next ih =>
      intro work? d h
      cases work? with
      | none => exact h.records
      | some work =>
          have hafter := h.records.after request
          rw [TableDesk.serve]
          split
          · exact h.records
          · split
            · next reply records hperform =>
                refine ih reply ⟨hafter, fun work' hwork => ?_⟩
                cases hwork
                exact (h.work work rfl).perform hperform
            · exact hafter
  | closing next ih =>
      intro work? d h
      cases work? with
      | none => exact h.records
      | some work =>
          rw [TableDesk.serve, commit]
          cases work.ended with
          | true => exact ih (covered_none h.records)
          | false =>
              cases work.refused with
              | true => exact h.records
              | false => exact ih (covered_none (h.work work rfl))

theorem TableDesk.covers_serveEach (calls : List Call) :
    ∀ {d : TableDesk}, d.supply.Covers d.records →
      (serveEach calls d).2.supply.Covers (serveEach calls d).2.records := by
  induction calls with
  | nil => exact fun h => h
  | cons call calls ih => exact fun h => ih (Covered.serve call.program (covered_none h))

theorem TableDesk.Reached.covers {d : TableDesk} (h : d.Reached) :
    d.supply.Covers d.records := by
  obtain ⟨calls, supply, rfl⟩ := h
  exact covers_serveEach calls (Records.sound_empty supply).covered

/-! ## Programs on tables -/

theorem TableDesk.serve_bind (p : Program α) (f : α → Program β) :
    ∀ (work? : Option Work) (d : TableDesk), serve (p.bind f) work? d =
      match serve p work? d with
      | (.ok a, work?, d) => serve (f a) work? d
      | (.error cause, work?, d) => (.error cause, work?, d) := by
  induction p with
  | done a => exact fun _ _ => rfl
  | fail cause => exact fun _ _ => rfl
  | opening next ih => exact fun _ d => ih (some d.begin) d
  | ask request next ih =>
      intro work? d
      cases work? with
      | none => rfl
      | some work =>
          rw [Program.bind, serve, serve]
          split
          · rfl
          · split
            · next reply records _ => exact ih reply _ _
            · rfl
  | closing next ih =>
      intro work? d
      cases work? with
      | none => rfl
      | some work =>
          rw [Program.bind, serve, serve]
          split
          · exact ih none _
          · rfl

/-- Tables at a later time. -/
def TableDesk.at (d : TableDesk) (now : Instant) (later : List Instant) : TableDesk :=
  { d with supply := { d.supply with now, later } }

variable {records : Records} {d : TableDesk}

/-- A request that reads changes nothing. Only the time may go on. -/
theorem TableDesk.serve_read {request : Request} {next : request.Reply → Program α}
    {reply : request.Reply} (hread : request.inserts = false)
    (hperform : Table.perform records d.supply.stamp request = .ok (reply, records)) :
    serve (.ask request next) (some { records }) d = serve (next reply) (some { records })
      (d.at (d.supply.after request).now (d.supply.after request).later) := by
  rw [serve, hperform]
  simp only [Bool.false_eq_true, if_false, TableDesk.at, Supply.after, hread]

/-- Free slots are derived from what the transaction sees. -/
theorem TableDesk.serve_slotsWithin (records : Records) (d : TableDesk) (user : String)
    (window : Interval) :
    ∃ now later, serve (Service.slotsWithin user window) (some { records }) d =
      (freeWithin (records.rulesOf user) (records.load user) window, some { records },
        d.at now later) := by
  have hrules : ∀ stamp, Table.perform records stamp (.rulesOf user) =
      .ok (records.rulesOf user, records) := fun _ => rfl
  have hload : ∀ stamp range, Table.perform records stamp
      (.confirmedWithin user range.start range.stop) = .ok (records.load user range, records) := by
    intro stamp range
    rw [Table.perform, Table.confirmedWithin_eq]
    rfl
  rw [slotsWithin_eq, serve_read rfl (hrules _)]
  cases hempty : (records.rulesOf user).isEmpty with
  | true =>
      rw [freeWithin, hempty]
      exact ⟨_, _, rfl⟩
  | false =>
      rw [freeWithin_eq _ _ hempty, if_neg Bool.false_ne_true]
      cases expand (records.rulesOf user) window with
      | error cause => exact ⟨_, _, rfl⟩
      | ok candidates =>
          rw [ok_bind]
          show ∃ now later, serve (if candidates.isEmpty = true then _ else _) _ _ = _
          cases candidates.isEmpty with
          | true => exact ⟨_, _, rfl⟩
          | false =>
              rw [if_neg Bool.false_ne_true, if_neg Bool.false_ne_true]
              cases lookupRange window candidates with
              | error cause => exact ⟨_, _, rfl⟩
              | ok range =>
                  rw [ok_bind]
                  show ∃ now later, serve (.ask _ _) _ _ = _
                  rw [serve_read rfl (hload _ range)]
                  exact ⟨_, _, rfl⟩

/-! ## Reservations on tables -/

variable {request : BookingRequest}

/-- A reservation whose start was found free is decided by what the transaction sees, and if it is
not refused then, the table accepts its booking. -/
theorem TableDesk.serve_reserve (hcovers : d.supply.Covers records)
    (hemail : request.email.isSome)
    (hfree : records.confirmedAt request.user request.start = none) :
    match accept (records.rulesOf request.user) (records.load request.user) request with
    | .error cause => ∃ now later, serve (reserve request none) (some { records }) d =
        (.error cause, some { records }, d.at now later)
    | .ok () => ∃ stamp supply, stamp.Fresh records ∧
        serve (reserve request none) (some { records }) d =
          (.ok (newBooking stamp request.filled),
            some { records :=
              { records with bookings := records.bookings ++ [newBooking stamp request.filled] } },
            { d with supply }) := by
  unfold accept
  cases hwindow : revalidated request with
  | error cause =>
      rw [reserve, hwindow]
      exact ⟨_, _, rfl⟩
  | ok window =>
      have hslots : serve (reserve request none) (some { records }) d =
          serve ((Service.slotsWithin request.user window).bind fun slots =>
            if slots.any (·.isFrom request.start request.stop) then
              .ask (.insertBooking request) .done
            else .fail .slotNotAvailable) (some { records }) d := by
        rw [reserve, hwindow]
        rfl
      obtain ⟨now, later, hserve⟩ := serve_slotsWithin records d request.user window
      rw [hslots, serve_bind, hserve, ok_bind]
      cases freeWithin (records.rulesOf request.user) (records.load request.user) window with
      | error cause => exact ⟨now, later, rfl⟩
      | ok slots =>
          rw [ok_bind]
          simp only []
          cases slots.any (·.isFrom request.start request.stop) with
          | false => exact ⟨now, later, rfl⟩
          | true =>
              -- Of what the table checks at the insertion, only this is not seen from the request.
              have hfresh : (d.at now later).supply.stamp.Fresh records :=
                Supply.Covers.fresh ⟨hcovers.rules, hcovers.bookings⟩
              refine ⟨(d.at now later).supply.stamp,
                (d.at now later).supply.after (.insertBooking request), hfresh, ?_⟩
              rw [if_pos rfl, serve, Table.perform_insertBooking hemail hfree hfresh]
              rfl

/-- A call for a booking, once its start was looked up. -/
theorem TableDesk.serve_ordered (hemail : Service.hasEmail request.email = true)
    (hordered : request.start < request.stop) :
    ∃ now later, serve (Call.createBooking request).program none d =
      serve (((reserve request (d.records.confirmedAt request.user request.start)).bind
        fun booking => .closing (.done booking)).bind (.done ∘ .booking))
        (some { records := d.records }) (d.at now later) := by
  have hlookup : Table.perform d.records d.supply.stamp
      (.confirmedAt request.user request.start true) =
        .ok (d.records.confirmedAt request.user request.start, d.records) := by
    rw [Table.perform, Table.confirmedAt_eq]
  rw [Call.program, createBooking_eq, if_pos hemail, if_pos hordered]
  exact ⟨_, _, serve_read rfl hlookup⟩

theorem TableDesk.serve_unordered
    (h : ¬ (Service.hasEmail request.email = true ∧ request.start < request.stop)) :
    ∃ cause, cause.kind ≠ .conflict ∧
      serve (Call.createBooking request).program none d = (.error cause, none, d) := by
  rw [Call.program, createBooking_eq]
  split
  · next hemail =>
      rw [if_neg fun hordered => h ⟨hemail, hordered⟩]
      exact ⟨.requestNotOrdered, nofun, rfl⟩
  · exact ⟨.emailMissing, nofun, rfl⟩

theorem TableDesk.serve_taken (hemail : Service.hasEmail request.email = true)
    (hordered : request.start < request.stop)
    (htaken : d.records.bookedAt request.user request.start ≠ []) :
    (serve (Call.createBooking request).program none d).1 = .error .alreadyBooked := by
  obtain ⟨now, later, hserve⟩ := serve_ordered (d := d) hemail hordered
  rw [hserve]
  cases hlookup : d.records.confirmedAt request.user request.start with
  | none => exact absurd (Records.bookedAt_eq_nil.mpr hlookup) htaken
  | some id => rfl

theorem TableDesk.serve_vacant (hcovers : d.supply.Covers d.records)
    (hemail : Service.hasEmail request.email = true) (hordered : request.start < request.stop)
    (hfree : d.records.bookedAt request.user request.start = []) :
    let accepted :=
      accept (d.records.rulesOf request.user) (d.records.load request.user) request
    let served := serve (Call.createBooking request).program none d
    (∀ cause, accepted = .error cause →
      served.1 = .error cause ∧ served.2.2.records = d.records) ∧
    (accepted = .ok () → ∃ stamp, stamp.Fresh d.records ∧
      served.1 = .ok (.booking (newBooking stamp request.filled)) ∧
      served.2.2.records = { d.records with
        bookings := d.records.bookings ++ [newBooking stamp request.filled] }) := by
  intro accepted served
  have hgiven : request.email.isSome := by
    unfold Service.hasEmail at hemail
    split at hemail
    · next hsome =>
        rw [hsome]
        rfl
    · cases hemail
  rw [Records.bookedAt_eq_nil] at hfree
  obtain ⟨now, later, hserve⟩ := serve_ordered (d := d) hemail hordered
  have hserved : served = _ := hserve
  have hdecided := serve_reserve (d := d.at now later)
    ⟨hcovers.rules, hcovers.bookings⟩ hgiven hfree
  rw [hserved, hfree, serve_bind, serve_bind]
  constructor
  · intro cause haccept
    change accept _ _ request = .error cause at haccept
    rw [haccept] at hdecided
    obtain ⟨now', later', hreserve⟩ := hdecided
    rw [hreserve]
    exact ⟨rfl, rfl⟩
  · intro haccept
    change accept _ _ request = .ok () at haccept
    rw [haccept] at hdecided
    obtain ⟨stamp, supply, hfresh, hreserve⟩ := hdecided
    rw [hreserve]
    exact ⟨stamp, hfresh, rfl, rfl⟩

end Store

/-! ## Conflicts -/

/-- A reservation is told of a conflict exactly if it has an address, starts before it ends, and
its user has a confirmed booking with its start. What else can go wrong is told as it is. In
particular nothing goes wrong when a booking is inserted: a request for a free slot whose start
is not booked is booked, whatever is missing in it apart from the address. -/
theorem conflict_iff_booked {d : TableDesk} (hreached : d.Reached) (request : BookingRequest) :
    let accepted :=
      accept (d.records.rulesOf request.user) (d.records.load request.user) request
    let served := d.serve (Call.createBooking request).program none
    ((∃ cause, served.1 = .error cause ∧ cause.kind = .conflict) ↔
      Service.hasEmail request.email = true ∧ request.start < request.stop ∧
        d.records.bookedAt request.user request.start ≠ []) ∧
    (Service.hasEmail request.email = true → request.start < request.stop →
      d.records.bookedAt request.user request.start = [] →
      (∀ cause, accepted = .error cause →
        served.1 = .error cause ∧ served.2.2.records = d.records) ∧
      (accepted = .ok () → ∃ stamp, stamp.Fresh d.records ∧
        served.1 = .ok (.booking (newBooking stamp request.filled)) ∧
        served.2.2.records = { d.records with
          bookings := d.records.bookings ++ [newBooking stamp request.filled] })) := by
  intro accepted served
  have hvacant := fun (hemail : Service.hasEmail request.email = true)
    (hordered : request.start < request.stop) =>
      TableDesk.serve_vacant hreached.covers hemail hordered
  refine ⟨⟨?_, ?_⟩, hvacant⟩
  · rintro ⟨cause, hcause, hkind⟩
    by_cases horder : Service.hasEmail request.email = true ∧ request.start < request.stop
    · refine ⟨horder.1, horder.2, fun hfree => ?_⟩
      obtain ⟨hrefused, hbooked⟩ := hvacant horder.1 horder.2 hfree
      cases haccept : accepted with
      | error cause' =>
          have hsame := hcause.symm.trans (hrefused cause' haccept).1
          cases hsame
          exact kind_of_accept haccept hkind
      | ok done =>
          obtain ⟨stamp, -, hstored, -⟩ := hbooked haccept
          have hboth := hcause.symm.trans hstored
          cases hboth
    · obtain ⟨cause', hkind', hserve⟩ := TableDesk.serve_unordered (d := d) horder
      have hsame := hcause.symm.trans (congrArg (·.1) hserve)
      cases hsame
      exact absurd hkind hkind'
  · rintro ⟨hemail, hordered, htaken⟩
    exact ⟨.alreadyBooked, TableDesk.serve_taken hemail hordered htaken, rfl⟩

/-- Tables on which the first slot is booked. -/
def Store.bookedTables : TableDesk :=
  (TableDesk.serveEach ((rebooking.take 2).map (·.2)) { supply := { now := ⟨0, horizon_pos⟩ } }).2

theorem Store.reached_booked : bookedTables.Reached := by
  unfold bookedTables
  exact TableDesk.reached_serveEach _ _

/-- A request for the second slot with little in it. -/
def Store.secondSlot : BookingRequest where
  user := "anna"
  email := some "guest"
  start := firstSlot.stop
  stop := ⟨firstSlot.stop.micros + 20 * minute, by decide⟩
  source := none
  kind := none
  description := none
  title := none

/-- The first slot cannot be booked again. The second one can be, although much is missing in the
request. -/
theorem first_slot_in_conflict :
    bookedTables.Reached ∧
    (∃ cause, (bookedTables.serve (Call.createBooking firstSlot).program none).1 =
      .error cause ∧ cause.kind = .conflict) ∧
    ∃ stamp, (bookedTables.serve (Call.createBooking secondSlot).program none).1 =
      .ok (.booking (newBooking stamp secondSlot.filled)) := by
  refine ⟨reached_booked, ?_, ?_⟩
  · exact (conflict_iff_booked reached_booked firstSlot).1.mpr
      ⟨by decide, by decide, by decide +kernel⟩
  · obtain ⟨-, hvacant⟩ := conflict_iff_booked reached_booked secondSlot
    obtain ⟨-, hbooked⟩ := hvacant (by decide) (by decide) (by decide +kernel)
    obtain ⟨stamp, -, hstored, -⟩ := hbooked (eq_ok_of_isOk (by decide +kernel))
    exact ⟨stamp, hstored⟩

/-- Without an address a request for a start that is booked is told of the address. -/
theorem booked_start_without_address :
    let request := { firstSlot with email := some "" }
    bookedTables.Reached ∧ bookedTables.records.bookedAt request.user request.start ≠ [] ∧
      (bookedTables.serve (Call.createBooking request).program none).1 = .error .emailMissing ∧
      Error.emailMissing.kind ≠ .conflict := by
  refine ⟨reached_booked, by decide +kernel, ?_, nofun⟩
  rfl

end Bookable
