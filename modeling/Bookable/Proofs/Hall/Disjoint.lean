import Bookable.Proofs.Hall.Listing
import Bookable.Proofs.Slots.Disjoint

/-!
# Bookings that do not overlap

The store compares bookings by their starts alone. When the windows of a user's rules do
not overlap, this is enough: every booking is in a slot on offer, slots on offer start
together or do not overlap, and no two confirmed bookings start together. While callers
book and cancel, this is kept by each of their commits, since a reservation that commits
would be accepted at that moment, and a cancellation only takes a booking away.
-/

namespace Bookable

open Store Time

/-- Two bookings do not overlap, if both of them are confirmed bookings of a user. -/
def Booking.ClearFor (user : String) (b b' : Booking) : Prop :=
  b.isConfirmed = true → b'.isConfirmed = true → b.user = user → b'.user = user →
    b.stop ≤ b'.start ∨ b'.stop ≤ b.start

instance (user : String) : Std.Symm (Booking.ClearFor user) :=
  ⟨fun _ _ h hb hb' huser huser' => (h hb' hb huser' huser).symm⟩

namespace Store

theorem pairwise_put {α κ : Type} [DecidableEq κ] {key : α → κ} {R : α → α → Prop} [Std.Symm R]
    {a : α} {l : List α} (hl : l.Pairwise R) (ha : ∀ b ∈ l, R a b) :
    (put key a l).Pairwise R := by
  induction l with
  | nil => exact List.pairwise_singleton R a
  | cons b rest ih =>
      rw [List.pairwise_cons] at hl
      have hrest : ∀ c ∈ rest, R a c := fun c hc => ha c (List.mem_cons_of_mem b hc)
      rw [put]
      split
      · exact List.pairwise_cons.mpr ⟨hrest, hl.2⟩
      · refine List.pairwise_cons.mpr ⟨fun c hc => ?_, ih hl.2 hrest⟩
        rcases mem_of_mem_put hc with rfl | hc
        · exact Std.Symm.symm _ _ (ha b List.mem_cons_self)
        · exact hl.1 c hc

/-- A user has certain rules, and the user's confirmed bookings are slots of these that do not
overlap. -/
structure Records.Spread (user : String) (rules : List Rule) (r : Records) : Prop where
  sameRules : r.rulesOf user = rules
  offered : ∀ b ∈ r.bookings, b.isConfirmed = true → b.user = user → Offered rules b.start b.stop
  clear : r.bookings.Pairwise (Booking.ClearFor user)

namespace Records.Spread

variable {user : String} {rules : List Rule} {r : Records}

/-- A reservation that would be accepted does not overlap what is booked. -/
theorem book (usable : ∀ rule ∈ rules, rule.Usable) (happart : rules.Pairwise Rule.Apart)
    (h : r.Spread user rules) {request : BookingRequest} (hadmissible : Admissible request r)
    (stamp : Stamp) : ((request.booking stamp).publish r).Spread user rules := by
  rw [publish_booking]
  have hoffered : request.user = user → Offered rules request.start request.stop := by
    rintro rfl
    have haccept := hadmissible.admitted
    rw [h.sameRules] at haccept
    exact offered_of_accept usable haccept
  refine ⟨h.sameRules, fun b hb hconfirmed huser => ?_, pairwise_put h.clear ?_⟩
  · rcases mem_of_mem_put hb with rfl | hb
    · exact hoffered huser
    · exact h.offered b hb hconfirmed huser
  · intro b hb _ hconfirmed huser huser'
    change request.user = user at huser
    have hfree := Records.confirmedAt_eq_none.mp hadmissible.free b hb hconfirmed
      (huser'.trans huser.symm)
    exact (hoffered huser).clear happart (h.offered b hb hconfirmed huser') (Ne.symm hfree)

theorem cancel (h : r.Spread user rules) (id : String) :
    ((cancelling id [id]).publish r).Spread user rules := by
  rw [publish_cancelling]
  refine ⟨h.sameRules, fun b hb hconfirmed => h.offered b (mem_cancelOne hb hconfirmed) hconfirmed, ?_⟩
  refine List.pairwise_map.mpr (h.clear.imp fun {b b'} hclear => ?_)
  split
  · exact fun hconfirmed => nomatch hconfirmed
  · split
    · exact fun _ hconfirmed => nomatch hconfirmed
    · exact hclear

end Records.Spread

/-- While callers book and cancel, the records keep what every commit of theirs keeps. -/
theorem Hall.bookers_run {R : Records → Prop}
    (hcommits : ∀ {call t next r}, (Pledge.booker call).commits t next r → R r → R (t.publish r))
    {events : List Event} (hcalls : ∀ call, .call call ∈ events → call.Reserves) {r : Records}
    {h : Hall} (hf : h.Fair Peers.bookers Pledge.booker r) (hR : R h.machine.records) :
    R (h.run events).machine.records := by
  induction events generalizing h with
  | nil => exact hR
  | cons event events ih =>
      have hcall : ∀ call, event = .call call → call.Reserves := by
        rintro call rfl
        exact hcalls call List.mem_cons_self
      refine ih (fun call hmem => hcalls call (List.mem_cons_of_mem event hmem))
        (hf.take pact_bookers event fun call heq r _ => keeps_reserves (hcall call heq) r) ?_
      rcases hf.take_cases pact_bookers booker_done event
          (fun call heq => answer?_reserves (hcall call heq)) with
        ⟨-, hrecords, -⟩ | ⟨caller, call, t, answer, hc⟩
      · rw [hrecords]
        exact hR
      · rw [hc.records]
        exact hcommits hc.pledged hR

end Store

/-- On what the services have left, a user has rules whose windows do not overlap, and no confirmed
booking. Then callers book and cancel, in any order of their turns. However far they have come, no
two confirmed bookings of the user overlap. -/
theorem bookings_disjoint {m : Machine} (hm : m.Settled) {user : String}
    (happart : (m.records.rulesOf user).Pairwise Rule.Apart)
    (hnone : ∀ b ∈ m.records.bookings, b.user = user → b.isConfirmed = false)
    {events : List Event} (hcalls : ∀ call, .call call ∈ events → call.Reserves) :
    (Hall.run { machine := m } events).machine.records.bookings.Pairwise
      (Booking.ClearFor user) := by
  obtain ⟨-, horderly, valid⟩ := hm.spec
  have hunbooked : ∀ b ∈ m.records.bookings, b.isConfirmed = true → b.user ≠ user := by
    intro b hb hconfirmed huser
    rw [hnone b hb huser] at hconfirmed
    cases hconfirmed
  have hstart : m.records.Spread user (m.records.rulesOf user) := by
    refine ⟨rfl, fun b hb hconfirmed huser => absurd huser (hunbooked b hb hconfirmed), ?_⟩
    exact List.pairwise_of_forall_mem_list fun b hb b' _ hconfirmed _ huser _ =>
      absurd huser (hunbooked b hb hconfirmed)
  refine (Hall.bookers_run (R := Records.Spread user (m.records.rulesOf user)) (fun h hspread => ?_)
    hcalls (Hall.Fair.start horderly) hstart).clear
  next call t next r =>
    cases call with
    | createBooking request =>
        obtain ⟨hadmissible, stamp, rfl, -⟩ := h
        exact hspread.book (Records.RulesValid.usable valid user) happart hadmissible stamp
    | cancelBooking id =>
        obtain ⟨-, rfl, -⟩ := h
        exact hspread.cancel id
    | _ => exact h.elim

/-- Two rules for Mondays, the windows of which meet at twenty past ten. -/
def adjacent : List Event :=
  .call (.setAvailability "anna" [
    { dayOfWeek := .int 1, startTime := .text "10:00", endTime := .text "10:20",
      slotLength := .int 20 },
    { dayOfWeek := .int 1, startTime := .text "10:20", endTime := .text "11:20",
      slotLength := .int 30 }]) :: ["", "one", "", "", "", "two", "", "", ""].map (.turnOf 0)

/-- The slots before and after twenty past ten are booked, by turns. -/
def neighbours : List Event :=
  [.call (.createBooking firstSlot),
    .call (.createBooking { firstSlot with
      start := firstSlot.stop, stop := ⟨10 * hour + 50 * minute, by decide⟩ })] ++
    [0, 1, 0, 1, 0, 1, 0, 1].map (.turnOf · "") ++ [.turnOf 0 "first", .turnOf 1 "second"] ++
    [0, 1, 0, 1].map (.turnOf · "")

theorem neighbours_disjoint :
    let m := (Hall.run {} adjacent).machine
    let r := (Hall.run { machine := m } neighbours).machine.records
    (m.records.rulesOf "anna").Pairwise Rule.Apart ∧ m.records.bookings = [] ∧
      r.bookings.map (fun b => (b.id, b.status)) =
        [("first", .confirmed), ("second", .confirmed)] ∧
      r.bookings.Pairwise (Booking.ClearFor "anna") := by
  intro m r
  have hm : m.Settled := ⟨adjacent, by decide +kernel, rfl⟩
  have hplans : (m.records.rulesOf "anna").map
      (fun rule => rule.plan?.map fun p => (p.start.minutes, p.stop.minutes)) =
        [some (600, 620), some (620, 680)] := by
    decide +kernel
  have happart : (m.records.rulesOf "anna").Pairwise Rule.Apart := by
    obtain ⟨rule, rest, hrules, hfirst, hrest⟩ := List.map_eq_cons_iff.mp hplans
    obtain ⟨rule', rest', rfl, hsecond, hnone⟩ := List.map_eq_cons_iff.mp hrest
    cases List.map_eq_nil_iff.mp hnone
    obtain ⟨p, hplan, hp⟩ := Option.map_eq_some_iff.mp hfirst
    obtain ⟨p', hplan', hp'⟩ := Option.map_eq_some_iff.mp hsecond
    obtain ⟨-, hstop⟩ := Prod.mk.inj hp
    obtain ⟨hstart, -⟩ := Prod.mk.inj hp'
    rw [hrules, List.pairwise_pair]
    exact Rule.apart_of_plans hplan hplan' (by rw [hstop, hstart])
  have hnone : m.records.bookings = [] := by decide +kernel
  have hcalls : ∀ call, .call call ∈ neighbours → call.Reserves := by
    intro call hcall
    simp [neighbours, Event.turnOf] at hcall
    rcases hcall with rfl | rfl <;> trivial
  refine ⟨happart, hnone, by decide +kernel, ?_⟩
  exact bookings_disjoint hm happart (fun b hb => by rw [hnone] at hb; cases hb) hcalls

end Bookable
