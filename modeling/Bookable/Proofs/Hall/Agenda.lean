import Bookable.Proofs.Hall.Accounts
import Bookable.Proofs.Hall.Listing
import Bookable.Proofs.Hall.Solo

/-!
# The agenda of a user

The bookings of a user that are not cancelled are listed by start, and the sort looks at
nothing else. So the order of a listing is settled only if no two of these bookings start
together. The store does not see to that by itself, since a transaction may commit two
bookings for one start. But no service makes more than one booking in a transaction, and
so nothing that services do, in whatever order they take their turns, leaves two.

With starts that differ, the agenda of a user is one list, every window lists a piece of
it, and half-open windows that touch list pieces that follow one another: a booking that
starts where they touch is in the second one.
-/

namespace Bookable

open Store Time

/-! ## One booking a transaction -/

/-- A transaction has made no more than one booking. -/
def Store.Transaction.OneBooking (t : Transaction) : Prop := t.newBookings.length ≤ 1

namespace Store

theorem Transaction.OneBooking.not_twins {t : Transaction} (h : t.OneBooking) : ¬ t.Twins := by
  rintro ⟨a, ha, b, hb, hne, -⟩
  unfold OneBooking at h
  match hnew : t.newBookings with
  | [] =>
      rw [hnew] at ha
      cases ha
  | [c] =>
      rw [hnew] at ha hb
      rw [List.mem_singleton.mp ha, List.mem_singleton.mp hb] at hne
      exact hne rfl
  | _ :: _ :: _ =>
      rw [hnew] at h
      simp at h

theorem oneBooking_upheld :
    Upheld Request.Routine (fun _ => True) Transaction.OneBooking where
  opened := Nat.zero_le 1
  touched _ _ h := h
  performed {t r request} stamp hroutine _ ht := by
    rw [Transaction.OneBooking, Transaction.perform_newBookings]
    cases request with
    | insertBooking request => exact hroutine.elim
    | _ => exact ht

namespace Hall

theorem fair_oneBooking (events : List Event) :
    (Hall.run {} events).Fair (Peers.keeping fun _ => True)
      (fun _ => Pledge.writing Transaction.OneBooking) {} := by
  refine Fair.run (pact_writing fun _ _ => trivial) (fun call _ r _ => ?_)
    (Fair.start orderly_empty)
  exact keeps_call oneBooking_upheld fun request _ =>
    keeps_createBooking_writing fun _ _ _ _ _ _ _ _ => Nat.le_refl 1

theorem idsOnce_run (events : List Event) : (Hall.run {} events).machine.records.IdsOnce := by
  obtain ⟨names, haccounted⟩ := accounted_run events
  exact haccounted.distinct.bookings

/-- However far the callers have come, no two confirmed bookings of a user start together. -/
theorem single_run (events : List Event) : (Hall.run {} events).machine.records.Single := by
  induction events using List.reverseRecOn with
  | nil => exact fun _ _ => Nat.zero_le 1
  | append_singleton past event ih =>
      rw [run_append]
      show ((Hall.run {} past).take event).machine.records.Single
      cases event with
      | call call => exact ih
      | reorder key queue =>
          show ((Hall.run {} past).machine.reorder key queue).records.Single
          rw [Machine.records_reorder]
          exact ih
      | turn stamp caller =>
          rcases (Hall.run {} past).take_turn_cases stamp caller with heq | ⟨v, hv, -, heq⟩
          · rw [heq]
            exact ih
          · rw [heq]
            show (v.stage.step caller stamp (Hall.run {} past).machine).2.records.Single
            rcases v.stage.records_step (Hall.run {} past).machine caller stamp with
              ⟨-, hrecords⟩ | ⟨next, place, hstage, hcommits, -, hrecords⟩
            · rw [hrecords]
              exact ih
            · have hkeeps := (fair_oneBooking past).keeps hv
              rw [hstage] at hkeeps hcommits
              obtain ⟨hconflict, hone⟩ := hkeeps.commits hcommits
              rw [hrecords]
              exact Transaction.single_publish (idsOnce_run past) ih hconflict hone.not_twins

end Hall

/-! ## Bookings by start -/

/-- The bookings of a user that are not cancelled, in the order in which they are on record. -/
def Records.kept (r : Records) (user : String) : List Booking :=
  r.bookings.filter fun b => b.user == user && b.status != .cancelled

end Store

theorem Booking.isConfirmed_of_ne {b : Booking} (h : (b.status != .cancelled) = true) :
    b.isConfirmed = true := by
  unfold isConfirmed
  cases hstatus : b.status with
  | confirmed => rfl
  | cancelled =>
      rw [hstatus] at h
      cases h

/-- The bookings that a user has kept start at different times. -/
theorem Store.Records.Single.kept {r : Records} (hr : r.Single) (hids : r.IdsOnce)
    (user : String) : (r.kept user).Pairwise fun a b => a.start ≠ b.start := by
  have honce : (r.kept user).Pairwise fun a b => a.id ≠ b.id :=
    List.pairwise_map.mp (hids.sublist (List.filter_sublist.map _))
  refine honce.imp_of_mem fun {a b} ha hb hne hstart => hne ?_
  obtain ⟨ha, hmine⟩ := List.mem_filter.mp ha
  obtain ⟨hb, hmine'⟩ := List.mem_filter.mp hb
  rw [Bool.and_eq_true, beq_iff_eq] at hmine hmine'
  exact congrArg Booking.id (hr.id_eq ha hb (Booking.isConfirmed_of_ne hmine.2)
    (Booking.isConfirmed_of_ne hmine'.2) (hmine.1.trans hmine'.1.symm) hstart)

theorem Time.Instant.lt_of_le_of_ne {s t : Instant} (hle : s ≤ t) (hne : s ≠ t) : s < t :=
  Nat.lt_of_le_of_ne hle fun h => hne (by cases s; cases t; cases h; rfl)

/-- Bookings with different starts are sorted in strict order. -/
theorem Booking.sorted_strictly {bookings : List Booking}
    (h : bookings.Pairwise fun a b => a.start ≠ b.start) :
    (sortByStart bookings).Pairwise fun a b => a.start < b.start := by
  have hsorted : (sortByStart bookings).Pairwise
      fun a b => decide (a.start ≤ b.start) = true := by
    refine List.pairwise_mergeSort (fun a b c hab hbc => ?_) (fun a b => ?_) bookings
    · exact decide_eq_true (Nat.le_trans (of_decide_eq_true hab) (of_decide_eq_true hbc))
    · rw [Bool.or_eq_true, decide_eq_true_eq, decide_eq_true_eq]
      exact Nat.le_total a.start.micros b.start.micros
  have hapart : (sortByStart bookings).Pairwise fun a b => a.start ≠ b.start :=
    (List.mergeSort_perm bookings _).symm.pairwise h fun hne => hne.symm
  refine hsorted.imp₂ (fun a b hle hne => ?_) hapart
  exact Time.Instant.lt_of_le_of_ne (of_decide_eq_true hle) hne

/-- Two strictly ordered lists of the same bookings are the same list. -/
theorem Booking.eq_of_strictly {l l' : List Booking} (hperm : l.Perm l')
    (h : l.Pairwise fun a b => a.start < b.start) (h' : l'.Pairwise fun a b => a.start < b.start) :
    l = l' := by
  refine hperm.eq_of_pairwise (fun a b _ _ hab hba => ?_) h h'
  exact absurd hba (Nat.not_lt_of_lt hab)

/-! ## Windows that touch -/

/-- Where nothing of the first kind follows anything of the second kind, those of either kind are
those of the first and then those of the second. -/
theorem filter_split {α : Type} {p q s : α → Bool} {l : List α}
    (heither : ∀ a, s a = (p a || q a)) (hapart : ∀ a, q a = true → p a = false)
    (horder : l.Pairwise fun a b => q a = true → p b = false) :
    l.filter s = l.filter p ++ l.filter q := by
  induction l with
  | nil => rfl
  | cons a rest ih =>
      obtain ⟨hafter, horder⟩ := List.pairwise_cons.mp horder
      have hrest := ih horder
      cases hq : q a with
      | true =>
          have hnone : rest.filter p = [] := by
            rw [List.filter_eq_nil_iff]
            intro b hb
            rw [hafter b hb hq]
            exact Bool.false_ne_true
          rw [hnone] at hrest
          simp only [List.filter_cons, heither a, hq, hapart a hq, hnone, hrest]
          rfl
      | false =>
          simp only [List.filter_cons, heither a, hq, Bool.or_false, hrest]
          cases p a <;> rfl

/-- A listing between two instants can be cut at any instant between them. -/
theorem filter_startsWithin_split {l : List Booking}
    (h : l.Pairwise fun a b => a.start < b.start) {first middle last : Instant}
    (hfirst : first < middle) (hlast : middle < last) :
    l.filter (·.startsWithin first last) =
      l.filter (·.startsWithin first middle) ++ l.filter (·.startsWithin middle last) := by
  have hwithin : ∀ (b : Booking) (start stop : Instant), b.startsWithin start stop = true ↔
      start.micros ≤ b.start.micros ∧ b.start.micros < stop.micros := by
    intro b start stop
    rw [Booking.startsWithin, Bool.and_eq_true, decide_eq_true_eq, decide_eq_true_eq]
    exact Iff.rfl
  change first.micros < middle.micros at hfirst
  change middle.micros < last.micros at hlast
  refine filter_split (fun b => ?_) (fun b hb => ?_) (h.imp fun {a b} hlt ha => ?_)
  · rw [Bool.eq_iff_iff, Bool.or_eq_true, hwithin, hwithin, hwithin]
    omega
  · rw [hwithin] at hb
    rw [← Bool.not_eq_true, hwithin]
    omega
  · change a.start.micros < b.start.micros at hlt
    rw [hwithin] at ha
    rw [← Bool.not_eq_true, hwithin]
    omega

/-! ## Listings -/

namespace Store

theorem Desk.answers_bookingsOf (d : Desk) {call : Call} (user : String)
    (range : Option (Instant × Instant))
    (hcall : call.program = (Program.transaction (Program.send (.bookingsOf user range))).bind
      (.done ∘ Answer.bookings)) :
    d.Answers call (.ok (.bookings (d.machine.records.bookingsOf user range))) := by
  refine d.answers_lookup hcall rfl ?_
  rw [Transaction.perform, Transaction.view_blank]

/-- Without both bounds all bookings are listed. -/
theorem Desk.answers_all (d : Desk) (user : String) {start stop : Option Instant}
    (h : start = none ∨ stop = none) : d.Answers (.listBookings user start stop)
      (.ok (.bookings (d.machine.records.bookingsOf user none))) := by
  refine d.answers_bookingsOf user none ?_
  rcases h with rfl | rfl
  · rfl
  · cases start <;> rfl

theorem Desk.answers_between (d : Desk) (user : String) {start stop : Instant}
    (h : start < stop) : d.Answers (.listBookings user (some start) (some stop))
      (.ok (.bookings (d.machine.records.bookingsOf user (some (start, stop))))) := by
  refine d.answers_bookingsOf user (some (start, stop)) ?_
  show ((Program.ofExcept (Service.window start stop)).bind fun window =>
    Program.transaction (Program.send
      (.bookingsOf user (some (window.start, window.stop))))).bind _ = _
  rw [(⟨start, stop, h⟩ : Interval).window_bounds]
  rfl

end Store

/-- Wherever service calls have come, each user has an agenda: every booking of the user that is not
cancelled, once, in strictly ascending order of the starts. It is what is listed when a bound is
missing. Between two instants, what is listed is the part of it that starts in the half-open range,
and such a part can be cut at any instant in between. -/
theorem agenda_cut_anywhere (events : List Event) (supply : Supply) (ready : List Ticket)
    (user : String) :
    let d : Desk := { machine := (Hall.run {} events).machine, supply, ready }
    ∃ agenda : List Booking,
      agenda.Perm (d.machine.records.bookings.filter fun b =>
        b.user == user && b.status != .cancelled) ∧
      agenda.Pairwise (fun a b => a.start < b.start) ∧
      (∀ start stop, start = none ∨ stop = none →
        d.Answers (.listBookings user start stop) (.ok (.bookings agenda))) ∧
      (∀ start stop, start < stop → d.Answers (.listBookings user (some start) (some stop))
        (.ok (.bookings (agenda.filter (·.startsWithin start stop))))) ∧
      ∀ first middle last, first < middle → middle < last →
        agenda.filter (·.startsWithin first last) =
          agenda.filter (·.startsWithin first middle) ++
            agenda.filter (·.startsWithin middle last) := by
  intro d
  have hapart := (Hall.single_run events).kept (Hall.idsOnce_run events) user
  have hperm : (d.machine.records.bookingsOf user none).Perm (d.machine.records.kept user) :=
    List.mergeSort_perm _ _
  have hstrict := Booking.sorted_strictly hapart
  refine ⟨_, hperm, hstrict, fun start stop hnone => d.answers_all user hnone,
    fun start stop hlt => ?_, fun first middle last => filter_startsWithin_split hstrict⟩
  -- The part of the agenda and the sorted part of the records hold the same bookings in order.
  have hpart : d.machine.records.bookingsOf user (some (start, stop)) =
      (d.machine.records.bookingsOf user none).filter (·.startsWithin start stop) := by
    refine Booking.eq_of_strictly ?_ (Booking.sorted_strictly (hapart.filter _))
      (hstrict.filter _)
    exact (List.mergeSort_perm _ _).trans (hperm.filter _).symm
  rw [← hpart]
  exact d.answers_between user hlt

/-- The second slot of the first Monday is booked, and then the first one. -/
def bookedBackwards : List Event :=
  opening ++ [.call (.createBooking { firstSlot with
      start := firstSlot.stop, stop := ⟨10 * hour + 2 * 20 * minute, by decide⟩ }),
    .call (.createBooking firstSlot)] ++
    ["", "", "", "", "second", "", ""].map (.turnOf 1) ++
    ["", "", "", "", "first", "", ""].map (.turnOf 2)

/-- Cut where the second booking starts, the agenda falls into its two bookings. -/
theorem agenda_cut_at_start :
    let d : Desk := {
      machine := (Hall.run {} bookedBackwards).machine, supply := { now := ⟨0, horizon_pos⟩ } }
    let noon : Instant := ⟨12 * hour, by decide⟩
    d.machine.records.bookings.map (·.id) = ["second", "first"] ∧
      ∃ agenda : List Booking, agenda.map (·.id) = ["first", "second"] ∧
        d.Answers (.listBookings "anna" none none) (.ok (.bookings agenda)) ∧
        d.Answers (.listBookings "anna" (some firstSlot.start) (some noon))
          (.ok (.bookings agenda)) := by
  intro d noon
  have hrecorded : d.machine.records.bookings.map (·.id) = ["second", "first"] := by
    decide +kernel
  obtain ⟨agenda, hperm, -, hall, hbetween, hcut⟩ :=
    agenda_cut_anywhere bookedBackwards { now := ⟨0, horizon_pos⟩ } [] "anna"
  -- What is listed of a window is known up to its order from the records.
  have hids : ∀ start stop : Instant, ((agenda.filter (·.startsWithin start stop)).map (·.id)).Perm
      (((d.machine.records.kept "anna").filter (·.startsWithin start stop)).map (·.id)) :=
    fun start stop => (hperm.filter _).map _
  have hearly : (agenda.filter (·.startsWithin firstSlot.start firstSlot.stop)).map (·.id) =
      ["first"] := List.perm_singleton.mp ((hids _ _).trans (.of_eq (by decide +kernel)))
  have hlate : (agenda.filter (·.startsWithin firstSlot.stop noon)).map (·.id) =
      ["second"] := List.perm_singleton.mp ((hids _ _).trans (.of_eq (by decide +kernel)))
  have hwhole : agenda.filter (·.startsWithin firstSlot.start noon) = agenda := by
    rw [List.filter_eq_self]
    intro b hb
    have hevery : ∀ b ∈ d.machine.records.kept "anna",
        b.startsWithin firstSlot.start noon = true := by decide +kernel
    exact hevery b (hperm.mem_iff.mp hb)
  have hsplit := hcut firstSlot.start firstSlot.stop noon (by decide) (by decide)
  have hlisted := hbetween firstSlot.start noon (by decide)
  rw [hwhole] at hsplit hlisted
  refine ⟨hrecorded, agenda, ?_, hall none none (Or.inl rfl), hlisted⟩
  rw [hsplit, List.map_append, hearly, hlate]
  rfl

end Bookable
