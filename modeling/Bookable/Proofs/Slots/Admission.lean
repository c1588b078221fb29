import Bookable.Proofs.Slots.Walk
import Bookable.Service.Reservation
import Bookable.Store.Records

/-!
# Admitting a request

Whether a request is for a free slot is a function of the rules and the bookings that
are read for it, `accept`. It comes to three conditions: the rules have the slot, the
window around it lies in the calendar, and in the second in which the slot starts no
confirmed booking that is looked up starts as well. Since the lookup reaches an hour
further than the window, no confirmed booking of the user starts there at all; and
since slots start with a minute, two requests of one second that are admitted have
the same start.
-/

namespace Bookable

open Store Time

/-- The window in which the free slots around a request are derived. -/
def revalidated (request : BookingRequest) : Except Error Interval := do
  let start ← inCalendar (request.start.shift? (-Service.revalidationMargin))
  let stop ← inCalendar (request.stop.shift? Service.revalidationMargin)
  Service.window start stop

/-- The free slots of rules in a window, with the bookings supplied by `load`. -/
def freeWithin (rules : List Rule) (load : Interval → List Booking) (window : Interval) :
    Except Error (List Interval) :=
  if rules.isEmpty then .ok [] else freeSlots rules window fun range => .ok (load range)

/-- Whether a request is for a free slot. -/
def accept (rules : List Rule) (load : Interval → List Booking) (request : BookingRequest) :
    Except Error Unit := do
  let window ← revalidated request
  let slots ← freeWithin rules load window
  if slots.any (·.isFrom request.start request.stop) then .ok () else .error .slotNotAvailable

/-- The confirmed bookings of a user that a range asks for. -/
def Store.Records.load (r : Records) (user : String) (range : Interval) : List Booking :=
  r.confirmedWithin user range.start range.stop

/-! ## The range of the lookup -/

theorem Time.Instant.micros_of_shift? {t t' : Instant} {amount : Int}
    (h : t.shift? amount = some t') : (t'.micros : Int) = t.micros + amount :=
  ofMicros?_eq_some.mp h

theorem inCalendar_ok {t? : Option Instant} {t : Instant} (h : inCalendar t? = .ok t) :
    t? = some t := by
  cases t? with
  | none => cases h
  | some t' =>
      cases h
      rfl

theorem Interval.between_ok {start stop : Instant} {a : Interval}
    (h : Interval.between start stop = .ok a) : a.start = start ∧ a.stop = stop := by
  rw [between] at h
  split at h
  · cases h
    exact ⟨rfl, rfl⟩
  · cases h

theorem foldl_earlier_le (candidates : List Interval) (t : Instant) :
    (candidates.foldl (fun t slot => if slot.start < t then slot.start else t) t).micros ≤
      t.micros := by
  induction candidates generalizing t with
  | nil => exact Nat.le_refl _
  | cons slot candidates ih =>
      rw [List.foldl_cons]
      refine Nat.le_trans (ih _) ?_
      split
      · next hlt => exact Nat.le_of_lt hlt
      · exact Nat.le_refl _

theorem Interval.padded_ok {window range : Interval} {micros : Int}
    (h : window.padded micros = .ok range) :
    (range.start.micros : Int) = window.start.micros - micros ∧
      (range.stop.micros : Int) = window.stop.micros + micros := by
  rw [padded] at h
  obtain ⟨first, hstart, h⟩ := bind_eq_ok.mp h
  obtain ⟨last, hstop, h⟩ := bind_eq_ok.mp h
  obtain ⟨rfl, rfl⟩ := between_ok h
  have hfirst := Instant.micros_of_shift? (inCalendar_ok hstart)
  have hlast := Instant.micros_of_shift? (inCalendar_ok hstop)
  exact ⟨hfirst, hlast⟩

/-- Bookings are looked up wherever a slot of the window can start. -/
theorem lookupRange_covers {window range : Interval} {candidates : List Interval}
    (h : lookupRange window candidates = .ok range) :
    range.start.micros ≤ window.start.micros ∧ window.stop.micros ≤ range.stop.micros := by
  rw [lookupRange] at h
  obtain ⟨padded, hpadded, h⟩ := bind_eq_ok.mp h
  obtain ⟨hstart, hstop⟩ := Interval.between_ok h
  obtain ⟨hfirst, hlast⟩ := Interval.padded_ok hpadded
  have hle := foldl_earlier_le candidates padded.start
  rw [hstart, hstop]
  omega

/-! ## Free slots -/

theorem freeWithin_eq {rules : List Rule} (load : Interval → List Booking) (window : Interval)
    (h : rules.isEmpty = false) :
    freeWithin rules load window = (expand rules window >>= fun candidates =>
      if candidates.isEmpty then .ok []
      else lookupRange window candidates >>= fun range =>
        .ok (removeBooked candidates (load range))) := by
  unfold freeWithin freeSlots
  rw [h]
  rfl

/-- A window has free slots if there are no candidates, or bookings are looked up for them. -/
theorem freeWithin_eq_ok {rules : List Rule} {load : Interval → List Booking} {window : Interval}
    (h : rules.isEmpty = false) {slots : List Interval} :
    freeWithin rules load window = .ok slots ↔
      ∃ candidates, expand rules window = .ok candidates ∧
        (candidates = [] ∧ slots = [] ∨
          candidates ≠ [] ∧ ∃ range, lookupRange window candidates = .ok range ∧
            removeBooked candidates (load range) = slots) := by
  rw [freeWithin_eq _ _ h, bind_eq_ok]
  refine exists_congr fun candidates => and_congr_right fun _ => ?_
  cases candidates with
  | nil =>
      constructor
      · intro hslots
        cases hslots
        exact Or.inl ⟨rfl, rfl⟩
      · rintro (⟨-, rfl⟩ | ⟨hnone, -⟩)
        · rfl
        · exact absurd rfl hnone
  | cons first rest =>
      constructor
      · intro hslots
        obtain ⟨range, hrange, hslots⟩ := bind_eq_ok.mp hslots
        cases hslots
        exact Or.inr ⟨List.cons_ne_nil _ _, range, hrange, rfl⟩
      · rintro (⟨hnone, -⟩ | ⟨-, range, hrange, rfl⟩)
        · cases hnone
        · exact bind_eq_ok.mpr ⟨range, hrange, rfl⟩

/-- No confirmed booking is in a second. -/
theorem not_mem_taken {bookings : List Booking} {second : Int} :
    second ∉ (bookings.filter (·.isConfirmed)).map (·.start.unixSecond) ↔
      ∀ b ∈ bookings, b.isConfirmed = true → b.start.unixSecond ≠ second := by
  rw [List.mem_map, not_exists]
  constructor
  · intro h b hb hconfirmed heq
    exact h b ⟨List.mem_filter.mpr ⟨hb, hconfirmed⟩, heq⟩
  · rintro h b ⟨hb, heq⟩
    rw [List.mem_filter] at hb
    exact h b hb.1 hb.2 heq

theorem mem_removeBooked {candidates : List Interval} {bookings : List Booking}
    {slot : Interval} :
    slot ∈ removeBooked candidates bookings ↔ slot ∈ candidates ∧
      ∀ b ∈ bookings, b.isConfirmed = true → b.start.unixSecond ≠ slot.start.unixSecond := by
  rw [removeBooked, List.mem_filter, decide_eq_true_eq, not_mem_taken]

/-- A slot is free if the rules have it, and no confirmed booking starts in its second. -/
theorem exists_free_iff {rules : List Rule} {load : Interval → List Booking}
    {window : Interval} {p : Interval → Prop} :
    (∃ slots, freeWithin rules load window = .ok slots ∧ ∃ slot ∈ slots, p slot) ↔
      ∃ candidates range, rules.isEmpty = false ∧ expand rules window = .ok candidates ∧
        lookupRange window candidates = .ok range ∧
        ∃ slot ∈ candidates, p slot ∧ ∀ b ∈ load range, b.isConfirmed = true →
          b.start.unixSecond ≠ slot.start.unixSecond := by
  constructor
  · rintro ⟨slots, hslots, slot, hslot, hp⟩
    cases hempty : rules.isEmpty with
    | true =>
        rw [freeWithin, hempty] at hslots
        cases hslots
        cases hslot
    | false =>
        rcases (freeWithin_eq_ok hempty).mp hslots with
          ⟨candidates, hexpand, ⟨-, rfl⟩ | ⟨-, range, hrange, rfl⟩⟩
        · cases hslot
        · obtain ⟨hmem, hfree⟩ := mem_removeBooked.mp hslot
          exact ⟨candidates, range, rfl, hexpand, hrange, slot, hmem, hp, hfree⟩
  · rintro ⟨candidates, range, hempty, hexpand, hrange, slot, hslot, hp, hfree⟩
    refine ⟨removeBooked candidates (load range), ?_, slot, mem_removeBooked.mpr ⟨hslot, hfree⟩, hp⟩
    exact (freeWithin_eq_ok hempty).mpr ⟨candidates, hexpand,
      Or.inr ⟨List.ne_nil_of_mem hslot, range, hrange, rfl⟩⟩

theorem accept_eq_ok {rules : List Rule} {load : Interval → List Booking}
    {request : BookingRequest} :
    accept rules load request = .ok () ↔ ∃ window, revalidated request = .ok window ∧
      ∃ slots, freeWithin rules load window = .ok slots ∧
        ∃ slot ∈ slots, slot.isFrom request.start request.stop = true := by
  rw [accept]
  constructor
  · intro h
    obtain ⟨window, hwindow, h⟩ := bind_eq_ok.mp h
    obtain ⟨slots, hslots, h⟩ := bind_eq_ok.mp h
    split at h
    · next hslot => exact ⟨window, hwindow, slots, hslots, List.any_eq_true.mp hslot⟩
    · cases h
  · rintro ⟨window, hwindow, slots, hslots, hslot⟩
    rw [hwindow, ok_bind, hslots, ok_bind, if_pos (List.any_eq_true.mpr hslot)]

theorem eq_of_isFrom {slot : Interval} {start stop : Instant}
    (h : slot.isFrom start stop = true) : slot.start = start ∧ slot.stop = stop := by
  rw [Interval.isFrom, Bool.and_eq_true] at h
  exact ⟨eq_of_beq h.1, eq_of_beq h.2⟩

/-- What a request needs is that the rules have its slot and that its second is free, so other
bookings do as well if none of them is new in that second. -/
theorem accept_of_second {rules : List Rule} {load load' : Interval → List Booking}
    {request : BookingRequest} (h : accept rules load request = .ok ())
    (hload : ∀ range, ∀ b ∈ load' range, b.isConfirmed = true →
      b.start.unixSecond = request.start.unixSecond → b ∈ load range) :
    accept rules load' request = .ok () := by
  rw [accept_eq_ok] at h ⊢
  obtain ⟨window, hwindow, hfree⟩ := h
  refine ⟨window, hwindow, ?_⟩
  rw [exists_free_iff] at hfree ⊢
  obtain ⟨candidates, range, hempty, hexpand, hrange, slot, hslot, hfrom, hsecond⟩ := hfree
  refine ⟨candidates, range, hempty, hexpand, hrange, slot, hslot, hfrom, ?_⟩
  intro b hb hconfirmed heq
  refine hsecond b (hload range b hb hconfirmed ?_) hconfirmed heq
  rw [heq, (eq_of_isFrom hfrom).1]

/-! ## What an admitted request says about the records -/

theorem revalidated_ok {request : BookingRequest} {window : Interval}
    (h : revalidated request = .ok window) :
    (window.start.micros : Int) = request.start.micros - second ∧
      (window.stop.micros : Int) = request.stop.micros + second := by
  rw [revalidated] at h
  obtain ⟨first, hstart, h⟩ := bind_eq_ok.mp h
  obtain ⟨last, hstop, h⟩ := bind_eq_ok.mp h
  rw [Service.window] at h
  split at h
  · obtain ⟨rfl, rfl⟩ := Interval.between_ok h
    have hfirst := Instant.micros_of_shift? (inCalendar_ok hstart)
    have hlast := Instant.micros_of_shift? (inCalendar_ok hstop)
    exact ⟨hfirst, hlast⟩
  · cases h

/-- If a request is admitted, none of the confirmed bookings that there are starts in its
second. -/
theorem second_free {r : Records} {request : BookingRequest}
    (h : accept (r.rulesOf request.user) (r.load request.user) request = .ok ()) :
    ∀ b ∈ r.bookings, b.isConfirmed = true → b.user = request.user →
      b.start.unixSecond ≠ request.start.unixSecond := by
  intro b hb hconfirmed huser hsecond
  obtain ⟨window, hwindow, hfree⟩ := accept_eq_ok.mp h
  obtain ⟨candidates, range, -, -, hrange, slot, -, hfrom, hslot⟩ := exists_free_iff.mp hfree
  obtain ⟨hstart, hstop⟩ := eq_of_isFrom hfrom
  have hord : slot.start.micros < slot.stop.micros := slot.ordered
  have hwithin := revalidated_ok hwindow
  have hcovers := lookupRange_covers hrange
  rw [hstart, hstop] at hord
  refine hslot b ?_ hconfirmed (by rw [hsecond, hstart])
  unfold Records.load Records.confirmedWithin
  rw [List.mem_filter]
  refine ⟨hb, ?_⟩
  -- The second of the start lies between a second before the start and a second after the end.
  unfold Instant.unixSecond at hsecond
  unfold second at hsecond hwithin
  have hfirst : range.start.micros ≤ b.start.micros := by omega
  have hlast : b.start.micros < range.stop.micros := by omega
  simp only [Bool.and_eq_true, beq_iff_eq, Booking.startsWithin, decide_eq_true_eq]
  exact ⟨⟨huser, hconfirmed⟩, hfirst, hlast⟩

theorem start_on_minute {rules : List Rule} {load : Interval → List Booking}
    {request : BookingRequest} (hrules : ∀ rule ∈ rules, rule.Typed)
    (h : accept rules load request = .ok ()) : minute ∣ request.start.micros := by
  obtain ⟨window, -, hfree⟩ := accept_eq_ok.mp h
  obtain ⟨candidates, range, -, hexpand, -, slot, hslot, hfrom, -⟩ := exists_free_iff.mp hfree
  rw [← (eq_of_isFrom hfrom).1]
  exact expand_on_minute hrules hexpand hslot

theorem eq_of_second {s t : Instant} (hs : minute ∣ s.micros) (ht : minute ∣ t.micros)
    (h : s.unixSecond = t.unixSecond) : s = t := by
  have hwhole : second ∣ minute := by decide
  exact Instant.eq_of_unixSecond (Nat.dvd_trans hwhole hs) (Nat.dvd_trans hwhole ht) h

end Bookable
