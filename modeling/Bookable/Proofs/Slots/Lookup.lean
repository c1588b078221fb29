import Bookable.Proofs.Slots.Admission

/-!
# The bounded lookup finds every booking that matters

`freeSlots` asks for bookings once, and only for those that start in a range. A booking
takes a slot if both start in the same second, while the range is exact, so two things
have to hold at the lower end: the range begins with the earliest candidate at the
latest, and no booking of that candidate's second starts before it. The first is how
the range is computed. The second is true when candidates start with a second, which
they do if the slot lengths of the rules are whole numbers of seconds: every length
in whole minutes is one. At the upper end there is an hour to spare.

With a length that is a fraction of a second a booking can be missed, and its slot is
found free.
-/

namespace Bookable

open Time

/-- The free slots of rules in a window, and the ranges in which bookings were asked for. -/
def derivation (rules : List Rule) (window : Interval) (load : Interval → List Booking) :
    Except Error (List Interval) × List Interval :=
  let asked (range : Interval) : ExceptT Error (StateM (List Interval)) (List Booking) := do
    modify (· ++ [range])
    return load range
  (freeSlots rules window asked).run []

/-- Those of some bookings that start in a range. -/
def startingIn (bookings : List Booking) (range : Interval) : List Booking :=
  bookings.filter (·.startsWithin range.start range.stop)

/-- A rule cuts its window at whole seconds, if it can be cut at all. -/
def Rule.WholeSeconds (r : Rule) : Prop :=
  ∀ length, slotMicros r.slotLength = .ok length → (second : Int) ∣ length

theorem Rule.wholeSeconds_of_int {r : Rule} {length : Int} (h : r.slotLength = .int length) :
    r.WholeSeconds := by
  intro micros hmicros
  rw [h, slotMicros] at hmicros
  cases hmicros
  exact Int.dvd_mul_of_dvd_right (by decide)

/-! ## What is asked for -/

theorem derivation_eq (rules : List Rule) (window : Interval) (load : Interval → List Booking) :
    derivation rules window load =
      match expand rules window with
      | .error cause => (.error cause, [])
      | .ok [] => (.ok [], [])
      | .ok candidates =>
          match lookupRange window candidates with
          | .error cause => (.error cause, [])
          | .ok range => (.ok (removeBooked candidates (load range)), [range]) := by
  unfold derivation freeSlots
  cases expand rules window with
  | error cause => rfl
  | ok candidates =>
      cases candidates with
      | nil => rfl
      | cons slot rest =>
          change (liftM (lookupRange window (slot :: rest)) >>= _ :
            ExceptT Error (StateM (List Interval)) (List Interval)).run [] = _
          cases hrange : lookupRange window (slot :: rest) with
          | error cause =>
              simp only [hrange]
              rfl
          | ok range =>
              simp only [hrange]
              rfl

theorem asked_length_le (rules : List Rule) (window : Interval)
    (load : Interval → List Booking) : (derivation rules window load).2.length ≤ 1 := by
  rw [derivation_eq]
  split
  · exact Nat.zero_le 1
  · exact Nat.zero_le 1
  · split
    · exact Nat.zero_le 1
    · exact Nat.le_refl 1

theorem asked_eq_nil {rules : List Rule} {window : Interval}
    (h : ∀ candidates, expand rules window = .ok candidates → candidates = [])
    (load : Interval → List Booking) : (derivation rules window load).2 = [] := by
  rw [derivation_eq]
  cases hexpand : expand rules window with
  | error cause => rfl
  | ok candidates =>
      cases h candidates hexpand
      rfl

/-! ## Where candidates start -/

/-- A rule that has a window on a day has times that can be read and are in order, between which
the window runs, and a length that counts. -/
theorem Rule.windowOn_ok_inv {r : Rule} {day : Nat} {window : Interval}
    (h : r.windowOn day = .ok window) :
    ∃ start stop : OfDay, storedTime r.startTime = .ok start ∧ storedTime r.endTime = .ok stop ∧
      start.minutes < stop.minutes ∧ lengthCounts r.slotLength = .ok true ∧
      window.start.micros = day * Time.day + start.micros ∧
      window.stop.micros = day * Time.day + stop.micros := by
  rw [windowOn] at h
  obtain ⟨start, hstart, h⟩ := bind_eq_ok.mp h
  obtain ⟨stop, hstop, h⟩ := bind_eq_ok.mp h
  simp only [] at h
  split at h
  · next hord =>
      obtain ⟨counts, hcounts, h⟩ := bind_eq_ok.mp h
      split at h
      · next hpos =>
          obtain ⟨first, hfirst, h⟩ := bind_eq_ok.mp h
          obtain ⟨last, hlast, hfound⟩ := bind_eq_ok.mp h
          obtain ⟨rfl, rfl⟩ := Interval.between_ok hfound
          rw [hpos] at hcounts
          refine ⟨start, stop, hstart, hstop, hord, hcounts, ?_, ?_⟩
          · exact Instant.micros_of_ofMicros? (inCalendar_ok hfirst)
          · exact Instant.micros_of_ofMicros? (inCalendar_ok hlast)
      · cases h
  · cases h

/-- A window starts with a second. -/
theorem Rule.whole_of_windowOn {r : Rule} {day : Nat} {window : Interval}
    (h : r.windowOn day = .ok window) : second ∣ window.start.micros := by
  obtain ⟨first, -, -, -, -, -, hstart, -⟩ := windowOn_ok_inv h
  rw [hstart]
  exact Nat.dvd_add (Nat.dvd_mul_left_of_dvd (by decide) _) (Nat.dvd_mul_left_of_dvd (by decide) _)

/-- A walk that begins with a second goes on in whole seconds, and keeps what overlaps. -/
theorem mem_tileFrom {window request : Interval} {length : Int}
    (hlen : (second : Int) ∣ length) {start : Instant} (hstart : second ∣ start.micros)
    {slots : List Interval} (h : tileFrom window length request start = .ok slots)
    {slot : Interval} (hslot : slot ∈ slots) :
    second ∣ slot.start.micros ∧ slot.overlaps request = true := by
  induction start using tileFrom.induct window length generalizing slots with
  | case1 start hshift =>
      rw [tileFrom, hshift] at h
      cases h
  | case2 start stop hshift hends hnext ih =>
      rw [tileFrom, hshift] at h
      simp only [if_pos hends, dif_pos hnext] at h
      obtain ⟨rest, hrest, h⟩ := bind_eq_ok.mp h
      have hstop : second ∣ stop.micros := by
        have hmicros := Instant.micros_of_shift? hshift
        have hsum : (second : Int) ∣ start.micros + length :=
          Int.dvd_add (Int.natCast_dvd_natCast.mpr hstart) hlen
        rw [← hmicros] at hsum
        exact Int.natCast_dvd_natCast.mp hsum
      cases h
      split at hslot
      · next hoverlaps =>
          rcases List.mem_cons.mp hslot with rfl | hslot
          · exact ⟨hstart, hoverlaps⟩
          · exact ih hstop hrest hslot
      · exact ih hstop hrest hslot
  | case3 start stop hshift hends hempty =>
      rw [tileFrom, hshift] at h
      simp only [if_pos hends, dif_neg hempty] at h
      cases h
  | case4 start stop hshift hlast =>
      rw [tileFrom, hshift] at h
      simp only [if_neg hlast] at h
      cases h
      cases hslot

/-- Candidates start with a second and before the end of the window. -/
theorem mem_expand {rules : List Rule} (whole : ∀ r ∈ rules, r.WholeSeconds) {window : Interval}
    {candidates : List Interval} (h : expand rules window = .ok candidates) {slot : Interval}
    (hslot : slot ∈ candidates) :
    second ∣ slot.start.micros ∧ slot.start.micros < window.stop.micros := by
  rw [expand] at h
  split at h
  · cases h
    cases hslot
  · obtain ⟨found, hfound, h⟩ := bind_eq_ok.mp h
    split at h
    · cases h
    · cases h
      obtain ⟨ofDay, hofDay, hslot⟩ := List.mem_flatten.mp hslot
      obtain ⟨ofDays, hofDays, hofDay⟩ := List.mem_flatten.mp hofDay
      obtain ⟨day, -, hday⟩ := mem_of_mapM_ok hfound hofDays
      obtain ⟨r, hr, hslots⟩ := mem_of_mapM_ok hday hofDay
      rw [Rule.slotsOn] at hslots
      split at hslots
      · obtain ⟨own, hown, hslots⟩ := bind_eq_ok.mp hslots
        split at hslots
        · obtain ⟨length, hlength, hslots⟩ := bind_eq_ok.mp hslots
          obtain ⟨hsecond, hoverlaps⟩ :=
            mem_tileFrom (whole r hr length hlength) (Rule.whole_of_windowOn hown) hslots hslot
          rw [Interval.overlaps, Bool.and_eq_true, decide_eq_true_eq] at hoverlaps
          exact ⟨hsecond, hoverlaps.1⟩
        · cases hslots
          cases hslot
      · cases hslots
        cases hslot

/-! ## Where the range lies -/

theorem foldl_earlier_le_mem {candidates : List Interval} {slot : Interval}
    (hslot : slot ∈ candidates) (t : Instant) :
    (candidates.foldl (fun t slot => if slot.start < t then slot.start else t) t).micros ≤
      slot.start.micros := by
  induction candidates generalizing t with
  | nil => cases hslot
  | cons first rest ih =>
      rw [List.foldl_cons]
      rcases List.mem_cons.mp hslot with rfl | hslot
      · refine Nat.le_trans (foldl_earlier_le _ _) ?_
        split
        · exact Nat.le_refl _
        · next hnot => exact Nat.le_of_not_lt hnot
      · exact ih hslot _

/-- The range begins no later than any candidate, and ends an hour after the window. -/
theorem lookupRange_reaches {window range : Interval} {candidates : List Interval}
    (h : lookupRange window candidates = .ok range) :
    (∀ slot ∈ candidates, range.start.micros ≤ slot.start.micros) ∧
      range.stop.micros = window.stop.micros + hour := by
  rw [lookupRange] at h
  obtain ⟨padded, hpadded, h⟩ := bind_eq_ok.mp h
  obtain ⟨hstart, hstop⟩ := Interval.between_ok h
  have hlast := (Interval.padded_ok hpadded).2
  rw [hstart, hstop]
  unfold lookupMargin at hlast
  exact ⟨fun slot hslot => foldl_earlier_le_mem hslot _, by omega⟩

/-- A booking that starts in the second of a candidate is in the range. -/
theorem startsWithin_lookupRange {rules : List Rule} (whole : ∀ r ∈ rules, r.WholeSeconds)
    {window range : Interval} {candidates : List Interval}
    (hexpand : expand rules window = .ok candidates)
    (hrange : lookupRange window candidates = .ok range) {slot : Interval}
    (hslot : slot ∈ candidates) {b : Booking}
    (hsecond : b.start.unixSecond = slot.start.unixSecond) :
    b.startsWithin range.start range.stop = true := by
  obtain ⟨hearly, hstop⟩ := lookupRange_reaches hrange
  have hstart := hearly slot hslot
  obtain ⟨hwhole, hbefore⟩ := mem_expand whole hexpand hslot
  -- The booking starts in the second that the candidate starts with.
  unfold Instant.unixSecond at hsecond
  unfold hour minute at hstop
  unfold second at *
  have hfirst : range.start.micros ≤ b.start.micros := by omega
  have hlast : b.start.micros < range.stop.micros := by omega
  rw [Booking.startsWithin, Bool.and_eq_true, decide_eq_true_eq, decide_eq_true_eq]
  exact ⟨hfirst, hlast⟩

/-- What else is removed by other bookings is what they have in the seconds of the candidates. -/
theorem removeBooked_eq_filter {candidates : List Interval} {bookings bookings' : List Booking}
    {p : Interval → Bool}
    (h : ∀ slot ∈ candidates,
      (∀ b ∈ bookings', b.isConfirmed = true → b.start.unixSecond ≠ slot.start.unixSecond) ↔
        p slot = true ∧
          ∀ b ∈ bookings, b.isConfirmed = true → b.start.unixSecond ≠ slot.start.unixSecond) :
    removeBooked candidates bookings' = (removeBooked candidates bookings).filter p := by
  unfold removeBooked
  rw [List.filter_filter]
  refine List.filter_congr fun slot hslot => ?_
  rw [Bool.eq_iff_iff, Bool.and_eq_true, decide_eq_true_eq, decide_eq_true_eq, not_mem_taken,
    not_mem_taken]
  exact h slot hslot

/-- Only bookings that start in the second of a candidate make a difference. -/
theorem removeBooked_congr {candidates : List Interval} {bookings bookings' : List Booking}
    (h : ∀ slot ∈ candidates, ∀ b : Booking, b.start.unixSecond = slot.start.unixSecond →
      (b ∈ bookings ↔ b ∈ bookings')) :
    removeBooked candidates bookings = removeBooked candidates bookings' := by
  have hfilter := List.filter_eq_self.mpr fun (slot : Interval)
    (_ : slot ∈ removeBooked candidates bookings') => rfl
  refine Eq.trans (removeBooked_eq_filter fun slot hslot => ?_) hfilter
  rw [and_iff_right rfl]
  refine forall_congr' fun b => ?_
  constructor
  · exact fun hfree hb hconfirmed hsecond =>
      hfree ((h slot hslot b hsecond).mpr hb) hconfirmed hsecond
  · exact fun hfree hb hconfirmed hsecond =>
      hfree ((h slot hslot b hsecond).mp hb) hconfirmed hsecond

/-! ## All bookings, or those in the range -/

/-- Bookings are asked for at most once, and not at all if there is no candidate. Asking for
those in a range is as good as having all of them, whatever these are, when the slot lengths
are whole numbers of seconds. -/
theorem bounded_lookup_complete (rules : List Rule) (window : Interval)
    (bookings : List Booking) :
    (∀ load, (derivation rules window load).2.length ≤ 1 ∧
      ((∀ candidates, expand rules window = .ok candidates → candidates = []) →
        (derivation rules window load).2 = [])) ∧
    ((∀ r ∈ rules, r.WholeSeconds) →
      derivation rules window (startingIn bookings) =
        derivation rules window (fun _ => bookings)) := by
  refine ⟨fun load => ⟨asked_length_le rules window load, fun h => asked_eq_nil h load⟩, ?_⟩
  intro whole
  rw [derivation_eq, derivation_eq]
  cases hexpand : expand rules window with
  | error cause => rfl
  | ok candidates =>
      cases candidates with
      | nil => rfl
      | cons first rest =>
          simp only []
          cases hrange : lookupRange window (first :: rest) with
          | error cause => rfl
          | ok range =>
              simp only []
              rw [removeBooked_congr]
              intro slot hslot b hsecond
              rw [startingIn, List.mem_filter, and_iff_left_iff_imp]
              exact fun _ => startsWithin_lookupRange whole hexpand hrange hslot hsecond

/-- A slot of three hours, asked about in its last one. Its booking starts outside the padded
window and half a second late, and takes the slot. -/
theorem long_slot_taken :
    let rules : List Rule := [{
      user := "anna", dayOfWeek := .int 1, startTime := .text "00:00", endTime := .text "03:00",
      slotLength := .int 180 }]
    let window : Interval := ⟨⟨2 * hour, by decide⟩, ⟨2 * hour + minute, by decide⟩, by decide⟩
    let bookings : List Booking := [{
      user := "anna", email := some "", start := ⟨500000, by decide⟩,
      stop := ⟨3 * hour, by decide⟩, id := "id", createdAt := ⟨0, by decide⟩ }]
    (∀ r ∈ rules, r.WholeSeconds) ∧
      derivation rules window (startingIn bookings) =
        derivation rules window (fun _ => bookings) ∧
      (derivation rules window (startingIn bookings)).1.toOption = some [] ∧
      ((derivation rules window (startingIn [])).1.toOption.map List.length) = some 1 := by
  intro rules window bookings
  have whole : ∀ r ∈ rules, r.WholeSeconds := by
    intro r hr
    cases List.mem_singleton.mp hr
    exact Rule.wholeSeconds_of_int rfl
  exact ⟨whole, (bounded_lookup_complete rules window bookings).2 whole, by decide +kernel,
    by decide +kernel⟩

/-- Slots of 120 minutes and 15/32 of a second from nine o'clock on. The second one of the day
starts 15/32 of a second after eleven, where the lookup begins, and the booking at eleven is in
its second. -/
theorem missed_booking :
    let rules : List Rule := [{
      user := "anna", dayOfWeek := .int 1, startTime := .text "09:00", endTime := .text "18:00",
      slotLength := .float (.ofDecimal false 1200078125 (-7)) }]
    let window : Interval :=
      ⟨⟨12 * hour + 30 * minute, by decide⟩, ⟨12 * hour + 45 * minute, by decide⟩, by decide⟩
    let bookings : List Booking := [{
      user := "anna", email := some "", start := ⟨11 * hour, by decide⟩,
      stop := ⟨12 * hour, by decide⟩, id := "id", createdAt := ⟨0, by decide⟩ }]
    ((derivation rules window (startingIn bookings)).1.toOption.map List.length) = some 1 ∧
      ((derivation rules window (fun _ => bookings)).1.toOption.map List.length) = some 0 ∧
      derivation rules window (startingIn bookings) ≠
        derivation rules window (fun _ => bookings) := by
  intro rules window bookings
  have hin : ((derivation rules window (startingIn bookings)).1.toOption.map List.length) =
      some 1 := by decide +kernel
  have hall : ((derivation rules window (fun _ => bookings)).1.toOption.map List.length) =
      some 0 := by decide +kernel
  refine ⟨hin, hall, fun heq => ?_⟩
  rw [heq, hall] at hin
  cases hin

end Bookable
