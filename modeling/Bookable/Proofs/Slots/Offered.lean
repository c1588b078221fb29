import Bookable.Proofs.Slots.Lookup

/-!
# One slot, seen through different windows

A slot is offered if some rule has it on some day. Whether it is free in a window is a
question about the slot alone: it has to be offered, to overlap the window, and to have
a start at which nothing is booked. For the rules this is what the walk over the days
comes to, and the bookings that a window has looked up are enough to know about every
slot that it shows. As slots and bookings start with a minute, a booking that takes a
slot has the slot's start and not only its second.

Hence a request that is checked in a window of its own is accepted if and only if any
other window that it overlaps lists it. A window may still reach so far that the walk
leaves the calendar. Nothing else can go wrong with rules that can be used.
-/

namespace Bookable

open Store Time

/-- A rule that has slots on the days that it is for. -/
def Rule.Usable (r : Rule) : Prop := r.Typed ∧ r.plan? ≠ none

/-- Some rule has a slot between two instants, on some day. -/
def Offered (rules : List Rule) (start stop : Instant) : Prop :=
  ∃ day < calendarDays, ∃ r ∈ rules, (start.micros, stop.micros) ∈ r.declaredOn day

variable {rules : List Rule}

/-! ## What can go wrong -/

theorem Interval.padded_error {window : Interval} {micros : Nat} {cause : Error}
    (h : window.padded micros = .error cause) : cause = .outsideCalendar := by
  rw [padded] at h
  cases hstart : window.start.shift? (-(micros : Int)) with
  | none =>
      rw [hstart] at h
      cases h
      rfl
  | some start =>
      cases hstop : window.stop.shift? (micros : Int) with
      | none =>
          rw [hstart, hstop] at h
          cases h
          rfl
      | some stop =>
          have hfirst := Instant.micros_of_shift? hstart
          have hlast := Instant.micros_of_shift? hstop
          have hord : window.start.micros < window.stop.micros := window.ordered
          have hlt : start < stop := by
            show start.micros < stop.micros
            omega
          rw [hstart, hstop] at h
          change between start stop = _ at h
          rw [between, dif_pos hlt] at h
          cases h

theorem lookupRange_error {window : Interval} {candidates : List Interval} {cause : Error}
    (h : lookupRange window candidates = .error cause) : cause = .outsideCalendar := by
  rw [lookupRange] at h
  cases hpadded : window.padded lookupMargin with
  | error cause' =>
      rw [hpadded] at h
      cases h
      exact Interval.padded_error hpadded
  | ok padded =>
      rw [hpadded, ok_bind] at h
      simp only [] at h
      have hord : padded.start.micros < padded.stop.micros := padded.ordered
      have hle := foldl_earlier_le candidates padded.start
      rw [Interval.between] at h
      split at h
      · cases h
      · next hnot => exact absurd (Nat.lt_of_le_of_lt hle hord) hnot

theorem expand_error (usable : ∀ r ∈ rules, r.Usable) {window : Interval} {cause : Error}
    (h : expand rules window = .error cause) : cause = .outsideCalendar := by
  rcases expand_cases (fun r hr => (usable r hr).1) window with
    ⟨⟨day, -, -, r, hr, -, hplan⟩, -⟩ | ⟨hout, -⟩ | ⟨-, slots, hslots, -⟩
  · exact absurd hplan (usable r hr).2
  · rw [hout] at h
    cases h
    rfl
  · rw [hslots] at h
    cases h

theorem freeWithin_error (usable : ∀ r ∈ rules, r.Usable) {load : Interval → List Booking}
    {window : Interval} {cause : Error} (h : freeWithin rules load window = .error cause) :
    cause = .outsideCalendar := by
  cases hempty : rules.isEmpty with
  | true =>
      rw [freeWithin, hempty] at h
      cases h
  | false =>
      rw [freeWithin_eq _ _ hempty] at h
      cases hexpand : expand rules window with
      | error cause' =>
          rw [hexpand] at h
          cases h
          exact expand_error usable hexpand
      | ok candidates =>
          rw [hexpand, ok_bind] at h
          split at h
          · cases h
          · cases hrange : lookupRange window candidates with
            | error cause' =>
                rw [hrange] at h
                cases h
                exact lookupRange_error hrange
            | ok range =>
                rw [hrange] at h
                cases h

/-! ## Candidates -/

theorem mem_declared {window : Interval} {slot : Nat × Nat} :
    slot ∈ declared rules window ↔
      (∃ day < calendarDays, ∃ r ∈ rules, slot ∈ r.declaredOn day) ∧
        window.meets slot = true := by
  unfold declared
  constructor
  · intro h
    obtain ⟨day, hday, h⟩ := List.mem_flatMap.mp h
    obtain ⟨r, hr, h⟩ := List.mem_flatMap.mp h
    rw [List.mem_filter] at h
    exact ⟨⟨day, List.mem_range.mp hday, r, hr, h.1⟩, h.2⟩
  · rintro ⟨⟨day, hday, r, hr, hslot⟩, hmeets⟩
    refine List.mem_flatMap.mpr ⟨day, List.mem_range.mpr hday, ?_⟩
    refine List.mem_flatMap.mpr ⟨r, hr, ?_⟩
    exact List.mem_filter.mpr ⟨hslot, hmeets⟩

theorem Interval.bounds_injective {a b : Interval} (h : a.bounds = b.bounds) : a = b := by
  obtain ⟨⟨start, _⟩, ⟨stop, _⟩, _⟩ := a
  obtain ⟨⟨start', _⟩, ⟨stop', _⟩, _⟩ := b
  obtain ⟨rfl, rfl⟩ := Prod.mk.inj h
  rfl

/-- The candidates of a window are the slots on offer that overlap it. -/
theorem mem_expand_iff (usable : ∀ r ∈ rules, r.Usable) {window : Interval}
    {candidates : List Interval} (h : expand rules window = .ok candidates) {slot : Interval} :
    slot ∈ candidates ↔ Offered rules slot.start slot.stop ∧ slot.overlaps window = true := by
  rcases expand_cases (fun r hr => (usable r hr).1) window with
    ⟨-, cause, hcause, -⟩ | ⟨hout, -⟩ | ⟨-, found, hfound, hbounds⟩
  · rw [h] at hcause
    cases hcause
  · rw [h] at hout
    cases hout
  · rw [h] at hfound
    cases hfound
    rw [Interval.overlaps_eq]
    refine Iff.trans ?_ mem_declared
    rw [← hbounds, List.mem_map]
    constructor
    · exact fun hslot => ⟨slot, hslot, rfl⟩
    · rintro ⟨other, hother, heq⟩
      rw [← Interval.bounds_injective heq]
      exact hother

theorem Offered.on_minute {start stop : Instant} (h : Offered rules start stop) :
    minute ∣ start.micros := by
  obtain ⟨day, -, r, -, hslot⟩ := h
  rw [Rule.declaredOn] at hslot
  split at hslot
  · split at hslot
    · exact Plan.start_on_minute hslot
    · cases hslot
  · cases hslot

/-! ## Free slots -/

/-- Every booking starts with a minute. -/
def Store.Records.OnMinute (r : Records) : Prop := ∀ b ∈ r.bookings, minute ∣ b.start.micros

/-- No confirmed booking of a user has a start. -/
def Store.Records.Open (r : Records) (user : String) (start : Instant) : Prop :=
  ∀ b ∈ r.bookings, b.isConfirmed = true → b.user = user → b.start ≠ start

/-- A user's slot between two instants is on offer and not booked. -/
def Store.Records.Has (r : Records) (user : String) (start stop : Instant) : Prop :=
  Offered (r.rulesOf user) start stop ∧ r.Open user start

section Free

variable {r : Records} {user : String}

/-- What is looked up for a window decides about its candidates. -/
theorem open_iff_loaded (minutes : r.OnMinute) {window range : Interval}
    {candidates : List Interval} (hrange : lookupRange window candidates = .ok range)
    {slot : Interval} (hslot : slot ∈ candidates) (hoverlaps : slot.overlaps window = true)
    (hminute : minute ∣ slot.start.micros) :
    (∀ b ∈ r.load user range, b.isConfirmed = true →
      b.start.unixSecond ≠ slot.start.unixSecond) ↔ r.Open user slot.start := by
  unfold Records.load Records.confirmedWithin
  constructor
  · intro h b hb hconfirmed huser hstart
    obtain ⟨hearly, hstop⟩ := lookupRange_reaches hrange
    have hfirst := hearly slot hslot
    rw [Interval.overlaps, Bool.and_eq_true, decide_eq_true_eq] at hoverlaps
    have hbefore : slot.start.micros < window.stop.micros := hoverlaps.1
    refine h b (List.mem_filter.mpr ⟨hb, ?_⟩) hconfirmed (by rw [hstart])
    have hlast : slot.start.micros < range.stop.micros := by omega
    simp only [Bool.and_eq_true, beq_iff_eq, Booking.startsWithin, decide_eq_true_eq]
    rw [hstart]
    exact ⟨⟨huser, hconfirmed⟩, hfirst, hlast⟩
  · intro h b hb hconfirmed hsecond
    rw [List.mem_filter] at hb
    simp only [Bool.and_eq_true, beq_iff_eq] at hb
    exact h b hb.1 hconfirmed hb.2.1.1 (eq_of_second (minutes b hb.1) hminute hsecond)

/-- A window lists the slots that overlap it and are not booked. -/
theorem mem_freeWithin (usable : ∀ rule ∈ r.rulesOf user, rule.Usable) (minutes : r.OnMinute)
    {window : Interval} {slots : List Interval}
    (h : freeWithin (r.rulesOf user) (r.load user) window = .ok slots) {slot : Interval} :
    slot ∈ slots ↔ r.Has user slot.start slot.stop ∧ slot.overlaps window = true := by
  cases hempty : (r.rulesOf user).isEmpty with
  | true =>
      rw [freeWithin, hempty] at h
      cases h
      refine iff_of_false List.not_mem_nil ?_
      rintro ⟨⟨⟨-, -, rule, hrule, -⟩, -⟩, -⟩
      rw [List.isEmpty_iff.mp hempty] at hrule
      cases hrule
  | false =>
      obtain ⟨candidates, hexpand, hlooked⟩ := (freeWithin_eq_ok hempty).mp h
      have hcandidate : slot ∈ candidates ↔ _ := mem_expand_iff usable hexpand
      rcases hlooked with ⟨rfl, rfl⟩ | ⟨-, range, hrange, rfl⟩
      · refine iff_of_false List.not_mem_nil ?_
        rintro ⟨⟨hoffered, -⟩, hoverlaps⟩
        exact List.not_mem_nil (hcandidate.mpr ⟨hoffered, hoverlaps⟩)
      · rw [mem_removeBooked]
        constructor
        · rintro ⟨hslot, hfree⟩
          obtain ⟨hoffered, hoverlaps⟩ := hcandidate.mp hslot
          have hopen := (open_iff_loaded minutes hrange hslot hoverlaps hoffered.on_minute).mp hfree
          exact ⟨⟨hoffered, hopen⟩, hoverlaps⟩
        · rintro ⟨⟨hoffered, hopen⟩, hoverlaps⟩
          have hslot := hcandidate.mpr ⟨hoffered, hoverlaps⟩
          exact ⟨hslot,
            (open_iff_loaded minutes hrange hslot hoverlaps hoffered.on_minute).mpr hopen⟩

/-- The window around a request, when it lies in the calendar, is one that the request overlaps. -/
theorem revalidated_cases {request : BookingRequest} (hord : request.start < request.stop) :
    revalidated request = .error .outsideCalendar ∨
      ∃ window, revalidated request = .ok window ∧
        (⟨request.start, request.stop, hord⟩ : Interval).overlaps window = true := by
  rw [revalidated]
  cases hstart : request.start.shift? (-Service.revalidationMargin) with
  | none => exact Or.inl rfl
  | some start =>
      cases hstop : request.stop.shift? Service.revalidationMargin with
      | none => exact Or.inl rfl
      | some stop =>
          have hfirst := Instant.micros_of_shift? hstart
          have hlast := Instant.micros_of_shift? hstop
          have hlt : request.start.micros < request.stop.micros := hord
          unfold Service.revalidationMargin second at hfirst hlast
          have hwindow : start < stop := by
            show start.micros < stop.micros
            omega
          refine Or.inr ⟨⟨start, stop, hwindow⟩, ?_, ?_⟩
          · show Service.window start stop = _
            rw [Service.window, if_pos hwindow, Interval.between, dif_pos hwindow]
          · have hbefore : request.start.micros < stop.micros := by omega
            have hafter : start.micros < request.stop.micros := by omega
            rw [Interval.overlaps, Bool.and_eq_true, decide_eq_true_eq, decide_eq_true_eq]
            exact ⟨hbefore, hafter⟩

/-- A request is accepted if its slot is there and refused if not, unless the calendar ends. -/
theorem accept_cases {request : BookingRequest}
    (usable : ∀ rule ∈ r.rulesOf request.user, rule.Usable) (minutes : r.OnMinute)
    (hord : request.start < request.stop) :
    accept (r.rulesOf request.user) (r.load request.user) request = .error .outsideCalendar ∨
      (∃ window slots, (⟨request.start, request.stop, hord⟩ : Interval).overlaps window = true ∧
        freeWithin (r.rulesOf request.user) (r.load request.user) window = .ok slots) ∧
      (r.Has request.user request.start request.stop ∧
          accept (r.rulesOf request.user) (r.load request.user) request = .ok () ∨
        ¬ r.Has request.user request.start request.stop ∧
          accept (r.rulesOf request.user) (r.load request.user) request =
            .error .slotNotAvailable) := by
  rw [accept]
  rcases revalidated_cases hord with hout | ⟨window, hwindow, hoverlaps⟩
  · rw [hout]
    exact Or.inl rfl
  · rw [hwindow, ok_bind]
    cases hslots : freeWithin (r.rulesOf request.user) (r.load request.user) window with
    | error cause =>
        rw [freeWithin_error usable hslots]
        exact Or.inl rfl
    | ok slots =>
        right
        refine ⟨⟨window, slots, hoverlaps, hslots⟩, ?_⟩
        rw [ok_bind]
        have hmem : ∀ slot, slot ∈ slots ↔ _ := fun _ => mem_freeWithin usable minutes hslots
        have hiff : slots.any (·.isFrom request.start request.stop) = true ↔
            r.Has request.user request.start request.stop := by
          rw [List.any_eq_true]
          constructor
          · rintro ⟨slot, hslot, hfrom⟩
            obtain ⟨hstart, hstop⟩ := eq_of_isFrom hfrom
            rw [← hstart, ← hstop]
            exact ((hmem slot).mp hslot).1
          · intro hhas
            refine ⟨⟨request.start, request.stop, hord⟩, (hmem _).mpr ⟨hhas, hoverlaps⟩, ?_⟩
            rw [Interval.isFrom, beq_self_eq_true, beq_self_eq_true]
            rfl
        split
        · next hany => exact Or.inl ⟨hiff.mp hany, rfl⟩
        · next hany => exact Or.inr ⟨fun hhas => hany (hiff.mpr hhas), rfl⟩

end Free

end Bookable
