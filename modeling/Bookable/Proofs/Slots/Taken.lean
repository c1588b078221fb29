import Bookable.Proofs.Slots.Lookup

/-!
# Candidates taken by a booking nearby

A booking is meant to take the candidates that start when it does, and no others. What
`removeBooked` compares are seconds, rounded down. So the candidates that start with a
confirmed booking are all gone, before 1970 as after it, but so are those that start
elsewhere in its second.

This is the only difference between the two. They agree on given candidates and bookings
exactly if whatever starts in the second of a candidate is matched by a booking that
starts with it. Where everything starts with a second they agree, which covers the
candidates of rules whose lengths are whole numbers of seconds: then it is up to the
bookings.
-/

namespace Bookable

open Time

/-- The instants at which confirmed bookings start. -/
def confirmedStarts (bookings : List Booking) : List Instant :=
  (bookings.filter (·.isConfirmed)).map (·.start)

/-- The candidates with which no confirmed booking starts. -/
def unbooked (candidates : List Interval) (bookings : List Booking) : List Interval :=
  candidates.filter fun slot => slot.start ∉ confirmedStarts bookings

/-- Every booking in the second of a candidate goes with one that starts when the candidate
does. -/
def Matched (candidates : List Interval) (bookings : List Booking) : Prop :=
  ∀ slot ∈ candidates, ∀ b ∈ bookings, b.isConfirmed = true →
    b.start.unixSecond = slot.start.unixSecond → slot.start ∈ confirmedStarts bookings

@[simp] theorem mem_confirmedStarts {bookings : List Booking} {start : Instant} :
    start ∈ confirmedStarts bookings ↔
      ∃ b ∈ bookings, b.isConfirmed = true ∧ b.start = start := by
  simp [confirmedStarts, and_assoc]

theorem mem_unbooked {candidates : List Interval} {bookings : List Booking} {slot : Interval} :
    slot ∈ unbooked candidates bookings ↔
      slot ∈ candidates ∧ slot.start ∉ confirmedStarts bookings := by
  simp [unbooked]

/-- What is left over is free of bookings at its very start. -/
theorem removeBooked_eq_filter_unbooked (candidates : List Interval) (bookings : List Booking) :
    removeBooked candidates bookings = (unbooked candidates bookings).filter fun slot =>
      bookings.all fun b => !b.isConfirmed || b.start.unixSecond != slot.start.unixSecond := by
  unfold removeBooked unbooked
  rw [List.filter_filter]
  refine List.filter_congr fun slot _ => ?_
  rw [Bool.eq_iff_iff, Bool.and_eq_true, decide_eq_true_eq, decide_eq_true_eq, not_mem_taken]
  simp only [mem_confirmedStarts, List.all_eq_true, Bool.or_eq_true, Bool.not_eq_true',
    bne_iff_ne]
  constructor
  · intro hfree
    refine ⟨fun b hb => ?_, ?_⟩
    · cases hconfirmed : b.isConfirmed with
      | false => exact Or.inl rfl
      | true => exact Or.inr (hfree b hb hconfirmed)
    · rintro ⟨b, hb, hconfirmed, hstart⟩
      exact hfree b hb hconfirmed (by rw [hstart])
  · rintro ⟨hall, -⟩ b hb hconfirmed
    rcases hall b hb with hnot | hne
    · simp [hconfirmed] at hnot
    · exact hne

theorem removeBooked_eq_unbooked_iff (candidates : List Interval) (bookings : List Booking) :
    removeBooked candidates bookings = unbooked candidates bookings ↔
      Matched candidates bookings := by
  rw [removeBooked_eq_filter_unbooked, List.filter_eq_self]
  constructor
  · intro hall slot hslot b hb hconfirmed hsecond
    by_contra hfree
    have hnone := hall slot (mem_unbooked.mpr ⟨hslot, hfree⟩)
    have hb' := List.all_eq_true.mp hnone b hb
    simp [hconfirmed, hsecond] at hb'
  · intro hmatched slot hslot
    obtain ⟨hmem, hfree⟩ := mem_unbooked.mp hslot
    rw [List.all_eq_true]
    intro b hb
    cases hconfirmed : b.isConfirmed with
    | false => rfl
    | true =>
        have hne : b.start.unixSecond ≠ slot.start.unixSecond :=
          fun hsecond => hfree (hmatched slot hmem b hb hconfirmed hsecond)
        simp [hne]

/-- Where everything starts with a second, a second is as good as an instant. -/
theorem matched_of_whole {candidates : List Interval} {bookings : List Booking}
    (hcandidates : ∀ slot ∈ candidates, second ∣ slot.start.micros)
    (hbookings : ∀ start ∈ confirmedStarts bookings, second ∣ start.micros) :
    Matched candidates bookings := by
  intro slot hslot b hb hconfirmed hsecond
  have hstart : b.start ∈ confirmedStarts bookings :=
    mem_confirmedStarts.mpr ⟨b, hb, hconfirmed, rfl⟩
  rw [← Instant.eq_of_unixSecond (hbookings _ hstart) (hcandidates slot hslot) hsecond]
  exact hstart

/-- Exactly the candidates with which a confirmed booking starts are removed, and the others stay
in their order, if and only if every booking in the second of a candidate goes with one at its
start. If confirmed bookings start with a second, this holds of candidates that do as well, and so
of all candidates of rules whose lengths are whole numbers of seconds. -/
theorem removed_exactly_iff_matched (candidates : List Interval) (bookings : List Booking) :
    (removeBooked candidates bookings = unbooked candidates bookings ↔
      Matched candidates bookings) ∧
    ((∀ start ∈ confirmedStarts bookings, second ∣ start.micros) →
      ((∀ slot ∈ candidates, second ∣ slot.start.micros) →
        removeBooked candidates bookings = unbooked candidates bookings) ∧
      ∀ rules window, (∀ r ∈ rules, r.WholeSeconds) → expand rules window = .ok candidates →
        removeBooked candidates bookings = unbooked candidates bookings) := by
  have hiff := removeBooked_eq_unbooked_iff candidates bookings
  refine ⟨hiff, fun hbookings => ⟨fun hcandidates => ?_, fun rules window whole hexpand => ?_⟩⟩
  · exact hiff.mpr (matched_of_whole hcandidates hbookings)
  · refine hiff.mpr (matched_of_whole (fun slot hslot => ?_) hbookings)
    exact (mem_expand whole hexpand hslot).1

/-- A booking half a second after 2024-11-25T09:00:00 takes the slot that starts at nine. -/
theorem removed_by_late_booking :
    let nine : Instant := ⟨63868122000000000, by decide⟩
    let halfPast : Instant := ⟨63868123800000000, by decide⟩
    let slot : Interval := ⟨nine, halfPast, by decide⟩
    let late : Booking := {
      user := "user-1", email := some "c@example.com", start := ⟨63868122000500000, by decide⟩,
      stop := halfPast, id := "id-0001", createdAt := ⟨63867700800000000, by decide⟩ }
    removeBooked [slot] [late] = [] ∧ unbooked [slot] [late] = [slot] := by
  decide +kernel

end Bookable
