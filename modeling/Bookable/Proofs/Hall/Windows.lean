import Bookable.Proofs.Hall.Listing
import Bookable.Proofs.Slots.Narrowed

/-!
# Listings in narrower windows

A listing in a window that lies within another one succeeds if the other one does, and
shows what the other one shows of the narrower window, in the same order and as many
times. This is so on any records and whatever keys are in use, since a listing needs no
key and its result is a function of the records.

It takes slots whose lengths are whole numbers of seconds, as lengths in minutes are.
With other ones a slot may start within the second in which a booking starts, but after
it, and a window so narrow that its lookup begins with that slot misses the booking.
-/

namespace Bookable

open Store Time

/-- The slots of a rule that the services have accepted are whole minutes long. -/
theorem Rule.Valid.wholeSeconds {r : Rule} (h : r.Valid) : r.WholeSeconds := by
  obtain ⟨-, length, -, -, -, -, -, hlength, -⟩ := h
  exact Rule.wholeSeconds_of_int hlength

/-- On any records, a listing that succeeds in a window succeeds in every window that lies within
it, and shows all slots of the wider window that overlap the narrower one. With rules whose slot
lengths are whole numbers of seconds it shows these and no others. -/
theorem listing_narrowed {m : Machine} {user : String} {wide narrow : Interval}
    (hwithin : narrow.Within wide) {slots : List Interval}
    (h : m.Lists user wide.start wide.stop (.ok (.slots slots))) :
    ∃ slots', m.Lists user narrow.start narrow.stop (.ok (.slots slots')) ∧
      (slots.filter (·.overlaps narrow)).Sublist slots' ∧
      ((∀ rule ∈ m.records.rulesOf user, rule.WholeSeconds) →
        slots' = slots.filter (·.overlaps narrow)) := by
  rw [lists_slots_iff, Records.listed, wide.window_bounds, ok_bind] at h
  obtain ⟨slots', hnarrow, hrest⟩ := freeWithin_narrowed hwithin h
  refine ⟨slots', ?_, hrest⟩
  rw [lists_slots_iff, Records.listed, narrow.window_bounds, ok_bind, hnarrow]

/-- The whole morning of a day with a booked slot and a free one, and a window that begins in the
one and ends in the other. -/
theorem second_slot_listed :
    let m := (Hall.run {} bookedOnce).machine
    let morning : Interval := ⟨⟨8 * hour, by decide⟩, ⟨12 * hour, by decide⟩, by decide⟩
    let between : Interval := ⟨⟨10 * hour + 10 * minute, by decide⟩,
      ⟨10 * hour + 30 * minute, by decide⟩, by decide⟩
    between.Within morning ∧ (∀ rule ∈ m.records.rulesOf "anna", rule.WholeSeconds) ∧
      ∃ slots, slots.length = 1 ∧
        m.Lists "anna" morning.start morning.stop (.ok (.slots slots)) ∧
        m.Lists "anna" between.start between.stop (.ok (.slots slots)) := by
  intro m morning between
  have hwithin : between.Within morning := by decide
  have whole : ∀ rule ∈ m.records.rulesOf "anna", rule.WholeSeconds := fun rule hrule =>
    (Hall.rulesValid_run bookedOnce rule (List.mem_filter.mp hrule).1).wholeSeconds
  have hlisted : (m.records.listed "anna" morning.start morning.stop).toOption.map
      (fun slots => (slots.length, slots.filter (·.overlaps between) == slots)) =
        some (1, true) := by
    decide +kernel
  cases hslots : m.records.listed "anna" morning.start morning.stop with
  | error cause =>
      rw [hslots] at hlisted
      cases hlisted
  | ok slots =>
      rw [hslots] at hlisted
      injection hlisted with hlisted
      obtain ⟨hone, hall⟩ := Prod.mk.inj hlisted
      have hlists := lists_slots_iff.mpr hslots
      obtain ⟨slots', hnarrow, -, hexact⟩ := listing_narrowed hwithin hlists
      rw [hexact whole, eq_of_beq hall] at hnarrow
      exact ⟨hwithin, whole, slots, hone, hlists, hnarrow⟩

/-- Slots of 120 minutes and 15/32 of a second from nine o'clock on. The second one of the day
starts 15/32 of a second after eleven. The window of the whole day does not show it, since it has
been booked in the second of its start; a window that begins after half past twelve does. -/
theorem narrower_window_misses_booking :
    let m : Machine := { records := {
      rules := [{
        user := "anna", dayOfWeek := .int 1, startTime := .text "09:00", endTime := .text "18:00",
        slotLength := .float (.ofDecimal false 1200078125 (-7)) }]
      bookings := [{
        user := "anna", email := some "", start := ⟨11 * hour, by decide⟩,
        stop := ⟨12 * hour, by decide⟩, id := "id", createdAt := ⟨0, by decide⟩ }] } }
    let day : Interval := ⟨⟨9 * hour, by decide⟩, ⟨18 * hour, by decide⟩, by decide⟩
    let noon : Interval :=
      ⟨⟨12 * hour + 30 * minute, by decide⟩, ⟨12 * hour + 45 * minute, by decide⟩, by decide⟩
    noon.Within day ∧ ∃ slots, m.Lists "anna" day.start day.stop (.ok (.slots slots)) ∧
      ¬ m.Lists "anna" noon.start noon.stop (.ok (.slots (slots.filter (·.overlaps noon)))) := by
  intro m day noon
  have hwide : (m.records.listed "anna" day.start day.stop).toOption.map
      (fun slots => (slots.filter (·.overlaps noon)).length) = some 0 := by
    decide +kernel
  have hnarrow : (m.records.listed "anna" noon.start noon.stop).toOption.map List.length =
      some 1 := by
    decide +kernel
  cases hslots : m.records.listed "anna" day.start day.stop with
  | error cause =>
      rw [hslots] at hwide
      cases hwide
  | ok slots =>
      rw [hslots] at hwide
      refine ⟨by decide, slots, lists_slots_iff.mpr hslots, fun hnoon => ?_⟩
      rw [lists_slots_iff.mp hnoon] at hnarrow
      have hnone : (slots.filter (·.overlaps noon)).length = 0 := Option.some.inj hwide
      have hone : (slots.filter (·.overlaps noon)).length = 1 := Option.some.inj hnarrow
      rw [hnone] at hone
      cases hone

end Bookable
