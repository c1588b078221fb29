import Bookable.Proofs.Slots.Offered
import Mathlib.Data.List.Pairwise

/-!
# Slots of rules with windows of their own

Two slots on offer either start together or do not overlap, if no two rules have windows
that overlap on a day that both are for. Slots of different days lie in different days.
On one day, slots of different rules lie in different windows, and slots of the same
rule are tiles of one length that begin at different multiples of it.
-/

namespace Bookable

open Time

/-- On no day that both rules are for do their windows overlap, if both are available. -/
def Rule.Apart (r r' : Rule) : Prop :=
  ∀ day, r.isAvailable = true → r'.isAvailable = true →
    r.isFor (weekday day) = true → r'.isFor (weekday day) = true →
    ∀ window window', r.windowOn day = .ok window → r'.windowOn day = .ok window' →
      window.overlaps window' = false

theorem Rule.Apart.symm {r r' : Rule} (h : r.Apart r') : r'.Apart r := by
  intro day havailable havailable' hfor hfor' window window' hwindow hwindow'
  have hoverlaps := h day havailable' havailable hfor' hfor window' window hwindow' hwindow
  rw [Interval.overlaps, Bool.and_comm] at hoverlaps
  exact hoverlaps

instance : Std.Symm Rule.Apart := ⟨fun _ _ h => h.symm⟩

/-- Of two stretches of time one is over when the other begins. -/
def Clear (slot slot' : Nat × Nat) : Prop := slot.2 ≤ slot'.1 ∨ slot'.2 ≤ slot.1

/-- Tiles that do not begin together do not overlap. -/
theorem tiles_clear {start length count : Nat} {slot slot' : Nat × Nat}
    (h : slot ∈ tiles start length count) (h' : slot' ∈ tiles start length count)
    (hne : slot.1 ≠ slot'.1) : Clear slot slot' := by
  obtain ⟨k, -, hfirst, hlast⟩ := mem_tiles h
  obtain ⟨k', -, hfirst', hlast'⟩ := mem_tiles h'
  unfold Clear
  rcases Nat.lt_trichotomy k k' with hlt | rfl | hlt
  · have hmul : (k + 1) * length ≤ k' * length := Nat.mul_le_mul_right length hlt
    rw [Nat.add_mul, Nat.one_mul] at hmul
    omega
  · exact absurd (hfirst.trans hfirst'.symm) hne
  · have hmul : (k' + 1) * length ≤ k * length := Nat.mul_le_mul_right length hlt
    rw [Nat.add_mul, Nat.one_mul] at hmul
    omega

namespace Rule

/-- The slots of a rule on a day are tiles of its window there. -/
theorem declaredOn_cases {r : Rule} {day : Nat} {slot : Nat × Nat}
    (h : slot ∈ r.declaredOn day) :
    r.isAvailable = true ∧ r.isFor (weekday day) = true ∧
      ∃ p, r.plan? = some p ∧ slot ∈ p.slotsOn day := by
  rw [declaredOn] at h
  split at h
  · next hon =>
      rw [Bool.and_eq_true] at hon
      split at h
      · next p hplan => exact ⟨hon.1, hon.2, p, hplan, h⟩
      · cases h
  · cases h

/-- The slots of a plan on a day lie in the window of the day. -/
theorem windowOn_covers {r : Rule} {p : Plan} (hplan : r.plan? = some p) {day : Nat}
    (hday : day < calendarDays) {slot : Nat × Nat} (hslot : slot ∈ p.slotsOn day) :
    ∃ window, r.windowOn day = .ok window ∧ window.start.micros ≤ slot.1 ∧
      slot.2 ≤ window.stop.micros := by
  obtain ⟨window, hwindow, -, hstart, hstop⟩ := windowOn_ok hplan hday
  obtain ⟨hfirst, hlast⟩ := tiles_le hslot
  have hroom := p.room
  exact ⟨window, hwindow, by omega, by omega⟩

/-- Rules are apart if the times of one of them end when those of the other begin. -/
theorem apart_of_plans {r r' : Rule} {p p' : Plan} (hplan : r.plan? = some p)
    (hplan' : r'.plan? = some p') (hle : p.stop.minutes ≤ p'.start.minutes) : r.Apart r' := by
  intro day _ _ _ _ window window' hwindow hwindow'
  have hday : day < calendarDays := by
    obtain ⟨first, -, -, -, -, -, hstart, -⟩ := windowOn_ok_inv hwindow
    have hin := window.start.lt_horizon
    rw [hstart] at hin
    exact Nat.lt_of_mul_lt_mul_right (Nat.lt_of_le_of_lt (Nat.le_add_right _ _) hin)
  obtain ⟨own, hown, -, -, hstop⟩ := windowOn_ok hplan hday
  obtain ⟨own', hown', -, hstart, -⟩ := windowOn_ok hplan' hday
  cases hown.symm.trans hwindow
  cases hown'.symm.trans hwindow'
  have hmicros : p.stop.micros ≤ p'.start.micros := Nat.mul_le_mul_right minute hle
  rw [Interval.overlaps, Bool.and_eq_false_iff, decide_eq_false_iff_not, decide_eq_false_iff_not]
  refine Or.inr (Nat.not_lt.mpr ?_)
  show window.stop.micros ≤ window'.start.micros
  omega

/-- On one day, slots of rules that are apart do not overlap. -/
theorem Apart.clear {r r' : Rule} (h : r.Apart r') {day : Nat} (hday : day < calendarDays)
    {slot slot' : Nat × Nat} (hslot : slot ∈ r.declaredOn day)
    (hslot' : slot' ∈ r'.declaredOn day) : Clear slot slot' := by
  obtain ⟨havailable, hfor, p, hplan, hslot⟩ := declaredOn_cases hslot
  obtain ⟨havailable', hfor', p', hplan', hslot'⟩ := declaredOn_cases hslot'
  obtain ⟨window, hwindow, hfirst, hlast⟩ := windowOn_covers hplan hday hslot
  obtain ⟨window', hwindow', hfirst', hlast'⟩ := windowOn_covers hplan' hday hslot'
  have happart := h day havailable havailable' hfor hfor' window window' hwindow hwindow'
  rw [Interval.overlaps, Bool.and_eq_false_iff, decide_eq_false_iff_not,
    decide_eq_false_iff_not] at happart
  unfold Clear
  rcases happart with hnot | hnot
  · have hle : window'.stop.micros ≤ window.start.micros := Nat.le_of_not_lt hnot
    omega
  · have hle : window.stop.micros ≤ window'.start.micros := Nat.le_of_not_lt hnot
    omega

/-- On one day, slots of one rule that do not begin together do not overlap. -/
theorem declaredOn_clear {r : Rule} {day : Nat} {slot slot' : Nat × Nat}
    (hslot : slot ∈ r.declaredOn day) (hslot' : slot' ∈ r.declaredOn day)
    (hne : slot.1 ≠ slot'.1) : Clear slot slot' := by
  obtain ⟨-, -, p, hplan, hslot⟩ := declaredOn_cases hslot
  obtain ⟨-, -, p', hplan', hslot'⟩ := declaredOn_cases hslot'
  rw [hplan] at hplan'
  cases hplan'
  exact tiles_clear hslot hslot' hne

end Rule

/-- Slots of different days do not overlap. -/
theorem clear_of_days {r r' : Rule} {day day' : Nat} (hlt : day < day') {slot slot' : Nat × Nat}
    (hslot : slot ∈ r.declaredOn day) (hslot' : slot' ∈ r'.declaredOn day') :
    slot.2 ≤ slot'.1 := by
  obtain ⟨-, hlast⟩ := Rule.mem_declaredOn hslot
  obtain ⟨hfirst, -⟩ := Rule.mem_declaredOn hslot'
  have hmul : (day + 1) * Time.day ≤ day' * Time.day := Nat.mul_le_mul_right _ hlt
  omega

/-- Two slots on offer start together or do not overlap. -/
theorem Offered.clear {rules : List Rule} (happart : rules.Pairwise Rule.Apart)
    {start stop start' stop' : Instant} (h : Offered rules start stop)
    (h' : Offered rules start' stop') (hne : start ≠ start') : stop ≤ start' ∨ stop' ≤ start := by
  obtain ⟨day, hday, r, hr, hslot⟩ := h
  obtain ⟨day', hday', r', hr', hslot'⟩ := h'
  show Clear (start.micros, stop.micros) (start'.micros, stop'.micros)
  rcases Nat.lt_trichotomy day day' with hlt | rfl | hlt
  · exact Or.inl (clear_of_days hlt hslot hslot')
  · by_cases hsame : r = r'
    · cases hsame
      exact Rule.declaredOn_clear hslot hslot' fun heq => hne (Instant.eq_of_micros heq)
    · exact (happart.forall hr hr' hsame).clear hday hslot hslot'
  · exact Or.inr (clear_of_days hlt hslot' hslot)

/-- What is accepted is a slot on offer. -/
theorem offered_of_accept {rules : List Rule} (usable : ∀ rule ∈ rules, rule.Usable)
    {load : Interval → List Booking} {request : BookingRequest}
    (h : accept rules load request = .ok ()) : Offered rules request.start request.stop := by
  obtain ⟨window, -, hfree⟩ := accept_eq_ok.mp h
  obtain ⟨candidates, -, -, hexpand, -, slot, hslot, hfrom, -⟩ := exists_free_iff.mp hfree
  obtain ⟨hstart, hstop⟩ := eq_of_isFrom hfrom
  rw [← hstart, ← hstop]
  exact ((mem_expand_iff usable hexpand).mp hslot).1

end Bookable
