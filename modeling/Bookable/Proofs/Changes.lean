import Bookable.Proofs.Results
import Bookable.Proofs.Time.Spelling

/-!
# Changing a rule twice

An update stores `Rule.changed`: new values where there are some, the old ones
otherwise, and both times written as times are. Since a time that is written so is
neither cut nor read differently, a second update finds what the first one would have
handed on to it. Two updates of which the second sees the first therefore come to one
update with the changes of both, where the later ones count.
-/

namespace Bookable

open Time

/-- A rule with changes, as an update stores it. -/
def Rule.changed (r : Rule) (changes : RuleChanges) : Except Error Rule :=
  r.merged changes >>= Rule.normalized

/-- A rule that was updated at an instant. -/
def Rule.stamped (r : Rule) (now : Instant) : Rule := { r with updatedAt := some now }

/-- Changes and later ones, which count where both give a field a value. -/
def RuleChanges.and (changes later : RuleChanges) : RuleChanges where
  dayOfWeek := later.dayOfWeek <|> changes.dayOfWeek
  startTime := later.startTime <|> changes.startTime
  endTime := later.endTime <|> changes.endTime
  slotLength := later.slotLength <|> changes.slotLength
  available := later.available <|> changes.available
  title := later.title <|> changes.title

theorem getD_orElse {α : Type} (a b : Option α) (d : α) :
    (a <|> b).getD d = a.getD (b.getD d) := by
  cases a <;> rfl

namespace Rule

/-! ## Fields that pass the check -/

theorem checked_ok {dayOfWeek startTime endTime slotLength : Value} {start stop : OfDay}
    (h : checked dayOfWeek startTime endTime slotLength = .ok (start, stop)) :
    (∃ day length : Int, dayOfWeek = .int day ∧ 0 ≤ day ∧ day ≤ 6 ∧
      slotLength = .int length ∧ 0 < length ∧ start.minutes < stop.minutes) ∧
    givenTime startTime = .ok start ∧ givenTime endTime = .ok stop := by
  unfold checked at h
  cases dayOfWeek with
  | int day =>
      by_cases hday : 0 ≤ day ∧ day ≤ 6
      · simp only [if_pos hday] at h
        cases slotLength with
        | int length =>
            by_cases hlength : 0 < length
            · simp only [if_pos hlength] at h
              obtain ⟨first, hstart, h⟩ := bind_eq_ok.mp h
              obtain ⟨last, hstop, h⟩ := bind_eq_ok.mp h
              by_cases hord : first.writtenBefore last = true
              · simp only [if_pos hord] at h
                cases h
                exact ⟨⟨day, length, rfl, hday.1, hday.2, rfl, hlength,
                  OfDay.writtenBefore_iff.mp hord⟩, hstart, hstop⟩
              · simp only [if_neg hord] at h
                cases h
            · simp only [if_neg hlength] at h
              cases h
        | _ => cases h
      · simp only [if_neg hday] at h
        cases h
  | _ => cases h

/-- The check looks at times only by reading them. -/
theorem checked_congr {dayOfWeek slotLength start start' stop stop' : Value}
    (hstart : givenTime start = givenTime start') (hstop : givenTime stop = givenTime stop') :
    checked dayOfWeek start stop slotLength = checked dayOfWeek start' stop' slotLength := by
  unfold checked
  rw [hstart, hstop]

/-- With a day and a length, the check asks for nothing but the order of the times. -/
theorem checked_of_given {startTime endTime : Value} {day length : Int} {start stop : OfDay}
    (hday : 0 ≤ day ∧ day ≤ 6) (hlength : 0 < length) (hstart : givenTime startTime = .ok start)
    (hstop : givenTime endTime = .ok stop) :
    checked (.int day) startTime endTime (.int length) =
      if start.minutes < stop.minutes then .ok (start, stop) else .error .timesNotOrdered := by
  simp only [checked, if_pos hday, if_pos hlength, hstart, hstop, ok_bind,
    OfDay.writtenBefore_iff]
  split <;> rfl

/-! ## One change and the next one -/

/-- What a change comes to, field by field. -/
theorem changed_eq_ok {r r' : Rule} {changes : RuleChanges} :
    r.changed changes = .ok r' ↔ ∃ from? to? start stop,
      cutTime r.startTime = .ok from? ∧ cutTime r.endTime = .ok to? ∧
      checked (changes.dayOfWeek.getD r.dayOfWeek) (changes.startTime.getD from?)
        (changes.endTime.getD to?) (changes.slotLength.getD r.slotLength) =
          .ok (start, stop) ∧
      r' = { r with
        dayOfWeek := changes.dayOfWeek.getD r.dayOfWeek
        startTime := .ofTime start
        endTime := .ofTime stop
        slotLength := changes.slotLength.getD r.slotLength
        available := changes.available.getD r.available
        title := changes.title.getD r.title } := by
  rw [changed, merged]
  constructor
  · intro h
    obtain ⟨merged, hmerged, h⟩ := bind_eq_ok.mp h
    obtain ⟨from?, hfrom, hmerged⟩ := bind_eq_ok.mp hmerged
    obtain ⟨to?, hto, hmerged⟩ := bind_eq_ok.mp hmerged
    cases hmerged
    rw [normalized] at h
    obtain ⟨⟨start, stop⟩, hchecked, h⟩ := bind_eq_ok.mp h
    cases h
    exact ⟨from?, to?, start, stop, hfrom, hto, hchecked, rfl⟩
  · rintro ⟨from?, to?, start, stop, hfrom, hto, hchecked, rfl⟩
    rw [hfrom, ok_bind, hto, ok_bind]
    show normalized _ = _
    rw [normalized]
    simp only []
    rw [hchecked]
    rfl

theorem id_changed {r r' : Rule} {changes : RuleChanges} (h : r.changed changes = .ok r') :
    r'.id = r.id ∧ r'.user = r.user := by
  obtain ⟨-, -, -, -, -, -, -, rfl⟩ := changed_eq_ok.mp h
  exact ⟨rfl, rfl⟩

/-- A second change of what a first one has stored stores what both at once would have. -/
theorem changed_changed {r first last : Rule} {changes later : RuleChanges} {now : Instant}
    (hfirst : r.changed changes = .ok first)
    (hlast : (first.stamped now).changed later = .ok last) :
    ∃ both, r.changed (changes.and later) = .ok both ∧ last = both.stamped now := by
  obtain ⟨from?, to?, start, stop, hfrom, hto, hchecked, rfl⟩ := changed_eq_ok.mp hfirst
  obtain ⟨from', to', start', stop', hfrom', hto', hchecked', rfl⟩ := changed_eq_ok.mp hlast
  obtain ⟨-, hstart, hstop⟩ := checked_ok hchecked
  have hcut : from' = .ofTime start := by
    have hwritten := hfrom'.symm.trans (cutTime_ofTime start)
    cases hwritten
    rfl
  have hcut' : to' = .ofTime stop := by
    have hwritten := hto'.symm.trans (cutTime_ofTime stop)
    cases hwritten
    rfl
  refine ⟨_, changed_eq_ok.mpr ⟨from?, to?, start', stop', hfrom, hto, ?_, rfl⟩, ?_⟩
  · rw [← hchecked']
    simp only [RuleChanges.and, getD_orElse, stamped]
    -- Where the later changes give no time, the earlier one is read again as it was written.
    refine checked_congr ?_ ?_
    · cases later.startTime with
      | some time => rfl
      | none => rw [Option.getD_none, Option.getD_none, hstart, hcut, givenTime_ofTime]
    · cases later.endTime with
      | some time => rfl
      | none => rw [Option.getD_none, Option.getD_none, hstop, hcut', givenTime_ofTime]
  · simp only [RuleChanges.and, getD_orElse, stamped]

end Rule

end Bookable
