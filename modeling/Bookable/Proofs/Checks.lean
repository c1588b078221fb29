import Bookable.Proofs.Changes

/-!
# What the check of a rule says

A new or changed rule is checked field by field: the day, the length, the start, the end,
and at last the order of the times. The first of the four fields that is wrong is blamed,
and the check goes no further. This is a breach of a rule of the domain, and the message
about it quotes the value of the field. That is the one thing that can go wrong with it:
an integer of too many digits cannot be written out, neither by itself nor inside a list
or a map. Then there is an error of another kind, although the rule is refused all the
same.
-/

namespace Bookable

open Time

/-- The integers that cannot be written out are those of more digits than the limit allows. -/
theorem Value.isWritable_int {n : Int} :
    (int n).isWritable = false ↔ Number.tenTo Number.digitLimit ≤ n.natAbs := by
  rw [isWritable, Number.isWritable, decide_eq_false_iff_not, Nat.not_lt]

def Value.IsWeekday (v : Value) : Prop := ∃ n : Int, v = .int n ∧ 0 ≤ n ∧ n ≤ 6

def Value.IsLength (v : Value) : Prop := ∃ n : Int, v = .int n ∧ 0 < n

/-- A value is a time of day as it is given for a rule. -/
def Value.IsTime (v : Value) : Prop := ∃ t, givenTime v = .ok t

/-- A cause blames a value: for a breach of a rule of the domain if the value can be written out. -/
inductive Error.Blaming (v : Value) : Error → Prop where
  | named {cause : Error} (writable : v.isWritable = true) (kind : cause.kind = .validation) :
      Blaming v cause
  | unnamed (long : v.isWritable = false) : Blaming v .numberTooLong

theorem Error.blaming_blaming {v : Value} {cause : Value → Error}
    (h : (cause v).kind = .validation) : Blaming v (blaming v cause) := by
  rw [blaming]
  split
  · next hwritable => exact .named hwritable h
  · next hlong => exact .unnamed (eq_false_of_ne_true hlong)

namespace Error.Blaming

variable {v : Value} {cause : Error}

theorem kind_cases (h : Blaming v cause) : cause.kind = .validation ∨ cause.kind = .number := by
  cases h with
  | named _ kind => exact Or.inl kind
  | unnamed => exact Or.inr rfl

theorem validation_iff (h : Blaming v cause) :
    cause.kind = .validation ↔ v.isWritable = true := by
  cases h with
  | named writable kind => exact iff_of_true kind writable
  | unnamed long =>
      rw [long]
      exact iff_of_false (by rintro ⟨⟩) Bool.false_ne_true

end Error.Blaming

theorem blaming_of_givenTime {v : Value} {cause : Error} (h : givenTime v = .error cause) :
    cause.Blaming v := by
  unfold givenTime at h
  split at h
  · split at h
    · cases h
    · cases h
      exact .named rfl rfl
  · cases h
    exact Error.blaming_blaming rfl

namespace Rule

/-- A rule passes the check for new and changed rules. -/
structure Passes (r : Rule) : Prop where
  day : r.dayOfWeek.IsWeekday
  length : r.slotLength.IsLength
  times : ∃ start stop, givenTime r.startTime = .ok start ∧ givenTime r.endTime = .ok stop ∧
    start.minutes < stop.minutes

/-- The check of a rule ends at a field with a value. -/
inductive Blames (r : Rule) : Value → Prop where
  | day (day : ¬ r.dayOfWeek.IsWeekday) : Blames r r.dayOfWeek
  | length (day : r.dayOfWeek.IsWeekday) (length : ¬ r.slotLength.IsLength) :
      Blames r r.slotLength
  | start (day : r.dayOfWeek.IsWeekday) (length : r.slotLength.IsLength)
      (start : ¬ r.startTime.IsTime) : Blames r r.startTime
  | stop (day : r.dayOfWeek.IsWeekday) (length : r.slotLength.IsLength)
      (start : r.startTime.IsTime) (stop : ¬ r.endTime.IsTime) : Blames r r.endTime

/-- The value of every field that can be blamed can be written out. -/
def Nameable (r : Rule) : Prop := ∀ v, r.Blames v → v.isWritable = true

/-- Only one field is blamed. -/
theorem Blames.eq {r : Rule} {v w : Value} (h : r.Blames v) (h' : r.Blames w) : v = w := by
  -- Of two fields the later one is blamed only where the earlier one is right.
  cases h <;> cases h' <;> first | rfl | contradiction

/-! ## The fields one after the other -/

theorem checked_day {day : Value} (hday : ¬ day.IsWeekday) (start stop length : Value) :
    checked day start stop length = .error (.blaming day .dayOfWeek) := by
  unfold checked
  cases day with
  | int n =>
      have hrange : ¬ (0 ≤ n ∧ n ≤ 6) := fun h => hday ⟨n, rfl, h⟩
      simp only [if_neg hrange]
      rfl
  | _ => rfl

theorem checked_length {day length : Value} (hday : day.IsWeekday) (hlength : ¬ length.IsLength)
    (start stop : Value) :
    checked day start stop length = .error (.blaming length .slotLength) := by
  obtain ⟨n, rfl, hrange⟩ := hday
  unfold checked
  simp only [if_pos hrange]
  cases length with
  | int m =>
      have hpos : ¬ 0 < m := fun h => hlength ⟨m, rfl, h⟩
      simp only [if_neg hpos]
      rfl
  | _ => rfl

/-- With a day and a length, the check reads the times. -/
theorem checked_times {day length : Value} (hday : day.IsWeekday) (hlength : length.IsLength)
    (start stop : Value) :
    checked day start stop length = (do
      let first ← givenTime start
      let last ← givenTime stop
      if first.minutes < last.minutes then .ok (first, last) else .error .timesNotOrdered) := by
  obtain ⟨n, rfl, hrange⟩ := hday
  obtain ⟨m, rfl, hpos⟩ := hlength
  cases hstart : givenTime start with
  | error cause =>
      simp only [checked, if_pos hrange, if_pos hpos, hstart]
      rfl
  | ok first =>
      cases hstop : givenTime stop with
      | error cause =>
          simp only [checked, if_pos hrange, if_pos hpos, hstart, hstop]
          rfl
      | ok last => exact checked_of_given hrange hpos hstart hstop

/-! ## Passing and being refused -/

theorem checked_eq_ok {startTime endTime : Value} {day length : Int} {start stop : OfDay}
    (hday : 0 ≤ day ∧ day ≤ 6) (hlength : 0 < length) (hstart : givenTime startTime = .ok start)
    (hstop : givenTime endTime = .ok stop) (hord : start.minutes < stop.minutes) :
    checked (.int day) startTime endTime (.int length) = .ok (start, stop) := by
  rw [checked_of_given hday hlength hstart hstop, if_pos hord]

/-- A rule that passes the check is stored with its times as times are written. -/
theorem Passes.normalized {r : Rule} (h : r.Passes) :
    ∃ start stop, givenTime r.startTime = .ok start ∧ givenTime r.endTime = .ok stop ∧
      r.normalized = .ok { r with startTime := .ofTime start, endTime := .ofTime stop } := by
  obtain ⟨⟨day, hday, hrange⟩, ⟨length, hlength, hpos⟩, start, stop, hstart, hstop, hord⟩ := h
  refine ⟨start, stop, hstart, hstop, ?_⟩
  rw [Rule.normalized, hday, hlength, checked_eq_ok hrange hpos hstart hstop hord]
  rfl

/-- A rule that is not stored has not passed the check. -/
theorem checked_of_normalized {r : Rule} {cause : Error} (h : r.normalized = .error cause) :
    checked r.dayOfWeek r.startTime r.endTime r.slotLength = .error cause := by
  rcases bind_eq_error.mp h with hchecked | ⟨times, -, hlast⟩
  · exact hchecked
  · cases hlast

/-- A rule is refused for a field that is blamed, or for the order of its times. -/
inductive RefusedFor (r : Rule) : Error → Prop where
  | field {v : Value} {cause : Error} (blamed : r.Blames v) (blaming : cause.Blaming v) :
      RefusedFor r cause
  | order (none : ∀ v, ¬ r.Blames v) : RefusedFor r .timesNotOrdered

/-- A rule that does not pass is refused. -/
theorem exists_refusal {r : Rule} (h : ¬ r.Passes) :
    ∃ cause, r.normalized = .error cause ∧ r.RefusedFor cause := by
  have hrefused : ∀ cause, checked r.dayOfWeek r.startTime r.endTime r.slotLength = .error cause →
      r.normalized = .error cause := by
    intro cause hcause
    rw [normalized, hcause, error_bind]
  by_cases hday : r.dayOfWeek.IsWeekday
  · by_cases hlength : r.slotLength.IsLength
    · have hcheck := checked_times hday hlength r.startTime r.endTime
      cases hstart : givenTime r.startTime with
      | error cause =>
          have hblamed : ¬ r.startTime.IsTime := by
            rintro ⟨t, ht⟩
            cases hstart.symm.trans ht
          rw [hstart] at hcheck
          exact ⟨cause, hrefused cause hcheck,
            .field (.start hday hlength hblamed) (blaming_of_givenTime hstart)⟩
      | ok first =>
          cases hstop : givenTime r.endTime with
          | error cause =>
              have hblamed : ¬ r.endTime.IsTime := by
                rintro ⟨t, ht⟩
                cases hstop.symm.trans ht
              rw [hstart, hstop] at hcheck
              exact ⟨cause, hrefused cause hcheck,
                .field (.stop hday hlength ⟨first, hstart⟩ hblamed) (blaming_of_givenTime hstop)⟩
          | ok last =>
              have hord : ¬ first.minutes < last.minutes := fun hord =>
                h ⟨hday, hlength, first, last, hstart, hstop, hord⟩
              rw [hstart, hstop, ok_bind, ok_bind, if_neg hord] at hcheck
              refine ⟨_, hrefused _ hcheck, .order fun v hv => ?_⟩
              cases hv with
              | day day => exact day hday
              | length _ length => exact length hlength
              | start _ _ start => exact start ⟨first, hstart⟩
              | stop _ _ _ stop => exact stop ⟨last, hstop⟩
    · exact ⟨_, hrefused _ (checked_length hday hlength _ _),
        .field (.length hday hlength) (Error.blaming_blaming rfl)⟩
  · exact ⟨_, hrefused _ (checked_day hday _ _ _), .field (.day hday) (Error.blaming_blaming rfl)⟩

namespace RefusedFor

variable {r : Rule} {cause : Error}

theorem kind_cases (h : r.RefusedFor cause) :
    cause.kind = .validation ∨ cause.kind = .number := by
  cases h with
  | field _ blaming => exact blaming.kind_cases
  | order => exact Or.inl rfl

/-- A rule is refused for a breach of a rule of the domain exactly if this can be said. -/
theorem validation_iff (h : r.RefusedFor cause) : cause.kind = .validation ↔ r.Nameable := by
  cases h with
  | field blamed blaming =>
      rw [blaming.validation_iff]
      exact ⟨fun hwritable w hw => hw.eq blamed ▸ hwritable, fun hall => hall _ blamed⟩
  | order none => exact iff_of_true rfl fun v hv => absurd hv (none v)

end RefusedFor

/-- If a rule is refused, it does not pass, and there is a reason. -/
theorem refusedFor_of_normalized {r : Rule} {cause : Error} (h : r.normalized = .error cause) :
    ¬ r.Passes ∧ r.RefusedFor cause := by
  have hfails : ¬ r.Passes := by
    intro hpasses
    obtain ⟨start, stop, -, -, hnormal⟩ := hpasses.normalized
    cases hnormal.symm.trans h
  obtain ⟨cause', hcause, hrefused⟩ := exists_refusal hfails
  cases hcause.symm.trans h
  exact ⟨hfails, hrefused⟩

end Rule

end Bookable
