import Bookable.Proofs.Slots.Offered

/-!
# Slots that are too long for the calendar

What is left of a window after its last slot is dropped, and so is a window that holds
no slot at all. But the walk finds out by adding the length of a slot to the end of the
last one and looking whether the sum is after the end of the window, and the sum has to
be an instant. A rule may have slots of any length, so the sum may lie after the end of
the calendar, however early the day is. Then there is nothing to compare, and the walk
fails.

For rules that can be used and a window that keeps clear of the ends of the calendar
this is the only way for a listing to fail, and where it happens it fails. As long as
no slot is longer than a day it does not happen.
-/

namespace Bookable

open Time

/-- On some day that a request touches, the slot after the last one of an available rule would end
after the calendar does. -/
def Overruns (rules : List Rule) (request : Interval) : Prop :=
  ∃ day, request.start.dayNumber ≤ day ∧ day ≤ request.stop.dayNumber ∧
    ∃ r ∈ rules, r.dayOfWeek = .int (weekday day) ∧ r.isAvailable ∧
      ∃ p, r.plan? = some p ∧ horizon ≤ p.overrun day

/-- A window keeps clear of the first and the last two days of the calendar. -/
def Interval.Inside (window : Interval) : Prop :=
  2 ≤ window.start.dayNumber ∧ window.stop.dayNumber + 3 ≤ calendarDays

instance (window : Interval) : Decidable window.Inside := by unfold Interval.Inside; infer_instance

namespace Rule

theorem slotsOn_overrun {r : Rule} (typed : r.Typed) (request : Interval) {day : Nat}
    (hday : day < calendarDays) (hfor : r.dayOfWeek = .int (weekday day))
    (havailable : r.isAvailable) {p : Plan} (hplan : r.plan? = some p)
    (hout : horizon ≤ p.overrun day) : r.slotsOn request day = .error .outsideCalendar := by
  have hisFor : r.isFor (weekday day) = true := (isFor_iff typed _).mpr hfor
  obtain ⟨window, hwindow, hlength, hstart, hstop⟩ := windowOn_ok hplan hday
  have hlen : 0 < p.length * minute := Nat.mul_pos p.positive (by decide)
  have hcount : (window.stop.micros - window.start.micros) / (p.length * minute) = p.count := by
    rw [hstart, hstop]
    exact room_div p day
  rw [slotsOn_eq hisFor havailable hwindow hlength]
  exact tileFrom_error window request hlen p.count window.start hcount (by rw [hstart]; exact hout)

end Rule

variable {rules : List Rule} {window : Interval}

/-- A walk leaves the calendar exactly if some slot does, unless it ends with the calendar. -/
theorem expand_eq_error_iff (usable : ∀ r ∈ rules, r.Usable)
    (hlast : window.stop.dayNumber + 1 < calendarDays) :
    expand rules window = .error .outsideCalendar ↔ Overruns rules window := by
  constructor
  · intro h
    rcases expand_cases (fun r hr => (usable r hr).1) window with
      ⟨⟨day, -, -, r, hr, -, hplan⟩, -⟩ | ⟨-, hleaves⟩ | ⟨-, slots, hslots, -⟩
    · exact absurd hplan (usable r hr).2
    · exact hleaves.resolve_left (Nat.not_le_of_lt hlast)
    · rw [h] at hslots
      cases hslots
  · rintro ⟨day, hfirst, hday, r, hr, hfor, havailable, p, hplan, hout⟩
    cases hexpand : expand rules window with
    | error cause => rw [expand_error usable hexpand]
    | ok slots =>
        have hslots : r.slotsOn window day = .error .outsideCalendar :=
          Rule.slotsOn_overrun (usable r hr).1 window
            (Nat.lt_of_le_of_lt hday window.stop.dayNumber_lt) hfor havailable hplan hout
        obtain ⟨cause, hcause⟩ :=
          exists_mapM_error (f := fun r : Rule => r.slotsOn window day) hr hslots
        obtain ⟨cause', hwalk⟩ := exists_mapM_error
          (f := fun day => rules.mapM fun r => r.slotsOn window day)
          (mem_daysThrough.mpr ⟨hfirst, hday⟩) hcause
        have hne : rules.isEmpty = false := List.isEmpty_eq_false_iff_exists_mem.mpr ⟨r, hr⟩
        rw [expand, hne] at hexpand
        obtain ⟨found, hfound, -⟩ := bind_eq_ok.mp hexpand
        rw [hwalk] at hfound
        cases hfound

/-! ## The range of the lookup -/

theorem Time.Instant.shift?_neg {t : Instant} {n : Nat} (h : n ≤ t.micros) :
    t.shift? (-(n : Int)) =
      some ⟨t.micros - n, Nat.lt_of_le_of_lt (Nat.sub_le _ _) t.lt_horizon⟩ := by
  have hdiff : (t.micros : Int) + -(n : Int) = (t.micros - n : Nat) := by omega
  rw [Instant.shift?, hdiff, Instant.ofMicros?_natCast,
    dif_pos (Nat.lt_of_le_of_lt (Nat.sub_le _ _) t.lt_horizon)]

theorem Interval.padded_of_room {margin : Nat} (hfirst : margin ≤ window.start.micros)
    (hlast : window.stop.micros + margin < horizon) :
    ∃ range, window.padded margin = .ok range := by
  have hord : window.start.micros < window.stop.micros := window.ordered
  have hlt : window.start.micros - margin < window.stop.micros + margin := by omega
  have hin : window.start.micros - margin < horizon :=
    Nat.lt_of_le_of_lt (Nat.sub_le _ _) window.start.lt_horizon
  refine ⟨⟨⟨_, hin⟩, ⟨_, hlast⟩, hlt⟩, ?_⟩
  rw [padded, Instant.shift?_neg hfirst, Instant.shift?_natCast, dif_pos hlast]
  exact dif_pos hlt

/-- A window inside of the calendar can be widened by a day. -/
theorem Interval.Inside.room (h : window.Inside) :
    Time.day ≤ window.start.micros ∧ window.stop.micros + Time.day < horizon := by
  have hfirst : 2 * Time.day ≤ window.start.micros := (Nat.le_div_iff_mul_le (by decide)).mp h.1
  have hstop : window.stop.micros < (window.stop.dayNumber + 1) * Time.day :=
    Nat.lt_mul_of_div_lt (Nat.lt_succ_self _) (by decide)
  have hlast : (window.stop.dayNumber + 3) * Time.day ≤ horizon := Nat.mul_le_mul_right _ h.2
  rw [Nat.add_mul] at hstop hlast
  omega

theorem lookupRange_ok {padded : Interval} (h : window.padded lookupMargin = .ok padded)
    (candidates : List Interval) : ∃ range, lookupRange window candidates = .ok range := by
  rw [lookupRange, h, ok_bind]
  simp only []
  have hord : padded.start.micros < padded.stop.micros := padded.ordered
  have hle := foldl_earlier_le candidates padded.start
  have hlt : candidates.foldl (fun t slot => if slot.start < t then slot.start else t)
      padded.start < padded.stop := Nat.lt_of_le_of_lt hle hord
  rw [Interval.between, dif_pos hlt]
  exact ⟨_, rfl⟩

/-- A listing in a window inside of the calendar fails if a slot overruns the calendar, and has a
result otherwise. -/
theorem freeWithin_cases (usable : ∀ r ∈ rules, r.Usable) (load : Interval → List Booking)
    (hinside : window.Inside) :
    (Overruns rules window ∧ freeWithin rules load window = .error .outsideCalendar) ∨
      (¬ Overruns rules window ∧ ∃ slots, freeWithin rules load window = .ok slots) := by
  have hlast : window.stop.dayNumber + 1 < calendarDays := by
    have := hinside.2
    omega
  have hiff := expand_eq_error_iff usable hlast
  cases hempty : rules.isEmpty with
  | true =>
      right
      constructor
      · rintro ⟨-, -, -, r, hr, -⟩
        rw [List.isEmpty_iff.mp hempty] at hr
        cases hr
      · exact ⟨[], by rw [freeWithin, hempty]; rfl⟩
  | false =>
      rw [freeWithin_eq _ _ hempty]
      cases hexpand : expand rules window with
      | error cause =>
          cases expand_error usable hexpand
          exact Or.inl ⟨hiff.mp hexpand, rfl⟩
      | ok candidates =>
          right
          constructor
          · intro hoverruns
            rw [hiff.mpr hoverruns] at hexpand
            cases hexpand
          · rw [ok_bind]
            split
            · exact ⟨[], rfl⟩
            · have hmargin : lookupMargin ≤ Time.day := by decide
              have hroom := hinside.room
              obtain ⟨padded, hpadded⟩ : ∃ range, window.padded lookupMargin = .ok range :=
                Interval.padded_of_room (Nat.le_trans hmargin hroom.1)
                  (Nat.lt_of_le_of_lt (Nat.add_le_add_left hmargin _) hroom.2)
              obtain ⟨range, hrange⟩ := lookupRange_ok hpadded candidates
              rw [hrange]
              exact ⟨_, rfl⟩

/-! ## Slots that are not too long -/

/-- The length of a plan is that of its rule. -/
theorem Rule.slotLength_of_plan? {r : Rule} {p : Plan} (h : r.plan? = some p) :
    r.slotLength = .int p.length := by
  rw [plan?] at h
  split at h
  · next length _ _ hlength =>
      split at h
      · split at h
        · next hord =>
            cases h
            rw [hlength]
            exact congrArg Value.int (Int.toNat_of_nonneg (Int.le_of_lt hord.2)).symm
        · cases h
      · cases h
  · cases h

/-- Slots of a day at most do not overrun the calendar. -/
theorem not_overruns_of_length_le (hinside : window.Inside)
    (hlength : ∀ r ∈ rules, ∀ n, r.slotLength = .int n → n * minute ≤ Time.day) :
    ¬ Overruns rules window := by
  rintro ⟨day, -, hday, r, hr, -, -, p, hplan, hout⟩
  have hlen := hlength r hr p.length (Rule.slotLength_of_plan? hplan)
  have hslot : p.length * minute ≤ Time.day := by exact_mod_cast hlen
  have hroom := p.room
  have hstop := p.stop.micros_lt
  have hdays : (day + 3) * Time.day ≤ horizon :=
    Nat.mul_le_mul_right _ (Nat.le_trans (Nat.add_le_add_right hday 3) hinside.2)
  rw [Plan.overrun, Nat.add_mul p.count, Nat.one_mul] at hout
  rw [Nat.add_mul] at hdays
  omega

end Bookable
