import Bookable.Proofs.Results
import Bookable.Proofs.Slots.Tiling

/-!
# The walk over the days finds every slot

What a usable rule says about a day is a `Plan`: two times of day in order and a
length. The slots of a plan are written down for any day of the calendar, without
a request and without a walk; `declared` lists those of all days and rules that a
request overlaps. The main theorem is that `expand` finds exactly these, in this
order, unless a rule that the walk meets is unusable, which is an error whether or
not the rule is available.

That it is enough to walk from the day of the start to the day of the end is the
one step with an idea in it: a slot never leaves its day, so the slots of an earlier
day are over when the request starts, and those of a later day start after its end.
-/

namespace Bookable

open Time

/-! ## Rules with fields of the usual kinds -/

/-- The time of day with which a stored text begins. -/
def Time.OfDay.ofStored? (text : String) : Option OfDay :=
  if text.length < 5 then none else OfDay.read? (text.toList.take 5)

/-- What a usable rule says about every day that it is for. The length is in minutes. -/
structure Plan where
  start : OfDay
  stop : OfDay
  length : Nat
  ordered : start.minutes < stop.minutes
  positive : 0 < length

namespace Plan

/-- How many slots fit between the times of a plan. -/
def count (p : Plan) : Nat := (p.stop.minutes - p.start.minutes) / p.length

/-- The slots of a plan on a day. -/
def slotsOn (p : Plan) (day : Nat) : List (Nat × Nat) :=
  tiles (day * Time.day + p.start.micros) (p.length * minute) p.count

/-- Where the slot after the last one of a day would end. -/
def overrun (p : Plan) (day : Nat) : Nat :=
  day * Time.day + p.start.micros + (p.count + 1) * (p.length * minute)

end Plan

namespace Rule

/-- Times are texts, and day and length are whole numbers. -/
def Typed (r : Rule) : Prop :=
  ∃ (day length : Int) (start stop : String), r.dayOfWeek = .int day ∧
    r.startTime = .text start ∧ r.endTime = .text stop ∧ r.slotLength = .int length

/-- What a rule says, unless its times are malformed or not in order, or its length is not
positive. -/
def plan? (r : Rule) : Option Plan :=
  match r.startTime, r.endTime, r.slotLength with
  | .text start, .text stop, .int length =>
      match OfDay.ofStored? start, OfDay.ofStored? stop with
      | some start, some stop =>
          if h : start.minutes < stop.minutes ∧ 0 < length then
            some ⟨start, stop, length.toNat, h.1, by omega⟩
          else none
      | _, _ => none
  | _, _, _ => none

/-- The slots of a rule on a day, whatever the request. -/
def declaredOn (r : Rule) (day : Nat) : List (Nat × Nat) :=
  if r.isAvailable && r.isFor (weekday day) then
    match r.plan? with
    | some p => p.slotsOn day
    | none => []
  else []

end Rule

/-- The slots that a request overlaps, of all days of the calendar and of all rules. -/
def declared (rules : List Rule) (request : Interval) : List (Nat × Nat) :=
  (List.range calendarDays).flatMap fun day =>
    rules.flatMap fun r => (r.declaredOn day).filter request.meets

/-- Some rule is for a day that the request touches and says nothing usable about it. -/
def Unusable (rules : List Rule) (request : Interval) : Prop :=
  ∃ day, request.start.dayNumber ≤ day ∧ day ≤ request.stop.dayNumber ∧
    ∃ r ∈ rules, r.dayOfWeek = .int (weekday day) ∧ r.plan? = none

/-- The walk leaves the calendar: there is no day after the last one, or some slot after the last
one of an available rule ends too late. -/
def LeavesCalendar (rules : List Rule) (request : Interval) : Prop :=
  calendarDays ≤ request.stop.dayNumber + 1 ∨
    ∃ day, request.start.dayNumber ≤ day ∧ day ≤ request.stop.dayNumber ∧
      ∃ r ∈ rules, r.dayOfWeek = .int (weekday day) ∧ r.isAvailable ∧
        ∃ p, r.plan? = some p ∧ horizon ≤ p.overrun day

/-! ## One rule on one day -/

theorem storedTime_text (text : String) :
    storedTime (.text text) =
      match OfDay.ofStored? text with
      | some time => .ok time
      | none => .error (.storedTime (.text text)) := by
  unfold storedTime OfDay.ofStored?
  simp only []
  split
  · rfl
  · cases OfDay.read? (text.toList.take 5) <;> rfl

theorem Time.OfDay.minutes_lt (t : OfDay) : t.minutes < 1440 := by
  have h1 := t.hour_lt
  have h2 := t.minute_lt
  rw [minutes]
  omega

theorem Time.OfDay.micros_lt (t : OfDay) : t.micros < Time.day := by
  have hday : Time.day = 1440 * Time.minute := by decide
  rw [hday]
  exact Nat.mul_lt_mul_of_pos_right t.minutes_lt (by decide)

theorem Time.OfDay.ofMicros?_on {day : Nat} (hday : day < calendarDays) (t : OfDay) :
    ∃ h, Instant.ofMicros? (day * Time.day + t.micros : Nat) =
      some ⟨day * Time.day + t.micros, h⟩ := by
  have hlt : day * Time.day + t.micros < horizon := by
    have hdays : (day + 1) * Time.day ≤ horizon := Nat.mul_le_mul_right _ hday
    have ht := t.micros_lt
    rw [Nat.add_mul, Nat.one_mul] at hdays
    omega
  exact ⟨hlt, by rw [Instant.ofMicros?_natCast, dif_pos hlt]⟩

namespace Rule

theorem isFor_iff {r : Rule} (typed : r.Typed) (weekday : Nat) :
    r.isFor weekday = true ↔ r.dayOfWeek = .int weekday := by
  obtain ⟨day, _, _, _, hday, -⟩ := typed
  rw [isFor, hday]
  simp [Value.isNumber, Value.toInt?]

/-- The window of a rule on a day, if its times can be read and are in order and its length
counts. -/
theorem windowOn_eq {r : Rule} {start stop : OfDay} (hstart : storedTime r.startTime = .ok start)
    (hstop : storedTime r.endTime = .ok stop) (hord : start.minutes < stop.minutes)
    (hlength : lengthCounts r.slotLength = .ok true) (day : Nat) :
    r.windowOn day = (do
      let first ← inCalendar (Instant.ofMicros? (day * Time.day + start.micros : Nat))
      let last ← inCalendar (Instant.ofMicros? (day * Time.day + stop.micros : Nat))
      Interval.between first last) := by
  rw [windowOn, hstart, hstop, ok_bind, ok_bind, if_pos hord, hlength, ok_bind, if_pos rfl]

/-- An unusable rule is refused, as the fault of the data. -/
theorem windowOn_error {r : Rule} (typed : r.Typed) (hplan : r.plan? = none) (day : Nat) :
    ∃ cause, r.windowOn day = .error cause ∧ cause.kind = .validation := by
  obtain ⟨_, length, start, stop, -, hstart, hstop, hlength⟩ := typed
  rw [windowOn]
  rw [plan?] at hplan
  rw [hstart, hstop, hlength] at hplan ⊢
  rw [storedTime_text, storedTime_text]
  simp only [] at hplan
  cases hs : OfDay.ofStored? start with
  | none => exact ⟨_, rfl, rfl⟩
  | some start =>
      cases he : OfDay.ofStored? stop with
      | none => exact ⟨_, rfl, rfl⟩
      | some stop =>
          rw [hs, he] at hplan
          simp only [] at hplan
          by_cases hord : start.minutes < stop.minutes
          · by_cases hpos : 0 < length
            · rw [dif_pos ⟨hord, hpos⟩] at hplan
              cases hplan
            · refine ⟨.storedLengthNotPositive r.id, ?_, rfl⟩
              rw [ok_bind, ok_bind, if_pos hord, lengthCounts, decide_eq_false hpos]
              rfl
          · refine ⟨.storedTimesNotOrdered r.id, ?_, rfl⟩
            rw [ok_bind, ok_bind, if_neg hord]
            rfl

/-- The window of a usable rule on a day, and its length in microseconds. -/
theorem windowOn_ok {r : Rule} {p : Plan} (hplan : r.plan? = some p) {day : Nat}
    (hday : day < calendarDays) :
    ∃ window : Interval, r.windowOn day = .ok window ∧
      slotMicros r.slotLength = .ok ((p.length * minute : Nat) : Int) ∧
      window.start.micros = day * Time.day + p.start.micros ∧
      window.stop.micros = day * Time.day + p.stop.micros := by
  rw [plan?] at hplan
  split at hplan
  · next start stop length hstart hstop hlength =>
      split at hplan
      · next start' stop' hs he =>
          split at hplan
          · next hord =>
              cases hplan
              obtain ⟨hin, hfrom⟩ := start'.ofMicros?_on hday
              obtain ⟨hout, hto⟩ := stop'.ofMicros?_on hday
              have hlt : day * Time.day + start'.micros < day * Time.day + stop'.micros :=
                Nat.add_lt_add_left (Nat.mul_lt_mul_of_pos_right hord.1 (by decide)) _
              have hcast : ((length.toNat * minute : Nat) : Int) = length * (minute : Int) := by
                rw [Int.natCast_mul, Int.toNat_of_nonneg (by omega)]
              have hread : storedTime r.startTime = .ok start' := by
                rw [hstart, storedTime_text, hs]
              have hread' : storedTime r.endTime = .ok stop' := by
                rw [hstop, storedTime_text, he]
              have hcounts : lengthCounts r.slotLength = .ok true := by
                rw [hlength, lengthCounts, decide_eq_true hord.2]
              refine ⟨⟨⟨_, hin⟩, ⟨_, hout⟩, hlt⟩, ?_, ?_, rfl, rfl⟩
              · rw [windowOn_eq hread hread' hord.1 hcounts, hfrom, hto, inCalendar, inCalendar,
                  ok_bind, ok_bind]
                exact dif_pos hlt
              · rw [hlength, hcast, slotMicros]
          · cases hplan
      · cases hplan
  · cases hplan

/-- The slots of an available rule are those cut from its window. -/
theorem slotsOn_eq {r : Rule} {request window : Interval} {day : Nat} {length : Int}
    (hisFor : r.isFor (weekday day) = true) (havailable : r.isAvailable = true)
    (hwindow : r.windowOn day = .ok window) (hlength : slotMicros r.slotLength = .ok length) :
    r.slotsOn request day = tileFrom window length request window.start := by
  rw [slotsOn, if_pos hisFor, hwindow, ok_bind, if_pos havailable, hlength, ok_bind]

/-- How often the length of a plan goes into its window. -/
theorem room_div (p : Plan) (day : Nat) :
    (day * Time.day + p.stop.micros - (day * Time.day + p.start.micros)) /
      (p.length * minute) = p.count := by
  rw [Nat.add_sub_add_left]
  unfold OfDay.micros Plan.count
  rw [← Nat.sub_mul, Nat.mul_div_mul_right _ _ (by decide)]

/-- What a rule contributes on a day of the walk: it is unusable, or the slot after its last one
leaves the calendar, or it yields those of its slots that the request overlaps. -/
theorem slotsOn_cases {r : Rule} (typed : r.Typed) (request : Interval) {day : Nat}
    (hday : day < calendarDays) :
    (r.dayOfWeek = .int (weekday day) ∧ r.plan? = none ∧
        ∃ cause, r.slotsOn request day = .error cause ∧ cause.kind = .validation) ∨
      (r.slotsOn request day = .error .outsideCalendar ∧ r.dayOfWeek = .int (weekday day) ∧
        r.isAvailable ∧ ∃ p, r.plan? = some p ∧ horizon ≤ p.overrun day) ∨
      (¬ (r.dayOfWeek = .int (weekday day) ∧ r.plan? = none) ∧
        ∃ slots, r.slotsOn request day = .ok slots ∧
          slots.map Interval.bounds = (r.declaredOn day).filter request.meets) := by
  by_cases hfor : r.dayOfWeek = .int (weekday day)
  · have hisFor : r.isFor (weekday day) = true := (isFor_iff typed _).mpr hfor
    cases hplan : r.plan? with
    | none =>
        obtain ⟨cause, hcause, hkind⟩ := windowOn_error typed hplan day
        refine Or.inl ⟨hfor, rfl, cause, ?_, hkind⟩
        rw [slotsOn, if_pos hisFor, hcause]
        rfl
    | some p =>
        right
        obtain ⟨window, hwindow, hlength, hstart, hstop⟩ := windowOn_ok hplan hday
        have hlen : 0 < p.length * minute := Nat.mul_pos p.positive (by decide)
        have hcount : (window.stop.micros - window.start.micros) / (p.length * minute) =
            p.count := by
          rw [hstart, hstop]
          exact room_div p day
        have hnot : ¬ (r.dayOfWeek = .int (weekday day) ∧ some p = none) :=
          fun hand => nomatch hand.2
        cases havailable : r.isAvailable with
        | true =>
            rw [slotsOn_eq hisFor havailable hwindow hlength]
            rcases Nat.lt_or_ge (p.overrun day) horizon with hfits | hout
            · right
              obtain ⟨slots, htile, hslots⟩ := tileFrom_ok window request hlen p.count
                window.start hcount (by rw [hstart]; exact hfits)
              refine ⟨hnot, slots, htile, ?_⟩
              rw [hslots, declaredOn, havailable, hisFor, hplan, hstart]
              rfl
            · left
              refine ⟨?_, hfor, rfl, p, rfl, hout⟩
              exact tileFrom_error window request hlen p.count window.start hcount
                (by rw [hstart]; exact hout)
        | false =>
            refine Or.inr ⟨hnot, [], ?_, ?_⟩
            · rw [slotsOn, if_pos hisFor, hwindow, ok_bind, havailable]
              rfl
            · rw [declaredOn, havailable]
              rfl
  · have hisFor : r.isFor (weekday day) = false :=
      Bool.eq_false_iff.mpr fun hisFor => hfor ((isFor_iff typed _).mp hisFor)
    refine Or.inr (Or.inr ⟨fun hand => hfor hand.1, [], ?_, ?_⟩)
    · rw [slotsOn, hisFor]
      rfl
    · rw [declaredOn, hisFor, Bool.and_false]
      rfl

end Rule

/-! ## All rules on all days -/

theorem Time.Instant.dayNumber_lt (t : Instant) : t.dayNumber < calendarDays :=
  (Nat.div_lt_iff_lt_mul (by decide)).mpr t.lt_horizon

theorem mem_daysThrough {first last day : Nat} :
    day ∈ daysThrough first last ↔ first ≤ day ∧ day ≤ last := by
  rw [daysThrough, List.mem_map]
  constructor
  · rintro ⟨k, hk, rfl⟩
    have := List.mem_range.mp hk
    omega
  · intro h
    exact ⟨day - first, List.mem_range.mpr (by omega), by omega⟩

/-- The slots of a plan end by the end of its window. -/
theorem Plan.room (p : Plan) : p.start.micros + p.count * (p.length * minute) ≤ p.stop.micros := by
  have hcount : p.count * p.length ≤ p.stop.minutes - p.start.minutes := Nat.div_mul_le_self _ _
  have hord := p.ordered
  have hminutes : p.start.minutes + p.count * p.length ≤ p.stop.minutes := by omega
  have hmicros := Nat.mul_le_mul_right minute hminutes
  rw [Nat.add_mul, Nat.mul_assoc] at hmicros
  exact hmicros

theorem Plan.mem_slotsOn {p : Plan} {day : Nat} {slot : Nat × Nat} (h : slot ∈ p.slotsOn day) :
    day * Time.day ≤ slot.1 ∧ slot.2 < (day + 1) * Time.day := by
  obtain ⟨h1, h2⟩ := tiles_le h
  have hroom := p.room
  have hstop := p.stop.micros_lt
  rw [Nat.add_mul, Nat.one_mul]
  omega

theorem Rule.mem_declaredOn {r : Rule} {day : Nat} {slot : Nat × Nat}
    (h : slot ∈ r.declaredOn day) :
    day * Time.day ≤ slot.1 ∧ slot.2 < (day + 1) * Time.day := by
  rw [declaredOn] at h
  split at h
  · split at h
    · exact Plan.mem_slotsOn h
    · cases h
  · cases h

/-- What lies in a day before that of its start or after that of its end, a request does not meet. -/
theorem Interval.not_meets_of_day {request : Interval} {day : Nat} {slot : Nat × Nat}
    (hfirst : day * Time.day ≤ slot.1) (hlast : slot.2 < (day + 1) * Time.day)
    (hday : day < request.start.dayNumber ∨ request.stop.dayNumber < day) :
    ¬ request.meets slot = true := by
  intro hmeets
  simp only [Interval.meets, Bool.and_eq_true, decide_eq_true_eq] at hmeets
  rcases hday with hbefore | hafter
  · have hle : (day + 1) * Time.day ≤ request.start.dayNumber * Time.day :=
      Nat.mul_le_mul_right _ hbefore
    have hstart : request.start.dayNumber * Time.day ≤ request.start.micros :=
      Nat.div_mul_le_self _ _
    omega
  · have hle : (request.stop.dayNumber + 1) * Time.day ≤ day * Time.day :=
      Nat.mul_le_mul_right _ hafter
    have hstop : request.stop.micros < (request.stop.dayNumber + 1) * Time.day :=
      Nat.lt_mul_of_div_lt (Nat.lt_succ_self _) (by decide)
    omega

/-- Before the day of its start and after the day of its end, a request overlaps no slot. -/
theorem filter_declaredOn_eq_nil {r : Rule} {request : Interval} {day : Nat}
    (hday : day < request.start.dayNumber ∨ request.stop.dayNumber < day) :
    (r.declaredOn day).filter request.meets = [] := by
  rw [List.filter_eq_nil_iff]
  intro slot hslot
  obtain ⟨hfirst, hlast⟩ := Rule.mem_declaredOn hslot
  exact Interval.not_meets_of_day hfirst hlast hday

/-- The days of the calendar are those before the walk, those of the walk and those after. -/
theorem range_calendarDays {first last : Nat} (hle : first ≤ last) (hlast : last < calendarDays) :
    List.range calendarDays = List.range first ++ daysThrough first last ++
      (List.range (calendarDays - (last + 1))).map (last + 1 + ·) := by
  have hsplit : calendarDays = last + 1 + (calendarDays - (last + 1)) := by omega
  have hwalk : last + 1 = first + (last + 1 - first) := by omega
  rw [daysThrough, ← List.range_add, ← hwalk, ← List.range_add, ← hsplit]

theorem declared_eq_walk (rules : List Rule) (request : Interval) :
    declared rules request =
      (daysThrough request.start.dayNumber request.stop.dayNumber).flatMap fun day =>
        rules.flatMap fun r => (r.declaredOn day).filter request.meets := by
  have hle : request.start.dayNumber ≤ request.stop.dayNumber :=
    Nat.div_le_div_right (Nat.le_of_lt request.ordered)
  have hnil : ∀ days : List Nat,
      (∀ day ∈ days, day < request.start.dayNumber ∨ request.stop.dayNumber < day) →
      (days.flatMap fun day => rules.flatMap fun r =>
        (r.declaredOn day).filter request.meets) = [] := by
    intro days hdays
    rw [List.flatMap_eq_nil_iff]
    intro day hday
    rw [List.flatMap_eq_nil_iff]
    exact fun r _ => filter_declaredOn_eq_nil (hdays day hday)
  have hbefore : ∀ day ∈ List.range request.start.dayNumber,
      day < request.start.dayNumber ∨ request.stop.dayNumber < day :=
    fun day hday => Or.inl (List.mem_range.mp hday)
  have hafter : ∀ day ∈ (List.range (calendarDays - (request.stop.dayNumber + 1))).map
      (request.stop.dayNumber + 1 + ·),
      day < request.start.dayNumber ∨ request.stop.dayNumber < day := by
    intro day hday
    obtain ⟨k, -, rfl⟩ := List.mem_map.mp hday
    right
    omega
  rw [declared]
  rw [range_calendarDays hle request.stop.dayNumber_lt, List.flatMap_append,
    List.flatMap_append, hnil _ hbefore, hnil _ hafter, List.nil_append, List.append_nil]

/-- A walk with an error met a rule with that error. -/
theorem exists_of_walk_error {rules : List Rule} (typed : ∀ r ∈ rules, r.Typed)
    {request : Interval} {cause : Error}
    (h : (daysThrough request.start.dayNumber request.stop.dayNumber).mapM
      (fun day => rules.mapM fun r => r.slotsOn request day) = .error cause) :
    (Unusable rules request ∧ cause.kind = .validation) ∨
      (cause = .outsideCalendar ∧ LeavesCalendar rules request) := by
  obtain ⟨day, hday, h⟩ := exists_of_mapM_error h
  obtain ⟨r, hr, h⟩ := exists_of_mapM_error h
  obtain ⟨hfirst, hlast⟩ := mem_daysThrough.mp hday
  have hlt : day < calendarDays := Nat.lt_of_le_of_lt hlast request.stop.dayNumber_lt
  rcases Rule.slotsOn_cases (typed r hr) request hlt with
    ⟨hfor, hplan, cause', hcause, hkind⟩ | ⟨hcause, hfor, havailable, p, hplan, hout⟩ |
    ⟨-, slots, hslots, -⟩
  · rw [h] at hcause
    cases hcause
    exact Or.inl ⟨⟨day, hfirst, hlast, r, hr, hfor, hplan⟩, hkind⟩
  · rw [h] at hcause
    cases hcause
    exact Or.inr ⟨rfl, Or.inr ⟨day, hfirst, hlast, r, hr, hfor, havailable, p, hplan, hout⟩⟩
  · rw [h] at hslots
    cases hslots

/-- A walk without an error collects the slots of all the rules. -/
theorem bounds_of_walk {rules : List Rule} (typed : ∀ r ∈ rules, r.Typed)
    {request : Interval} {found : List (List (List Interval))}
    (h : (daysThrough request.start.dayNumber request.stop.dayNumber).mapM
      (fun day => rules.mapM fun r => r.slotsOn request day) = .ok found) :
    ¬ Unusable rules request ∧
      found.flatten.flatten.map Interval.bounds = declared rules request := by
  have hclean : ∀ day ∈ daysThrough request.start.dayNumber request.stop.dayNumber,
      ∀ r ∈ rules, ∀ cause, r.slotsOn request day ≠ .error cause := by
    intro day hday r hr cause hcause
    obtain ⟨cause, hcause⟩ :=
      exists_mapM_error (f := fun r : Rule => r.slotsOn request day) hr hcause
    obtain ⟨cause, hcause⟩ :=
      exists_mapM_error (f := fun day => rules.mapM fun r => r.slotsOn request day) hday hcause
    rw [h] at hcause
    cases hcause
  have hcases : ∀ day ∈ daysThrough request.start.dayNumber request.stop.dayNumber,
      ∀ r ∈ rules, ¬ (r.dayOfWeek = .int (weekday day) ∧ r.plan? = none) ∧
        ∃ slots, r.slotsOn request day = .ok slots ∧
          slots.map Interval.bounds = (r.declaredOn day).filter request.meets := by
    intro day hday r hr
    have hlt : day < calendarDays :=
      Nat.lt_of_le_of_lt (mem_daysThrough.mp hday).2 request.stop.dayNumber_lt
    rcases Rule.slotsOn_cases (typed r hr) request hlt with
      ⟨-, -, cause, hcause, -⟩ | ⟨hcause, -⟩ | hslots
    · exact absurd hcause (hclean day hday r hr cause)
    · exact absurd hcause (hclean day hday r hr _)
    · exact hslots
  constructor
  · rintro ⟨day, hfirst, hlast, r, hr, hunusable⟩
    exact (hcases day (mem_daysThrough.mpr ⟨hfirst, hlast⟩) r hr).1 hunusable
  · have hdays : ∀ day ∈ daysThrough request.start.dayNumber request.stop.dayNumber,
        ∃ slots, (rules.mapM fun r => r.slotsOn request day) = .ok slots ∧
          slots.flatten.map Interval.bounds =
            rules.flatMap fun r => (r.declaredOn day).filter request.meets := by
      intro day hday
      obtain ⟨slots, hslots, hmap⟩ := mapM_ok fun r hr => (hcases day hday r hr).2
      refine ⟨slots, hslots, ?_⟩
      rw [List.map_flatten, hmap, List.flatMap_def]
    obtain ⟨found', hfound', hbounds⟩ := mapM_ok hdays
    rw [h] at hfound'
    cases hfound'
    rw [declared_eq_walk, List.flatMap_def, ← hbounds, List.flatten_flatten, List.map_flatten,
      List.map_map]
    rfl

theorem declared_nil (request : Interval) : declared [] request = [] := by
  rw [declared, List.flatMap_eq_nil_iff]
  exact fun _ _ => rfl

/-- The slots that the walk collects, and the two ways for it to fail. -/
theorem expand_cases {rules : List Rule} (typed : ∀ r ∈ rules, r.Typed) (request : Interval) :
    (Unusable rules request ∧
        ∃ cause, expand rules request = .error cause ∧ cause.kind = .validation) ∨
      (expand rules request = .error .outsideCalendar ∧ LeavesCalendar rules request) ∨
      (¬ Unusable rules request ∧ ∃ slots, expand rules request = .ok slots ∧
        slots.map Interval.bounds = declared rules request) := by
  cases rules with
  | nil =>
      right; right
      refine ⟨?_, [], rfl, ?_⟩
      · rintro ⟨_, _, _, r, hr, _⟩
        cases hr
      · rw [declared_nil, List.map_nil]
  | cons rule rules =>
      have hexpand : expand (rule :: rules) request =
          (daysThrough request.start.dayNumber request.stop.dayNumber).mapM
            (fun day => (rule :: rules).mapM fun r => r.slotsOn request day) >>= fun found =>
          if calendarDays ≤ request.stop.dayNumber + 1 then .error .outsideCalendar
          else .ok found.flatten.flatten := by
        rw [expand, if_neg (by exact Bool.false_ne_true)]
        rfl
      rw [hexpand]
      cases hwalk : (daysThrough request.start.dayNumber request.stop.dayNumber).mapM
          fun day => (rule :: rules).mapM fun r => r.slotsOn request day with
      | error cause =>
          rw [error_bind]
          rcases exists_of_walk_error typed hwalk with ⟨hunusable, hkind⟩ | ⟨rfl, hleaves⟩
          · exact Or.inl ⟨hunusable, cause, rfl, hkind⟩
          · exact Or.inr (Or.inl ⟨rfl, hleaves⟩)
      | ok found =>
          obtain ⟨husable, hbounds⟩ := bounds_of_walk typed hwalk
          rw [ok_bind]
          split
          · next hlast => exact Or.inr (Or.inl ⟨rfl, Or.inl hlast⟩)
          · exact Or.inr (Or.inr ⟨husable, _, rfl, hbounds⟩)

/-- What the walk finds is what is declared. It leaves the calendar only where a slot or the day
after the last one does; otherwise it is refused exactly if a rule that it meets is unusable, and
finds the declared slots if not. -/
theorem expand_eq_declared {rules : List Rule} (typed : ∀ r ∈ rules, r.Typed)
    (request : Interval) :
    (expand rules request = .error .outsideCalendar → LeavesCalendar rules request) ∧
      (expand rules request ≠ .error .outsideCalendar →
        ((∃ cause, expand rules request = .error cause ∧ cause.kind = .validation) ↔
          Unusable rules request) ∧
        (¬ Unusable rules request → ∃ slots, expand rules request = .ok slots ∧
          slots.map Interval.bounds = declared rules request)) := by
  rcases expand_cases typed request with
    ⟨hunusable, cause, hcause, hkind⟩ | ⟨hout, hleaves⟩ | ⟨husable, slots, hslots, hbounds⟩
  · refine ⟨?_, fun _ => ⟨⟨fun _ => hunusable, fun _ => ⟨cause, hcause, hkind⟩⟩, ?_⟩⟩
    · intro hout
      rw [hcause] at hout
      cases hout
      cases hkind
    · exact fun husable => absurd hunusable husable
  · exact ⟨fun _ => hleaves, fun hin => absurd hout hin⟩
  · refine ⟨?_, fun _ => ⟨⟨?_, fun hunusable => absurd hunusable husable⟩, ?_⟩⟩
    · intro hout
      rw [hslots] at hout
      cases hout
    · rintro ⟨cause, hcause, -⟩
      rw [hslots] at hcause
      cases hcause
    · exact fun _ => ⟨slots, hslots, hbounds⟩

/-- A rule for Mondays, and a request for the first hour of the calendar, which begins on one. -/
theorem expand_first_monday :
    let rules : List Rule := [{
      user := "anna", dayOfWeek := .int 1, startTime := .text "00:10", endTime := .text "01:00",
      slotLength := .int 20 }]
    let request : Interval := ⟨⟨0, by decide⟩, ⟨3600000000, by decide⟩, by decide⟩
    (∀ r ∈ rules, r.Typed) ∧ ¬ Unusable rules request ∧
      ∃ slots, expand rules request = .ok slots ∧
        slots.map Interval.bounds = declared rules request := by
  intro rules request
  have typed : ∀ r ∈ rules, r.Typed := by
    intro r hr
    cases List.mem_singleton.mp hr
    exact ⟨1, 20, "00:10", "01:00", rfl, rfl, rfl, rfl⟩
  have husable : ¬ Unusable rules request := by
    rintro ⟨_, -, -, r, hr, -, hplan⟩
    cases List.mem_singleton.mp hr
    revert hplan
    decide +kernel
  have hin : expand rules request ≠ .error .outsideCalendar := by
    intro hout
    rcases (expand_eq_declared typed request).1 hout with
      hlast | ⟨day, -, hday, r, hr, -, -, p, hplan, hlate⟩
    · revert hlast
      decide
    · cases List.mem_singleton.mp hr
      have hlt : ∀ p' ∈ (rules.head (by decide)).plan?, p'.overrun 0 < horizon := by
        decide +kernel
      rw [show request.stop.dayNumber = 0 by decide] at hday
      cases Nat.le_zero.mp hday
      exact absurd hlate (Nat.not_le_of_lt (hlt p hplan))
  exact ⟨typed, husable, ((expand_eq_declared typed request).2 hin).2 husable⟩

/-! ## Where slots start -/

theorem Plan.start_on_minute {p : Plan} {day : Nat} {slot : Nat × Nat}
    (h : slot ∈ p.slotsOn day) : minute ∣ slot.1 := by
  obtain ⟨k, -, hstart, -⟩ := mem_tiles h
  rw [hstart]
  have hday : minute ∣ day * Time.day := Nat.dvd_mul_left_of_dvd (by decide) day
  have htime : minute ∣ p.start.micros := Nat.dvd_mul_left _ _
  have htile : minute ∣ k * (p.length * minute) :=
    Nat.dvd_mul_left_of_dvd (Nat.dvd_mul_left _ _) k
  exact Nat.dvd_add (Nat.dvd_add hday htime) htile

/-- Whatever the walk finds starts with a minute. -/
theorem expand_on_minute {rules : List Rule} (typed : ∀ r ∈ rules, r.Typed)
    {request slot : Interval} {slots : List Interval} (h : expand rules request = .ok slots)
    (hslot : slot ∈ slots) : minute ∣ slot.start.micros := by
  rcases expand_cases typed request with
    ⟨-, cause, hcause, -⟩ | ⟨hout, -⟩ | ⟨-, found, hfound, hbounds⟩
  · rw [h] at hcause
    cases hcause
  · rw [h] at hout
    cases hout
  · rw [h] at hfound
    cases hfound
    have hmem : slot.bounds ∈ declared rules request := by
      rw [← hbounds]
      exact List.mem_map_of_mem hslot
    obtain ⟨day, -, hmem⟩ := List.mem_flatMap.mp hmem
    obtain ⟨r, -, hmem⟩ := List.mem_flatMap.mp hmem
    have hon := (List.mem_filter.mp hmem).1
    rw [Rule.declaredOn] at hon
    split at hon
    · split at hon
      · exact Plan.start_on_minute hon
      · cases hon
    · cases hon

end Bookable
