import Mathlib.Data.List.Forall2
import Bookable.Proofs.Slots.Causes

/-!
# Week after week

Rules know weekdays and times of day, and nothing else of a date. So when a window is
moved by whole weeks, its slots move with it. The walk goes through as many days as
before, each of them the same weekday as before; a rule opens the same window on it,
moved; and the slots of that window are cut at the moved places and compared with the
moved request. Dates do not come into it, so leap days and the ends of months and years
make no difference, and neither does the direction.

Two such walks run in step until one of them leaves the calendar, which does not move.
Until then they also fail together, for the same cause: what is wrong with a rule is
said without the day on which it was found. The one error that names instants is a range
without duration. The times of a rule that has been checked are in order, so it takes a
length so short that it comes to no time at all, and then the instants are moved too.
-/

namespace Bookable

open Time

/-- Microseconds in a week. -/
def Time.week : Nat := 7 * day

/-- An instant lies a number of microseconds after another one, or before it if the number is
negative. -/
def Time.Instant.MovedBy (amount : Int) (s t : Instant) : Prop :=
  (t.micros : Int) = s.micros + amount

/-- An interval lies a number of microseconds after another one, and is as long. -/
def Interval.MovedBy (amount : Int) (a b : Interval) : Prop :=
  a.start.MovedBy amount b.start ∧ a.stop.MovedBy amount b.stop

instance (amount : Int) (a b : Interval) : Decidable (a.MovedBy amount b) := by
  unfold Interval.MovedBy Instant.MovedBy; infer_instance

namespace Time.Instant.MovedBy

variable {amount length : Int} {s t s' t' : Instant}

theorem lt_iff (hs : s.MovedBy amount s') (ht : t.MovedBy amount t') : s' < t' ↔ s < t := by
  unfold MovedBy at hs ht
  show s'.micros < t'.micros ↔ s.micros < t.micros
  omega

theorem le_iff (hs : s.MovedBy amount s') (ht : t.MovedBy amount t') : s' ≤ t' ↔ s ≤ t := by
  unfold MovedBy at hs ht
  show s'.micros ≤ t'.micros ↔ s.micros ≤ t.micros
  omega

theorem shift (hs : s.MovedBy amount s') (ht : s.shift? length = some t)
    (ht' : s'.shift? length = some t') : t.MovedBy amount t' := by
  have hmicros := micros_of_shift? ht
  have hmicros' := micros_of_shift? ht'
  unfold MovedBy at hs ⊢
  omega

end Time.Instant.MovedBy

/-! ## Computations in step -/

/-- Two causes are the same, except that a range without duration may have been moved. -/
inductive Error.MovedBy (amount : Int) : Error → Error → Prop where
  | same (cause : Error) : MovedBy amount cause cause
  | range {start stop start' stop' : Instant} (hstart : start.MovedBy amount start')
      (hstop : stop.MovedBy amount stop') :
      MovedBy amount (.emptyRange start stop) (.emptyRange start' stop')

theorem Error.MovedBy.eq {amount : Int} {cause cause' : Error} (h : cause.MovedBy amount cause')
    (hkind : cause.kind ≠ .invalidRange) : cause' = cause := by
  cases h with
  | same => rfl
  | range => exact absurd rfl hkind

theorem Error.MovedBy.kind_eq {amount : Int} {cause cause' : Error}
    (h : cause.MovedBy amount cause') : cause'.kind = cause.kind := by
  cases h <;> rfl

/-- Two computations come to results that are related, or fail for the same cause, unless one of
them leaves the calendar. -/
inductive InStep {α β : Type} (amount : Int) (R : α → β → Prop) :
    Except Error α → Except Error β → Prop where
  | done {a : α} {b : β} (h : R a b) : InStep amount R (.ok a) (.ok b)
  | failed {cause cause' : Error} (h : cause.MovedBy amount cause') :
      InStep amount R (.error cause) (.error cause')
  | leftFirst (y : Except Error β) : InStep amount R (.error .outsideCalendar) y
  | leftSecond (x : Except Error α) : InStep amount R x (.error .outsideCalendar)

namespace InStep

variable {α β γ δ : Type} {amount : Int} {R : α → β → Prop} {S : γ → δ → Prop}

theorem refl (x : Except Error α) : InStep amount Eq x x := by
  cases x with
  | error cause => exact .failed (.same cause)
  | ok a => exact .done rfl

theorem bind {x : Except Error α} {y : Except Error β} {f : α → Except Error γ}
    {g : β → Except Error δ} (h : InStep amount R x y)
    (hnext : ∀ a b, R a b → InStep amount S (f a) (g b)) :
    InStep amount S (x >>= f) (y >>= g) := by
  cases h with
  | done h => exact hnext _ _ h
  | failed h => exact .failed h
  | leftFirst y => exact .leftFirst _
  | leftSecond x => exact .leftSecond _

theorem mapM {f : α → Except Error γ} {g : β → Except Error δ} {l : List α} {l' : List β}
    (h : List.Forall₂ (fun a b => InStep amount S (f a) (g b)) l l') :
    InStep amount (List.Forall₂ S) (l.mapM f) (l'.mapM g) := by
  induction h with
  | nil => exact .done .nil
  | cons hfirst _ ih =>
      rw [List.mapM_cons, List.mapM_cons]
      exact hfirst.bind fun _ _ hc => ih.bind fun _ _ hcs => .done (.cons hc hcs)

theorem inCalendar {a? : Option α} {b? : Option β}
    (h : ∀ a b, a? = some a → b? = some b → R a b) :
    InStep amount R (Bookable.inCalendar a?) (Bookable.inCalendar b?) := by
  cases a? with
  | none => exact .leftFirst _
  | some a =>
      cases b? with
      | none => exact .leftSecond _
      | some b => exact .done (h a b rfl rfl)

/-- Neither of the two has left the calendar. -/
theorem inside {x : Except Error α} {y : Except Error β} (h : InStep amount R x y)
    (hx : x ≠ .error .outsideCalendar) (hy : y ≠ .error .outsideCalendar) :
    (∃ a b, x = .ok a ∧ y = .ok b ∧ R a b) ∨
      ∃ cause cause', x = .error cause ∧ y = .error cause' ∧ cause.MovedBy amount cause' := by
  cases h with
  | done h => exact Or.inl ⟨_, _, rfl, rfl, h⟩
  | failed h => exact Or.inr ⟨_, _, rfl, rfl, h⟩
  | leftFirst => exact absurd rfl hx
  | leftSecond => exact absurd rfl hy

end InStep

/-! ## One rule on one day -/

variable {n : Int} {amount : Int}

theorem Interval.MovedBy.overlaps {slot slot' request request' : Interval}
    (hslot : slot.MovedBy amount slot') (hrequest : request.MovedBy amount request') :
    slot'.overlaps request' = slot.overlaps request := by
  rw [Interval.overlaps, Interval.overlaps, decide_eq_decide.mpr (hslot.1.lt_iff hrequest.2),
    decide_eq_decide.mpr (hrequest.1.lt_iff hslot.2)]

/-- Two walks through a window and a moved one, from an instant and a moved one on. -/
theorem tileFrom_moved {window window' request request' : Interval} {length : Int}
    (hwindow : window.MovedBy amount window') (hrequest : request.MovedBy amount request')
    {start start' : Instant} (hstart : start.MovedBy amount start') :
    InStep amount (List.Forall₂ (Interval.MovedBy amount))
      (tileFrom window length request start) (tileFrom window' length request' start') := by
  induction start using tileFrom.induct window length generalizing start' with
  | case1 start hshift =>
      rw [tileFrom, hshift]
      exact .leftFirst _
  | case2 start stop hshift hends hnext ih =>
      rw [tileFrom, hshift, tileFrom]
      cases hshift' : start'.shift? length with
      | none => exact .leftSecond _
      | some stop' =>
          have hstop := hstart.shift hshift hshift'
          have hends' : stop' ≤ window'.stop := (hstop.le_iff hwindow.2).mpr hends
          have hnext' : start' < stop' := (hstart.lt_iff hstop).mpr hnext
          simp only [if_pos hends, if_pos hends', dif_pos hnext, dif_pos hnext']
          refine (ih hstop).bind fun rest rest' hrest => .done ?_
          have hslot : (⟨start, stop, hnext⟩ : Interval).MovedBy amount
              ⟨start', stop', hnext'⟩ := ⟨hstart, hstop⟩
          rw [hslot.overlaps hrequest]
          split
          · exact .cons hslot hrest
          · exact hrest
  | case3 start stop hshift hends hempty =>
      rw [tileFrom, hshift, tileFrom]
      cases hshift' : start'.shift? length with
      | none => exact .leftSecond _
      | some stop' =>
          have hstop := hstart.shift hshift hshift'
          have hends' : stop' ≤ window'.stop := (hstop.le_iff hwindow.2).mpr hends
          have hempty' : ¬ start' < stop' := mt (hstart.lt_iff hstop).mp hempty
          simp only [if_pos hends, if_pos hends', dif_neg hempty, dif_neg hempty']
          exact .failed (.range hstart hstop)
  | case4 start stop hshift hlast =>
      rw [tileFrom, hshift, tileFrom]
      cases hshift' : start'.shift? length with
      | none => exact .leftSecond _
      | some stop' =>
          have hlast' : ¬ stop' ≤ window'.stop :=
            mt ((hstart.shift hshift hshift').le_iff hwindow.2).mp hlast
          simp only [if_neg hlast, if_neg hlast']
          exact .done .nil

/-- The same time of day on two days that lie whole weeks apart. -/
theorem instant_moved {day day' : Nat} (hday : (day' : Int) = day + 7 * n) (micros : Nat) :
    InStep (n * week)
      (fun t t' : Instant => t.micros = day * Time.day + micros ∧ t.MovedBy (n * week) t')
      (inCalendar (Instant.ofMicros? (day * Time.day + micros : Nat)))
      (inCalendar (Instant.ofMicros? (day' * Time.day + micros : Nat))) := by
  refine .inCalendar fun t t' ht ht' => ?_
  have hmicros := Instant.micros_of_ofMicros? ht
  have hmicros' := Instant.micros_of_ofMicros? ht'
  refine ⟨by omega, ?_⟩
  unfold Instant.MovedBy
  rw [hmicros, hmicros']
  unfold week Time.day hour minute second
  omega

namespace Rule

/-- The windows of a rule on two days that lie whole weeks apart, or what is wrong with it. -/
theorem windowOn_moved (r : Rule) {day day' : Nat} (hday : (day' : Int) = day + 7 * n) :
    InStep (n * week) (Interval.MovedBy (n * week)) (r.windowOn day) (r.windowOn day') := by
  refine (InStep.refl _).bind fun start _ hstart => (InStep.refl _).bind fun stop _ hstop => ?_
  cases hstart
  cases hstop
  simp only []
  split
  · next hord =>
      refine (InStep.refl _).bind fun counts _ hcounts => ?_
      cases hcounts
      split
      · refine (instant_moved hday start.micros).bind fun first first' hstart =>
          (instant_moved hday stop.micros).bind fun last last' hstop => ?_
        obtain ⟨hfirst, hfirst'⟩ := hstart
        obtain ⟨hlast, hlast'⟩ := hstop
        have hmicros : start.micros < stop.micros :=
          Nat.mul_lt_mul_of_pos_right hord (by decide)
        have hlt : first < last := by
          show first.micros < last.micros
          omega
        have hlt' : first' < last' := (hfirst'.lt_iff hlast').mpr hlt
        rw [Interval.between, Interval.between, dif_pos hlt, dif_pos hlt']
        exact .done ⟨hfirst', hlast'⟩
      · exact .failed (.same _)
  · exact .failed (.same _)

theorem slotsOn_moved (r : Rule) {request request' : Interval}
    (hrequest : request.MovedBy (n * week) request') {day day' : Nat}
    (hday : (day' : Int) = day + 7 * n) :
    InStep (n * week) (List.Forall₂ (Interval.MovedBy (n * week))) (r.slotsOn request day)
      (r.slotsOn request' day') := by
  have hweekday : weekday day' = weekday day := by
    unfold weekday
    omega
  rw [slotsOn, slotsOn, hweekday]
  split
  · refine (r.windowOn_moved hday).bind fun window window' hwindow => ?_
    split
    · refine (InStep.refl _).bind fun length _ hlength => ?_
      cases hlength
      exact tileFrom_moved hwindow hrequest hwindow.1
    · exact .done .nil
  · exact .done .nil

end Rule

/-! ## All rules on all days -/

theorem dayNumber_moved {t t' : Instant} (h : t.MovedBy (n * week) t') :
    (t'.dayNumber : Int) = t.dayNumber + 7 * n := by
  unfold Instant.dayNumber
  unfold Instant.MovedBy week at h
  unfold day hour minute second at *
  omega

/-- Two walks whose first and last days lie as many days apart go through days that do. -/
theorem daysThrough_moved {first last first' last' : Nat} {days : Int}
    (hfirst : (first' : Int) = first + days) (hlast : (last' : Int) = last + days) :
    List.Forall₂ (fun day day' : Nat => (day' : Int) = day + days) (daysThrough first last)
      (daysThrough first' last') := by
  have hlength : last' + 1 - first' = last + 1 - first := by omega
  rw [daysThrough, daysThrough, hlength, List.forall₂_map_left_iff, List.forall₂_map_right_iff,
    List.forall₂_same]
  intro k _
  omega

theorem expand_moved (rules : List Rule) {request later : Interval}
    (hlater : request.MovedBy (n * week) later) :
    InStep (n * week) (List.Forall₂ (Interval.MovedBy (n * week))) (expand rules request)
      (expand rules later) := by
  rw [expand, expand]
  split
  · exact .done .nil
  · have hwalk := daysThrough_moved (dayNumber_moved hlater.1) (dayNumber_moved hlater.2)
    refine (InStep.mapM (hwalk.imp fun day day' hday => InStep.mapM (S :=
      List.Forall₂ (Interval.MovedBy (n * week))) (List.forall₂_same.mpr fun rule _ =>
        rule.slotsOn_moved hlater hday))).bind fun found found' hfound => ?_
    split
    · exact .leftFirst _
    · split
      · exact .leftSecond _
      · exact .done (List.rel_flatten (List.rel_flatten hfound))

/-- What is found in a window that is moved by a number of weeks is what is found in the window
itself, every slot moved, in the same order and as many times. If a rule keeps slots from being
found in the one, it keeps them from being found in the other, and for the same cause. Only a length
that is no whole number can come to no time, and then the instants that are named are moved. This
is so as long as neither walk leaves the calendar. -/
theorem found_week_after_week {rules : List Rule} {request later : Interval} {n : Int}
    (hlater : request.MovedBy (n * week) later)
    (hin : expand rules request ≠ .error .outsideCalendar)
    (hin' : expand rules later ≠ .error .outsideCalendar) :
    ((∀ r ∈ rules, ∃ k : Int, r.slotLength = .int k) →
        ∀ cause, expand rules request = .error cause ↔ expand rules later = .error cause) ∧
      (∀ cause, cause.kind ≠ .invalidRange →
        (expand rules request = .error cause ↔ expand rules later = .error cause)) ∧
      (∀ cause, expand rules request = .error cause →
        ∃ cause', expand rules later = .error cause' ∧ cause.MovedBy (n * week) cause') ∧
      ∀ slots, expand rules request = .ok slots →
        ∃ slots', expand rules later = .ok slots' ∧
          List.Forall₂ (Interval.MovedBy (n * week)) slots slots' := by
  rcases (expand_moved rules hlater).inside hin hin' with
    ⟨slots, slots', hfound, hfound', hmoved⟩ | ⟨cause, cause', hfound, hfound', hmoved⟩
  · rw [hfound, hfound']
    have hnone : ∀ cause, (Except.ok slots : Except Error _) = .error cause ↔
        (Except.ok slots' : Except Error _) = .error cause :=
      fun _ => iff_of_false (by rintro ⟨⟩) (by rintro ⟨⟩)
    refine ⟨fun _ => hnone, fun cause _ => hnone cause, by rintro _ ⟨⟩, ?_⟩
    rintro _ ⟨⟩
    exact ⟨slots', rfl, hmoved⟩
  · have hread : (∀ r ∈ rules, ∃ k : Int, r.slotLength = .int k) → cause.kind ≠ .invalidRange :=
      fun hlengths => Error.kind_of_ofRule (reads_expand_of_int request hlengths cause hfound)
    rw [hfound, hfound']
    refine ⟨fun hlengths other => ?_, fun other hkind => ⟨?_, ?_⟩, ?_, by rintro _ ⟨⟩⟩
    · rw [hmoved.eq (hread hlengths)]
    · rintro ⟨⟩
      rw [hmoved.eq hkind]
    · rintro ⟨⟩
      rw [hmoved.eq (hmoved.kind_eq ▸ hkind)]
    · rintro _ ⟨⟩
      exact ⟨cause', rfl, hmoved⟩

/-- Thursdays, around the leap day of 2024 and a year of 52 weeks later. -/
theorem found_a_year_after_leap_day :
    let rules : List Rule := [{
      user := "anna", dayOfWeek := .int 4, startTime := .text "09:00", endTime := .text "10:00",
      slotLength := .int 20 }]
    let request : Interval := ⟨⟨(Date.mk 2024 2 28).number * day, by decide +kernel⟩,
      ⟨(Date.mk 2024 3 2).number * day, by decide +kernel⟩, by decide +kernel⟩
    let later : Interval := ⟨⟨(Date.mk 2025 2 26).number * day, by decide +kernel⟩,
      ⟨(Date.mk 2025 3 1).number * day, by decide +kernel⟩, by decide +kernel⟩
    request.MovedBy (52 * week) later ∧
      (expand rules request).toOption.map List.length = some 3 ∧
      (expand rules later).toOption.map List.length = some 3 ∧
      ∀ slots, expand rules request = .ok slots →
        ∃ slots', expand rules later = .ok slots' ∧
          List.Forall₂ (Interval.MovedBy (52 * week)) slots slots' := by
  intro rules request later
  have hlater : request.MovedBy (52 * week) later := by decide +kernel
  have hfound : (expand rules request).toOption.map List.length = some 3 := by decide +kernel
  have hfound' : (expand rules later).toOption.map List.length = some 3 := by decide +kernel
  have hin : ∀ window, (expand rules window).toOption.map List.length = some 3 →
      expand rules window ≠ .error .outsideCalendar := by
    intro window hfound hout
    rw [hout] at hfound
    cases hfound
  exact ⟨hlater, hfound, hfound',
    (found_week_after_week hlater (hin request hfound) (hin later hfound')).2.2.2⟩

end Bookable
