import Bookable.Proofs.Hall.Listing
import Bookable.Proofs.Slots.Overrun

/-!
# Listings that fail

In every state that the services can reach the rules on record are valid, whoever is
in the middle of something else. A listing makes no request that needs a key, so it
comes to an end in every one of them, and since its rules can be used there is only
one thing that can go wrong inside of the calendar: some rule on record has slots so
long that one more of them would end after the calendar does. Then the listing fails
instead of leaving out what does not fit.

Nothing in the check of a rule sets a bound to the length of its slots, so such rules
are stored. A rule with slots of a day at most does no harm.
-/

namespace Bookable

open Store Time

/-! ## Listings in reachable states -/

/-- In every state that services can reach, a listing between two instants inside of the calendar
comes to an end. It fails if a slot of some rule overruns the calendar, and then because of that;
otherwise it answers with slots. So it answers with slots if no slot of the user is longer than a
day. -/
theorem listing_fails_iff_overruns (events : List Event) (user : String) (window : Interval)
    (hinside : window.Inside) :
    let m := (Hall.run {} events).machine
    let rules := m.records.rulesOf user
    (∃ result m', Alone m (.listSlots user window.start window.stop) result m') ∧
      (∀ result m', Alone m (.listSlots user window.start window.stop) result m' →
        (Overruns rules window ∧ result = .error .outsideCalendar) ∨
          (¬ Overruns rules window ∧ ∃ slots, result = .ok (.slots slots))) ∧
      ((∀ rule ∈ rules, ∀ n, rule.slotLength = .int n → n * minute ≤ Time.day) →
        ¬ Overruns rules window) := by
  intro m rules
  have husable := (Hall.rulesValid_run events).usable user
  refine ⟨⟨_, exists_listing m user window.start window.stop⟩, fun result m' halone => ?_,
    not_overruns_of_length_le hinside⟩
  · have hresult := halone.listing
    rw [Records.listed, window.window_bounds, ok_bind] at hresult
    rcases freeWithin_cases husable (m.records.load user) hinside with
      ⟨hoverruns, hlisted⟩ | ⟨hfits, slots, hlisted⟩
    · rw [hlisted] at hresult
      exact Or.inl ⟨hoverruns, hresult⟩
    · rw [hlisted] at hresult
      exact Or.inr ⟨hfits, slots, hresult⟩

/-- The second Monday of the calendar. -/
def secondMonday : Interval := ⟨⟨7 * Time.day, by decide⟩, ⟨8 * Time.day, by decide⟩, by decide⟩

/-- Whether the slots of a rule are a day long at most. -/
def Rule.hasShortSlots (r : Rule) : Bool :=
  match r.slotLength with
  | .int n => n * minute ≤ Time.day
  | _ => true

theorem Rule.length_le_of_hasShortSlots {r : Rule} (h : r.hasShortSlots = true) {n : Int}
    (hlength : r.slotLength = .int n) : n * minute ≤ Time.day := by
  rw [hasShortSlots, hlength] at h
  exact of_decide_eq_true h

/-- A rule that has just been stored has its slots listed. -/
theorem listing_of_opening : secondMonday.Inside ∧ ∃ slots m',
    Alone opened (.listSlots "anna" secondMonday.start secondMonday.stop) (.ok (.slots slots)) m' := by
  have hinside : secondMonday.Inside := by decide +kernel
  obtain ⟨⟨result, m', halone⟩, hcases, hshort⟩ :=
    listing_fails_iff_overruns opening "anna" secondMonday hinside
  have hrules : ∀ rule ∈ opened.records.rulesOf "anna", rule.hasShortSlots = true := by
    decide +kernel
  have hfits := hshort fun rule hrule n => Rule.length_le_of_hasShortSlots (hrules rule hrule)
  rcases hcases result m' halone with ⟨hoverruns, -⟩ | ⟨-, slots, rfl⟩
  · exact absurd hoverruns hfits
  · exact ⟨hinside, slots, m', halone⟩

/-- A rule with slots of ten thousand million minutes, which is a valid rule. -/
def overlong : List Event :=
  .call (.setAvailability "anna" [{
    dayOfWeek := .int 1, startTime := .text "10:00", endTime := .text "10:40",
    slotLength := .int 10000000000 }]) :: ["", "rule", "", "", ""].map (.turnOf 0)

def Store.Stage.leftCalendar : Stage Answer → Bool
  | .ended (.error .outsideCalendar) => true
  | _ => false

theorem Store.Stage.eq_of_leftCalendar {s : Stage Answer} (h : s.leftCalendar = true) :
    s = .ended (.error .outsideCalendar) := by
  unfold leftCalendar at h
  split at h
  · rfl
  · cases h

/-- Once such a rule is stored, the slots of its user cannot be listed any more. -/
theorem overlong_slots_not_listed :
    (Hall.run {} overlong).machine.records.rules.length = 1 ∧ secondMonday.Inside ∧
      ∃ m', Alone (Hall.run {} overlong).machine
        (.listSlots "anna" secondMonday.start secondMonday.stop) (.error .outsideCalendar) m' := by
  have hleft : (Stage.turns 0 (List.replicate 3 ⟨⟨0, horizon_pos⟩, ""⟩)
      (.active (Call.listSlots "anna" secondMonday.start secondMonday.stop).program none)
      (Hall.run {} overlong).machine).1.leftCalendar = true := by decide +kernel
  have halone : Alone (Hall.run {} overlong).machine
      (.listSlots "anna" secondMonday.start secondMonday.stop) (.error .outsideCalendar) _ :=
    ⟨_, Prod.ext (Stage.eq_of_leftCalendar hleft) rfl⟩
  exact ⟨by decide +kernel, by decide +kernel, _, halone⟩

end Bookable
