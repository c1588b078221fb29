import Bookable.Booking
import Bookable.Rule

/-!
# From rules to free slots

Candidates are found by walking the days of a request window, from the day of
its start through the day of its end: every rule for a day's weekday has its
window cut into slots from the front, what is left over at the end is dropped,
and the slots that overlap the request are kept whole. Rules are taken in their
order, so overlapping rules yield some slots twice.

A candidate is free unless a confirmed booking starts in the same second. The
bookings are asked for once, by the range in which their starts can matter, and
not at all if there is no candidate.
-/

namespace Bookable

open Time

/-- Consecutive slots of a length from an instant on, as long as they end within the window.
Those that overlap the request are kept. The end of the first slot that is too long still has
to lie in the calendar. A length that comes to no time makes no slot. -/
def tileFrom (window : Interval) (length : Int) (request : Interval) (start : Instant) :
    Except Error (List Interval) :=
  match start.shift? length with
  | none => .error .outsideCalendar
  | some stop =>
      if stop ≤ window.stop then
        if hlt : start < stop then do
          let rest ← tileFrom window length request stop
          let slot : Interval := ⟨start, stop, hlt⟩
          return if slot.overlaps request then slot :: rest else rest
        else .error (.emptyRange start stop)
      else .ok []
termination_by window.stop.micros - start.micros
decreasing_by
  have hlt : start.micros < stop.micros := hlt
  have hle : stop.micros ≤ window.stop.micros := ‹stop ≤ window.stop›
  omega

namespace Rule

/-- The slots of a rule on a day that overlap the request. A rule that is not available is
checked all the same. -/
def slotsOn (r : Rule) (request : Interval) (day : Nat) : Except Error (List Interval) := do
  if r.isFor (weekday day) then
    let window ← r.windowOn day
    if r.isAvailable then
      let length ← slotMicros r.slotLength
      tileFrom window length request window.start
    else return []
  else return []

end Rule

def daysThrough (first last : Nat) : List Nat :=
  (List.range (last + 1 - first)).map (first + ·)

/-- The slots of all rules that overlap the request, day by day and in the order of the rules.
The walk ends on the day after the last one, which therefore has to exist. -/
def expand (rules : List Rule) (request : Interval) : Except Error (List Interval) := do
  if rules.isEmpty then return []
  let last := request.stop.dayNumber
  let found ← (daysThrough request.start.dayNumber last).mapM fun day =>
    rules.mapM fun rule => rule.slotsOn request day
  if calendarDays ≤ last + 1 then throw .outsideCalendar
  return found.flatten.flatten

/-- How far before and after the request bookings are looked up at least. -/
def lookupMargin : Nat := hour

/-- The range of booking starts that can matter to the candidates of a request: an hour on both
sides, and back to the earliest candidate. -/
def lookupRange (request : Interval) (candidates : List Interval) : Except Error Interval := do
  let padded ← request.padded lookupMargin
  let earlier (t : Instant) (slot : Interval) : Instant :=
    if slot.start < t then slot.start else t
  Interval.between (candidates.foldl earlier padded.start) padded.stop

/-- The candidates in whose starting second no confirmed booking starts. -/
def removeBooked (candidates : List Interval) (bookings : List Booking) : List Interval :=
  let taken := (bookings.filter (·.isConfirmed)).map (·.start.unixSecond)
  candidates.filter fun slot => slot.start.unixSecond ∉ taken

/-- The free slots of rules in a request window, with the bookings supplied by `load`. -/
def freeSlots {m : Type → Type} [Monad m] [MonadLiftT (Except Error) m] (rules : List Rule)
    (request : Interval) (load : Interval → m (List Booking)) : m (List Interval) := do
  let candidates ← liftM (expand rules request)
  if candidates.isEmpty then return []
  let bookings ← load (← liftM (lookupRange request candidates))
  return removeBooked candidates bookings

end Bookable
