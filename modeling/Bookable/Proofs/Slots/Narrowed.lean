import Bookable.Proofs.Slots.Overrun
import Mathlib.Data.List.Basic

/-!
# Narrower windows

A window that lies within another one shows what the other one shows of it. The walks
over the days are different ones, but a slot never leaves its day, so the days that the
wide window has before and after those of the narrow one have no slot for it. The
lookups of bookings are different ones too: the narrow window may look up less. Its own
candidates are still within reach of its lookup, and no booking outside of it can
start in the second of one of them, as long as candidates start with a second.

Nothing goes wrong for the narrow window that does not go wrong for the wide one. It
meets no other rules, and it keeps further away from the ends of the calendar.
-/

namespace Bookable

open Store Time

/-- An interval lies within another one. -/
def Interval.Within (narrow wide : Interval) : Prop :=
  wide.start ≤ narrow.start ∧ narrow.stop ≤ wide.stop

instance (narrow wide : Interval) : Decidable (narrow.Within wide) := by
  unfold Interval.Within; infer_instance

theorem Interval.Within.refl (a : Interval) : a.Within a := ⟨Nat.le_refl _, Nat.le_refl _⟩

theorem Interval.Within.overlaps {narrow wide slot : Interval} (h : narrow.Within wide)
    (hslot : slot.overlaps narrow = true) : slot.overlaps wide = true := by
  rw [Interval.overlaps, Bool.and_eq_true, decide_eq_true_eq, decide_eq_true_eq] at hslot ⊢
  exact ⟨Nat.lt_of_lt_of_le hslot.1 h.2, Nat.lt_of_le_of_lt h.1 hslot.2⟩

/-! ## One rule on one day -/

variable {window wide narrow : Interval} {length : Int}

theorem tileFrom_narrowed (h : narrow.Within wide) {start : Instant} {slots : List Interval}
    (hslots : tileFrom window length wide start = .ok slots) :
    tileFrom window length narrow start = .ok (slots.filter (·.overlaps narrow)) := by
  induction start using tileFrom.induct window length generalizing slots with
  | case1 start hshift =>
      rw [tileFrom, hshift] at hslots
      cases hslots
  | case2 start stop hshift hends hnext ih =>
      rw [tileFrom, hshift] at hslots ⊢
      simp only [if_pos hends, dif_pos hnext] at hslots ⊢
      obtain ⟨rest, hrest, hslots⟩ := bind_eq_ok.mp hslots
      rw [ih hrest, ok_bind]
      cases hslots
      refine congrArg Except.ok ?_
      split
      · next hnarrow =>
          rw [if_pos (h.overlaps hnarrow), List.filter_cons, if_pos hnarrow]
      · next hnarrow =>
          split
          · rw [List.filter_cons, if_neg hnarrow]
          · rfl
  | case3 start stop hshift hends hempty =>
      rw [tileFrom, hshift] at hslots
      simp only [if_pos hends, dif_neg hempty] at hslots
      cases hslots
  | case4 start stop hshift hlast =>
      rw [tileFrom, hshift] at hslots ⊢
      simp only [if_neg hlast] at hslots ⊢
      cases hslots
      rfl

/-- The slots of a walk lie between its beginning and the end of the window. -/
theorem tileFrom_bounds {request : Interval} {start : Instant} {slots : List Interval}
    (h : tileFrom window length request start = .ok slots) {slot : Interval}
    (hslot : slot ∈ slots) :
    start.micros ≤ slot.start.micros ∧ slot.stop.micros ≤ window.stop.micros := by
  induction start using tileFrom.induct window length generalizing slots with
  | case1 start hshift =>
      rw [tileFrom, hshift] at h
      cases h
  | case2 start stop hshift hends hnext ih =>
      rw [tileFrom, hshift] at h
      simp only [if_pos hends, dif_pos hnext] at h
      obtain ⟨rest, hrest, h⟩ := bind_eq_ok.mp h
      have hlt : start.micros < stop.micros := hnext
      have hlater : slot ∈ rest →
          start.micros ≤ slot.start.micros ∧ slot.stop.micros ≤ window.stop.micros := by
        intro hslot
        obtain ⟨hfirst, hlast⟩ := ih hrest hslot
        exact ⟨Nat.le_trans (Nat.le_of_lt hlt) hfirst, hlast⟩
      cases h
      split at hslot
      · rcases List.mem_cons.mp hslot with rfl | hslot
        · exact ⟨Nat.le_refl _, hends⟩
        · exact hlater hslot
      · exact hlater hslot
  | case3 start stop hshift hends hempty =>
      rw [tileFrom, hshift] at h
      simp only [if_pos hends, dif_neg hempty] at h
      cases h
  | case4 start stop hshift hlast =>
      rw [tileFrom, hshift] at h
      simp only [if_neg hlast] at h
      cases h
      cases hslot

namespace Rule

theorem slotsOn_narrowed (h : narrow.Within wide) {r : Rule} {day : Nat} {slots : List Interval}
    (hslots : r.slotsOn wide day = .ok slots) :
    r.slotsOn narrow day = .ok (slots.filter (·.overlaps narrow)) := by
  rw [slotsOn] at hslots ⊢
  split
  · next hfor =>
      rw [if_pos hfor] at hslots
      obtain ⟨own, hown, hslots⟩ := bind_eq_ok.mp hslots
      rw [hown, ok_bind]
      split
      · next havailable =>
          rw [if_pos havailable] at hslots
          obtain ⟨length, hlength, hslots⟩ := bind_eq_ok.mp hslots
          rw [hlength, ok_bind]
          exact tileFrom_narrowed h hslots
      · next havailable =>
          rw [if_neg havailable] at hslots
          cases hslots
          rfl
  · next hfor =>
      rw [if_neg hfor] at hslots
      cases hslots
      rfl

/-- On a day that a request does not touch, no slot overlaps it. -/
theorem slotsOn_outside {r : Rule} {request : Interval} {day : Nat}
    (hday : day < request.start.dayNumber ∨ request.stop.dayNumber < day) {slots : List Interval}
    (h : r.slotsOn request day = .ok slots) : slots = [] := by
  have hself := slotsOn_narrowed (.refl request) h
  rw [h] at hself
  injection hself with hself
  rw [hself, List.filter_eq_nil_iff]
  intro slot hslot
  rw [slotsOn] at h
  split at h
  · obtain ⟨own, hown, h⟩ := bind_eq_ok.mp h
    split at h
    · obtain ⟨length, -, h⟩ := bind_eq_ok.mp h
      obtain ⟨first, last, -, -, -, -, hstart, hstop⟩ := windowOn_ok_inv hown
      obtain ⟨hfirst, hlast⟩ := tileFrom_bounds h hslot
      have hin := last.micros_lt
      have hafter : day * Time.day ≤ slot.start.micros := by omega
      have hbefore : slot.stop.micros < (day + 1) * Time.day := by
        rw [Nat.add_mul, Nat.one_mul]
        omega
      rw [Interval.overlaps_eq]
      exact Interval.not_meets_of_day hafter hbefore hday
    · cases h
      cases hslot
  · cases h
    cases hslot

end Rule

/-! ## All rules on all days -/

/-- A longer walk goes through the days before those of a shorter one, these, and the days after
them. -/
theorem daysThrough_split {first last first' last' : Nat} (hfirst : first ≤ first')
    (hle : first' ≤ last' + 1) (hlast : last' ≤ last) :
    ∃ before after, daysThrough first last = before ++ daysThrough first' last' ++ after ∧
      ∀ day ∈ before ++ after, day < first' ∨ last' < day := by
  refine ⟨(List.range (first' - first)).map (first + ·),
    (List.range (last - last')).map (last' + 1 + ·), ?_, fun day hday => ?_⟩
  · have hbefore : first' = first + (first' - first) := by omega
    have hafter : last' + 1 = first + (last' + 1 - first) := by omega
    have hwalk : last' + 1 - first = first' - first + (last' + 1 - first') := by omega
    have hall : last + 1 - first = last' + 1 - first + (last - last') := by omega
    unfold daysThrough
    rw [hall, List.range_add, List.map_append, hwalk, List.range_add, List.map_append,
      List.map_map, List.map_map]
    congr 2
    · refine List.map_congr_left fun k _ => ?_
      show first + (first' - first + k) = first' + k
      omega
    · funext k
      show first + (first' - first + (last' + 1 - first') + k) = last' + 1 + k
      omega
  · rcases List.mem_append.mp hday with hday | hday
    · obtain ⟨k, hk, rfl⟩ := List.mem_map.mp hday
      have := List.mem_range.mp hk
      omega
    · obtain ⟨k, -, rfl⟩ := List.mem_map.mp hday
      omega

theorem dayNumber_mono {a b : Instant} (h : a ≤ b) : a.dayNumber ≤ b.dayNumber :=
  Nat.div_le_div_right h

/-- What a walk finds for a narrower request is among what it finds for a wider one. -/
theorem expand_narrowed (h : narrow.Within wide) {rules : List Rule} {candidates : List Interval}
    (hwide : expand rules wide = .ok candidates) :
    expand rules narrow = .ok (candidates.filter (·.overlaps narrow)) := by
  rw [expand] at hwide ⊢
  simp only [] at hwide ⊢
  split
  · next hempty =>
      rw [if_pos hempty] at hwide
      cases hwide
      rfl
  · next hempty =>
      rw [if_neg hempty] at hwide
      obtain ⟨found, hfound, hwide⟩ := bind_eq_ok.mp hwide
      have hlast : narrow.stop.dayNumber ≤ wide.stop.dayNumber := dayNumber_mono h.2
      split at hwide
      · cases hwide
      · next hin =>
          cases hwide
          -- The wide walk for the narrow request: outside of its days it finds nothing.
          let walk (day : Nat) := rules.mapM fun rule => rule.slotsOn narrow day
          have hnone : ∀ {days : List Nat} {ofDays : List (List (List Interval))},
              (∀ day ∈ days, day < narrow.start.dayNumber ∨ narrow.stop.dayNumber < day) →
              days.mapM walk = .ok ofDays → ofDays.flatten.flatten = [] := by
            intro days ofDays hdays hofDays
            rw [List.flatten_eq_nil_iff]
            intro slots hslots
            obtain ⟨ofDay, hofDay, hslots⟩ := List.mem_flatten.mp hslots
            obtain ⟨day, hday, hwalk⟩ := mem_of_mapM_ok hofDays hofDay
            obtain ⟨rule, -, hrule⟩ := mem_of_mapM_ok hwalk hslots
            exact Rule.slotsOn_outside (hdays day hday) hrule
          have hwalk : (daysThrough wide.start.dayNumber wide.stop.dayNumber).mapM walk =
                .ok (found.map (List.map (List.filter (·.overlaps narrow)))) :=
            mapM_map (fun _ _ _ hday => mapM_map
              (fun _ _ _ hslots => Rule.slotsOn_narrowed h hslots) hday) hfound
          obtain ⟨before, after, hsplit, hout⟩ := daysThrough_split (dayNumber_mono h.1)
            (Nat.le_succ_of_le (dayNumber_mono (Nat.le_of_lt narrow.ordered))) hlast
          rw [hsplit, List.mapM_append, List.mapM_append] at hwalk
          obtain ⟨firsts, hfirsts, hwalk⟩ := bind_eq_ok.mp hwalk
          obtain ⟨earlier, hearlier, hfirsts⟩ := bind_eq_ok.mp hfirsts
          obtain ⟨mine, hmine, hfirsts⟩ := bind_eq_ok.mp hfirsts
          obtain ⟨later, hlater, hwalk⟩ := bind_eq_ok.mp hwalk
          cases hfirsts
          injection hwalk with hwalk
          have hsame : mine.flatten.flatten =
              (found.flatten.flatten).filter (·.overlaps narrow) := by
            rw [List.filter_flatten, List.map_flatten, ← hwalk, List.flatten_append,
              List.flatten_append, List.flatten_append, List.flatten_append,
              hnone (fun day hday => hout day (List.mem_append_left _ hday)) hearlier,
              hnone (fun day hday => hout day (List.mem_append_right _ hday)) hlater,
              List.nil_append, List.append_nil]
          have hmine' : (daysThrough narrow.start.dayNumber narrow.stop.dayNumber).mapM
              (fun day => rules.mapM fun rule => rule.slotsOn narrow day) = .ok mine := hmine
          rw [hmine', ok_bind, if_neg (by omega), ← hsame]
          rfl

/-! ## Free slots -/

theorem Interval.padded_narrowed (h : narrow.Within wide) {margin : Nat} {padded : Interval}
    (hwide : wide.padded margin = .ok padded) : ∃ padded', narrow.padded margin = .ok padded' := by
  obtain ⟨hfirst, hlast⟩ := padded_ok hwide
  have hin := padded.stop.lt_horizon
  have hstart : wide.start.micros ≤ narrow.start.micros := h.1
  have hstop : narrow.stop.micros ≤ wide.stop.micros := h.2
  exact padded_of_room (by omega) (by omega)

theorem foldl_earlier_mem (candidates : List Interval) (t : Instant) :
    candidates.foldl (fun t slot => if slot.start < t then slot.start else t) t = t ∨
      ∃ slot ∈ candidates,
        candidates.foldl (fun t slot => if slot.start < t then slot.start else t) t =
          slot.start := by
  induction candidates generalizing t with
  | nil => exact Or.inl rfl
  | cons first rest ih =>
      rw [List.foldl_cons]
      rcases ih (if first.start < t then first.start else t) with hsame | ⟨slot, hslot, heq⟩
      · rw [hsame]
        split
        · exact Or.inr ⟨first, List.mem_cons_self, rfl⟩
        · exact Or.inl rfl
      · exact Or.inr ⟨slot, List.mem_cons_of_mem _ hslot, heq⟩

/-- A narrower window with fewer candidates has its bookings looked up in a narrower range. -/
theorem lookupRange_narrowed (h : narrow.Within wide) {candidates candidates' : List Interval}
    (hsub : candidates' ⊆ candidates) {range : Interval}
    (hwide : lookupRange wide candidates = .ok range) :
    ∃ range', lookupRange narrow candidates' = .ok range' ∧ range'.Within range := by
  have hreaches := lookupRange_reaches hwide
  rw [lookupRange] at hwide
  obtain ⟨padded, hpadded, hwide⟩ := bind_eq_ok.mp hwide
  obtain ⟨padded', hpadded'⟩ := Interval.padded_narrowed h hpadded
  obtain ⟨range', hrange'⟩ := lookupRange_ok hpadded' candidates'
  refine ⟨range', hrange', ?_⟩
  have hstop' := (lookupRange_reaches hrange').2
  rw [lookupRange, hpadded', ok_bind] at hrange'
  have hfirst := (Interval.padded_ok hpadded).1
  have hfirst' := (Interval.padded_ok hpadded').1
  have hle := foldl_earlier_le candidates padded.start
  have hstart : wide.start.micros ≤ narrow.start.micros := h.1
  have hstop : narrow.stop.micros ≤ wide.stop.micros := h.2
  rw [Interval.Within]
  show range.start.micros ≤ range'.start.micros ∧ range'.stop.micros ≤ range.stop.micros
  refine ⟨?_, by omega⟩
  rw [(Interval.between_ok hwide).1, (Interval.between_ok hrange').1]
  rcases foldl_earlier_mem candidates' padded'.start with hsame | ⟨slot, hslot, heq⟩
  · rw [hsame]
    omega
  · rw [heq]
    exact foldl_earlier_le_mem (hsub hslot) _

theorem Store.Records.mem_load {r : Records} {user : String} {range : Interval} {b : Booking} :
    b ∈ r.load user range ↔ b ∈ r.bookings ∧ (b.user == user && b.isConfirmed) = true ∧
      b.startsWithin range.start range.stop = true := by
  rw [Records.load, Records.confirmedWithin, List.mem_filter, Bool.and_eq_true]

theorem Store.Records.load_narrowed (r : Records) (user : String) {range range' : Interval}
    (h : range'.Within range) : r.load user range' ⊆ r.load user range := by
  intro b hb
  rw [mem_load] at hb ⊢
  obtain ⟨hb, hmine, hin⟩ := hb
  refine ⟨hb, hmine, ?_⟩
  rw [Booking.startsWithin, Bool.and_eq_true, decide_eq_true_eq, decide_eq_true_eq] at hin ⊢
  exact ⟨Nat.le_trans h.1 hin.1, Nat.lt_of_lt_of_le hin.2 h.2⟩

theorem removeBooked_comm (candidates : List Interval) (bookings : List Booking)
    (p : Interval → Bool) :
    (removeBooked candidates bookings).filter p = removeBooked (candidates.filter p) bookings := by
  unfold removeBooked
  rw [List.filter_filter, List.filter_filter]
  exact List.filter_congr fun slot _ => Bool.and_comm _ _

/-- Fewer bookings remove fewer slots. -/
theorem removeBooked_sublist {candidates : List Interval} {bookings bookings' : List Booking}
    (h : bookings' ⊆ bookings) :
    (removeBooked candidates bookings).Sublist (removeBooked candidates bookings') := by
  unfold removeBooked
  refine List.monotone_filter_right _ fun slot (hslot : decide _ = true) => ?_
  rw [decide_eq_true_eq, not_mem_taken] at hslot ⊢
  exact fun b hb => hslot b (h hb)

/-- What a window lists a narrower one lists as well, as far as it is in reach, and whatever the
length of the slots. With slot lengths of whole seconds it lists nothing else. -/
theorem freeWithin_narrowed (h : narrow.Within wide) {r : Records} {user : String}
    {slots : List Interval}
    (hwide : freeWithin (r.rulesOf user) (r.load user) wide = .ok slots) :
    ∃ slots', freeWithin (r.rulesOf user) (r.load user) narrow = .ok slots' ∧
      (slots.filter (·.overlaps narrow)).Sublist slots' ∧
      ((∀ rule ∈ r.rulesOf user, rule.WholeSeconds) →
        slots' = slots.filter (·.overlaps narrow)) := by
  cases hempty : (r.rulesOf user).isEmpty with
  | true =>
      rw [freeWithin, hempty] at hwide ⊢
      cases hwide
      exact ⟨[], rfl, List.Sublist.refl _, fun _ => rfl⟩
  | false =>
      obtain ⟨candidates, hexpand, hlooked⟩ := (freeWithin_eq_ok hempty).mp hwide
      have hnarrow := expand_narrowed h hexpand
      have hsub : candidates.filter (·.overlaps narrow) ⊆ candidates := fun slot hslot =>
        (List.mem_filter.mp hslot).1
      by_cases hnone : candidates.filter (·.overlaps narrow) = []
      · -- No candidate is left for the narrow window, so the wide one has no slot for it.
        have hslots : slots.filter (·.overlaps narrow) = [] := by
          rw [List.filter_eq_nil_iff] at hnone ⊢
          intro slot hslot
          rcases hlooked with ⟨-, rfl⟩ | ⟨-, range, -, rfl⟩
          · cases hslot
          · exact hnone slot (mem_removeBooked.mp hslot).1
        rw [hslots]
        exact ⟨[], (freeWithin_eq_ok hempty).mpr ⟨_, hnarrow, Or.inl ⟨hnone, rfl⟩⟩,
          List.Sublist.refl _, fun _ => rfl⟩
      · rcases hlooked with ⟨rfl, -⟩ | ⟨-, range, hrange, rfl⟩
        · exact absurd rfl hnone
        · obtain ⟨range', hrange', hwithin⟩ := lookupRange_narrowed h hsub hrange
          refine ⟨_, (freeWithin_eq_ok hempty).mpr
            ⟨_, hnarrow, Or.inr ⟨hnone, range', hrange', rfl⟩⟩, ?_, fun whole => ?_⟩
          · rw [removeBooked_comm]
            exact removeBooked_sublist (r.load_narrowed user hwithin)
          · rw [removeBooked_comm]
            refine removeBooked_congr fun slot hslot b hsecond => ?_
            have hwithin := startsWithin_lookupRange whole hexpand hrange (hsub hslot) hsecond
            have hwithin' := startsWithin_lookupRange whole hnarrow hrange' hslot hsecond
            rw [Records.mem_load, Records.mem_load, hwithin, hwithin']

end Bookable
