import Bookable.Proofs.Time.Calendar
import Bookable.Slots

/-!
# Cutting a window into slots

`tileFrom` walks from slot to slot and keeps those that overlap the request. What it
finds can be said without the walk: as many slots as the length goes into what is
left of the window, one after the other, of which the request picks some. The walk
looks one slot further than it keeps, so it also needs the end of that slot to lie
in the calendar; this is the only way for it to fail.

Slots are compared by their bounds in microseconds, which determine an interval.
-/

namespace Bookable

open Time

/-- The start and the end of an interval in microseconds. -/
def Interval.bounds (a : Interval) : Nat × Nat := (a.start.micros, a.stop.micros)

/-- Whether what lies between two bounds overlaps an interval. -/
def Interval.meets (a : Interval) (slot : Nat × Nat) : Bool :=
  slot.1 < a.stop.micros && a.start.micros < slot.2

theorem Interval.overlaps_eq (a b : Interval) : a.overlaps b = b.meets a.bounds := rfl

/-- A number of slots of one length, one after the other. -/
def tiles (start length count : Nat) : List (Nat × Nat) :=
  (List.range count).map fun k => (start + k * length, start + (k + 1) * length)

theorem tiles_succ (start length count : Nat) :
    tiles start length (count + 1) =
      (start, start + length) :: tiles (start + length) length count := by
  rw [tiles, List.range_succ_eq_map, List.map_cons, List.map_map]
  congr 1
  · simp
  · refine List.map_congr_left fun k _ => ?_
    simp only [Function.comp, Nat.succ_eq_add_one, Nat.add_mul, Nat.one_mul]
    refine Prod.ext ?_ ?_ <;> simp only <;> omega

theorem mem_tiles {start length count : Nat} {slot : Nat × Nat}
    (h : slot ∈ tiles start length count) :
    ∃ k, k < count ∧ slot.1 = start + k * length ∧ slot.2 = slot.1 + length := by
  obtain ⟨k, hk, rfl⟩ := List.mem_map.mp h
  refine ⟨k, List.mem_range.mp hk, rfl, ?_⟩
  simp only [Nat.add_mul, Nat.one_mul]
  omega

theorem tiles_le {start length count : Nat} {slot : Nat × Nat}
    (h : slot ∈ tiles start length count) :
    start ≤ slot.1 ∧ slot.2 ≤ start + count * length := by
  obtain ⟨k, hk, h1, h2⟩ := mem_tiles h
  have hmul : (k + 1) * length ≤ count * length := Nat.mul_le_mul_right length hk
  rw [Nat.add_mul, Nat.one_mul] at hmul
  omega

theorem tileFrom_step (window request : Interval) {length : Nat} (hlen : 0 < length)
    (start : Instant) :
    tileFrom window length request start =
      if h : start.micros + length < horizon then
        let stop : Instant := ⟨start.micros + length, h⟩
        if stop.micros ≤ window.stop.micros then
          (tileFrom window length request stop).map fun rest =>
            if request.meets (start.micros, stop.micros) then
              ⟨start, stop, Nat.lt_add_of_pos_right hlen⟩ :: rest
            else rest
        else .ok []
      else .error .outsideCalendar := by
  rw [tileFrom, Instant.shift?_natCast]
  by_cases h : start.micros + length < horizon
  · have hlt : start < (⟨start.micros + length, h⟩ : Instant) :=
      Nat.lt_add_of_pos_right hlen
    rw [dif_pos h, dif_pos h]
    simp only []
    by_cases hle : start.micros + length ≤ window.stop.micros
    · have hends : (⟨start.micros + length, h⟩ : Instant) ≤ window.stop := hle
      rw [if_pos hends, dif_pos hlt, if_pos hle]
      cases tileFrom window length request ⟨start.micros + length, h⟩ <;> rfl
    · have hends : ¬ (⟨start.micros + length, h⟩ : Instant) ≤ window.stop := hle
      rw [if_neg hends, if_neg hle]
  · rw [dif_neg h, dif_neg h]

/-- What is left of a window holds one slot more than what is left after the first one. -/
theorem room_succ {stop start length count : Nat} (hlen : 0 < length)
    (h : (stop - start) / length = count + 1) :
    start + length ≤ stop ∧ (stop - (start + length)) / length = count := by
  have hle : (count + 1) * length ≤ stop - start := (Nat.le_div_iff_mul_le hlen).mp (by omega)
  rw [Nat.add_mul, Nat.one_mul] at hle
  have hfits : start + length ≤ stop := by
    have := Nat.zero_le (count * length)
    omega
  refine ⟨hfits, ?_⟩
  have hsplit : stop - start = stop - (start + length) + length := by omega
  rw [hsplit, Nat.add_div_right _ hlen] at h
  exact Nat.succ.inj h

/-- The walk finds the slots that fit into what is left of the window and overlap the request,
provided that the slot after the last one still ends in the calendar. -/
theorem tileFrom_ok (window request : Interval) {length : Nat} (hlen : 0 < length)
    (count : Nat) : ∀ start : Instant,
    (window.stop.micros - start.micros) / length = count →
    start.micros + (count + 1) * length < horizon →
    ∃ slots, tileFrom window length request start = .ok slots ∧
      slots.map Interval.bounds = (tiles start.micros length count).filter request.meets := by
  induction count with
  | zero =>
      intro start hcount hfits
      refine ⟨[], ?_, rfl⟩
      rw [Nat.zero_add, Nat.one_mul] at hfits
      have hshort : window.stop.micros - start.micros < length :=
        (Nat.div_eq_zero_iff_lt hlen).mp hcount
      rw [tileFrom_step window request hlen, dif_pos hfits]
      simp only []
      rw [if_neg (by omega)]
  | succ count ih =>
      intro start hcount hfits
      obtain ⟨hle, hcount⟩ := room_succ hlen hcount
      have hnext : start.micros + length + (count + 1) * length < horizon := by
        rw [Nat.add_mul (count + 1), Nat.one_mul] at hfits
        omega
      have hin : start.micros + length < horizon := by
        have := Nat.zero_le ((count + 1) * length)
        omega
      obtain ⟨slots, htile, hslots⟩ := ih ⟨start.micros + length, hin⟩ hcount hnext
      rw [tileFrom_step window request hlen, dif_pos hin]
      simp only []
      rw [if_pos hle, htile, tiles_succ, List.filter_cons]
      refine ⟨_, rfl, ?_⟩
      split
      · rw [List.map_cons, hslots]; rfl
      · exact hslots

/-- The walk fails if the slot after the last one would end outside the calendar. -/
theorem tileFrom_error (window request : Interval) {length : Nat} (hlen : 0 < length)
    (count : Nat) : ∀ start : Instant,
    (window.stop.micros - start.micros) / length = count →
    horizon ≤ start.micros + (count + 1) * length →
    tileFrom window length request start = .error .outsideCalendar := by
  induction count with
  | zero =>
      intro start _ hout
      rw [Nat.zero_add, Nat.one_mul] at hout
      rw [tileFrom_step window request hlen, dif_neg (by omega)]
  | succ count ih =>
      intro start hcount hout
      obtain ⟨hle, hcount⟩ := room_succ hlen hcount
      have hin : start.micros + length < horizon :=
        Nat.lt_of_le_of_lt hle window.stop.lt_horizon
      rw [tileFrom_step window request hlen, dif_pos hin]
      simp only []
      rw [if_pos hle, ih ⟨start.micros + length, hin⟩ hcount]
      · rfl
      · rw [Nat.add_mul (count + 1), Nat.one_mul] at hout
        simp only
        omega

end Bookable
