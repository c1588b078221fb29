import Bookable.Rule
import Mathlib.Data.List.TakeDrop

/-!
# Times of day are read as they are written

The text of a time of day has five characters, two digits on both sides of a colon,
none of them blank. So it is not changed by stripping it or by cutting it to five
characters, and reading it gives the time back, whether it is read as a new time or as
a stored one.
-/

namespace Bookable

open Time

namespace Text

/-- Digits are neither a colon nor blank. -/
theorem digit_plain {d : Nat} (hd : d < 10) :
    Char.ofNat (0x30 + d) ≠ ':' ∧ isBlank (Char.ofNat (0x30 + d)) = false := by
  revert d
  decide

theorem paddedDigits_plain {width n : Nat} {c : Char} (hc : c ∈ paddedDigits width n) :
    c ≠ ':' ∧ isBlank c = false := by
  induction width generalizing n with
  | zero => cases hc
  | succ width ih =>
      rw [paddedDigits, List.mem_append, List.mem_singleton] at hc
      rcases hc with hc | rfl
      · exact ih hc
      · exact digit_plain (Nat.mod_lt n (by decide))

theorem length_paddedDigits (width n : Nat) : (paddedDigits width n).length = width := by
  induction width generalizing n with
  | zero => rfl
  | succ width ih => rw [paddedDigits, List.length_append, ih, List.length_singleton]

theorem trimBoth_eq_self {drop : Char → Bool} {text : List Char}
    (h : ∀ c ∈ text, drop c = false) : trimBoth drop text = text := by
  have hkeep : ∀ l : List Char, (∀ c ∈ l, drop c = false) → l.dropWhile drop = l := by
    intro l hl
    cases l with
    | nil => rfl
    | cons c rest => simp [hl c List.mem_cons_self]
  rw [trimBoth, hkeep text h, hkeep text.reverse fun c hc => h c (List.mem_reverse.mp hc),
    List.reverse_reverse]

/-- What comes before the first occurrence of a character. -/
theorem span_at {mark : Char} {front : List Char} (h : mark ∉ front) (rest : List Char) :
    (front ++ mark :: rest).span (· != mark) = (front, mark :: rest) := by
  have hfront : ∀ c ∈ front, (c != mark) = true := by
    intro c hc
    rw [bne_iff_ne]
    rintro rfl
    exact h hc
  rw [List.span_eq_takeWhile_dropWhile, List.takeWhile_append_of_pos hfront,
    List.dropWhile_append_of_pos hfront]
  simp

end Text

namespace Time.OfDay

theorem readHour?_digits {n : Nat} (hn : n < 24) :
    readHour? (Text.paddedDigits 2 n) = some n := by
  revert n
  decide +kernel

theorem readMinute?_digits {n : Nat} (hn : n < 60) :
    readMinute? (Text.paddedDigits 2 n) = some n := by
  revert n
  decide +kernel

theorem length_text (t : OfDay) : t.text.length = 5 := by
  rw [text, List.length_append, List.length_cons, Text.length_paddedDigits,
    Text.length_paddedDigits]

theorem span_text (t : OfDay) :
    t.text.span (· != ':') =
      (Text.paddedDigits 2 t.hour, ':' :: Text.paddedDigits 2 t.minute) :=
  Text.span_at (fun hmem => (Text.paddedDigits_plain hmem).1 rfl) _

theorem read?_text (t : OfDay) : read? t.text = some t := by
  rw [read?, span_text]
  simp only []
  rw [readHour?_digits t.hour_lt, readMinute?_digits t.minute_lt]
  simp only [Option.bind_eq_bind, Option.bind_some]
  rw [dif_pos ⟨t.hour_lt, t.minute_lt⟩]

theorem stripped_text (t : OfDay) : Text.stripped t.text = t.text := by
  refine Text.trimBoth_eq_self fun c hc => ?_
  rw [text, List.mem_append, List.mem_cons] at hc
  rcases hc with hc | rfl | hc
  · exact (Text.paddedDigits_plain hc).2
  · decide
  · exact (Text.paddedDigits_plain hc).2

end Time.OfDay

/-! ## Times in the fields of a rule -/

@[simp] theorem givenTime_ofTime (t : OfDay) : givenTime (.ofTime t) = .ok t := by
  simp only [Value.ofTime, givenTime, String.toList_ofList, OfDay.stripped_text,
    OfDay.read?_text]

@[simp] theorem storedTime_ofTime (t : OfDay) : storedTime (.ofTime t) = .ok t := by
  have htake : t.text.take 5 = t.text := List.take_of_length_le (Nat.le_of_eq t.length_text)
  simp [Value.ofTime, storedTime, htake, OfDay.length_text, OfDay.read?_text]

@[simp] theorem cutTime_ofTime (t : OfDay) : Rule.cutTime (.ofTime t) = .ok (.ofTime t) := by
  have htake : t.text.take 5 = t.text := List.take_of_length_le (Nat.le_of_eq t.length_text)
  simp only [Value.ofTime, Rule.cutTime, String.toList_ofList, htake]

end Bookable
