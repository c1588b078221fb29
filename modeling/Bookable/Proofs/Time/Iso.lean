import Bookable.Proofs.Time.Calendar
import Bookable.Proofs.Time.OfDay
import Bookable.Time.Reading.Iso
import Mathlib.Data.List.Forall2

/-!
# Dates and times that are written out are read back

A number written with a fixed count of digits is given back by a reader that takes so
many, whatever comes after it, and a reader that wants more fails at the first character
that is no digit. The readers of ISO 8601 texts are put together from such ones, so each
piece of a text is read back with the rest left over: the date, the time, its fraction,
and the offset at the end. The form of a date is told by the first character in which two
forms differ, and that is never a digit.
-/

namespace Bookable

namespace Text

/-! ## Digits -/

theorem asciiDigit?_digit {d : Nat} (hd : d < 10) :
    asciiDigit? (Char.ofNat (0x30 + d)) = some d := by
  revert d
  decide

theorem ofDigits_concat (digits : List Nat) (d : Nat) :
    ofDigits (digits ++ [d]) = 10 * ofDigits digits + d := by
  rw [ofDigits, List.foldl_append]
  rfl

/-- A text is a sequence of ASCII digits, whose values are given. -/
def AreDigits (text : List Char) (digits : List Nat) : Prop :=
  List.Forall₂ (fun c d => asciiDigit? c = some d) text digits

/-- The digits of a number spell it. -/
theorem areDigits_paddedDigits {width n : Nat} (h : n < 10 ^ width) :
    ∃ digits, AreDigits (paddedDigits width n) digits ∧ digits.length = width ∧
      ofDigits digits = n := by
  induction width generalizing n with
  | zero =>
      obtain rfl : n = 0 := Nat.lt_one_iff.mp h
      exact ⟨[], List.Forall₂.nil, rfl, rfl⟩
  | succ width ih =>
      obtain ⟨digits, hdigits, hlength, hvalue⟩ :=
        ih (n := n / 10) (Nat.div_lt_of_lt_mul (by rwa [Nat.pow_succ'] at h))
      have hlast : AreDigits [Char.ofNat (0x30 + n % 10)] [n % 10] :=
        List.Forall₂.cons (asciiDigit?_digit (Nat.mod_lt n (by decide))) List.Forall₂.nil
      refine ⟨digits ++ [n % 10], List.rel_append hdigits hlast, ?_, ?_⟩
      · rw [List.length_append, hlength, List.length_singleton]
      · rw [ofDigits_concat, hvalue, Nat.div_add_mod]

/-- What is no digit does not occur among digits. -/
theorem notMem_paddedDigits {c : Char} (hc : asciiDigit? c = none) (width n : Nat) :
    c ∉ paddedDigits width n := by
  induction width generalizing n with
  | zero => exact List.not_mem_nil
  | succ width ih =>
      rw [paddedDigits, List.mem_append, List.mem_singleton, not_or]
      refine ⟨ih (n / 10), ?_⟩
      rintro rfl
      rw [asciiDigit?_digit (Nat.mod_lt n (by decide))] at hc
      cases hc

/-- Where digits stand, there is nothing else. -/
theorem getElem?_paddedDigits_ne {c : Char} (hc : asciiDigit? c = none) {width i : Nat}
    (hi : i < width) (n : Nat) (rest : List Char) : (paddedDigits width n ++ rest)[i]? ≠ some c := by
  intro h
  rw [List.getElem?_append_left (by rwa [length_paddedDigits])] at h
  exact notMem_paddedDigits hc width n (List.mem_of_getElem? h)

/-- Some of the digits that are wanted may be read first. -/
theorem go_append {text : List Char} {digits : List Nat} (h : AreDigits text digits)
    (more value : Nat) (rest : List Char) :
    takeDigits.go (digits.length + more) value (text ++ rest) =
      takeDigits.go more (digits.foldl (fun value digit => 10 * value + digit) value) rest := by
  induction h generalizing value with
  | nil => rw [List.length_nil, Nat.zero_add, List.nil_append, List.foldl_nil]
  | cons hd hds ih =>
      rw [List.length_cons, Nat.add_right_comm, List.cons_append, takeDigits.go, hd]
      exact ih (10 * value + _)

theorem takeDigits_paddedDigits {width n : Nat} (h : n < 10 ^ width) (rest : List Char) :
    takeDigits width (paddedDigits width n ++ rest) = some (n, rest) := by
  obtain ⟨digits, hdigits, rfl, rfl⟩ := areDigits_paddedDigits h
  exact go_append hdigits 0 0 rest

/-- A reader that wants more digits than there are fails. -/
theorem takeDigits_short {width n count : Nat} {c : Char} (h : n < 10 ^ width)
    (hcount : width < count) (hc : asciiDigit? c = none) (rest : List Char) :
    takeDigits count (paddedDigits width n ++ c :: rest) = none := by
  obtain ⟨more, rfl⟩ := Nat.exists_eq_add_of_lt hcount
  obtain ⟨digits, hdigits, rfl, rfl⟩ := areDigits_paddedDigits h
  rw [Nat.add_assoc]
  refine (go_append hdigits (more + 1) 0 (c :: rest)).trans ?_
  rw [takeDigits.go, hc]
  rfl

end Text

namespace Time

open Text

/-! ## Fractions of a second -/

theorem spanDigits_append {text : List Char} {digits : List Nat} (h : AreDigits text digits)
    {c : Char} (hc : asciiDigit? c = none) (rest : List Char) :
    spanDigits asciiDigit? (text ++ c :: rest) = (digits, c :: rest) := by
  induction h with
  | nil => simp only [List.nil_append, spanDigits, hc]
  | cons hd hds ih => simp only [List.cons_append, spanDigits, hd, ih]

theorem microsOfFraction_of_length {digits : List Nat} (h : digits.length = 6) :
    microsOfFraction digits = ofDigits digits := by
  rw [microsOfFraction, List.take_append_of_le_length (Nat.le_of_eq h.symm),
    List.take_of_length_le (Nat.le_of_eq h)]

/-- The microseconds of a time: six digits after a point, and nothing needs to be written for
none. -/
inductive WrittenFraction (micro : Nat) : List Char → Prop
  | nothing (h : micro = 0) : WrittenFraction micro []
  | digits : WrittenFraction micro ('.' :: paddedDigits 6 micro)

/-- Hour, minute and second with colons. -/
def Civil.clockDigits (c : Civil) : List Char :=
  paddedDigits 2 c.hour ++ ':' :: paddedDigits 2 c.minute ++ ':' :: paddedDigits 2 c.second

namespace Iso

/-- A character with which a time cannot go on. -/
def EndsTime (c : Char) : Prop := asciiDigit? c = none ∧ c ≠ '.' ∧ c ≠ ','

theorem readFraction_written {micro : Nat} {text : List Char} (hmicro : micro < 1000000)
    (h : WrittenFraction micro text) {c : Char} (hc : EndsTime c) (rest : List Char) :
    readFraction (text ++ c :: rest) = some (micro, c :: rest) := by
  obtain ⟨hdigit, hpoint, hcomma⟩ := hc
  cases h with
  | nothing hzero =>
      rw [List.nil_append, readFraction, if_neg (not_or.mpr ⟨hpoint, hcomma⟩), hzero]
  | digits =>
      have hsix : micro < 10 ^ 6 := hmicro
      obtain ⟨digits, hdigits, hlength, hvalue⟩ := areDigits_paddedDigits hsix
      rw [List.cons_append, readFraction, if_pos (Or.inl rfl), spanDigits_append hdigits hdigit]
      cases digits with
      | nil => cases hlength
      | cons d ds => rw [← hvalue, ← microsOfFraction_of_length hlength]

/-! ## Times -/

theorem readTime_written (runs : Bool) {c : Civil} (hhour : c.hour < 24) (hminute : c.minute < 60)
    (hsecond : c.second < 60) (hmicro : c.micro < 1000000) {fraction : List Char}
    (hfraction : WrittenFraction c.micro fraction) {first : Char} (hfirst : EndsTime first)
    (rest : List Char) :
    readTime runs (c.clockDigits ++ fraction ++ first :: rest) =
      some (⟨c.hour, c.minute, c.second, c.micro⟩, first :: rest) := by
  have hhour' : c.hour < 10 ^ 2 := Nat.lt_trans hhour (by decide)
  have hminute' : c.minute < 10 ^ 2 := Nat.lt_trans hminute (by decide)
  have hsecond' : c.second < 10 ^ 2 := Nat.lt_trans hsecond (by decide)
  simp only [Civil.clockDigits, List.append_assoc, List.cons_append, readTime, readColons,
    takeDigits_paddedDigits hhour', takeDigits_paddedDigits hminute',
    takeDigits_paddedDigits hsecond', readFraction_written hmicro hfraction hfirst,
    Option.bind_eq_bind, Option.bind_some, Option.pure_def]
  rw [if_pos ⟨hhour, hminute, hsecond⟩]

/-! ## Offsets -/

/-- Hours and minutes with two digits each. -/
def hourMinuteDigits (minutes : Nat) : List Char :=
  paddedDigits 2 (minutes / 60) ++ ':' :: paddedDigits 2 (minutes % 60)

theorem readHours_written {minutes : Nat} (h : minutes < 1440) :
    readHours (hourMinuteDigits minutes) = some (minutes, []) := by
  have hhour : minutes / 60 < 10 ^ 2 := by omega
  have hminute : minutes % 60 < 10 ^ 2 := by omega
  have hsome := takeDigits_paddedDigits hminute []
  rw [List.append_nil] at hsome
  simp only [hourMinuteDigits, readHours, takeDigits_paddedDigits hhour, hsome,
    Option.bind_eq_bind, Option.bind_some]
  rw [if_pos (by omega), Nat.div_add_mod]

/-- An offset in minutes of less than a day: a sign, hours and minutes, or a `Z` for none. -/
inductive WrittenOffset : Int → List Char → Prop
  | utc : WrittenOffset 0 ['Z']
  | ahead {minutes : Nat} (h : minutes < 1440) :
      WrittenOffset minutes ('+' :: hourMinuteDigits minutes)
  | behind {minutes : Nat} (h : minutes < 1440) :
      WrittenOffset (-minutes) ('-' :: hourMinuteDigits minutes)

theorem readOffset_written {offset : Int} {text : List Char} (h : WrittenOffset offset text) :
    readOffset text = some (some offset) := by
  cases h with
  | utc => rfl
  | ahead h => simp only [readOffset, readHours_written h]
  | behind h => simp only [readOffset, readHours_written h]

theorem offsetFits_written {offset : Int} {text : List Char} (h : WrittenOffset offset text) :
    offsetFits (some offset) = true := by
  refine decide_eq_true ?_
  cases h with
  | utc => decide
  | ahead h => omega
  | behind h => omega

/-- An offset does not begin with what a time may go on with. -/
theorem WrittenOffset.exists_cons {offset : Int} {text : List Char} (h : WrittenOffset offset text) :
    ∃ c rest, text = c :: rest ∧ EndsTime c := by
  unfold EndsTime
  cases h with
  | utc => exact ⟨_, _, rfl, by decide⟩
  | ahead h => exact ⟨_, _, rfl, by decide⟩
  | behind h => exact ⟨_, _, rfl, by decide⟩

/-! ## Dates -/

theorem readDashed_written {d : Date} (h : d.Valid) (rest : List Char) :
    readDashed d.year (paddedDigits 2 d.month ++ '-' :: (paddedDigits 2 d.day ++ rest)) =
      some (d, rest) := by
  have hmonth : d.month < 10 ^ 2 := Nat.lt_of_le_of_lt h.2.2.2.1 (by decide)
  have hday : d.day < 10 ^ 2 :=
    Nat.lt_of_le_of_lt (Nat.le_trans h.2.2.2.2.2 (daysInMonth_le _ _)) (by decide)
  unfold readDashed
  split
  · next heq =>
      have hfirst := congrArg (·[0]?) heq
      exact absurd hfirst (getElem?_paddedDigits_ne (by decide) (by decide) _ _)
  · -- A day of the year would have a third digit where the dash is.
    rw [takeDigits_short hmonth (by decide) (by decide)]
    simp only [takeDigits_paddedDigits hmonth, takeDigits_paddedDigits hday, Option.bind_eq_bind,
      Option.bind_some]
    rw [existing, if_pos h]
    rfl

theorem readDate_written {c : Civil} (h : c.date.Valid) (rest : List Char) :
    readDate (c.dateDigits ++ rest) = some (c.date, .dashed, rest) := by
  have hyear : c.date.year < 10 ^ 4 := Nat.lt_of_le_of_lt h.2.1 (by decide)
  simp only [Civil.dateDigits, List.append_assoc, List.cons_append, readDate,
    takeDigits_paddedDigits hyear, readDashed_written h, Option.bind_eq_bind, Option.bind_some,
    Option.pure_def]

/-! ## Dates and times -/

/-- A text is a date, a `T` or a blank, a time with its fraction, and an offset. -/
def WrittenAt (c : Civil) (offset : Int) (text : List Char) : Prop :=
  ∃ separator fraction mark, (separator = 'T' ∨ separator = ' ') ∧
    WrittenFraction c.micro fraction ∧ WrittenOffset offset mark ∧
    text = c.dateDigits ++ separator :: (c.clockDigits ++ fraction ++ mark)

variable {c : Civil} {offset : Int} {text : List Char}

/-- The text begins with the digits of the year. -/
theorem WrittenAt.getElem?_ne (h : WrittenAt c offset text) {other : Char}
    (hother : asciiDigit? other = none) {i : Nat} (hi : i < 4) : text[i]? ≠ some other := by
  obtain ⟨separator, fraction, mark, -, -, -, rfl⟩ := h
  simp only [Civil.dateDigits, List.append_assoc]
  exact getElem?_paddedDigits_ne hother hi _ _

theorem readMoment_written (hvalid : c.Valid) (h : WrittenAt c offset text) :
    readMoment text = some (.moment c (some offset)) := by
  obtain ⟨hdate, hhour, hminute, hsecond, hmicro⟩ := hvalid
  obtain ⟨separator, fraction, mark, hseparator, hfraction, hmark, rfl⟩ := h
  have hoffset := readOffset_written hmark
  have hfits := offsetFits_written hmark
  obtain ⟨first, rest, rfl, hfirst⟩ := hmark.exists_cons
  simp only [readMoment, readDate_written hdate, Option.bind_eq_bind, Option.bind_some]
  rw [if_pos ⟨hseparator, by decide⟩,
    readTime_written _ hhour hminute hsecond hmicro hfraction hfirst]
  simp only [Option.bind_some, hoffset]
  rw [if_pos hfits]
  rfl

/-- As it begins with a year, the text is no length of time and no time of day. -/
theorem read_written (hvalid : c.Valid) (h : WrittenAt c offset text) :
    read text = some (.moment c (some offset)) := by
  unfold read
  split
  · exact (h.getElem?_ne (by decide : asciiDigit? 'P' = none) (by decide : 0 < 4) rfl).elim
  · exact (h.getElem?_ne (by decide : asciiDigit? 'T' = none) (by decide : 0 < 4) rfl).elim
  · exact (h.getElem?_ne (by decide : asciiDigit? ':' = none) (by decide : 2 < 4) rfl).elim
  · exact readMoment_written hvalid h

end Iso

end Time

end Bookable
