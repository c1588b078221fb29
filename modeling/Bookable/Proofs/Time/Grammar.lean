import Bookable.Proofs.Changes

/-!
# The grammar of times of day

The reader tries the first digit of two against a handful of ASCII digits and leaves the
second one to the digits of all scripts, except after a 2, where it wants one of four. What
comes out is a grammar that can be said without the reader: a number of one or two digits,
a colon, a number of one or two digits, the first of two in ASCII, and after a leading 2 the
second as well. With the range of hours and minutes it is exact.

A time is written in one way only, and this text is read again as the same time, as a new
time and as a stored one, where more may follow. The texts are in the order of the times.
So the check of a new rule, which compares texts, and the check of a stored rule, which
compares times, refuse the same pairs.
-/

namespace Bookable

open Store Time

namespace Text

def IsAsciiDigit (c : Char) : Prop := '0' ≤ c ∧ c ≤ '9'

instance (c : Char) : Decidable (IsAsciiDigit c) := by unfold IsAsciiDigit; infer_instance

/-- A text is a character, or it is two of which the first is an ASCII digit. -/
def OneOrTwo (part : List Char) : Prop :=
  (∃ c, part = [c]) ∨ ∃ first c, part = [first, c] ∧ IsAsciiDigit first

/-! ## Numbers of one and of two digits -/

theorem spells_one {c : Char} {n : Nat} : Spells [c] n ↔ digitValue? c = some n := by
  constructor
  · intro h
    obtain ⟨d, hd⟩ := h.digit List.mem_cons_self
    rw [hd, h.unique (spells_digit hd)]
  · exact spells_digit

theorem spells_two {first c : Char} {n : Nat} :
    Spells [first, c] n ↔
      ∃ m k, digitValue? first = some m ∧ digitValue? c = some k ∧ n = 10 * m + k := by
  constructor
  · intro h
    obtain ⟨m, hm⟩ := h.digit List.mem_cons_self
    obtain ⟨k, hk⟩ := h.digit (List.mem_cons_of_mem _ List.mem_cons_self)
    exact ⟨m, k, hm, hk, h.unique (spells_digits hm hk)⟩
  · rintro ⟨m, k, hm, hk, rfl⟩
    exact spells_digits hm hk

/-- An ASCII digit is known by its value. -/
theorem IsAsciiDigit.eq_ofNat {c : Char} {d : Nat} (hc : IsAsciiDigit c)
    (h : digitValue? c = some d) : c = Char.ofNat (0x30 + d) := by
  rw [digitValue?_of_ascii hc.1 hc.2] at h
  have hlow : 0x30 ≤ c.toNat := hc.1
  have hsum : 0x30 + (c.toNat - '0'.toNat) = c.toNat := Nat.add_sub_of_le hlow
  rw [← Option.some.inj h, hsum, Char.ofNat_toNat]

end Text

namespace Time.OfDay

/-- A time is what a text of its grammar stands for. -/
def WrittenAs (t : OfDay) (text : List Char) : Prop :=
  ∃ hourPart minutePart, text = hourPart ++ ':' :: minutePart ∧
    Text.Spells hourPart t.hour ∧ Text.OneOrTwo hourPart ∧
    (∀ c, hourPart = ['2', c] → Text.IsAsciiDigit c) ∧
    Text.Spells minutePart t.minute ∧ Text.OneOrTwo minutePart

/-! ## The reader accepts the grammar and nothing else -/

theorem oneOrTwo_of_readHour? {part : List Char} {n : Nat} (h : readHour? part = some n) :
    Text.OneOrTwo part ∧ ∀ c, part = ['2', c] → Text.IsAsciiDigit c := by
  unfold readHour? at h
  split at h
  · next c =>
      refine ⟨Or.inl ⟨c, rfl⟩, fun c' hc' => ?_⟩
      cases hc'
  · next first c =>
      by_cases hfirst : first = '0' ∨ first = '1'
      · refine ⟨Or.inr ⟨first, c, rfl, ?_⟩, fun c' hc' => ?_⟩
        · rcases hfirst with rfl | rfl <;> decide
        · cases hc'
          exact absurd hfirst (by decide)
      · obtain ⟨hzero, hone⟩ := not_or.mp hfirst
        rw [if_neg hzero, if_neg hone] at h
        split at h
        · next htwo =>
            obtain ⟨rfl, hlow, hhigh⟩ := htwo
            refine ⟨Or.inr ⟨'2', c, rfl, by decide⟩, fun c' hc' => ?_⟩
            cases hc'
            exact ⟨hlow, Nat.le_trans hhigh (by decide)⟩
        · cases h
  · cases h

theorem oneOrTwo_of_readMinute? {part : List Char} {n : Nat} (h : readMinute? part = some n) :
    Text.OneOrTwo part := by
  unfold readMinute? at h
  split at h
  · next c => exact Or.inl ⟨c, rfl⟩
  · next first c =>
      split at h
      · next hfirst => exact Or.inr ⟨first, c, rfl, hfirst.1, Nat.le_trans hfirst.2 (by decide)⟩
      · cases h
  · cases h

theorem readHour?_of_spells {part : List Char} {n : Nat} (hn : n < 24)
    (hspells : Text.Spells part n) (hdigits : Text.OneOrTwo part)
    (htwo : ∀ c, part = ['2', c] → Text.IsAsciiDigit c) : readHour? part = some n := by
  rcases hdigits with ⟨c, rfl⟩ | ⟨first, c, rfl, hfirst⟩
  · exact Text.spells_one.mp hspells
  · obtain ⟨m, k, hm, hk, rfl⟩ := Text.spells_two.mp hspells
    obtain rfl := hfirst.eq_ofNat hm
    obtain rfl | rfl | rfl : m = 0 ∨ m = 1 ∨ m = 2 := by omega
    · simpa [readHour?] using hk
    · simp [readHour?, hk]
    · have hc := htwo c rfl
      obtain rfl := hc.eq_ofNat hk
      obtain rfl | rfl | rfl | rfl : k = 0 ∨ k = 1 ∨ k = 2 ∨ k = 3 := by omega
      all_goals rfl

theorem readMinute?_of_spells {part : List Char} {n : Nat} (hn : n < 60)
    (hspells : Text.Spells part n) (hdigits : Text.OneOrTwo part) :
    readMinute? part = some n := by
  rcases hdigits with ⟨c, rfl⟩ | ⟨first, c, rfl, hfirst⟩
  · exact Text.spells_one.mp hspells
  · obtain ⟨m, k, hm, hk, rfl⟩ := Text.spells_two.mp hspells
    obtain rfl := hfirst.eq_ofNat hm
    have hrange : ∀ m < 6, '0' ≤ Char.ofNat (0x30 + m) ∧ Char.ofNat (0x30 + m) ≤ '5' ∧
        (Char.ofNat (0x30 + m)).toNat - '0'.toNat = m := by
      decide
    obtain ⟨hlow, hhigh, hvalue⟩ := hrange m (by omega)
    rw [readMinute?, if_pos ⟨hlow, hhigh⟩, hk, hvalue]
    rfl

theorem read?_eq_some_iff {text : List Char} {t : OfDay} :
    read? text = some t ↔ t.WrittenAs text := by
  constructor
  · intro h
    obtain ⟨hourPart, minutePart, htext, hhour, hminute⟩ := spells_of_read? h
    refine ⟨hourPart, minutePart, htext, hhour, ?_⟩
    subst htext
    rw [read?, Text.span_at hhour.notMem_colon] at h
    obtain ⟨hour, hreadHour, h⟩ := Option.bind_eq_some_iff.mp h
    obtain ⟨minute, hreadMinute, -⟩ := Option.bind_eq_some_iff.mp h
    obtain ⟨hdigits, htwo⟩ := oneOrTwo_of_readHour? hreadHour
    exact ⟨hdigits, htwo, hminute, oneOrTwo_of_readMinute? hreadMinute⟩
  · rintro ⟨hourPart, minutePart, rfl, hhour, hdigits, htwo, hminute, hdigits'⟩
    rw [read?, Text.span_at hhour.notMem_colon]
    simp only [readHour?_of_spells t.hour_lt hhour hdigits htwo,
      readMinute?_of_spells t.minute_lt hminute hdigits', Option.bind_eq_bind, Option.bind_some]
    rw [dif_pos ⟨t.hour_lt, t.minute_lt⟩]

end Time.OfDay

/-! ## Times in the fields of a rule -/

theorem givenTime_eq_ok {s : String} {t : OfDay} :
    givenTime (.text s) = .ok t ↔ t.WrittenAs (Text.stripped s.toList) := by
  rw [← OfDay.read?_eq_some_iff]
  cases hread : OfDay.read? (Text.stripped s.toList) with
  | none => simp [givenTime, hread]
  | some u => simp [givenTime, hread]

theorem givenTime_eq_error {s : String}
    (h : ¬ ∃ t : OfDay, t.WrittenAs (Text.stripped s.toList)) :
    givenTime (.text s) = .error (.timeNotHourMinute s) := by
  cases hread : OfDay.read? (Text.stripped s.toList) with
  | none => simp only [givenTime, hread]
  | some t => exact absurd ⟨t, OfDay.read?_eq_some_iff.mp hread⟩ h

/-- A stored time is read no further than its minute. -/
theorem storedTime_append (t : OfDay) (rest : List Char) :
    storedTime (.text (String.ofList (t.text ++ rest))) = .ok t := by
  have htake : (t.text ++ rest).take 5 = t.text := by rw [← t.length_text, List.take_left]
  have hlength : ¬ (String.ofList (t.text ++ rest)).length < 5 := by
    rw [String.length_ofList, List.length_append, t.length_text]
    omega
  simp only [storedTime, if_neg hlength, String.toList_ofList, htake, OfDay.read?_text]

namespace Rule

/-- The window of a stored rule whose times are in order may be refused, but not for their order. -/
theorem failsWith_windowOn {r : Rule} {start stop : OfDay}
    (hstart : storedTime r.startTime = .ok start) (hstop : storedTime r.endTime = .ok stop)
    (hord : start.minutes < stop.minutes) (day : Nat) :
    FailsWith (· ≠ .storedTimesNotOrdered r.id) (r.windowOn day) := by
  have hcalendar : ∀ a? : Option Instant,
      FailsWith (· ≠ .storedTimesNotOrdered r.id) (inCalendar a?) := by
    intro a?
    cases a? with
    | none => exact failsWith_error Error.noConfusion
    | some a => exact failsWith_ok a
  rw [windowOn, hstart, hstop, ok_bind, ok_bind, if_pos hord]
  refine failsWith_bind ?_ fun counts _ => ?_
  · unfold lengthCounts
    split
    · exact failsWith_ok _
    · exact failsWith_ok _
    · exact failsWith_ok _
    · exact failsWith_error Error.noConfusion
  · split
    · refine failsWith_bind (hcalendar _) fun first _ => failsWith_bind (hcalendar _) fun last _ => ?_
      rw [Interval.between]
      split
      · exact failsWith_ok _
      · exact failsWith_error Error.noConfusion
    · exact failsWith_error Error.noConfusion

theorem windowOn_disordered {r : Rule} {start stop : OfDay}
    (hstart : storedTime r.startTime = .ok start) (hstop : storedTime r.endTime = .ok stop)
    (day : Nat) :
    r.windowOn day = .error (.storedTimesNotOrdered r.id) ↔ ¬ start.minutes < stop.minutes := by
  by_cases hord : start.minutes < stop.minutes
  · exact iff_of_false (fun h => failsWith_windowOn hstart hstop hord day _ h rfl)
      (not_not_intro hord)
  · rw [windowOn, hstart, hstop, ok_bind, ok_bind, if_neg hord]
    exact iff_of_true rfl hord

end Rule

/-- A text is accepted as a time of day if and only if, without the blanks around it, it is of the
grammar, and otherwise it is refused. The text of a time is that of a clock with two digits on both
sides, and it is read as this time again, as a new time, and as a stored one whatever comes after
it. The texts of times are in the order of the times, and so the check of a new rule and that of a
stored one refuse the same pairs of times for their order. -/
theorem times_of_day_exact :
    (∀ (s : String) (t : OfDay),
      givenTime (.text s) = .ok t ↔ t.WrittenAs (Text.stripped s.toList)) ∧
    (∀ s : String, (¬ ∃ t : OfDay, t.WrittenAs (Text.stripped s.toList)) →
      givenTime (.text s) = .error (.timeNotHourMinute s)) ∧
    (∀ t : OfDay, t.text = t.clock ∧ givenTime (.ofTime t) = .ok t ∧
      ∀ rest, storedTime (.text (String.ofList (t.text ++ rest))) = .ok t) ∧
    ∀ t u : OfDay,
      (Column.precedes u.text t.text = false ↔ t.minutes ≤ u.minutes) ∧
      ∀ a b, givenTime a = .ok t → givenTime b = .ok u →
        ∀ day length : Int, 0 ≤ day ∧ day ≤ 6 → 0 < length →
          (Rule.checked (.int day) a b (.int length) = .error .timesNotOrdered ↔
            Column.precedes t.text u.text = false) ∧
          ∀ (r : Rule) d, storedTime r.startTime = .ok t → storedTime r.endTime = .ok u →
            (r.windowOn d = .error (.storedTimesNotOrdered r.id) ↔
              Column.precedes t.text u.text = false) := by
  refine ⟨fun s t => givenTime_eq_ok, fun s => givenTime_eq_error, fun t => ?_, fun t u => ?_⟩
  · exact ⟨t.text_eq_clock, givenTime_ofTime t, storedTime_append t⟩
  · have hbefore : Column.precedes t.text u.text = false ↔ ¬ t.minutes < u.minutes := by
      rw [OfDay.precedes_text, decide_eq_false_iff_not]
    refine ⟨?_, fun a b ha hb day length hday hlength => ⟨?_, fun r d hstart hstop => ?_⟩⟩
    · rw [OfDay.precedes_text, decide_eq_false_iff_not, Nat.not_lt]
    · rw [hbefore, Rule.checked_of_given hday hlength ha hb]
      split
      · next hord => exact iff_of_false (by rintro ⟨⟩) (not_not_intro hord)
      · next hord => exact iff_of_true rfl hord
    · exact (Rule.windowOn_disordered hstart hstop d).trans hbefore.symm

/-- A text with blanks around it and a digit of another script, and a later time. -/
theorem nine_thirty_five_exact :
    let s := "\u20039:3\u0665 "
    let t : OfDay := ⟨9, 35, by decide, by decide⟩
    let u : OfDay := ⟨10, 0, by decide, by decide⟩
    givenTime (.text s) = .ok t ∧ givenTime (.text "10:0") = .ok u ∧
      Rule.checked (.int 1) (.text "10:0") (.text s) (.int 5) = .error .timesNotOrdered := by
  intro s t u
  obtain ⟨haccepted, -, -, horder⟩ := times_of_day_exact
  have hstripped : Text.stripped s.toList = ['9', ':', '3', '\u0665'] := by decide +kernel
  have hbefore : Column.precedes u.text t.text = false := by decide +kernel
  have ht : givenTime (.text s) = .ok t := by
    refine (haccepted s t).mpr
      ⟨['9'], ['3', '\u0665'], hstripped, ?_, Or.inl ⟨_, rfl⟩, ?_, ?_, ?_⟩
    · exact Text.spells_one.mpr rfl
    · intro c hc
      cases hc
    · exact Text.spells_two.mpr ⟨3, 5, rfl, rfl, rfl⟩
    · exact Or.inr ⟨'3', '\u0665', rfl, by decide⟩
  have hu : givenTime (.text "10:0") = .ok u := by
    have hplain : Text.stripped "10:0".toList = ['1', '0', ':', '0'] := by decide +kernel
    refine (haccepted "10:0" u).mpr ⟨['1', '0'], ['0'], hplain, ?_, ?_, ?_, ?_, Or.inl ⟨_, rfl⟩⟩
    · exact Text.spells_two.mpr ⟨1, 0, rfl, rfl, rfl⟩
    · exact Or.inr ⟨'1', '0', rfl, by decide⟩
    · intro c hc
      cases hc
    · exact Text.spells_one.mpr rfl
  obtain ⟨-, hchecks⟩ := horder u t
  exact ⟨ht, hu, (hchecks _ _ hu ht 1 5 (by decide) (by decide)).1.mpr hbefore⟩

end Bookable
