import Bookable.Proofs.Store.Column
import Bookable.Proofs.Time.OfDay
import Mathlib.Data.List.Basic

/-!
# What the text of a time of day spells

A text spells a time of day if, without the blanks around it, it is a number, a colon
and a number, and these are the hour and the minute. Here a number is any sequence of
decimal digits, of whatever script, read in the usual way. This is less than what the
reader accepts, which wants one or two digits on each side and is particular about the
first of two, but it is all that is needed to say which time a text stands for: a text
spells one time at most, and what the reader finds is what the text spells.

Times are written with two ASCII digits on each side, as a clock shows them, and therefore
the texts are in the order of the times.
-/

namespace Bookable

open Time

namespace Text

/-- A sequence of decimal digits spells a number. -/
def Spells (text : List Char) (n : Nat) : Prop :=
  ∃ digits, text.mapM digitValue? = some digits ∧ ofDigits digits = n

theorem Spells.unique {text : List Char} {m n : Nat} (hm : Spells text m) (hn : Spells text n) :
    m = n := by
  obtain ⟨digits, hdigits, rfl⟩ := hm
  obtain ⟨digits', hdigits', rfl⟩ := hn
  rw [hdigits] at hdigits'
  cases hdigits'
  rfl

theorem spells_digit {c : Char} {n : Nat} (h : digitValue? c = some n) : Spells [c] n := by
  refine ⟨[n], ?_, Nat.zero_add n⟩
  rw [List.mapM_cons, h]
  rfl

theorem spells_digits {first c : Char} {m n : Nat} (hfirst : digitValue? first = some m)
    (hc : digitValue? c = some n) : Spells [first, c] (10 * m + n) := by
  refine ⟨[m, n], ?_, ?_⟩
  · rw [List.mapM_cons, List.mapM_cons, hfirst, hc]
    rfl
  · show 10 * (10 * 0 + m) + n = 10 * m + n
    omega

/-- The ASCII digits are digits. -/
theorem digitValue?_of_ascii {c : Char} (hlow : '0' ≤ c) (hhigh : c ≤ '9') :
    digitValue? c = some (c.toNat - '0'.toNat) := by
  have hin : (decide (0x30 ≤ c.toNat) && decide (c.toNat < 0x30 + 10)) = true := by
    rw [Bool.and_eq_true, decide_eq_true_eq, decide_eq_true_eq]
    exact ⟨hlow, Nat.lt_succ_of_le hhigh⟩
  rw [digitValue?, digitZeros, List.find?_cons, hin]
  rfl

/-- What spells a number is digits. -/
theorem Spells.digit {text : List Char} {n : Nat} (h : Spells text n) {c : Char}
    (hc : c ∈ text) : ∃ d, digitValue? c = some d := by
  obtain ⟨digits, hdigits, -⟩ := h
  induction text generalizing digits with
  | nil => cases hc
  | cons first rest ih =>
      rw [List.mapM_cons] at hdigits
      obtain ⟨d, hd, hdigits⟩ := Option.bind_eq_some_iff.mp hdigits
      obtain ⟨ds, hds, -⟩ := Option.bind_eq_some_iff.mp hdigits
      rcases List.mem_cons.mp hc with rfl | hc
      · exact ⟨d, hd⟩
      · exact ih hc ds hds

/-- A colon is not a digit. -/
theorem Spells.notMem_colon {text : List Char} {n : Nat} (h : Spells text n) : ':' ∉ text := by
  intro hmem
  obtain ⟨d, hd⟩ := h.digit hmem
  have hcolon : digitValue? ':' = none := by decide
  rw [hcolon] at hd
  cases hd

/-- No digit of any script is blank. -/
theorem isBlank_of_digit {c : Char} {d : Nat} (h : digitValue? c = some d) :
    isBlank c = false := by
  have hplain : ∀ low ∈ digitZeros, ∀ k < 10,
      ((whiteRuns.any fun run => run.1 ≤ low + k && low + k ≤ run.2) ||
        (0x1c ≤ low + k && low + k ≤ 0x1f)) = false := by
    decide +kernel
  obtain ⟨low, hfound, -⟩ := Option.map_eq_some_iff.mp h
  have hrun := List.find?_some hfound
  simp only [Bool.and_eq_true, decide_eq_true_eq] at hrun
  have hsum : low + (c.toNat - low) = c.toNat := by omega
  have hdigit := hplain low (List.mem_of_find?_eq_some hfound) (c.toNat - low) (by omega)
  rw [hsum] at hdigit
  exact hdigit

end Text

namespace Time.OfDay

/-- A time of day on a clock with two digits on both sides. -/
def clock (t : OfDay) : List Char :=
  [Nat.digitChar (t.hour / 10), Nat.digitChar (t.hour % 10), ':',
    Nat.digitChar (t.minute / 10), Nat.digitChar (t.minute % 10)]

theorem paddedDigits_two {n : Nat} (hn : n < 60) :
    Text.paddedDigits 2 n = [Nat.digitChar (n / 10), Nat.digitChar (n % 10)] := by
  revert n
  decide +kernel

/-- A time is written as the clock shows it. -/
theorem text_eq_clock (t : OfDay) : t.text = t.clock := by
  have hhour : t.hour < 60 := Nat.lt_trans t.hour_lt (by decide)
  rw [text, paddedDigits_two hhour, paddedDigits_two t.minute_lt]
  rfl

theorem precedes_text_of_lt {t u : OfDay} (h : t.minutes < u.minutes) :
    Store.Column.precedes t.text u.text = true := by
  have hhour := u.hour_lt
  have hminute := u.minute_lt
  have hminute' := t.minute_lt
  have hcases : t.hour < u.hour ∨ t.hour = u.hour ∧ t.minute < u.minute := by
    unfold minutes at h
    omega
  refine Store.Column.precedes_field (by omega) (hcases.imp_right (And.imp_right fun h => ?_))
  rw [Store.Column.precedes_cons]
  exact Store.Column.precedes_paddedDigits h (by omega)

theorem eq_of_minutes {t u : OfDay} (h : t.minutes = u.minutes) : t = u := by
  obtain ⟨hour, minute, hhour, hminute⟩ := t
  obtain ⟨hour', minute', hhour', hminute'⟩ := u
  simp only [minutes] at h
  obtain rfl : hour = hour' := by omega
  obtain rfl : minute = minute' := by omega
  rfl

/-- The texts of times are in the order of the times, so a check that compares the one decides what
a check that compares the other does. -/
theorem precedes_text (t u : OfDay) :
    Store.Column.precedes t.text u.text = decide (t.minutes < u.minutes) := by
  rcases Nat.lt_trichotomy t.minutes u.minutes with h | h | h
  · rw [precedes_text_of_lt h, decide_eq_true h]
  · rw [eq_of_minutes h, Store.Column.precedes_self, decide_eq_false (Nat.lt_irrefl _)]
  · rw [Store.Column.precedes_asymm (precedes_text_of_lt h), decide_eq_false (Nat.lt_asymm h)]

theorem writtenBefore_iff {t u : OfDay} : t.writtenBefore u = true ↔ t.minutes < u.minutes := by
  rw [writtenBefore, show t.text.lex u.text _ = _ from precedes_text t u, decide_eq_true_eq]

/-- A text spells a time of day: an hour, a colon and a minute, with blanks around them. -/
def SpelledBy (t : OfDay) (s : String) : Prop :=
  ∃ hourPart minutePart, Text.stripped s.toList = hourPart ++ ':' :: minutePart ∧
    Text.Spells hourPart t.hour ∧ Text.Spells minutePart t.minute

/-- A text spells one time at most. -/
theorem SpelledBy.unique {t u : OfDay} {s : String} (ht : t.SpelledBy s) (hu : u.SpelledBy s) :
    t = u := by
  obtain ⟨hourPart, minutePart, heq, hhour, hminute⟩ := ht
  obtain ⟨hourPart', minutePart', heq', hhour', hminute'⟩ := hu
  rw [heq] at heq'
  obtain ⟨rfl, -, rfl⟩ :=
    (List.append_cons_inj_of_notMem hhour.notMem_colon hminute.notMem_colon).mp heq'
  obtain ⟨hour, minute, _, _⟩ := t
  obtain ⟨hour', minute', _, _⟩ := u
  obtain rfl : hour = hour' := hhour.unique hhour'
  obtain rfl : minute = minute' := hminute.unique hminute'
  rfl

theorem spells_of_readHour? {text : List Char} {n : Nat} (h : readHour? text = some n) :
    Text.Spells text n := by
  unfold readHour? at h
  split at h
  · exact Text.spells_digit h
  · next first c =>
      split at h
      · next hzero =>
          subst hzero
          have hspells := Text.spells_digits (m := 0) (by decide : Text.digitValue? '0' = _) h
          rwa [Nat.mul_zero, Nat.zero_add] at hspells
      · split at h
        · next hone =>
            subst hone
            obtain ⟨d, hd, rfl⟩ := Option.map_eq_some_iff.mp h
            exact Text.spells_digits (m := 1) (by decide) hd
        · split at h
          · next htwo =>
              obtain ⟨rfl, hlow, hhigh⟩ := htwo
              cases h
              have hdigit := Text.digitValue?_of_ascii hlow (Nat.le_trans hhigh (by decide))
              exact Text.spells_digits (m := 2) (by decide) hdigit
          · cases h
  · cases h

theorem spells_of_readMinute? {text : List Char} {n : Nat} (h : readMinute? text = some n) :
    Text.Spells text n := by
  unfold readMinute? at h
  split at h
  · exact Text.spells_digit h
  · next first c =>
      split at h
      · next hfirst =>
          obtain ⟨d, hd, rfl⟩ := Option.map_eq_some_iff.mp h
          have hdigit := Text.digitValue?_of_ascii hfirst.1 (Nat.le_trans hfirst.2 (by decide))
          exact Text.spells_digits hdigit hd
      · cases h
  · cases h

/-- What the reader finds is what the text spells. -/
theorem spells_of_read? {text : List Char} {t : OfDay} (h : read? text = some t) :
    ∃ hourPart minutePart, text = hourPart ++ ':' :: minutePart ∧
      Text.Spells hourPart t.hour ∧ Text.Spells minutePart t.minute := by
  unfold read? at h
  split at h
  · next hourPart mark minutePart hspan =>
      rw [List.span_eq_takeWhile_dropWhile] at hspan
      obtain ⟨hhourPart, hrest⟩ := Prod.mk.inj hspan
      have hmark : mark = ':' := by
        have hne : text.dropWhile (· != ':') ≠ [] := by
          rw [hrest]
          exact List.cons_ne_nil mark minutePart
        have hhead := List.head_dropWhile_not (· != ':') hne
        simp only [hrest, List.head_cons] at hhead
        exact bne_eq_false_iff_eq.mp hhead
      obtain ⟨hour, hhour, h⟩ := Option.bind_eq_some_iff.mp h
      obtain ⟨minute, hminute, h⟩ := Option.bind_eq_some_iff.mp h
      split at h
      · cases h
        refine ⟨hourPart, minutePart, ?_, spells_of_readHour? hhour, spells_of_readMinute? hminute⟩
        rw [← hmark, ← hrest, ← hhourPart, List.takeWhile_append_dropWhile]
      · cases h
  · cases h

/-- A text in which a time of day is found has no blanks around it. -/
theorem stripped_of_read? {text : List Char} {t : OfDay} (h : read? text = some t) :
    Text.stripped text = text := by
  obtain ⟨hourPart, minutePart, rfl, hhour, hminute⟩ := spells_of_read? h
  refine Text.trimBoth_eq_self fun c hc => ?_
  rcases List.mem_append.mp hc with hc | hc
  · obtain ⟨d, hd⟩ := hhour.digit hc
    exact Text.isBlank_of_digit hd
  · rcases List.mem_cons.mp hc with rfl | hc
    · decide
    · obtain ⟨d, hd⟩ := hminute.digit hc
      exact Text.isBlank_of_digit hd

end Time.OfDay

/-- The time of day that is read from what a caller gives is the one that the caller's text
spells. -/
theorem exists_of_givenTime {v : Value} {t : OfDay} (h : givenTime v = .ok t) :
    ∃ s, v = .text s ∧ t.SpelledBy s := by
  unfold givenTime at h
  split at h
  · next s =>
      split at h
      · next time hread =>
          cases h
          exact ⟨s, rfl, OfDay.spells_of_read? hread⟩
      · cases h
  · cases h

end Bookable
