import Bookable.Proofs.Results
import Bookable.Proofs.Time.Calendar
import Bookable.Proofs.Time.OfDay
import Bookable.Store.Column

/-!
# Columns give instants back and keep them in order

A column takes a timestamp apart into the fields of its reading in UTC. The fields
determine the instant, so a column gives every instant back. Each field has a width that
it never exceeds and is filled with zeros, and the wider units come first. So the first
character in which two of the texts differ stands in the first field in which the
readings differ, and the texts are in the order of the instants.
-/

namespace Bookable

namespace Time

/-- A timestamp names an instant, which is its reading less what that is ahead of UTC. Without an
offset the reading is that of UTC. -/
def Timestamp.Names (t : Timestamp) (i : Instant) : Prop :=
  (i.micros : Int) = t.reading.micros - t.ahead?.getD 0

instance (t : Timestamp) (i : Instant) : Decidable (t.Names i) := by
  unfold Timestamp.Names; infer_instance

/-- With and without an offset, and whichever way a reading that occurs twice would be taken. -/
theorem Timestamp.instant_of_names {t : Timestamp} {i : Instant} (h : t.Names i)
    (preference : Preference) : t.instant .utc preference = .ok i := by
  rw [Timestamp.Names] at h
  rw [Timestamp.instant]
  cases hahead : t.ahead? with
  | none =>
      rw [hahead, Option.getD_none, Int.sub_zero] at h
      show inCalendar (Instant.ofMicros? (t.reading.micros - 0 * minute)) = .ok i
      rw [Int.zero_mul, Int.sub_zero, ← h, Instant.ofMicros?_micros]
      rfl
  | some ahead =>
      rw [hahead, Option.getD_some] at h
      simp only []
      rw [← h, Instant.ofMicros?_micros]
      rfl

end Time

namespace Store

open Time

/-! ## Instants through a column -/

namespace Column

/-- What a column holds for an instant. -/
def bound (dialect : Dialect) (i : Instant) : Bound where
  reading := i.civil
  offset := match dialect with
    | .plain => none
    | .marked => some 0

theorem bound_names (dialect : Dialect) (i : Instant) : (bound dialect i).Names i := by
  rw [Timestamp.Names, show (bound dialect i).reading = i.civil from rfl, Instant.micros_civil]
  cases dialect <;> simp [bound, Timestamp.ahead?]

theorem bind_eq {t : Timestamp} {i : Instant} (h : t.Names i) (dialect : Dialect) :
    bind dialect t = .ok (bound dialect i) := by
  rw [bind.eq_def, Timestamp.instant_of_names h]
  rfl

theorem load_bound (dialect : Dialect) (i : Instant) : load (bound dialect i) = .ok i :=
  Timestamp.instant_of_names (bound_names dialect i) .afterChange

theorem kept_eq (t : Instant) : kept t = .ok t := by
  have hnames : t.timestamp.Names t := bound_names .marked t
  rw [kept, bind_eq hnames, ok_bind, load_bound]

/-! ## The order of texts -/

theorem precedes_cons (c : Char) (a b : List Char) :
    precedes (c :: a) (c :: b) = precedes a b := by
  simp [precedes, List.lex]

theorem precedes_append (front a b : List Char) :
    precedes (front ++ a) (front ++ b) = precedes a b := by
  induction front with
  | nil => rfl
  | cons c front ih => rw [List.cons_append, List.cons_append, precedes_cons, ih]

theorem precedes_self (a : List Char) : precedes a a = false := by
  induction a with
  | nil => rfl
  | cons c a ih => rw [precedes_cons, ih]

/-- Texts of one length differ before whatever follows them. -/
theorem precedes_append_of_precedes {a b : List Char} (hlength : a.length = b.length)
    (h : precedes a b = true) (s t : List Char) : precedes (a ++ s) (b ++ t) = true := by
  induction a generalizing b with
  | nil =>
      cases b with
      | nil => cases h
      | cons d b => cases hlength
  | cons c a ih =>
      cases b with
      | nil => cases hlength
      | cons d b =>
          simp only [precedes, List.lex, List.cons_append, Bool.or_eq_true,
            Bool.and_eq_true] at h ⊢
          exact h.imp_right (And.imp_right (ih (Nat.succ.inj hlength)))

theorem precedes_asymm {a b : List Char} (h : precedes a b = true) : precedes b a = false := by
  induction a generalizing b with
  | nil =>
      cases b with
      | nil => rfl
      | cons d b => rfl
  | cons c a ih =>
      cases b with
      | nil => cases h
      | cons d b =>
          simp only [precedes, List.lex, Bool.or_eq_true, Bool.and_eq_true, decide_eq_true_eq,
            beq_iff_eq, Bool.or_eq_false_iff, Bool.and_eq_false_iff, decide_eq_false_iff_not,
            beq_eq_false_iff_ne] at h ⊢
          rcases h with h | ⟨rfl, h⟩
          · exact ⟨Nat.lt_asymm h, Or.inl fun heq => Nat.lt_irrefl _ (heq ▸ h)⟩
          · exact ⟨Nat.lt_irrefl _, Or.inr (ih h)⟩

theorem toNat_digit {d : Nat} (hd : d < 10) : (Char.ofNat (0x30 + d)).toNat = 0x30 + d := by
  revert d
  decide

theorem precedes_paddedDigits {width m n : Nat} (h : m < n) (hn : n < 10 ^ width) :
    precedes (Text.paddedDigits width m) (Text.paddedDigits width n) = true := by
  induction width generalizing m n with
  | zero => omega
  | succ width ih =>
      rw [Text.paddedDigits, Text.paddedDigits]
      have hn' : n / 10 < 10 ^ width := Nat.div_lt_of_lt_mul (by rwa [Nat.pow_succ'] at hn)
      -- The last digit decides only if those before it are the same.
      rcases Nat.lt_or_eq_of_le (Nat.div_le_div_right (c := 10) (Nat.le_of_lt h)) with hlt | heq
      · refine precedes_append_of_precedes ?_ (ih hlt hn') _ _
        rw [Text.length_paddedDigits, Text.length_paddedDigits]
      · rw [heq, precedes_append]
        have hlast : m % 10 < n % 10 := by omega
        simp only [precedes, List.lex, Bool.and_false, Bool.or_false, decide_eq_true_eq]
        rw [toNat_digit (Nat.mod_lt m (by decide)), toNat_digit (Nat.mod_lt n (by decide))]
        omega

/-- A field of a fixed width decides, or if it is the same what comes after it. -/
theorem precedes_field {width m n : Nat} {s t : List Char} (hn : n < 10 ^ width)
    (h : m < n ∨ m = n ∧ precedes s t = true) :
    precedes (Text.paddedDigits width m ++ s) (Text.paddedDigits width n ++ t) = true := by
  rcases h with h | ⟨rfl, h⟩
  · refine precedes_append_of_precedes ?_ (precedes_paddedDigits h hn) s t
    rw [Text.length_paddedDigits, Text.length_paddedDigits]
  · rw [precedes_append, h]

/-! ## The order of keys -/

theorem length_dateDigits (c : Civil) : c.dateDigits.length = 10 := by
  simp only [Civil.dateDigits, List.length_append, List.length_cons, Text.length_paddedDigits]

theorem precedes_dateDigits {a b : Civil} (hb : b.date.Valid) (h : a.date.Before b.date) :
    precedes a.dateDigits b.dateDigits = true := by
  obtain ⟨-, hyear, -, hmonth, -, hday⟩ := hb
  have hday := Nat.le_trans hday (daysInMonth_le _ _)
  simp only [Civil.dateDigits, List.append_assoc, List.cons_append]
  refine precedes_field (by omega) (h.imp_right (And.imp_right fun h => ?_))
  rw [precedes_cons]
  refine precedes_field (by omega) (h.imp_right (And.imp_right fun h => ?_))
  rw [precedes_cons]
  exact precedes_paddedDigits h (by omega)

theorem precedes_fixedText {a b : Civil} (hb : b.Valid) (h : a.Before b) :
    precedes (fixedText { reading := a }) (fixedText { reading := b }) = true := by
  obtain ⟨hdate, hhour, hminute, hsecond, hmicro⟩ := hb
  simp only [fixedText, List.append_assoc, List.cons_append]
  rcases h with h | ⟨hsame, h⟩
  · refine precedes_append_of_precedes ?_ (precedes_dateDigits hdate h) _ _
    rw [length_dateDigits, length_dateDigits]
  · have hdigits : a.dateDigits = b.dateDigits := by
      rw [Civil.dateDigits, Civil.dateDigits, hsame]
    rw [hdigits, precedes_append, precedes_cons]
    refine precedes_field (by omega) (h.imp_right (And.imp_right fun h => ?_))
    rw [precedes_cons]
    refine precedes_field (by omega) (h.imp_right (And.imp_right fun h => ?_))
    rw [precedes_cons]
    refine precedes_field (by omega) (h.imp_right (And.imp_right fun h => ?_))
    rw [precedes_cons]
    exact precedes_paddedDigits h (by omega)

theorem precedes_key_of_lt {a b : Instant} (h : a < b) : precedes (key a) (key b) = true :=
  precedes_fixedText (Civil.valid_ofMicros b.lt_horizon) (Civil.before_of_lt h)

/-- The texts of a column are in the order of the instants. -/
theorem precedes_key (a b : Instant) : precedes (key a) (key b) = decide (a < b) := by
  rcases Nat.lt_trichotomy a.micros b.micros with h | h | h
  · rw [precedes_key_of_lt h, decide_eq_true (show a < b from h)]
  · have hsame : a = b := Instant.eq_of_micros h
    rw [hsame, precedes_self, decide_eq_false (show ¬ b < b from Nat.lt_irrefl _)]
  · rw [precedes_asymm (precedes_key_of_lt h),
      decide_eq_false (show ¬ a < b from Nat.lt_asymm h)]

theorem key_injective {a b : Instant} (h : key a = key b) : a = b := by
  have hab := precedes_key a b
  have hba := precedes_key b a
  rw [h, precedes_self] at hab hba
  have hle := of_decide_eq_false hab.symm
  have hge := of_decide_eq_false hba.symm
  exact Instant.eq_of_micros (Nat.le_antisymm (Nat.not_lt.mp hge) (Nat.not_lt.mp hle))

theorem key_beq (a b : Instant) : (key a == key b) = (a == b) := by
  rw [Bool.eq_iff_iff, beq_iff_eq, beq_iff_eq]
  exact ⟨key_injective, congrArg key⟩

end Column

end Store

end Bookable
