import Bookable.Proofs.Store.Table

/-!
# The order of a column is that of the instants

Two timestamps may be written with different offsets and still name one instant, or fall on
different days and years at the same moment. What a column holds for a timestamp depends on
the instant alone, and it holds the fields of its reading in UTC. So values are the same for
the same instant only, and whether they are compared field by field, or character by
character as texts of one width, they are in the order of the instants. A lookup that
compares the values of a column finds what a comparison of instants finds, and puts it in
the same order.
-/

namespace Bookable.Store

open Time

namespace Column

theorem bound_injective {dialect : Dialect} {i j : Instant} (h : bound dialect i = bound dialect j) :
    i = j := by
  have hcivil : i.civil = j.civil := congrArg Timestamp.reading h
  have hmicros := congrArg Civil.micros hcivil
  rw [Instant.micros_civil, Instant.micros_civil] at hmicros
  exact Instant.eq_of_micros hmicros

/-- The text of a value does not depend on the dialect. -/
theorem fixedText_bound (dialect : Dialect) (i : Instant) :
    fixedText (bound dialect i) = key i := rfl

theorem length_fixedText (b : Bound) : (fixedText b).length = 26 := by
  simp only [fixedText, List.length_append, List.length_cons, length_dateDigits,
    Text.length_paddedDigits]

/-- A timestamp is bound and loaded as the instant that it names, in either dialect. Values are the
same exactly if the instants are, and their fields and their texts, which have one width, are in the
order of the instants. Listings and lookups by these texts are those by instants. -/
theorem column_follows_instants {t u : Timestamp} {i j : Instant} (ht : t.Names i)
    (hu : u.Names j) (dialect : Dialect) :
    (∀ preference, t.instant .utc preference = .ok i) ∧
    (∃ b c, bind dialect t = .ok b ∧ bind dialect u = .ok c ∧ load b = .ok i ∧
      (b = c ↔ i = j) ∧ b.offset = c.offset ∧ (b.reading.Before c.reading ↔ i < j) ∧
      fixedText b = key i ∧ (fixedText b).length = 26 ∧
      (fixedText b = fixedText c ↔ i = j) ∧
      (precedes (fixedText b) (fixedText c) = true ↔ i < j)) ∧
    ∀ (r : Records) (user : String),
      (∀ range, Table.bookingsOf r user range = r.bookingsOf user range) ∧
      (∀ start stop, Table.confirmedWithin r user start stop = r.confirmedWithin user start stop) ∧
      ∀ start, Table.confirmedAt r user start = r.confirmedAt user start := by
  refine ⟨Timestamp.instant_of_names ht,
    ⟨bound dialect i, bound dialect j, bind_eq ht dialect, bind_eq hu dialect,
      load_bound dialect i, ⟨bound_injective, congrArg _⟩, rfl, Instant.civil_before_iff,
      fixedText_bound dialect i, length_fixedText _, ?_, ?_⟩, fun r user => ?_⟩
  · rw [fixedText_bound, fixedText_bound]
    exact ⟨key_injective, congrArg key⟩
  · rw [fixedText_bound, fixedText_bound, precedes_key, decide_eq_true_eq]
  · exact ⟨Table.bookingsOf_eq r user, Table.confirmedWithin_eq r user,
      Table.confirmedAt_eq r user⟩

/-- A local time of the last day of a year, with an offset that has seconds, and a time without an
offset on the first day of the next year name one instant. -/
theorem new_year_bound_once :
    let t : Timestamp := { reading := ⟨⟨2024, 12, 31⟩, 23, 30, 0, 7⟩, offset := some (-720),
                           offsetSeconds := -30 }
    let u : Timestamp := { reading := ⟨⟨2025, 1, 1⟩, 11, 30, 30, 7⟩ }
    ∃ i : Instant, t.Names i ∧ u.Names i ∧
      ∃ b, bind .plain t = .ok b ∧ bind .plain u = .ok b ∧ load b = .ok i := by
  intro t u
  have ht : t.Names ⟨63871327830000007, by decide⟩ := by decide +kernel
  have hu : u.Names ⟨63871327830000007, by decide⟩ := by decide +kernel
  obtain ⟨-, ⟨b, c, hb, hc, hload, heq, -⟩, -⟩ := column_follows_instants ht hu .plain
  obtain rfl := heq.mpr rfl
  exact ⟨_, ht, hu, b, hb, hc, hload⟩

end Column

end Bookable.Store
