import Bookable.Proofs.Store.Drawn
import Bookable.Proofs.Store.SingleBooking

/-!
# Records only grow

What has been committed stays on record, in its place. A booking may be cancelled later
and is otherwise never changed; a rule may be changed, but it keeps its identifier and
its user. New records come after all old ones. Since the rules that a transaction sees
are those on record, each in its place, followed by its own, this order is also the
order of every listing of rules.

Only a commit has to be looked at, and it publishes the view of its transaction as long
as identifiers are drawn once: the view replaces rules and cancels bookings in their
places. What could go wrong is that a change meets the rule of somebody else under the
same identifier, which `Transaction.Changes` excludes.
-/

namespace Bookable

/-- What can become of a booking on record: nothing but that it is cancelled. -/
def Booking.Becomes (b b' : Booking) : Prop := b' = b ∨ b' = { b with status := .cancelled }

theorem Booking.Becomes.trans {a b c : Booking} (hab : a.Becomes b) (hbc : b.Becomes c) :
    a.Becomes c := by
  rcases hab with rfl | rfl
  · exact hbc
  · rcases hbc with rfl | rfl
    · exact Or.inr rfl
    · exact Or.inr rfl

/-- What a rule keeps for good. -/
def Rule.identity (rule : Rule) : Option String × String := (rule.id, rule.user)

namespace Store

/-- Later records have all rules and bookings of earlier ones in the same places, rules with the
identifiers and users that they had, and bookings as they were or cancelled. -/
structure Records.Grows (r r' : Records) : Prop where
  rules : r.rules.map Rule.identity <+: r'.rules.map Rule.identity
  bookings : ∀ (i : Nat) (b : Booking), r.bookings[i]? = some b →
    ∃ b', r'.bookings[i]? = some b' ∧ b.Becomes b'

namespace Records.Grows

variable {r₁ r₂ r₃ : Records}

theorem refl (r : Records) : r.Grows r where
  rules := List.prefix_refl _
  bookings _ b hb := ⟨b, hb, Or.inl rfl⟩

theorem trans (h : r₁.Grows r₂) (h' : r₂.Grows r₃) : r₁.Grows r₃ where
  rules := h.rules.trans h'.rules
  bookings i a ha := by
    obtain ⟨b, hb, hab⟩ := h.bookings i a ha
    obtain ⟨c, hc, hbc⟩ := h'.bookings i b hb
    exact ⟨c, hc, hab.trans hbc⟩

end Records.Grows

/-! ## The rules of a user -/

/-- The identifiers of the rules of a user can be read off the identities of all rules. -/
theorem Records.ids_rulesOf (r : Records) (user : String) :
    (r.rulesOf user).map Rule.id =
      ((r.rules.map Rule.identity).filter fun identity => identity.2 == user).map (·.1) := by
  rw [List.filter_map, List.map_map]
  rfl

theorem Records.Grows.rulesOf {r r' : Records} (h : r.Grows r') (user : String) :
    (r.rulesOf user).map Rule.id <+: (r'.rulesOf user).map Rule.id := by
  rw [ids_rulesOf, ids_rulesOf]
  exact (h.rules.filter _).map _

/-! ## Views and runs -/

namespace Transaction

variable {t : Transaction} {r : Records}

theorem seenBooking_becomes (t : Transaction) (b : Booking) : b.Becomes (t.seenBooking b) := by
  rw [seenBooking]
  split
  · exact Or.inr rfl
  · exact Or.inl rfl

/-- What a transaction sees is what is on record, and more. -/
theorem Changes.grows_view (h : t.Changes r) (hr : (r.rules.map Rule.id).Nodup) :
    r.Grows (t.view r) where
  rules := by
    have hseen : (r.rules.map t.seenRule).map Rule.identity = r.rules.map Rule.identity := by
      rw [List.map_map]
      refine List.map_congr_left fun rule hrule => ?_
      exact Prod.ext (seenRule_id rule) (h.seenRule_user hr hrule)
    rw [view, List.map_append, hseen]
    exact List.prefix_append _ _
  bookings i b hb := by
    refine ⟨t.seenBooking b, ?_, t.seenBooking_becomes b⟩
    obtain ⟨hi, -⟩ := List.getElem?_eq_some_iff.mp hb
    show ((r.bookings ++ t.newBookings).map t.seenBooking)[i]? = _
    rw [List.getElem?_map, List.getElem?_append_left hi, hb]
    rfl

end Transaction

namespace Traffic

theorem grows_take {names : List String} {s : Traffic} (h : s.machine.Accounted names)
    (move : Move) : s.machine.records.Grows (s.take move).machine.records := by
  rcases s.records_take move with hsame | ⟨handle, -, hpublishes, hpublished⟩
  · rw [hsame]
    exact .refl _
  · rw [hpublished, h.publish_eq_view (Machine.publishes_iff.mp hpublishes).1]
    exact (h.changes handle).grows_view h.rules.recorded_once

theorem grows_run {past future : List Move} (h : (drawn (past ++ future)).Nodup) :
    (run {} past).machine.records.Grows (run {} (past ++ future)).machine.records := by
  induction future using List.reverseRecOn with
  | nil =>
      rw [List.append_nil]
      exact .refl _
  | append_singleton before move ih =>
      rw [← List.append_assoc] at h ⊢
      rw [drawn_append] at h
      have hdrawn := (List.nodup_append.mp h).1
      rw [run_append]
      exact (ih hdrawn).trans (grows_take (accounted_run hdrawn) move)

end Traffic

/-- In every run in which no identifier is drawn twice, the records of an earlier state are still
there in every later one: each booking in its place, as it was or cancelled, and each rule in
its place with its identifier and its user. Whoever lists the rules of a user later finds those
that were on record first, in their order. -/
theorem history_is_kept (past future : List Move) (h : (drawn (past ++ future)).Nodup) :
    let r := (Traffic.run {} past).machine.records
    let m' := (Traffic.run {} (past ++ future)).machine
    r.Grows m'.records ∧ m'.records.Distinct ∧ ∀ user handle,
      (r.rulesOf user).map Rule.id <+:
        (((m'.transaction handle).view m'.records).rulesOf user).map Rule.id := by
  have haccounted := Traffic.accounted_run h
  have hgrows := Traffic.grows_run h
  refine ⟨hgrows, haccounted.distinct, fun user handle => ?_⟩
  have hview := (haccounted.changes handle).grows_view haccounted.rules.recorded_once
  exact (hgrows.trans hview).rulesOf user

/-- A rule for the Mondays of the user who books `halfHour`. -/
def mondays : Rule where
  user := "user-1"
  dayOfWeek := .int 1
  startTime := .text "09:00"
  endTime := .text "10:00"
  slotLength := .int 30

/-- A rule and a booking are committed. -/
def setUp : List Move :=
  [.begin,
    .ask ⟨⟨63867700800000000, by decide⟩, "id-0001"⟩ 0 0 (.insertRule mondays),
    .ask ⟨⟨63867700800000000, by decide⟩, "id-0002"⟩ 0 0 (.insertBooking halfHour),
    .commit 0]

/-- Then the rule is changed, another one is added, and the booking is cancelled. -/
def overhaul : List Move :=
  [.begin,
    .ask ⟨⟨63867700800000000, by decide⟩, "id-0003"⟩ 0 1 (.insertRule mondays),
    .ask ⟨⟨63867700800000000, by decide⟩, "id-0004"⟩ 0 1
      (.updateRule { mondays with id := some "id-0001", title := .text "early" }),
    .ask ⟨⟨63867700800000000, by decide⟩, "id-0004"⟩ 0 1 (.cancelBooking "id-0002"),
    .commit 1]

theorem history_of_overhaul :
    let r := (Traffic.run {} setUp).machine.records
    let r' := (Traffic.run {} (setUp ++ overhaul)).machine.records
    r.Grows r' ∧ r.bookings.map (·.status) = [.confirmed] ∧
      r'.bookings.map (·.status) = [.cancelled] ∧
      (r.rulesOf "user-1").map Rule.id = [some "id-0001"] ∧
      (r'.rulesOf "user-1").map Rule.id = [some "id-0001", some "id-0003"] :=
  ⟨(history_is_kept setUp overhaul (by decide +kernel)).1, by decide +kernel⟩

end Store

end Bookable
