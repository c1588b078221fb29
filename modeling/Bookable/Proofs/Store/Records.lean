import Bookable.Store.Transaction
import Mathlib.Data.List.Nodup

/-!
# What writing does to records

Records are kept by key: `put` replaces the record of a key in its place or adds a
new one at the end, so a list in which no key occurs twice stays such a list. A
whole transaction is published by one `put` for each of its new bookings and one
`cancelOne` for each of its cancellations, and the cancellations together do what
`Transaction.seenBooking` does to each booking. What a published list can hold is
therefore said by two lemmas: every booking comes from the record or from the
transaction, and nothing that the transaction added is lost.
-/

namespace Bookable.Store

variable {α κ : Type} [DecidableEq κ] {key : α → κ}

theorem mem_put_self (a : α) (l : List α) : a ∈ put key a l := by
  induction l with
  | nil => exact List.mem_singleton_self a
  | cons b rest ih =>
      rw [put]
      split
      · exact List.mem_cons_self
      · exact List.mem_cons_of_mem b ih

theorem mem_of_mem_put {a b : α} {l : List α} (h : b ∈ put key a l) : b = a ∨ b ∈ l := by
  induction l with
  | nil => exact Or.inl (List.mem_singleton.mp h)
  | cons c rest ih =>
      rw [put] at h
      split at h
      · rcases List.mem_cons.mp h with rfl | hb
        · exact Or.inl rfl
        · exact Or.inr (List.mem_cons_of_mem c hb)
      · rcases List.mem_cons.mp h with rfl | hb
        · exact Or.inr List.mem_cons_self
        · exact (ih hb).imp_right (List.mem_cons_of_mem c)

theorem mem_put_of_ne {a b : α} {l : List α} (h : b ∈ l) (hne : key b ≠ key a) :
    b ∈ put key a l := by
  induction l with
  | nil => cases h
  | cons c rest ih =>
      rw [put]
      split
      · next hc =>
          rcases List.mem_cons.mp h with rfl | hb
          · exact absurd hc hne
          · exact List.mem_cons_of_mem a hb
      · next hc =>
          rcases List.mem_cons.mp h with rfl | hb
          · exact List.mem_cons_self
          · exact List.mem_cons_of_mem c (ih hb)

theorem put_of_fresh {a : α} {l : List α} (h : ∀ b ∈ l, key b ≠ key a) :
    put key a l = l ++ [a] := by
  induction l with
  | nil => rfl
  | cons b rest ih =>
      rw [put, if_neg (h b List.mem_cons_self), ih fun c hc => h c (List.mem_cons_of_mem b hc)]
      rfl

/-- A cancellation in bookings the last of which has an identifier of its own. -/
theorem cancelOne_append {b : Booking} {bookings : List Booking}
    (h : ∀ c ∈ bookings, c.id ≠ b.id) :
    cancelOne b.id (bookings ++ [b]) = bookings ++ [{ b with status := .cancelled }] := by
  have hsame : bookings.map (fun c => if c.id = b.id then { c with status := .cancelled } else c) =
      bookings :=
    (List.map_congr_left fun c hc => if_neg (h c hc)).trans (List.map_id' bookings)
  rw [cancelOne, List.map_append, hsame, List.map_singleton, if_pos rfl]

/-- The keys after a `put`: the same, or one more at the end. -/
theorem map_put (a : α) (l : List α) :
    (put key a l).map key = if key a ∈ l.map key then l.map key else l.map key ++ [key a] := by
  induction l with
  | nil => rfl
  | cons b rest ih =>
      rw [put]
      split
      · next hb => simp [hb]
      · next hb =>
          rw [List.map_cons, List.map_cons, ih]
          by_cases hr : key a ∈ rest.map key
          · rw [if_pos hr, if_pos (List.mem_cons_of_mem _ hr)]
          · rw [if_neg hr, if_neg (by simpa [Ne.symm hb] using hr)]
            rfl

theorem nodup_put {l : List α} (h : (l.map key).Nodup) (a : α) :
    ((put key a l).map key).Nodup := by
  rw [map_put]
  split
  · exact h
  · next ha =>
      rw [← List.concat_eq_append]
      exact h.concat ha

/-! ## Several records one after the other -/

theorem mem_of_mem_foldl_put {news l : List α} {b : α}
    (h : b ∈ news.foldl (fun l a => put key a l) l) : b ∈ news ∨ b ∈ l := by
  induction news generalizing l with
  | nil => exact Or.inr h
  | cons a news ih =>
      rcases ih h with hb | hb
      · exact Or.inl (List.mem_cons_of_mem a hb)
      · rcases mem_of_mem_put hb with rfl | hb
        · exact Or.inl List.mem_cons_self
        · exact Or.inr hb

theorem nodup_foldl_put {news l : List α} (h : (l.map key).Nodup) :
    ((news.foldl (fun l a => put key a l) l).map key).Nodup := by
  induction news generalizing l with
  | nil => exact h
  | cons a news ih => exact ih (nodup_put h a)

theorem mem_foldl_put_of_mem {news l : List α} {b : α} (h : b ∈ l)
    (hne : ∀ a ∈ news, key b ≠ key a) : b ∈ news.foldl (fun l a => put key a l) l := by
  induction news generalizing l with
  | nil => exact h
  | cons a news ih =>
      exact ih (mem_put_of_ne h (hne a List.mem_cons_self))
        (fun c hc => hne c (List.mem_cons_of_mem a hc))

/-- A record that is put stays, as long as no later one has its key. -/
theorem mem_foldl_put {news : List α} (hnews : (news.map key).Nodup) {b : α} (hb : b ∈ news)
    (l : List α) : b ∈ news.foldl (fun l a => put key a l) l := by
  induction news generalizing l with
  | nil => cases hb
  | cons a news ih =>
      rw [List.map_cons, List.nodup_cons] at hnews
      rcases List.mem_cons.mp hb with rfl | hb
      · rw [List.foldl_cons]
        refine mem_foldl_put_of_mem (mem_put_self b l) fun c hc heq => ?_
        exact hnews.1 (heq ▸ List.mem_map_of_mem hc)
      · exact ih hnews.2 hb _

/-! ## Lookups and cancellations -/

theorem Records.confirmedAt_eq_none {r : Records} {user : String} {start : Time.Instant} :
    r.confirmedAt user start = none ↔
      ∀ b ∈ r.bookings, b.isConfirmed = true → b.user = user → b.start ≠ start := by
  rw [confirmedAt, Option.map_eq_none_iff, List.find?_eq_none]
  constructor
  · intro h b hb hconfirmed huser hstart
    exact h b hb (by simp [hconfirmed, huser, hstart])
  · intro h b hb hmatch
    simp only [Bool.and_eq_true, beq_iff_eq] at hmatch
    exact h b hb hmatch.1.2 hmatch.1.1 hmatch.2

theorem foldl_cancelOne (ids : List String) (bookings : List Booking) :
    ids.foldl (fun bookings id => cancelOne id bookings) bookings =
      bookings.map fun b => if b.id ∈ ids then { b with status := .cancelled } else b := by
  induction ids generalizing bookings with
  | nil => simp
  | cons id ids ih =>
      rw [List.foldl_cons, ih, cancelOne, List.map_map]
      refine List.map_congr_left fun b _ => ?_
      by_cases hid : b.id = id
      · simp [hid]
      · simp [hid]

namespace Transaction

@[simp] theorem seenBooking_id (t : Transaction) (b : Booking) : (t.seenBooking b).id = b.id := by
  rw [seenBooking]
  split <;> rfl

theorem seenBooking_of_notMem {t : Transaction} {b : Booking} (h : b.id ∉ t.cancelled) :
    t.seenBooking b = b :=
  if_neg h

/-- A booking that a transaction sees confirmed is confirmed, and not cancelled by it. -/
theorem seenBooking_isConfirmed {t : Transaction} {b : Booking} :
    (t.seenBooking b).isConfirmed = true ↔ b.isConfirmed = true ∧ b.id ∉ t.cancelled := by
  rw [seenBooking]
  by_cases h : b.id ∈ t.cancelled
  · simp [h, Booking.isConfirmed]
  · simp [h]

/-- A transaction that has written nothing sees the records as they are. -/
theorem view_blank (held : List Key) (r : Records) :
    ({ held } : Transaction).view r = r := by
  have hrules : r.rules.map ({ held } : Transaction).seenRule = r.rules := by
    conv_rhs => rw [← List.map_id r.rules]
    exact List.map_congr_left fun rule _ => rfl
  have hbookings : r.bookings.map ({ held } : Transaction).seenBooking = r.bookings := by
    conv_rhs => rw [← List.map_id r.bookings]
    exact List.map_congr_left fun b _ => seenBooking_of_notMem List.not_mem_nil
  rw [Transaction.view, List.append_nil, List.append_nil, hrules, hbookings]

theorem conflicts_eq_false_iff {t : Transaction} {r : Records} : t.conflicts r = false ↔
    ∀ new ∈ t.newBookings, ∀ old ∈ r.bookings, old.isConfirmed = true → old.user = new.user →
      old.start = new.start → old.id ∈ t.cancelled := by
  rw [conflicts, List.any_eq_false]
  refine forall_congr' fun new => forall_congr' fun _ => ?_
  rw [Bool.not_eq_true, List.any_eq_false]
  refine forall_congr' fun old => forall_congr' fun _ => ?_
  simp only [Bool.and_eq_true, beq_iff_eq, decide_eq_true_eq, not_and, not_not, and_imp]

/-- The published bookings are the committed and the new ones, each as the transaction sees
it. -/
theorem publish_bookings (t : Transaction) (r : Records) :
    (t.publish r).bookings =
      (t.newBookings.foldl (fun bookings b => put Booking.id b bookings) r.bookings).map
        t.seenBooking :=
  foldl_cancelOne _ _

theorem nodup_publish {t : Transaction} {r : Records} (h : (r.bookings.map (·.id)).Nodup) :
    ((t.publish r).bookings.map (·.id)).Nodup := by
  rw [publish_bookings, List.map_map]
  have hid : (fun b : Booking => b.id) ∘ t.seenBooking = fun b => b.id :=
    funext fun b => seenBooking_id t b
  rw [hid]
  exact nodup_foldl_put h

end Transaction

end Bookable.Store
