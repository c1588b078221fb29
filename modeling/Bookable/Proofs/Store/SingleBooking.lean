import Bookable.Proofs.Store.Traffic
import Mathlib.Data.List.Induction

/-!
# One confirmed booking for a start

A transaction that commits compares its new bookings with the committed ones, but
not with each other. Hence records that hold at most one confirmed booking for a
user and a start keep doing so under every move but one: a commit that publishes two
new bookings of the same user and start, both of them still in force. The main
theorem says this of whole runs, in both directions: in every run, each state reached
has at most one confirmed booking for every user and start if and only if no commit
in the run publishes such twins.

The argument looks at two confirmed bookings of one user and start after a commit.
Both are old: they were there before. One is old and one is new: the old one was not
cancelled by the transaction, so the commit met a conflict. Both are new: twins.
-/

namespace Bookable.Store

/-- At most one confirmed booking of a user has a start. -/
def Records.Single (r : Records) : Prop :=
  ∀ user start,
    (r.bookings.filter fun b => b.user == user && b.start == start && b.isConfirmed).length ≤ 1

/-- Two new bookings of one user and start, neither of them cancelled again. -/
def Transaction.Twins (t : Transaction) : Prop :=
  ∃ a ∈ t.newBookings, ∃ b ∈ t.newBookings,
    a.id ≠ b.id ∧ a.user = b.user ∧ a.start = b.start ∧ a.id ∉ t.cancelled ∧ b.id ∉ t.cancelled

/-! ## Identifiers occur once -/

/-- No identifier occurs twice among the bookings on record. -/
def Records.IdsOnce (r : Records) : Prop := (r.bookings.map (·.id)).Nodup

/-- New bookings are confirmed, and no identifier occurs twice among them. -/
def Transaction.NewOnce (t : Transaction) : Prop :=
  (t.newBookings.map (·.id)).Nodup ∧ ∀ b ∈ t.newBookings, b.isConfirmed = true

theorem newOnce_upheld :
    Upheld (fun _ => True) (fun _ => True) Transaction.NewOnce where
  opened := ⟨List.nodup_nil, fun _ hb => by cases hb⟩
  touched _ _ ht := ht
  performed := by
    intro t r request stamp _ _ ht
    rw [Transaction.NewOnce, Transaction.perform_newBookings]
    split
    · next asked =>
        refine ⟨nodup_put ht.1 _, fun b hb => ?_⟩
        rcases mem_of_mem_put hb with rfl | hb
        · rfl
        · exact ht.2 b hb
    · exact ht

/-- Identifiers occur once in the records and among the new bookings of every transaction. -/
def Machine.IdsOnce (m : Machine) : Prop :=
  m.records.IdsOnce ∧ ∀ handle, (m.transaction handle).NewOnce

theorem Traffic.idsOnce_run (moves : List Move) : (run {} moves).machine.IdsOnce := by
  suffices h : ∀ s : Traffic, s.machine.IdsOnce → (s.run moves).machine.IdsOnce from
    h {} ⟨List.nodup_nil, fun _ => newOnce_upheld.touched [] true newOnce_upheld.opened⟩
  induction moves with
  | nil => exact fun _ hs => hs
  | cons move moves ih =>
      intro s hs
      refine ih _ ⟨?_, newOnce_upheld.take hs.2 move⟩
      rcases s.records_take move with h | ⟨handle, -, -, h⟩
      · rw [h]; exact hs.1
      · rw [h]; exact Transaction.nodup_publish hs.1

/-! ## Publishing -/

/-- Where identifiers occur once, there is at most one confirmed booking for a user and a start
as soon as any two of them have the same identifier. -/
theorem Records.single_of_forall {r : Records} (hr : r.IdsOnce)
    (h : ∀ a ∈ r.bookings, ∀ b ∈ r.bookings, a.isConfirmed = true → b.isConfirmed = true →
      a.user = b.user → a.start = b.start → a.id = b.id) : r.Single := by
  intro user start
  have hids : ((r.bookings.filter fun b =>
      b.user == user && b.start == start && b.isConfirmed).map (·.id)).Nodup :=
    hr.sublist (List.filter_sublist.map _)
  match hf : r.bookings.filter fun b => b.user == user && b.start == start && b.isConfirmed with
  | [] => rw [hf]; exact Nat.zero_le 1
  | [_] => rw [hf]; exact Nat.le_refl 1
  | a :: b :: rest =>
      exfalso
      have ha : a ∈ a :: b :: rest := List.mem_cons_self
      have hb : b ∈ a :: b :: rest := List.mem_cons_of_mem a List.mem_cons_self
      rw [← hf, List.mem_filter] at ha hb
      simp only [Bool.and_eq_true, beq_iff_eq] at ha hb
      have hid : a.id = b.id :=
        h a ha.1 b hb.1 ha.2.2 hb.2.2 (ha.2.1.1.trans hb.2.1.1.symm)
          (ha.2.1.2.trans hb.2.1.2.symm)
      rw [hf, List.map_cons, List.nodup_cons] at hids
      exact hids.1 (hid ▸ List.mem_map_of_mem List.mem_cons_self)

theorem Records.Single.id_eq {r : Records} (hr : r.Single) {a b : Booking}
    (ha : a ∈ r.bookings) (hb : b ∈ r.bookings) (hca : a.isConfirmed = true)
    (hcb : b.isConfirmed = true) (huser : a.user = b.user) (hstart : a.start = b.start) :
    a = b := by
  have hlen := hr b.user b.start
  have hma : a ∈ r.bookings.filter fun c =>
      c.user == b.user && c.start == b.start && c.isConfirmed := by
    rw [List.mem_filter]
    simp [ha, huser, hstart, hca]
  have hmb : b ∈ r.bookings.filter fun c =>
      c.user == b.user && c.start == b.start && c.isConfirmed := by
    rw [List.mem_filter]
    simp [hb, hcb]
  match hf : r.bookings.filter fun c =>
      c.user == b.user && c.start == b.start && c.isConfirmed with
  | [] => rw [hf] at hma; cases hma
  | [c] =>
      rw [hf] at hma hmb
      rw [List.mem_singleton.mp hma, List.mem_singleton.mp hmb]
  | _ :: _ :: _ =>
      rw [hf] at hlen
      simp at hlen

/-- A booking in force after a commit was in force before or is new, and the transaction did not
cancel it. -/
theorem Transaction.mem_publish {t : Transaction} {r : Records} {b : Booking}
    (hb : b ∈ (t.publish r).bookings) (hc : b.isConfirmed = true) :
    (b ∈ t.newBookings ∨ b ∈ r.bookings) ∧ b.id ∉ t.cancelled := by
  rw [publish_bookings, List.mem_map] at hb
  obtain ⟨a, ha, rfl⟩ := hb
  obtain ⟨-, hid⟩ := seenBooking_isConfirmed.mp hc
  rw [seenBooking_of_notMem hid]
  exact ⟨mem_of_mem_foldl_put ha, hid⟩

/-- A commit without twins that meets no conflict keeps confirmed bookings apart. -/
theorem Transaction.single_publish {t : Transaction} {r : Records} (hids : r.IdsOnce)
    (hr : r.Single) (hconflict : t.conflicts r = false) (htwins : ¬ t.Twins) :
    (t.publish r).Single := by
  -- An old booking that the transaction leaves in force is apart from every new one.
  have apart := conflicts_eq_false_iff.mp hconflict
  refine Records.single_of_forall (nodup_publish hids) fun a ha b hb hca hcb huser hstart => ?_
  obtain ⟨ha, hida⟩ := mem_publish ha hca
  obtain ⟨hb, hidb⟩ := mem_publish hb hcb
  rcases ha with ha | ha <;> rcases hb with hb | hb
  · exact Classical.byContradiction fun hne =>
      htwins ⟨a, ha, b, hb, hne, huser, hstart, hida, hidb⟩
  · exact absurd (apart a ha b hb hcb huser.symm hstart.symm) hidb
  · exact absurd (apart b hb a ha hca huser hstart) hida
  · rw [hr.id_eq ha hb hca hcb huser hstart]

/-- Twins that are published are both in force. -/
theorem Transaction.not_single_publish {t : Transaction} (ht : t.NewOnce) (htwins : t.Twins)
    (r : Records) : ¬ (t.publish r).Single := by
  obtain ⟨a, ha, b, hb, hne, huser, hstart, hida, hidb⟩ := htwins
  have published : ∀ c ∈ t.newBookings, c.id ∉ t.cancelled → c ∈ (t.publish r).bookings := by
    intro c hc hid
    rw [publish_bookings, List.mem_map]
    exact ⟨c, mem_foldl_put ht.1 hc r.bookings, seenBooking_of_notMem hid⟩
  intro hsingle
  exact hne (congrArg Booking.id (hsingle.id_eq (published a ha hida) (published b hb hidb)
    (ht.2 a ha) (ht.2 b hb) huser hstart))

/-- One move keeps confirmed bookings apart unless it is a commit that publishes twins. -/
theorem Traffic.single_take {s : Traffic} (hids : s.machine.IdsOnce)
    (hs : s.machine.records.Single) {move : Move}
    (htwins : ∀ handle, move = .commit handle → s.machine.publishes handle = true →
      ¬ (s.machine.transaction handle).Twins) :
    (s.take move).machine.records.Single := by
  rcases s.records_take move with h | ⟨handle, hmove, hp, h⟩
  · rw [h]; exact hs
  · rw [h]
    have hconflict : (s.machine.transaction handle).conflicts s.machine.records = false :=
      (Machine.publishes_iff.mp hp).2
    exact Transaction.single_publish hids.1 hs hconflict (htwins handle hmove hp)

/-- In a run from empty records, every state reached has at most one confirmed booking for each
user and start if and only if no commit publishes two new bookings of one user and start that
its transaction has not cancelled itself. -/
theorem single_iff_no_twins (moves : List Move) :
    (∀ past, past <+: moves → (Traffic.run {} past).machine.records.Single) ↔
      ∀ past handle, past ++ [.commit handle] <+: moves →
        (Traffic.run {} past).machine.publishes handle = true →
          ¬ ((Traffic.run {} past).machine.transaction handle).Twins := by
  constructor
  · intro hsingle past handle hprefix hp htwins
    have hlast := hsingle _ hprefix
    rw [Traffic.run_append] at hlast
    change ((Traffic.run {} past).machine.commit handle).2.2.records.Single at hlast
    rw [Machine.records_commit, if_pos hp] at hlast
    exact Transaction.not_single_publish ((Traffic.idsOnce_run past).2 handle) htwins _ hlast
  · intro htwins past
    induction past using List.reverseRecOn with
    | nil => exact fun _ _ _ => Nat.zero_le 1
    | append_singleton past move ih =>
        intro hprefix
        have hpast : past <+: moves := (List.prefix_append past [move]).trans hprefix
        rw [Traffic.run_append]
        refine Traffic.single_take (Traffic.idsOnce_run past) (ih hpast) fun handle hmove => ?_
        subst hmove
        exact htwins past handle hprefix

/-- A request for half an hour from 2024-11-25T09:00:00 on. -/
def halfHour : BookingRequest where
  user := "user-1"
  email := some "c@example.com"
  start := ⟨63868122000000000, by decide⟩
  stop := ⟨63868123800000000, by decide⟩

/-- One transaction that inserts the same request twice commits it twice. -/
theorem twins_committed :
    ¬ (Traffic.run {} [.begin,
        .ask ⟨⟨63867700800000000, by decide⟩, "id-0001"⟩ 0 0 (.insertBooking halfHour),
        .ask ⟨⟨63867700800000000, by decide⟩, "id-0002"⟩ 0 0 (.insertBooking halfHour),
        .commit 0]).machine.records.Single := by
  intro hsingle
  exact absurd (hsingle "user-1" halfHour.start) (by decide +kernel)

end Bookable.Store
