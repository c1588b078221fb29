import Bookable.Proofs.Store.Drawn
import Mathlib.Data.List.Find

/-!
# Whose requests, keys and writes

A request is made for a user, and so are the key that it needs and what it writes. Only
a status and a cancellation name a booking instead; they are for the owner of the
booking, who is given from outside and has to be the user under whom the booking is on
record. A transaction that makes requests for one user only is then a matter of that
user's alone. It sees of the user's part of the records what it sees of all of them, it
meets the same conflicts there, and what it publishes leaves the parts of all others as
they were.

Most requests look for a user anyway, and there is nothing to show but that one filter
may come before another. The exceptions are those that go by an identifier: the status
of a booking, and a change of a rule, which is published by identifier alone. What keeps
them apart is that identifiers occur once.
-/

namespace Bookable

/-- The user for whom a request is made, if bookings have certain owners. -/
def Request.user (owner : String → String) : Request → String
  | .insertRule rule | .updateRule rule => rule.user
  | .findRule user _ | .rulesOf user | .bookingsOf user _ => user
  | .confirmedWithin user _ _ | .confirmedAt user _ _ => user
  | .insertBooking request => request.user
  | .statusOf id | .cancelBooking id => owner id

namespace Store

open Time

/-- The user to whom a key belongs. -/
def Key.user (owner : String → String) : Key → String
  | .start user _ => user
  | .booking id => owner id

section Owners

variable {owner : String → String} {user other : String}

theorem user_keyOf? {request : Request} {key : Key} (h : keyOf? request = some key) :
    key.user owner = request.user owner := by
  cases request with
  | confirmedAt user start lock =>
      cases lock with
      | true =>
          cases h
          rfl
      | false => cases h
  | cancelBooking id =>
      cases h
      rfl
  | _ => cases h

/-- Bookings are on record for their owners. -/
def Records.Owned (owner : String → String) (r : Records) : Prop :=
  ∀ b ∈ r.bookings, owner b.id = b.user

namespace Records

/-- The rules and the bookings of a user. -/
def part (r : Records) (user : String) : Records where
  rules := r.rulesOf user
  bookings := r.bookings.filter (·.user == user)

theorem mem_part_bookings {r : Records} {b : Booking} :
    b ∈ (r.part user).bookings ↔ b ∈ r.bookings ∧ b.user = user := by
  rw [part, List.mem_filter, beq_iff_eq]

theorem mem_part_rules {r : Records} {rule : Rule} :
    rule ∈ (r.part user).rules ↔ rule ∈ r.rules ∧ rule.user = user := by
  show rule ∈ r.rules.filter (·.user == user) ↔ _
  rw [List.mem_filter, beq_iff_eq]

/-- Bookings whose identifiers are distinct have owners. -/
theorem Distinct.exists_owner {r : Records} (h : r.Distinct) : ∃ owner, r.Owned owner := by
  refine ⟨fun id => ((r.bookings.find? (·.id == id)).map (·.user)).getD "", fun b hb => ?_⟩
  cases hfound : r.bookings.find? (·.id == b.id) with
  | none => exact absurd (beq_self_eq_true b.id) (List.find?_eq_none.mp hfound b hb)
  | some found =>
      have hid : found.id = b.id := eq_of_beq (List.find?_some hfound :)
      rw [List.inj_on_of_nodup_map h.bookings (List.mem_of_find?_eq_some hfound) hb hid] at hfound
      simp only [hfound, Option.map_some, Option.getD_some]

theorem Distinct.part {r : Records} (h : r.Distinct) (user : String) : (r.part user).Distinct :=
  ⟨h.rules.sublist (List.filter_sublist.map _), h.bookings.sublist (List.filter_sublist.map _)⟩

/-! ## Looking for a user in the user's part -/

section Lookup

variable (r : Records)

theorem rulesOf_part : (r.part user).rulesOf user = r.rulesOf user := by
  show (r.rules.filter _).filter _ = r.rules.filter _
  rw [List.filter_filter]
  simp only [Bool.and_self]

theorem findRule_part (id : String) : (r.part user).findRule user id = r.findRule user id := by
  show (r.rules.filter _).find? _ = r.rules.find? _
  rw [List.find?_filter]
  refine congrArg (List.find? · r.rules) (funext fun rule => ?_)
  cases huser : rule.user == user <;> cases rule.id == some id <;> rfl

theorem filter_part (q : Booking → Bool) :
    (r.part user).bookings.filter (fun b => b.user == user && q b) =
      r.bookings.filter fun b => b.user == user && q b := by
  show (r.bookings.filter _).filter _ = _
  rw [List.filter_filter]
  refine congrArg (List.filter · r.bookings) (funext fun b => ?_)
  cases b.user == user <;> cases q b <;> rfl

theorem bookingsOf_part (range : Option (Instant × Instant)) :
    (r.part user).bookingsOf user range = r.bookingsOf user range := by
  unfold bookingsOf
  rw [filter_part]

theorem confirmedWithin_part (start stop : Instant) :
    (r.part user).confirmedWithin user start stop = r.confirmedWithin user start stop := by
  rw [confirmedWithin, confirmedWithin]
  simp only [Bool.and_assoc]
  exact r.filter_part _

theorem confirmedAt_part (start : Instant) :
    (r.part user).confirmedAt user start = r.confirmedAt user start := by
  rw [confirmedAt, confirmedAt]
  show ((r.bookings.filter _).find? _).map _ = _
  rw [List.find?_filter]
  refine congrArg (fun p => (r.bookings.find? p).map (·.id)) (funext fun b => ?_)
  cases b.user == user <;> cases b.isConfirmed <;> cases b.start == start <;> rfl

/-- The status of a booking is looked up by identifier, so the booking has to be the user's. -/
theorem statusOf_part {r : Records} {id : String}
    (h : ∀ b ∈ r.bookings, b.id = id → b.user = user) :
    (r.part user).statusOf id = r.statusOf id := by
  rw [statusOf, statusOf]
  show ((r.bookings.filter _).find? _).map _ = _
  rw [List.find?_filter]
  refine congrArg (Option.map _) (List.find?_congr fun b hb => ?_)
  cases hid : b.id == id with
  | false => simp
  | true => simp [h b hb (eq_of_beq hid)]

end Lookup

end Records

/-! ## Transactions of one user -/

/-- What a transaction writes and what it locks is for one user. -/
structure Transaction.Of (owner : String → String) (user : String) (t : Transaction) : Prop where
  newRules : ∀ rule ∈ t.newRules, rule.user = user
  updatedRules : ∀ rule ∈ t.updatedRules, rule.user = user
  newBookings : ∀ b ∈ t.newBookings, b.user = user
  cancelled : ∀ id ∈ t.cancelled, owner id = user
  held : ∀ key ∈ t.held, key.user owner = user

namespace Transaction

variable {t : Transaction} {r : Records}

theorem Of.blank : ({} : Transaction).Of owner user where
  newRules _ h := absurd h List.not_mem_nil
  updatedRules _ h := absurd h List.not_mem_nil
  newBookings _ h := absurd h List.not_mem_nil
  cancelled _ h := absurd h List.not_mem_nil
  held _ h := absurd h List.not_mem_nil

/-- Holding keys of the user makes no difference. -/
theorem Of.holding (h : t.Of owner user) {held : List Key}
    (hheld : ∀ key ∈ held, key.user owner = user) : ({ t with held } : Transaction).Of owner user :=
  ⟨h.newRules, h.updatedRules, h.newBookings, h.cancelled, hheld⟩

theorem Of.concat (h : t.Of owner user) {key : Key} (hkey : key.user owner = user) :
    ({ t with held := t.held ++ [key] } : Transaction).Of owner user := by
  refine h.holding fun held hheld => ?_
  rcases List.mem_append.mp hheld with hheld | hheld
  · exact h.held held hheld
  · rwa [List.mem_singleton.mp hheld]

theorem Of.locked (h : t.Of owner user) {request : Request} (hrequest : request.user owner = user) :
    (t.locked request).Of owner user := by
  rw [Transaction.locked]
  split
  · next key hkey =>
      split
      · exact h
      · exact h.concat ((user_keyOf? hkey).trans hrequest)
  · exact h

theorem Of.update (h : t.Of owner user) {rule : Rule} (hrule : rule.user = user) :
    (t.update rule).Of owner user := by
  rw [Transaction.update]
  split
  · refine ⟨fun new hnew => ?_, h.updatedRules, h.newBookings, h.cancelled, h.held⟩
    rcases mem_of_mem_put hnew with rfl | hnew
    · exact hrule
    · exact h.newRules new hnew
  · refine ⟨h.newRules, fun changed hchanged => ?_, h.newBookings, h.cancelled, h.held⟩
    rcases mem_of_mem_put hchanged with rfl | hchanged
    · exact hrule
    · exact h.updatedRules changed hchanged

/-- Answering a request for the user writes for that user. -/
theorem Of.perform (h : t.Of owner user) {request : Request} (hrequest : request.user owner = user)
    (r : Records) (stamp : Stamp) : (t.perform r stamp request).2.Of owner user := by
  have hanswers := t.perform_answers r stamp request
  generalize (t.perform r stamp request).2 = t' at hanswers ⊢
  cases hanswers with
  | unchanged _ => exact h
  | insertRule rule =>
      refine ⟨fun new hnew => ?_, h.updatedRules, h.newBookings, h.cancelled, h.held⟩
      rcases mem_of_mem_put hnew with rfl | hnew
      · exact hrequest
      · exact h.newRules new hnew
  | updateRule hid hfound => exact h.update hrequest
  | insertBooking asked =>
      refine ⟨h.newRules, h.updatedRules, fun new hnew => ?_, h.cancelled, h.held⟩
      rcases mem_of_mem_put hnew with rfl | hnew
      · exact hrequest
      · exact h.newBookings new hnew
  | @cancelBooking id hconfirmed =>
      refine ⟨h.newRules, h.updatedRules, h.newBookings, fun cancelled hmem => ?_, h.held⟩
      rcases List.mem_append.mp hmem with hmem | hmem
      · exact h.cancelled cancelled hmem
      · rw [List.mem_singleton.mp hmem]
        exact hrequest

/-! ## What a transaction sees of a part -/

theorem seenBooking_user (t : Transaction) (b : Booking) : (t.seenBooking b).user = b.user := by
  rw [seenBooking]
  split <;> rfl

theorem filter_seenBooking (t : Transaction) (bookings : List Booking) (user : String) :
    (bookings.map t.seenBooking).filter (·.user == user) =
      (bookings.filter (·.user == user)).map t.seenBooking := by
  rw [List.filter_map]
  refine congrArg _ (congrArg (List.filter · bookings) (funext fun b => ?_))
  rw [Function.comp_apply, seenBooking_user]

theorem Changes.filter_seenRule (h : t.Changes r) (hr : (r.rules.map Rule.id).Nodup)
    (user : String) : (r.rules.map t.seenRule).filter (·.user == user) =
      (r.rulesOf user).map t.seenRule := by
  rw [List.filter_map]
  refine congrArg _ (List.filter_congr fun rule hrule => ?_)
  rw [Function.comp_apply, h.seenRule_user hr hrule]

/-- A transaction of a user sees of the user's part what it sees of all records. -/
theorem Of.part_view (h : t.Of owner user) (hchanges : t.Changes r)
    (hr : (r.rules.map Rule.id).Nodup) : (t.view r).part user = t.view (r.part user) := by
  have hrules : t.newRules.filter (·.user == user) = t.newRules :=
    List.filter_eq_self.mpr fun rule hrule => beq_iff_eq.mpr (h.newRules rule hrule)
  have hbookings : t.newBookings.filter (·.user == user) = t.newBookings :=
    List.filter_eq_self.mpr fun b hb => beq_iff_eq.mpr (h.newBookings b hb)
  show Records.mk (List.filter _ (_ ++ _)) (List.filter _ (List.map _ _)) = _
  rw [List.filter_append, hrules, hchanges.filter_seenRule hr, filter_seenBooking,
    List.filter_append, hbookings]
  rfl

/-- A transaction of another user sees of the part what there is. -/
theorem Of.part_view_of_ne (h : t.Of owner other) (hne : other ≠ user) (hchanges : t.Changes r)
    (hr : (r.rules.map Rule.id).Nodup) (howned : r.Owned owner) :
    (t.view r).part user = r.part user := by
  have hrules : t.newRules.filter (·.user == user) = [] := by
    refine List.filter_eq_nil_iff.mpr fun rule hrule huser => hne ?_
    exact (h.newRules rule hrule).symm.trans (eq_of_beq huser)
  have hbookings : t.newBookings.filter (·.user == user) = [] := by
    refine List.filter_eq_nil_iff.mpr fun b hb huser => hne ?_
    exact (h.newBookings b hb).symm.trans (eq_of_beq huser)
  -- A change of a rule of the user would have been found for another one.
  have hseen : (r.rulesOf user).map t.seenRule = r.rulesOf user := by
    conv_rhs => rw [← List.map_id (r.rulesOf user)]
    refine List.map_congr_left fun rule hrule => ?_
    obtain ⟨hrule, huser⟩ := Records.mem_part_rules.mp hrule
    rw [seenRule]
    cases hfind : t.updatedRules.find? (·.id == rule.id) with
    | none => rfl
    | some changed =>
        have huser' := hchanges.seenRule_user hr hrule
        rw [seenRule, hfind, Option.getD_some,
          h.updatedRules changed (List.mem_of_find?_eq_some hfind), huser] at huser'
        exact absurd huser' hne
  have hkept : (r.part user).bookings.map t.seenBooking = (r.part user).bookings := by
    conv_rhs => rw [← List.map_id (r.part user).bookings]
    refine List.map_congr_left fun b hb => seenBooking_of_notMem fun hmem => hne ?_
    obtain ⟨hb, huser⟩ := Records.mem_part_bookings.mp hb
    exact (h.cancelled _ hmem).symm.trans ((howned b hb).trans huser)
  show Records.mk (List.filter _ (_ ++ _)) (List.filter _ (List.map _ _)) = _
  rw [List.filter_append, hrules, hchanges.filter_seenRule hr, filter_seenBooking,
    List.filter_append, hbookings, List.append_nil, List.append_nil, hseen]
  exact congrArg _ hkept

/-- A request for a user is answered from the user's part as from all records. -/
theorem Of.perform_part (h : t.Of owner user) (hchanges : t.Changes r)
    (hr : (r.rules.map Rule.id).Nodup) (howned : r.Owned owner) {request : Request}
    (hrequest : request.user owner = user) (stamp : Stamp) :
    t.perform (r.part user) stamp request = t.perform r stamp request := by
  have hview := h.part_view hchanges hr
  have hstatus : ∀ {id}, owner id = user →
      (t.view (r.part user)).statusOf id = (t.view r).statusOf id := by
    intro id hid
    rw [← hview]
    refine Records.statusOf_part fun b hb heq => ?_
    obtain ⟨seen, hseen, rfl⟩ := List.mem_map.mp hb
    rw [seenBooking_id] at heq
    rw [seenBooking_user]
    rcases List.mem_append.mp hseen with hold | hnew
    · rw [← howned seen hold, heq, hid]
    · exact h.newBookings seen hnew
  cases request with
  | insertRule rule => rfl
  | insertBooking asked => rfl
  | findRule asked id =>
      obtain rfl : asked = user := hrequest
      rw [Transaction.perform, Transaction.perform, ← hview, Records.findRule_part]
  | rulesOf asked =>
      obtain rfl : asked = user := hrequest
      rw [Transaction.perform, Transaction.perform, ← hview, Records.rulesOf_part]
  | bookingsOf asked range =>
      obtain rfl : asked = user := hrequest
      rw [Transaction.perform, Transaction.perform, ← hview, Records.bookingsOf_part]
  | confirmedWithin asked start stop =>
      obtain rfl : asked = user := hrequest
      rw [Transaction.perform, Transaction.perform, ← hview, Records.confirmedWithin_part]
  | confirmedAt asked start lock =>
      obtain rfl : asked = user := hrequest
      rw [Transaction.perform, Transaction.perform, ← hview, Records.confirmedAt_part]
  | updateRule rule =>
      obtain rfl : rule.user = user := hrequest
      simp only [Transaction.perform, ← hview, Records.findRule_part]
  | statusOf id => rw [Transaction.perform, Transaction.perform, hstatus hrequest]
  | cancelBooking id => rw [Transaction.perform, Transaction.perform, hstatus hrequest]

theorem Of.conflicts_part (h : t.Of owner user) (r : Records) :
    t.conflicts (r.part user) = t.conflicts r := by
  rw [Bool.eq_iff_iff, ← Bool.not_eq_false, ← Bool.not_eq_false, not_iff_not,
    conflicts_eq_false_iff, conflicts_eq_false_iff]
  refine forall_congr' fun new => forall_congr' fun hnew => ?_
  constructor
  · intro hclear old hold hconfirmed huser
    refine hclear old (Records.mem_part_bookings.mpr ⟨hold, ?_⟩) hconfirmed huser
    exact huser.trans (h.newBookings new hnew)
  · exact fun hclear old hold => hclear old (Records.mem_part_bookings.mp hold).1

/-- What a transaction of a user publishes in the user's part is what it publishes of that part. -/
theorem Of.part_publish (h : t.Of owner user) (hchanges : t.Changes r)
    (hview : (t.view r).Distinct) (hpublish : t.publish r = t.view r)
    (hr : (r.rules.map Rule.id).Nodup) : (t.publish r).part user = t.publish (r.part user) := by
  have hpart := h.part_view hchanges hr
  rw [hpublish, hpart]
  refine (publish_eq_view ?_ hchanges.once fun rule hrule => ?_).symm
  · rw [← hpart]
    exact hview.part user
  · obtain ⟨old, hold, hid, huser⟩ := hchanges.known rule hrule
    rw [← hid]
    refine List.mem_map_of_mem (Records.mem_part_rules.mpr ⟨hold, ?_⟩)
    rw [huser, h.updatedRules rule hrule]

end Transaction

end Owners

end Store

end Bookable
