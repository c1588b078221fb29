import Bookable.Proofs.Store.Column
import Bookable.Proofs.Store.View
import Bookable.Store.Table

/-!
# What the tables accept

A table checks each field that it is to hold and may give it another form, where a
transaction with a buffer takes every field as it comes. For a record whose fields are
of the kinds of their columns the checks pass and the forms stay, so such a record is
the same in both. Instants come out of their columns as they went in, and a lookup by the
texts of a column finds what a lookup by the instants finds.

An accepted request is one that writes such a record, and that breaks no constraint. It
is answered on the tables as a transaction answers it that sees the same records, and
afterwards the transaction still sees what the tables hold.

Whatever else is written, it has the identifier that was given out for it, or that of the
record in whose place it is put. So no identifier is ever in the way of a new one.
-/

namespace Bookable

open Store Time

/-! ## Records that a table holds as they are -/

/-- The fields of a rule are of the kinds of their columns. -/
structure Rule.Storable (r : Rule) : Prop where
  dayOfWeek : ∃ n, r.dayOfWeek = .int n ∧ Table.fits n = true
  startTime : ∃ s, r.startTime = .text s
  endTime : ∃ s, r.endTime = .text s
  slotLength : ∃ n, r.slotLength = .int n ∧ Table.fits n = true
  available : ∃ b, r.available = .bool b
  title : ∃ s, r.title = .text s

/-- Nothing is missing in a booking request. -/
structure BookingRequest.Complete (request : BookingRequest) : Prop where
  email : request.email.isSome
  source : request.source.isSome
  kind : request.kind.isSome
  description : request.description.isSome
  title : request.title.isSome

/-- A request with empty texts in the place of missing ones. -/
def BookingRequest.filled (request : BookingRequest) : BookingRequest :=
  { request with
    source := Table.textOrEmpty request.source
    kind := Table.textOrEmpty request.kind
    description := Table.textOrEmpty request.description
    title := Table.textOrEmpty request.title }

theorem Store.Table.textOrEmpty_eq {text : Option String} (h : text.isSome) :
    textOrEmpty text = text := by
  obtain ⟨s, rfl⟩ := Option.isSome_iff_exists.mp h
  rfl

theorem BookingRequest.Complete.filled_eq {request : BookingRequest} (h : request.Complete) :
    request.filled = request := by
  unfold filled
  rw [Table.textOrEmpty_eq h.source, Table.textOrEmpty_eq h.kind,
    Table.textOrEmpty_eq h.description, Table.textOrEmpty_eq h.title]

theorem Rule.Storable.stamped {r : Rule} (h : r.Storable) (now : Instant) :
    (r.stamped now).Storable :=
  ⟨h.dayOfWeek, h.startTime, h.endTime, h.slotLength, h.available, h.title⟩

namespace Store

theorem newRule_storable {rule : Rule} (h : rule.Storable) (stamp : Stamp) :
    (newRule stamp rule).Storable :=
  ⟨h.dayOfWeek, h.startTime, h.endTime, h.slotLength, h.available, h.title⟩

namespace Table

theorem required_int {n : Int} (h : fits n = true) : required (.int n) = .ok (.int n) := by
  show (if fits n = true then Except.ok (Value.int n) else _) = _
  rw [if_pos h]

theorem required_text (s : String) : required (.text s) = .ok (.text s) := rfl

theorem truthValue_bool (b : Bool) : truthValue (.bool b) = .ok (.bool b) := by
  cases b <;> rfl

theorem keptNumber_int {n : Int} (h : fits n = true) : keptNumber (.int n) = .int n := by
  simp only [keptNumber, Value.toInt?, Option.filter_some, h, if_true]

theorem acceptedRule_eq {rule : Rule} (h : rule.Storable) : acceptedRule rule = .ok rule := by
  obtain ⟨⟨day, hday, hfits⟩, ⟨start, hstart⟩, ⟨stop, hstop⟩, ⟨length, hlength, hfits'⟩,
    ⟨available, havailable⟩, ⟨title, htitle⟩⟩ := h
  rw [acceptedRule, havailable, truthValue_bool, ok_bind, hday, required_int hfits, ok_bind,
    hstart, required_text, ok_bind, hstop, required_text, ok_bind, hlength, required_int hfits',
    ok_bind, htitle, required_text, ok_bind]
  have hkept : (if (Value.text title).truthy then Value.text title else .text "") =
      .text title := by
    split
    · rfl
    · next hempty =>
        simp only [Value.truthy, Bool.not_eq_true', String.isEmpty_iff,
          Bool.not_eq_false] at hempty
        rw [hempty]
  rw [hkept, ← hday, ← hstart, ← hstop, ← hlength, ← havailable, ← htitle]
  rfl

theorem mapM_kept (t? : Option Instant) : t?.mapM Column.kept = .ok t? := by
  cases t? with
  | none => rfl
  | some t =>
      rw [Option.mapM_some, Column.kept_eq]
      rfl

theorem keptRule_eq {rule : Rule} (h : rule.Storable) : keptRule rule = .ok rule := by
  obtain ⟨⟨day, hday, hfits⟩, ⟨start, hstart⟩, ⟨stop, hstop⟩, ⟨length, hlength, hfits'⟩, -,
    ⟨title, htitle⟩⟩ := h
  rw [keptRule, mapM_kept, mapM_kept, ok_bind, ok_bind, hday, hstart, hstop, hlength, htitle,
    keptNumber_int hfits, keptNumber_int hfits']
  show Except.ok (Rule.mk _ _ _ (.text start) (.text stop) _ _ (.text title) _ _) = _
  rw [← hday, ← hstart, ← hstop, ← hlength, ← htitle]

theorem keptBooking_eq (b : Booking) : keptBooking b = .ok b := by
  rw [keptBooking, Column.kept_eq, Column.kept_eq, Column.kept_eq]
  rfl

theorem acceptedRequest_eq {request : BookingRequest} (h : request.email.isSome) :
    acceptedRequest request = .ok request.filled := by
  rw [acceptedRequest]
  split
  · next hnone =>
      rw [hnone] at h
      cases h
  · rfl

/-! ## Lookups by the texts of a column -/

theorem startsAt_eq (b : Booking) (start : Instant) : startsAt b start = (b.start == start) :=
  Column.key_beq b.start start

theorem startsWithin_eq (b : Booking) (start stop : Instant) :
    startsWithin b start stop = b.startsWithin start stop := by
  rw [startsWithin, Column.precedes_key, Column.precedes_key, ← decide_not, Booking.startsWithin]
  exact congrArg (· && _) (decide_eq_decide.mpr Nat.not_lt)

theorem bookingsOf_eq (v : Records) (user : String) (range : Option (Instant × Instant)) :
    bookingsOf v user range = v.bookingsOf user range := by
  have hsort : (fun a b : Booking =>
      !Column.precedes (Column.key b.start) (Column.key a.start)) =
      fun a b => decide (a.start ≤ b.start) := by
    funext a b
    rw [Column.precedes_key, ← decide_not]
    exact decide_eq_decide.mpr Nat.not_lt
  cases range with
  | none => simp only [bookingsOf, Records.bookingsOf, Booking.sortByStart, hsort]
  | some range =>
      simp only [bookingsOf, Records.bookingsOf, Booking.sortByStart, startsWithin_eq, hsort]

theorem confirmedWithin_eq (v : Records) (user : String) (start stop : Instant) :
    confirmedWithin v user start stop = v.confirmedWithin user start stop := by
  simp only [confirmedWithin, Records.confirmedWithin, startsWithin_eq]

theorem confirmedAt_eq (v : Records) (user : String) (start : Instant) :
    confirmedAt v user start = v.confirmedAt user start := by
  simp only [confirmedAt, Records.confirmedAt, startsAt_eq]

theorem isTaken_eq_false {v : Records} {user : String} {start : Instant}
    (h : v.confirmedAt user start = none) : isTaken v user start = false := by
  rw [isTaken, List.any_eq_false]
  intro b hb hmatch
  simp only [startsAt_eq, Bool.and_eq_true, beq_iff_eq] at hmatch
  exact Records.confirmedAt_eq_none.mp h b hb hmatch.1.1 hmatch.1.2 hmatch.2

theorem hasRule_eq_false {v : Records} {id : String} (h : some id ∉ v.rules.map Rule.id) :
    hasRule v id = false := by
  rw [hasRule, List.any_eq_false]
  exact fun rule hrule hid => h (List.mem_map.mpr ⟨rule, hrule, eq_of_beq hid⟩)

theorem hasBooking_eq_false {v : Records} {id : String} (h : id ∉ v.bookings.map Booking.id) :
    hasBooking v id = false := by
  rw [hasBooking, List.any_eq_false]
  exact fun b hb hid => h (List.mem_map.mpr ⟨b, hb, eq_of_beq hid⟩)

end Table

/-! ## Requests that a table accepts -/

/-- A new identifier. -/
structure Stamp.Fresh (stamp : Stamp) (v : Records) : Prop where
  rules : some stamp.id ∉ v.rules.map Rule.id
  bookings : stamp.id ∉ v.bookings.map Booking.id

end Store

/-- A request writes a record that a table holds as it is, over an old one only if it leaves the
time of creation alone, and books no start that is taken. -/
def Request.Accepted (v : Records) : Request → Prop
  | .insertRule rule => rule.Storable
  | .updateRule rule => rule.Storable ∧
      ∀ id old, rule.id = some id → v.findRule rule.user id = some old →
        rule.createdAt = old.createdAt
  | .insertBooking request =>
      request.Complete ∧ v.confirmedAt request.user request.start = none
  | _ => True

namespace Store

theorem Records.mem_ids_of_findRule {v : Records} {user id : String} {old : Rule}
    (h : v.findRule user id = some old) : some id ∈ v.rules.map Rule.id := by
  have hfound := List.find?_some h
  simp only [Bool.and_eq_true, beq_iff_eq] at hfound
  rw [← hfound.1]
  exact List.mem_map_of_mem (List.mem_of_find?_eq_some h)

theorem Records.mem_ids_of_statusOf {v : Records} {id : String} {status : Status}
    (h : v.statusOf id = some status) : id ∈ v.bookings.map Booking.id := by
  obtain ⟨b, hb, -⟩ := Option.map_eq_some_iff.mp h
  exact List.mem_map.mpr ⟨b, List.mem_of_find?_eq_some hb, eq_of_beq (List.find?_some hb :)⟩

namespace Table

variable {v : Records} {stamp : Stamp}

theorem perform_insertRule {rule : Rule} (h : rule.Storable) (hfresh : stamp.Fresh v) :
    perform v stamp (.insertRule rule) =
      .ok (stamp.id, { v with rules := v.rules ++ [newRule stamp rule] }) := by
  obtain ⟨available, havailable⟩ := h.available
  obtain ⟨title, htitle⟩ := h.title
  have hgiven : ({ rule with
      available := orDefault rule.available (.bool true)
      title := orDefault rule.title (.text "") } : Rule) = rule := by
    rw [havailable, htitle]
    show Rule.mk _ _ _ _ _ _ (.bool available) (.text title) _ _ = _
    rw [← havailable, ← htitle]
  rw [perform, hgiven, acceptedRule_eq h, ok_bind, keptRule_eq (newRule_storable h stamp),
    ok_bind, hasRule_eq_false hfresh.rules]
  rfl

theorem perform_updateRule {rule old : Rule} {id : String} (h : rule.Storable)
    (hid : rule.id = some id) (hfound : v.findRule rule.user id = some old)
    (hcreated : rule.createdAt = old.createdAt) :
    perform v stamp (.updateRule rule) = .ok (some (rule.stamped stamp.now),
      { v with rules := put Rule.id (rule.stamped stamp.now) v.rules }) := by
  have hbind : rule.id.bind (v.findRule rule.user) = some old := by
    rw [hid]
    exact hfound
  rw [perform, updateRule, hbind]
  have hrow : keptRule { rule with
      createdAt := old.createdAt, updatedAt := some stamp.now } =
      .ok (rule.stamped stamp.now) := by
    rw [← hcreated]
    exact keptRule_eq (h.stamped stamp.now)
  simp only [acceptedRule_eq h, ok_bind, hrow]
  rw [← hcreated]
  rfl

theorem perform_updateRule_none {rule : Rule}
    (hfound : rule.id.bind (v.findRule rule.user) = none) :
    perform v stamp (.updateRule rule) = .ok (none, v) := by
  rw [perform, updateRule, hfound]

/-- Nothing but an address and a free start is asked of a booking. -/
theorem perform_insertBooking {request : BookingRequest} (hemail : request.email.isSome)
    (hfree : v.confirmedAt request.user request.start = none) (hfresh : stamp.Fresh v) :
    perform v stamp (.insertBooking request) = .ok (newBooking stamp request.filled,
      { v with bookings := v.bookings ++ [newBooking stamp request.filled] }) := by
  rw [perform, insertBooking, acceptedRequest_eq hemail]
  simp only [hasBooking_eq_false hfresh.bookings, isTaken_eq_false hfree, Bool.or_self,
    Bool.false_eq_true, if_false, keptBooking_eq, ok_bind]
  rfl

/-! ## What a table has taken down -/

variable {v' : Records}

theorem acceptedRule_id {rule accepted : Rule} (h : acceptedRule rule = .ok accepted) :
    accepted.id = rule.id := by
  rw [acceptedRule] at h
  obtain ⟨available, -, h⟩ := bind_eq_ok.mp h
  obtain ⟨day, -, h⟩ := bind_eq_ok.mp h
  obtain ⟨start, -, h⟩ := bind_eq_ok.mp h
  obtain ⟨stop, -, h⟩ := bind_eq_ok.mp h
  obtain ⟨length, -, h⟩ := bind_eq_ok.mp h
  obtain ⟨title, -, h⟩ := bind_eq_ok.mp h
  cases h
  rfl

theorem keptRule_id {rule row : Rule} (h : keptRule rule = .ok row) : row.id = rule.id := by
  rw [keptRule, mapM_kept, mapM_kept] at h
  cases h
  rfl

theorem insertRule_ok {rule : Rule} {id : String}
    (h : perform v stamp (.insertRule rule) = .ok (id, v')) :
    ∃ row, row.id = some stamp.id ∧ v' = { v with rules := v.rules ++ [row] } := by
  rw [perform] at h
  obtain ⟨accepted, -, h⟩ := bind_eq_ok.mp h
  obtain ⟨row, hrow, h⟩ := bind_eq_ok.mp h
  split at h
  · cases h
  · cases h
    exact ⟨row, keptRule_id hrow, rfl⟩

theorem updateRule_ok {rule : Rule} {reply : Option Rule}
    (h : perform v stamp (.updateRule rule) = .ok (reply, v')) :
    v' = v ∨ ∃ id old row, rule.id = some id ∧ v.findRule rule.user id = some old ∧
      row.id = rule.id ∧ v' = { v with rules := put Rule.id row v.rules } := by
  rw [perform, updateRule] at h
  split at h
  · cases h
    exact Or.inl rfl
  · next old hfound =>
      obtain ⟨id, hid, hfound⟩ := Option.bind_eq_some_iff.mp hfound
      obtain ⟨accepted, haccepted, h⟩ := bind_eq_ok.mp h
      obtain ⟨row, hrow, h⟩ := bind_eq_ok.mp h
      cases h
      refine Or.inr ⟨id, old, row, hid, hfound, ?_, rfl⟩
      rw [keptRule_id hrow, acceptedRule_id haccepted]

theorem insertBooking_ok {request : BookingRequest} {booking : Booking}
    (h : perform v stamp (.insertBooking request) = .ok (booking, v')) :
    ∃ accepted, v' = { v with bookings := v.bookings ++ [newBooking stamp accepted] } := by
  rw [perform, insertBooking] at h
  split at h
  · cases h
  · next accepted _ =>
      split at h
      · cases h
      · simp only [keptBooking_eq, ok_bind] at h
        cases h
        exact ⟨accepted, rfl⟩

end Table

/-- An accepted request is answered on the tables as by a transaction that sees them, which goes
on seeing them. -/
theorem Transaction.Fits.perform {t : Transaction} {r : Records} (h : t.Fits r) {stamp : Stamp}
    (hfresh : stamp.Fresh (t.view r)) {request : Request}
    (haccepted : request.Accepted (t.view r)) :
    Table.perform (t.view r) stamp request =
        .ok ((t.perform r stamp request).1, (t.perform r stamp request).2.view r) ∧
      (t.perform r stamp request).2.Fits r := by
  cases request with
  | insertRule rule =>
      have hnew : (newRule stamp rule).id ∉ (t.view r).rules.map Rule.id := hfresh.rules
      refine ⟨?_, h.insertRule hnew⟩
      rw [Table.perform_insertRule haccepted hfresh, Transaction.perform, view_insertRule hnew]
  | updateRule rule =>
      obtain ⟨hstorable, hcreated⟩ := haccepted
      cases hfound : rule.id.bind ((t.view r).findRule rule.user) with
      | none =>
          rw [Table.perform_updateRule_none hfound, perform_updateRule_none hfound]
          exact ⟨rfl, h⟩
      | some old =>
          obtain ⟨id, hid, hfound⟩ := Option.bind_eq_some_iff.mp hfound
          have hknown : (rule.stamped stamp.now).id ∈ (t.view r).rules.map Rule.id := by
            show rule.id ∈ _
            rw [hid]
            exact Records.mem_ids_of_findRule hfound
          rw [perform_updateRule hid hfound,
            Table.perform_updateRule hstorable hid hfound (hcreated id old hid hfound)]
          refine ⟨?_, h.update hknown⟩
          rw [view_update h.distinct hknown]
  | insertBooking request =>
      obtain ⟨hcomplete, hfree⟩ := haccepted
      have hnew : (newBooking stamp request).id ∉ (t.view r).bookings.map Booking.id :=
        hfresh.bookings
      refine ⟨?_, h.insertBooking hnew hfree⟩
      rw [Table.perform_insertBooking hcomplete.email hfree hfresh, hcomplete.filled_eq,
        Transaction.perform]
      simp only [view_insertBooking h.cancelled hnew]
  | cancelBooking id =>
      rw [Transaction.perform, Table.perform]
      rcases hstatus : (t.view r).statusOf id with _ | _ | _
      · exact ⟨rfl, h⟩
      · refine ⟨?_, h.cancel (Records.mem_ids_of_statusOf hstatus)⟩
        simp only [view_cancel]
      · exact ⟨rfl, h⟩
  | bookingsOf user range =>
      rw [Table.perform, Table.bookingsOf_eq]
      exact ⟨rfl, h⟩
  | confirmedWithin user start stop =>
      rw [Table.perform, Table.confirmedWithin_eq]
      exact ⟨rfl, h⟩
  | confirmedAt user start lock =>
      rw [Table.perform, Table.confirmedAt_eq]
      exact ⟨rfl, h⟩
  | findRule user id => exact ⟨rfl, h⟩
  | rulesOf user => exact ⟨rfl, h⟩
  | statusOf id => exact ⟨rfl, h⟩

/-! ## Records with identifiers from a supply -/

/-- A table holds the rules on record as they are. -/
def Records.Storable (r : Records) : Prop := ∀ rule ∈ r.rules, rule.Storable

/-- The identifiers on record were given out by a supply. -/
structure Supply.Covers (s : Supply) (r : Records) : Prop where
  rules : ∀ rule ∈ r.rules, ∃ n < s.issued, rule.id = some (s.names.name n)
  bookings : ∀ b ∈ r.bookings, ∃ n < s.issued, b.id = s.names.name n

namespace Supply

variable {s : Supply} {v v' : Records} {request : Request} {reply : request.Reply}

theorem Covers.fresh (h : s.Covers v) : s.stamp.Fresh v where
  rules := by
    intro hmem
    obtain ⟨rule, hrule, hid⟩ := List.mem_map.mp hmem
    obtain ⟨n, hn, hname⟩ := h.rules rule hrule
    have heq := s.names.distinct (Option.some.inj (hid.symm.trans hname))
    omega
  bookings := by
    intro hmem
    obtain ⟨b, hb, hid⟩ := List.mem_map.mp hmem
    obtain ⟨n, hn, hname⟩ := h.bookings b hb
    have heq := s.names.distinct (hid.symm.trans hname)
    omega

theorem le_issued_after (s : Supply) (request : Request) :
    s.issued ≤ (s.after request).issued := by
  rw [after]
  simp only []
  split <;> omega

theorem Covers.after (h : s.Covers v) (request : Request) : (s.after request).Covers v where
  rules rule hrule := by
    obtain ⟨n, hn, hname⟩ := h.rules rule hrule
    exact ⟨n, Nat.lt_of_lt_of_le hn (s.le_issued_after request), hname⟩
  bookings b hb := by
    obtain ⟨n, hn, hname⟩ := h.bookings b hb
    exact ⟨n, Nat.lt_of_lt_of_le hn (s.le_issued_after request), hname⟩

/-- Whatever a table takes down, it does under an identifier that was given out. -/
theorem Covers.perform (h : s.Covers v)
    (hperform : Table.perform v s.stamp request = .ok (reply, v')) :
    (s.after request).Covers v' := by
  have hafter := h.after request
  cases request with
  | insertRule rule =>
      obtain ⟨row, hrow, rfl⟩ := Table.insertRule_ok hperform
      refine ⟨fun other hother => ?_, hafter.bookings⟩
      rcases List.mem_append.mp hother with hother | hother
      · exact hafter.rules other hother
      · rw [List.mem_singleton.mp hother]
        exact ⟨s.issued, Nat.lt_succ_self _, hrow⟩
  | updateRule rule =>
      rcases Table.updateRule_ok hperform with rfl | ⟨id, old, row, hid, hfound, hrow, rfl⟩
      · exact hafter
      · refine ⟨fun other hother => ?_, hafter.bookings⟩
        rcases mem_of_mem_put hother with rfl | hother
        · obtain ⟨known, hmem, heq⟩ := List.mem_map.mp (Records.mem_ids_of_findRule hfound)
          rw [hrow, hid, ← heq]
          exact hafter.rules known hmem
        · exact hafter.rules other hother
  | insertBooking request =>
      obtain ⟨accepted, rfl⟩ := Table.insertBooking_ok hperform
      refine ⟨hafter.rules, fun other hother => ?_⟩
      rcases List.mem_append.mp hother with hother | hother
      · exact hafter.bookings other hother
      · rw [List.mem_singleton.mp hother]
        exact ⟨s.issued, Nat.lt_succ_self _, rfl⟩
  | cancelBooking id =>
      rw [Table.perform] at hperform
      split at hperform
      · cases hperform
        refine ⟨hafter.rules, fun other hother => ?_⟩
        obtain ⟨b, hb, rfl⟩ := List.mem_map.mp hother
        obtain ⟨n, hn, hname⟩ := hafter.bookings b hb
        exact ⟨n, hn, by split <;> exact hname⟩
      · cases hperform
        exact hafter
  | _ =>
      cases hperform
      exact hafter

end Supply

/-- What an accepted request writes can be held by a table. -/
theorem Records.Storable.perform {v v' : Records} (hv : v.Storable) {stamp : Stamp}
    (hfresh : stamp.Fresh v) {request : Request} (haccepted : request.Accepted v)
    {reply : request.Reply} (hperform : Table.perform v stamp request = .ok (reply, v')) :
    v'.Storable := by
  cases request with
  | insertRule rule =>
      rw [Table.perform_insertRule haccepted hfresh] at hperform
      cases hperform
      intro other hother
      rcases List.mem_append.mp hother with hother | hother
      · exact hv other hother
      · rw [List.mem_singleton.mp hother]
        exact newRule_storable haccepted stamp
  | updateRule rule =>
      obtain ⟨hstorable, hcreated⟩ := haccepted
      cases hfound : rule.id.bind (v.findRule rule.user) with
      | none =>
          rw [Table.perform_updateRule_none hfound] at hperform
          cases hperform
          exact hv
      | some old =>
          obtain ⟨id, hid, hfound⟩ := Option.bind_eq_some_iff.mp hfound
          rw [Table.perform_updateRule hstorable hid hfound (hcreated id old hid hfound)]
            at hperform
          cases hperform
          intro other hother
          rcases mem_of_mem_put hother with rfl | hother
          · exact hstorable.stamped _
          · exact hv other hother
  | insertBooking request =>
      rw [Table.perform_insertBooking haccepted.1.email haccepted.2 hfresh] at hperform
      cases hperform
      exact hv
  | cancelBooking id =>
      rw [Table.perform] at hperform
      split at hperform <;> cases hperform <;> exact hv
  | _ =>
      cases hperform
      exact hv

end Store

end Bookable
