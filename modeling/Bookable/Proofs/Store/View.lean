import Bookable.Proofs.Changes
import Bookable.Proofs.Store.Records

/-!
# What a transaction sees is what it publishes

A transaction reads the records through its writes, and when it commits the same writes
are applied to the records one by one. That both come to the same is not obvious: a
`put` replaces in one place and appends in another, where the view replaces by a lookup
and appends at the end. It holds as long as the writes fit the records, which is to say
that identifiers occur once and that what is changed is there. `Transaction.Fits` is
this, together with the absence of a conflict, so that a transaction that fits can be
committed.

For a transaction that fits, every single write is a write to the view: a new record
comes last, a change is a `put`, and a cancellation a `cancelOne`.
-/

namespace Bookable.Store

variable {α κ : Type} [DecidableEq κ] {key : α → κ}

/-! ## Replacing and appending -/

theorem put_of_known {a : α} {l : List α} (hl : (l.map key).Nodup) (ha : key a ∈ l.map key) :
    put key a l = l.map fun b => if key b = key a then a else b := by
  induction l with
  | nil => cases ha
  | cons b rest ih =>
      rw [List.map_cons, List.nodup_cons] at hl
      rw [put, List.map_cons]
      split
      · next hb =>
          have hrest : rest.map (fun c => if key c = key a then a else c) = rest := by
            conv_rhs => rw [← List.map_id rest]
            refine List.map_congr_left fun c hc => if_neg fun heq => hl.1 ?_
            rw [hb, ← heq]
            exact List.mem_map_of_mem hc
          rw [hrest]
      · next hb =>
          have hrest : key a ∈ rest.map key := by
            rcases List.mem_cons.mp ha with heq | hrest
            · exact absurd heq.symm hb
            · exact hrest
          rw [ih hl.2 hrest]

theorem put_append_left {a : α} {l : List α} (h : key a ∈ l.map key) (rest : List α) :
    put key a (l ++ rest) = put key a l ++ rest := by
  induction l with
  | nil => cases h
  | cons b l ih =>
      rw [List.cons_append, put, put]
      split
      · rfl
      · next hb =>
          rcases List.mem_cons.mp h with heq | h
          · exact absurd heq.symm hb
          · rw [ih h, List.cons_append]

theorem put_append_right {a : α} {l : List α} (h : key a ∉ l.map key) (rest : List α) :
    put key a (l ++ rest) = l ++ put key a rest := by
  induction l with
  | nil => rfl
  | cons b l ih =>
      rw [List.map_cons, List.mem_cons, not_or] at h
      rw [List.cons_append, put, if_neg (Ne.symm h.1), ih h.2, List.cons_append]

theorem foldl_put_of_fresh {news l : List α} (h : ((l ++ news).map key).Nodup) :
    news.foldl (fun l a => put key a l) l = l ++ news := by
  induction news generalizing l with
  | nil => exact (List.append_nil l).symm
  | cons a news ih =>
      have hfresh : ∀ b ∈ l, key b ≠ key a := by
        rw [List.map_append, List.map_cons] at h
        exact fun b hb heq => (List.nodup_append.mp h).2.2 _ (List.mem_map_of_mem hb) _
          List.mem_cons_self heq
      rw [List.foldl_cons, put_of_fresh hfresh, ih (by rwa [List.append_assoc]),
        List.append_assoc]
      rfl

section Lookup

variable [BEq κ] [LawfulBEq κ]

theorem find?_put (a : α) (l : List α) (k : κ) :
    (put key a l).find? (key · == k) = if key a = k then some a else l.find? (key · == k) := by
  induction l with
  | nil =>
      rw [put, List.find?_singleton]
      simp only [beq_iff_eq, List.find?_nil]
  | cons b rest ih =>
      rw [put]
      split
      · next hb =>
          rw [List.find?_cons, List.find?_cons, hb]
          by_cases hk : key a = k
          · rw [if_pos hk, beq_iff_eq.mpr hk]
          · rw [if_neg hk, beq_eq_false_iff_ne.mpr hk]
      · next hb =>
          rw [List.find?_cons, List.find?_cons, ih]
          by_cases hk : key b = k
          · have hne : key a ≠ k := fun heq => hb (hk.trans heq.symm)
            simp only [beq_iff_eq.mpr hk, if_neg hne]
          · rw [beq_eq_false_iff_ne.mpr hk]

theorem foldl_put_of_known {news l : List α} (hnews : (news.map key).Nodup)
    (hl : (l.map key).Nodup) (h : ∀ a ∈ news, key a ∈ l.map key) :
    news.foldl (fun l a => put key a l) l =
      l.map fun b => (news.find? (key · == key b)).getD b := by
  induction news generalizing l with
  | nil => exact (List.map_id l).symm
  | cons a news ih =>
      have ha := h a List.mem_cons_self
      have hkeys : (put key a l).map key = l.map key := by rw [map_put, if_pos ha]
      rw [List.map_cons, List.nodup_cons] at hnews
      rw [List.foldl_cons, ih hnews.2 (by rwa [hkeys]) fun b hb => by
          rw [hkeys]; exact h b (List.mem_cons_of_mem a hb)]
      rw [put_of_known hl ha, List.map_map]
      refine List.map_congr_left fun b _ => ?_
      rw [Function.comp_apply, List.find?_cons]
      by_cases hb : key b = key a
      · -- No later record has this key.
        have hnone : news.find? (key · == key a) = none := by
          refine List.find?_eq_none.mpr fun c hc heq => hnews.1 ?_
          rw [← eq_of_beq heq]
          exact List.mem_map_of_mem hc
        rw [if_pos hb, hnone, hb, beq_self_eq_true]
        rfl
      · rw [if_neg hb, beq_eq_false_iff_ne.mpr (Ne.symm hb)]

end Lookup

/-! ## Writes that fit -/

omit [DecidableEq κ] in
theorem nodup_concat_of_fresh {l : List α} (hl : (l.map key).Nodup) {a : α}
    (ha : key a ∉ l.map key) : ((l ++ [a]).map key).Nodup := by
  rw [List.map_append, List.map_singleton, ← List.concat_eq_append]
  exact hl.concat ha

/-- No identifier occurs twice. -/
structure Records.Distinct (r : Records) : Prop where
  rules : (r.rules.map Rule.id).Nodup
  bookings : (r.bookings.map Booking.id).Nodup

namespace Transaction

variable {t : Transaction} {r : Records}

theorem seenRule_id {t : Transaction} (rule : Rule) : (t.seenRule rule).id = rule.id := by
  rw [seenRule]
  cases h : t.updatedRules.find? (·.id == rule.id) with
  | none => rfl
  | some found => exact eq_of_beq (List.find?_some h :)

theorem ids_view_rules (t : Transaction) (r : Records) :
    (t.view r).rules.map Rule.id = r.rules.map Rule.id ++ t.newRules.map Rule.id := by
  rw [view, List.map_append, List.map_map]
  exact congrArg (· ++ _) (List.map_congr_left fun rule _ => seenRule_id rule)

theorem ids_view_bookings (t : Transaction) (r : Records) :
    (t.view r).bookings.map Booking.id = (r.bookings ++ t.newBookings).map Booking.id := by
  rw [view, List.map_map]
  exact List.map_congr_left fun b _ => seenBooking_id t b

theorem mem_ids_of_not_new {id : Option String} (hknown : id ∈ (t.view r).rules.map Rule.id)
    (hnew : ¬ t.newRules.any (·.id == id) = true) : id ∈ r.rules.map Rule.id := by
  rw [ids_view_rules] at hknown
  refine (List.mem_append.mp hknown).resolve_right fun hmem => hnew ?_
  obtain ⟨rule, hrule, heq⟩ := List.mem_map.mp hmem
  exact List.any_eq_true.mpr ⟨rule, hrule, beq_iff_eq.mpr heq⟩

/-- The writes of a transaction fit the records, and can be published. -/
structure Fits (t : Transaction) (r : Records) : Prop where
  distinct : (t.view r).Distinct
  changes : (t.updatedRules.map Rule.id).Nodup
  changed : ∀ rule ∈ t.updatedRules, rule.id ∈ r.rules.map Rule.id
  cancelled : ∀ id ∈ t.cancelled, id ∈ (t.view r).bookings.map Booking.id
  clear : t.conflicts r = false

theorem publish_eq_view (hdistinct : (t.view r).Distinct)
    (hchanges : (t.updatedRules.map Rule.id).Nodup)
    (hchanged : ∀ rule ∈ t.updatedRules, rule.id ∈ r.rules.map Rule.id) :
    t.publish r = t.view r := by
  have hrules := hdistinct.rules
  rw [ids_view_rules] at hrules
  have hput : t.updatedRules.foldl (fun rules rule => put Rule.id rule rules) r.rules =
      r.rules.map t.seenRule :=
    foldl_put_of_known hchanges (List.nodup_append.mp hrules).1 hchanged
  have hbookings := hdistinct.bookings
  rw [ids_view_bookings] at hbookings
  have hview := publish_bookings t r
  rw [foldl_put_of_fresh hbookings] at hview
  show Records.mk _ (t.publish r).bookings = _
  rw [hview, List.foldl_append, hput]
  have hfresh : ((r.rules.map t.seenRule ++ t.newRules).map Rule.id).Nodup := hdistinct.rules
  rw [foldl_put_of_fresh hfresh]
  rfl

/-! ## One write more -/

theorem view_insertRule {rule : Rule} (hfresh : rule.id ∉ (t.view r).rules.map Rule.id) :
    ({ t with newRules := put Rule.id rule t.newRules } : Transaction).view r =
      { t.view r with rules := (t.view r).rules ++ [rule] } := by
  rw [ids_view_rules, List.mem_append, not_or] at hfresh
  have hput : put Rule.id rule t.newRules = t.newRules ++ [rule] :=
    put_of_fresh fun other hother heq => hfresh.2 (heq ▸ List.mem_map_of_mem hother)
  rw [hput]
  show Records.mk (r.rules.map t.seenRule ++ (t.newRules ++ [rule])) _ = _
  rw [← List.append_assoc]
  rfl

theorem view_update (hdistinct : (t.view r).Distinct) {rule : Rule}
    (hknown : rule.id ∈ (t.view r).rules.map Rule.id) :
    (t.update rule).view r =
      { t.view r with rules := put Rule.id rule (t.view r).rules } := by
  have hids : (r.rules.map t.seenRule).map Rule.id = r.rules.map Rule.id := by
    rw [List.map_map]
    exact List.map_congr_left fun rule _ => seenRule_id rule
  have hrules := hdistinct.rules
  rw [ids_view_rules] at hrules
  obtain ⟨hold, -, hapart⟩ := List.nodup_append.mp hrules
  rw [update]
  split
  · next hnew =>
      obtain ⟨other, hother, heq⟩ := List.any_eq_true.mp hnew
      have hid : rule.id ∈ t.newRules.map Rule.id :=
        List.mem_map.mpr ⟨other, hother, eq_of_beq heq⟩
      have hnot : rule.id ∉ (r.rules.map t.seenRule).map Rule.id := by
        rw [hids]
        exact fun hmem => hapart _ hmem _ hid rfl
      show Records.mk (r.rules.map t.seenRule ++ put Rule.id rule t.newRules) _ = _
      rw [← put_append_right hnot]
      rfl
  · next hnew =>
      have hid : rule.id ∈ r.rules.map Rule.id := mem_ids_of_not_new hknown hnew
      have hseen : put Rule.id rule (r.rules.map t.seenRule) = r.rules.map
          ({ t with updatedRules := put Rule.id rule t.updatedRules } : Transaction).seenRule := by
        rw [put_of_known (by rwa [hids]) (by rwa [hids]), List.map_map]
        refine List.map_congr_left fun other _ => ?_
        rw [Function.comp_apply, seenRule_id]
        unfold seenRule
        rw [find?_put]
        by_cases heq : rule.id = other.id
        · rw [if_pos heq.symm, if_pos heq]
          rfl
        · rw [if_neg (Ne.symm heq), if_neg heq]
      show Records.mk (r.rules.map _ ++ t.newRules) _ = _
      rw [← hseen, ← put_append_left (by rwa [hids])]
      rfl

theorem view_insertBooking {b : Booking}
    (hcancelled : ∀ id ∈ t.cancelled, id ∈ (t.view r).bookings.map Booking.id)
    (hfresh : b.id ∉ (t.view r).bookings.map Booking.id) :
    ({ t with newBookings := put Booking.id b t.newBookings } : Transaction).view r =
      { t.view r with bookings := (t.view r).bookings ++ [b] } := by
  have hseen : t.seenBooking b = b := seenBooking_of_notMem fun hmem => hfresh (hcancelled _ hmem)
  rw [ids_view_bookings, List.map_append, List.mem_append, not_or] at hfresh
  have hput : put Booking.id b t.newBookings = t.newBookings ++ [b] :=
    put_of_fresh fun other hother heq => hfresh.2 (heq ▸ List.mem_map_of_mem hother)
  rw [hput]
  show Records.mk _ ((r.bookings ++ (t.newBookings ++ [b])).map t.seenBooking) = _
  rw [← List.append_assoc, List.map_append, List.map_singleton, hseen]
  rfl

theorem view_cancel (id : String) :
    ({ t with cancelled := t.cancelled ++ [id] } : Transaction).view r =
      { t.view r with bookings := cancelOne id (t.view r).bookings } := by
  show Records.mk _ ((r.bookings ++ t.newBookings).map _) = Records.mk _ (cancelOne id
    ((r.bookings ++ t.newBookings).map t.seenBooking))
  rw [cancelOne, List.map_map]
  refine congrArg (Records.mk _) (List.map_congr_left fun b _ => ?_)
  rw [Function.comp_apply, seenBooking_id]
  unfold seenBooking
  simp only [List.mem_append, List.mem_singleton]
  by_cases hmem : b.id ∈ t.cancelled
  · rw [if_pos (Or.inl hmem), if_pos hmem, ite_self]
  · rw [if_neg hmem]
    exact if_congr (or_iff_right hmem) rfl rfl

/-! ## Updates of rules that are there, or not -/

theorem perform_updateRule {rule old : Rule} {id : String} (hid : rule.id = some id)
    (hfound : (t.view r).findRule rule.user id = some old) (stamp : Stamp) :
    t.perform r stamp (.updateRule rule) =
      (some (rule.stamped stamp.now), t.update (rule.stamped stamp.now)) := by
  rw [perform]
  split
  · next hnone => cases hid.symm.trans hnone
  · next id' hsome =>
      cases hid.symm.trans hsome
      rw [hfound]
      rfl

theorem perform_updateRule_none {rule : Rule}
    (hfound : rule.id.bind ((t.view r).findRule rule.user) = none) (stamp : Stamp) :
    t.perform r stamp (.updateRule rule) = (none, t) := by
  rw [perform]
  split
  · rfl
  · next id hid =>
      rw [hid, Option.bind_some] at hfound
      rw [hfound]

/-! ## Writes that go on fitting -/

theorem ids_cancelOne (id : String) (bookings : List Booking) :
    (cancelOne id bookings).map Booking.id = bookings.map Booking.id := by
  rw [cancelOne, List.map_map]
  refine List.map_congr_left fun b _ => ?_
  rw [Function.comp_apply]
  split <;> rfl

theorem Fits.blank (held : List Key) (hr : r.Distinct) :
    ({ held } : Transaction).Fits r where
  distinct := by rwa [view_blank]
  changes := List.nodup_nil
  changed _ h := absurd h List.not_mem_nil
  cancelled _ h := absurd h List.not_mem_nil
  clear := rfl

namespace Fits

variable (h : t.Fits r)

include h

theorem insertRule {rule : Rule} (hfresh : rule.id ∉ (t.view r).rules.map Rule.id) :
    ({ t with newRules := put Rule.id rule t.newRules } : Transaction).Fits r where
  distinct := by
    rw [view_insertRule hfresh]
    exact ⟨nodup_concat_of_fresh h.distinct.rules hfresh, h.distinct.bookings⟩
  changes := h.changes
  changed := h.changed
  cancelled := h.cancelled
  clear := h.clear

theorem update {rule : Rule} (hknown : rule.id ∈ (t.view r).rules.map Rule.id) :
    (t.update rule).Fits r := by
  have hview := view_update h.distinct hknown
  have hdistinct : ((t.update rule).view r).Distinct := by
    rw [hview]
    exact ⟨nodup_put h.distinct.rules rule, h.distinct.bookings⟩
  by_cases hnew : t.newRules.any (·.id == rule.id) = true
  · rw [Transaction.update, if_pos hnew] at hdistinct ⊢
    exact ⟨hdistinct, h.changes, h.changed, h.cancelled, h.clear⟩
  · rw [Transaction.update, if_neg hnew] at hdistinct ⊢
    refine ⟨hdistinct, nodup_put h.changes rule, fun other hother => ?_, h.cancelled, h.clear⟩
    rcases mem_of_mem_put hother with rfl | hother
    · exact mem_ids_of_not_new hknown hnew
    · exact h.changed other hother

theorem insertBooking {b : Booking} (hfresh : b.id ∉ (t.view r).bookings.map Booking.id)
    (hfree : (t.view r).confirmedAt b.user b.start = none) :
    ({ t with newBookings := put Booking.id b t.newBookings } : Transaction).Fits r := by
  have hview := view_insertBooking h.cancelled hfresh
  refine ⟨?_, h.changes, h.changed, fun id hid => ?_, conflicts_eq_false_iff.mpr ?_⟩
  · rw [hview]
    exact ⟨h.distinct.rules, nodup_concat_of_fresh h.distinct.bookings hfresh⟩
  · rw [hview, List.map_append]
    exact List.mem_append_left _ (h.cancelled id hid)
  · intro new hnew old hold hconfirmed huser hstart
    rcases mem_of_mem_put hnew with rfl | hnew
    -- An old booking at that start that is not cancelled would have been seen.
    · by_contra hkept
      have hmem : t.seenBooking old ∈ (t.view r).bookings :=
        List.mem_map_of_mem (List.mem_append_left _ hold)
      have hseen : t.seenBooking old = old := seenBooking_of_notMem hkept
      rw [hseen] at hmem
      exact Records.confirmedAt_eq_none.mp hfree old hmem hconfirmed huser hstart
    · exact conflicts_eq_false_iff.mp h.clear new hnew old hold hconfirmed huser hstart

theorem cancel {id : String} (hid : id ∈ (t.view r).bookings.map Booking.id) :
    ({ t with cancelled := t.cancelled ++ [id] } : Transaction).Fits r := by
  have hview := view_cancel (t := t) (r := r) id
  refine ⟨?_, h.changes, h.changed, fun other hother => ?_, conflicts_eq_false_iff.mpr ?_⟩
  · rw [hview]
    refine ⟨h.distinct.rules, ?_⟩
    show ((cancelOne id (t.view r).bookings).map Booking.id).Nodup
    rw [ids_cancelOne]
    exact h.distinct.bookings
  · rw [hview, ids_cancelOne]
    rcases List.mem_append.mp hother with hother | hother
    · exact h.cancelled other hother
    · rw [List.mem_singleton.mp hother]
      exact hid
  · intro new hnew old hold hconfirmed huser hstart
    refine List.mem_append_left _ ?_
    exact conflicts_eq_false_iff.mp h.clear new hnew old hold hconfirmed huser hstart

end Fits

end Transaction

end Bookable.Store
