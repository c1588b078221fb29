import Bookable.Proofs.Store.Traffic
import Bookable.Proofs.Store.View
import Mathlib.Data.List.Induction

/-!
# Identifiers that are drawn once

Identifiers come from outside, one with each request that inserts, and all that is
asked of them is that none is drawn twice. Then nothing that a machine keeps can be
taken for anything else: no identifier occurs twice on record, no two transactions
add records of one identifier, and what an open transaction adds is not on record
yet. This holds of rules and of bookings for the same reason, which `Allotted` states
without saying what the identifiers are of.

Changes of rules need a word more. A transaction changes only rules that it has
found, hence such as are on record or its own, and it finds a rule by its user. That
the rule stays on record with its user, whatever others publish meanwhile, is because
they change rules in the same way: `Transaction.Changes` is kept by one transaction
because it holds of all.

What is gained is that every commit that publishes at all publishes the view of its
transaction, without any look at how the transaction came to its writes.
-/

namespace Bookable.Store

/-- The identifier that a move uses up, whether or not its request can be made. -/
def Move.drawn? : Move → Option String
  | .ask stamp _ _ request => if request.inserts then some stamp.id else none
  | _ => none

/-- The identifiers that moves use up. -/
def drawn (moves : List Move) : List String := moves.filterMap Move.drawn?

theorem drawn_append (past future : List Move) :
    drawn (past ++ future) = drawn past ++ drawn future :=
  List.filterMap_append

theorem drawn_concat (past : List Move) (move : Move) :
    drawn (past ++ [move]) = drawn past ++ move.drawn?.toList := by
  rw [drawn_append, drawn, drawn, List.filterMap_cons, List.filterMap_nil]
  cases move.drawn? <;> rfl

/-! ## Identifiers in use -/

section Allotted

variable {κ : Type} {drawn drawn' : κ → Prop} {recorded : List κ} {fresh fresh' : Nat → List κ}
  {live live' : Nat → Prop}

/-- Identifiers that are on record, and those of the records that transactions add. All of them
have been drawn, and none of them is used twice, except that what a transaction has published is
on record. -/
structure Allotted (drawn : κ → Prop) (recorded : List κ) (fresh : Nat → List κ)
    (live : Nat → Prop) : Prop where
  recorded_drawn : ∀ k ∈ recorded, drawn k
  fresh_drawn : ∀ i, ∀ k ∈ fresh i, drawn k
  recorded_once : recorded.Nodup
  fresh_once : ∀ i, (fresh i).Nodup
  apart : ∀ i j, i ≠ j → ∀ k ∈ fresh i, k ∉ fresh j
  unpublished : ∀ i, live i → ∀ k ∈ fresh i, k ∉ recorded

namespace Allotted

theorem empty (hfresh : ∀ i, fresh i = []) : Allotted drawn [] fresh live where
  recorded_drawn _ h := absurd h List.not_mem_nil
  fresh_drawn i _ h := absurd (hfresh i ▸ h) List.not_mem_nil
  recorded_once := List.nodup_nil
  fresh_once i := by rw [hfresh i]; exact List.nodup_nil
  apart i _ _ _ h := absurd (hfresh i ▸ h) List.not_mem_nil
  unpublished i _ _ h := absurd (hfresh i ▸ h) List.not_mem_nil

variable (h : Allotted drawn recorded fresh live)

include h

/-- Transactions may lose what they add, and they may end. -/
theorem rest (hdrawn : ∀ k, drawn k → drawn' k)
    (hfresh : ∀ i, fresh' i = [] ∨ fresh' i = fresh i ∧ (live' i → live i)) :
    Allotted drawn' recorded fresh' live' := by
  have hsub : ∀ i, ∀ k ∈ fresh' i, k ∈ fresh i := by
    intro i k hk
    rcases hfresh i with hnil | ⟨hsame, -⟩
    · rw [hnil] at hk
      exact absurd hk List.not_mem_nil
    · rwa [hsame] at hk
  refine ⟨fun k hk => hdrawn k (h.recorded_drawn k hk),
    fun i k hk => hdrawn k (h.fresh_drawn i k (hsub i k hk)), h.recorded_once, fun i => ?_,
    fun i j hij k hi hj => h.apart i j hij k (hsub i k hi) (hsub j k hj),
    fun i hlive k hk => ?_⟩
  · rcases hfresh i with hnil | ⟨hsame, -⟩
    · rw [hnil]
      exact List.nodup_nil
    · rw [hsame]
      exact h.fresh_once i
  · rcases hfresh i with hnil | ⟨hsame, hended⟩
    · rw [hnil] at hk
      exact absurd hk List.not_mem_nil
    · rw [hsame] at hk
      exact h.unpublished i (hended hlive) k hk

/-- Only those that are in use need to have been drawn. -/
theorem redraw (hrecorded : ∀ k ∈ recorded, drawn' k) (hfresh : ∀ i, ∀ k ∈ fresh i, drawn' k) :
    Allotted drawn' recorded fresh live :=
  ⟨hrecorded, hfresh, h.recorded_once, h.fresh_once, h.apart, h.unpublished⟩

/-- A transaction may add one more that has just been drawn. -/
theorem draw {i : Nat} {k : κ} (hnew : ¬ drawn k) (hself : fresh' i = fresh i ++ [k])
    (hothers : ∀ j, j ≠ i → fresh' j = fresh j) (hlive : ∀ j, live' j → live j)
    (hdrawn : ∀ k, drawn k → drawn' k) (hk : drawn' k) :
    Allotted drawn' recorded fresh' live' := by
  have hmem : ∀ j, ∀ l ∈ fresh' j, l ∈ fresh j ∨ j = i ∧ l = k := by
    intro j l hl
    rcases eq_or_ne j i with rfl | hne
    · rw [hself, List.mem_append, List.mem_singleton] at hl
      exact hl.imp_right fun heq => ⟨rfl, heq⟩
    · rw [hothers j hne] at hl
      exact Or.inl hl
  refine ⟨fun l hl => hdrawn l (h.recorded_drawn l hl), fun j l hl => ?_, h.recorded_once,
    fun j => ?_, fun a b hab l ha hb => ?_, fun j hj l hl hrecorded => ?_⟩
  · rcases hmem j l hl with hl | ⟨-, rfl⟩
    · exact hdrawn l (h.fresh_drawn j l hl)
    · exact hk
  · rcases eq_or_ne j i with rfl | hne
    · rw [hself, ← List.concat_eq_append]
      exact (h.fresh_once j).concat fun hl => hnew (h.fresh_drawn j k hl)
    · rw [hothers j hne]
      exact h.fresh_once j
  · rcases hmem a l ha with ha | ⟨rfl, rfl⟩
    · rcases hmem b l hb with hb | ⟨-, rfl⟩
      · exact h.apart a b hab l ha hb
      · exact hnew (h.fresh_drawn a l ha)
    · rcases hmem b l hb with hb | ⟨rfl, -⟩
      · exact hnew (h.fresh_drawn b l hb)
      · exact hab rfl
  · rcases hmem j l hl with hl | ⟨-, rfl⟩
    · exact h.unpublished j (hlive j hj) l hl hrecorded
    · exact hnew (h.recorded_drawn l hrecorded)

/-- A transaction may answer a request, and add at most what was drawn for it. -/
theorem answer {i : Nat} (k : κ) (hdrawn : ∀ k, drawn k → drawn' k)
    (hself : fresh' i = fresh i ∨ ¬ drawn k ∧ drawn' k ∧ fresh' i = fresh i ++ [k])
    (hothers : ∀ j, j ≠ i → fresh' j = fresh j) (hlive : ∀ j, live' j → live j) :
    Allotted drawn' recorded fresh' live' := by
  rcases hself with hsame | ⟨hnew, hk, hadded⟩
  · refine h.rest hdrawn fun j => Or.inr ⟨?_, hlive j⟩
    rcases eq_or_ne j i with rfl | hne
    · exact hsame
    · exact hothers j hne
  · exact h.draw hnew hadded hothers hlive hdrawn hk

theorem nodup_append {i : Nat} (hi : live i) : (recorded ++ fresh i).Nodup := by
  refine List.nodup_append.mpr ⟨h.recorded_once, h.fresh_once i, fun k hk l hl heq => ?_⟩
  exact h.unpublished i hi l hl (heq ▸ hk)

/-- An open transaction may put on record what it adds, if that ends it. -/
theorem publish {i : Nat} (hi : live i) :
    Allotted drawn (recorded ++ fresh i) fresh fun j => live j ∧ j ≠ i := by
  refine ⟨fun k hk => ?_, h.fresh_drawn, h.nodup_append hi, h.fresh_once, h.apart,
    fun j hj k hk hrecorded => ?_⟩
  · exact (List.mem_append.mp hk).elim (h.recorded_drawn k) (h.fresh_drawn i k)
  · exact (List.mem_append.mp hrecorded).elim (h.unpublished j hj.1 k hk) (h.apart j i hj.2 k hk)

end Allotted

end Allotted

/-! ## Changes of rules -/

/-- The rules that a transaction has changed are on record with their users, and none of them
twice. -/
structure Transaction.Changes (t : Transaction) (r : Records) : Prop where
  once : (t.updatedRules.map Rule.id).Nodup
  known : ∀ rule ∈ t.updatedRules, ∃ old ∈ r.rules, old.id = rule.id ∧ old.user = rule.user

namespace Transaction

variable {t u : Transaction} {r : Records}

theorem Changes.of_nil (h : t.updatedRules = []) (r : Records) : t.Changes r where
  once := by rw [h]; exact List.nodup_nil
  known rule hrule := absurd (h ▸ hrule) List.not_mem_nil

/-- A transaction sees a rule with the user that it has on record. -/
theorem Changes.seenRule_user (h : t.Changes r) (hr : (r.rules.map Rule.id).Nodup) {rule : Rule}
    (hrule : rule ∈ r.rules) : (t.seenRule rule).user = rule.user := by
  rw [seenRule]
  cases hfind : t.updatedRules.find? (·.id == rule.id) with
  | none => rfl
  | some changed =>
      obtain ⟨old, hold, hid, huser⟩ := h.known changed (List.mem_of_find?_eq_some hfind)
      have hchanged : changed.id = rule.id := eq_of_beq (List.find?_some hfind :)
      rw [List.inj_on_of_nodup_map hr hrule hold (hid.trans hchanged).symm]
      exact huser.symm

theorem Changes.rests {t' : Transaction} (h : t.Changes r) (hrests : t.Rests t') :
    t'.Changes r := by
  cases hrests with
  | kept _ => exact ⟨h.once, h.known⟩
  | blank => exact .of_nil rfl r

theorem Changes.perform (h : t.Changes r) (hr : (r.rules.map Rule.id).Nodup) (stamp : Stamp)
    (request : Request) : (t.perform r stamp request).2.Changes r := by
  have hanswers := t.perform_answers r stamp request
  generalize (t.perform r stamp request).2 = t' at hanswers ⊢
  cases hanswers with
  | @updateRule rule old id hid hfound =>
      rw [update]
      split
      · exact ⟨h.once, h.known⟩
      · next hnew =>
          refine ⟨nodup_put h.once _, fun changed hchanged => ?_⟩
          rcases mem_of_mem_put hchanged with rfl | hchanged
          · have hold := List.mem_of_find?_eq_some hfound
            have hmatch := List.find?_some hfound
            simp only [Bool.and_eq_true, beq_iff_eq] at hmatch
            rcases List.mem_append.mp hold with hseen | hadded
            · obtain ⟨base, hbase, rfl⟩ := List.mem_map.mp hseen
              rw [seenRule_id, h.seenRule_user hr hbase] at hmatch
              exact ⟨base, hbase, hmatch.1.trans hid.symm, hmatch.2⟩
            · refine absurd ?_ hnew
              exact List.any_eq_true.mpr
                ⟨old, hadded, beq_iff_eq.mpr (hmatch.1.trans hid.symm)⟩
          · exact h.known changed hchanged
  | _ => exact ⟨h.once, h.known⟩

/-- What a transaction publishes leaves alone what the changes of another one rest on. -/
theorem Changes.on_view (h : u.Changes r) (ht : t.Changes r) (hr : (r.rules.map Rule.id).Nodup) :
    u.Changes (t.view r) where
  once := h.once
  known rule hrule := by
    obtain ⟨old, hold, hid, huser⟩ := h.known rule hrule
    refine ⟨t.seenRule old, List.mem_append_left _ (List.mem_map_of_mem hold), ?_, ?_⟩
    · rw [seenRule_id, hid]
    · rw [ht.seenRule_user hr hold, huser]

/-- The identifiers of the rules that a transaction adds, after an answer: the same, or one more,
the one that was drawn. -/
theorem Answers.newRules {t' : Transaction} {stamp : Stamp} {request : Request}
    (h : t.Answers r stamp request t') :
    t'.newRules.map Rule.id = t.newRules.map Rule.id ∨ request.inserts = true ∧
      (some stamp.id ∉ t.newRules.map Rule.id →
        t'.newRules.map Rule.id = t.newRules.map Rule.id ++ [some stamp.id]) := by
  cases h with
  | insertRule rule => exact Or.inr ⟨rfl, fun hnew => (map_put _ _).trans (if_neg hnew)⟩
  | @updateRule rule old id hid hfound =>
      left
      rw [update]
      split
      · next hany =>
          obtain ⟨added, hadded, heq⟩ := List.any_eq_true.mp hany
          rw [map_put, if_pos (List.mem_map.mpr ⟨added, hadded, eq_of_beq heq⟩)]
      · rfl
  | _ => exact Or.inl rfl

theorem Answers.newBookings {t' : Transaction} {stamp : Stamp} {request : Request}
    (h : t.Answers r stamp request t') :
    t'.newBookings.map Booking.id = t.newBookings.map Booking.id ∨ request.inserts = true ∧
      (stamp.id ∉ t.newBookings.map Booking.id →
        t'.newBookings.map Booking.id = t.newBookings.map Booking.id ++ [stamp.id]) := by
  cases h with
  | insertBooking asked => exact Or.inr ⟨rfl, fun hnew => (map_put _ _).trans (if_neg hnew)⟩
  | updateRule hid hfound => exact Or.inl (congrArg _ (update_newBookings _ _))
  | _ => exact Or.inl rfl

theorem Rests.newRules {t' : Transaction} (h : t.Rests t') :
    t'.newRules.map Rule.id = [] ∨
      t'.newRules.map Rule.id = t.newRules.map Rule.id ∧ (t'.ended = false → t.ended = false) := by
  cases h with
  | kept hlive => exact Or.inr ⟨rfl, hlive⟩
  | blank => exact Or.inl rfl

theorem Rests.newBookings {t' : Transaction} (h : t.Rests t') :
    t'.newBookings.map Booking.id = [] ∨
      t'.newBookings.map Booking.id = t.newBookings.map Booking.id ∧
        (t'.ended = false → t.ended = false) := by
  cases h with
  | kept hlive => exact Or.inr ⟨rfl, hlive⟩
  | blank => exact Or.inl rfl

end Transaction

/-! ## Runs in which no identifier is drawn twice -/

/-- The identifiers of rules and of bookings are in use as they should, and so are the changes of
rules. -/
structure Machine.Accounted (names : List String) (m : Machine) : Prop where
  rules : Allotted (fun id => ∃ name ∈ names, id = some name) (m.records.rules.map Rule.id)
    (fun handle => (m.transaction handle).newRules.map Rule.id)
    fun handle => (m.transaction handle).ended = false
  bookings : Allotted (· ∈ names) (m.records.bookings.map Booking.id)
    (fun handle => (m.transaction handle).newBookings.map Booking.id)
    fun handle => (m.transaction handle).ended = false
  changes : ∀ handle, (m.transaction handle).Changes m.records

namespace Machine

theorem accounted_empty : ({} : Machine).Accounted [] where
  rules := .empty fun _ => rfl
  bookings := .empty fun _ => rfl
  changes _ := .of_nil rfl _

namespace Accounted

variable {names : List String} {m : Machine} (h : m.Accounted names)

include h

theorem distinct : m.records.Distinct := ⟨h.rules.recorded_once, h.bookings.recorded_once⟩

theorem distinct_view {handle : Nat} (hlive : (m.transaction handle).ended = false) :
    ((m.transaction handle).view m.records).Distinct where
  rules := by
    rw [Transaction.ids_view_rules]
    exact h.rules.nodup_append hlive
  bookings := by
    rw [Transaction.ids_view_bookings, List.map_append]
    exact h.bookings.nodup_append hlive

/-- An open transaction publishes what it sees. -/
theorem publish_eq_view {handle : Nat} (hlive : (m.transaction handle).ended = false) :
    (m.transaction handle).publish m.records = (m.transaction handle).view m.records := by
  refine Transaction.publish_eq_view (h.distinct_view hlive) (h.changes handle).once
    fun rule hrule => ?_
  obtain ⟨old, hold, hid, -⟩ := (h.changes handle).known rule hrule
  exact List.mem_map.mpr ⟨old, hold, hid⟩

theorem rested {names' : List String} {m' : Machine} (hnames : ∀ name ∈ names, name ∈ names')
    (hrecords : m'.records = m.records)
    (hrests : ∀ handle, (m.transaction handle).Rests (m'.transaction handle)) :
    m'.Accounted names' where
  rules := by
    rw [hrecords]
    exact h.rules.rest (fun id ⟨name, hname, heq⟩ => ⟨name, hnames name hname, heq⟩)
      fun handle => (hrests handle).newRules
  bookings := by
    rw [hrecords]
    exact h.bookings.rest hnames fun handle => (hrests handle).newBookings
  changes handle := by
    rw [hrecords]
    exact (h.changes handle).rests (hrests handle)

theorem answered {names' : List String} {m' : Machine} (hnames : ∀ name ∈ names, name ∈ names')
    (hrecords : m'.records = m.records) {handle : Nat} {stamp : Stamp} {request : Request}
    {held : List Key} (hdrawn : request.inserts = true → stamp.id ∉ names ∧ stamp.id ∈ names')
    (hothers : ∀ other, other ≠ handle → m'.transaction other = m.transaction other)
    (hanswer : m'.transaction handle =
      (Transaction.perform { m.transaction handle with held } m.records stamp request).2) :
    m'.Accounted names' := by
  have hanswers := Transaction.perform_answers { m.transaction handle with held } m.records stamp
    request
  rw [← hanswer] at hanswers
  have hlive : ∀ other, (m'.transaction other).ended = false →
      (m.transaction other).ended = false := by
    intro other hother
    rcases eq_or_ne other handle with rfl | hne
    · rwa [hanswers.ended] at hother
    · rwa [hothers other hne] at hother
  refine ⟨?_, ?_, fun other => ?_⟩
  · rw [hrecords]
    refine h.rules.answer (some stamp.id)
      (fun id ⟨name, hname, heq⟩ => ⟨name, hnames name hname, heq⟩)
      (hanswers.newRules.imp_right fun ⟨hinserts, hadded⟩ => ?_)
      (fun other hne => by rw [hothers other hne]) hlive
    obtain ⟨hnew, hname⟩ := hdrawn hinserts
    have hnot : ¬ ∃ name ∈ names, some stamp.id = some name := by
      rintro ⟨name, hmem, heq⟩
      cases heq
      exact hnew hmem
    exact ⟨hnot, ⟨stamp.id, hname, rfl⟩,
      hadded fun hmem => hnot (h.rules.fresh_drawn handle _ hmem)⟩
  · rw [hrecords]
    refine h.bookings.answer stamp.id hnames
      (hanswers.newBookings.imp_right fun ⟨hinserts, hadded⟩ => ?_)
      (fun other hne => by rw [hothers other hne]) hlive
    obtain ⟨hnew, hname⟩ := hdrawn hinserts
    exact ⟨hnew, hname, hadded fun hmem => hnew (h.bookings.fresh_drawn handle _ hmem)⟩
  · rw [hrecords]
    rcases eq_or_ne other handle with rfl | hne
    · rw [hanswer]
      have hsame : Transaction.Changes { m.transaction other with held } m.records :=
        ⟨(h.changes other).once, (h.changes other).known⟩
      exact hsame.perform h.rules.recorded_once stamp request
    · rw [hothers other hne]
      exact h.changes other

theorem published {m' : Machine} {handle : Nat}
    (hlive : (m.transaction handle).ended = false)
    (hrecords : m'.records = (m.transaction handle).publish m.records)
    (hothers : ∀ other, other ≠ handle → m'.transaction other = m.transaction other)
    (hclosed : m'.transaction handle = closed (m.transaction handle)) :
    m'.Accounted names := by
  rw [h.publish_eq_view hlive] at hrecords
  have hended : ∀ other, (m'.transaction other).ended = false →
      (m.transaction other).ended = false ∧ other ≠ handle := by
    intro other hother
    rcases eq_or_ne other handle with rfl | hne
    · rw [hclosed] at hother
      cases hother
    · exact ⟨by rwa [hothers other hne] at hother, hne⟩
  refine ⟨?_, ?_, fun other => ?_⟩
  · rw [hrecords, Transaction.ids_view_rules]
    refine (h.rules.publish hlive).rest (fun _ hid => hid) fun other => Or.inr ⟨?_, hended other⟩
    rcases eq_or_ne other handle with rfl | hne
    · rw [hclosed]
      rfl
    · rw [hothers other hne]
  · rw [hrecords, Transaction.ids_view_bookings, List.map_append]
    refine (h.bookings.publish hlive).rest (fun _ hid => hid) fun other =>
      Or.inr ⟨?_, hended other⟩
    rcases eq_or_ne other handle with rfl | hne
    · rw [hclosed]
      rfl
    · rw [hothers other hne]
  · rw [hrecords]
    have hchanges : (m'.transaction other).Changes m.records := by
      rcases eq_or_ne other handle with rfl | hne
      · rw [hclosed]
        exact ⟨(h.changes other).once, (h.changes other).known⟩
      · rw [hothers other hne]
        exact h.changes other
    exact hchanges.on_view (h.changes handle) h.rules.recorded_once

end Accounted

end Machine

theorem inserts_of_keyOf? {request : Request} {key : Key} (h : keyOf? request = some key) :
    request.inserts = false := by
  cases request with
  | insertRule rule => cases h
  | insertBooking asked => cases h
  | _ => rfl

namespace Traffic

/-- A request that waits for a key inserts nothing. -/
theorem waiting_run (moves : List Move) :
    ∀ w ∈ (run {} moves).waiting, w.request.inserts = false := by
  suffices h : ∀ s : Traffic, (∀ w ∈ s.waiting, w.request.inserts = false) →
      ∀ w ∈ (s.run moves).waiting, w.request.inserts = false from
    h {} fun _ hw => absurd hw List.not_mem_nil
  induction moves with
  | nil => exact fun _ hs => hs
  | cons move moves ih =>
      intro s hs
      refine ih _ ?_
      cases move with
      | ask stamp caller handle request =>
          rw [take]
          split
          · exact hs
          · split
            · exact hs
            · next hask =>
                obtain ⟨hkey, -⟩ := Machine.ask_queued hask
                intro w hw
                rcases List.mem_append.mp hw with hw | hw
                · exact hs w hw
                · rw [List.mem_singleton.mp hw]
                  exact inserts_of_keyOf? hkey
      | resume stamp caller =>
          rw [take]
          split
          · exact hs
          · split
            · exact fun w hw => hs w (List.mem_filter.mp hw).1
            · exact hs
      | _ => exact hs

theorem accounted_take {names : List String} {s : Traffic} (h : s.machine.Accounted names)
    (hwaiting : ∀ w ∈ s.waiting, w.request.inserts = false) {move : Move}
    (hnew : (names ++ move.drawn?.toList).Nodup) :
    (s.take move).machine.Accounted (names ++ move.drawn?.toList) := by
  have hnames : ∀ name ∈ names, name ∈ names ++ move.drawn?.toList :=
    fun name hname => List.mem_append_left _ hname
  cases s.moved move with
  | rested hrecords hrests => exact h.rested hnames hrecords hrests
  | @answered stamp handle request held hasked hrecords hothers hanswer =>
      refine h.answered hnames hrecords (fun hinserts => ?_) hothers hanswer
      rcases hasked with ⟨caller, rfl⟩ | ⟨w, hw, rfl⟩
      · have hdrawn : (Move.ask stamp caller handle request).drawn? = some stamp.id :=
          if_pos hinserts
        rw [hdrawn] at hnew ⊢
        refine ⟨fun hmem => ?_, List.mem_append_right _ (List.mem_singleton_self _)⟩
        exact (List.nodup_append.mp hnew).2.2 _ hmem _ (List.mem_singleton_self _) rfl
      · rw [hwaiting w hw] at hinserts
        cases hinserts
  | @published handle hmove hpublishes hrecords hothers hclosed =>
      have hlive := (Machine.publishes_iff.mp hpublishes).1
      refine Machine.Accounted.rested (h.published hlive hrecords hothers hclosed) hnames rfl ?_
      exact fun _ => .refl _

/-- As long as no identifier is drawn twice, all of them are accounted for. -/
theorem accounted_run {moves : List Move} (h : (drawn moves).Nodup) :
    (run {} moves).machine.Accounted (drawn moves) := by
  induction moves using List.reverseRecOn with
  | nil => exact Machine.accounted_empty
  | append_singleton past move ih =>
      rw [drawn_concat] at h ⊢
      rw [run_append]
      exact accounted_take (ih (List.nodup_append.mp h).1) (waiting_run past) h

end Traffic

end Bookable.Store
