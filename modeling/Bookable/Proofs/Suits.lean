import Bookable.Proofs.Hall.Solo
import Bookable.Proofs.Hall.Updates
import Bookable.Proofs.Store.Table

/-!
# Programs that suit the tables

A program suits the tables if every request that it makes is accepted, whatever the
tables hold when it opens a transaction and whatever stamps it draws. Such a program
comes to the same on the tables as by itself: request by request the working copy is
what its transaction sees, and at the end the one is committed and the other published.

The services suit the tables, since they check what they write. A rule is stored only
after its fields were found to be those of a rule, an update leaves the time of creation
as it was found, and a start is booked only after it was found free.
-/

namespace Bookable

open Store Time

variable {α β : Type}

namespace Program

/-- Every request of a program is accepted, in a transaction that sees certain records or, so far,
outside of one. What is true at the end may depend on the result. -/
def Suits (Q : α → Option Records → Prop) : Program α → Option Records → Prop
  | .done a, v? => Q a v?
  | .fail _, _ => True
  | .opening next, none => ∀ v, v.Storable → next.Suits Q (some v)
  | .ask request next, some v => request.Accepted v ∧ ∀ stamp reply v',
      Table.perform v stamp request = .ok (reply, v') → (next reply).Suits Q (some v')
  | .closing next, some _ => next.Suits Q none
  | _, _ => False

variable {Q : α → Option Records → Prop} {v? : Option Records}

theorem suits_bind {Q : β → Option Records → Prop} {p : Program α} {f : α → Program β} :
    (p.bind f).Suits Q v? ↔ p.Suits (fun a v? => (f a).Suits Q v?) v? := by
  induction p generalizing v? with
  | done a => exact Iff.rfl
  | fail cause => exact Iff.rfl
  | opening next ih =>
      cases v? with
      | none => exact forall_congr' fun v => forall_congr' fun _ => ih
      | some v => exact Iff.rfl
  | ask request next ih =>
      cases v? with
      | none => exact Iff.rfl
      | some v =>
          exact and_congr_right fun _ => forall_congr' fun stamp => forall_congr' fun reply =>
            forall_congr' fun v' => forall_congr' fun _ => ih reply
  | closing next ih =>
      cases v? with
      | none => exact Iff.rfl
      | some v => exact ih

theorem suits_ofExcept_bind {Q : β → Option Records → Prop} {x : Except Error α}
    {f : α → Program β} (hf : ∀ a, x = .ok a → (f a).Suits Q v?) :
    ((ofExcept x).bind f).Suits Q v? := by
  cases x with
  | error cause => trivial
  | ok a => exact hf a rfl

/-- Requests that are accepted whatever the tables hold. -/
theorem suits_of_asks {p : Program α} {v : Records}
    (hp : p.Asks fun request => ∀ v, request.Accepted v) (hQ : ∀ a v, Q a (some v)) :
    p.Suits Q (some v) := by
  induction p generalizing v with
  | done a => exact hQ a v
  | fail cause => trivial
  | ask request next ih => exact ⟨hp.1 v, fun stamp reply v' _ => ih reply (hp.2 reply)⟩
  | opening next => exact hp.elim
  | closing next => exact hp.elim

theorem suits_transaction {p : Program α} :
    (transaction p).Suits Q none ↔
      ∀ v, v.Storable → p.Suits (fun a v? => v?.isSome ∧ Q a none) (some v) := by
  refine forall_congr' fun v => forall_congr' fun _ => suits_bind.trans (iff_of_eq ?_)
  refine congrArg (fun Q' => p.Suits Q' (some v)) (funext fun a => funext fun v? => ?_)
  cases v? with
  | none => exact propext ⟨fun h => h.elim, fun h => nomatch h.1⟩
  | some v => exact propext ⟨fun h => ⟨rfl, h⟩, fun h => h.2⟩

theorem suits_transaction_of_asks {p : Program α}
    (hp : p.Asks fun request => ∀ v, request.Accepted v) (hQ : ∀ a, Q a none) :
    (transaction p).Suits Q none :=
  suits_transaction.mpr fun _ _ => suits_of_asks hp fun a _ => ⟨rfl, hQ a⟩

end Program

/-! ## Serving a program that suits -/

namespace Store

theorem Transaction.view_locked (t : Transaction) (request : Request) (r : Records) :
    (t.locked request).view r = t.view r := by
  rw [locked]
  split
  · split <;> rfl
  · rfl

theorem Transaction.Fits.locked {t : Transaction} {r : Records} (h : t.Fits r)
    (request : Request) : (t.locked request).Fits r := by
  rw [Transaction.locked]
  split
  · split
    · exact h
    · exact ⟨h.distinct, h.changes, h.changed, h.cancelled, h.clear⟩
  · exact h

/-- Records that the tables can hold, under identifiers that a supply has given out. -/
structure Records.Sound (r : Records) (s : Supply) : Prop where
  distinct : r.Distinct
  storable : r.Storable
  covered : s.Covers r

/-- What the tables come to is what the program comes to by itself. -/
def TableDesk.Matches (out : Except Error α × Records × Supply)
    (served : Except Error α × Option Work × TableDesk) : Prop :=
  served.1 = out.1 ∧ served.2.2 = ⟨out.2.1, out.2.2⟩ ∧ out.2.1.Sound out.2.2

/-- The tables serve a program that suits them as it runs by itself. -/
theorem TableDesk.serve_suited {Q : α → Option Records → Prop} (p : Program α) :
    ∀ {t? : Option Transaction} {r : Records} {s : Supply},
      p.Suits Q (t?.map (·.view r)) → r.Sound s →
      (∀ t, t? = some t → t.Fits r ∧ (t.view r).Sound s) →
      Matches (p.solo t? r s)
        (serve p (t?.map fun t => { records := t.view r }) { records := r, supply := s }) := by
  induction p with
  | done a =>
      intro t? r s _ hr _
      exact ⟨rfl, rfl, hr⟩
  | fail cause =>
      intro t? r s _ hr _
      exact ⟨rfl, rfl, hr⟩
  | opening next ih =>
      intro t? r s hsuits hr _
      cases t? with
      | some t => exact hsuits.elim
      | none =>
          have hview : ({} : Transaction).view r = r := Transaction.view_blank [] r
          have hnext : next.Suits Q ((some {}).map fun t : Transaction => t.view r) := by
            rw [Option.map_some, hview]
            exact hsuits r hr.storable
          have hopened := ih hnext hr fun t ht => by
            cases ht
            exact ⟨.blank [] hr.distinct, by rwa [hview]⟩
          simp only [Option.map_some, hview] at hopened
          exact hopened
  | ask request next ih =>
      intro t? r s hsuits hr ht
      cases t? with
      | none => exact hsuits.elim
      | some t =>
          obtain ⟨haccepted, hnext⟩ : request.Accepted (t.view r) ∧ ∀ stamp reply v',
              Table.perform (t.view r) stamp request = .ok (reply, v') →
                (next reply).Suits Q (some v') := hsuits
          obtain ⟨hfits, hv⟩ := ht t rfl
          -- Only the desk has locks; they change nothing of what the transaction sees.
          rw [← t.view_locked request r] at haccepted hnext hv
          obtain ⟨hperform, hfits'⟩ :=
            (hfits.locked request).perform hv.covered.fresh haccepted
          have hcovers := hv.covered.perform hperform
          have hstorable := hv.storable.perform hv.covered.fresh haccepted hperform
          rw [Program.solo, Option.map_some, serve, ← t.view_locked request r]
          simp only [Bool.false_eq_true, if_false, hperform]
          refine @ih _ (some _) r (s.after request) (hnext _ _ _ hperform)
            ⟨hr.distinct, hr.storable, hr.covered.after request⟩ fun t' ht' => ?_
          cases ht'
          exact ⟨hfits', hfits'.distinct, hstorable, hcovers⟩
  | closing next ih =>
      intro t? r s hsuits hr ht
      cases t? with
      | none => exact hsuits.elim
      | some t =>
          obtain ⟨hfits, hv⟩ := ht t rfl
          -- A transaction that fits has no conflict left to find, and publishes what it sees.
          rw [Program.solo, hfits.clear, if_neg Bool.false_ne_true,
            Transaction.publish_eq_view hfits.distinct hfits.changes hfits.changed]
          exact @ih none (t.view r) s hsuits hv fun t ht => absurd ht.symm (Option.some_ne_none t)

end Store

/-! ## What callers give -/

/-- A rule that is to be stored has a truth value and a text where these belong, and a slot length
that is not too large for its column. -/
structure RuleDraft.Storable (d : RuleDraft) : Prop where
  available : ∃ b, d.available = .bool b
  title : ∃ s, d.title = .text s
  slotLength : ∀ n, d.slotLength = .int n → Table.fits n = true

/-- The same of new values for a rule. -/
structure RuleChanges.Storable (c : RuleChanges) : Prop where
  available : ∀ v, c.available = some v → ∃ b, v = .bool b
  title : ∀ v, c.title = some v → ∃ s, v = .text s
  slotLength : ∀ n, c.slotLength = some (.int n) → Table.fits n = true

/-- What a call gives has a place in the tables. -/
def Store.Call.Storable : Call → Prop
  | .setAvailability _ drafts => ∀ draft ∈ drafts, draft.Storable
  | .updateAvailability _ _ changes => changes.Storable
  | .createBooking request => request.Complete
  | _ => True

theorem Store.Table.fits_day {n : Int} (h0 : 0 ≤ n) (h6 : n ≤ 6) : fits n = true := by
  rw [fits, Bool.and_eq_true, decide_eq_true_eq, decide_eq_true_eq, Number.wordBound]
  omega

theorem Rule.Valid.storable {r : Rule} (h : r.Valid)
    (hlength : ∀ n, r.slotLength = .int n → Table.fits n = true)
    (havailable : ∃ b, r.available = .bool b) (htitle : ∃ s, r.title = .text s) :
    r.Storable := by
  obtain ⟨day, length, start, stop, hday, h0, h6, hslot, -, hstart, hstop, -⟩ := h
  exact {
    dayOfWeek := ⟨day, hday, Table.fits_day h0 h6⟩
    startTime := ⟨_, hstart⟩
    endTime := ⟨_, hstop⟩
    slotLength := ⟨length, hslot, hlength length hslot⟩
    available := havailable
    title := htitle }

theorem RuleDraft.Storable.normalized {d : RuleDraft} (h : d.Storable) {user : String}
    {rule : Rule} (hrule : (d.rule user).normalized = .ok rule) : rule.Storable := by
  have hvalid := Rule.valid_of_normalized hrule
  obtain ⟨title, htitle⟩ := h.title
  rw [Rule.normalized] at hrule
  obtain ⟨times, hchecked, hrule⟩ := bind_eq_ok.mp hrule
  cases hrule
  refine hvalid.storable h.slotLength h.available ?_
  show ∃ s, (if d.title.truthy then d.title else .text "") = .text s
  split
  · exact ⟨title, htitle⟩
  · exact ⟨"", rfl⟩

theorem RuleChanges.Storable.changed {c : RuleChanges} (h : c.Storable) {r r' : Rule}
    (hr : r.Storable) (hchanged : r.changed c = .ok r') : r'.Storable := by
  have hvalid : r'.Valid := by
    obtain ⟨merged, -, hnormalized⟩ := bind_eq_ok.mp hchanged
    exact Rule.valid_of_normalized hnormalized
  obtain ⟨from?, to?, start, stop, hfrom, hto, hchecked, rfl⟩ := Rule.changed_eq_ok.mp hchanged
  refine hvalid.storable (fun n hn => ?_) ?_ ?_
  · change c.slotLength.getD r.slotLength = .int n at hn
    cases hlength : c.slotLength with
    | some v =>
        rw [hlength, Option.getD_some] at hn
        exact h.slotLength n (hlength.trans (congrArg some hn))
    | none =>
        obtain ⟨length, hslot, hfits⟩ := hr.slotLength
        rw [hlength, Option.getD_none, hslot] at hn
        cases hn
        exact hfits
  · show ∃ b, c.available.getD r.available = .bool b
    cases havailable : c.available with
    | some v => exact h.available v havailable
    | none => exact hr.available
  · show ∃ s, c.title.getD r.title = .text s
    cases htitle : c.title with
    | some v => exact h.title v htitle
    | none => exact hr.title

/-! ## The services -/

theorem suits_setAvailability {user : String} {drafts : List RuleDraft}
    (h : ∀ draft ∈ drafts, draft.Storable) {Q : List Rule → Option Records → Prop}
    (hQ : ∀ rules, Q rules none) : (Service.setAvailability user drafts).Suits Q none := by
  induction drafts generalizing Q with
  | nil => exact hQ []
  | cons draft drafts ih =>
      refine Program.suits_ofExcept_bind fun rule hrule => ?_
      have hstorable := (h draft List.mem_cons_self).normalized hrule
      refine Program.suits_bind.mpr (Program.suits_transaction_of_asks ?_ fun stored => ?_)
      · exact ⟨fun _ => hstorable, fun id => ⟨fun _ => trivial, fun _ => trivial⟩⟩
      · refine Program.suits_bind.mpr ?_
        exact ih (fun other hother => h other (List.mem_cons_of_mem draft hother))
          fun others => hQ (stored.toList ++ others)

/-- What was looked up is stored again with the time of its creation. -/
theorem suits_updateAvailability {user id : String} {changes : RuleChanges}
    (h : changes.Storable) :
    (Service.updateAvailability user id changes).Suits (fun _ _ => True) none := by
  rw [updateAvailability_eq]
  refine Program.suits_transaction.mpr fun v hv => ⟨trivial, fun stamp reply v' hfind => ?_⟩
  cases hfind
  cases hfound : v.findRule user id with
  | none => trivial
  | some current =>
      refine Program.suits_ofExcept_bind fun rule hrule => ?_
      have hcurrent := hv current (List.mem_of_find?_eq_some hfound)
      refine ⟨⟨h.changed hcurrent hrule, fun id' old hid hold => ?_⟩, fun stamp reply v' _ => ?_⟩
      · obtain ⟨hsame, huser⟩ := Rule.id_changed hrule
        obtain ⟨hid', huser'⟩ := Records.isOf_of_findRule hfound
        obtain rfl : id' = id := Option.some.inj (hid.symm.trans (hsame.trans hid'))
        rw [huser, huser', hfound] at hold
        cases hold
        obtain ⟨-, -, -, -, -, -, -, rfl⟩ := Rule.changed_eq_ok.mp hrule
        rfl
      · cases reply with
        | none => trivial
        | some stored => exact ⟨rfl, trivial⟩

theorem suits_slotsWithin {user : String} {window : Interval} {v : Records}
    {Q : List Interval → Option Records → Prop} (hQ : ∀ slots, Q slots (some v)) :
    (Service.slotsWithin user window).Suits Q (some v) := by
  rw [slotsWithin_eq]
  refine ⟨trivial, fun stamp rules v' hrules => ?_⟩
  cases hrules
  show Program.Suits Q (if List.isEmpty _ = true then _ else _) (some v)
  split
  · exact hQ []
  · refine Program.suits_ofExcept_bind fun candidates _ => ?_
    split
    · exact hQ []
    · refine Program.suits_ofExcept_bind fun range _ => ⟨trivial, fun stamp reply v' hload => ?_⟩
      cases hload
      exact hQ _

/-- A start that is booked was found free, and nothing was written since. -/
theorem suits_createBooking {request : BookingRequest} (h : request.Complete) :
    (Service.createBooking request).Suits (fun _ _ => True) none := by
  rw [createBooking_eq]
  split
  · split
    · refine Program.suits_transaction.mpr fun v _ => ⟨trivial, fun stamp reply v' hlook => ?_⟩
      rw [Table.perform, Table.confirmedAt_eq] at hlook
      cases hlook
      cases hfree : v.confirmedAt request.user request.start with
      | some id => trivial
      | none =>
          refine Program.suits_ofExcept_bind fun window _ => ?_
          refine Program.suits_bind.mpr (suits_slotsWithin fun slots => ?_)
          split
          · exact ⟨⟨h, hfree⟩, fun stamp booking v' _ => ⟨rfl, trivial⟩⟩
          · trivial
    · trivial
  · trivial

theorem suits_listBookings (user : String) (start stop : Option Instant) :
    (Service.listBookings user start stop).Suits (fun _ _ => True) none := by
  have hlist : ∀ range, (Program.transaction (Program.send (.bookingsOf user range))).Suits
      (fun _ _ => True) none := fun range =>
    Program.suits_transaction_of_asks ⟨fun _ => trivial, fun _ => trivial⟩ fun _ => trivial
  unfold Service.listBookings
  cases start with
  | none => exact hlist none
  | some start =>
      cases stop with
      | none => exact hlist none
      | some stop =>
          exact Program.suits_ofExcept_bind (x := Service.window start stop)
            fun window _ => hlist (some (window.start, window.stop))

theorem suits_call {call : Call} (h : call.Storable) :
    call.program.Suits (fun _ _ => True) none := by
  cases call with
  | setAvailability user drafts =>
      exact Program.suits_bind.mpr (suits_setAvailability h fun _ => trivial)
  | updateAvailability user id changes =>
      exact Program.suits_bind.mpr (suits_updateAvailability h)
  | listAvailability user =>
      refine Program.suits_bind.mpr (Program.suits_transaction_of_asks ?_ fun _ => trivial)
      exact ⟨fun _ => trivial, fun _ => trivial⟩
  | listSlots user start stop =>
      refine Program.suits_bind.mpr (Program.suits_ofExcept_bind fun window _ => ?_)
      refine Program.suits_transaction_of_asks (asks_slotsWithin ?_ ?_ window) fun _ => trivial
      · exact fun _ => trivial
      · exact fun _ _ _ => trivial
  | listBookings user start stop =>
      exact Program.suits_bind.mpr (suits_listBookings user start stop)
  | createBooking request => exact Program.suits_bind.mpr (suits_createBooking h)
  | cancelBooking id =>
      obtain ⟨p, heq, hp⟩ : ∃ p, Service.cancelBooking id = Program.transaction p ∧
          p.Asks fun request => ∀ v, request.Accepted v :=
        asks_cancelBooking (fun _ => trivial) fun _ => trivial
      refine Program.suits_bind.mpr ?_
      rw [heq]
      exact Program.suits_transaction_of_asks hp fun _ => trivial

end Bookable
