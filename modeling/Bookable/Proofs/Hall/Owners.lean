import Bookable.Proofs.Hall.Updates
import Bookable.Proofs.Store.Owned

/-!
# Calls that work for one user

Every call is for one user, and all requests that it makes are for that user, whatever
it is answered. The one request that depends on a reply is the change of a rule: it is
for the user of the rule that was looked up, which is the user for whom it was looked
up. So what a call has written and locked is its user's, wherever the call stands.

A turn of such a call leaves the keys of all other users as they are.
-/

namespace Bookable

open Store

/-- The user to whom a call belongs. To cancel a booking is for its owner. -/
def Store.Call.user (owner : String → String) : Call → String
  | .setAvailability user _ | .updateAvailability user _ _ | .listAvailability user => user
  | .listSlots user _ _ | .listBookings user _ _ => user
  | .createBooking request => request.user
  | .cancelBooking id => owner id

variable {α β : Type} {owner : String → String} {user : String}

/-- What can be known of a reply: a rule is one of the user for whom it was looked up. -/
def Request.Honest : (request : Request) → request.Reply → Prop
  | .findRule user _, found => ∀ rule, found = some rule → rule.user = user
  | _, _ => True

theorem Store.Transaction.honest_perform (t : Transaction) (r : Records) (stamp : Stamp)
    (request : Request) : request.Honest (t.perform r stamp request).1 := by
  cases request with
  | findRule user id => exact fun rule hfound => (Records.isOf_of_findRule hfound).2
  | _ => trivial

namespace Program

/-- A program makes requests for one user only. -/
def Of (owner : String → String) (user : String) : Program α → Prop
  | .done _ => True
  | .fail _ => True
  | .opening next => next.Of owner user
  | .ask request next => request.user owner = user ∧
      ∀ reply, request.Honest reply → (next reply).Of owner user
  | .closing next => next.Of owner user

theorem of_bind {p : Program α} {f : α → Program β} (hp : p.Of owner user)
    (hf : ∀ a, (f a).Of owner user) : (p.bind f).Of owner user := by
  induction p with
  | done a => exact hf a
  | fail cause => trivial
  | opening next ih => exact ih hp
  | ask request next ih => exact ⟨hp.1, fun reply hreply => ih reply (hp.2 reply hreply)⟩
  | closing next ih => exact ih hp

theorem of_ofExcept_bind {x : Except Error α} {f : α → Program β}
    (hf : ∀ a, x = .ok a → (f a).Of owner user) : ((ofExcept x).bind f).Of owner user := by
  cases x with
  | error cause => trivial
  | ok a => exact hf a rfl

theorem of_transaction {p : Program α} (hp : p.Of owner user) : (transaction p).Of owner user :=
  of_bind (p := .opening p) hp fun _ => trivial

theorem of_asks {p : Program α} (hp : p.Asks fun request => request.user owner = user) :
    p.Of owner user := by
  induction p with
  | done a => trivial
  | fail cause => trivial
  | ask request next ih => exact ⟨hp.1, fun reply _ => ih reply (hp.2 reply)⟩
  | opening next => exact hp.elim
  | closing next => exact hp.elim

end Program

/-! ## The services -/

theorem of_setAvailability (user : String) (drafts : List RuleDraft) :
    (Service.setAvailability user drafts).Of owner user := by
  induction drafts with
  | nil => trivial
  | cons draft drafts ih =>
      refine Program.of_ofExcept_bind fun rule hrule => Program.of_bind ?_ fun stored => ?_
      · have huser : rule.user = user := by
          obtain ⟨_, -, h⟩ := bind_eq_ok.mp hrule
          cases h
          rfl
        exact Program.of_transaction (Program.of_asks ⟨huser, fun _ => ⟨rfl, fun _ => trivial⟩⟩)
      · exact Program.of_bind ih fun _ => trivial

/-- The rule that is to replace another one has its user. -/
theorem of_edited {changes : RuleChanges} {found : Option Rule}
    (hfound : ∀ rule, found = some rule → rule.user = user) :
    (edited changes found).Of owner user := by
  cases found with
  | none => trivial
  | some rule =>
      refine Program.of_ofExcept_bind fun changed hchanged => ⟨?_, fun reply _ => ?_⟩
      · exact (Rule.id_changed hchanged).2.trans (hfound rule rfl)
      · cases reply <;> trivial

theorem of_updateAvailability (user id : String) (changes : RuleChanges) :
    (Service.updateAvailability user id changes).Of owner user := by
  rw [updateAvailability_eq]
  exact Program.of_transaction ⟨rfl, fun _ hfound => of_edited hfound⟩

theorem of_listBookings (user : String) (start stop : Option Time.Instant) :
    (Service.listBookings user start stop).Of owner user := by
  have hlist : ∀ range,
      (Program.transaction (Program.send (.bookingsOf user range))).Of owner user :=
    fun range => Program.of_transaction (Program.of_asks (Program.asks_send rfl))
  unfold Service.listBookings
  cases start with
  | none => exact hlist none
  | some start =>
      cases stop with
      | none => exact hlist none
      | some stop =>
          exact Program.of_ofExcept_bind (x := Service.window start stop) fun _ _ => hlist _

theorem of_createBooking (request : BookingRequest) :
    (Service.createBooking request).Of owner request.user := by
  rw [createBooking_eq]
  split
  · split
    · refine Program.of_transaction (Program.of_asks ⟨rfl, asks_reserve rfl (fun _ _ => ?_) ?_⟩)
        <;> rfl
    · trivial
  · trivial

namespace Store

/-- All requests of a call are for its user. -/
theorem of_call (owner : String → String) (call : Call) :
    call.program.Of owner (call.user owner) := by
  cases call with
  | setAvailability user drafts =>
      exact Program.of_bind (of_setAvailability user drafts) fun _ => trivial
  | updateAvailability user id changes =>
      exact Program.of_bind (of_updateAvailability user id changes) fun _ => trivial
  | listAvailability user =>
      refine Program.of_bind (Program.of_transaction ?_) fun _ => trivial
      exact Program.of_asks (Program.asks_send rfl)
  | listSlots user start stop =>
      refine Program.of_bind (Program.of_ofExcept_bind fun window _ => ?_) fun _ => trivial
      refine Program.of_transaction (Program.of_asks (asks_slotsWithin ?_ (fun _ _ => ?_) window))
        <;> rfl
  | listBookings user start stop =>
      exact Program.of_bind (of_listBookings user start stop) fun _ => trivial
  | createBooking request => exact Program.of_bind (of_createBooking request) fun _ => trivial
  | cancelBooking id =>
      obtain ⟨p, heq, hp⟩ : ∃ p, Service.cancelBooking id = Program.transaction p ∧
          p.Asks fun request => request.user owner = owner id := asks_cancelBooking rfl rfl
      refine Program.of_bind ?_ fun _ => trivial
      rw [heq]
      exact Program.of_transaction (Program.of_asks hp)

/-! ## Where a call stands -/

namespace Stage

variable {peers : Peers} {pledge : Pledge α} {s : Stage α} {m m' : Machine}

/-- Where a program stands, it has worked for one user and goes on to do so. -/
def Of (owner : String → String) (user : String) (s : Stage α) (m : Machine) : Prop :=
  match s with
  | .active p place? => p.Of owner user ∧
      ∀ place, place? = some place → (m.transaction place.handle).Of owner user
  | .waiting _ request next place => (Program.ask request next).Of owner user ∧
      (m.transaction place.handle).Of owner user
  | .ended _ => True

theorem Of.place (h : s.Of owner user m) {place : Place} (hplace : s.place? = some place) :
    (m.transaction place.handle).Of owner user := by
  cases s with
  | ended result => cases hplace
  | active p place? => exact h.2 place hplace
  | waiting key request next own =>
      cases hplace
      exact h.2

theorem Of.congr (h : s.Of owner user m)
    (heq : ∀ place, s.place? = some place →
      m'.transaction place.handle = m.transaction place.handle) : s.Of owner user m' := by
  cases s with
  | ended result => trivial
  | active p place? =>
      refine ⟨h.1, fun place hplace => ?_⟩
      rw [heq place hplace]
      exact h.2 place hplace
  | waiting key request next place =>
      refine ⟨h.1, ?_⟩
      rw [heq place rfl]
      exact h.2

theorem Of.step (h : s.Of owner user m) (hkeeps : s.Keeps peers pledge m) (caller : Nat)
    (stamp : Stamp) : (s.step caller stamp m).1.Of owner user (s.step caller stamp m).2 := by
  have honly : ∀ {place own : Place} {t : Transaction}, t.Of owner user →
      some own = some place → ∀ m' : Machine, m'.transaction own.handle = t →
        (m'.transaction place.handle).Of owner user := by
    rintro place own t ht ⟨⟩ m' heq
    rwa [heq]
  cases s with
  | ended result => trivial
  | active p place? =>
      cases p with
      | done a => trivial
      | fail cause => trivial
      | opening next =>
          refine ⟨h.1, fun place hplace => honly .blank hplace _ ?_⟩
          show m.begin.2.transaction m.transactions.length = {}
          rw [Machine.transaction_begin, if_pos rfl]
      | ask request next =>
          cases place? with
          | none => trivial
          | some place =>
              have hlt := Machine.lt_length_of_live hkeeps.1.2
              have ht := (h.2 place rfl).locked h.1.1
              rw [Stage.step]
              split
              · next reply m' hask =>
                  obtain ⟨rfl, htransaction⟩ := Machine.transaction_ask hlt hask
                  refine ⟨h.1.2 _ (Transaction.honest_perform _ _ _ _), fun own hown => ?_⟩
                  exact honly (ht.perform h.1.1 _ stamp) hown _ htransaction
              · next key m' hask =>
                  obtain ⟨-, -, -, rfl⟩ := Machine.ask_queued hask
                  exact ⟨h.1, h.2 place rfl⟩
      | closing next =>
          cases place? with
          | none => trivial
          | some place =>
              rw [stage_closing caller stamp next hkeeps.1.2]
              split
              · trivial
              · refine ⟨h.1, fun _ hplace => ?_⟩
                cases hplace
  | waiting key request next place =>
      obtain ⟨⟨-, hlive⟩, hkey, hheld, -⟩ := hkeeps
      rw [Stage.step]
      split
      · obtain ⟨hreply, htransaction⟩ :=
          Machine.resume_spec stamp (Machine.lt_length_of_live hlive) hkey hheld
        refine ⟨h.1.2 _ ?_, fun own hown => ?_⟩
        · rw [hreply]
          exact Transaction.honest_perform _ _ _ _
        · exact honly ((h.2.locked h.1.1).perform h.1.1 _ stamp) hown _ htransaction
      · exact h

/-! ## Keys of other users -/

theorem queue_leave_held {g : Registry} (hg : g.Proper) {t : Transaction}
    (ht : t.Of owner user) (honce : t.held.Nodup) {key : Key} (hkey : key.user owner ≠ user) :
    (t.held.reverse.foldl Registry.leave g).queue key = g.queue key := by
  rw [(Registry.leave_all hg (List.nodup_reverse.mpr honce)).2, if_neg]
  exact fun hheld => hkey (ht.held key (List.mem_reverse.mp hheld))

/-- A turn for one user changes nothing in the queues of the keys of others. -/
theorem Of.queue_step (h : s.Of owner user m) (hm : m.registry.Proper)
    (honce : ∀ place, s.place? = some place → (m.transaction place.handle).held.Nodup)
    (caller : Nat) (stamp : Stamp) {key : Key} (hkey : key.user owner ≠ user) :
    (s.step caller stamp m).2.registry.queue key = m.registry.queue key := by
  have henter : ∀ {request : Request} {needed : Key} (ticket : Ticket),
      request.user owner = user → keyOf? request = some needed →
        (m.registry.enter needed ticket).queue key = m.registry.queue key := by
    intro request needed ticket hrequest hneeded
    rw [(Registry.enter_spec hm needed ticket).2, if_neg]
    rintro rfl
    exact hkey ((user_keyOf? hneeded).trans hrequest)
  cases s with
  | ended result => rfl
  | active p place? =>
      cases p with
      | done a => rfl
      | opening next => rfl
      | fail cause =>
          rcases place? with _ | ⟨handle, _ | _⟩
          · rfl
          · rfl
          · show (m.rollback handle).2.registry.queue key = _
            rw [Machine.rollback_machine]
            split
            · rfl
            · rw [Machine.registry_finish]
              exact queue_leave_held hm (h.2 _ rfl) (honce _ rfl) hkey
      | ask request next =>
          cases place? with
          | none => rfl
          | some place =>
              rw [Stage.step]
              split
              · next hask =>
                  obtain ⟨-, -, rfl⟩ | ⟨needed, hneeded, ⟨-, -, rfl⟩ | ⟨-, -, -, rfl⟩⟩ :=
                    Machine.ask_answered hask
                  · rfl
                  · rfl
                  · exact henter _ h.1.1 hneeded
              · next hask =>
                  obtain ⟨hneeded, -, -, rfl⟩ := Machine.ask_queued hask
                  exact henter _ h.1.1 hneeded
      | closing next =>
          cases place? with
          | none => rfl
          | some place =>
              have hleave := queue_leave_held hm (h.2 place rfl) (honce place rfl) hkey
              rw [step_closing, Machine.commit_machine]
              split
              · rfl
              · split
                · rw [Machine.registry_finish]
                  exact hleave
                · rw [Machine.registry_finish]
                  exact hleave
  | waiting needed request next place =>
      rw [Stage.step]
      split <;> rfl

end Stage

/-- No transaction is forgotten. -/
theorem Stage.length_step (s : Stage α) (m : Machine) (caller : Nat) (stamp : Stamp) :
    m.transactions.length ≤ (s.step caller stamp m).2.transactions.length := by
  cases s with
  | ended result => exact Nat.le_refl _
  | active p place? =>
      cases p with
      | done a => exact Nat.le_refl _
      | fail cause =>
          rcases place? with _ | ⟨handle, _ | _⟩
          · exact Nat.le_refl _
          · exact Nat.le_refl _
          · exact (Machine.length_rollback m handle).ge
      | opening next =>
          show m.transactions.length ≤ (m.transactions ++ [({} : Transaction)]).length
          rw [List.length_append]
          exact Nat.le_add_right _ _
      | ask request next =>
          cases place? with
          | none => exact Nat.le_refl _
          | some place =>
              rw [step]
              split
              · next hask => exact (Machine.length_ask hask).ge
              · next hask =>
                  obtain ⟨-, -, -, rfl⟩ := Machine.ask_queued hask
                  exact Nat.le_refl _
      | closing next =>
          cases place? with
          | none => exact Nat.le_refl _
          | some place =>
              rw [step_closing]
              exact (Machine.length_commit m place.handle).ge
  | waiting key request next place =>
      rw [step]
      split
      · show _ ≤ (Machine.perform _ _ _ _).2.transactions.length
        rw [Machine.length_perform, Machine.length_hold]
      · exact Nat.le_refl _

/-! ## The hall -/

namespace Hall

/-- Every call has worked for its user. -/
def Parted (owner : String → String) (h : Hall) : Prop :=
  ∀ {caller : Nat} {v : Visit}, h.visits[caller]? = some v →
    v.stage.Of owner (v.call.user owner) h.machine

theorem parted_run (owner : String → String) (events : List Event) :
    (Hall.run {} events).Parted owner := by
  induction events using List.reverseRecOn with
  | nil => exact fun hv => nomatch hv
  | append_singleton past event ih =>
      have hf := fair_valid past
      rw [run_append]
      show ((Hall.run {} past).take event).Parted owner
      cases event with
      | call call =>
          intro caller v hv
          rcases visits_call hv with hv | ⟨-, rfl⟩
          · exact ih hv
          · exact ⟨of_call owner call, fun _ hplace => nomatch hplace⟩
      | reorder key tickets =>
          intro caller v hv
          have hof : v.stage.Of owner (v.call.user owner) (Hall.run {} past).machine :=
            ih (show (Hall.run {} past).visits[caller]? = some v from hv)
          exact hof.congr fun place _ => Machine.transaction_reorder _ _ _ _
      | turn stamp caller =>
          rcases (Hall.run {} past).take_turn_cases stamp caller with heq | ⟨v, hv, -, heq⟩
          · rw [heq]
            exact ih
          · rw [heq]
            intro other w hw
            rcases visits_turn hw with ⟨-, rfl⟩ | ⟨hne, hw⟩
            · exact (ih hv).step (hf.keeps hv) caller stamp
            · exact (ih hw).congr fun _ hq => hf.transaction_others hv hw hne stamp hq

end Hall

end Store

end Bookable
