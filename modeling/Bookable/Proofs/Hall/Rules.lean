import Bookable.Proofs.Changes
import Bookable.Proofs.Hall.Order
import Bookable.Proofs.Hall.Reservation
import Bookable.Proofs.Slots.Walk

/-!
# The rules that services store

A rule goes into a transaction only after `Rule.normalized` has let it pass, so it is
valid: its fields are those of a rule, and its times are in normal form. Nothing else
about a service matters for this, and it is enough to look at the requests that a
program can make, which is what `Program.Asks` does. Since every service is some
transactions of such programs one after the other, every state that the services can
reach, in whatever order they take their turns, has valid rules only, and a registry
without a lock.
-/

namespace Bookable

open Store Time

variable {α β : Type}

/-! ## Valid rules -/

/-- The fields of a rule are those of a rule, and its times are written as times are. -/
def Rule.Valid (r : Rule) : Prop :=
  ∃ (day length : Int) (start stop : OfDay), r.dayOfWeek = .int day ∧ 0 ≤ day ∧ day ≤ 6 ∧
    r.slotLength = .int length ∧ 0 < length ∧ r.startTime = .ofTime start ∧
    r.endTime = .ofTime stop ∧ start.minutes < stop.minutes

theorem Rule.Valid.typed {r : Rule} (h : r.Valid) : r.Typed := by
  obtain ⟨day, length, start, stop, hday, -, -, hlength, -, hstart, hstop, -⟩ := h
  exact ⟨day, length, _, _, hday, hstart, hstop, hlength⟩

theorem Rule.valid_of_normalized {r r' : Rule} (h : r.normalized = .ok r') : r'.Valid := by
  rw [normalized] at h
  obtain ⟨⟨start, stop⟩, hchecked, h⟩ := bind_eq_ok.mp h
  obtain ⟨⟨day, length, hday, h0, h6, hlength, hpos, hord⟩, -, -⟩ := checked_ok hchecked
  cases h
  exact ⟨day, length, start, stop, hday, h0, h6, hlength, hpos, rfl, rfl, hord⟩

/-! ## Requests that a program can make -/

namespace Program

/-- A program works in the transaction at hand and makes certain requests only. -/
def Asks (allowed : Request → Prop) : Program α → Prop
  | .done _ => True
  | .fail _ => True
  | .ask request next => allowed request ∧ ∀ reply, (next reply).Asks allowed
  | .opening _ => False
  | .closing _ => False

variable {allowed : Request → Prop}

theorem asks_send {request : Request} (h : allowed request) : (send request).Asks allowed :=
  ⟨h, fun _ => trivial⟩

theorem asks_ofExcept_bind {x : Except Error α} {f : α → Program β}
    (hf : ∀ a, x = .ok a → (f a).Asks allowed) : ((ofExcept x).bind f).Asks allowed := by
  cases x with
  | error cause => trivial
  | ok a => exact hf a rfl

theorem asks_bind {p : Program α} {f : α → Program β} (hp : p.Asks allowed)
    (hf : ∀ a, (f a).Asks allowed) : (p.bind f).Asks allowed := by
  induction p with
  | done a => exact hf a
  | fail cause => trivial
  | ask request next ih => exact ⟨hp.1, fun reply => ih reply (hp.2 reply)⟩
  | opening next => exact hp.elim
  | closing next => exact hp.elim

end Program

/-! ## Writing rules of one kind only -/

/-- The rules of a transaction have a property. -/
def Store.Transaction.RulesAll (Q : Rule → Prop) (t : Transaction) : Prop :=
  (∀ rule ∈ t.newRules, Q rule) ∧ ∀ rule ∈ t.updatedRules, Q rule

def Store.Records.RulesAll (Q : Rule → Prop) (r : Records) : Prop := ∀ rule ∈ r.rules, Q rule

/-- A request writes no rule without a property, whatever it draws. -/
def Request.Writes (Q : Rule → Prop) : Request → Prop
  | .insertRule rule => ∀ stamp, Q (newRule stamp rule)
  | .updateRule rule => ∀ now, Q { rule with updatedAt := some now }
  | _ => True

/-- A request that does not write a rule that is not valid. -/
def Request.Proper : Request → Prop
  | .insertRule rule => rule.Valid
  | .updateRule rule => rule.Valid
  | _ => True

theorem Request.Proper.writes {request : Request} (h : request.Proper) :
    request.Writes Rule.Valid := by
  cases request with
  | insertRule rule => exact fun _ => h
  | updateRule rule => exact fun _ => h
  | _ => trivial

/-- The rules of a transaction are valid. -/
def Store.Transaction.RulesValid (t : Transaction) : Prop := t.RulesAll Rule.Valid

def Store.Records.RulesValid (r : Records) : Prop := r.RulesAll Rule.Valid

namespace Store

theorem forall_mem_put {p : α → Prop} {κ : Type} [DecidableEq κ] {key : α → κ} {a : α}
    {l : List α} (ha : p a) (hl : ∀ b ∈ l, p b) : ∀ b ∈ put key a l, p b := by
  intro b hb
  rcases mem_of_mem_put hb with rfl | hb
  · exact ha
  · exact hl b hb

theorem forall_mem_foldl_put {p : α → Prop} {κ : Type} [DecidableEq κ] {key : α → κ}
    {news l : List α} (hnews : ∀ a ∈ news, p a) (hl : ∀ b ∈ l, p b) :
    ∀ b ∈ news.foldl (fun l a => put key a l) l, p b := by
  intro b hb
  rcases mem_of_mem_foldl_put hb with hb | hb
  · exact hnews b hb
  · exact hl b hb

section RulesAll

variable {Q : Rule → Prop} {t : Transaction}

theorem Transaction.RulesAll.update (ht : t.RulesAll Q) {rule : Rule} (hrule : Q rule) :
    (t.update rule).RulesAll Q := by
  rw [Transaction.update]
  split
  · exact ⟨forall_mem_put hrule ht.1, ht.2⟩
  · exact ⟨ht.1, forall_mem_put hrule ht.2⟩

theorem rulesAll_upheld (Q : Rule → Prop) :
    Upheld (Request.Writes Q) (fun _ => True) (Transaction.RulesAll Q) where
  opened := ⟨fun _ h => absurd h List.not_mem_nil, fun _ h => absurd h List.not_mem_nil⟩
  touched _ _ h := h
  performed {t r request} stamp hreq _ ht := by
    have hanswers := t.perform_answers r stamp request
    generalize (t.perform r stamp request).2 = t' at hanswers ⊢
    cases hanswers with
    | insertRule rule => exact ⟨forall_mem_put (hreq stamp) ht.1, ht.2⟩
    | updateRule _ _ => exact ht.update (hreq stamp.now)
    | _ => exact ht

theorem Transaction.RulesAll.publish (ht : t.RulesAll Q) {r : Records} (hr : r.RulesAll Q) :
    (t.publish r).RulesAll Q := by
  refine forall_mem_foldl_put (fun rule hrule => ?_) hr
  rcases List.mem_append.mp hrule with hrule | hrule
  · exact ht.2 rule hrule
  · exact ht.1 rule hrule

end RulesAll

theorem rulesValid_upheld :
    Upheld Request.Proper (fun _ => True) Transaction.RulesValid :=
  (rulesAll_upheld Rule.Valid).mono fun _ h => h.writes

theorem Transaction.RulesValid.publish {t : Transaction} (ht : t.RulesValid) {r : Records}
    (hr : r.RulesValid) : (t.publish r).RulesValid :=
  Transaction.RulesAll.publish ht hr

/-! ## Committing what is of one kind only -/

/-- Peers that keep up a property of the records. -/
def Peers.keeping (R : Records → Prop) : Peers where
  may _ r r' := R r → R r'
  stamps _ _ := True
  refl _ _ h := h
  trans h h' hr := h' (h hr)

/-- To commit only what is of a certain kind. -/
def Pledge.writing (T : Transaction → Prop) : Pledge α where
  commits t _ _ := T t
  clashes _ _ := True
  fails _ _ := True
  ends _ t? _ := t? = none

theorem pact_writing {R : Records → Prop} {T : Transaction → Prop}
    (hpublish : ∀ {t r}, T t → R r → R (t.publish r)) :
    Hall.Pact (Peers.keeping R) fun _ => Pledge.writing T where
  sound _ := {
    outside h := nomatch h
    ends h _ := h
    fails _ _ := trivial
    commits ht _ _ _ hr := hpublish ht hr }
  stamps _ := trivial

end Store

section Writing

variable {peers : Peers} {allowed : Request → Prop} {T : Transaction → Prop}

namespace Program

/-- A program that makes the requests that are allowed keeps its transaction of the kind that these
uphold. -/
theorem keeps_of_asks (up : Upheld allowed (fun _ => True) T) {pledge : Pledge α}
    {p : Program α} (hp : p.Asks allowed) (hfails : ∀ cause r, pledge.fails cause r)
    (hends : ∀ a (t : Transaction) r, T t → pledge.ends a (some t) r)
    {t : Transaction} (ht : T t) (r : Records) : p.Keeps peers pledge (some t) r := by
  induction p generalizing t r with
  | done a => exact hends a t r ht
  | fail cause => exact fun r' _ => hfails cause r'
  | ask request next ih =>
      intro r' stamp _ _
      refine ih _ (hp.2 _) ?_ _
      refine up.performed stamp hp.1 trivial ?_
      rw [Transaction.locked]
      split
      · split
        · exact ht
        · exact up.touched _ _ ht
      · exact ht
  | opening next => exact hp.elim
  | closing next => exact hp.elim

/-- Such a program can close its transaction afterwards. -/
theorem keeps_closing (up : Upheld allowed (fun _ => True) T) {p : Program α}
    (hp : p.Asks allowed) {t : Transaction} (ht : T t) (r : Records) :
    (p.bind fun a => .closing (.done a)).Keeps peers (Pledge.writing T) (some t) r := by
  rw [keeps_bind]
  refine keeps_of_asks up hp (fun _ _ => trivial) (fun a t r ht => ?_) ht r
  intro r' _
  split
  · exact ⟨trivial, trivial⟩
  · exact ⟨ht, rfl⟩

theorem keeps_transaction (up : Upheld allowed (fun _ => True) T) {p : Program α}
    (hp : p.Asks allowed) (r : Records) :
    (transaction p).Keeps peers (Pledge.writing T) none r :=
  fun r' _ => keeps_closing up hp up.opened r'

theorem keeps_writing_bind {p : Program α} {f : α → Program β} {r : Records}
    (hp : p.Keeps peers (Pledge.writing T) none r)
    (hf : ∀ a r', (f a).Keeps peers (Pledge.writing T) none r') :
    (p.bind f).Keeps peers (Pledge.writing T) none r := by
  rw [keeps_bind]
  refine Program.Keeps.weaken ?_ ?_ ?_ ?_ hp
  · exact fun h => h
  · exact fun _ => trivial
  · exact fun _ => trivial
  · intro a t? r' hends
    cases hends
    exact hf a r'

theorem keeps_writing_ofExcept {x : Except Error α} {f : α → Program β} {r : Records}
    (hf : ∀ a, x = .ok a → (f a).Keeps peers (Pledge.writing T) none r) :
    ((ofExcept x).bind f).Keeps peers (Pledge.writing T) none r := by
  cases x with
  | error cause => exact fun _ _ => trivial
  | ok a => exact hf a rfl

end Program

/-! ## The services -/

/-- A request as services make them that do not book. -/
def Request.Routine : Request → Prop
  | .insertBooking _ => False
  | request => request.Proper

theorem Request.Routine.proper {request : Request} (h : request.Routine) : request.Proper := by
  cases request with
  | insertBooking request => exact h.elim
  | _ => exact h

/-- A request as services make them that neither change rules nor book. -/
def Request.Plain : Request → Prop
  | .insertRule _ | .updateRule _ | .insertBooking _ => False
  | _ => True

theorem Request.Plain.routine {request : Request} (h : request.Plain) : request.Routine := by
  cases request with
  | insertRule rule => exact h.elim
  | updateRule rule => exact h.elim
  | insertBooking request => exact h.elim
  | _ => trivial

theorem Request.Plain.writes {request : Request} (h : request.Plain) (Q : Rule → Prop) :
    request.Writes Q := by
  cases request with
  | insertRule rule => exact h.elim
  | updateRule rule => exact h.elim
  | _ => trivial

theorem asks_slotsWithin {user : String} (hrules : allowed (.rulesOf user))
    (hbookings : ∀ start stop, allowed (.confirmedWithin user start stop)) (window : Interval) :
    (Service.slotsWithin user window).Asks allowed := by
  rw [slotsWithin_eq]
  refine ⟨hrules, fun rules => ?_⟩
  show Program.Asks allowed (if List.isEmpty rules = true then _ else _)
  split
  · trivial
  · refine Program.asks_ofExcept_bind fun candidates _ => ?_
    split
    · trivial
    · exact Program.asks_ofExcept_bind fun range _ => ⟨hbookings _ _, fun _ => trivial⟩

theorem asks_reserve {request : BookingRequest} (hrules : allowed (.rulesOf request.user))
    (hbookings : ∀ start stop, allowed (.confirmedWithin request.user start stop))
    (hinsert : allowed (.insertBooking request)) (found : Option String) :
    (reserve request found).Asks allowed := by
  cases found with
  | some id => trivial
  | none =>
      refine Program.asks_ofExcept_bind fun window _ => ?_
      refine Program.asks_bind (asks_slotsWithin hrules hbookings window) fun slots => ?_
      split
      · exact ⟨hinsert, fun _ => trivial⟩
      · trivial

theorem asks_cancelBooking {id : String} (hstatus : allowed (.statusOf id))
    (hcancel : allowed (.cancelBooking id)) :
    ∃ p : Program Unit, Service.cancelBooking id = Program.transaction p ∧ p.Asks allowed := by
  refine ⟨_, cancelBooking_eq id, hstatus, fun status => ?_⟩
  rcases status with _ | _ | _
  · trivial
  · refine ⟨hcancel, fun count => ?_⟩
    show Program.Asks allowed (if _ then _ else _)
    split <;> trivial
  · trivial

theorem asks_updateAvailability {user id : String} {changes : RuleChanges}
    (hfind : allowed (.findRule user id))
    (hupdate : ∀ rule : Rule, rule.Valid → allowed (.updateRule rule)) :
    ∃ p : Program Rule, Service.updateAvailability user id changes = Program.transaction p ∧
      p.Asks allowed := by
  refine ⟨_, rfl, hfind, fun reply => ?_⟩
  cases reply with
  | none => trivial
  | some existing =>
      refine Program.asks_ofExcept_bind fun merged _ => ?_
      refine Program.asks_ofExcept_bind fun rule hrule => ?_
      refine ⟨hupdate rule (Rule.valid_of_normalized hrule), fun reply => ?_⟩
      cases reply <;> trivial

section Services

/-- What is asked of the rules that a call to set rules inserts, when its drafts have passed the
check. -/
theorem keeps_setAvailability_of (up : Upheld allowed (fun _ => True) T) {user : String}
    {drafts : List RuleDraft}
    (hinsert : ∀ draft ∈ drafts, ∀ rule, (draft.rule user).normalized = .ok rule →
      allowed (.insertRule rule))
    (hfind : ∀ id, allowed (.findRule user id)) (r : Records) :
    (Service.setAvailability user drafts).Keeps peers (Pledge.writing T) none r := by
  induction drafts generalizing r with
  | nil => rfl
  | cons draft drafts ih =>
      refine Program.keeps_writing_ofExcept fun rule hrule => ?_
      refine Program.keeps_writing_bind ?_ fun stored r' => ?_
      · refine Program.keeps_transaction up ?_ r
        exact ⟨hinsert draft List.mem_cons_self rule hrule, fun id => ⟨hfind id, fun _ => trivial⟩⟩
      · have hothers := ih (fun draft hdraft => hinsert draft (List.mem_cons_of_mem _ hdraft)) r'
        exact Program.keeps_writing_bind hothers fun others _ => rfl

variable (up : Upheld Request.Routine (fun _ => True) T)

include up

theorem keeps_setAvailability (user : String) (drafts : List RuleDraft) (r : Records) :
    (Service.setAvailability user drafts).Keeps peers (Pledge.writing T) none r := by
  refine keeps_setAvailability_of up (fun draft _ rule hrule => ?_) (fun _ => trivial) r
  exact Rule.valid_of_normalized hrule

theorem keeps_updateAvailability (user id : String) (changes : RuleChanges) (r : Records) :
    (Service.updateAvailability user id changes).Keeps peers (Pledge.writing T) none r := by
  obtain ⟨p, heq, hp⟩ : ∃ p, Service.updateAvailability user id changes = Program.transaction p ∧
      p.Asks Request.Routine := asks_updateAvailability trivial fun _ hrule => hrule
  rw [heq]
  exact Program.keeps_transaction up hp r

end Services

section Calls

/-- What plain requests that need no key uphold is upheld by every call, if those that write uphold
it. -/
theorem keeps_call_reading (up : Upheld allowed (fun _ => True) T)
    (hallowed : ∀ request : Request, request.Plain → keyOf? request = none → allowed request)
    {call : Call} {r : Records}
    (hset : ∀ user drafts, call = .setAvailability user drafts →
      (Service.setAvailability user drafts).Keeps peers (Pledge.writing T) none r)
    (hupdate : ∀ user id changes, call = .updateAvailability user id changes →
      (Service.updateAvailability user id changes).Keeps peers (Pledge.writing T) none r)
    (hbooking : ∀ request, call = .createBooking request →
      (Service.createBooking request).Keeps peers (Pledge.writing T) none r)
    (hcancel : ∀ id, call = .cancelBooking id →
      (Service.cancelBooking id).Keeps peers (Pledge.writing T) none r) :
    call.program.Keeps peers (Pledge.writing T) none r := by
  cases call with
  | setAvailability user drafts =>
      exact Program.keeps_writing_bind (hset user drafts rfl) fun _ _ => rfl
  | updateAvailability user id changes =>
      exact Program.keeps_writing_bind (hupdate user id changes rfl) fun _ _ => rfl
  | listAvailability user =>
      refine Program.keeps_writing_bind ?_ fun _ _ => rfl
      exact Program.keeps_transaction up (Program.asks_send (hallowed _ (by trivial) rfl)) r
  | listSlots user start stop =>
      refine Program.keeps_writing_bind ?_ fun _ _ => rfl
      refine Program.keeps_writing_ofExcept fun window _ => ?_
      refine Program.keeps_transaction up (asks_slotsWithin ?_ ?_ window) r
      · exact hallowed _ trivial rfl
      · exact fun _ _ => hallowed _ trivial rfl
  | listBookings user start stop =>
      refine Program.keeps_writing_bind ?_ fun _ _ => rfl
      have hlist : ∀ range, (Program.transaction (Program.send (.bookingsOf user range))).Keeps
          peers (Pledge.writing T) none r :=
        fun range => Program.keeps_transaction up
          (Program.asks_send (hallowed _ (by trivial) rfl)) r
      unfold Service.listBookings
      cases start with
      | none => exact hlist none
      | some start =>
          cases stop with
          | none => exact hlist none
          | some stop =>
              exact Program.keeps_writing_ofExcept (x := Service.window start stop)
                fun window _ => hlist (some (window.start, window.stop))
  | createBooking request =>
      exact Program.keeps_writing_bind (hbooking request rfl) fun _ _ => rfl
  | cancelBooking id => exact Program.keeps_writing_bind (hcancel id rfl) fun _ _ => rfl

/-- What plain requests uphold is upheld by every call, if those that set or update rules and those
that book uphold it. -/
theorem keeps_call_of (up : Upheld Request.Plain (fun _ => True) T) {call : Call} {r : Records}
    (hset : ∀ user drafts, call = .setAvailability user drafts →
      (Service.setAvailability user drafts).Keeps peers (Pledge.writing T) none r)
    (hupdate : ∀ user id changes, call = .updateAvailability user id changes →
      (Service.updateAvailability user id changes).Keeps peers (Pledge.writing T) none r)
    (hbooking : ∀ request, call = .createBooking request →
      (Service.createBooking request).Keeps peers (Pledge.writing T) none r) :
    call.program.Keeps peers (Pledge.writing T) none r := by
  refine keeps_call_reading up (fun _ h _ => h) hset hupdate hbooking fun id _ => ?_
  obtain ⟨p, heq, hp⟩ : ∃ p, Service.cancelBooking id = Program.transaction p ∧
      p.Asks Request.Plain := asks_cancelBooking trivial trivial
  rw [heq]
  exact Program.keeps_transaction up hp r

end Calls

/-- What routine requests uphold is upheld by every call, if bookings uphold it. -/
theorem keeps_call (up : Upheld Request.Routine (fun _ => True) T) {call : Call} {r : Records}
    (hbooking : ∀ request, call = .createBooking request →
      (Service.createBooking request).Keeps peers (Pledge.writing T) none r) :
    call.program.Keeps peers (Pledge.writing T) none r :=
  keeps_call_of (up.mono fun _ h => h.routine)
    (fun user drafts _ => keeps_setAvailability up user drafts r)
    (fun user id changes _ => keeps_updateAvailability up user id changes r) hbooking

/-- A reservation commits its booking, if it is accepted by what it reads. -/
theorem keeps_createBooking_writing {request : BookingRequest} {r : Records}
    (hT : ∀ r₁ r₂ r₃ stamp, peers.may {} r r₁ → peers.may request.holding r₁ r₂ →
      peers.may request.holding r₂ r₃ →
      accept (r₂.rulesOf request.user) (r₃.load request.user) request = .ok () →
      T (request.booking stamp)) :
    (Service.createBooking request).Keeps peers (Pledge.writing T) none r := by
  refine keeps_createBooking (fun _ _ _ => trivial) (fun _ _ _ => trivial)
    (fun _ _ _ _ _ _ => trivial) fun _ _ r₁ r₂ r₃ hmay₁ _ hmay₂ hmay₃ => ?_
  split
  · exact fun _ _ => trivial
  · next haccept =>
      intro stamp r₄ r₅ _ _ _
      split
      · exact ⟨trivial, trivial⟩
      · exact ⟨hT r₁ r₂ r₃ stamp hmay₁ hmay₂ hmay₃ haccept, rfl⟩

end Writing

namespace Store.Hall

/-- Nothing is promised, and nothing is relied on. -/
theorem pact_any : Pact (Peers.keeping fun _ => True) fun _ => Pledge.writing fun _ => True :=
  pact_writing fun _ _ => trivial

theorem keeps_any {peers : Peers} (call : Call) (r : Records) :
    call.program.Keeps peers (Pledge.writing fun _ => True) none r :=
  keeps_call ⟨trivial, fun _ _ _ => trivial, fun _ _ _ _ => trivial⟩
    fun _ _ => keeps_createBooking_writing fun _ _ _ _ _ _ _ _ => trivial

end Store.Hall

theorem rulesValid_booking (request : BookingRequest) (stamp : Stamp) :
    (request.booking stamp).RulesValid :=
  ⟨fun _ h => absurd h List.not_mem_nil, fun _ h => absurd h List.not_mem_nil⟩

namespace Store

theorem Hall.fair_valid (events : List Event) :
    (Hall.run {} events).Fair (Peers.keeping Records.RulesValid)
      (fun _ => Pledge.writing Transaction.RulesValid) {} := by
  refine Hall.Fair.run (pact_writing fun ht hr => ht.publish hr) (fun call _ r _ => ?_)
    (Hall.Fair.start Hall.orderly_empty)
  refine keeps_call (rulesValid_upheld.mono fun _ h => h.proper) fun request _ => ?_
  exact keeps_createBooking_writing fun _ _ _ stamp _ _ _ _ => rulesValid_booking request stamp

/-- In every state that services can reach, all rules on record are valid. -/
theorem Hall.rulesValid_run (events : List Event) :
    (Hall.run {} events).machine.records.RulesValid :=
  (Hall.fair_valid events).reached fun _ hrule => absurd hrule List.not_mem_nil

/-- What the services leave behind: no lock, and valid rules only. -/
theorem Machine.Settled.spec {m : Machine} (h : m.Settled) :
    m.registry.locks = [] ∧ Hall.Orderly { machine := m } ∧ m.records.RulesValid := by
  obtain ⟨events, hfinished, rfl⟩ := h
  obtain ⟨hlocks, horderly⟩ := (Hall.fair_valid events).finish hfinished
  exact ⟨hlocks, horderly, Hall.rulesValid_run events⟩

end Store

end Bookable
