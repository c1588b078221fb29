import Bookable.Proofs.Hall.Solo
import Bookable.Proofs.Hall.Unfailing
import Bookable.Service.Typed
import Bookable.Store.Table

/-!
# Failing without a trace

A service other than the one that stores a batch of rules does all its work in one
transaction and has nothing left to do after the commit but to give its result. So
whatever goes wrong goes wrong before anything is published: ahead of the transaction,
at one of its requests, between two of them, or at the commit itself.

What remains to be seen is that the locks go as well. The keys that a transaction holds
are those that it has put into the registry itself, and since it gives them back in the
opposite order, every lock that is dropped is the last one that was made. Giving back
what was taken so far therefore always leads to the registry from which the program set
out, whoever else holds keys in it; `Machine.Reversible` is this invariant.
-/

namespace Bookable

open Store Time

variable {α β : Type}

/-! ## Programs that work in one transaction -/

namespace Program

/-- A program in a transaction, which it ends by a failure, or by a commit that only a result
follows. -/
def Closes : Program α → Prop
  | .done _ => False
  | .fail _ => True
  | .opening _ => False
  | .ask _ next => ∀ reply, (next reply).Closes
  | .closing next => ∃ a, next = .done a

/-- A program that does all its work in one transaction. -/
def Atomic : Program α → Prop
  | .done _ => True
  | .fail _ => True
  | .opening next => next.Closes
  | .ask _ _ => False
  | .closing _ => False

theorem closes_of_asks {allowed : Request → Prop} {p : Program α} (hp : p.Asks allowed) :
    (p.bind fun a => .closing (.done a)).Closes := by
  induction p with
  | done a => exact ⟨a, rfl⟩
  | fail cause => trivial
  | opening next ih => exact hp.elim
  | ask request next ih => exact fun reply => ih reply (hp.2 reply)
  | closing next ih => exact hp.elim

theorem atomic_transaction {allowed : Request → Prop} {p : Program α} (hp : p.Asks allowed) :
    (transaction p).Atomic :=
  closes_of_asks hp

theorem atomic_ofExcept {x : Except Error α} {f : α → Program β} (hf : ∀ a, (f a).Atomic) :
    ((ofExcept x).bind f).Atomic := by
  cases x with
  | error cause => trivial
  | ok a => exact hf a

theorem Closes.bind_done {p : Program α} (h : p.Closes) (g : α → β) :
    (p.bind fun a => .done (g a)).Closes := by
  induction p with
  | done a => exact h.elim
  | fail cause => trivial
  | opening next ih => exact h.elim
  | ask request next ih => exact fun reply => ih reply (h reply)
  | closing next ih =>
      obtain ⟨a, rfl⟩ := h
      exact ⟨g a, rfl⟩

/-- The result may be given in another form. -/
theorem Atomic.bind_done {p : Program α} (h : p.Atomic) (g : α → β) :
    (p.bind fun a => .done (g a)).Atomic := by
  cases p with
  | done a => trivial
  | fail cause => trivial
  | opening next => exact Closes.bind_done h g
  | ask request next => exact h.elim
  | closing next => exact h.elim

end Program

/-! ## The services -/

theorem atomic_createBooking (request : BookingRequest) :
    (Service.createBooking request).Atomic := by
  rw [createBooking_eq]
  split
  · split
    · have hasks : (Program.ask (.confirmedAt request.user request.start true)
          (reserve request)).Asks fun _ => True :=
        ⟨trivial, asks_reserve trivial (fun _ _ => trivial) trivial⟩
      exact Program.atomic_transaction hasks
    · trivial
  · trivial

theorem atomic_listSlots (user : String) (start stop : Instant) :
    (Service.listSlots user start stop).Atomic := by
  refine Program.atomic_ofExcept fun window => ?_
  have hasks : (Service.slotsWithin user window).Asks fun _ => True :=
    asks_slotsWithin trivial (fun _ _ => trivial) window
  exact Program.atomic_transaction hasks

theorem atomic_send (request : Request) : (Program.transaction (Program.send request)).Atomic := by
  have hasks : (Program.send request).Asks fun _ => True := Program.asks_send trivial
  exact Program.atomic_transaction hasks

theorem atomic_listBookings (user : String) (start stop : Option Instant) :
    (Service.listBookings user start stop).Atomic := by
  unfold Service.listBookings
  cases start with
  | none => exact atomic_send _
  | some start =>
      cases stop with
      | none => exact atomic_send _
      | some stop =>
          exact Program.atomic_ofExcept (x := Service.window start stop) fun _ => atomic_send _

/-- Whether a call is one that stores a batch of rules, in a transaction for each of them. -/
def Store.Call.isBatch : Call → Bool
  | .setAvailability _ _ => true
  | _ => false

theorem atomic_call {call : Call} (h : call.isBatch = false) : call.program.Atomic := by
  cases call with
  | setAvailability user drafts => cases h
  | updateAvailability user id changes =>
      obtain ⟨p, heq, hp⟩ : ∃ p,
          Service.updateAvailability user id changes = Program.transaction p ∧
            p.Asks fun _ => True := asks_updateAvailability trivial fun _ _ => trivial
      refine Program.Atomic.bind_done ?_ _
      rw [heq]
      exact Program.atomic_transaction hp
  | listAvailability user => exact (atomic_send (.rulesOf user)).bind_done _
  | listSlots user start stop => exact (atomic_listSlots user start stop).bind_done _
  | listBookings user start stop => exact (atomic_listBookings user start stop).bind_done _
  | createBooking request => exact (atomic_createBooking request).bind_done _
  | cancelBooking id =>
      obtain ⟨p, heq, hp⟩ : ∃ p, Service.cancelBooking id = Program.transaction p ∧
          p.Asks fun _ => True := asks_cancelBooking trivial trivial
      refine Program.Atomic.bind_done ?_ _
      rw [heq]
      exact Program.atomic_transaction hp

namespace Store

/-! ## Giving back the keys -/

namespace Registry

/-- Who leaves a key that nobody else used when it was entered leaves the locks that there were. -/
theorem locks_leave_enter {g : Registry} {key : Key} (ticket : Ticket)
    (h : g.lock? key = none) : ((g.enter key ticket).leave key).locks = g.locks := by
  have hothers : ∀ l ∈ g.locks, l.key ≠ key := by
    intro l hl heq
    exact List.find?_eq_none.mp h l hl (beq_iff_eq.mpr heq)
  have hkept : ∀ l ∈ g.locks, afterLeave key l = some l := by
    intro l hl
    rw [afterLeave, if_neg (hothers l hl)]
  rw [enter, h]
  show (g.locks ++ [(⟨key, g.made, [ticket]⟩ : Lock)]).filterMap (afterLeave key) = g.locks
  rw [List.filterMap_append, List.filterMap_congr hkept, List.filterMap_some]
  simp [afterLeave]

/-- What is left of the locks when keys are left depends on the locks only. -/
theorem locks_leave_all {g g' : Registry} (h : g.locks = g'.locks) (keys : List Key) :
    (keys.foldl leave g).locks = (keys.foldl leave g').locks := by
  induction keys generalizing g g' with
  | nil => exact h
  | cons key keys ih => exact ih (congrArg (List.filterMap (afterLeave key)) h)

end Registry

namespace Machine

/-- Two machines have the same records and the same locks, and their transactions hold the same
keys. -/
structure Untouched (m₀ m : Machine) : Prop where
  records : m.records = m₀.records
  locks : m.registry.locks = m₀.registry.locks
  held : ∀ handle, (m.transaction handle).held = (m₀.transaction handle).held

theorem Untouched.refl (m : Machine) : m.Untouched m := ⟨rfl, rfl, fun _ => rfl⟩

/-- A transaction that was opened on a machine is still open, and all that has become of the
machine since then goes away with it: giving its keys back leads to the locks that there were. -/
structure Reversible (m₀ : Machine) (handle : Nat) (m : Machine) : Prop where
  records : m.records = m₀.records
  live : (m.transaction handle).ended = false
  blank : (m₀.transaction handle).held = []
  others : ∀ other, other ≠ handle →
    (m.transaction other).held = (m₀.transaction other).held
  locks : ((m.transaction handle).held.reverse.foldl Registry.leave m.registry).locks =
    m₀.registry.locks

theorem reversible_begin (m : Machine) : m.Reversible m.begin.1 m.begin.2 := by
  have hnew : m.begin.2.transaction m.transactions.length = {} := by
    rw [transaction_begin, if_pos rfl]
  refine ⟨rfl, congrArg Transaction.ended hnew, ?_, ?_, ?_⟩
  · show (m.transaction m.transactions.length).held = []
    rw [transaction, List.getElem?_eq_none (Nat.le_refl _)]
    rfl
  · intro other (hne : other ≠ m.transactions.length)
    rw [transaction_begin, if_neg hne]
  · show ((m.begin.2.transaction m.transactions.length).held.reverse.foldl Registry.leave
      m.registry).locks = _
    rw [hnew]
    rfl

namespace Reversible

variable {m₀ m m' : Machine} {handle : Nat}

/-- Answering a request adds at most one key, the one that goes first when keys are given back. -/
theorem ask (h : m₀.Reversible handle m) {stamp : Stamp} {caller : Nat} {request : Request}
    {reply : request.Reply} (hask : m.ask stamp caller handle request = .answered reply m') :
    m₀.Reversible handle m' := by
  have hlt := lt_length_of_live h.live
  obtain ⟨-, htransaction⟩ := transaction_ask hlt hask
  refine ⟨(records_ask_answered hask).trans h.records, ?_, h.blank, fun other hne => ?_, ?_⟩
  · rw [htransaction, Transaction.perform_ended, Transaction.locked_ended]
    exact h.live
  · rw [transaction_ask_of_ne hask hne]
    exact h.others other hne
  · rw [htransaction, Transaction.perform_held]
    obtain ⟨hkey, -, rfl⟩ | ⟨key, hkey, ⟨hheld, -, rfl⟩ | ⟨hheld, hfree, -, rfl⟩⟩ :=
      ask_answered hask
    · rw [Transaction.locked, hkey]
      exact h.locks
    · rw [Transaction.locked, hkey]
      simp only [if_pos hheld]
      exact h.locks
    · rw [Transaction.locked, hkey]
      simp only [if_neg hheld, List.reverse_append, List.reverse_singleton, List.singleton_append,
        List.foldl_cons]
      refine Eq.trans ?_ h.locks
      exact Registry.locks_leave_all (Registry.locks_leave_enter _ hfree) _

theorem finish (h : m₀.Reversible handle m) :
    m₀.Untouched (m.finish handle (m.transaction handle).cleared).2 := by
  refine ⟨(records_finish _ _ _).trans h.records, ?_, fun other => ?_⟩
  · rw [registry_finish]
    exact h.locks
  · rw [transaction_finish, transaction_setTransaction]
    split
    · next heq =>
        rw [← heq.1, h.blank]
        rfl
    · next hne =>
        refine h.others other fun heq => hne ⟨heq.symm, ?_⟩
        exact lt_length_of_live h.live

theorem rollback (h : m₀.Reversible handle m) : m₀.Untouched (m.rollback handle).2 := by
  rw [rollback_machine, h.live, if_neg Bool.false_ne_true]
  exact h.finish

/-- A commit that fails leaves nothing behind. -/
theorem commit (h : m₀.Reversible handle m) {cause : Error} {woken : List Ticket}
    (hcommit : m.commit handle = (.error cause, woken, m')) : m₀.Untouched m' := by
  have houtcome := commit_outcome h.live
  have hmachine := m.commit_machine handle
  rw [hcommit] at houtcome hmachine
  rw [h.live, if_neg Bool.false_ne_true] at hmachine
  split at houtcome
  · next hconflict =>
      rw [if_pos hconflict] at hmachine
      change m' = _ at hmachine
      rw [hmachine]
      exact h.finish
  · cases houtcome

end Reversible

end Machine

/-! ## Desks and tables -/

theorem Desk.untouched_of_closes {caller handle : Nat} {m₀ : Machine} {cause : Error}
    {d' : Desk} {p : Program α} (hp : p.Closes) :
    ∀ {d : Desk}, m₀.Reversible handle d.machine →
      Desk.serve caller p (some ⟨handle, true⟩) d = (.ended (.error cause), d') →
      m₀.Untouched d'.machine := by
  induction p with
  | done a => exact hp.elim
  | fail cause =>
      intro d h hserve
      rw [Desk.serve] at hserve
      injection hserve with _ hdesk
      rw [← hdesk, Desk.machine_abandon]
      exact h.rollback
  | opening next ih => exact hp.elim
  | ask request next ih =>
      intro d h hserve
      rw [Desk.serve] at hserve
      simp only [] at hserve
      split at hserve
      · next reply machine hask =>
          exact ih reply (hp reply)
            (d := { d with machine, supply := d.supply.after request }) (h.ask hask) hserve
      · cases hserve
  | closing next ih =>
      intro d h hserve
      obtain ⟨a, rfl⟩ := hp
      rw [Desk.serve] at hserve
      rcases hcommit : d.machine.commit handle with ⟨_ | _, woken, machine⟩
      · simp only [hcommit] at hserve
        injection hserve with _ hdesk
        rw [← hdesk]
        exact h.commit hcommit
      · simp only [hcommit, Desk.serve] at hserve
        cases hserve

/-- Where a program that works in one transaction fails, the machine is as it was, whatever other
transactions are open and whatever keys they hold. -/
theorem Desk.untouched {caller : Nat} {cause : Error} {d d' : Desk} {p : Program α}
    (hp : p.Atomic) (hserve : Desk.serve caller p none d = (.ended (.error cause), d')) :
    d.machine.Untouched d'.machine := by
  cases p with
  | done a => cases hserve
  | fail cause =>
      cases hserve
      exact .refl _
  | opening next =>
      exact Desk.untouched_of_closes hp (d := { d with machine := d.machine.begin.2 })
        d.machine.reversible_begin hserve
  | ask request next => exact hp.elim
  | closing next => exact hp.elim

theorem TableDesk.records_of_closes {cause : Error} {work? : Option Work} {d' : TableDesk}
    {p : Program α} (hp : p.Closes) :
    ∀ {work : Work} {d : TableDesk},
      TableDesk.serve p (some work) d = (.error cause, work?, d') → d'.records = d.records := by
  induction p with
  | done a => exact hp.elim
  | fail cause =>
      intro work d hserve
      cases hserve
      rfl
  | opening next ih => exact hp.elim
  | ask request next ih =>
      intro work d hserve
      rw [TableDesk.serve] at hserve
      split at hserve
      · cases hserve
        rfl
      · split at hserve
        · next reply records hperform =>
            exact ih reply (hp reply) (d := { d with supply := d.supply.after request }) hserve
        · cases hserve
          rfl
  | closing next ih =>
      intro work d hserve
      obtain ⟨a, rfl⟩ := hp
      rw [TableDesk.serve, TableDesk.commit] at hserve
      split at hserve
      · next hcommit =>
          rw [TableDesk.serve] at hserve
          cases hserve
      · next hcommit =>
          split at hcommit
          · cases hcommit
          · split at hcommit
            · cases hcommit
              cases hserve
              rfl
            · cases hcommit

/-- Where such a program fails on tables, the committed tables are as they were. -/
theorem TableDesk.records_of_error {cause : Error} {work? : Option Work} {d d' : TableDesk}
    {p : Program α} (hp : p.Atomic)
    (hserve : TableDesk.serve p none d = (.error cause, work?, d')) : d'.records = d.records := by
  cases p with
  | done a => cases hserve
  | fail cause =>
      cases hserve
      rfl
  | opening next => exact TableDesk.records_of_closes hp hserve
  | ask request next => exact hp.elim
  | closing next => exact hp.elim

end Store

/-! ## Failing calls -/

/-- A program that leaves no trace where it fails, neither on a machine, busy or not, nor on
tables. On a machine that is at rest it is served to its end, and no lock is left there. -/
structure Program.Traceless (p : Program α) : Prop where
  machine : ∀ (caller : Nat) (d d' : Desk) (cause : Error),
    Desk.serve caller p none d = (.ended (.error cause), d') → d.machine.Untouched d'.machine
  settled : ∀ (caller : Nat) (d : Desk), d.machine.Settled →
    ∃ result d', Desk.serve caller p none d = (.ended result, d') ∧
      d'.machine.registry.locks = []
  tables : ∀ (d d' : TableDesk) (work? : Option Work) (cause : Error),
    TableDesk.serve p none d = (.error cause, work?, d') → d'.records = d.records

namespace Program

/-- A program that ends its transaction is served without a step that makes no sense. -/
theorem Closes.keeps {peers : Peers} {p : Program α} (hp : p.Closes) (t : Transaction)
    (r : Records) : p.Keeps peers (Pledge.writing fun _ => True) (some t) r := by
  induction p generalizing t r with
  | done a => exact hp.elim
  | fail cause => exact fun _ _ => trivial
  | opening next ih => exact hp.elim
  | ask request next ih => exact fun r' stamp _ _ => ih _ (hp _) _ _
  | closing next ih =>
      obtain ⟨a, rfl⟩ := hp
      intro r' _
      split
      · exact ⟨trivial, trivial⟩
      · exact ⟨trivial, rfl⟩

theorem Atomic.keeps {peers : Peers} {p : Program α} (hp : p.Atomic) (r : Records) :
    p.Keeps peers (Pledge.writing fun _ => True) none r := by
  cases p with
  | done a => rfl
  | fail cause => exact fun _ _ => trivial
  | opening next => exact fun r' _ => Closes.keeps hp {} r'
  | ask request next => exact hp.elim
  | closing next => exact hp.elim

theorem Atomic.traceless {p : Program α} (hp : p.Atomic) : p.Traceless where
  machine _ _ _ _ := Desk.untouched hp
  settled caller d hd := by
    obtain ⟨d', hserve, -, -, hlocks⟩ := Desk.serve_idle hd.spec.1 caller (hp.keeps _)
    exact ⟨_, d', hserve, hlocks⟩
  tables _ _ _ _ := TableDesk.records_of_error hp

end Program

/-- A call that fails leaves no trace, wherever and for whatever reason it does, unless it is to
store a batch of rules. The same is true of the calls that read instants from texts first. -/
theorem failed_calls_leave_no_trace :
    (∀ call : Call, call.isBatch = false → call.program.Traceless) ∧
      (∀ clock form, (Service.Typed.createBooking clock form).Traceless) ∧
      ∀ clock user start stop, (Service.Typed.listSlots clock user start stop).Traceless := by
  refine ⟨fun call hcall => (atomic_call hcall).traceless, fun clock form => ?_,
    fun clock user start stop => ?_⟩
  · have hatomic : ((Program.ofExcept (form.request clock)).bind Service.createBooking).Atomic :=
      Program.atomic_ofExcept atomic_createBooking
    exact hatomic.traceless
  · have hatomic : ((Program.ofExcept (Service.Typed.instant clock start)).bind fun start =>
        (Program.ofExcept (Service.Typed.instant clock stop)).bind
          (Service.listSlots user start)).Atomic :=
      Program.atomic_ofExcept fun start => Program.atomic_ofExcept (atomic_listSlots user start)
    exact hatomic.traceless

/-! ## A slot that is booked, and one that is too long -/

/-- The kind of the failure with which a program has ended. -/
def Store.Progress.failed? : Progress α → Option Kind
  | .ended (.error cause) => some cause.kind
  | _ => none

theorem Store.Progress.eq_of_failed? {s : Progress α} {kind : Kind} (h : s.failed? = some kind) :
    ∃ cause, s = .ended (.error cause) ∧ cause.kind = kind := by
  unfold failed? at h
  split at h
  · next cause => exact ⟨cause, rfl, Option.some.inj h⟩
  · cases h

/-- A desk with a machine that is at rest after some events. -/
def Store.Desk.after (events : List Event) : Desk :=
  { machine := (Hall.run {} events).machine, supply := { now := ⟨0, horizon_pos⟩ } }

/-- A second reservation of the slot fails while it holds the lock on its start. A reservation of
a slot that is longer than the calendar fails when the free slots are derived. -/
theorem no_trace_under_lock : (Call.createBooking firstSlot).isBatch = false ∧
    (∀ kind events, (kind, events) ∈ [(Kind.conflict, bookedOnce), (.overflow, overlong)] →
      (Desk.after events).machine.Settled ∧
      ∃ cause d', Desk.serve 1 (Call.createBooking firstSlot).program none (Desk.after events) =
          (.ended (.error cause), d') ∧ cause.kind = kind ∧
        d'.machine.records = (Desk.after events).machine.records ∧
        d'.machine.registry.locks = []) := by
  have htraceless := failed_calls_leave_no_trace.1 (.createBooking firstSlot) rfl
  refine ⟨rfl, fun kind events hevents => ?_⟩
  have hsettled : (Desk.after events).machine.Settled := by
    simp only [List.mem_cons, Prod.mk.injEq, List.not_mem_nil, or_false] at hevents
    rcases hevents with ⟨-, rfl⟩ | ⟨-, rfl⟩
    · exact ⟨bookedOnce, by decide +kernel, rfl⟩
    · exact ⟨overlong, by decide +kernel, rfl⟩
  have hfailed : (Desk.serve 1 (Call.createBooking firstSlot).program none
      (Desk.after events)).1.failed? = some kind := by
    simp only [List.mem_cons, Prod.mk.injEq, List.not_mem_nil, or_false] at hevents
    rcases hevents with ⟨rfl, rfl⟩ | ⟨rfl, rfl⟩
    · decide +kernel
    · decide +kernel
  obtain ⟨cause, hcause, hkind⟩ := Progress.eq_of_failed? hfailed
  have hserve : Desk.serve 1 (Call.createBooking firstSlot).program none (Desk.after events) =
      (.ended (.error cause), _) := Prod.ext hcause rfl
  obtain ⟨result, d', hserve', hlocks⟩ := htraceless.settled 1 _ hsettled
  rw [hserve'] at hserve
  injection hserve with hresult
  rw [hresult] at hserve'
  exact ⟨hsettled, cause, d', hserve', hkind, (htraceless.machine 1 _ d' cause hserve').records,
    hlocks⟩

end Bookable
