import Bookable.Proofs.Hall.Unfailing
import Mathlib.Data.Fintype.EquivFin

/-!
# Calls that always get on

Every service asks for one key at most in the whole of a transaction, and for none after
that. So a call that waits holds nothing, and a call that holds a key will not wait any
more. Whoever waits therefore waits for a call that does not, and no circle of callers
who wait for each other can come about.

From this it follows in turn that all calls can be brought to their ends. Among the
calls that have not ended there is one that can take a turn. It goes on until it ends,
or has to wait; and in the latter case the call that it waits for goes on to its end
without waiting. So one call more has ended, and the rest is an induction. That a single
call cannot go on forever is because its turns lead from a program to the programs that
it consists of.
-/

namespace Bookable

open Store Time

variable {α β : Type}

/-! ## Programs that ask for one key -/

/-- A program that makes no request for a key after the first one. -/
def Program.AsksOnce : Program α → Prop
  | .done _ => True
  | .fail _ => True
  | .opening next => next.AsksOnce
  | .ask request next => ∀ reply,
      match keyOf? request with
      | none => (next reply).AsksOnce
      | some _ => Keyless (next reply)
  | .closing next => next.AsksOnce

theorem Program.asksOnce_of_keyless {p : Program α} (h : Keyless p) : p.AsksOnce := by
  induction p with
  | done a => trivial
  | fail cause => trivial
  | opening next ih => exact ih h
  | ask request next ih =>
      intro reply
      rw [h.1]
      exact ih reply (h.2 reply)
  | closing next ih => exact ih h

theorem keyless_ofExcept_bind {x : Except Error α} {f : α → Program β}
    (hf : ∀ a, Keyless (f a)) : Keyless ((Program.ofExcept x).bind f) := by
  cases x with
  | error cause => trivial
  | ok a => exact hf a

theorem keyless_transaction {p : Program α}
    (h : p.Asks fun request => keyOf? request = none) : Keyless (Program.transaction p) :=
  keyless_bind (keyless_of_asks h) fun _ => trivial

theorem keyless_setAvailability (user : String) (drafts : List RuleDraft) :
    Keyless (Service.setAvailability user drafts) := by
  induction drafts with
  | nil => trivial
  | cons draft drafts ih =>
      refine keyless_ofExcept_bind fun rule => keyless_bind ?_ fun stored => ?_
      · exact keyless_transaction ⟨rfl, fun _ => ⟨rfl, fun _ => trivial⟩⟩
      · exact keyless_bind ih fun _ => trivial

theorem keyless_listBookings (user : String) (start stop : Option Instant) :
    Keyless (Service.listBookings user start stop) := by
  have hlist : ∀ range, Keyless (Program.transaction (Program.send (.bookingsOf user range))) :=
    fun range => keyless_transaction ⟨rfl, fun _ => trivial⟩
  unfold Service.listBookings
  cases start with
  | none => exact hlist none
  | some start =>
      cases stop with
      | none => exact hlist none
      | some stop =>
          exact keyless_ofExcept_bind (x := Service.window start stop) fun _ => hlist _

theorem asksOnce_createBooking (request : BookingRequest) :
    (Call.createBooking request).program.AsksOnce := by
  show ((Service.createBooking request).bind _).AsksOnce
  rw [createBooking_eq]
  split
  · split
    · intro found
      have hreserve : (reserve request found).Asks fun request => keyOf? request = none := by
        refine asks_reserve ?_ (fun _ _ => ?_) ?_ found <;> rfl
      exact keyless_bind (keyless_bind (keyless_of_asks hreserve) fun _ => trivial)
        fun _ => trivial
    · trivial
  · trivial

theorem asksOnce_cancelBooking (id : String) : (Call.cancelBooking id).program.AsksOnce := by
  show ((Service.cancelBooking id).bind _).AsksOnce
  rw [cancelBooking_eq]
  intro status
  rcases status with _ | _ | _
  · trivial
  · intro count
    show Keyless (((if count = 0 then _ else _ : Program Unit).bind _).bind _)
    split <;> trivial
  · trivial

/-- Every call of a service asks for one key at most. -/
theorem asksOnce_call (call : Call) : call.program.AsksOnce := by
  cases call with
  | createBooking request => exact asksOnce_createBooking request
  | cancelBooking id => exact asksOnce_cancelBooking id
  | setAvailability user drafts =>
      exact Program.asksOnce_of_keyless
        (keyless_bind (keyless_setAvailability user drafts) fun _ => trivial)
  | updateAvailability user id changes =>
      obtain ⟨p, heq, hp⟩ : ∃ p,
          Service.updateAvailability user id changes = Program.transaction p ∧
            p.Asks fun request => keyOf? request = none :=
        asks_updateAvailability rfl fun _ _ => rfl
      refine Program.asksOnce_of_keyless (keyless_bind ?_ fun _ => trivial)
      rw [heq]
      exact keyless_transaction hp
  | listAvailability user =>
      exact Program.asksOnce_of_keyless
        (keyless_bind (keyless_transaction ⟨rfl, fun _ => trivial⟩) fun _ => trivial)
  | listSlots user start stop =>
      exact Program.asksOnce_of_keyless (keyless_listSlots user start stop)
  | listBookings user start stop =>
      exact Program.asksOnce_of_keyless
        (keyless_bind (keyless_listBookings user start stop) fun _ => trivial)

namespace Store

/-! ## Where a program stands -/

namespace Stage

/-- Where a program stands, it holds no key while it may still ask for one, and while it waits. -/
def Modest (s : Stage α) (m : Machine) : Prop :=
  match s with
  | .active p none => p.AsksOnce
  | .active p (some place) =>
      ((m.transaction place.handle).held = [] ∧ p.AsksOnce) ∨ Store.Keyless p
  | .waiting _ _ next place =>
      (m.transaction place.handle).held = [] ∧ ∀ reply, Store.Keyless (next reply)
  | .ended _ => True

theorem Modest.congr {s : Stage α} {m m' : Machine} (h : s.Modest m)
    (heq : ∀ place, s.place? = some place →
      m'.transaction place.handle = m.transaction place.handle) : s.Modest m' := by
  cases s with
  | ended result => trivial
  | active p place? =>
      cases place? with
      | none => exact h
      | some place =>
          show ((m'.transaction place.handle).held = [] ∧ _) ∨ _
          rw [heq place rfl]
          exact h
  | waiting key request next place =>
      show (m'.transaction place.handle).held = [] ∧ _
      rw [heq place rfl]
      exact h

/-- What a turn makes of a program that can go on. -/
inductive Advances : Stage α → Stage α → Prop where
  | done {a : α} {place? : Option Place} : Advances (.active (.done a) place?) (.ended (.ok a))
  | failed {cause : Error} {place? : Option Place} :
      Advances (.active (.fail cause) place?) (.ended (.error cause))
  | opened {next : Program α} {place : Place} :
      Advances (.active (.opening next) none) (.active next (some place))
  | answered {request : Request} {next : request.Reply → Program α} {place : Place}
      (reply : request.Reply) :
      Advances (.active (.ask request next) (some place)) (.active (next reply) (some place))
  | queued {request : Request} {next : request.Reply → Program α} {place : Place} {key : Key} :
      Advances (.active (.ask request next) (some place)) (.waiting key request next place)
  | committed {next : Program α} {place : Place} :
      Advances (.active (.closing next) (some place)) (.active next none)
  | clashed {next : Program α} {place : Place} :
      Advances (.active (.closing next) (some place)) (.ended (.error .alreadyBooked))
  | resumed {key : Key} {request : Request} {next : request.Reply → Program α} {place : Place}
      (reply : request.Reply) :
      Advances (.waiting key request next place) (.active (next reply) (some place))

/-- No program can go on forever. -/
theorem advances_wf : WellFounded fun s' s : Stage α => s.Advances s' := by
  have hended : ∀ result : Except Error α,
      Acc (fun s' s : Stage α => s.Advances s') (.ended result) :=
    fun _ => ⟨_, fun _ h => nomatch h⟩
  have hactive : ∀ (p : Program α) (place? : Option Place),
      Acc (fun s' s : Stage α => s.Advances s') (.active p place?) := by
    intro p
    induction p with
    | done a =>
        refine fun place? => ⟨_, fun s' h => ?_⟩
        cases h
        exact hended _
    | fail cause =>
        refine fun place? => ⟨_, fun s' h => ?_⟩
        cases h
        exact hended _
    | opening next ih =>
        refine fun place? => ⟨_, fun s' h => ?_⟩
        cases h
        exact ih _
    | ask request next ih =>
        refine fun place? => ⟨_, fun s' h => ?_⟩
        cases h with
        | answered reply => exact ih reply _
        | queued =>
            refine ⟨_, fun s'' h => ?_⟩
            cases h with
            | resumed reply => exact ih reply _
    | closing next ih =>
        refine fun place? => ⟨_, fun s' h => ?_⟩
        cases h with
        | committed => exact ih _
        | clashed => exact hended _
  refine ⟨fun s => ?_⟩
  cases s with
  | ended result => exact hended result
  | active p place? => exact hactive p place?
  | waiting key request next place =>
      refine ⟨_, fun s' h => ?_⟩
      cases h with
      | resumed reply => exact hactive _ _

/-- A turn takes a program further, unless it waits and its ticket is not the first. -/
theorem advances_step {peers : Peers} {pledge : Pledge α} {s : Stage α} {m : Machine}
    (hkeeps : s.Keeps peers pledge m) (hended : s.isEnded = false) {caller : Nat}
    (hfront : ∀ key request next place, s = .waiting key request next place →
      m.registry.isHeldBy key ⟨caller, place.handle⟩ = true) (stamp : Stamp) :
    s.Advances (s.step caller stamp m).1 := by
  cases s with
  | ended result => cases hended
  | active p place? =>
      cases p with
      | done a => exact .done
      | fail cause => exact .failed
      | opening next =>
          cases place? with
          | none => exact .opened
          | some place => exact hkeeps.2.elim
      | ask request next =>
          cases place? with
          | none => exact hkeeps.elim
          | some place =>
              rw [step]
              split
              · exact .answered _
              · exact .queued
      | closing next =>
          cases place? with
          | none => exact hkeeps.elim
          | some place =>
              rw [stage_closing caller stamp next hkeeps.1.2]
              split
              · exact .clashed
              · exact .committed
  | waiting key request next place =>
      rw [step, if_pos (hfront key request next place rfl)]
      exact .resumed _

theorem Modest.step {peers : Peers} {pledge : Pledge α} {s : Stage α} {m : Machine}
    (hkeeps : s.Keeps peers pledge m) (h : s.Modest m) (caller : Nat) (stamp : Stamp) :
    (s.step caller stamp m).1.Modest (s.step caller stamp m).2 := by
  cases s with
  | ended result => trivial
  | active p place? =>
      cases place? with
      | none =>
          cases p with
          | done a => trivial
          | fail cause => trivial
          | opening next =>
              refine Or.inl ⟨?_, h⟩
              show (m.begin.2.transaction m.transactions.length).held = []
              rw [Machine.transaction_begin, if_pos rfl]
          | ask request next => exact hkeeps.elim
          | closing next => exact hkeeps.elim
      | some place =>
          cases p with
          | done a => trivial
          | fail cause => trivial
          | opening next => exact hkeeps.2.elim
          | ask request next =>
              rw [Stage.step]
              split
              · next reply m' hask =>
                  rcases h with ⟨hheld, honce⟩ | hkeyless
                  · -- Either no key was needed, or the rest of the program needs none.
                    have hnext := honce reply
                    split at hnext
                    · next hkey =>
                        refine Or.inl ⟨?_, hnext⟩
                        rw [(Machine.transaction_ask (Machine.lt_length_of_live hkeeps.1.2)
                          hask).2, Transaction.perform_held, Transaction.locked, hkey]
                        exact hheld
                    · exact Or.inr hnext
                  · exact Or.inr (hkeyless.2 reply)
              · next key m' hask =>
                  obtain ⟨hkey, -, -, rfl⟩ := Machine.ask_queued hask
                  rcases h with ⟨hheld, honce⟩ | hkeyless
                  · refine ⟨hheld, fun reply => ?_⟩
                    have hnext := honce reply
                    rw [hkey] at hnext
                    exact hnext
                  · rw [hkeyless.1] at hkey
                    cases hkey
          | closing next =>
              rw [stage_closing caller stamp next hkeeps.1.2]
              split
              · trivial
              · rcases h with ⟨-, honce⟩ | hkeyless
                · exact honce
                · exact Program.asksOnce_of_keyless hkeyless
  | waiting key request next place =>
      rw [Stage.step]
      split
      · exact Or.inr (h.2 _)
      · exact h

/-- Where a program stands that will not wait any more: it needs no further key, and if it has
stopped for one, its ticket is the first. -/
def Unhindered (g : Registry) (caller : Nat) : Stage α → Prop
  | .active p _ => Store.Keyless p
  | .waiting key _ next place =>
      g.isHeldBy key ⟨caller, place.handle⟩ = true ∧ ∀ reply, Store.Keyless (next reply)
  | .ended _ => False

theorem Unhindered.isEnded {g : Registry} {caller : Nat} {s : Stage α}
    (h : s.Unhindered g caller) : s.isEnded = false := by
  cases s with
  | ended result => exact h.elim
  | active p place? => rfl
  | waiting key request next place => rfl

/-- The turns of such a program lead to its end, whatever others have done to the registry. -/
theorem Unhindered.step {s : Stage α} {m : Machine} {caller : Nat}
    (h : s.Unhindered m.registry caller) (stamp : Stamp) (g : Registry) :
    (s.step caller stamp m).1.Unhindered g caller ∨
      (s.step caller stamp m).1.isEnded = true := by
  have hkeyless : (s.step caller stamp m).1.Keyless := by
    cases s with
    | ended result => exact h.elim
    | active p place? => exact Keyless.step (s := .active p place?) h caller stamp m
    | waiting key request next place =>
        rw [Stage.step, if_pos h.1]
        exact h.2 _
  cases hstage : (s.step caller stamp m).1 with
  | ended result => exact Or.inr rfl
  | active p place? =>
      rw [hstage] at hkeyless
      exact Or.inl hkeyless
  | waiting key request next place =>
      rw [hstage] at hkeyless
      exact hkeyless.elim

end Stage

/-! ## Callers who wait -/

def Event.isTurn : Event → Bool
  | .turn _ _ => true
  | _ => false

namespace Hall

/-- Who holds a key: the caller with the first ticket. -/
def holder? (h : Hall) (key : Key) : Option Nat :=
  (h.machine.registry.queue key).head?.map Ticket.caller

/-- The key for which a caller waits that somebody else holds. -/
def awaits? (h : Hall) (caller : Nat) : Option Key :=
  match h.stage? caller with
  | some (.waiting key _ _ place) =>
      if h.machine.registry.isHeldBy key ⟨caller, place.handle⟩ then none else some key
  | _ => none

/-- A call has not ended, and whatever stamp its next turn is offered, it gets on by it. -/
def CanGoOn (h : Hall) (caller : Nat) : Prop :=
  ∃ s, h.stage? caller = some s ∧ s.isEnded = false ∧
    ∀ stamp, h.machine.inUse stamp.id = false →
      ∃ s', (h.take (.turn stamp caller)).stage? caller = some s' ∧ s.Advances s'

/-- The hall is in order, and every program in it holds a key only if it will not wait. -/
structure Flowing (h : Hall) : Prop where
  fair : h.Fair (Peers.keeping fun _ => True) (fun _ => Pledge.writing fun _ => True) {}
  modest : ∀ {caller : Nat} {v : Visit}, h.visits[caller]? = some v → v.stage.Modest h.machine

variable {h : Hall}

theorem Flowing.turn (hf : h.Flowing) (stamp : Stamp) (caller : Nat) :
    (h.take (.turn stamp caller)).Flowing := by
  refine ⟨hf.fair.turn pact_any stamp caller, ?_⟩
  rcases h.take_turn_cases stamp caller with heq | ⟨v, hv, -, heq⟩
  · rw [heq]
    exact hf.modest
  · rw [heq]
    intro other w hw
    rcases visits_turn hw with ⟨-, rfl⟩ | ⟨hne, hw⟩
    · exact (hf.modest hv).step (hf.fair.keeps hv) caller stamp
    · exact (hf.modest hw).congr fun _ hq => hf.fair.transaction_others hv hw hne stamp hq

theorem Flowing.take (hf : h.Flowing) (event : Event) : (h.take event).Flowing := by
  cases event with
  | turn stamp caller => exact hf.turn stamp caller
  | call call =>
      refine ⟨hf.fair.call (keeps_any call _), fun {caller v} hv => ?_⟩
      rcases visits_call hv with hv | ⟨-, rfl⟩
      · exact hf.modest hv
      · exact asksOnce_call call
  | reorder key queue =>
      refine ⟨hf.fair.reorder pact_any key queue, fun {caller v} hv => ?_⟩
      have hmodest : v.stage.Modest h.machine := hf.modest (show h.visits[caller]? = some v from hv)
      exact hmodest.congr fun place _ => Machine.transaction_reorder _ _ _ _

theorem Flowing.run (hf : h.Flowing) (events : List Event) : (h.run events).Flowing := by
  induction events generalizing h with
  | nil => exact hf
  | cons event events ih => exact ih (hf.take event)

theorem flowing_empty : Flowing {} :=
  ⟨Fair.start orderly_empty, fun hv => nomatch hv⟩

/-! ## Waiting for a call that does not wait -/

theorem awaits?_eq_some {caller : Nat} {key : Key} (hwaits : h.awaits? caller = some key) :
    ∃ v request next place, h.visits[caller]? = some v ∧
      v.stage = .waiting key request next place ∧
      h.machine.registry.isHeldBy key ⟨caller, place.handle⟩ = false := by
  rw [awaits?, stage?] at hwaits
  cases hv : h.visits[caller]? with
  | none =>
      rw [hv] at hwaits
      cases hwaits
  | some v =>
      rw [hv] at hwaits
      change (match some v.stage with
        | some (.waiting key _ _ place) =>
            if h.machine.registry.isHeldBy key ⟨caller, place.handle⟩ then none else some key
        | _ => none) = some key at hwaits
      cases hstage : v.stage with
      | waiting found request next place =>
          rw [hstage] at hwaits
          simp only [] at hwaits
          split at hwaits
          · cases hwaits
          · next hfront =>
              cases hwaits
              exact ⟨v, request, next, place, rfl, hstage, Bool.eq_false_iff.mpr hfront⟩
      | active p place? =>
          rw [hstage] at hwaits
          cases hwaits
      | ended result =>
          rw [hstage] at hwaits
          cases hwaits

theorem awaits?_of_waiting {caller : Nat} {v : Visit} (hv : h.visits[caller]? = some v)
    {key : Key} {request : Request} {next : request.Reply → Program Answer} {place : Place}
    (hstage : v.stage = .waiting key request next place) :
    h.awaits? caller =
      if h.machine.registry.isHeldBy key ⟨caller, place.handle⟩ then none else some key := by
  rw [awaits?, stage?_eq hv, hstage]

/-- Whoever waits for a key waits for another call that holds it, and that will not wait. -/
theorem Flowing.unhindered_holder (hf : h.Flowing) {caller : Nat} {key : Key}
    (hwaits : h.awaits? caller = some key) :
    ∃ holder v, h.holder? key = some holder ∧ holder ≠ caller ∧
      h.visits[holder]? = some v ∧ v.stage.Unhindered h.machine.registry holder := by
  obtain ⟨v, request, next, place, hv, hstage, hback⟩ := awaits?_eq_some hwaits
  have hseat : h.seat? caller =
      some ⟨place.handle, (h.machine.transaction place.handle).held, some key⟩ := by
    rw [seat?_eq hv, hstage]
    rfl
  obtain ⟨hticket, -⟩ := hf.fair.orderly.arranged.listed hseat rfl
  cases hqueue : h.machine.registry.queue key with
  | nil =>
      rw [hqueue] at hticket
      cases hticket
  | cons first tickets =>
      have hfirst : h.machine.registry.isHeldBy key first = true := by
        rw [Registry.isHeldBy_iff, hqueue]
        rfl
      have hmem : first ∈ h.machine.registry.queue key := by
        rw [hqueue]
        exact List.mem_cons_self
      obtain ⟨a, ha, hhandle, huse⟩ := hf.fair.orderly.arranged.owned hmem
      obtain ⟨w, place', hw, hplace, hhandle', -⟩ := hf.fair.visit_of_seat ha
      refine ⟨first.caller, w, ?_, ?_, hw, ?_⟩
      · rw [holder?, hqueue]
        rfl
      · rintro rfl
        rw [hseat] at ha
        cases ha
        change place.handle = first.handle at hhandle
        rw [hhandle, hfirst] at hback
        cases hback
      · have hmodest := hf.modest hw
        rw [seat?_eq hw] at ha
        cases hstage' : w.stage with
        | ended result =>
            rw [hstage'] at hplace
            cases hplace
        | active p place? =>
            rw [hstage'] at hplace hmodest ha
            change place? = some place' at hplace
            subst hplace
            cases ha
            rcases huse with hheld | hnone
            · rcases hmodest with ⟨hnil, -⟩ | hkeyless
              · change key ∈ (h.machine.transaction place'.handle).held at hheld
                rw [hnil] at hheld
                cases hheld
              · exact hkeyless
            · cases hnone
        | waiting key' request' next' place'' =>
            rw [hstage'] at hmodest ha
            cases ha
            rcases huse with hheld | hawaits
            · change key ∈ (h.machine.transaction place''.handle).held at hheld
              rw [hmodest.1] at hheld
              cases hheld
            · cases hawaits
              change place''.handle = first.handle at hhandle
              refine ⟨?_, hmodest.2⟩
              rw [hhandle]
              exact hfirst

theorem awaits?_of_unhindered {caller : Nat} {v : Visit} (hv : h.visits[caller]? = some v)
    (hs : v.stage.Unhindered h.machine.registry caller) : h.awaits? caller = none := by
  cases hstage : v.stage with
  | waiting key request next place =>
      rw [hstage] at hs
      rw [awaits?_of_waiting hv hstage, if_pos hs.1]
  | active p place? => rw [awaits?, stage?_eq hv, hstage]
  | ended result => rw [awaits?, stage?_eq hv, hstage]

/-- A call that has not ended, and for which nobody else is in the way, gets on by its turns. -/
theorem Flowing.advances (hf : h.Flowing) {caller : Nat} {v : Visit}
    (hv : h.visits[caller]? = some v) (hended : v.stage.isEnded = false)
    (hfree : h.awaits? caller = none) (stamp : Stamp) :
    v.stage.Advances (v.stage.step caller stamp h.machine).1 := by
  refine Stage.advances_step (hf.fair.keeps hv) hended ?_ stamp
  intro key request next place hstage
  rw [awaits?_of_waiting hv hstage] at hfree
  split at hfree
  · next hfront => exact hfront
  · cases hfree

theorem Flowing.canGoOn (hf : h.Flowing) {caller : Nat} {v : Visit}
    (hv : h.visits[caller]? = some v) (hended : v.stage.isEnded = false)
    (hfree : h.awaits? caller = none) : h.CanGoOn caller := by
  refine ⟨v.stage, stage?_eq hv, hended, fun stamp hstamp => ?_⟩
  refine ⟨_, ?_, hf.advances hv hended hfree stamp⟩
  obtain ⟨-, hvisits⟩ := take_turn hv hstamp
  have hlt : caller < h.visits.length := (List.getElem?_eq_some_iff.mp hv).1
  rw [stage?, hvisits, List.getElem?_set_self hlt]
  rfl

/-! ## Bringing calls to their ends -/

/-- There is always an identifier that is not in use. -/
theorem exists_new (m : Machine) : ∃ id, m.inUse id = false := by
  let rules (rules : List Rule) : List String := rules.filterMap Rule.id
  let bookings (bookings : List Booking) : List String := bookings.map Booking.id
  let used : List String := rules m.records.rules ++ bookings m.records.bookings ++
    m.transactions.flatMap fun t => rules t.newRules ++ bookings t.newBookings
  have : Infinite String :=
    Infinite.of_injective (fun n => numbered.name n) fun _ _ heq => numbered.distinct heq
  obtain ⟨id, hid⟩ := Infinite.exists_notMem_finset used.toFinset
  have hrule : ∀ {l : List Rule}, l.any (·.id == some id) = true → id ∈ rules l := by
    intro l hany
    obtain ⟨rule, hrule, heq⟩ := List.any_eq_true.mp hany
    exact List.mem_filterMap.mpr ⟨rule, hrule, eq_of_beq heq⟩
  have hbooking : ∀ {l : List Booking}, l.any (·.id == id) = true → id ∈ bookings l := by
    intro l hany
    obtain ⟨b, hb, heq⟩ := List.any_eq_true.mp hany
    exact List.mem_map.mpr ⟨b, hb, eq_of_beq heq⟩
  refine ⟨id, Bool.eq_false_iff.mpr fun hused => hid (List.mem_toFinset.mpr ?_)⟩
  simp only [Machine.inUse, Bool.or_eq_true] at hused
  rcases hused with (hused | hused) | hused
  · exact List.mem_append_left _ (List.mem_append_left _ (hrule hused))
  · exact List.mem_append_left _ (List.mem_append_right _ (hbooking hused))
  · obtain ⟨t, ht, hused⟩ := List.any_eq_true.mp hused
    refine List.mem_append_right _ (List.mem_flatMap.mpr ⟨t, ht, ?_⟩)
    rw [Bool.or_eq_true] at hused
    exact List.mem_append.mpr (hused.imp hrule hbooking)

/-- A caller can go on until its call ends, or waits for another. If it does not wait any more, it
ends. -/
theorem Flowing.exists_turns {caller : Nat} {v : Visit} (hf : h.Flowing)
    (hv : h.visits[caller]? = some v) : ∃ (stamps : List Stamp) (s : Stage Answer),
      let h' := h.run (stamps.map (.turn · caller))
      h'.visits = h.visits.set caller { v with stage := s } ∧
        (s.isEnded = true ∨ (h'.awaits? caller).isSome = true) ∧
        (v.stage.isEnded = true ∨ v.stage.Unhindered h.machine.registry caller →
          s.isEnded = true) := by
  obtain ⟨call, s⟩ := v
  induction s using Stage.advances_wf.induction generalizing h with
  | _ s ih =>
      have hlt : caller < h.visits.length := (List.getElem?_eq_some_iff.mp hv).1
      have hself : h.visits = h.visits.set caller ⟨call, s⟩ := by
        rw [← (List.getElem?_eq_some_iff.mp hv).2, List.set_getElem_self]
      cases hended : s.isEnded with
      | true => exact ⟨[], s, hself, Or.inl hended, fun _ => hended⟩
      | false =>
          cases hwaits : h.awaits? caller with
          | some key =>
              refine ⟨[], s, hself, Or.inr ?_, ?_⟩
              · show (h.awaits? caller).isSome = true
                rw [hwaits]
                rfl
              · rintro (hfalse | hunhindered)
                · cases hfalse
                · rw [awaits?_of_unhindered hv hunhindered] at hwaits
                  cases hwaits
          | none =>
              obtain ⟨id, hid⟩ := exists_new h.machine
              let stamp : Stamp := ⟨⟨0, horizon_pos⟩, id⟩
              have hnew : h.machine.inUse stamp.id = false := hid
              obtain ⟨-, hvisits⟩ := take_turn hv hnew
              have hv' : (h.take (.turn stamp caller)).visits[caller]? =
                  some ⟨call, (s.step caller stamp h.machine).1⟩ := by
                rw [hvisits, List.getElem?_set_self hlt]
              obtain ⟨stamps, s', hrun, hlast, hend⟩ :=
                ih _ (hf.advances hv hended hwaits stamp) (hf.turn stamp caller) hv'
              refine ⟨stamp :: stamps, s', ?_, hlast, ?_⟩
              · rw [hvisits, List.set_set] at hrun
                exact hrun
              · rintro (hfalse | hunhindered)
                · cases hfalse
                · exact hend (hunhindered.step stamp _).symm

theorem exists_open (hunfinished : ¬ h.Finished) :
    ∃ v ∈ h.visits, v.stage.isEnded = false := by
  by_contra hnone
  refine hunfinished fun v hv => ?_
  rw [← Bool.not_eq_false]
  exact fun hopen => hnone ⟨v, hv, hopen⟩

/-- The number of calls that have not ended. -/
def unended (h : Hall) : Nat := h.visits.countP fun v => !v.stage.isEnded

theorem unended_set {h' : Hall} {caller : Nat} {v : Visit} (hv : h.visits[caller]? = some v)
    (hopen : v.stage.isEnded = false) {s : Stage Answer}
    (hvisits : h'.visits = h.visits.set caller { v with stage := s }) :
    h'.unended + 1 = h.unended + if s.isEnded then 0 else 1 := by
  obtain ⟨hlt, heq⟩ := List.getElem?_eq_some_iff.mp hv
  have hpos : 0 < h.unended := by
    refine List.countP_pos_iff.mpr ⟨v, List.mem_of_getElem? hv, ?_⟩
    rw [hopen]
    rfl
  unfold unended at hpos ⊢
  rw [hvisits, List.countP_set hlt, heq]
  simp only [hopen, Bool.not_false, if_true, Bool.not_eq_true']
  cases s.isEnded
  · simp only [if_true, Bool.false_eq_true, if_false]
    omega
  · simp only [if_true, Bool.true_eq_false, if_false]
    omega

/-- Some turns bring one more call to its end. -/
theorem Flowing.exists_fewer (hf : h.Flowing) (hunfinished : ¬ h.Finished) :
    ∃ turns : List Event, (∀ event ∈ turns, event.isTurn = true) ∧
      (h.run turns).unended < h.unended := by
  obtain ⟨v, hmem, hopen⟩ := exists_open hunfinished
  obtain ⟨caller, hv⟩ := List.getElem?_of_mem hmem
  have hturns : ∀ {caller : Nat} {stamps : List Stamp},
      ∀ event ∈ stamps.map (Event.turn · caller), event.isTurn = true := by
    intro caller stamps event hevent
    obtain ⟨stamp, -, rfl⟩ := List.mem_map.mp hevent
    rfl
  obtain ⟨stamps, s, hvisits, hlast, -⟩ := hf.exists_turns hv
  have hcount := unended_set hv hopen hvisits
  rcases hlast with hended | hwaits
  · refine ⟨stamps.map (.turn · caller), hturns, ?_⟩
    rw [hended] at hcount
    simp only [if_true] at hcount
    omega
  · -- The caller has come to wait, and the call for which it waits goes on to its end.
    obtain ⟨key, hwaits⟩ := Option.isSome_iff_exists.mp hwaits
    have hf' := hf.run (stamps.map (.turn · caller))
    obtain ⟨holder, w, -, -, hw, hunhindered⟩ := hf'.unhindered_holder hwaits
    obtain ⟨stamps', s', hvisits', -, hend⟩ := hf'.exists_turns hw
    have hcount' := unended_set hw hunhindered.isEnded hvisits'
    rw [hend (Or.inr hunhindered)] at hcount'
    refine ⟨stamps.map (.turn · caller) ++ stamps'.map (.turn · holder), ?_, ?_⟩
    · intro event hevent
      exact (List.mem_append.mp hevent).elim (hturns event) (hturns event)
    · rw [run_append]
      simp only [if_true] at hcount'
      split at hcount <;> omega

theorem Flowing.exists_finished (hf : h.Flowing) : ∃ turns : List Event,
    (∀ event ∈ turns, event.isTurn = true) ∧ (h.run turns).Finished := by
  induction hn : h.unended using Nat.strong_induction_on generalizing h with
  | _ n ih =>
      by_cases hfinished : h.Finished
      · exact ⟨[], fun _ hevent => absurd hevent List.not_mem_nil, hfinished⟩
      · obtain ⟨turns, hturns, hfewer⟩ := hf.exists_fewer hfinished
        obtain ⟨turns', hturns', hend⟩ := ih _ (by omega) (hf.run turns) rfl
        refine ⟨turns ++ turns', ?_, ?_⟩
        · intro event hevent
          exact (List.mem_append.mp hevent).elim (hturns event) (hturns' event)
        · rw [run_append]
          exact hend

/-! ## No deadlock -/

/-- However calls of services have taken their turns so far, whoever waits for a key waits for
another call, which holds the key, does not wait and can go on. So if some call has not ended, some
such call can go on, and there are turns by which all calls end. -/
theorem never_deadlocked (events : List Event) :
    let h := Hall.run {} events
    (∀ caller key, h.awaits? caller = some key →
        ∃ holder, h.holder? key = some holder ∧ holder ≠ caller ∧
          h.awaits? holder = none ∧ h.CanGoOn holder) ∧
      (¬ h.Finished → ∃ caller, h.CanGoOn caller) ∧
      ∃ turns : List Event, (∀ event ∈ turns, event.isTurn = true) ∧
        (h.run turns).Finished := by
  intro h
  have hf : h.Flowing := flowing_empty.run events
  have hholder : ∀ caller key, h.awaits? caller = some key →
      ∃ holder, h.holder? key = some holder ∧ holder ≠ caller ∧
        h.awaits? holder = none ∧ h.CanGoOn holder := by
    intro caller key hwaits
    obtain ⟨holder, v, hholds, hne, hv, hunhindered⟩ := hf.unhindered_holder hwaits
    have hfree := awaits?_of_unhindered hv hunhindered
    exact ⟨holder, hholds, hne, hfree, hf.canGoOn hv hunhindered.isEnded hfree⟩
  refine ⟨hholder, fun hunfinished => ?_, hf.exists_finished⟩
  obtain ⟨v, hmem, hopen⟩ := exists_open hunfinished
  obtain ⟨caller, hv⟩ := List.getElem?_of_mem hmem
  cases hwaits : h.awaits? caller with
  | none => exact ⟨caller, hf.canGoOn hv hopen hwaits⟩
  | some key =>
      obtain ⟨holder, -, -, -, hcan⟩ := hholder caller key hwaits
      exact ⟨holder, hcan⟩

/-- Three callers ask for one slot. The first one has looked it up, and the others wait. -/
def crowded : List Event :=
  opening ++ List.replicate 3 (.call (.createBooking firstSlot)) ++
    [1, 1, 2, 2, 3, 3].map (.turnOf · "")

theorem crowd_gets_on :
    let h := Hall.run {} crowded
    (h.awaits? 2).isSome = true ∧ h.awaits? 3 = h.awaits? 2 ∧ ¬ h.Finished ∧
      h.CanGoOn 1 ∧ ∃ turns, (h.run turns).Finished := by
  intro h
  have hwaits : h.awaits? 2 = some firstSlot.key ∧ h.awaits? 3 = some firstSlot.key ∧
      h.holder? firstSlot.key = some 1 := by decide +kernel
  obtain ⟨hholder, -, turns, -, hend⟩ := never_deadlocked crowded
  obtain ⟨holder, hholds, -, -, hcan⟩ := hholder 2 _ hwaits.1
  rw [hwaits.2.2] at hholds
  cases hholds
  refine ⟨?_, hwaits.2.1.trans hwaits.1.symm, by decide +kernel, hcan, turns, hend⟩
  rw [hwaits.1]
  rfl

end Hall

end Store

end Bookable
