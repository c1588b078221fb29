import Bookable.Proofs.Hall.Alone
import Bookable.Proofs.Hall.Rules
import Bookable.Proofs.Store.Publication

/-!
# A desk with a single caller

While nobody else is served, no lock is ever in the way, and what a program comes to is
decided by the records, by the supply of stamps and by the buffer of its transaction.
`Program.solo` runs a program on these three, without numbers of transactions, without
keys that others hold and without anybody who waits. A desk without locks does the same,
and is without locks again afterwards. For a program that makes no request for a key,
locks do not matter: every desk does the same, whatever transactions are under way there.
-/

namespace Bookable

open Store

variable {α : Type}

/-- What a program comes to by itself: its result, and what it leaves of records and supply. -/
def Program.solo : Program α → Option Transaction → Records → Supply →
    Except Error α × Records × Supply
  | .done result, _, r, s => (.ok result, r, s)
  | .fail cause, _, r, s => (.error cause, r, s)
  | .opening next, _, r, s => next.solo (some {}) r s
  | .ask request next, some t, r, s =>
      (next ((t.locked request).perform r s.stamp request).1).solo
        (some ((t.locked request).perform r s.stamp request).2) r (s.after request)
  | .closing next, some t, r, s =>
      if t.conflicts r then (.error .alreadyBooked, r, s) else next.solo none (t.publish r) s
  | _, none, r, s => (.error .abandoned, r, s)

/-- The result of a program that goes on by naming its result. -/
theorem Program.solo_map {β : Type} (p : Program α) (f : α → β) (t? : Option Transaction)
    (r : Records) (s : Supply) :
    (p.bind fun a => .done (f a)).solo t? r s =
      ((p.solo t? r s).1.map f, (p.solo t? r s).2) := by
  induction p generalizing t? r s with
  | done a => rfl
  | fail cause => rfl
  | opening next ih => exact ih _ _ _
  | ask request next ih =>
      cases t? with
      | none => rfl
      | some t => exact ih _ _ _ _
  | closing next ih =>
      cases t? with
      | none => rfl
      | some t =>
          show (if _ then _ else _) = _
          rw [Program.solo]
          split
          · rfl
          · exact ih _ _ _

namespace Store

/-- The desk has served a program to its end, and holds no lock for it any more. -/
structure Desk.Served (caller : Nat) (drawn : Stamp → Prop) (pledge : Pledge α)
    (out : Except Error α × Records × Supply) (d : Desk) : Prop where
  records : d.machine.records = out.2.1
  supply : d.supply = out.2.2
  solitary : Stage.Solitary caller drawn pledge (.ended out.1) d.machine

theorem Desk.supply_abandon (d : Desk) (place? : Option Place) :
    (d.abandon place?).supply = d.supply := by
  rcases place? with _ | ⟨handle, _ | _⟩ <;> rfl

/-- A desk that answers every request at once serves a program as it runs by itself. Why it does is
up to an invariant of turns, which also says that transactions are open while programs work in
them. -/
theorem Desk.serve_unhindered {I : Stage α → Machine → Prop} {caller : Nat}
    (hstep : ∀ {s m} stamp, I s m → I (s.step caller stamp m).1 (s.step caller stamp m).2)
    (hlive : ∀ {p place m}, I (.active p (some place)) m →
      (m.transaction place.handle).ended = false)
    (hask : ∀ {request next place m} stamp, I (.active (.ask request next) (some place)) m →
      ∃ reply m', m.ask stamp caller place.handle request = .answered reply m')
    (p : Program α) :
    ∀ {place? : Option Place} {d : Desk}, I (.active p place?) d.machine →
      let out := p.solo (place?.map fun place => d.machine.transaction place.handle)
        d.machine.records d.supply
      ∃ d' : Desk, Desk.serve caller p place? d = (.ended out.1, d') ∧
        d'.machine.records = out.2.1 ∧ d'.supply = out.2.2 ∧ I (.ended out.1) d'.machine := by
  induction p with
  | done a => exact fun {_ d} h => ⟨d, rfl, rfl, rfl, hstep d.supply.stamp h⟩
  | fail cause =>
      intro place? d h
      refine ⟨d.abandon place?, rfl, ?_, d.supply_abandon place?, ?_⟩
      · rw [Desk.machine_abandon, Machine.records_abandon]
        rfl
      · rw [Desk.machine_abandon]
        exact hstep d.supply.stamp h
  | opening next ih =>
      intro place? d h
      have hfresh : d.machine.begin.2.transaction d.machine.begin.1 = {} := by
        rw [Machine.transaction_begin]
        exact if_pos rfl
      obtain ⟨d', hserve, hserved⟩ :=
        ih (d := { d with machine := d.machine.begin.2 }) (hstep d.supply.stamp h)
      simp only [Option.map_some, hfresh] at hserve hserved
      exact ⟨d', hserve, hserved⟩
  | ask request next ih =>
      intro place? d h
      have hnext := hstep d.supply.stamp h
      cases place? with
      | none => exact ⟨d, rfl, rfl, rfl, hnext⟩
      | some place =>
          obtain ⟨reply, m', hanswer⟩ := hask d.supply.stamp h
          rw [Stage.step, hanswer] at hnext
          obtain ⟨d', hserve, hserved⟩ := ih reply
            (d := { d with machine := m', supply := d.supply.after request }) hnext
          obtain ⟨hreply, htransaction⟩ :=
            Machine.transaction_ask (Machine.lt_length_of_live (hlive h)) hanswer
          simp only [Option.map_some, htransaction, Machine.records_ask_answered hanswer, hreply]
            at hserve hserved
          refine ⟨d', ?_, hserved⟩
          rw [Desk.serve]
          simp only [hanswer, hreply]
          exact hserve
  | closing next ih =>
      intro place? d h
      have hnext := hstep d.supply.stamp h
      cases place? with
      | none => exact ⟨d, rfl, rfl, rfl, hnext⟩
      | some place =>
          have houtcome := Machine.commit_outcome (hlive h)
          have hrecords := d.machine.records_commit place.handle
          rw [Machine.publishes_of_live (hlive h)] at hrecords
          rw [Stage.step] at hnext
          rw [Desk.serve, Option.map_some, Program.solo]
          rcases hcommit : d.machine.commit place.handle with ⟨result, woken, m'⟩
          rw [hcommit] at hnext houtcome hrecords
          cases hconflict :
              (d.machine.transaction place.handle).conflicts d.machine.records with
          | true =>
              rw [hconflict] at houtcome hrecords
              cases houtcome
              exact ⟨_, rfl, hrecords, rfl, hnext⟩
          | false =>
              rw [hconflict] at houtcome hrecords
              cases houtcome
              obtain ⟨d', hserve, hserved⟩ := ih
                (d := { d with machine := m', ready := d.ready ++ woken }) hnext
              have hpublished : m'.records =
                  (d.machine.transaction place.handle).publish d.machine.records := hrecords
              simp only [Option.map_none, hpublished] at hserve hserved
              rw [if_neg Bool.false_ne_true]
              exact ⟨d', hserve, hserved⟩

/-- A desk serves a program with nobody else's as the program runs by itself: all locks are the
caller's own. -/
theorem Desk.serve_solitary {caller : Nat} {drawn : Stamp → Prop} {pledge : Pledge α}
    (houtside : ∀ {a t r}, ¬ pledge.ends a (some t) r) (hdrawn : ∀ stamp, drawn stamp)
    (p : Program α) {place? : Option Place} {d : Desk}
    (h : Stage.Solitary caller drawn pledge (.active p place?) d.machine) :
    let out := p.solo (place?.map fun place => d.machine.transaction place.handle)
      d.machine.records d.supply
    ∃ d' : Desk, Desk.serve caller p place? d = (.ended out.1, d') ∧
      d'.Served caller drawn pledge out := by
  obtain ⟨d', hserve, hrecords, hsupply, hsolitary⟩ := serve_unhindered
    (fun stamp h => h.step houtside (hdrawn stamp)) (fun h => h.keeps.1.2)
    (fun _ h => h.not_queued) p h
  exact ⟨d', hserve, hrecords, hsupply, hsolitary⟩

/-- A desk without locks serves a program to its end, as it runs by itself, and is without locks
again afterwards. -/
theorem Desk.serve_idle {d : Desk} (hlocks : d.machine.registry.locks = []) (caller : Nat)
    {p : Program α} (hkeeps : p.Keeps (Peers.nobody fun _ => True) (Pledge.writing fun _ => True)
      none d.machine.records) :
    let out := p.solo none d.machine.records d.supply
    ∃ d' : Desk, Desk.serve caller p none d = (.ended out.1, d') ∧
      d'.machine.records = out.2.1 ∧ d'.supply = out.2.2 ∧ d'.machine.registry.locks = [] := by
  have houtside : ∀ {a : α} {t r}, ¬ (Pledge.writing fun _ => True).ends a (some t) r :=
    fun h => nomatch h
  obtain ⟨d', hserve, hserved⟩ := Desk.serve_solitary houtside (fun _ => trivial) p
    (Machine.solitary hlocks hkeeps)
  exact ⟨d', hserve, hserved.records, hserved.supply, hserved.solitary.locks_eq_nil⟩

theorem Desk.serve_call {d : Desk} (hlocks : d.machine.registry.locks = []) (caller : Nat)
    (call : Call) :
    let out := call.program.solo none d.machine.records d.supply
    ∃ d' : Desk, Desk.serve caller call.program none d = (.ended out.1, d') ∧
      d'.machine.records = out.2.1 ∧ d'.supply = out.2.2 ∧ d'.machine.registry.locks = [] :=
  Desk.serve_idle hlocks caller (Hall.keeps_any call _)

/-! ## Programs without keys -/

/-- A program makes no request any more that needs a key, and its transaction is open. -/
def Stage.Lockless (s : Stage α) (m : Machine) : Prop :=
  s.Keyless ∧ ∀ place, s.place? = some place → (m.transaction place.handle).ended = false

theorem Stage.Lockless.step {s : Stage α} {m : Machine} (h : s.Lockless m) (caller : Nat)
    (stamp : Stamp) : (s.step caller stamp m).1.Lockless (s.step caller stamp m).2 := by
  refine ⟨h.1.step caller stamp m, ?_⟩
  obtain ⟨hkeyless, hlive⟩ := h
  cases s with
  | ended result => rintro _ ⟨⟩
  | waiting key request next place => exact hkeyless.elim
  | active p place? =>
      cases p with
      | done a => rintro _ ⟨⟩
      | fail cause => rintro _ ⟨⟩
      | opening next =>
          rintro place ⟨⟩
          show (m.begin.2.transaction m.begin.1).ended = false
          rw [Machine.transaction_begin]
          exact congrArg Transaction.ended (if_pos rfl)
      | ask request next =>
          cases place? with
          | none => rintro _ ⟨⟩
          | some place =>
              obtain ⟨reply, m', hask⟩ :=
                Machine.ask_keyless hkeyless.1 m stamp caller place.handle
              rw [Stage.step, hask]
              rintro _ ⟨⟩
              exact (Machine.ended_ask hask _).trans (hlive place rfl)
      | closing next =>
          cases place? with
          | none => rintro _ ⟨⟩
          | some place =>
              rw [Stage.step]
              split <;> rintro _ ⟨⟩

/-- A program that needs no key runs at every desk as it runs by itself, whatever keys are in
use. -/
theorem Desk.serve_keyless {p : Program α} (hp : Keyless p) (caller : Nat) (d : Desk) :
    let out := p.solo none d.machine.records d.supply
    ∃ d' : Desk, Desk.serve caller p none d = (.ended out.1, d') ∧
      d'.machine.records = out.2.1 ∧ d'.supply = out.2.2 := by
  have hstart : (Stage.active p none).Lockless d.machine := ⟨hp, by rintro _ ⟨⟩⟩
  obtain ⟨d', hserve, hrecords, hsupply, -⟩ := Desk.serve_unhindered (I := Stage.Lockless)
    (fun stamp h => Stage.Lockless.step h caller stamp) (fun h => h.2 _ rfl)
    (fun stamp h => Machine.ask_keyless h.1.1 _ stamp caller _) p hstart
  exact ⟨d', hserve, hrecords, hsupply⟩

/-! ## Calls that only look something up -/

/-- A desk gives a call a result, whoever makes it, and its records stay what they are. -/
def Desk.Answers (d : Desk) (call : Call) (result : Except Error Answer) : Prop :=
  ∀ caller, ∃ d' : Desk, Desk.serve caller call.program none d = (.ended result, d') ∧
    d'.machine.records = d.machine.records

/-- A call that makes one request, which needs no key and writes nothing, is answered with the
reply, whatever other transactions have under way. -/
theorem Desk.answers_lookup (d : Desk) {call : Call} {request : Request} {reply : request.Reply}
    {answer : request.Reply → Answer}
    (hcall : call.program = (Program.transaction (Program.send request)).bind (.done ∘ answer))
    (hkey : keyOf? request = none)
    (hreply : ({} : Transaction).perform d.machine.records d.supply.stamp request = (reply, {})) :
    d.Answers call (.ok (answer reply)) := by
  intro caller
  have hkeyless : Keyless call.program := by
    rw [hcall]
    exact ⟨hkey, fun _ => trivial⟩
  obtain ⟨d', hserve, hrecords, -⟩ := Desk.serve_keyless hkeyless caller d
  have hlocked : ({} : Transaction).locked request = {} := by
    rw [Transaction.locked, hkey]
  have hsolo : call.program.solo none d.machine.records d.supply =
      (.ok (answer reply), d.machine.records, d.supply.after request) := by
    rw [hcall]
    simp only [Program.transaction, Program.send, Program.bind, Program.solo, hlocked, hreply]
    rfl
  rw [hsolo] at hserve hrecords
  exact ⟨d', hserve, hrecords⟩

end Store

end Bookable
