import Bookable.Proofs.Store.Traffic
import Mathlib.Data.List.Induction

/-!
# What a transaction writes is seen by nobody else

To say that nobody sees the writes of a transaction, a run is compared with the run of
the same moves in which that transaction loses its writes after every move: they are
drawn under a veil. As long as no commit of the transaction has published, the two runs
differ in these writes and in nothing else, so every other transaction gets the same
replies in both, waits for the same keys, and meets the same conflicts.

A single move shows why. A move of another transaction reads the records and the other
transaction's own writes, and looks at the veiled transaction only for the keys that it
holds. A move of the veiled transaction may write something else, but that is veiled
again. Only a commit that publishes would make a difference, and a commit that meets a
conflict does not: under the veil it publishes nothing.
-/

namespace Bookable.Store

/-- A machine without the writes of one transaction. -/
def Machine.veil (m : Machine) (handle : Nat) : Machine :=
  m.setTransaction handle (m.transaction handle).cleared

namespace Traffic

def veil (s : Traffic) (handle : Nat) : Traffic := { s with machine := s.machine.veil handle }

/-- A run in which a transaction loses its writes after every move. -/
def runVeiled (handle : Nat) (s : Traffic) (moves : List Move) : Traffic :=
  moves.foldl (fun s move => (s.take move).veil handle) s

theorem runVeiled_append (handle : Nat) (s : Traffic) (past moves : List Move) :
    s.runVeiled handle (past ++ moves) = (s.runVeiled handle past).runVeiled handle moves :=
  List.foldl_append

end Traffic

/-! ## Machines under a veil -/

namespace Machine

variable (m : Machine) (handle : Nat)

theorem setTransaction_setTransaction (t u : Transaction) :
    (m.setTransaction handle t).setTransaction handle u = m.setTransaction handle u := by
  rw [setTransaction, setTransaction, setTransaction, List.set_set]

theorem setTransaction_comm {handle other : Nat} (h : other ≠ handle) (t u : Transaction) :
    (m.setTransaction handle t).setTransaction other u =
      (m.setTransaction other u).setTransaction handle t := by
  rw [setTransaction, setTransaction, setTransaction, setTransaction, List.set_comm _ _ h.symm]

theorem transaction_veil_of_ne {handle other : Nat} (h : other ≠ handle) :
    (m.veil handle).transaction other = m.transaction other :=
  transaction_setTransaction_of_ne h.symm _

theorem transaction_veil :
    (m.veil handle).transaction handle = (m.transaction handle).cleared := by
  rw [veil, transaction_setTransaction]
  split
  · rfl
  · next hout =>
      have hge : m.transactions.length ≤ handle := Nat.not_lt.mp fun hlt => hout ⟨rfl, hlt⟩
      rw [transaction, List.getElem?_eq_none hge]
      rfl

theorem held_veil (other : Nat) :
    ((m.veil handle).transaction other).held = (m.transaction other).held := by
  rcases eq_or_ne other handle with rfl | hne
  · rw [transaction_veil]
    rfl
  · rw [transaction_veil_of_ne m hne]

theorem ended_veil (other : Nat) :
    ((m.veil handle).transaction other).ended = (m.transaction other).ended := by
  rcases eq_or_ne other handle with rfl | hne
  · rw [transaction_veil]
    rfl
  · rw [transaction_veil_of_ne m hne]

/-- What is written into a veiled transaction is veiled again. -/
theorem veil_setTransaction (t : Transaction) :
    (m.setTransaction handle t).veil handle = m.setTransaction handle t.cleared := by
  rcases Nat.lt_or_ge handle m.transactions.length with hlt | hge
  · rw [veil, transaction_setTransaction_self hlt, setTransaction_setTransaction]
  · rw [veil, setTransaction_of_le hge, setTransaction_of_le hge, setTransaction_of_le hge]

theorem setTransaction_veil (t : Transaction) :
    (m.veil handle).setTransaction handle t = m.setTransaction handle t :=
  setTransaction_setTransaction m handle _ t

theorem setTransaction_veil_of_ne {handle other : Nat} (h : other ≠ handle) (t : Transaction) :
    (m.veil handle).setTransaction other t = (m.setTransaction other t).veil handle := by
  rw [veil, setTransaction_comm m h, veil, transaction_setTransaction_of_ne h]

theorem veil_veil : (m.veil handle).veil handle = m.veil handle :=
  veil_setTransaction m handle _

/-! ## The steps of a machine under a veil -/

theorem perform_veil_of_ne {handle other : Nat} (h : other ≠ handle) (stamp : Stamp)
    (request : Request) :
    ((m.veil handle).perform stamp other request).1 = (m.perform stamp other request).1 := by
  rw [perform_reply, perform_reply, transaction_veil_of_ne m h]
  rfl

theorem veil_perform (stamp : Stamp) (other : Nat) (request : Request) :
    ((m.veil handle).perform stamp other request).2.veil handle =
      (m.perform stamp other request).2.veil handle := by
  rw [perform_machine, perform_machine]
  rcases eq_or_ne other handle with rfl | hne
  · -- Whatever the reply, the keys and the end of the transaction are the same.
    rw [setTransaction_veil, veil_setTransaction, veil_setTransaction, transaction_veil]
    refine congrArg (m.setTransaction other) ?_
    simp only [Transaction.cleared, Transaction.perform_held, Transaction.perform_ended]
  · rw [setTransaction_veil_of_ne m hne, veil_veil, transaction_veil_of_ne m hne]
    rfl

theorem hold_veil (other : Nat) (key : Key) :
    (m.veil handle).hold other key = (m.hold other key).veil handle := by
  rw [hold, hold]
  rcases eq_or_ne other handle with rfl | hne
  · rw [setTransaction_veil, veil_setTransaction, transaction_veil]
    rfl
  · rw [setTransaction_veil_of_ne m hne, transaction_veil_of_ne m hne]

/-- A request is answered under a veil or waits for a key there, just as it does without. -/
theorem ask_veil (stamp : Stamp) (caller other : Nat) (request : Request) :
    (∃ reply reply' m₁ m₂, m.ask stamp caller other request = .answered reply m₁ ∧
        (m.veil handle).ask stamp caller other request = .answered reply' m₂ ∧
        m₂.veil handle = m₁.veil handle) ∨
      ∃ key m₁ m₂, m.ask stamp caller other request = .queued key m₁ ∧
        (m.veil handle).ask stamp caller other request = .queued key m₂ ∧
        m₂.veil handle = m₁.veil handle := by
  have hanswered := veil_perform m handle stamp other request
  cases hkey : keyOf? request with
  | none =>
      simp only [ask_eq, hkey]
      exact Or.inl ⟨_, _, _, _, rfl, rfl, hanswered⟩
  | some key =>
      by_cases hheld : key ∈ (m.transaction other).held
      · simp only [ask_eq, hkey, held_veil, if_pos hheld]
        exact Or.inl ⟨_, _, _, _, rfl, rfl, hanswered⟩
      · let entered : Machine := { m with registry := m.registry.enter key ⟨caller, other⟩ }
        have hlock : (m.veil handle).registry.lock? key = m.registry.lock? key := rfl
        cases hfree : m.registry.lock? key with
        | none =>
            simp only [ask_eq, hkey, held_veil, if_neg hheld, hlock, hfree]
            refine Or.inl ⟨_, _, _, _, rfl, rfl, ?_⟩
            show (((entered.veil handle).hold other key).perform stamp other request).2.veil _ = _
            rw [hold_veil]
            exact veil_perform (entered.hold other key) handle stamp other request
        | some l =>
            simp only [ask_eq, hkey, held_veil, if_neg hheld, hlock, hfree]
            exact Or.inr ⟨_, _, _, rfl, rfl, veil_veil entered handle⟩

theorem veil_resume (stamp : Stamp) (other : Nat) (key : Key) (request : Request) :
    ((m.veil handle).resume stamp other key request).2.veil handle =
      (m.resume stamp other key request).2.veil handle := by
  rw [resume, resume, hold_veil]
  exact veil_perform (m.hold other key) handle stamp other request

theorem veil_begin : (m.veil handle).begin.2.veil handle = m.begin.2.veil handle := by
  rcases Nat.lt_or_ge handle m.transactions.length with hlt | hge
  · have hbegin : (m.veil handle).begin.2 = m.begin.2.veil handle := by
      have htransaction : m.begin.2.transaction handle = m.transaction handle := by
        rw [transaction_begin, if_neg (Nat.ne_of_lt hlt)]
      rw [veil, veil, htransaction]
      simp only [begin, setTransaction, List.set_append_left _ _ hlt]
    rw [hbegin, veil_veil]
  · have hsame : m.veil handle = m := setTransaction_of_le hge _
    rw [hsame]

theorem finish_veil_of_ne {handle other : Nat} (h : other ≠ handle) (t : Transaction) :
    ((m.veil handle).finish other t).2 = (m.finish other t).2.veil handle := by
  rw [finish_snd, finish_snd, setTransaction_veil_of_ne m h]
  rfl

/-- Ending a transaction that has written nothing does the same under its veil. -/
theorem finish_veil (t : Transaction) :
    ((m.veil handle).finish handle t.cleared).2 = (m.finish handle t.cleared).2 := by
  rw [finish_snd, finish_snd, setTransaction_veil]
  rfl

theorem outcome_veil_of_ne {handle other : Nat} (h : other ≠ handle) :
    ((m.veil handle).commit other).1 = (m.commit other).1 := by
  cases hended : (m.transaction other).ended with
  | true =>
      rw [commit, commit, transaction_veil_of_ne m h, hended]
      rfl
  | false =>
      rw [commit_outcome hended, commit_outcome (by rw [ended_veil, hended]),
        transaction_veil_of_ne m h]
      rfl

theorem commit_veil_of_ne {handle other : Nat} (h : other ≠ handle) :
    ((m.veil handle).commit other).2.2 = (m.commit other).2.2.veil handle := by
  rw [commit_machine, commit_machine, transaction_veil_of_ne m h]
  split
  · rfl
  · have hconflicts : (m.transaction other).conflicts (m.veil handle).records =
        (m.transaction other).conflicts m.records := rfl
    rw [hconflicts]
    split
    · exact finish_veil_of_ne m h _
    · exact finish_veil_of_ne { m with records := (m.transaction other).publish m.records } h _

/-- A commit that does not publish does the same under the veil of its transaction. -/
theorem commit_veil {handle : Nat} (h : m.publishes handle = false) :
    ((m.veil handle).commit handle).2.2.veil handle = (m.commit handle).2.2.veil handle := by
  rw [commit_machine, commit_machine, ended_veil]
  cases hended : (m.transaction handle).ended with
  | true => exact veil_veil m handle
  | false =>
      rw [publishes_of_live hended, Bool.not_eq_false'] at h
      rw [h, transaction_veil]
      exact congrArg (veil · handle) (finish_veil m handle (m.transaction handle))

theorem veil_rollback (other : Nat) :
    ((m.veil handle).rollback other).2.veil handle = (m.rollback other).2.veil handle := by
  rw [rollback_machine, rollback_machine, ended_veil]
  split
  · exact veil_veil m handle
  · rcases eq_or_ne other handle with rfl | hne
    · rw [transaction_veil]
      exact congrArg (veil · other) (finish_veil m other (m.transaction other))
    · rw [transaction_veil_of_ne m hne, finish_veil_of_ne m hne, veil_veil]

theorem reorder_veil (key : Key) (queue : List Ticket) :
    (m.veil handle).reorder key queue = (m.reorder key queue).veil handle := by
  have htaken : (m.veil handle).isTaken key = m.isTaken key := by
    simp only [isTaken, held_veil]
    rfl
  have hlock : (m.veil handle).registry.lock? key = m.registry.lock? key := rfl
  rw [reorder, reorder, htaken, hlock]
  split
  · rfl
  · split <;> rfl

end Machine

/-! ## Runs under a veil -/

namespace Traffic

theorem veil_take {handle : Nat} {s : Traffic} {move : Move}
    (h : move = .commit handle → s.machine.publishes handle = false) :
    ((s.veil handle).take move).veil handle = (s.take move).veil handle := by
  have hcongr : ∀ {m m' : Machine} {waiting : List Waiting}, m.veil handle = m'.veil handle →
      ({ machine := m, waiting } : Traffic).veil handle =
        ({ machine := m', waiting } : Traffic).veil handle :=
    fun heq => congrArg (fun machine => ({ machine, waiting := _ } : Traffic)) heq
  cases move with
  | begin => exact hcongr (s.machine.veil_begin handle)
  | ask stamp caller other request =>
      have hlength : (s.veil handle).machine.transactions.length =
          s.machine.transactions.length :=
        Machine.length_setTransaction _ _ _
      have hwaiting : (s.veil handle).waitingOf caller = s.waitingOf caller := rfl
      rw [take, take, hwaiting, hlength]
      by_cases hcannot : (s.waitingOf caller).isSome ∨ s.machine.transactions.length ≤ other
      · rw [if_pos hcannot, if_pos hcannot]
        exact hcongr (s.machine.veil_veil handle)
      · rw [if_neg hcannot, if_neg hcannot]
        rcases s.machine.ask_veil handle stamp caller other request with
          ⟨reply, reply', m₁, m₂, hask, hveiled, hsame⟩ | ⟨key, m₁, m₂, hask, hveiled, hsame⟩
        · rw [hask, show (s.veil handle).machine.ask stamp caller other request = _ from hveiled]
          exact hcongr hsame
        · rw [hask, show (s.veil handle).machine.ask stamp caller other request = _ from hveiled]
          exact hcongr hsame
  | resume stamp caller =>
      have hwaiting : (s.veil handle).waitingOf caller = s.waitingOf caller := rfl
      rw [take, take, hwaiting]
      cases s.waitingOf caller with
      | none => exact hcongr (s.machine.veil_veil handle)
      | some w =>
          have hheld : (s.veil handle).machine.registry.isHeldBy w.key w.ticket =
              s.machine.registry.isHeldBy w.key w.ticket := rfl
          simp only [hheld]
          split
          · exact hcongr (s.machine.veil_resume handle stamp w.ticket.handle w.key w.request)
          · exact hcongr (s.machine.veil_veil handle)
  | reorder key queue =>
      refine hcongr ?_
      show ((s.machine.veil handle).reorder key queue).veil handle = _
      rw [Machine.reorder_veil, Machine.veil_veil]
  | commit other =>
      refine hcongr ?_
      rcases eq_or_ne other handle with rfl | hne
      · exact s.machine.commit_veil (h rfl)
      · show ((s.machine.veil handle).commit other).2.2.veil handle = _
        rw [s.machine.commit_veil_of_ne hne, Machine.veil_veil]
  | rollback other => exact hcongr (s.machine.veil_rollback handle other)

/-- As long as no commit of a transaction publishes, its veil makes no other difference. -/
theorem runVeiled_eq {handle : Nat} {moves : List Move}
    (h : ∀ past, past ++ [.commit handle] <+: moves →
      (run {} past).machine.publishes handle = false) :
    runVeiled handle {} moves = (run {} moves).veil handle := by
  induction moves using List.reverseRecOn with
  | nil => rfl
  | append_singleton past move ih =>
      have hpast := ih fun before hbefore => h before (hbefore.trans (List.prefix_append _ _))
      rw [runVeiled_append, hpast, run_append]
      refine veil_take fun hmove => h past ?_
      subst hmove
      exact List.prefix_refl _

end Traffic

end Bookable.Store
