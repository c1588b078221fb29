import Bookable.Proofs.Store.Machine

/-!
# Runs of a machine

A run is any list of moves made by any callers: transactions are begun, asked,
committed and rolled back in any order, also again after they have ended, and by
more than one caller. Moves that nobody can make change nothing, so that every list
of moves is a run: a caller who waits makes no request, a number that was never
given out is no transaction, and a request goes on only when its ticket holds the
lock.

Nothing is promised about the order in which those who wait for a key are served.
The machine itself serves them first come, first served; a move of its own lets the
waiting tickets change places, as long as a transaction that has a key keeps it.
-/

namespace Bookable.Store

/-- A request that waits for a key. -/
structure Waiting where
  ticket : Ticket
  key : Key
  request : Request

/-- A machine and the requests that wait for its locks. -/
structure Traffic where
  machine : Machine := {}
  waiting : List Waiting := []

/-- What can happen to a machine. Leaving the scope of a transaction is a commit, or a rollback
if an interruption leads out of it. -/
inductive Move where
  | begin
  | ask (stamp : Stamp) (caller handle : Nat) (request : Request)
  /-- The caller's request goes on. -/
  | resume (stamp : Stamp) (caller : Nat)
  /-- The tickets of a key change places. -/
  | reorder (key : Key) (queue : List Ticket)
  | commit (handle : Nat)
  | rollback (handle : Nat)

/-- Whether the first ticket of a key belongs to a transaction that has come to hold it. -/
def Machine.isTaken (m : Machine) (key : Key) : Bool :=
  match (m.registry.lock? key).bind (·.holder?) with
  | some ticket => key ∈ (m.transaction ticket.handle).held
  | none => false

/-- The machine with the tickets of a key in another order. A transaction that has come to hold
the key stays in front. -/
def Machine.reorder (m : Machine) (key : Key) (queue : List Ticket) : Machine :=
  match m.registry.lock? key with
  | none => m
  | some l =>
      if l.queue.isPerm queue ∧ (m.isTaken key → queue.head? = l.queue.head?) then
        { m with registry := { m.registry with locks := m.registry.locks.map fun l =>
            if l.key = key then { l with queue } else l } }
      else m

namespace Traffic

def waitingOf (s : Traffic) (caller : Nat) : Option Waiting :=
  s.waiting.find? (·.ticket.caller == caller)

/-- The machine and its waiting requests after a move. -/
def take (s : Traffic) : Move → Traffic
  | .begin => { s with machine := s.machine.begin.2 }
  | .ask stamp caller handle request =>
      if (s.waitingOf caller).isSome ∨ s.machine.transactions.length ≤ handle then s
      else
        match s.machine.ask stamp caller handle request with
        | .answered _ machine => { s with machine }
        | .queued key machine =>
            { machine, waiting := s.waiting ++ [⟨⟨caller, handle⟩, key, request⟩] }
  | .resume stamp caller =>
      match s.waitingOf caller with
      | none => s
      | some w =>
          if s.machine.registry.isHeldBy w.key w.ticket then
            { machine := (s.machine.resume stamp w.ticket.handle w.key w.request).2
              waiting := s.waiting.filter (·.ticket.caller != caller) }
          else s
  | .reorder key queue => { s with machine := s.machine.reorder key queue }
  | .commit handle => { s with machine := (s.machine.commit handle).2.2 }
  | .rollback handle => { s with machine := (s.machine.rollback handle).2 }

def run (s : Traffic) (moves : List Move) : Traffic := moves.foldl take s

theorem run_append (s : Traffic) (past moves : List Move) :
    s.run (past ++ moves) = (s.run past).run moves :=
  List.foldl_append

end Traffic

@[simp] theorem Machine.records_reorder (m : Machine) (key : Key) (queue : List Ticket) :
    (m.reorder key queue).records = m.records := by
  rw [reorder]
  split
  · rfl
  · split <;> rfl

@[simp] theorem Machine.transactions_reorder (m : Machine) (key : Key) (queue : List Ticket) :
    (m.reorder key queue).transactions = m.transactions := by
  rw [reorder]
  split
  · rfl
  · split <;> rfl

@[simp] theorem Machine.transaction_reorder (m : Machine) (key : Key) (queue : List Ticket)
    (handle : Nat) : (m.reorder key queue).transaction handle = m.transaction handle := by
  unfold transaction
  rw [transactions_reorder]

/-! ## What a move does -/

/-- A transaction that has kept its writes or lost all of them, and has not been begun again. -/
inductive Transaction.Rests (t : Transaction) : Transaction → Prop where
  | kept {held : List Key} {ended : Bool} (h : ended = false → t.ended = false) :
      t.Rests { t with held, ended }
  | blank {held : List Key} {ended : Bool} : t.Rests { held, ended }

theorem Transaction.Rests.refl (t : Transaction) : t.Rests t := by
  have hself : t.Rests { t with held := t.held, ended := t.ended } := .kept id
  exact hself

/-- What a move does to a machine: nobody writes, or a transaction answers a request, which was
asked just now or has waited, or a commit publishes. -/
inductive Traffic.Moved (s : Traffic) (move : Move) (m : Machine) : Prop where
  | rested (records : m.records = s.machine.records)
      (rests : ∀ handle, (s.machine.transaction handle).Rests (m.transaction handle))
  | answered {stamp : Stamp} {handle : Nat} {request : Request} {held : List Key}
      (asked : (∃ caller, move = .ask stamp caller handle request) ∨
        ∃ w ∈ s.waiting, w.request = request)
      (records : m.records = s.machine.records)
      (others : ∀ other, other ≠ handle → m.transaction other = s.machine.transaction other)
      (answer : m.transaction handle =
        (Transaction.perform { s.machine.transaction handle with held } s.machine.records stamp
          request).2)
  | published {handle : Nat} (commit : move = .commit handle)
      (publishes : s.machine.publishes handle = true)
      (records : m.records = (s.machine.transaction handle).publish s.machine.records)
      (others : ∀ other, other ≠ handle → m.transaction other = s.machine.transaction other)
      (closed : m.transaction handle = Machine.closed (s.machine.transaction handle))

theorem Machine.rests_finish (m : Machine) {handle : Nat} {t : Transaction}
    (ht : (m.transaction handle).Rests (closed t)) (other : Nat) :
    (m.transaction other).Rests ((m.finish handle t).2.transaction other) := by
  rw [transaction_finish, transaction_setTransaction]
  split
  · next h =>
      rw [← h.1]
      exact ht
  · exact .refl _

theorem Machine.rests_cleared (m : Machine) (handle other : Nat) :
    (m.transaction other).Rests
      ((m.finish handle (m.transaction handle).cleared).2.transaction other) :=
  rests_finish m .blank other

theorem Traffic.moved_begin (s : Traffic) : s.Moved .begin (s.take .begin).machine := by
  refine .rested rfl fun handle => ?_
  show (s.machine.transaction handle).Rests (s.machine.begin.2.transaction handle)
  rw [Machine.transaction_begin]
  split
  · exact .blank
  · exact .refl _

theorem Traffic.moved_ask (s : Traffic) (stamp : Stamp) (caller handle : Nat)
    (request : Request) : s.Moved (.ask stamp caller handle request)
      (s.take (.ask stamp caller handle request)).machine := by
  rw [take]
  split
  · exact .rested rfl fun _ => .refl _
  · next hcan =>
      rw [not_or, Nat.not_le] at hcan
      split
      · next hask =>
          have htransaction := (Machine.transaction_ask hcan.2 hask).2
          rw [Transaction.locked_eq] at htransaction
          exact .answered (Or.inl ⟨caller, rfl⟩) (Machine.records_ask_answered hask)
            (fun other hne => Machine.transaction_ask_of_ne hask hne) htransaction
      · next hask =>
          obtain ⟨-, -, -, rfl⟩ := Machine.ask_queued hask
          exact .rested rfl fun _ => .refl _

theorem Traffic.moved_resume (s : Traffic) (stamp : Stamp) (caller : Nat) :
    s.Moved (.resume stamp caller) (s.take (.resume stamp caller)).machine := by
  rw [take]
  split
  · exact .rested rfl fun _ => .refl _
  · next w hw =>
      split
      · rcases Nat.lt_or_ge w.ticket.handle s.machine.transactions.length with hlt | hge
        · exact .answered (Or.inr ⟨w, List.mem_of_find?_eq_some hw, rfl⟩) rfl
            (fun other hne => Machine.transaction_resume_of_ne stamp w.key w.request hne)
            (Machine.transaction_resume stamp w.key w.request hlt)
        · have hsame : (s.machine.resume stamp w.ticket.handle w.key w.request).2 = s.machine := by
            rw [Machine.resume, Machine.hold, Machine.setTransaction_of_le hge,
              Machine.perform_machine, Machine.setTransaction_of_le hge]
          exact .rested (congrArg _ hsame) fun _ => by rw [hsame]; exact .refl _
      · exact .rested rfl fun _ => .refl _

theorem Traffic.moved_commit (s : Traffic) (handle : Nat) :
    s.Moved (.commit handle) (s.take (.commit handle)).machine := by
  rw [take]
  cases hpublishes : s.machine.publishes handle with
  | true =>
      obtain ⟨hlive, hconflict⟩ := Machine.publishes_iff.mp hpublishes
      refine .published rfl hpublishes ?_
        (fun other hne => Machine.transaction_commit_of_ne hne) ?_
      · rw [Machine.records_commit, if_pos hpublishes]
      · rw [Machine.commit_machine, hlive, hconflict, if_neg Bool.false_ne_true,
          if_neg Bool.false_ne_true, Machine.transaction_finish]
        exact Machine.transaction_setTransaction_self (Machine.lt_length_of_live hlive) _
  | false =>
      refine .rested ?_ fun other => ?_
      · rw [Machine.records_commit, if_neg (by rw [hpublishes]; exact Bool.false_ne_true)]
      · rw [Machine.commit_machine]
        split
        · exact .refl _
        · next hlive =>
            rw [Machine.publishes_of_live (Bool.not_eq_true _ ▸ hlive), Bool.not_eq_false']
              at hpublishes
            rw [if_pos hpublishes]
            exact Machine.rests_cleared _ _ _

theorem Traffic.moved_rollback (s : Traffic) (handle : Nat) :
    s.Moved (.rollback handle) (s.take (.rollback handle)).machine := by
  refine .rested (Machine.records_rollback _ _) fun other => ?_
  show (s.machine.transaction other).Rests ((s.machine.rollback handle).2.transaction other)
  rw [Machine.rollback_machine]
  split
  · exact .refl _
  · exact Machine.rests_cleared _ _ _

/-- What a move can do. -/
theorem Traffic.moved (s : Traffic) (move : Move) : s.Moved move (s.take move).machine := by
  cases move with
  | begin => exact s.moved_begin
  | ask stamp caller handle request => exact s.moved_ask stamp caller handle request
  | resume stamp caller => exact s.moved_resume stamp caller
  | reorder key queue =>
      refine .rested (Machine.records_reorder _ _ _) fun other => ?_
      show (s.machine.transaction other).Rests
        ((s.machine.reorder key queue).transaction other)
      rw [Machine.transaction_reorder]
      exact .refl _
  | commit handle => exact s.moved_commit handle
  | rollback handle => exact s.moved_rollback handle

/-- The records after a move: only a commit that publishes changes them. -/
theorem Traffic.records_take (s : Traffic) (move : Move) :
    (s.take move).machine.records = s.machine.records ∨
      ∃ handle, move = .commit handle ∧ s.machine.publishes handle = true ∧
        (s.take move).machine.records =
          (s.machine.transaction handle).publish s.machine.records := by
  cases s.moved move with
  | rested hrecords _ => exact Or.inl hrecords
  | answered _ hrecords _ _ => exact Or.inl hrecords
  | published hmove hpublishes hrecords _ _ =>
      exact Or.inr ⟨_, hmove, hpublishes, hrecords⟩

/-- Invariants of what transactions write hold along every run. -/
theorem Upheld.take {T : Transaction → Prop}
    (up : Upheld (fun _ => True) (fun _ => True) T) {s : Traffic}
    (hs : ∀ handle, T (s.machine.transaction handle)) (move : Move) (handle : Nat) :
    T ((s.take move).machine.transaction handle) := by
  cases s.moved move with
  | rested _ hrests =>
      have hrest := hrests handle
      generalize (s.take move).machine.transaction handle = t at hrest ⊢
      cases hrest with
      | kept _ => exact up.touched _ _ (hs handle)
      | blank => exact up.touched _ _ up.opened
  | @answered stamp asked request held _ _ hothers hanswer =>
      rcases eq_or_ne handle asked with rfl | hne
      · rw [hanswer]
        exact up.performed stamp trivial trivial (up.touched _ _ (hs handle))
      · rw [hothers handle hne]
        exact hs handle
  | @published ended _ _ _ hothers hclosed =>
      rcases eq_or_ne handle ended with rfl | hne
      · rw [hclosed]
        exact up.touched _ _ (hs handle)
      · rw [hothers handle hne]
        exact hs handle

end Bookable.Store
