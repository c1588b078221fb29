import Bookable.Proofs.Store.Drawn
import Bookable.Proofs.Store.SingleBooking
import Bookable.Proofs.Store.Veil

/-!
# What publishes, and what is published

The records change in one way only: a transaction that has been begun and has not ended
since commits, and its commit succeeds. Whether a transaction is still open is said
here by the moves alone (`StillOpen`), and agrees with what the machine keeps of it. Everything
else leaves the records as they are: a rollback, a commit that meets a conflict, every
ending after the first one, and every request, asked or answered.

What such a commit publishes is the view of its transaction, to the order of the
records, so that whoever looks afterwards reads what the transaction itself would have
read right before. And until then nobody else reads anything of it: the replies to
others are those of the run in which the transaction loses its writes after every move.
-/

namespace Bookable.Store

/-! ## Transactions that are still open -/

/-- The number of transactions that moves begin. -/
def begun (moves : List Move) : Nat :=
  moves.countP fun move => match move with
    | .begin => true
    | _ => false

/-- A move that ends a transaction, if it has not ended before. -/
def Move.Ends (handle : Nat) : Move → Prop
  | .commit ended => ended = handle
  | .rollback ended => ended = handle
  | _ => False

/-- A transaction has been begun, and no move since then has been one that ends it. Transactions
are numbered as they are begun. -/
def StillOpen (moves : List Move) (handle : Nat) : Prop :=
  ∃ before after, moves = before ++ .begin :: after ∧ begun before = handle ∧
    ∀ move ∈ after, ¬ move.Ends handle

theorem stillOpen_append {past : List Move} {move : Move} {handle : Nat} :
    StillOpen (past ++ [move]) handle ↔
      move = .begin ∧ begun past = handle ∨ StillOpen past handle ∧ ¬ move.Ends handle := by
  constructor
  · rintro ⟨before, after, hmoves, hbegun, hafter⟩
    rcases List.eq_nil_or_concat after with rfl | ⟨after, last, rfl⟩
    · obtain ⟨rfl, hlast⟩ := List.append_inj' hmoves rfl
      exact Or.inl ⟨List.singleton_inj.mp hlast, hbegun⟩
    · rw [List.concat_eq_append, ← List.cons_append, ← List.append_assoc] at hmoves
      rw [List.concat_eq_append] at hafter
      obtain ⟨rfl, hlast⟩ := List.append_inj' hmoves rfl
      obtain rfl := List.singleton_inj.mp hlast
      refine Or.inr ⟨⟨before, after, rfl, hbegun, fun other hother => ?_⟩, ?_⟩
      · exact hafter other (List.mem_append_left _ hother)
      · exact hafter move (List.mem_append_right _ (List.mem_singleton_self _))
  · rintro (⟨rfl, hbegun⟩ | ⟨⟨before, after, rfl, hbegun, hafter⟩, hlast⟩)
    · exact ⟨past, [], rfl, hbegun, fun _ h => absurd h List.not_mem_nil⟩
    · refine ⟨before, after ++ [move], ?_, hbegun, fun other hother => ?_⟩
      · rw [List.append_assoc, List.cons_append]
      · rcases List.mem_append.mp hother with hother | hother
        · exact hafter other hother
        · rwa [List.mem_singleton.mp hother]

namespace Machine

variable {m : Machine}

theorem ended_setTransaction {handle : Nat} {t : Transaction}
    (ht : t.ended = (m.transaction handle).ended) (other : Nat) :
    ((m.setTransaction handle t).transaction other).ended = (m.transaction other).ended := by
  rw [transaction_setTransaction]
  split
  · next h =>
      rw [ht, h.1]
  · rfl

theorem ended_perform (stamp : Stamp) (handle : Nat) (request : Request) (other : Nat) :
    ((m.perform stamp handle request).2.transaction other).ended =
      (m.transaction other).ended :=
  ended_setTransaction (Transaction.perform_ended _ _ _ _) other

theorem ended_hold (handle : Nat) (key : Key) (other : Nat) :
    ((m.hold handle key).transaction other).ended = (m.transaction other).ended :=
  ended_setTransaction (t := { m.transaction handle with
    held := (m.transaction handle).held ++ [key] }) rfl other

theorem ended_ask {m' : Machine} {stamp : Stamp} {caller handle : Nat} {request : Request}
    {reply : request.Reply} (h : m.ask stamp caller handle request = .answered reply m')
    (other : Nat) : (m'.transaction other).ended = (m.transaction other).ended := by
  obtain ⟨-, -, rfl⟩ | ⟨key, -, ⟨-, -, rfl⟩ | ⟨-, -, -, rfl⟩⟩ := ask_answered h
  · exact ended_perform stamp handle request other
  · exact ended_perform stamp handle request other
  · rw [ended_perform, ended_hold]
    rfl

theorem ended_finish {handle : Nat} (hlive : (m.transaction handle).ended = false)
    (t : Transaction) (other : Nat) :
    ((m.finish handle t).2.transaction other).ended = false ↔
      (m.transaction other).ended = false ∧ handle ≠ other := by
  rw [transaction_finish]
  rcases eq_or_ne handle other with rfl | hne
  · rw [transaction_setTransaction_self (lt_length_of_live hlive)]
    exact iff_of_false (fun h => nomatch h) fun h => h.2 rfl
  · rw [transaction_setTransaction_of_ne hne]
    exact (and_iff_left hne).symm

theorem ended_commit (handle other : Nat) :
    ((m.commit handle).2.2.transaction other).ended = false ↔
      (m.transaction other).ended = false ∧ handle ≠ other := by
  rw [commit_machine]
  split
  · next hended =>
      refine (and_iff_left_of_imp fun hlive => ?_).symm
      rintro rfl
      exact Bool.false_ne_true (hlive.symm.trans hended)
  · next hlive =>
      rw [Bool.not_eq_true] at hlive
      split
      · exact ended_finish hlive _ other
      · exact ended_finish (m := { m with records := (m.transaction handle).publish m.records })
          hlive _ other

theorem ended_rollback (handle other : Nat) :
    ((m.rollback handle).2.transaction other).ended = false ↔
      (m.transaction other).ended = false ∧ handle ≠ other := by
  rw [rollback_machine]
  split
  · next hended =>
      refine (and_iff_left_of_imp fun hlive => ?_).symm
      rintro rfl
      exact Bool.false_ne_true (hlive.symm.trans hended)
  · next hlive => exact ended_finish (Bool.not_eq_true _ ▸ hlive) _ other

end Machine

namespace Traffic

variable (s : Traffic)

theorem length_take (move : Move) :
    (s.take move).machine.transactions.length =
      s.machine.transactions.length + begun [move] := by
  cases move with
  | begin => exact List.length_append
  | ask stamp caller handle request =>
      rw [take]
      split
      · rfl
      · split
        · next hask => exact Machine.length_ask hask
        · next hask =>
            obtain ⟨-, -, -, rfl⟩ := Machine.ask_queued hask
            rfl
  | resume stamp caller =>
      rw [take]
      split
      · rfl
      · split
        · exact (Machine.length_perform _ _ _ _).trans (Machine.length_hold _ _ _)
        · rfl
  | reorder key queue => exact congrArg List.length (Machine.transactions_reorder _ _ _)
  | commit handle => exact Machine.length_commit _ _
  | rollback handle => exact Machine.length_rollback _ _

theorem length_run (moves : List Move) :
    (run {} moves).machine.transactions.length = begun moves := by
  induction moves using List.reverseRecOn with
  | nil => rfl
  | append_singleton past move ih =>
      rw [run_append]
      refine (length_take _ move).trans ?_
      rw [ih, begun, begun, begun, List.countP_append]

/-- A move opens the transaction that it begins, and ends the one that it is to end. -/
theorem ended_take (move : Move) (handle : Nat) :
    ((s.take move).machine.transaction handle).ended = false ↔
      move = .begin ∧ s.machine.transactions.length = handle ∨
        (s.machine.transaction handle).ended = false ∧ ¬ move.Ends handle := by
  cases move with
  | begin =>
      show (s.machine.begin.2.transaction handle).ended = false ↔ _
      rw [Machine.transaction_begin]
      split
      · next hnew => exact iff_of_true rfl (Or.inl ⟨rfl, hnew.symm⟩)
      · next hold =>
          rw [or_iff_right fun h => hold h.2.symm]
          exact (and_iff_left id).symm
  | ask stamp caller asked request =>
      rw [or_iff_right fun h => by cases h.1]
      refine Iff.trans ?_ (and_iff_left id).symm
      rw [take]
      split
      · exact Iff.rfl
      · split
        · next hask => rw [Machine.ended_ask hask]
        · next hask =>
            obtain ⟨-, -, -, rfl⟩ := Machine.ask_queued hask
            exact Iff.rfl
  | resume stamp caller =>
      rw [or_iff_right fun h => by cases h.1]
      refine Iff.trans ?_ (and_iff_left id).symm
      rw [take]
      split
      · exact Iff.rfl
      · split
        · simp only [Machine.resume, Machine.ended_perform, Machine.ended_hold]
        · exact Iff.rfl
  | reorder key queue =>
      rw [or_iff_right fun h => by cases h.1]
      refine Iff.trans ?_ (and_iff_left id).symm
      show ((s.machine.reorder key queue).transaction handle).ended = false ↔ _
      rw [Machine.transaction_reorder]
  | commit ended =>
      rw [or_iff_right fun h => by cases h.1]
      exact Machine.ended_commit ended handle
  | rollback ended =>
      rw [or_iff_right fun h => by cases h.1]
      exact Machine.ended_rollback ended handle

/-- What the machine keeps of a transaction says whether it is still open. -/
theorem ended_run (moves : List Move) (handle : Nat) :
    ((run {} moves).machine.transaction handle).ended = false ↔ StillOpen moves handle := by
  induction moves using List.reverseRecOn with
  | nil =>
      refine iff_of_false (fun h => nomatch h) ?_
      rintro ⟨before, after, hmoves, -⟩
      exact List.append_ne_nil_of_right_ne_nil before (List.cons_ne_nil _ _) hmoves.symm
  | append_singleton past move ih =>
      rw [run_append, stillOpen_append, ← ih, ← length_run past]
      exact ended_take _ move handle

end Traffic

/-! ## What a transaction reads -/

end Bookable.Store

/-- A request that only reads. -/
def Bookable.Request.Reads : Request → Prop
  | .insertRule _ | .updateRule _ | .insertBooking _ | .cancelBooking _ => False
  | _ => True

namespace Bookable.Store

/-- What a transaction reads, a new one reads from records that are as the first one sees them. -/
theorem Transaction.reply_of_reads {request : Request} (h : request.Reads) (t : Transaction)
    (r : Records) (stamp : Stamp) :
    (({} : Transaction).perform (t.view r) stamp request).1 = (t.perform r stamp request).1 := by
  have hview : ({} : Transaction).view (t.view r) = t.view r := view_blank [] (t.view r)
  cases request with
  | insertRule rule => exact h.elim
  | updateRule rule => exact h.elim
  | insertBooking asked => exact h.elim
  | cancelBooking id => exact h.elim
  | _ => simp only [perform, hview]

/-- A transaction that has just been begun reads the records. -/
theorem Machine.perform_begin (m : Machine) (stamp : Stamp) (request : Request) :
    (m.begin.2.perform stamp m.begin.1 request).1 =
      (({} : Transaction).perform m.records stamp request).1 := by
  have hnew : m.begin.2.transaction m.begin.1 = {} :=
    (m.transaction_begin _).trans (if_pos rfl)
  rw [perform_reply, hnew]
  rfl

/-! ## The main theorem -/

/-- A commit in a run that ends an open transaction and succeeds. -/
def Publishes (past : List Move) (handle : Nat) : Prop :=
  StillOpen past handle ∧ ((Traffic.run {} past).machine.commit handle).1 = .ok ()

theorem publishes_iff {past : List Move} {handle : Nat} :
    (Traffic.run {} past).machine.publishes handle = true ↔ Publishes past handle := by
  rw [Publishes, ← Traffic.ended_run, Machine.publishes_iff]
  refine and_congr_right fun hlive => ?_
  rw [Machine.commit_outcome hlive]
  split
  · next hconflict => exact iff_of_false (fun h => nomatch h.symm.trans hconflict) nofun
  · next hconflict => exact iff_of_true (Bool.not_eq_true _ ▸ hconflict) rfl

/-- The records change only when a transaction that is still open commits with success. If
identifiers are drawn once, they become what the transaction sees, so that what it would have
read right before the commit is what anyone reads right after it. As long as no commit of a
transaction has published, its writes make no difference to anyone else: the records, the requests
that wait, the replies to others and the outcomes of their commits are those of the run in which it
loses its writes after every move. -/
theorem only_commits_publish (past : List Move) (move : Move) :
    ((Traffic.run {} (past ++ [move])).machine.records ≠ (Traffic.run {} past).machine.records →
        ∃ handle, move = .commit handle ∧ Publishes past handle) ∧
      ((drawn past).Nodup → ∀ handle, move = .commit handle → Publishes past handle →
        let m := (Traffic.run {} past).machine
        let m' := (Traffic.run {} (past ++ [move])).machine
        m'.records = (m.transaction handle).view m.records ∧
          ∀ stamp request, request.Reads →
            (m'.begin.2.perform stamp m'.begin.1 request).1 = (m.perform stamp handle request).1) ∧
      ∀ handle, (∀ before, before ++ [.commit handle] <+: past → ¬ Publishes before handle) →
        let s := Traffic.run {} past
        let veiled := Traffic.runVeiled handle {} past
        veiled.machine.records = s.machine.records ∧ veiled.waiting = s.waiting ∧
          ∀ other, other ≠ handle →
            (veiled.machine.commit other).1 = (s.machine.commit other).1 ∧
              ∀ stamp request, (veiled.machine.perform stamp other request).1 =
                (s.machine.perform stamp other request).1 := by
  rw [Traffic.run_append]
  refine ⟨fun hchanged => ?_, fun hdrawn handle hmove hpublishes => ?_,
    fun handle hunpublished => ?_⟩
  · obtain hsame | ⟨handle, hmove, hpublishes, -⟩ := (Traffic.run {} past).records_take move
    · exact absurd hsame hchanged
    · exact ⟨handle, hmove, publishes_iff.mp hpublishes⟩
  · subst hmove
    have hlive := (Traffic.ended_run past handle).mpr hpublishes.1
    have hrecords : ((Traffic.run {} past).run [.commit handle]).machine.records =
        ((Traffic.run {} past).machine.transaction handle).view
          (Traffic.run {} past).machine.records := by
      rw [← (Traffic.accounted_run hdrawn).publish_eq_view hlive]
      exact (Machine.records_commit _ _).trans (if_pos (publishes_iff.mpr hpublishes))
    refine ⟨hrecords, fun stamp request hreads => ?_⟩
    refine (Machine.perform_begin _ stamp request).trans ?_
    rw [hrecords, Machine.perform_reply]
    exact Transaction.reply_of_reads hreads _ _ stamp
  · have hveiled := Traffic.runVeiled_eq fun before hbefore =>
      Bool.eq_false_iff.mpr fun h => hunpublished before hbefore (publishes_iff.mp h)
    rw [hveiled]
    refine ⟨rfl, rfl, fun other hne => ⟨Machine.outcome_veil_of_ne _ hne, fun stamp request => ?_⟩⟩
    exact Machine.perform_veil_of_ne _ hne stamp request

/-- Two transactions, the first of which books half an hour. -/
def halfHourAsked : List Move :=
  [.begin, .begin, .ask ⟨halfHour.start, "id-0001"⟩ 0 0 (.insertBooking halfHour)]

/-- The commit of the first transaction publishes its booking. The second one, which sees it as
soon as that is done, has not seen it before. -/
theorem half_hour_published :
    let m := (Traffic.run {} halfHourAsked).machine
    let m' := (Traffic.run {} (halfHourAsked ++ [.commit 0])).machine
    let look (m : Machine) := (m.perform ⟨halfHour.start, "id-0002"⟩ 1
      (.confirmedAt "user-1" halfHour.start false)).1
    (m'.records = (m.transaction 0).view m.records ∧ m'.records ≠ m.records) ∧
      look m = none ∧ look m' = some "id-0001" := by
  obtain ⟨-, hpublished, hunseen⟩ := only_commits_publish halfHourAsked (.commit 0)
  have hpublishes : Publishes halfHourAsked 0 := publishes_iff.mp (by decide +kernel)
  have hrecords := (hpublished (by decide +kernel) 0 rfl hpublishes).1
  refine ⟨⟨hrecords, fun hsame => ?_⟩, ?_, by decide +kernel⟩
  · exact absurd (congrArg (·.bookings.length) hsame) (by decide +kernel)
  · have hbefore : ∀ before, before ++ [Move.commit 0] <+: halfHourAsked →
        ¬ Publishes before 0 := by
      intro before hprefix
      have hmem := hprefix.subset (List.mem_append_right before (List.mem_singleton_self _))
      simp [halfHourAsked] at hmem
    refine (((hunseen 0 hbefore).2.2 1 (by decide)).2 _ _).symm.trans ?_
    decide +kernel

end Bookable.Store
