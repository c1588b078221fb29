import Bookable.Proofs.Store.Custody
import Bookable.Proofs.Store.Publication
import Bookable.Proofs.Store.Registry
import Mathlib.Data.List.Range

/-!
# The registry counts its users exactly

In every run in which nobody calls on a transaction that has ended, the registry and the
transactions agree: the queue of a key consists of one ticket for the transaction that
holds it and of one for each request that waits for it (`Custody`). Each kind of move
makes one of the changes that keep this agreement, so it holds all the time, and the
rest is read off it: which keys have a lock, how many users a lock has, and that nothing
is left when all transactions have ended.

That the agreement needs the condition is plain: a call that comes to hold a key on
behalf of a transaction that has ended keeps it forever.

Which lock it is that a key has can be told by its number. A move leaves the locks that
there are, drops some, or makes one with a number that none has had. So as long as
somebody waits for a key, its lock stays the same.
-/

namespace Bookable.Store

/-! ## What a registry says -/

/-- Those of the first transactions that hold a key. -/
def holders (held : Nat → List Key) (n : Nat) (key : Key) : List Nat :=
  (List.range n).filter (key ∈ held ·)

/-- The registry has a lock for every key that is held or waited for, and for no other one. The
number of its users is right, and one transaction holds it at most. -/
structure Registry.Counts (g : Registry) (isOpen : Nat → Prop) (holders : Key → List Nat)
    (waiting : List Waiting) : Prop where
  listed : ∀ key, (g.lock? key).isSome = true ↔ ∃ handle, isOpen handle ∧
    (handle ∈ holders key ∨ ∃ w ∈ waiting, w.key = key ∧ w.ticket.handle = handle)
  counted : ∀ {key l}, g.lock? key = some l →
    l.users = (holders key).length + (tickets waiting key).length
  exclusive : ∀ key, (holders key).length ≤ 1

/-- A registry whose queues fit what transactions hold and who waits counts them. -/
theorem Custody.counts {g : Registry} {held : Nat → List Key} {ended : Nat → Bool}
    {waiting : List Waiting} (h : Custody g.queue held ended waiting) (hg : g.Proper) {n : Nat}
    (hn : ∀ handle, n ≤ handle → held handle = []) :
    g.Counts (ended · = false) (holders held n) waiting := by
  have hmem : ∀ {handle key}, handle ∈ holders held n key ↔ key ∈ held handle := by
    intro handle key
    rw [holders, List.mem_filter, List.mem_range, decide_eq_true_eq]
    refine ⟨And.right, fun hkey => ⟨Nat.lt_of_not_le fun hle => ?_, hkey⟩⟩
    rw [hn handle hle] at hkey
    cases hkey
  have hone : ∀ {handle key}, key ∈ held handle → (holders held n key).length = 1 := by
    intro handle key hkey
    have hnodup : (holders held n key).Nodup := List.nodup_range.filter _
    refine ((List.perm_ext_iff_of_nodup hnodup (List.nodup_singleton handle)).mpr
      fun other => ?_).length_eq
    rw [hmem, List.mem_singleton]
    exact ⟨fun hother => h.exclusive hother hkey, fun heq => heq ▸ hkey⟩
  have hnone : ∀ {key}, (∀ handle, key ∉ held handle) → (holders held n key).length = 0 := by
    intro key hfree
    rw [List.length_eq_zero_iff, List.eq_nil_iff_forall_not_mem]
    exact fun handle hkey => hfree handle (hmem.mp hkey)
  constructor
  case listed =>
    intro key
    simp only [hmem]
    rw [← h.queue_ne_nil_iff, ne_eq, ← Registry.lock?_eq_none_iff hg, Option.isSome_iff_ne_none]
  case counted =>
    intro key l hl
    have hqueue : g.queue key = l.queue := by rw [Registry.queue, hl]
    rw [Lock.users, ← hqueue]
    by_cases hheld : ∃ handle, key ∈ held handle
    · obtain ⟨handle, hkey⟩ := hheld
      obtain ⟨-, caller, rest, hfront, hrest⟩ := h.taken hkey
      rw [hfront, List.length_cons, hrest.length_eq, hone hkey, Nat.add_comm]
    · rw [not_exists] at hheld
      rw [(h.free hheld).length_eq, hnone hheld, Nat.zero_add]
  case exclusive =>
    intro key
    by_cases hheld : ∃ handle, key ∈ held handle
    · obtain ⟨handle, hkey⟩ := hheld
      exact Nat.le_of_eq (hone hkey)
    · rw [not_exists] at hheld
      rw [hnone hheld]
      exact Nat.zero_le 1

/-! ## Which lock a key has -/

namespace Registry

/-- Every lock of a registry was there before, or has been made for a key that had none. -/
def Succeeds (g g' : Registry) : Prop :=
  g.made ≤ g'.made ∧ ∀ l' ∈ g'.locks,
    (∃ l ∈ g.locks, l.key = l'.key ∧ l.serial = l'.serial) ∨
      g.lock? l'.key = none ∧ l'.serial = g.made ∧ g.made < g'.made

theorem Succeeds.refl (g : Registry) : g.Succeeds g :=
  ⟨Nat.le_refl _, fun l' hl' => Or.inl ⟨l', hl', rfl, rfl⟩⟩

/-- Locks with other queues are the same locks. -/
theorem succeeds_map (g : Registry) {f : Lock → Lock}
    (hf : ∀ l, (f l).key = l.key ∧ (f l).serial = l.serial) :
    g.Succeeds { g with locks := g.locks.map f } := by
  refine ⟨Nat.le_refl _, fun l' hl' => Or.inl ?_⟩
  obtain ⟨l, hl, rfl⟩ := List.mem_map.mp hl'
  exact ⟨l, hl, (hf l).1.symm, (hf l).2.symm⟩

theorem succeeds_enter (g : Registry) (key : Key) (ticket : Ticket) :
    g.Succeeds (g.enter key ticket) := by
  rw [enter]
  cases hlock : g.lock? key with
  | some l =>
      refine g.succeeds_map fun l => ?_
      split <;> exact ⟨rfl, rfl⟩
  | none =>
      refine ⟨Nat.le_succ _, fun l' hl' => ?_⟩
      rcases List.mem_append.mp hl' with hl' | hl'
      · exact Or.inl ⟨l', hl', rfl, rfl⟩
      · rw [List.mem_singleton.mp hl']
        exact Or.inr ⟨hlock, rfl, Nat.lt_succ_self _⟩

theorem serial_afterLeave {key : Key} {l l' : Lock} (h : afterLeave key l = some l') :
    l'.serial = l.serial := by
  rw [afterLeave] at h
  split at h
  · split at h
    · cases h
    · cases h
      rfl
  · cases h
    rfl

theorem succeeds_leave_all (g : Registry) (keys : List Key) :
    g.Succeeds (keys.foldl leave g) := by
  suffices h : (keys.foldl leave g).made = g.made ∧ ∀ l' ∈ (keys.foldl leave g).locks,
      ∃ l ∈ g.locks, l.key = l'.key ∧ l.serial = l'.serial from
    ⟨Nat.le_of_eq h.1.symm, fun l' hl' => Or.inl (h.2 l' hl')⟩
  induction keys generalizing g with
  | nil => exact ⟨rfl, fun l' hl' => ⟨l', hl', rfl, rfl⟩⟩
  | cons key keys ih =>
      obtain ⟨hmade, hlocks⟩ := ih (g.leave key)
      refine ⟨hmade, fun l' hl' => ?_⟩
      obtain ⟨l, hl, hkey, hserial⟩ := hlocks l' hl'
      obtain ⟨old, hold, hleft⟩ := List.mem_filterMap.mp hl
      refine ⟨old, hold, ?_, ?_⟩
      · rw [← hkey, (afterLeave_eq_some hleft).1]
      · rw [← hserial, serial_afterLeave hleft]

/-- A key that was in use has the lock that it had. -/
theorem Succeeds.serial_eq {g g' : Registry} (h : g.Succeeds g') (hg : g.Proper) {key : Key}
    {l l' : Lock} (hl : g.lock? key = some l) (hl' : g'.lock? key = some l') :
    l'.serial = l.serial := by
  obtain ⟨hmem', hkey'⟩ := mem_of_lock? hl'
  rcases h.2 l' hmem' with ⟨old, hold, hkey, hserial⟩ | ⟨hnone, -⟩
  · have hsame := lock?_of_mem hg hold
    rw [hkey, hkey', hl] at hsame
    cases hsame
    exact hserial.symm
  · rw [hkey', hl] at hnone
    cases hnone

/-- The numbers of locks are below the number of locks made. -/
theorem Succeeds.serial_lt {g g' : Registry} (h : g.Succeeds g')
    (hg : ∀ l ∈ g.locks, l.serial < g.made) : ∀ l' ∈ g'.locks, l'.serial < g'.made := by
  intro l' hl'
  rcases h.2 l' hl' with ⟨l, hl, -, hserial⟩ | ⟨-, hserial, hlt⟩
  · rw [← hserial]
    exact Nat.lt_of_lt_of_le (hg l hl) h.1
  · rw [hserial]
    exact hlt

end Registry

theorem Machine.succeeds_finish (m : Machine) (handle : Nat) (t : Transaction) :
    m.registry.Succeeds (m.finish handle t).2.registry := by
  rw [registry_finish]
  exact m.registry.succeeds_leave_all _

theorem Machine.succeeds_ask {m m' : Machine} {stamp : Stamp} {caller handle : Nat}
    {request : Request} {reply : request.Reply}
    (hask : m.ask stamp caller handle request = .answered reply m') :
    m.registry.Succeeds m'.registry := by
  obtain ⟨-, -, rfl⟩ | ⟨key, -, ⟨-, -, rfl⟩ | ⟨-, -, -, rfl⟩⟩ := ask_answered hask
  · exact .refl _
  · exact .refl _
  · exact m.registry.succeeds_enter key _

theorem Traffic.succeeds_take (s : Traffic) (move : Move) :
    s.machine.registry.Succeeds (s.take move).machine.registry := by
  cases move with
  | begin => exact .refl _
  | ask stamp caller handle request =>
      rw [take]
      split
      · exact .refl _
      · split
        · next hask => exact Machine.succeeds_ask hask
        · next hask =>
            obtain ⟨-, -, -, rfl⟩ := Machine.ask_queued hask
            exact s.machine.registry.succeeds_enter _ _
  | resume stamp caller =>
      rw [take]
      split
      · exact .refl _
      · split <;> exact .refl _
  | reorder key queue =>
      show s.machine.registry.Succeeds (s.machine.reorder key queue).registry
      rw [Machine.reorder]
      split
      · exact .refl _
      · split
        · refine s.machine.registry.succeeds_map fun l => ?_
          split <;> exact ⟨rfl, rfl⟩
        · exact .refl _
  | commit handle =>
      show s.machine.registry.Succeeds (s.machine.commit handle).2.2.registry
      rw [Machine.commit_machine]
      split
      · exact .refl _
      · split
        · exact s.machine.succeeds_finish _ _
        · exact Machine.succeeds_finish { s.machine with
            records := (s.machine.transaction handle).publish s.machine.records } _ _
  | rollback handle =>
      show s.machine.registry.Succeeds (s.machine.rollback handle).2.registry
      rw [Machine.rollback_machine]
      split
      · exact .refl _
      · exact s.machine.succeeds_finish _ _

/-! ## What transactions hold -/

namespace Machine

/-- The keys that a transaction holds. -/
def heldBy (m : Machine) (handle : Nat) : List Key := (m.transaction handle).held

def hasEnded (m : Machine) (handle : Nat) : Bool := (m.transaction handle).ended

/-- The transactions that hold a key. -/
def holders (m : Machine) : Key → List Nat := Store.holders m.heldBy m.transactions.length

variable {m : Machine} {handle : Nat}

theorem heldBy_begin (m : Machine) : m.begin.2.heldBy = m.heldBy := by
  funext handle
  unfold heldBy
  rw [transaction_begin]
  split
  · next heq =>
      rw [heq, transaction, List.getElem?_eq_none (Nat.le_refl _)]
      rfl
  · rfl

theorem heldBy_reorder (m : Machine) (key : Key) (queue : List Ticket) :
    (m.reorder key queue).heldBy = m.heldBy :=
  funext fun handle => congrArg Transaction.held (transaction_reorder m key queue handle)

theorem heldBy_perform (stamp : Stamp) (request : Request) :
    (m.perform stamp handle request).2.heldBy = m.heldBy := by
  funext other
  unfold heldBy
  rw [perform_machine, transaction_setTransaction]
  split
  · next h => rw [Transaction.perform_held, h.1]
  · rfl

theorem hasEnded_perform (stamp : Stamp) (request : Request) :
    (m.perform stamp handle request).2.hasEnded = m.hasEnded :=
  funext (ended_perform stamp handle request)

theorem heldBy_hold (key : Key) (hlt : handle < m.transactions.length) :
    (m.hold handle key).heldBy =
      Function.update m.heldBy handle (m.heldBy handle ++ [key]) := by
  funext other
  rcases eq_or_ne other handle with rfl | hne
  · rw [Function.update_self, heldBy, transaction_hold key hlt]
    rfl
  · rw [Function.update_of_ne hne]
    exact congrArg Transaction.held (transaction_setTransaction_of_ne hne.symm _)

theorem hasEnded_hold (key : Key) : (m.hold handle key).hasEnded = m.hasEnded :=
  funext (ended_hold handle key)

theorem heldBy_finish (t : Transaction) (hlt : handle < m.transactions.length) :
    (m.finish handle t).2.heldBy = Function.update m.heldBy handle [] := by
  funext other
  rcases eq_or_ne other handle with rfl | hne
  · rw [Function.update_self, heldBy, transaction_finish, transaction_setTransaction_self hlt]
    rfl
  · rw [Function.update_of_ne hne]
    exact congrArg Transaction.held (transaction_finish_of_ne t hne)

theorem hasEnded_finish (t : Transaction) (hlt : handle < m.transactions.length) :
    (m.finish handle t).2.hasEnded = Function.update m.hasEnded handle true := by
  funext other
  rcases eq_or_ne other handle with rfl | hne
  · rw [Function.update_self, hasEnded, transaction_finish, transaction_setTransaction_self hlt]
    rfl
  · rw [Function.update_of_ne hne]
    exact congrArg Transaction.ended (transaction_finish_of_ne t hne)

end Machine

/-! ## Runs that keep to the rule -/

namespace Traffic

/-- Whether a move is no call on a transaction that has ended, and does not end one on which a call
is still under way, which would go on after the end. -/
def allows (s : Traffic) : Move → Bool
  | .ask _ _ handle _ => s.machine.transactions[handle]?.all fun t => !t.ended
  | .commit handle | .rollback handle => s.waiting.all (·.ticket.handle != handle)
  | _ => true

def allowsAll (s : Traffic) : List Move → Bool
  | [] => true
  | move :: moves => s.allows move && (s.take move).allowsAll moves

/-- The registry is in good order, and its queues fit what transactions hold and who waits. -/
structure Exact (s : Traffic) : Prop where
  proper : s.machine.registry.Proper
  custody : Custody s.machine.registry.queue s.machine.heldBy s.machine.hasEnded s.waiting

variable {s : Traffic}

theorem exact_empty : Exact {} :=
  ⟨(Registry.idle_of_locks rfl).1, Custody.nobody _⟩

theorem Exact.begin (h : s.Exact) : (s.take .begin).Exact := by
  refine ⟨h.proper, ?_⟩
  show Custody s.machine.registry.queue s.machine.begin.2.heldBy _ s.waiting
  rw [Machine.heldBy_begin]
  refine h.custody.begin fun handle hlive => ?_
  show (s.machine.begin.2.transaction handle).ended = false
  rw [Machine.transaction_begin]
  split
  · rfl
  · exact hlive

/-- A request that is answered takes at most one key, one that nobody uses. -/
theorem Exact.answered (h : s.Exact) {m : Machine} {stamp : Stamp} {caller handle : Nat}
    {request : Request} {reply : request.Reply}
    (hlive : (s.machine.transaction handle).ended = false)
    (hask : s.machine.ask stamp caller handle request = .answered reply m) :
    Exact { s with machine := m } := by
  obtain ⟨-, -, rfl⟩ | ⟨key, -, ⟨-, -, rfl⟩ | ⟨-, hfree, -, rfl⟩⟩ := Machine.ask_answered hask
  · refine ⟨h.proper, ?_⟩
    rw [Machine.heldBy_perform, Machine.hasEnded_perform]
    exact h.custody
  · refine ⟨h.proper, ?_⟩
    rw [Machine.heldBy_perform, Machine.hasEnded_perform]
    exact h.custody
  · refine ⟨(Registry.enter_spec h.proper key _).1, ?_⟩
    have hempty := (Registry.lock?_eq_none_iff h.proper key).mp hfree
    have hqueue : (s.machine.registry.enter key ⟨caller, handle⟩).queue =
        requeued s.machine.registry.queue key [⟨caller, handle⟩] := by
      refine (funext (Registry.enter_spec h.proper key _).2).trans ?_
      rw [hempty]
      rfl
    have hheld : (Machine.hold { s.machine with
        registry := s.machine.registry.enter key ⟨caller, handle⟩ } handle key).heldBy =
        Function.update s.machine.heldBy handle (s.machine.heldBy handle ++ [key]) :=
      Machine.heldBy_hold key (Machine.lt_length_of_live hlive)
    have hended : (Machine.hold { s.machine with
        registry := s.machine.registry.enter key ⟨caller, handle⟩ } handle key).hasEnded =
        s.machine.hasEnded := Machine.hasEnded_hold key
    rw [Machine.heldBy_perform, Machine.hasEnded_perform, hheld, hended]
    show Custody (s.machine.registry.enter key ⟨caller, handle⟩).queue _ _ _
    rw [hqueue]
    exact h.custody.seize caller hlive hempty

theorem Exact.ask (h : s.Exact) {stamp : Stamp} {caller handle : Nat} {request : Request}
    (hallows : s.allows (.ask stamp caller handle request) = true) :
    (s.take (.ask stamp caller handle request)).Exact := by
  rw [take]
  split
  · exact h
  · next hcan =>
      rw [not_or, Bool.not_eq_true, Option.isSome_eq_false_iff, Option.isNone_iff_eq_none,
        Nat.not_le] at hcan
      obtain ⟨hidle, hlt⟩ := hcan
      have hlive : (s.machine.transaction handle).ended = false := by
        rw [allows, List.getElem?_eq_getElem hlt, Option.all_some, Bool.not_eq_true'] at hallows
        rw [Machine.transaction, List.getElem?_eq_getElem hlt]
        exact hallows
      split
      · next hask => exact h.answered hlive hask
      · next key m hask =>
          obtain ⟨-, hheld, -, rfl⟩ := Machine.ask_queued hask
          refine ⟨(Registry.enter_spec h.proper key _).1, ?_⟩
          have hqueue : (s.machine.registry.enter key ⟨caller, handle⟩).queue =
              requeued s.machine.registry.queue key
                (s.machine.registry.queue key ++ [⟨caller, handle⟩]) :=
            funext (Registry.enter_spec h.proper key _).2
          show Custody (s.machine.registry.enter key ⟨caller, handle⟩).queue _ _ _
          rw [hqueue]
          refine h.custody.await (w := ⟨⟨caller, handle⟩, key, request⟩) hlive hheld ?_
          intro other hother heq
          exact List.find?_eq_none.mp hidle other hother (beq_iff_eq.mpr heq)

theorem Exact.resume (h : s.Exact) (stamp : Stamp) (caller : Nat) :
    (s.take (.resume stamp caller)).Exact := by
  rw [take]
  split
  · exact h
  · next w hw =>
      split
      · next hfront =>
          have hmem : w ∈ s.waiting := List.mem_of_find?_eq_some hw
          have hcaller : w.ticket.caller = caller := eq_of_beq (List.find?_some hw :)
          have hlt := Machine.lt_length_of_live (h.custody.live w hmem)
          refine ⟨h.proper, ?_⟩
          rw [Machine.resume, Machine.heldBy_perform, Machine.hasEnded_perform,
            Machine.heldBy_hold w.key hlt, Machine.hasEnded_hold, ← hcaller]
          exact h.custody.grant hmem ((Registry.isHeldBy_iff _ _ _).mp hfront)
      · exact h

theorem Exact.reorder (h : s.Exact) (key : Key) (queue : List Ticket) :
    (s.take (.reorder key queue)).Exact := by
  have hheld := s.machine.heldBy_reorder key queue
  have hended : (s.machine.reorder key queue).hasEnded = s.machine.hasEnded :=
    funext fun handle => congrArg _ (Machine.transaction_reorder _ _ _ _)
  rcases Machine.reorder_spec h.proper key queue with
    ⟨-, heq⟩ | ⟨⟨hperm, hfirst⟩, hproper, hqueue⟩
  · constructor
    · show (s.machine.reorder key queue).registry.Proper
      rw [heq]
      exact h.proper
    · show Custody (s.machine.reorder key queue).registry.queue
        (s.machine.reorder key queue).heldBy (s.machine.reorder key queue).hasEnded s.waiting
      rw [heq, hheld, hended]
      exact h.custody
  · refine ⟨hproper, ?_⟩
    show Custody (s.machine.reorder key queue).registry.queue
      (s.machine.reorder key queue).heldBy (s.machine.reorder key queue).hasEnded s.waiting
    have heq : (s.machine.reorder key queue).registry.queue =
        requeued s.machine.registry.queue key queue := funext hqueue
    rw [heq, hheld, hended]
    refine h.custody.shuffle hperm fun {handle} hkey => hfirst ?_
    -- The first ticket is that of the transaction that holds the key.
    obtain ⟨-, caller, rest, hholder, -⟩ := h.custody.taken hkey
    exact Machine.isTaken_iff.mpr ⟨⟨caller, handle⟩, congrArg List.head? hholder, hkey⟩

theorem Exact.finish (h : s.Exact) {handle : Nat} {t : Transaction}
    (hlive : (s.machine.transaction handle).ended = false)
    (ht : t.held = s.machine.heldBy handle)
    (hnobody : ∀ w ∈ s.waiting, w.ticket.handle ≠ handle) :
    Exact { s with machine := (s.machine.finish handle t).2 } := by
  have hlt := Machine.lt_length_of_live hlive
  have hall : s.machine.heldBy handle = [] ++ t.held := ht.symm
  obtain ⟨hproper, hcustody⟩ := h.custody.release_all h.proper hall
  constructor
  · show (s.machine.finish handle t).2.registry.Proper
    rw [Machine.registry_finish]
    exact hproper
  · show Custody (s.machine.finish handle t).2.registry.queue _ _ _
    rw [Machine.registry_finish, Machine.heldBy_finish t hlt, Machine.hasEnded_finish t hlt]
    exact hcustody.retire (Function.update_self _ _ _) hnobody

theorem Exact.commit (h : s.Exact) {handle : Nat}
    (hallows : s.allows (.commit handle) = true) : (s.take (.commit handle)).Exact := by
  have hnobody : ∀ w ∈ s.waiting, w.ticket.handle ≠ handle :=
    fun w hw => bne_iff_ne.mp (List.all_eq_true.mp hallows w hw)
  rw [take, Machine.commit_machine]
  split
  · exact h
  · next hlive =>
      rw [Bool.not_eq_true] at hlive
      split
      · exact h.finish (t := (s.machine.transaction handle).cleared) hlive rfl hnobody
      · have hpublished : Exact { s with machine := { s.machine with
            records := (s.machine.transaction handle).publish s.machine.records } } :=
          ⟨h.proper, h.custody⟩
        exact hpublished.finish hlive rfl hnobody

theorem Exact.rollback (h : s.Exact) {handle : Nat}
    (hallows : s.allows (.rollback handle) = true) : (s.take (.rollback handle)).Exact := by
  have hnobody : ∀ w ∈ s.waiting, w.ticket.handle ≠ handle :=
    fun w hw => bne_iff_ne.mp (List.all_eq_true.mp hallows w hw)
  rw [take, Machine.rollback_machine]
  split
  · exact h
  · next hlive =>
      rw [Bool.not_eq_true] at hlive
      exact h.finish (t := (s.machine.transaction handle).cleared) hlive rfl hnobody

theorem Exact.take (h : s.Exact) {move : Move} (hallows : s.allows move = true) :
    (s.take move).Exact := by
  cases move with
  | begin => exact h.begin
  | ask stamp caller handle request => exact h.ask hallows
  | resume stamp caller => exact h.resume stamp caller
  | reorder key queue => exact h.reorder key queue
  | commit handle => exact h.commit hallows
  | rollback handle => exact h.rollback hallows

theorem Exact.run (h : s.Exact) {moves : List Move} (hallows : s.allowsAll moves = true) :
    (s.run moves).Exact := by
  induction moves generalizing s with
  | nil => exact h
  | cons move moves ih =>
      rw [allowsAll, Bool.and_eq_true] at hallows
      exact ih (h.take hallows.1) hallows.2

/-- A request that has waited waits on, or its transaction has come to hold the key. -/
theorem Exact.waits_on (h : s.Exact) {w : Waiting} (hw : w ∈ s.waiting) (move : Move) :
    w ∈ (s.take move).waiting ∨ w.key ∈ (s.take move).machine.heldBy w.ticket.handle := by
  cases move with
  | ask stamp caller handle request =>
      rw [Traffic.take]
      split
      · exact Or.inl hw
      · split
        · exact Or.inl hw
        · exact Or.inl (List.mem_append_left _ hw)
  | resume stamp caller =>
      rw [Traffic.take]
      split
      · exact Or.inl hw
      · next other hother =>
          split
          · by_cases hcaller : w.ticket.caller = caller
            · have hmem : other ∈ s.waiting := List.mem_of_find?_eq_some hother
              have hsame : other.ticket.caller = caller := eq_of_beq (List.find?_some hother :)
              obtain rfl := List.inj_on_of_nodup_map h.custody.alone hmem hw
                (hsame.trans hcaller.symm)
              refine Or.inr ?_
              have hlt := Machine.lt_length_of_live (h.custody.live other hw)
              rw [Machine.resume, Machine.heldBy_perform, Machine.heldBy_hold other.key hlt,
                Function.update_self]
              exact List.mem_append_right _ (List.mem_singleton_self _)
            · exact Or.inl (List.mem_filter.mpr ⟨hw, bne_iff_ne.mpr hcaller⟩)
          · exact Or.inl hw
  | _ => exact Or.inl hw

/-- A key that somebody waits for has a lock, and keeps it. -/
theorem Exact.keeps_lock (h : s.Exact) {w : Waiting} (hw : w ∈ s.waiting) {move : Move}
    (hallows : s.allows move = true) :
    ∃ l l', s.machine.registry.lock? w.key = some l ∧
      (s.take move).machine.registry.lock? w.key = some l' ∧ l'.serial = l.serial := by
  have hafter := h.take hallows
  have hbefore : s.machine.registry.queue w.key ≠ [] :=
    List.ne_nil_of_mem (h.custody.mem_of_waiting hw)
  have hstill : (s.take move).machine.registry.queue w.key ≠ [] := by
    rcases h.waits_on hw move with hwaits | hheld
    · exact List.ne_nil_of_mem (hafter.custody.mem_of_waiting hwaits)
    · exact (hafter.custody.queue_ne_nil_iff w.key).mpr
        ⟨_, (hafter.custody.taken hheld).1, Or.inl hheld⟩
  rw [ne_eq, ← Registry.lock?_eq_none_iff h.proper, ← ne_eq, Option.ne_none_iff_exists'] at hbefore
  rw [ne_eq, ← Registry.lock?_eq_none_iff hafter.proper, ← ne_eq, Option.ne_none_iff_exists']
    at hstill
  obtain ⟨l, hl⟩ := hbefore
  obtain ⟨l', hl'⟩ := hstill
  exact ⟨l, l', hl, hl', (s.succeeds_take move).serial_eq h.proper hl hl'⟩

theorem made_le_run (s : Traffic) (moves : List Move) :
    s.machine.registry.made ≤ (s.run moves).machine.registry.made := by
  induction moves generalizing s with
  | nil => exact Nat.le_refl _
  | cons move moves ih => exact Nat.le_trans (s.succeeds_take move).1 (ih _)

theorem serial_lt_made (moves : List Move) :
    ∀ l ∈ (run {} moves).machine.registry.locks,
      l.serial < (run {} moves).machine.registry.made := by
  induction moves using List.reverseRecOn with
  | nil => exact fun l hl => absurd hl List.not_mem_nil
  | append_singleton past move ih =>
      rw [run_append]
      exact (succeeds_take _ move).serial_lt ih

/-- A key has the lock that it had, or one with a number that none has had before. -/
theorem lock_kept_or_new {moves : List Move} (h : Exact (run {} moves)) {move : Move} {key : Key}
    {l' : Lock} (hl' : ((run {} moves).take move).machine.registry.lock? key = some l') :
    (∃ l, (run {} moves).machine.registry.lock? key = some l ∧ l.serial = l'.serial) ∨
      (run {} moves).machine.registry.lock? key = none ∧ ∀ past, past <+: moves →
        ∀ l ∈ (run {} past).machine.registry.locks, l.serial < l'.serial := by
  obtain ⟨hmem', rfl⟩ := Registry.mem_of_lock? hl'
  rcases ((run {} moves).succeeds_take move).2 l' hmem' with
    ⟨l, hl, hkey, hserial⟩ | ⟨hnone, hserial, -⟩
  · refine Or.inl ⟨l, ?_, hserial⟩
    rw [← hkey]
    exact Registry.lock?_of_mem h.proper hl
  · refine Or.inr ⟨hnone, fun past hpast l hl => ?_⟩
    obtain ⟨rest, rfl⟩ := hpast
    rw [hserial, run_append]
    exact Nat.lt_of_lt_of_le (serial_lt_made past l hl) (made_le_run _ rest)

end Traffic

/-- A key that a transaction holds already is not locked again. -/
theorem Machine.ask_held {m : Machine} {stamp : Stamp} {caller handle : Nat} {request : Request}
    {key : Key} (hkey : keyOf? request = some key) (hheld : key ∈ m.heldBy handle) :
    ∃ reply m', m.ask stamp caller handle request = .answered reply m' ∧
      m'.registry = m.registry := by
  rw [ask, hkey]
  have hmem : key ∈ (m.transaction handle).held := hheld
  simp only [if_pos hmem]
  exact ⟨_, _, rfl, rfl⟩

/-- A transaction that was never begun holds nothing. -/
theorem Machine.heldBy_of_le (m : Machine) (handle : Nat) (h : m.transactions.length ≤ handle) :
    m.heldBy handle = [] := by
  rw [heldBy, transaction, List.getElem?_eq_none h]
  rfl

/-- **The registry is exact.** In every run in which nobody calls on a transaction that has ended,
and none is ended while a call on it waits, the registry counts exactly the holders of each key
and the requests that wait for it, also between the releases of an ending transaction. A key that
is held already is neither waited for nor counted again, a key that somebody waits for keeps its
lock, whatever happens, and nothing is left when all transactions have ended. -/
theorem registry_exact {moves : List Move} (h : Traffic.allowsAll {} moves = true) :
    let s := Traffic.run {} moves
    let m := s.machine
    m.registry.Counts (StillOpen moves) m.holders s.waiting ∧
    (∀ handle kept gone, m.heldBy handle = kept ++ gone →
      (m.release gone.reverse).2.registry.Counts (StillOpen moves)
        (holders (Function.update m.heldBy handle kept) m.transactions.length) s.waiting) ∧
    (∀ stamp caller handle request key, keyOf? request = some key → key ∈ m.heldBy handle →
      ∃ reply m', m.ask stamp caller handle request = .answered reply m' ∧
        m'.registry = m.registry) ∧
    (∀ move, s.allows move = true →
      (∀ w ∈ s.waiting, ∃ l l', m.registry.lock? w.key = some l ∧
        (s.take move).machine.registry.lock? w.key = some l' ∧ l'.serial = l.serial) ∧
      ∀ key l', (s.take move).machine.registry.lock? key = some l' →
        (∃ l, m.registry.lock? key = some l ∧ l.serial = l'.serial) ∨
          m.registry.lock? key = none ∧ ∀ past, past <+: moves →
            ∀ l ∈ (Traffic.run {} past).machine.registry.locks, l.serial < l'.serial) ∧
    ((∀ handle, ¬ StillOpen moves handle) → m.registry.locks = []) := by
  intro s m
  have hexact : s.Exact := Traffic.exact_empty.run h
  have hopen : (m.hasEnded · = false) = StillOpen moves :=
    funext fun handle => propext (Traffic.ended_run moves handle)
  have hcounts : m.registry.Counts (StillOpen moves) m.holders s.waiting := by
    rw [← hopen]
    exact hexact.custody.counts hexact.proper m.heldBy_of_le
  refine ⟨hcounts, fun handle kept gone hheld => ?_, fun stamp caller handle request key => ?_,
    fun move hallows => ⟨fun w hw => ?_, fun key l' => ?_⟩, fun hended => ?_⟩
  · obtain ⟨hproper, hcustody⟩ := hexact.custody.release_all hexact.proper hheld
    rw [Machine.release_snd, ← hopen]
    refine hcustody.counts hproper fun other hle => ?_
    rcases eq_or_ne other handle with rfl | hne
    · have hnothing := m.heldBy_of_le other hle
      rw [hheld, List.append_eq_nil_iff] at hnothing
      rw [Function.update_self, hnothing.1]
    · rw [Function.update_of_ne hne]
      exact m.heldBy_of_le other hle
  · exact Machine.ask_held
  · exact hexact.keeps_lock hw hallows
  · exact Traffic.lock_kept_or_new hexact
  · refine Registry.locks_eq_nil hexact.proper fun key => ?_
    rw [← Registry.lock?_eq_none_iff hexact.proper]
    by_contra hlock
    obtain ⟨handle, hlive, -⟩ :=
      (hcounts.listed key).mp (Option.isSome_iff_ne_none.mpr hlock)
    exact hended handle hlive

/-- Three transactions lock the start of the same booking, the first one twice and the last one
after it has locked another booking. -/
def scramble : List Move :=
  let start := Request.confirmedAt "user-1" halfHour.start true
  let stamp := Stamp.mk halfHour.start "id-0001"
  [.begin, .begin, .begin, .ask stamp 10 0 start, .ask stamp 10 0 start, .ask stamp 11 1 start,
    .ask stamp 12 2 (.cancelBooking "id-0001"), .ask stamp 12 2 start]

/-- The start has three users while the first transaction is open. When that one commits, the
lock stays for the two who wait, and when all have ended in turn, none is left. -/
theorem scramble_counted :
    let key := Key.start "user-1" halfHour.start.unixSecond
    let stamp := Stamp.mk halfHour.start "id-0001"
    let lockAfter (moves : List Move) := (Traffic.run {} moves).machine.registry.lock? key
    (∃ l l', lockAfter scramble = some l ∧ lockAfter (scramble ++ [.commit 0]) = some l' ∧
      l.users = 3 ∧ l'.users = 2 ∧ l'.serial = l.serial) ∧
    (Traffic.run {} (scramble ++ [.commit 0, .resume stamp 11, .rollback 1, .resume stamp 12,
      .commit 2])).machine.registry.locks = [] := by
  intro key stamp lockAfter
  constructor
  · have hbefore : Traffic.allowsAll {} scramble = true := by decide +kernel
    have hafter : Traffic.allowsAll {} (scramble ++ [.commit 0]) = true := by decide +kernel
    obtain ⟨hcounts, -, -, hkeeps, -⟩ := registry_exact hbefore
    obtain ⟨hcounts', -⟩ := registry_exact hafter
    have hwaits : (Traffic.run {} scramble).waiting[0]? = some
        ⟨⟨11, 1⟩, key, .confirmedAt "user-1" halfHour.start true⟩ := rfl
    obtain ⟨l, l', hl, hl', hserial⟩ :=
      (hkeeps (.commit 0) (by decide +kernel)).1 _ (List.mem_of_getElem? hwaits)
    refine ⟨l, l', hl, hl', ?_, ?_, hserial⟩
    · rw [hcounts.counted hl]
      decide +kernel
    · rw [hcounts'.counted hl']
      decide +kernel
  · have hall : Traffic.allowsAll {} (scramble ++ [.commit 0, .resume stamp 11, .rollback 1,
        .resume stamp 12, .commit 2]) = true := by decide +kernel
    obtain ⟨-, -, -, -, hnothing⟩ := registry_exact hall
    refine hnothing fun handle => ?_
    rw [← Traffic.ended_run]
    match handle with
    | 0 | 1 | 2 => decide +kernel
    | n + 3 => exact nofun

end Bookable.Store
