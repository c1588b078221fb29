import Bookable.Proofs.Store.Records
import Bookable.Store.Machine

/-!
# What the steps of a machine change

A machine has three parts, and each of its operations leaves most of them alone.
Asking and resuming write into one transaction and touch no record. Ending a
transaction drops its keys and marks it ended; only a commit that meets no conflict
changes the records, and it changes them by `Transaction.publish`. The lemmas here
say so once for every operation, so that nothing that follows has to open one.

`Upheld` is the form in which most invariants of writes are used: a property of the
buffers of a transaction that holds of an empty one, does not look at keys, and is
kept by answering a request.
-/

namespace Bookable.Store

/-! ## Answering a request -/

namespace Transaction

@[simp] theorem update_held (t : Transaction) (rule : Rule) : (t.update rule).held = t.held := by
  rw [update]
  split <;> rfl

@[simp] theorem update_ended (t : Transaction) (rule : Rule) :
    (t.update rule).ended = t.ended := by
  rw [update]
  split <;> rfl

@[simp] theorem update_newBookings (t : Transaction) (rule : Rule) :
    (t.update rule).newBookings = t.newBookings := by
  rw [update]
  split <;> rfl

/-- What a transaction can become by answering a request. -/
inductive Answers (t : Transaction) (r : Records) (stamp : Stamp) :
    Request → Transaction → Prop where
  | unchanged {request : Request} (inserts : request.inserts = false) : Answers t r stamp request t
  | insertRule (rule : Rule) : Answers t r stamp (.insertRule rule)
      { t with newRules := put Rule.id (newRule stamp rule) t.newRules }
  | updateRule {rule old : Rule} {id : String} (hid : rule.id = some id)
      (found : (t.view r).findRule rule.user id = some old) :
      Answers t r stamp (.updateRule rule) (t.update { rule with updatedAt := some stamp.now })
  | insertBooking (request : BookingRequest) : Answers t r stamp (.insertBooking request)
      { t with newBookings := put Booking.id (newBooking stamp request) t.newBookings }
  | cancelBooking {id : String} (confirmed : (t.view r).statusOf id = some .confirmed) :
      Answers t r stamp (.cancelBooking id) { t with cancelled := t.cancelled ++ [id] }

theorem perform_answers (t : Transaction) (r : Records) (stamp : Stamp) (request : Request) :
    t.Answers r stamp request (t.perform r stamp request).2 := by
  cases request with
  | insertRule rule => exact .insertRule rule
  | insertBooking asked => exact .insertBooking asked
  | updateRule rule =>
      rw [perform]
      split
      · exact .unchanged rfl
      · next id hid =>
          split
          · exact .unchanged rfl
          · next old hfound => exact .updateRule hid hfound
  | cancelBooking id =>
      rw [perform]
      split
      · next hconfirmed => exact .cancelBooking hconfirmed
      · exact .unchanged rfl
  | _ => exact .unchanged rfl

namespace Answers

variable {t t' : Transaction} {r : Records} {stamp : Stamp} {request : Request}

theorem held (h : t.Answers r stamp request t') : t'.held = t.held := by
  cases h with
  | updateRule hid hfound => exact update_held t _
  | _ => rfl

theorem ended (h : t.Answers r stamp request t') : t'.ended = t.ended := by
  cases h with
  | updateRule hid hfound => exact update_ended t _
  | _ => rfl

end Answers

@[simp] theorem perform_held (t : Transaction) (r : Records) (stamp : Stamp)
    (request : Request) : (t.perform r stamp request).2.held = t.held :=
  (t.perform_answers r stamp request).held

@[simp] theorem perform_ended (t : Transaction) (r : Records) (stamp : Stamp)
    (request : Request) : (t.perform r stamp request).2.ended = t.ended :=
  (t.perform_answers r stamp request).ended

/-- Only inserting a booking adds to the new bookings. -/
theorem perform_newBookings (t : Transaction) (r : Records) (stamp : Stamp)
    (request : Request) :
    (t.perform r stamp request).2.newBookings =
      match request with
      | .insertBooking asked => put Booking.id (newBooking stamp asked) t.newBookings
      | _ => t.newBookings := by
  have hanswers := t.perform_answers r stamp request
  generalize (t.perform r stamp request).2 = t' at hanswers ⊢
  cases hanswers with
  | updateRule hid hfound => exact update_newBookings t _
  | unchanged hinserts =>
      cases request with
      | insertBooking asked => cases hinserts
      | _ => rfl
  | _ => rfl

/-- A transaction that holds the key that a request needs. -/
def locked (t : Transaction) (request : Request) : Transaction :=
  match keyOf? request with
  | some key => if key ∈ t.held then t else { t with held := t.held ++ [key] }
  | none => t

/-- Locking a key adds to the keys that a transaction holds, and to nothing else. -/
theorem locked_eq (t : Transaction) (request : Request) :
    t.locked request = { t with held := (t.locked request).held } := by
  rw [locked]
  split
  · split <;> rfl
  · rfl

@[simp] theorem locked_ended (t : Transaction) (request : Request) :
    (t.locked request).ended = t.ended := by
  rw [locked_eq]

end Transaction

/-! ## The parts of a machine -/

namespace Machine

@[simp] theorem length_setTransaction (m : Machine) (handle : Nat) (t : Transaction) :
    (m.setTransaction handle t).transactions.length = m.transactions.length :=
  List.length_set

theorem transaction_setTransaction (m : Machine) (handle other : Nat) (t : Transaction) :
    (m.setTransaction handle t).transaction other =
      if handle = other ∧ handle < m.transactions.length then t else m.transaction other := by
  unfold setTransaction transaction
  simp only [List.getElem?_set]
  by_cases heq : handle = other
  · subst heq
    by_cases hlt : handle < m.transactions.length
    · simp [hlt]
    · simp [hlt]
  · simp [heq]

theorem transaction_setTransaction_self {m : Machine} {handle : Nat}
    (h : handle < m.transactions.length) (t : Transaction) :
    (m.setTransaction handle t).transaction handle = t := by
  rw [transaction_setTransaction, if_pos ⟨rfl, h⟩]

theorem transaction_setTransaction_of_ne {m : Machine} {handle other : Nat}
    (h : handle ≠ other) (t : Transaction) :
    (m.setTransaction handle t).transaction other = m.transaction other := by
  rw [transaction_setTransaction, if_neg fun hand => h hand.1]

theorem setTransaction_of_le {m : Machine} {handle : Nat} (h : m.transactions.length ≤ handle)
    (t : Transaction) : m.setTransaction handle t = m := by
  rw [setTransaction, List.set_eq_of_length_le h]

theorem transaction_begin (m : Machine) (handle : Nat) :
    m.begin.2.transaction handle =
      if handle = m.transactions.length then {} else m.transaction handle := by
  simp only [begin, transaction]
  split
  · next h => simp [h]
  · next h =>
      rcases Nat.lt_or_ge handle m.transactions.length with hlt | hge
      · rw [List.getElem?_append_left hlt]
      · rw [List.getElem?_eq_none hge, List.getElem?_eq_none (by simp; omega)]

/-- A number stands for a transaction that was opened, or for one that has ended without a trace. -/
theorem transaction_mem (m : Machine) (handle : Nat) :
    m.transaction handle ∈ m.transactions ∨ m.transaction handle = { ended := true } := by
  rw [transaction]
  cases h : m.transactions[handle]? with
  | none => exact Or.inr rfl
  | some t => exact Or.inl (List.mem_of_getElem? h)

theorem lt_length_of_live {m : Machine} {handle : Nat}
    (h : (m.transaction handle).ended = false) : handle < m.transactions.length := by
  rcases Nat.lt_or_ge handle m.transactions.length with hlt | hge
  · exact hlt
  · rw [transaction, List.getElem?_eq_none hge] at h
    cases h

/-! ## Ending a transaction -/

theorem release_snd (m : Machine) (keys : List Key) :
    (m.release keys).2 = { m with registry := keys.foldl Registry.leave m.registry } := by
  induction keys generalizing m with
  | nil => rfl
  | cons key keys ih => exact ih _

/-- A transaction that has ended, with no key left. -/
def closed (t : Transaction) : Transaction := { t with held := [], ended := true }

theorem finish_snd (m : Machine) (handle : Nat) (t : Transaction) :
    (m.finish handle t).2 =
      { m.setTransaction handle (closed t) with
        registry := t.held.reverse.foldl Registry.leave m.registry } :=
  release_snd _ _

@[simp] theorem records_finish (m : Machine) (handle : Nat) (t : Transaction) :
    (m.finish handle t).2.records = m.records := by
  rw [finish_snd]; rfl

@[simp] theorem registry_finish (m : Machine) (handle : Nat) (t : Transaction) :
    (m.finish handle t).2.registry = t.held.reverse.foldl Registry.leave m.registry := by
  rw [finish_snd]

theorem transaction_finish (m : Machine) (handle other : Nat) (t : Transaction) :
    (m.finish handle t).2.transaction other =
      (m.setTransaction handle (closed t)).transaction other := by
  rw [finish_snd]; rfl

theorem length_finish (m : Machine) (handle : Nat) (t : Transaction) :
    (m.finish handle t).2.transactions.length = m.transactions.length := by
  rw [finish_snd]
  exact length_setTransaction m handle _

theorem commit_machine (m : Machine) (handle : Nat) :
    (m.commit handle).2.2 =
      if (m.transaction handle).ended then m
      else if (m.transaction handle).conflicts m.records then
        (m.finish handle (m.transaction handle).cleared).2
      else
        ({ m with records := (m.transaction handle).publish m.records }.finish handle
          (m.transaction handle)).2 := by
  rw [commit]
  simp only []
  split
  · rfl
  · split <;> rfl

theorem length_commit (m : Machine) (handle : Nat) :
    (m.commit handle).2.2.transactions.length = m.transactions.length := by
  rw [commit_machine]
  split
  · rfl
  · split
    · exact length_finish _ _ _
    · exact length_finish _ _ _

theorem transaction_finish_of_ne {m : Machine} {handle other : Nat} (t : Transaction)
    (h : other ≠ handle) : (m.finish handle t).2.transaction other = m.transaction other := by
  rw [transaction_finish, transaction_setTransaction_of_ne h.symm]

theorem transaction_commit_of_ne {m : Machine} {handle other : Nat}
    (h : other ≠ handle) : (m.commit handle).2.2.transaction other = m.transaction other := by
  rw [commit_machine]
  split
  · rfl
  · split
    · exact transaction_finish_of_ne _ h
    · exact transaction_finish_of_ne _ h

/-- Whether a commit of a transaction publishes its writes: it has not ended before, and it meets
no conflict. -/
def publishes (m : Machine) (handle : Nat) : Bool :=
  !(m.transaction handle).ended && !(m.transaction handle).conflicts m.records

theorem publishes_iff {m : Machine} {handle : Nat} :
    m.publishes handle = true ↔ (m.transaction handle).ended = false ∧
      (m.transaction handle).conflicts m.records = false := by
  rw [publishes, Bool.and_eq_true, Bool.not_eq_true', Bool.not_eq_true']

theorem publishes_of_live {m : Machine} {handle : Nat}
    (h : (m.transaction handle).ended = false) :
    m.publishes handle = !(m.transaction handle).conflicts m.records := by
  rw [publishes, h, Bool.not_false, Bool.true_and]

/-- The outcome of a commit is that of the look for conflicts. -/
theorem commit_outcome {m : Machine} {handle : Nat} (h : (m.transaction handle).ended = false) :
    (m.commit handle).1 =
      if (m.transaction handle).conflicts m.records then .error .alreadyBooked else .ok () := by
  rw [commit]
  simp only [h, Bool.false_eq_true, if_false]
  split <;> rfl

theorem records_commit (m : Machine) (handle : Nat) :
    (m.commit handle).2.2.records =
      if m.publishes handle then (m.transaction handle).publish m.records else m.records := by
  rw [commit_machine, publishes]
  split
  · next hended => simp [hended]
  · next hended =>
      split
      · next hconflict => simp [hconflict]
      · next hconflict => simp [hended, hconflict]

theorem rollback_machine (m : Machine) (handle : Nat) :
    (m.rollback handle).2 =
      if (m.transaction handle).ended then m
      else (m.finish handle (m.transaction handle).cleared).2 := by
  unfold rollback
  simp only []
  split <;> rfl

@[simp] theorem records_rollback (m : Machine) (handle : Nat) :
    (m.rollback handle).2.records = m.records := by
  rw [rollback_machine]
  split
  · rfl
  · exact records_finish _ _ _

theorem length_rollback (m : Machine) (handle : Nat) :
    (m.rollback handle).2.transactions.length = m.transactions.length := by
  rw [rollback_machine]
  split
  · rfl
  · exact length_finish _ _ _

/-! ## Asking -/

/-- The machine after a request was answered, without its reply. -/
theorem perform_machine (m : Machine) (stamp : Stamp) (handle : Nat) (request : Request) :
    (m.perform stamp handle request).2 =
      m.setTransaction handle ((m.transaction handle).perform m.records stamp request).2 := rfl

theorem perform_reply (m : Machine) (stamp : Stamp) (handle : Nat) (request : Request) :
    (m.perform stamp handle request).1 =
      ((m.transaction handle).perform m.records stamp request).1 := rfl

/-- What becomes of a request: it needs no key, or its key is held already, or nobody uses its
key, or it has to wait. -/
theorem ask_eq (m : Machine) (stamp : Stamp) (caller handle : Nat) (request : Request) :
    m.ask stamp caller handle request =
      match keyOf? request with
      | none =>
          .answered (m.perform stamp handle request).1 (m.perform stamp handle request).2
      | some key =>
          if key ∈ (m.transaction handle).held then
            .answered (m.perform stamp handle request).1 (m.perform stamp handle request).2
          else
            let entered := { m with registry := m.registry.enter key ⟨caller, handle⟩ }
            match m.registry.lock? key with
            | none =>
                .answered ((entered.hold handle key).perform stamp handle request).1
                  ((entered.hold handle key).perform stamp handle request).2
            | some _ => .queued key entered := by
  unfold ask
  rfl

theorem ask_answered {m m' : Machine} {stamp : Stamp} {caller handle : Nat}
    {request : Request} {reply : request.Reply}
    (h : m.ask stamp caller handle request = .answered reply m') :
    (keyOf? request = none ∧ reply = (m.perform stamp handle request).1 ∧
        m' = (m.perform stamp handle request).2) ∨
      ∃ key, keyOf? request = some key ∧
        ((key ∈ (m.transaction handle).held ∧ reply = (m.perform stamp handle request).1 ∧
            m' = (m.perform stamp handle request).2) ∨
          (key ∉ (m.transaction handle).held ∧ m.registry.lock? key = none ∧
            let entered := { m with registry := m.registry.enter key ⟨caller, handle⟩ }
            reply = ((entered.hold handle key).perform stamp handle request).1 ∧
            m' = ((entered.hold handle key).perform stamp handle request).2)) := by
  rw [ask_eq] at h
  split at h
  · next hkey =>
      injection h with hr hm
      exact Or.inl ⟨hkey, hr.symm, hm.symm⟩
  · next key hkey =>
      refine Or.inr ⟨key, hkey, ?_⟩
      split at h
      · next hheld =>
          injection h with hr hm
          exact Or.inl ⟨hheld, hr.symm, hm.symm⟩
      · next hheld =>
          simp only [] at h
          split at h
          · next hlock =>
              injection h with hr hm
              exact Or.inr ⟨hheld, hlock, hr.symm, hm.symm⟩
          · cases h

theorem ask_queued {m m' : Machine} {stamp : Stamp} {caller handle : Nat}
    {request : Request} {key : Key} (h : m.ask stamp caller handle request = .queued key m') :
    keyOf? request = some key ∧ key ∉ (m.transaction handle).held ∧
      (∃ l, m.registry.lock? key = some l) ∧
      m' = { m with registry := m.registry.enter key ⟨caller, handle⟩ } := by
  rw [ask_eq] at h
  split at h
  · cases h
  · next key' hkey =>
      split at h
      · cases h
      · next hheld =>
          simp only [] at h
          split at h
          · cases h
          · next l hlock =>
              injection h with hk hm
              subst hk
              exact ⟨hkey, hheld, ⟨l, hlock⟩, hm.symm⟩

theorem records_ask_answered {m m' : Machine} {stamp : Stamp} {caller handle : Nat}
    {request : Request} {reply : request.Reply}
    (h : m.ask stamp caller handle request = .answered reply m') : m'.records = m.records := by
  obtain ⟨-, -, rfl⟩ | ⟨key, -, ⟨-, -, rfl⟩ | ⟨-, -, -, rfl⟩⟩ := ask_answered h <;> rfl

theorem records_ask_queued {m m' : Machine} {stamp : Stamp} {caller handle : Nat}
    {request : Request} {key : Key} (h : m.ask stamp caller handle request = .queued key m') :
    m'.records = m.records := by
  obtain ⟨-, -, -, rfl⟩ := ask_queued h
  rfl

@[simp] theorem records_resume (m : Machine) (stamp : Stamp) (handle : Nat) (key : Key)
    (request : Request) : (m.resume stamp handle key request).2.records = m.records := rfl

/-- The reply to a request and its transaction afterwards, when the key of the request is held. -/
theorem transaction_perform {m : Machine} {stamp : Stamp} {handle : Nat}
    {request : Request} (h : handle < m.transactions.length) :
    (m.perform stamp handle request).2.transaction handle =
      ((m.transaction handle).perform m.records stamp request).2 :=
  transaction_setTransaction_self h _

theorem transaction_hold {m : Machine} {handle : Nat} (key : Key)
    (h : handle < m.transactions.length) :
    (m.hold handle key).transaction handle =
      { m.transaction handle with held := (m.transaction handle).held ++ [key] } :=
  transaction_setTransaction_self h _

@[simp] theorem length_hold (m : Machine) (handle : Nat) (key : Key) :
    (m.hold handle key).transactions.length = m.transactions.length :=
  length_setTransaction m handle _

@[simp] theorem length_perform (m : Machine) (stamp : Stamp) (handle : Nat)
    (request : Request) :
    (m.perform stamp handle request).2.transactions.length = m.transactions.length :=
  length_setTransaction m handle _

theorem length_ask {m m' : Machine} {stamp : Stamp} {caller handle : Nat} {request : Request}
    {reply : request.Reply} (h : m.ask stamp caller handle request = .answered reply m') :
    m'.transactions.length = m.transactions.length := by
  obtain ⟨-, -, rfl⟩ | ⟨key, -, ⟨-, -, rfl⟩ | ⟨-, -, -, rfl⟩⟩ := ask_answered h
  · exact length_perform m stamp handle request
  · exact length_perform m stamp handle request
  · rw [length_perform, length_hold]

/-- The reply to a request that is answered at once, and its transaction afterwards. -/
theorem transaction_ask {m m' : Machine} {stamp : Stamp} {caller handle : Nat}
    {request : Request} {reply : request.Reply} (hlt : handle < m.transactions.length)
    (h : m.ask stamp caller handle request = .answered reply m') :
    reply = (((m.transaction handle).locked request).perform m.records stamp request).1 ∧
      m'.transaction handle =
        (((m.transaction handle).locked request).perform m.records stamp request).2 := by
  rw [Transaction.locked]
  obtain ⟨hkey, rfl, rfl⟩ | ⟨key, hkey, ⟨hheld, rfl, rfl⟩ | ⟨hheld, -, rfl, rfl⟩⟩ :=
    ask_answered h
  · rw [hkey]
    exact ⟨rfl, transaction_perform hlt⟩
  · simp only [hkey, if_pos hheld]
    exact ⟨rfl, transaction_perform hlt⟩
  · simp only [hkey, if_neg hheld]
    have hlt' : handle < ({ m with
      registry := m.registry.enter key ⟨caller, handle⟩ } : Machine).transactions.length := hlt
    have hhold := transaction_hold key hlt'
    constructor
    · rw [perform_reply, hhold]
      rfl
    · rw [transaction_perform (by rw [length_hold]; exact hlt), hhold]
      rfl

theorem transaction_resume {m : Machine} (stamp : Stamp) {handle : Nat} (key : Key)
    (request : Request) (hlt : handle < m.transactions.length) :
    (m.resume stamp handle key request).2.transaction handle =
      (Transaction.perform
        { m.transaction handle with held := (m.transaction handle).held ++ [key] }
        m.records stamp request).2 := by
  rw [resume, transaction_perform (by rw [length_hold]; exact hlt), transaction_hold key hlt]
  rfl

theorem transaction_resume_of_ne {m : Machine} (stamp : Stamp) {handle other : Nat} (key : Key)
    (request : Request) (hne : other ≠ handle) :
    (m.resume stamp handle key request).2.transaction other = m.transaction other :=
  (transaction_setTransaction_of_ne hne.symm _).trans
    (transaction_setTransaction_of_ne hne.symm _)

theorem resume_spec {m : Machine} (stamp : Stamp) {handle : Nat} {key : Key}
    {request : Request} (hlt : handle < m.transactions.length)
    (hkey : keyOf? request = some key) (hheld : key ∉ (m.transaction handle).held) :
    (m.resume stamp handle key request).1 =
        (((m.transaction handle).locked request).perform m.records stamp request).1 ∧
      (m.resume stamp handle key request).2.transaction handle =
        (((m.transaction handle).locked request).perform m.records stamp request).2 := by
  have htransaction := transaction_resume stamp key request hlt
  unfold Transaction.locked
  simp only [hkey, if_neg hheld]
  refine ⟨?_, htransaction⟩
  rw [resume, perform_reply, transaction_hold key hlt]
  rfl

theorem transaction_ask_of_ne {m m' : Machine} {stamp : Stamp}
    {caller handle other : Nat} {request : Request} {reply : request.Reply}
    (h : m.ask stamp caller handle request = .answered reply m') (hne : other ≠ handle) :
    m'.transaction other = m.transaction other := by
  obtain ⟨-, -, rfl⟩ | ⟨key, -, ⟨-, -, rfl⟩ | ⟨-, -, -, rfl⟩⟩ := ask_answered h
  · exact transaction_setTransaction_of_ne hne.symm _
  · exact transaction_setTransaction_of_ne hne.symm _
  · refine (transaction_setTransaction_of_ne hne.symm _).trans ?_
    exact transaction_setTransaction_of_ne
      (m := { m with registry := m.registry.enter key ⟨caller, handle⟩ }) hne.symm _

end Machine

/-! ## Invariants of what transactions write -/

/-- A property of transactions that holds of a new one, does not look at the keys or at whether
the transaction has ended, and is kept when a request that is allowed is answered on records
with the property `R`. -/
structure Upheld (allowed : Request → Prop) (R : Records → Prop) (T : Transaction → Prop) :
    Prop where
  opened : T {}
  touched : ∀ {t : Transaction} (held : List Key) (ended : Bool), T t → T { t with held, ended }
  performed : ∀ {t : Transaction} {r : Records} {request : Request} (stamp : Stamp),
    allowed request → R r → T t → T (t.perform r stamp request).2

theorem Upheld.mono {allowed allowed' : Request → Prop} {R : Records → Prop}
    {T : Transaction → Prop} (up : Upheld allowed R T)
    (h : ∀ request, allowed' request → allowed request) : Upheld allowed' R T where
  opened := up.opened
  touched := up.touched
  performed stamp hreq := up.performed stamp (h _ hreq)

end Bookable.Store
