import Bookable.Proofs.Store.Owned
import Bookable.Proofs.Store.Registry

/-!
# Mirrors of one user's part

Beside a machine stands another one that has only what is of one user: the user's rules
and bookings, the transactions that work for the user, and the tickets of the user's
keys. It mirrors the user's part of the first machine, up to the numbers of callers and
transactions, since what is not the user's leaves gaps that are closed here.

What a transaction of the user does to the machine, its counterpart does to the mirror,
with the same replies, the same waits and the same outcome. What others do leaves no
trace in the mirror: their keys, their transactions and their parts of the records are
different ones.
-/

namespace Bookable.Store

variable {owner : String → String} {user : String}

/-! ## Numbers -/

/-- The numbers of the callers and of the transactions that are kept, in order. Each of them is
numbered anew by its place. -/
structure Numbers where
  callers : List Nat := []
  handles : List Nat := []

namespace Numbers

def ticket (n : Numbers) (t : Ticket) : Ticket :=
  ⟨n.callers.idxOf t.caller, n.handles.idxOf t.handle⟩

/-- The caller and the transaction of a ticket are kept. -/
def Keeps (n : Numbers) (t : Ticket) : Prop := t.caller ∈ n.callers ∧ t.handle ∈ n.handles

instance (n : Numbers) : DecidablePred n.Keeps := fun _ => instDecidableAnd

variable {n n' : Numbers} {t u : Ticket}

theorem ticket_inj (h : n.Keeps t) : n.ticket t = n.ticket u ↔ t = u := by
  refine ⟨fun heq => ?_, congrArg _⟩
  injection heq with hcaller hhandle
  have hcaller := (List.idxOf_inj h.1).mp hcaller
  have hhandle := (List.idxOf_inj h.2).mp hhandle
  cases t
  cases u
  exact Ticket.mk.injEq .. ▸ ⟨hcaller, hhandle⟩

/-- Tickets that are kept come in another order if and only if their new numbers do. -/
theorem perm_map_ticket {queue tickets : List Ticket} (hqueue : ∀ t ∈ queue, n.Keeps t)
    (htickets : ∀ t ∈ tickets, n.Keeps t) :
    (queue.map n.ticket).Perm (tickets.map n.ticket) ↔ queue.Perm tickets := by
  refine ⟨fun hperm => List.perm_iff_count.mpr fun t => ?_, fun hperm => hperm.map _⟩
  by_cases ht : n.Keeps t
  · have hcount : ∀ {l : List Ticket}, (l.map n.ticket).count (n.ticket t) = l.count t := by
      intro l
      rw [List.count, List.countP_map, List.count]
      refine List.countP_congr fun u _ => ?_
      rw [Function.comp_apply, beq_iff_eq, beq_iff_eq, eq_comm, ticket_inj ht, eq_comm]
    rw [← hcount, ← hcount, hperm.count_eq]
  · rw [List.count_eq_zero_of_not_mem fun hmem => ht (hqueue t hmem),
      List.count_eq_zero_of_not_mem fun hmem => ht (htickets t hmem)]

/-- Further numbers come after those that there are. -/
def Within (n n' : Numbers) : Prop := n.callers <+: n'.callers ∧ n.handles <+: n'.handles

theorem Within.keeps (h : n.Within n') (ht : n.Keeps t) : n'.Keeps t :=
  ⟨h.1.subset ht.1, h.2.subset ht.2⟩

theorem idxOf_of_prefix {l l' : List Nat} (h : l <+: l') {a : Nat} (ha : a ∈ l) :
    l'.idxOf a = l.idxOf a := by
  obtain ⟨rest, rfl⟩ := h
  exact List.idxOf_append_of_mem ha

theorem Within.ticket (h : n.Within n') (ht : n.Keeps t) : n'.ticket t = n.ticket t := by
  rw [Numbers.ticket, Numbers.ticket, idxOf_of_prefix h.1 ht.1, idxOf_of_prefix h.2 ht.2]

end Numbers

/-! ## Mirrored registries -/

/-- The keys of a user have the same tickets in both registries, and nobody uses another key in
the second one. -/
structure Registry.Mirrors (owner : String → String) (user : String) (n : Numbers)
    (g g' : Registry) : Prop where
  proper : g.Proper
  proper' : g'.Proper
  queue : ∀ key : Key, key.user owner = user → g'.queue key = (g.queue key).map n.ticket
  clear : ∀ key : Key, key.user owner ≠ user → g'.queue key = []
  kept : ∀ key : Key, key.user owner = user → ∀ t ∈ g.queue key, n.Keeps t

namespace Registry.Mirrors

variable {n n' : Numbers} {g g₁ g' g₂ : Registry} {key : Key}

theorem frame (h : g.Mirrors owner user n g') (hproper : g₁.Proper)
    (hqueue : ∀ key : Key, key.user owner = user → g₁.queue key = g.queue key) :
    g₁.Mirrors owner user n g' where
  proper := hproper
  proper' := h.proper'
  queue key hkey := by rw [hqueue key hkey, h.queue key hkey]
  clear := h.clear
  kept key hkey := by
    rw [hqueue key hkey]
    exact h.kept key hkey

theorem renumber (h : g.Mirrors owner user n g') (hwithin : n.Within n') :
    g.Mirrors owner user n' g' where
  proper := h.proper
  proper' := h.proper'
  queue key hkey := by
    rw [h.queue key hkey]
    exact List.map_congr_left fun t ht => (hwithin.ticket (h.kept key hkey t ht)).symm
  clear := h.clear
  kept key hkey t ht := hwithin.keeps (h.kept key hkey t ht)

theorem lock?_eq_none_iff (h : g.Mirrors owner user n g') (hkey : key.user owner = user) :
    g'.lock? key = none ↔ g.lock? key = none := by
  rw [Registry.lock?_eq_none_iff h.proper', Registry.lock?_eq_none_iff h.proper, h.queue key hkey,
    List.map_eq_nil_iff]

theorem isHeldBy (h : g.Mirrors owner user n g') (hkey : key.user owner = user) {t : Ticket}
    (ht : n.Keeps t) : g'.isHeldBy key (n.ticket t) = g.isHeldBy key t := by
  rw [Bool.eq_iff_iff, isHeldBy_iff, isHeldBy_iff, h.queue key hkey, List.head?_map,
    Option.map_eq_some_iff]
  constructor
  · rintro ⟨first, hfirst, heq⟩
    rw [hfirst, (Numbers.ticket_inj ht).mp heq.symm]
  · exact fun hfirst => ⟨t, hfirst, rfl⟩

/-- A key of the user gets the same tickets in both registries. -/
theorem requeue (h : g.Mirrors owner user n g') (hkey : key.user owner = user)
    {tickets : List Ticket} (htickets : ∀ t ∈ tickets, n.Keeps t) (hproper : g₁.Proper)
    (hqueue : ∀ other, g₁.queue other = if other = key then tickets else g.queue other)
    (hproper' : g₂.Proper)
    (hqueue' : ∀ other, g₂.queue other =
      if other = key then tickets.map n.ticket else g'.queue other) :
    g₁.Mirrors owner user n g₂ := by
  refine ⟨hproper, hproper', fun other hother => ?_, fun other hother => ?_,
    fun other hother t ht => ?_⟩
  · rw [hqueue, hqueue']
    split
    · rfl
    · exact h.queue other hother
  · rw [hqueue', if_neg]
    · exact h.clear other hother
    · rintro rfl
      exact hother hkey
  · rw [hqueue] at ht
    split at ht
    · exact htickets t ht
    · exact h.kept other hother t ht

theorem enter (h : g.Mirrors owner user n g') (hkey : key.user owner = user) {t : Ticket}
    (ht : n.Keeps t) : (g.enter key t).Mirrors owner user n (g'.enter key (n.ticket t)) := by
  obtain ⟨hproper, hqueue⟩ := enter_spec h.proper key t
  obtain ⟨hproper', hqueue'⟩ := enter_spec h.proper' key (n.ticket t)
  refine h.requeue hkey (fun u hu => ?_) hproper hqueue hproper' fun other => ?_
  · rcases List.mem_append.mp hu with hu | hu
    · exact h.kept key hkey u hu
    · rwa [List.mem_singleton.mp hu]
  · rw [hqueue', h.queue key hkey, List.map_append, List.map_singleton]

theorem leave_all (h : g.Mirrors owner user n g') {keys : List Key} (hkeys : keys.Nodup) :
    (keys.foldl leave g).Mirrors owner user n (keys.foldl leave g') := by
  obtain ⟨hproper, hqueue⟩ := Registry.leave_all h.proper hkeys
  obtain ⟨hproper', hqueue'⟩ := Registry.leave_all h.proper' hkeys
  refine ⟨hproper, hproper', fun key hkey => ?_, fun key hkey => ?_, fun key hkey t ht => ?_⟩
  · rw [hqueue, hqueue', h.queue key hkey]
    split
    · exact List.map_tail.symm
    · rfl
  · rw [hqueue', h.clear key hkey, List.tail_nil, ite_self]
  · rw [hqueue] at ht
    split at ht
    · exact h.kept key hkey t (List.mem_of_mem_tail ht)
    · exact h.kept key hkey t ht

end Registry.Mirrors

/-! ## Mirrored machines -/

/-- A machine has the user's part of the records of another one, the transactions that are kept,
and the tickets of the user's keys. -/
structure Machine.Mirrors (owner : String → String) (user : String) (n : Numbers)
    (m m' : Machine) : Prop where
  records : m'.records = m.records.part user
  transactions : m'.transactions = n.handles.map m.transaction
  once : n.handles.Nodup
  opened : ∀ handle ∈ n.handles, handle < m.transactions.length
  registry : m.registry.Mirrors owner user n m'.registry

/-- What a transaction of a user relies on in a machine. -/
structure Machine.Serves (owner : String → String) (user : String) (m : Machine) (handle : Nat) :
    Prop where
  of : (m.transaction handle).Of owner user
  changes : (m.transaction handle).Changes m.records
  rules : (m.records.rules.map Rule.id).Nodup
  owned : m.records.Owned owner

theorem set_map_idxOf {β : Type} {f f' : Nat → β} {l : List Nat} (hl : l.Nodup) {a : Nat}
    (ha : a ∈ l) (hothers : ∀ c, c ≠ a → f' c = f c) :
    (l.map f).set (l.idxOf a) (f' a) = l.map f' := by
  induction l with
  | nil => cases ha
  | cons c l ih =>
      obtain ⟨hnot, hl⟩ := List.nodup_cons.mp hl
      by_cases hc : c = a
      · subst hc
        rw [List.idxOf_cons_self, List.map_cons, List.set_cons_zero, List.map_cons]
        refine congrArg _ (List.map_congr_left fun b hb => (hothers b ?_).symm)
        rintro rfl
        exact hnot hb
      · rw [List.idxOf_cons_ne _ hc, List.map_cons, List.set_cons_succ, List.map_cons,
          ih hl ((List.mem_cons.mp ha).resolve_left (Ne.symm hc)), hothers c hc]

namespace Machine

namespace Mirrors

variable {n : Numbers} {m m₁ m' : Machine} {handle : Nat}

theorem transaction (h : m.Mirrors owner user n m') (hmem : handle ∈ n.handles) :
    m'.transaction (n.handles.idxOf handle) = m.transaction handle := by
  show (m'.transactions[n.handles.idxOf handle]?).getD _ = _
  rw [h.transactions, List.getElem?_map, List.getElem?_idxOf hmem]
  rfl

/-! ### What others do -/

theorem frame (h : m.Mirrors owner user n m') (hrecords : m₁.records.part user = m.records.part user)
    (hlength : m.transactions.length ≤ m₁.transactions.length)
    (htransactions : ∀ handle ∈ n.handles, m₁.transaction handle = m.transaction handle)
    (hproper : m₁.registry.Proper)
    (hqueue : ∀ key : Key, key.user owner = user →
      m₁.registry.queue key = m.registry.queue key) : m₁.Mirrors owner user n m' where
  records := by rw [h.records, hrecords]
  transactions := by
    rw [h.transactions]
    exact List.map_congr_left fun handle hmem => (htransactions handle hmem).symm
  once := h.once
  opened handle hmem := Nat.lt_of_lt_of_le (h.opened handle hmem) hlength
  registry := h.registry.frame hproper hqueue

/-! ### What a transaction of the user does -/

theorem setTransaction (h : m.Mirrors owner user n m') (hmem : handle ∈ n.handles)
    (t : Transaction) : (m.setTransaction handle t).Mirrors owner user n
      (m'.setTransaction (n.handles.idxOf handle) t) where
  records := h.records
  transactions := by
    have hself := transaction_setTransaction_self (h.opened handle hmem) t
    show m'.transactions.set _ t = _
    rw [h.transactions, ← hself, hself]
    refine (congrArg _ hself.symm).trans (set_map_idxOf h.once hmem fun other hne => ?_)
    exact transaction_setTransaction_of_ne hne.symm t
  once := h.once
  opened other hother := by
    rw [length_setTransaction]
    exact h.opened other hother
  registry := h.registry

theorem begin (h : m.Mirrors owner user n m') :
    m.begin.2.Mirrors owner user { n with handles := n.handles ++ [m.begin.1] } m'.begin.2 where
  records := h.records
  transactions := by
    show m'.transactions ++ [({} : Transaction)] =
      (n.handles ++ [m.transactions.length]).map m.begin.2.transaction
    rw [h.transactions, List.map_append, List.map_singleton, transaction_begin, if_pos rfl]
    refine congrArg (· ++ _) (List.map_congr_left fun handle hmem => ?_)
    rw [transaction_begin, if_neg (Nat.ne_of_lt (h.opened handle hmem))]
  once := by
    rw [← List.concat_eq_append]
    exact h.once.concat fun hmem => absurd (h.opened _ hmem) (Nat.lt_irrefl _)
  opened handle hmem := by
    show handle < (m.transactions ++ [({} : Transaction)]).length
    rw [List.length_append, List.length_singleton]
    rcases List.mem_append.mp hmem with hmem | hmem
    · exact Nat.lt_succ_of_lt (h.opened handle hmem)
    · rw [List.mem_singleton.mp hmem]
      exact Nat.lt_succ_self _
  registry := h.registry.renumber ⟨List.prefix_refl _, List.prefix_append _ _⟩

theorem hold (h : m.Mirrors owner user n m') (hmem : handle ∈ n.handles) (key : Key) :
    (m.hold handle key).Mirrors owner user n (m'.hold (n.handles.idxOf handle) key) := by
  rw [Machine.hold, Machine.hold, h.transaction hmem]
  exact h.setTransaction hmem _

theorem finish (h : m.Mirrors owner user n m') (hmem : handle ∈ n.handles) {t : Transaction}
    (honce : t.held.Nodup) :
    (m.finish handle t).2.Mirrors owner user n (m'.finish (n.handles.idxOf handle) t).2 := by
  have hset := h.setTransaction hmem (closed t)
  rw [finish_snd, finish_snd]
  exact ⟨hset.records, hset.transactions, hset.once, hset.opened,
    h.registry.leave_all (List.nodup_reverse.mpr honce)⟩

theorem rollback (h : m.Mirrors owner user n m') (hmem : handle ∈ n.handles)
    (honce : (m.transaction handle).held.Nodup) :
    (m.rollback handle).2.Mirrors owner user n (m'.rollback (n.handles.idxOf handle)).2 := by
  rw [rollback_machine, rollback_machine, h.transaction hmem]
  split
  · exact h
  · exact h.finish (t := (m.transaction handle).cleared) hmem honce

/-- A commit for the user has the same outcome in the mirror. -/
theorem commit (h : m.Mirrors owner user n m') (hmem : handle ∈ n.handles)
    (hserves : m.Serves owner user handle) (honce : (m.transaction handle).held.Nodup)
    (hlive : (m.transaction handle).ended = false)
    (hdistinct : ((m.transaction handle).view m.records).Distinct)
    (hpublish : (m.transaction handle).publish m.records =
      (m.transaction handle).view m.records) :
    (m'.commit (n.handles.idxOf handle)).1 = (m.commit handle).1 ∧
      (m.commit handle).2.2.Mirrors owner user n (m'.commit (n.handles.idxOf handle)).2.2 := by
  have htransaction := h.transaction hmem
  have hconflicts : (m'.transaction (n.handles.idxOf handle)).conflicts m'.records =
      (m.transaction handle).conflicts m.records := by
    rw [htransaction, h.records, hserves.of.conflicts_part]
  have hlive' : (m'.transaction (n.handles.idxOf handle)).ended = false := by
    rw [htransaction, hlive]
  rw [commit_outcome hlive, commit_outcome hlive', commit_machine, commit_machine, hlive, hlive',
    hconflicts]
  refine ⟨rfl, ?_⟩
  simp only [Bool.false_eq_true, if_false, htransaction]
  split
  · exact h.finish (t := (m.transaction handle).cleared) hmem honce
  · have hpart := hserves.of.part_publish hserves.changes hdistinct hpublish hserves.rules
    rw [← h.records] at hpart
    have hpublished : ({ m with records := (m.transaction handle).publish m.records } :
        Machine).Mirrors owner user n
          { m' with records := (m.transaction handle).publish m'.records } :=
      ⟨hpart.symm, h.transactions, h.once, h.opened, h.registry⟩
    exact hpublished.finish hmem honce

theorem perform (h : m.Mirrors owner user n m') (hmem : handle ∈ n.handles)
    (hserves : m.Serves owner user handle) {request : Request}
    (hrequest : request.user owner = user) (stamp : Stamp) :
    (m'.perform stamp (n.handles.idxOf handle) request).1 =
        (m.perform stamp handle request).1 ∧
      (m.perform stamp handle request).2.Mirrors owner user n
        (m'.perform stamp (n.handles.idxOf handle) request).2 := by
  have hperform : (m'.transaction (n.handles.idxOf handle)).perform m'.records stamp request =
      (m.transaction handle).perform m.records stamp request := by
    rw [h.transaction hmem, h.records]
    exact hserves.of.perform_part hserves.changes hserves.rules hserves.owned hrequest stamp
  rw [perform_reply, perform_reply, perform_machine, perform_machine, hperform]
  exact ⟨rfl, h.setTransaction hmem _⟩

end Mirrors

theorem Serves.hold {m : Machine} {handle : Nat} (h : m.Serves owner user handle)
    (hlt : handle < m.transactions.length) {key : Key} (hkey : key.user owner = user) :
    (m.hold handle key).Serves owner user handle := by
  have htransaction := transaction_hold key hlt
  refine ⟨?_, ?_, h.rules, h.owned⟩
  · rw [htransaction]
    exact h.of.concat hkey
  · rw [htransaction]
    exact ⟨h.changes.once, h.changes.known⟩

namespace Mirrors

variable {n : Numbers} {m m' : Machine} {handle : Nat}

/-- A request for the user that has waited for its key gets the same reply in the mirror. -/
theorem resume (h : m.Mirrors owner user n m') (hmem : handle ∈ n.handles)
    (hserves : m.Serves owner user handle) {request : Request} {key : Key}
    (hkey : keyOf? request = some key) (hrequest : request.user owner = user) (stamp : Stamp) :
    (m'.resume stamp (n.handles.idxOf handle) key request).1 =
        (m.resume stamp handle key request).1 ∧
      (m.resume stamp handle key request).2.Mirrors owner user n
        (m'.resume stamp (n.handles.idxOf handle) key request).2 :=
  (h.hold hmem key).perform hmem
    (hserves.hold (h.opened handle hmem) ((user_keyOf? hkey).trans hrequest)) hrequest stamp

/-- A request for the user is answered in the mirror, or waits for its key there, just as it does
in the machine. -/
theorem ask (h : m.Mirrors owner user n m') {t : Ticket} (ht : n.Keeps t)
    (hserves : m.Serves owner user t.handle) {request : Request}
    (hrequest : request.user owner = user) (stamp : Stamp) :
    (∃ reply m₁ m₂, m.ask stamp t.caller t.handle request = .answered reply m₁ ∧
        m'.ask stamp (n.ticket t).caller (n.ticket t).handle request = .answered reply m₂ ∧
        m₁.Mirrors owner user n m₂) ∨
      ∃ key m₁ m₂, m.ask stamp t.caller t.handle request = .queued key m₁ ∧
        m'.ask stamp (n.ticket t).caller (n.ticket t).handle request = .queued key m₂ ∧
        m₁.Mirrors owner user n m₂ := by
  have htransaction : m'.transaction (n.ticket t).handle = m.transaction t.handle :=
    h.transaction ht.2
  obtain ⟨hreply, hperformed⟩ := h.perform ht.2 hserves hrequest stamp
  rw [ask_eq, ask_eq, htransaction]
  cases hkey : keyOf? request with
  | none => exact Or.inl ⟨_, _, _, rfl, congrArg (Outcome.answered · _) hreply, hperformed⟩
  | some key =>
      have huser : key.user owner = user := (user_keyOf? hkey).trans hrequest
      simp only []
      by_cases hheld : key ∈ (m.transaction t.handle).held
      · rw [if_pos hheld, if_pos hheld]
        exact Or.inl ⟨_, _, _, rfl, congrArg (Outcome.answered · _) hreply, hperformed⟩
      · rw [if_neg hheld, if_neg hheld]
        have hentered : ({ m with registry := m.registry.enter key t } : Machine).Mirrors owner user
            n { m' with registry := m'.registry.enter key (n.ticket t) } :=
          ⟨h.records, h.transactions, h.once, h.opened, h.registry.enter huser ht⟩
        have hiff := h.registry.lock?_eq_none_iff huser
        cases hlock : m.registry.lock? key with
        | none =>
            rw [hiff.mpr hlock]
            have hserves' : ({ m with registry := m.registry.enter key t } : Machine).Serves owner
                user t.handle := ⟨hserves.of, hserves.changes, hserves.rules, hserves.owned⟩
            obtain ⟨hreply, hperformed⟩ := hentered.resume ht.2 hserves' hkey hrequest stamp
            exact Or.inl ⟨_, _, _, rfl, congrArg (Outcome.answered · _) hreply, hperformed⟩
        | some l =>
            cases hlock' : m'.registry.lock? key with
            | none =>
                rw [hiff.mp hlock'] at hlock
                cases hlock
            | some l' => exact Or.inr ⟨key, _, _, rfl, rfl, hentered⟩

/-! ### Tickets that change places -/

theorem isTaken (h : m.Mirrors owner user n m') {key : Key} (hkey : key.user owner = user) :
    m'.isTaken key = m.isTaken key := by
  rw [Bool.eq_iff_iff, isTaken_iff, isTaken_iff, h.registry.queue key hkey, List.head?_map]
  have hheld : ∀ t, (m.registry.queue key).head? = some t →
      m'.transaction (n.ticket t).handle = m.transaction t.handle :=
    fun t ht => h.transaction (h.registry.kept key hkey t (List.mem_of_mem_head? ht)).2
  constructor
  · rintro ⟨u, hu, htaken⟩
    obtain ⟨t, ht, rfl⟩ := Option.map_eq_some_iff.mp hu
    rw [hheld t ht] at htaken
    exact ⟨t, ht, htaken⟩
  · rintro ⟨t, ht, htaken⟩
    refine ⟨n.ticket t, Option.map_eq_some_iff.mpr ⟨t, ht, rfl⟩, ?_⟩
    rwa [hheld t ht]

theorem admits_iff (h : m.Mirrors owner user n m') {key : Key} (hkey : key.user owner = user)
    {tickets : List Ticket} (htickets : ∀ t ∈ tickets, n.Keeps t) :
    m'.Admits key (tickets.map n.ticket) ↔ m.Admits key tickets := by
  rw [Admits, Admits, h.isTaken hkey, h.registry.queue key hkey,
    Numbers.perm_map_ticket (h.registry.kept key hkey) htickets, List.head?_map, List.head?_map]
  refine and_congr_right fun _ => imp_congr_right fun _ => ⟨fun heq => ?_, congrArg _⟩
  cases hhead : tickets.head? with
  | none =>
      rw [hhead] at heq
      exact (Option.map_eq_none_iff.mp heq.symm).symm
  | some t =>
      rw [hhead] at heq
      obtain ⟨u, hu, hticket⟩ := Option.map_eq_some_iff.mp heq.symm
      rw [hu, (Numbers.ticket_inj (htickets t (List.mem_of_mem_head? hhead))).mp hticket.symm]

/-- Tickets of a key of somebody else, or tickets that are not all kept, change nothing that is in
the mirror. -/
theorem reorder_others (h : m.Mirrors owner user n m') {key : Key} {tickets : List Ticket}
    (hothers : key.user owner = user → ¬ m.Admits key tickets) :
    (m.reorder key tickets).Mirrors owner user n m' := by
  have hqueues : (m.reorder key tickets).registry.Proper ∧
      ∀ other : Key, other.user owner = user →
        (m.reorder key tickets).registry.queue other = m.registry.queue other := by
    rcases reorder_spec h.registry.proper key tickets with
      ⟨-, heq⟩ | ⟨hadmits, hproper, hqueue⟩
    · rw [heq]
      exact ⟨h.registry.proper, fun _ _ => rfl⟩
    · refine ⟨hproper, fun other hother => (hqueue other).trans (if_neg ?_)⟩
      rintro rfl
      exact hothers hother hadmits
  refine h.frame ?_ ?_ (fun handle _ => transaction_reorder m key tickets handle) hqueues.1
    hqueues.2
  · rw [records_reorder]
  · rw [transactions_reorder]

/-- Tickets that are kept change places in the mirror as in the machine. -/
theorem reorder (h : m.Mirrors owner user n m') (key : Key) {tickets : List Ticket}
    (htickets : ∀ t ∈ tickets, n.Keeps t) :
    (m.reorder key tickets).Mirrors owner user n (m'.reorder key (tickets.map n.ticket)) := by
  by_cases hkey : key.user owner = user
  · have hadmits := h.admits_iff hkey htickets
    have htransaction : (m.reorder key tickets).transaction = m.transaction :=
      funext fun handle => transaction_reorder m key tickets handle
    refine ⟨?_, ?_, h.once, ?_, ?_⟩
    · rw [records_reorder, records_reorder, h.records]
    · rw [transactions_reorder, htransaction, h.transactions]
    · rw [transactions_reorder]
      exact h.opened
    · rcases reorder_spec h.registry.proper key tickets with
        ⟨hnot, heq⟩ | ⟨hyes, hproper, hqueue⟩
      · rcases reorder_spec h.registry.proper' key (tickets.map n.ticket) with
          ⟨-, heq'⟩ | ⟨hyes', -⟩
        · rw [heq, heq']
          exact h.registry
        · exact absurd (hadmits.mp hyes') hnot
      · rcases reorder_spec h.registry.proper' key (tickets.map n.ticket) with
          ⟨hnot', -⟩ | ⟨-, hproper', hqueue'⟩
        · exact absurd (hadmits.mpr hyes) hnot'
        · exact h.registry.requeue hkey htickets hproper hqueue hproper' hqueue'
  · -- Nobody uses the key in the mirror.
    have hsame : m'.reorder key (tickets.map n.ticket) = m' := by
      rw [Machine.reorder,
        (Registry.lock?_eq_none_iff h.registry.proper' key).mpr (h.registry.clear key hkey)]
    rw [hsame]
    exact h.reorder_others fun hown => absurd hown hkey

end Mirrors

end Machine

end Bookable.Store
