import Bookable.Proofs.Hall.Seats
import Bookable.Proofs.Store.Registry
import Mathlib.Data.List.Induction
import Mathlib.Data.List.Perm.Basic
import Mathlib.Logic.Function.Basic

/-!
# Keys in custody

Transactions hold keys, requests wait for keys, and each key has a queue of tickets. They
agree if the queue of a key consists of the tickets of those who wait for it, behind one
ticket of the transaction that holds it, if there is one. A transaction may have
several callers here, and a caller may work in several transactions; it is enough that
no caller waits twice and that nobody waits on behalf of a transaction that has ended.

What moves do to queues and holders are a few changes, and each of them keeps the
agreement. The one that needs care is a waiting request's coming to hold its key: its
ticket is the first, and because no ticket stands in a queue twice, that means that no
transaction has the key yet.
-/

namespace Bookable.Store

/-! ## Tickets of those who wait -/

/-- The tickets of the requests that wait for a key. -/
def tickets (waiting : List Waiting) (key : Key) : List Ticket :=
  (waiting.filter (·.key == key)).map Waiting.ticket

theorem mem_tickets {waiting : List Waiting} {key : Key} {ticket : Ticket} :
    ticket ∈ tickets waiting key ↔ ∃ w ∈ waiting, w.key = key ∧ w.ticket = ticket := by
  simp only [tickets, List.mem_map, List.mem_filter, beq_iff_eq, and_assoc]

theorem tickets_concat (waiting : List Waiting) (w : Waiting) (key : Key) :
    tickets (waiting ++ [w]) key =
      tickets waiting key ++ if w.key = key then [w.ticket] else [] := by
  rw [tickets, List.filter_append, List.map_append, tickets]
  by_cases h : w.key = key
  · simp only [h, beq_self_eq_true, List.filter_cons_of_pos, List.filter_nil, List.map_cons,
      List.map_nil, if_true]
  · have hne : (w.key == key) = false := beq_eq_false_iff_ne.mpr h
    simp only [List.filter_cons, hne, h, Bool.false_eq_true, if_false, List.filter_nil,
      List.map_nil]

theorem tickets_cons (waiting : List Waiting) (w : Waiting) (key : Key) :
    tickets (w :: waiting) key =
      if w.key = key then w.ticket :: tickets waiting key else tickets waiting key := by
  rw [tickets, List.filter_cons]
  by_cases h : w.key = key
  · rw [if_pos h, if_pos (beq_iff_eq.mpr h)]
    rfl
  · rw [if_neg h, if_neg (fun heq => h (eq_of_beq heq))]
    rfl

/-- Only one request of a caller waits. -/
theorem perm_cons_filter {waiting : List Waiting} {w : Waiting}
    (h : (waiting.map (·.ticket.caller)).Nodup) (hw : w ∈ waiting) :
    waiting.Perm (w :: waiting.filter (·.ticket.caller != w.ticket.caller)) := by
  induction waiting with
  | nil => cases hw
  | cons first waiting ih =>
      obtain ⟨hnew, hrest⟩ := List.nodup_cons.mp h
      rcases List.mem_cons.mp hw with rfl | hw
      · have hothers : waiting.filter (·.ticket.caller != w.ticket.caller) = waiting := by
          refine List.filter_eq_self.mpr fun other hother => bne_iff_ne.mpr fun heq => hnew ?_
          exact List.mem_map.mpr ⟨other, hother, heq⟩
        rw [List.filter_cons_of_neg (by simp), hothers]
      · have hne : first.ticket.caller ≠ w.ticket.caller := by
          intro heq
          exact hnew (List.mem_map.mpr ⟨w, hw, heq.symm⟩)
        rw [List.filter_cons, if_pos (bne_iff_ne.mpr hne)]
        exact ((ih hrest hw).cons first).trans (List.Perm.swap w first _)

/-! ## Queues, holders and those who wait -/

/-- The queues fit the keys that transactions hold and the requests that wait. -/
structure Custody (queue : Key → List Ticket) (held : Nat → List Key) (ended : Nat → Bool)
    (waiting : List Waiting) : Prop where
  taken : ∀ {handle key}, key ∈ held handle → ended handle = false ∧
    ∃ caller rest, queue key = ⟨caller, handle⟩ :: rest ∧ rest.Perm (tickets waiting key)
  free : ∀ {key}, (∀ handle, key ∉ held handle) → (queue key).Perm (tickets waiting key)
  once : ∀ handle, (held handle).Nodup
  single : ∀ key, (queue key).Nodup
  live : ∀ w ∈ waiting, ended w.ticket.handle = false
  alone : (waiting.map (·.ticket.caller)).Nodup

namespace Custody

variable {queue : Key → List Ticket} {held : Nat → List Key} {ended : Nat → Bool}
  {waiting : List Waiting}

theorem nobody (ended : Nat → Bool) : Custody (fun _ => []) (fun _ => []) ended [] where
  taken h := absurd h List.not_mem_nil
  free _ := List.Perm.nil
  once _ := List.nodup_nil
  single _ := List.nodup_nil
  live _ h := absurd h List.not_mem_nil
  alone := List.nodup_nil

theorem exclusive (h : Custody queue held ended waiting) {i j : Nat} {key : Key}
    (hi : key ∈ held i) (hj : key ∈ held j) : i = j := by
  obtain ⟨-, caller, rest, hqueue, -⟩ := h.taken hi
  obtain ⟨-, caller', rest', hqueue', -⟩ := h.taken hj
  rw [hqueue] at hqueue'
  injection hqueue' with hticket
  injection hticket

/-- Who waits for a key has a ticket for it. -/
theorem mem_of_waiting (h : Custody queue held ended waiting) {w : Waiting}
    (hw : w ∈ waiting) : w.ticket ∈ queue w.key := by
  have hmem : w.ticket ∈ tickets waiting w.key := mem_tickets.mpr ⟨w, hw, rfl, rfl⟩
  by_cases hheld : ∃ handle, w.key ∈ held handle
  · obtain ⟨handle, hheld⟩ := hheld
    obtain ⟨-, caller, rest, hqueue, hrest⟩ := h.taken hheld
    rw [hqueue]
    exact List.mem_cons_of_mem _ (hrest.mem_iff.mpr hmem)
  · exact (h.free fun handle hkey => hheld ⟨handle, hkey⟩).mem_iff.mpr hmem

/-- A key with a ticket is held or waited for, on behalf of a transaction that has not ended. -/
theorem queue_ne_nil_iff (h : Custody queue held ended waiting) (key : Key) :
    queue key ≠ [] ↔ ∃ handle, ended handle = false ∧
      (key ∈ held handle ∨ ∃ w ∈ waiting, w.key = key ∧ w.ticket.handle = handle) := by
  constructor
  · intro hused
    by_cases hheld : ∃ handle, key ∈ held handle
    · obtain ⟨handle, hheld⟩ := hheld
      exact ⟨handle, (h.taken hheld).1, Or.inl hheld⟩
    · have hperm := h.free fun handle hkey => hheld ⟨handle, hkey⟩
      obtain ⟨ticket, hticket⟩ := List.exists_mem_of_ne_nil _ hused
      obtain ⟨w, hw, hkey, -⟩ := mem_tickets.mp (hperm.mem_iff.mp hticket)
      exact ⟨w.ticket.handle, h.live w hw, Or.inr ⟨w, hw, hkey, rfl⟩⟩
  · rintro ⟨handle, -, hheld | ⟨w, hw, rfl, -⟩⟩ hnil
    · obtain ⟨-, caller, rest, hqueue, -⟩ := h.taken hheld
      rw [hnil] at hqueue
      cases hqueue
    · have hmem := h.mem_of_waiting hw
      rw [hnil] at hmem
      cases hmem

/-- A ticket of a transaction for a key that it does not hold belongs to a request that waits. -/
theorem waits_of_ticket (h : Custody queue held ended waiting) {ticket : Ticket} {key : Key}
    (hnot : key ∉ held ticket.handle) (hticket : ticket ∈ queue key) :
    ∃ w ∈ waiting, w.key = key ∧ w.ticket = ticket := by
  rw [← mem_tickets]
  by_cases hheld : ∃ other, key ∈ held other
  · obtain ⟨other, hheld⟩ := hheld
    obtain ⟨-, first, rest, hqueue, hrest⟩ := h.taken hheld
    rw [hqueue] at hticket
    rcases List.mem_cons.mp hticket with rfl | hticket
    · exact absurd hheld hnot
    · exact hrest.mem_iff.mp hticket
  · exact (h.free fun other hkey => hheld ⟨other, hkey⟩).mem_iff.mp hticket

/-! ## Changes -/

/-- A transaction is begun. -/
theorem begin (h : Custody queue held ended waiting) {ended' : Nat → Bool}
    (hlive : ∀ handle, ended handle = false → ended' handle = false) :
    Custody queue held ended' waiting where
  taken hkey := (h.taken hkey).imp_left (hlive _)
  free := h.free
  once := h.once
  single := h.single
  live w hw := hlive _ (h.live w hw)
  alone := h.alone

/-- A transaction comes to hold a key that none has, with the first ticket. -/
theorem hold (h : Custody queue held ended waiting) {queue' : Key → List Ticket}
    {waiting' : List Waiting} {caller handle : Nat} {key : Key} {rest : List Ticket}
    (hlive : ended handle = false) (hnobody : ∀ other, key ∉ held other)
    (hqueue : queue' key = ⟨caller, handle⟩ :: rest) (hsingle : (queue' key).Nodup)
    (hrest : rest.Perm (tickets waiting' key))
    (hothers : ∀ other, other ≠ key → queue' other = queue other ∧
      (tickets waiting other).Perm (tickets waiting' other))
    (hfewer : waiting'.Sublist waiting) :
    Custody queue' (Function.update held handle (held handle ++ [key])) ended waiting' where
  taken {owner other} hkey := by
    have hold : other ∈ held owner ∨ owner = handle ∧ other = key := by
      by_cases howner : owner = handle
      · subst howner
        rw [Function.update_self] at hkey
        exact (List.mem_append.mp hkey).imp_right fun hnew => ⟨rfl, List.mem_singleton.mp hnew⟩
      · rw [Function.update_of_ne howner] at hkey
        exact Or.inl hkey
    rcases hold with hold | ⟨rfl, rfl⟩
    · have hne : other ≠ key := fun heq => hnobody owner (heq ▸ hold)
      obtain ⟨hopen, first, tail, hfirst, htail⟩ := h.taken hold
      rw [(hothers other hne).1]
      exact ⟨hopen, first, tail, hfirst, htail.trans (hothers other hne).2⟩
    · exact ⟨hlive, caller, rest, hqueue, hrest⟩
  free {other} hfree := by
    have hne : other ≠ key := by
      rintro rfl
      have hnot := hfree handle
      rw [Function.update_self] at hnot
      exact hnot (List.mem_append_right _ (List.mem_singleton_self _))
    rw [(hothers other hne).1]
    refine (h.free fun owner hold => hfree owner ?_).trans (hothers other hne).2
    by_cases howner : owner = handle
    · subst howner
      rw [Function.update_self]
      exact List.mem_append_left _ hold
    · rw [Function.update_of_ne howner]
      exact hold
  once owner := by
    by_cases howner : owner = handle
    · subst howner
      rw [Function.update_self, ← List.concat_eq_append]
      exact (h.once owner).concat (hnobody owner)
    · rw [Function.update_of_ne howner]
      exact h.once owner
  single other := by
    by_cases hne : other = key
    · rw [hne]
      exact hsingle
    · rw [(hothers other hne).1]
      exact h.single other
  live w hw := h.live w (hfewer.subset hw)
  alone := h.alone.sublist (hfewer.map _)

/-- A transaction takes hold of a key that nobody uses. -/
theorem seize (h : Custody queue held ended waiting) (caller : Nat) {handle : Nat} {key : Key}
    (hlive : ended handle = false) (hfree : queue key = []) :
    Custody (requeued queue key [⟨caller, handle⟩])
      (Function.update held handle (held handle ++ [key])) ended waiting := by
  have hnobody : ∀ other, key ∉ held other := by
    intro other hkey
    exact (h.queue_ne_nil_iff key).mpr ⟨other, (h.taken hkey).1, Or.inl hkey⟩ hfree
  have hnone := h.free hnobody
  rw [hfree] at hnone
  refine h.hold hlive hnobody (requeued_self _ _ _) ?_ hnone (fun other hne => ?_)
    (List.Sublist.refl _)
  · rw [requeued_self]
    exact List.nodup_singleton _
  · exact ⟨requeued_of_ne hne, List.Perm.refl _⟩

/-- The request with the first ticket goes on, and its transaction holds the key. -/
theorem grant (h : Custody queue held ended waiting) {w : Waiting} (hw : w ∈ waiting)
    (hfirst : (queue w.key).head? = some w.ticket) :
    Custody queue
      (Function.update held w.ticket.handle (held w.ticket.handle ++ [w.key])) ended
      (waiting.filter (·.ticket.caller != w.ticket.caller)) := by
  have hperm := perm_cons_filter h.alone hw
  have htickets : ∀ key, (tickets waiting key).Perm
      (if w.key = key then
        w.ticket :: tickets (waiting.filter (·.ticket.caller != w.ticket.caller)) key
      else tickets (waiting.filter (·.ticket.caller != w.ticket.caller)) key) := by
    intro key
    rw [← tickets_cons]
    exact (hperm.filter _).map _
  have hmem : w.ticket ∈ tickets waiting w.key := mem_tickets.mpr ⟨w, hw, rfl, rfl⟩
  obtain ⟨rest, hqueue⟩ := List.head?_eq_some_iff.mp hfirst
  have hnobody : ∀ other, w.key ∉ held other := by
    -- The ticket of a transaction that held the key would stand in front and behind.
    intro other hkey
    obtain ⟨-, caller, rest', hqueue', hrest⟩ := h.taken hkey
    have hsingle := h.single w.key
    rw [hqueue'] at hsingle hqueue
    injection hqueue with hticket
    rw [hticket] at hsingle
    exact (List.nodup_cons.mp hsingle).1 (hrest.mem_iff.mpr hmem)
  have hwaiting := h.free hnobody
  rw [hqueue] at hwaiting
  refine h.hold (h.live w hw) hnobody hqueue (h.single _) ?_ (fun other hne => ⟨rfl, ?_⟩)
    List.filter_sublist
  · have hall := hwaiting.trans (htickets w.key)
    rw [if_pos rfl] at hall
    exact hall.cons_inv
  · have hall := htickets other
    rw [if_neg (Ne.symm hne)] at hall
    exact hall

/-- A request of a transaction queues for a key that the transaction does not hold. -/
theorem await (h : Custody queue held ended waiting) {w : Waiting}
    (hlive : ended w.ticket.handle = false) (hnot : w.key ∉ held w.ticket.handle)
    (hnew : ∀ other ∈ waiting, other.ticket.caller ≠ w.ticket.caller) :
    Custody (requeued queue w.key (queue w.key ++ [w.ticket])) held ended (waiting ++ [w]) where
  taken {handle key} hkey := by
    obtain ⟨hopen, caller, rest, hqueue, hrest⟩ := h.taken hkey
    refine ⟨hopen, caller, ?_⟩
    rw [tickets_concat, requeued]
    by_cases heq : key = w.key
    · subst heq
      rw [if_pos rfl, if_pos rfl, hqueue]
      exact ⟨rest ++ [w.ticket], rfl, hrest.append_right _⟩
    · rw [if_neg heq, if_neg (Ne.symm heq), List.append_nil]
      exact ⟨rest, hqueue, hrest⟩
  free {key} hfree := by
    rw [tickets_concat, requeued]
    by_cases heq : key = w.key
    · subst heq
      rw [if_pos rfl, if_pos rfl]
      exact (h.free hfree).append_right _
    · rw [if_neg heq, if_neg (Ne.symm heq), List.append_nil]
      exact h.free hfree
  once := h.once
  single key := by
    rw [requeued]
    split
    · rw [← List.concat_eq_append]
      refine (h.single w.key).concat fun hticket => ?_
      obtain ⟨other, hother, -, heq⟩ := h.waits_of_ticket hnot hticket
      exact hnew other hother (by rw [heq])
    · exact h.single key
  live other hother := by
    rcases List.mem_append.mp hother with hother | hother
    · exact h.live other hother
    · rw [List.mem_singleton.mp hother]
      exact hlive
  alone := by
    rw [List.map_append, List.map_singleton, ← List.concat_eq_append]
    refine h.alone.concat fun hcaller => ?_
    obtain ⟨other, hother, heq⟩ := List.mem_map.mp hcaller
    exact hnew other hother heq

/-- A transaction lets go of the key that it took last, and its ticket leaves the queue. -/
theorem release (h : Custody queue held ended waiting) {handle : Nat} {key : Key}
    {kept : List Key} (hheld : held handle = kept ++ [key]) :
    Custody (requeued queue key (queue key).tail) (Function.update held handle kept) ended
      waiting := by
  have honce := h.once handle
  rw [hheld] at honce
  have hkept : key ∉ kept := fun hmem => (List.disjoint_of_nodup_append honce) hmem
    (List.mem_singleton_self _)
  have hmine : key ∈ held handle := by
    rw [hheld]
    exact List.mem_append_right _ (List.mem_singleton_self _)
  have hstill : ∀ {owner other}, other ∈ Function.update held handle kept owner ↔
      other ∈ held owner ∧ other ≠ key := by
    intro owner other
    by_cases howner : owner = handle
    · subst howner
      rw [Function.update_self, hheld, List.mem_append, List.mem_singleton]
      constructor
      · exact fun hmem => ⟨Or.inl hmem, fun heq => hkept (heq ▸ hmem)⟩
      · exact fun ⟨hmem, hne⟩ => hmem.resolve_right hne
    · rw [Function.update_of_ne howner]
      exact ⟨fun hmem => ⟨hmem, fun heq => howner (h.exclusive (heq ▸ hmem) hmine)⟩, And.left⟩
  constructor
  case taken =>
    intro owner other hother
    obtain ⟨hother, hne⟩ := hstill.mp hother
    rw [requeued_of_ne hne]
    exact h.taken hother
  case free =>
    intro other hfree
    by_cases heq : other = key
    · obtain ⟨-, caller, rest, hqueue, hrest⟩ := h.taken hmine
      rw [heq, requeued_self, hqueue]
      exact hrest
    · rw [requeued_of_ne heq]
      exact h.free fun owner hother => hfree owner (hstill.mpr ⟨hother, heq⟩)
  case once =>
    intro owner
    by_cases howner : owner = handle
    · subst howner
      rw [Function.update_self]
      exact honce.of_append_left
    · rw [Function.update_of_ne howner]
      exact h.once owner
  case single =>
    intro other
    rw [requeued]
    split
    · exact (h.single key).tail
    · exact h.single other
  case live => exact h.live
  case alone => exact h.alone

/-- A transaction lets go of the last of its keys, one after the other. -/
theorem release_all {g : Registry} (hg : g.Proper) (h : Custody g.queue held ended waiting)
    {handle : Nat} {kept gone : List Key} (hheld : held handle = kept ++ gone) :
    (gone.reverse.foldl Registry.leave g).Proper ∧
      Custody (gone.reverse.foldl Registry.leave g).queue (Function.update held handle kept) ended
        waiting := by
  induction gone using List.reverseRecOn generalizing g held with
  | nil =>
      rw [List.append_nil] at hheld
      rw [← hheld, Function.update_eq_self]
      exact ⟨hg, h⟩
  | append_singleton gone key ih =>
      rw [← List.append_assoc] at hheld
      rw [List.reverse_append, List.reverse_singleton, List.singleton_append, List.foldl_cons]
      have hleft := h.release hheld
      have hqueue : (g.leave key).queue = requeued g.queue key (g.queue key).tail :=
        funext (Registry.queue_leave hg key)
      rw [← hqueue] at hleft
      have hrest := ih (Registry.proper_leave hg key) hleft (Function.update_self _ _ _)
      rw [Function.update_idem] at hrest
      exact hrest

/-- A transaction ends that holds nothing any more. -/
theorem retire (h : Custody queue held ended waiting) {handle : Nat}
    (hnothing : held handle = []) (hnobody : ∀ w ∈ waiting, w.ticket.handle ≠ handle) :
    Custody queue held (Function.update ended handle true) waiting where
  taken {owner key} hkey := by
    have hne : owner ≠ handle := by
      rintro rfl
      rw [hnothing] at hkey
      cases hkey
    rw [Function.update_of_ne hne]
    exact h.taken hkey
  free := h.free
  once := h.once
  single := h.single
  live w hw := by
    rw [Function.update_of_ne (hnobody w hw)]
    exact h.live w hw
  alone := h.alone

/-- The tickets of a key change places, behind a transaction that holds it. -/
theorem shuffle (h : Custody queue held ended waiting) {key : Key} {order : List Ticket}
    (hperm : (queue key).Perm order)
    (hfirst : ∀ {handle}, key ∈ held handle → order.head? = (queue key).head?) :
    Custody (requeued queue key order) held ended waiting where
  taken {handle other} hkey := by
    obtain ⟨hopen, caller, rest, hqueue, hrest⟩ := h.taken hkey
    refine ⟨hopen, caller, ?_⟩
    rw [requeued]
    split
    · next heq =>
        subst heq
        have hhead := hfirst hkey
        rw [hqueue] at hhead hperm
        obtain ⟨tail, rfl⟩ := List.head?_eq_some_iff.mp hhead
        exact ⟨tail, rfl, hperm.cons_inv.symm.trans hrest⟩
    · exact ⟨rest, hqueue, hrest⟩
  free {other} hfree := by
    rw [requeued]
    split
    · next heq =>
        subst heq
        exact hperm.symm.trans (h.free hfree)
    · exact h.free hfree
  once := h.once
  single other := by
    rw [requeued]
    split
    · exact hperm.nodup_iff.mp (h.single key)
    · exact h.single other
  live := h.live
  alone := h.alone

end Custody

end Bookable.Store
