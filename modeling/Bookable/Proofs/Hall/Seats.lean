import Bookable.Store.Registry
import Mathlib.Data.List.Nodup

/-!
# Seats and queues

Callers who work in transactions have seats: a seat knows its transaction, the keys
that the transaction holds and the key that the caller awaits. Seats and the queues
of the keys are arranged if every ticket in a queue is that of a seat that holds the
key or awaits it, and a seat that holds a key is first in its queue. Two seats then
never hold the same key.

What callers do to seats and queues are a few moves, and every one of them keeps the
arrangement.
-/

namespace Bookable.Store

/-- The place of a caller who works in a transaction. -/
structure Seat where
  handle : Nat
  held : List Key := []
  awaits : Option Key := none

/-- Seats with the one of a caller replaced. -/
def reseat (seats : Nat → Option Seat) (caller : Nat) (seat? : Option Seat) (other : Nat) :
    Option Seat :=
  if other = caller then seat? else seats other

/-- Queues with the one of a key replaced. -/
def requeued (queue : Key → List Ticket) (key : Key) (tickets : List Ticket) (other : Key) :
    List Ticket :=
  if other = key then tickets else queue other

@[simp] theorem reseat_self (seats : Nat → Option Seat) (caller : Nat) (seat? : Option Seat) :
    reseat seats caller seat? caller = seat? := if_pos rfl

theorem reseat_of_ne {seats : Nat → Option Seat} {caller other : Nat} {seat? : Option Seat}
    (h : other ≠ caller) : reseat seats caller seat? other = seats other := if_neg h

theorem reseat_cases {seats : Nat → Option Seat} {caller other : Nat} {seat? : Option Seat}
    {a : Seat} (h : reseat seats caller seat? other = some a) :
    (other = caller ∧ seat? = some a) ∨ (other ≠ caller ∧ seats other = some a) := by
  by_cases heq : other = caller
  · rw [heq, reseat_self] at h
    exact Or.inl ⟨heq, h⟩
  · rw [reseat_of_ne heq] at h
    exact Or.inr ⟨heq, h⟩

@[simp] theorem requeued_self (queue : Key → List Ticket) (key : Key) (tickets : List Ticket) :
    requeued queue key tickets key = tickets := if_pos rfl

theorem requeued_of_ne {queue : Key → List Ticket} {key other : Key} {tickets : List Ticket}
    (h : other ≠ key) : requeued queue key tickets other = queue other := if_neg h

/-- The seats and the queues fit. -/
structure Arranged (seats : Nat → Option Seat) (queue : Key → List Ticket) : Prop where
  apart : ∀ {i j a b}, seats i = some a → seats j = some b → a.handle = b.handle → i = j
  once : ∀ {i a}, seats i = some a → a.held.Nodup
  front : ∀ {i a key}, seats i = some a → key ∈ a.held →
    (queue key).head? = some ⟨i, a.handle⟩
  listed : ∀ {i a key}, seats i = some a → a.awaits = some key →
    ⟨i, a.handle⟩ ∈ queue key ∧ key ∉ a.held
  single : ∀ key, (queue key).Nodup
  owned : ∀ {key ticket}, ticket ∈ queue key → ∃ a, seats ticket.caller = some a ∧
    a.handle = ticket.handle ∧ (key ∈ a.held ∨ a.awaits = some key)

namespace Arranged

variable {seats : Nat → Option Seat} {queue : Key → List Ticket}

theorem nobody : Arranged (fun _ => none) (fun _ => []) where
  apart h := nomatch h
  once h := nomatch h
  front h := nomatch h
  listed h := nomatch h
  single _ := List.nodup_nil
  owned h := nomatch h

theorem exclusive (h : Arranged seats queue) {i j : Nat} {a b : Seat} {key : Key}
    (hi : seats i = some a) (hj : seats j = some b) (ha : key ∈ a.held) (hb : key ∈ b.held) :
    i = j := by
  have heads := (h.front hi ha).symm.trans (h.front hj hb)
  injection heads with heads
  injection heads

/-- Who holds a key has a ticket for it. -/
theorem mem_of_held (h : Arranged seats queue) {i : Nat} {a : Seat} {key : Key}
    (hi : seats i = some a) (hheld : key ∈ a.held) : ⟨i, a.handle⟩ ∈ queue key :=
  List.mem_of_mem_head? (h.front hi hheld)

theorem not_held_of_free (h : Arranged seats queue) {i : Nat} {a : Seat} {key : Key}
    (hi : seats i = some a) (hfree : queue key = []) : key ∉ a.held := by
  intro hheld
  have hmem := h.mem_of_held hi hheld
  rw [hfree] at hmem
  cases hmem

/-- A seat that awaits nothing has tickets for the keys that it holds only. -/
theorem held_of_ticket (h : Arranged seats queue) {i : Nat} {a : Seat} {key : Key}
    {handle : Nat} (hi : seats i = some a) (hidle : a.awaits = none)
    (hticket : ⟨i, handle⟩ ∈ queue key) : handle = a.handle ∧ key ∈ a.held := by
  obtain ⟨b, hb, hhandle, hb'⟩ := h.owned hticket
  rw [hi] at hb
  cases hb
  rcases hb' with hheld | hawaits
  · exact ⟨hhandle.symm, hheld⟩
  · rw [hidle] at hawaits
    cases hawaits

/-- Every seat was there before a caller's seat was replaced, with the same transaction. -/
theorem exists_of_reseat {i : Nat} {a a' : Seat} (hi : seats i = some a)
    (hhandle : a'.handle = a.handle) {j : Nat} {b : Seat}
    (hj : reseat seats i (some a') j = some b) :
    ∃ old, seats j = some old ∧ old.handle = b.handle := by
  rcases reseat_cases hj with ⟨hji, hj⟩ | ⟨-, hj⟩
  · cases hj
    exact ⟨a, by rw [hji, hi], hhandle.symm⟩
  · exact ⟨b, hj, rfl⟩

theorem apart_reseat (h : Arranged seats queue) {i : Nat} {a a' : Seat}
    (hi : seats i = some a) (hhandle : a'.handle = a.handle) {j l : Nat} {b c : Seat}
    (hj : reseat seats i (some a') j = some b) (hl : reseat seats i (some a') l = some c)
    (heq : b.handle = c.handle) : j = l := by
  obtain ⟨b', hb', hb⟩ := exists_of_reseat hi hhandle hj
  obtain ⟨c', hc', hc⟩ := exists_of_reseat hi hhandle hl
  exact h.apart hb' hc' (hb.trans (heq.trans hc.symm))

/-- A ticket of a seat is one of the seat that replaces it, if that seat has every key that the
first one holds or awaits. -/
theorem owned_reseat (h : Arranged seats queue) {i : Nat} {a a' : Seat}
    (hi : seats i = some a) (hhandle : a'.handle = a.handle)
    (hkeys : ∀ key, key ∈ a.held ∨ a.awaits = some key → key ∈ a'.held ∨ a'.awaits = some key)
    {key : Key} {ticket : Ticket} (hticket : ticket ∈ queue key) :
    ∃ b, reseat seats i (some a') ticket.caller = some b ∧ b.handle = ticket.handle ∧
      (key ∈ b.held ∨ b.awaits = some key) := by
  obtain ⟨b, hb, hb', huse⟩ := h.owned hticket
  by_cases hcaller : ticket.caller = i
  · rw [hcaller, hi] at hb
    cases hb
    exact ⟨a', by rw [hcaller, reseat_self], hhandle.trans hb', hkeys key huse⟩
  · exact ⟨b, by rw [reseat_of_ne hcaller, hb], hb', huse⟩

/-- A caller gets a seat, with a transaction that nobody else works in. -/
theorem sit (h : Arranged seats queue) {i handle : Nat} (hi : seats i = none)
    (hfresh : ∀ {j b}, seats j = some b → b.handle ≠ handle) :
    Arranged (reseat seats i (some { handle })) queue where
  apart {j l a b} hj hl heq := by
    rcases reseat_cases hj with ⟨hji, hj⟩ | ⟨-, hj⟩
    · rcases reseat_cases hl with ⟨hli, -⟩ | ⟨-, hl⟩
      · rw [hji, hli]
      · cases hj
        exact absurd heq.symm (hfresh hl)
    · rcases reseat_cases hl with ⟨-, hl⟩ | ⟨-, hl⟩
      · cases hl
        exact absurd heq (hfresh hj)
      · exact h.apart hj hl heq
  once hj := by
    rcases reseat_cases hj with ⟨-, hj⟩ | ⟨-, hj⟩
    · cases hj
      exact List.nodup_nil
    · exact h.once hj
  front hj hkey := by
    rcases reseat_cases hj with ⟨-, hj⟩ | ⟨-, hj⟩
    · cases hj
      cases hkey
    · exact h.front hj hkey
  listed hj hkey := by
    rcases reseat_cases hj with ⟨-, hj⟩ | ⟨-, hj⟩
    · cases hj
      cases hkey
    · exact h.listed hj hkey
  single := h.single
  owned hticket := by
    obtain ⟨a, ha, hrest⟩ := h.owned hticket
    refine ⟨a, ?_, hrest⟩
    rw [reseat_of_ne]
    · exact ha
    · rintro hcaller
      rw [hcaller, hi] at ha
      cases ha

/-- A caller takes hold of a key that nobody uses. -/
theorem seize (h : Arranged seats queue) {i : Nat} {a : Seat} (hi : seats i = some a)
    (hidle : a.awaits = none) {key : Key} (hfree : queue key = []) :
    Arranged (reseat seats i (some { a with held := a.held ++ [key] }))
      (requeued queue key [⟨i, a.handle⟩]) where
  apart hj hl heq := h.apart_reseat hi (by rfl) hj hl heq
  once hj := by
    rcases reseat_cases hj with ⟨-, hj⟩ | ⟨-, hj⟩
    · cases hj
      show (a.held ++ [key]).Nodup
      rw [← List.concat_eq_append]
      exact (h.once hi).concat (h.not_held_of_free hi hfree)
    · exact h.once hj
  front {j b held} hj hheld := by
    rcases reseat_cases hj with ⟨hji, hj⟩ | ⟨-, hj⟩
    · cases hj
      subst hji
      rcases List.mem_append.mp hheld with hold | hnew
      · rw [requeued_of_ne]
        · exact h.front (a := a) hi hold
        · intro heq
          rw [heq] at hold
          exact h.not_held_of_free hi hfree hold
      · cases List.mem_singleton.mp hnew
        rw [requeued_self, List.head?_cons]
    · rw [requeued_of_ne]
      · exact h.front hj hheld
      · intro heq
        rw [heq] at hheld
        exact h.not_held_of_free hj hfree hheld
  listed {j b awaited} hj hawaits := by
    rcases reseat_cases hj with ⟨-, hj⟩ | ⟨-, hj⟩
    · cases hj
      rw [hidle] at hawaits
      cases hawaits
    · obtain ⟨hmem, hnot⟩ := h.listed hj hawaits
      refine ⟨?_, hnot⟩
      rw [requeued_of_ne]
      · exact hmem
      · rintro rfl
        rw [hfree] at hmem
        cases hmem
  single other := by
    rw [requeued]
    split
    · exact List.pairwise_singleton _ _
    · exact h.single other
  owned {other ticket} hticket := by
    rw [requeued] at hticket
    split at hticket
    · next heq =>
        cases List.mem_singleton.mp hticket
        refine ⟨_, reseat_self _ _ _, rfl, Or.inl ?_⟩
        rw [heq]
        exact List.mem_append_right _ (List.mem_singleton.mpr rfl)
    · refine h.owned_reseat hi (by rfl) (fun used huse => ?_) hticket
      rcases huse with hheld | hawaits
      · exact Or.inl (List.mem_append_left _ hheld)
      · exact Or.inr hawaits

/-- A caller queues for a key that somebody else uses. -/
theorem await (h : Arranged seats queue) {i : Nat} {a : Seat} (hi : seats i = some a)
    (hidle : a.awaits = none) {key : Key} (hnot : key ∉ a.held) (hused : queue key ≠ []) :
    Arranged (reseat seats i (some { a with awaits := some key }))
      (requeued queue key (queue key ++ [⟨i, a.handle⟩])) where
  apart hj hl heq := h.apart_reseat hi (by rfl) hj hl heq
  once hj := by
    rcases reseat_cases hj with ⟨-, hj⟩ | ⟨-, hj⟩
    · cases hj
      exact h.once (a := a) hi
    · exact h.once hj
  front {j b held} hj hheld := by
    have hhead : (requeued queue key (queue key ++ [⟨i, a.handle⟩]) held).head? =
        (queue held).head? := by
      rw [requeued]
      split
      · next heq =>
          rw [heq]
          cases hqueue : queue key with
          | nil => exact absurd hqueue hused
          | cons first tickets => rfl
      · rfl
    rw [hhead]
    rcases reseat_cases hj with ⟨hji, hj⟩ | ⟨-, hj⟩
    · cases hj
      rw [hji]
      exact h.front (a := a) hi hheld
    · exact h.front hj hheld
  listed {j b awaited} hj hawaits := by
    rcases reseat_cases hj with ⟨hji, hj⟩ | ⟨-, hj⟩
    · cases hj
      cases hawaits
      rw [hji, requeued_self]
      exact ⟨List.mem_append_right _ (List.mem_singleton.mpr rfl), hnot⟩
    · obtain ⟨hmem, hheld⟩ := h.listed hj hawaits
      refine ⟨?_, hheld⟩
      rw [requeued]
      split
      · next heq =>
          rw [← heq]
          exact List.mem_append_left _ hmem
      · exact hmem
  single other := by
    rw [requeued]
    split
    · rw [← List.concat_eq_append]
      exact (h.single key).concat fun hticket => hnot (h.held_of_ticket hi hidle hticket).2
    · exact h.single other
  owned {other ticket} hticket := by
    rw [requeued] at hticket
    have hkeys : ∀ used, used ∈ a.held ∨ a.awaits = some used →
        used ∈ a.held ∨ some key = some used := by
      rintro used (hheld | hawaits)
      · exact Or.inl hheld
      · rw [hidle] at hawaits
        cases hawaits
    have hold : ∀ {ticket}, ticket ∈ queue other →
        ∃ b, reseat seats i (some { a with awaits := some key }) ticket.caller = some b ∧
          b.handle = ticket.handle ∧ (other ∈ b.held ∨ b.awaits = some other) := by
      intro ticket hold
      exact h.owned_reseat hi (by rfl) hkeys hold
    split at hticket
    · next heq =>
        subst heq
        rcases List.mem_append.mp hticket with hticket | hticket
        · exact hold hticket
        · cases List.mem_singleton.mp hticket
          exact ⟨_, reseat_self _ _ _, rfl, Or.inr rfl⟩
    · exact hold hticket

/-- The first in a queue gets the key that it awaits. -/
theorem grant (h : Arranged seats queue) {i : Nat} {a : Seat} (hi : seats i = some a)
    {key : Key} (hawaits : a.awaits = some key)
    (hhead : (queue key).head? = some ⟨i, a.handle⟩) :
    Arranged (reseat seats i (some { a with held := a.held ++ [key], awaits := none }))
      queue where
  apart hj hl heq := h.apart_reseat hi (by rfl) hj hl heq
  once hj := by
    rcases reseat_cases hj with ⟨-, hj⟩ | ⟨-, hj⟩
    · cases hj
      show (a.held ++ [key]).Nodup
      rw [← List.concat_eq_append]
      exact (h.once hi).concat (h.listed hi hawaits).2
    · exact h.once hj
  front {j b held} hj hheld := by
    rcases reseat_cases hj with ⟨hji, hj⟩ | ⟨-, hj⟩
    · cases hj
      rw [hji]
      rcases List.mem_append.mp hheld with hold | hnew
      · exact h.front (a := a) hi hold
      · cases List.mem_singleton.mp hnew
        exact hhead
    · exact h.front hj hheld
  listed {j b awaited} hj hb := by
    rcases reseat_cases hj with ⟨-, hj⟩ | ⟨-, hj⟩
    · cases hj
      cases hb
    · exact h.listed hj hb
  single := h.single
  owned {other ticket} hticket := by
    refine h.owned_reseat hi (by rfl) (fun used huse => Or.inl ?_) hticket
    rcases huse with hheld | hother
    · exact List.mem_append_left _ hheld
    · rw [hawaits] at hother
      cases hother
      exact List.mem_append_right _ (List.mem_singleton.mpr rfl)

/-- A caller leaves, and with it the first ticket of every key that it holds. -/
theorem leave (h : Arranged seats queue) {i : Nat} {a : Seat} (hi : seats i = some a)
    (hidle : a.awaits = none) :
    Arranged (reseat seats i none)
      (fun key => if key ∈ a.held then (queue key).tail else queue key) where
  apart {j l b c} hj hl heq := by
    rcases reseat_cases hj with ⟨-, hj⟩ | ⟨-, hj⟩
    · cases hj
    · rcases reseat_cases hl with ⟨-, hl⟩ | ⟨-, hl⟩
      · cases hl
      · exact h.apart hj hl heq
  once hj := by
    rcases reseat_cases hj with ⟨-, hj⟩ | ⟨-, hj⟩
    · cases hj
    · exact h.once hj
  front {j b key} hj hheld := by
    rcases reseat_cases hj with ⟨-, hj⟩ | ⟨hne, hj⟩
    · cases hj
    · rw [if_neg fun hmine => hne (h.exclusive hj hi hheld hmine)]
      exact h.front hj hheld
  listed {j b key} hj hawaits := by
    rcases reseat_cases hj with ⟨-, hj⟩ | ⟨hne, hj⟩
    · cases hj
    · obtain ⟨hmem, hnot⟩ := h.listed hj hawaits
      refine ⟨?_, hnot⟩
      split
      · next hmine =>
          have hhead := h.front hi hmine
          obtain ⟨tickets, hqueue⟩ := List.head?_eq_some_iff.mp hhead
          rw [hqueue] at hmem ⊢
          rcases List.mem_cons.mp hmem with heq | hmem
          · injection heq with hcaller
            exact absurd hcaller hne
          · exact hmem
      · exact hmem
  single key := by
    split
    · exact (h.single key).tail
    · exact h.single key
  owned {key ticket} hticket := by
    have hmem : ticket ∈ queue key := by
      split at hticket
      · exact List.mem_of_mem_tail hticket
      · exact hticket
    obtain ⟨b, hb, hhandle, huse⟩ := h.owned hmem
    refine ⟨b, ?_, hhandle, huse⟩
    rw [reseat_of_ne, hb]
    -- The caller has no ticket left: the one of a key that it held was the first.
    intro hcaller
    rw [hcaller, hi] at hb
    cases hb
    have hmine : key ∈ a.held := by
      rcases huse with hheld | hawaits
      · exact hheld
      · rw [hidle] at hawaits
        cases hawaits
    rw [if_pos hmine] at hticket
    have hsingle := h.single key
    obtain ⟨tickets, hqueue⟩ := List.head?_eq_some_iff.mp (h.front hi hmine)
    rw [hqueue, hhandle, ← hcaller] at hsingle
    rw [hqueue] at hticket
    exact (List.nodup_cons.mp hsingle).1 hticket

/-- The tickets of a key change places, behind a seat that holds it. -/
theorem shuffle (h : Arranged seats queue) {key : Key} {tickets : List Ticket}
    (hperm : (queue key).Perm tickets)
    (hfirst : ∀ {i a}, seats i = some a → key ∈ a.held →
      tickets.head? = (queue key).head?) :
    Arranged seats (requeued queue key tickets) where
  apart := h.apart
  once := h.once
  front {i a held} hi hheld := by
    rw [requeued]
    split
    · next heq =>
        subst heq
        rw [hfirst hi hheld]
        exact h.front hi hheld
    · exact h.front hi hheld
  listed {i a awaited} hi hawaits := by
    obtain ⟨hmem, hnot⟩ := h.listed hi hawaits
    refine ⟨?_, hnot⟩
    rw [requeued]
    split
    · next heq =>
        subst heq
        exact hperm.mem_iff.mp hmem
    · exact hmem
  single other := by
    rw [requeued]
    split
    · exact hperm.nodup_iff.mp (h.single key)
    · exact h.single other
  owned {other ticket} hticket := by
    rw [requeued] at hticket
    split at hticket
    · next heq =>
        subst heq
        exact h.owned (hperm.mem_iff.mpr hticket)
    · exact h.owned hticket

end Arranged

end Bookable.Store
