import Bookable.Proofs.Store.Traffic
import Mathlib.Data.List.Pairwise

/-!
# The queues of a registry

A registry in good order has one lock for each key in use, and somebody in every
queue. All that matters of it is then the queue of each key, which is empty for a
key that nobody uses: a ticket that enters goes to the end of one queue, and a
ticket that leaves is taken from the front of one. Both leave every other queue as
it is and the registry in good order.
-/

namespace Bookable.Store

namespace Registry

/-- The tickets of a key, the holder first. -/
def queue (g : Registry) (key : Key) : List Ticket :=
  match g.lock? key with
  | some l => l.queue
  | none => []

/-- Every key has one lock at most, and every lock is in use. -/
structure Proper (g : Registry) : Prop where
  once : g.locks.Pairwise fun a b => a.key ≠ b.key
  used : ∀ l ∈ g.locks, l.queue ≠ []

/-! ## Queues and locks -/

theorem mem_of_lock? {g : Registry} {key : Key} {l : Lock} (h : g.lock? key = some l) :
    l ∈ g.locks ∧ l.key = key :=
  ⟨List.mem_of_find?_eq_some h, eq_of_beq (List.find?_some h :)⟩

theorem eq_of_key_eq {g : Registry} (hg : g.Proper) {a b : Lock} (ha : a ∈ g.locks)
    (hb : b ∈ g.locks) (h : a.key = b.key) : a = b := by
  by_contra hne
  have : Std.Symm fun a b : Lock => a.key ≠ b.key := ⟨fun _ _ h h' => h h'.symm⟩
  exact hg.once.forall ha hb hne h

theorem lock?_of_mem {g : Registry} (hg : g.Proper) {l : Lock} (hl : l ∈ g.locks) :
    g.lock? l.key = some l := by
  cases h : g.lock? l.key with
  | none =>
      exact absurd (List.find?_eq_none.mp h l hl) (by simp)
  | some l' =>
      obtain ⟨hl', hkey⟩ := mem_of_lock? h
      rw [eq_of_key_eq hg hl' hl hkey]

theorem queue_of_mem {g : Registry} (hg : g.Proper) {l : Lock} (hl : l ∈ g.locks) :
    g.queue l.key = l.queue := by
  rw [queue, lock?_of_mem hg hl]

theorem queue_of_notMem {g : Registry} {key : Key} (h : ∀ l ∈ g.locks, l.key ≠ key) :
    g.queue key = [] := by
  rw [queue]
  split
  · next l hl => exact absurd (mem_of_lock? hl).2 (h l (mem_of_lock? hl).1)
  · rfl

/-- A key has a lock exactly if somebody is in its queue. -/
theorem lock?_eq_none_iff {g : Registry} (hg : g.Proper) (key : Key) :
    g.lock? key = none ↔ g.queue key = [] := by
  rw [queue]
  split
  · next l hl =>
      rw [hl]
      exact ⟨fun h => (nomatch h), fun h => absurd h (hg.used l (mem_of_lock? hl).1)⟩
  · next hl => exact ⟨fun _ => rfl, fun _ => hl⟩

theorem locks_eq_nil {g : Registry} (hg : g.Proper) (h : ∀ key, g.queue key = []) :
    g.locks = [] := by
  rw [List.eq_nil_iff_forall_not_mem]
  intro l hl
  exact hg.used l hl ((queue_of_mem hg hl).symm.trans (h l.key))

theorem idle_of_locks {g : Registry} (h : g.locks = []) :
    g.Proper ∧ g.queue = fun _ => [] := by
  have hnone : ∀ l ∈ g.locks, False := by
    rw [h]
    exact fun l hl => absurd hl List.not_mem_nil
  refine ⟨⟨?_, fun l hl => (hnone l hl).elim⟩, ?_⟩
  · rw [h]
    exact List.Pairwise.nil
  · funext key
    exact queue_of_notMem fun l hl => (hnone l hl).elim

theorem isHeldBy_iff (g : Registry) (key : Key) (ticket : Ticket) :
    g.isHeldBy key ticket = true ↔ (g.queue key).head? = some ticket := by
  unfold isHeldBy queue
  cases g.lock? key with
  | some l => exact beq_iff_eq
  | none => exact ⟨fun h => (nomatch h), fun h => (nomatch h)⟩

/-! ## Queues that are replaced -/

/-- Registries with the same keys, and with the queues given by a function. -/
theorem proper_map {g : Registry} (hg : g.Proper) {f : Lock → List Ticket}
    (hf : ∀ l ∈ g.locks, f l ≠ []) (made : Nat) :
    (Registry.mk (g.locks.map fun l => { l with queue := f l }) made).Proper := by
  constructor
  · exact List.pairwise_map.mpr hg.once
  · intro l hl
    obtain ⟨l', hl', rfl⟩ := List.mem_map.mp hl
    exact hf l' hl'

theorem queue_map {g : Registry} (hg : g.Proper) {f : Lock → List Ticket}
    (hf : ∀ l ∈ g.locks, f l ≠ []) (made : Nat) {l : Lock} (hl : l ∈ g.locks) :
    (Registry.mk (g.locks.map fun l => { l with queue := f l }) made).queue l.key = f l :=
  queue_of_mem (proper_map hg hf made) (l := { l with queue := f l })
    (List.mem_map_of_mem (f := fun l : Lock => { l with queue := f l }) hl)

theorem queue_map_of_notMem {g : Registry} {f : Lock → List Ticket} (made : Nat) {key : Key}
    (h : ∀ l ∈ g.locks, l.key ≠ key) :
    (Registry.mk (g.locks.map fun l => { l with queue := f l }) made).queue key = [] := by
  refine queue_of_notMem fun l hl => ?_
  obtain ⟨l', hl', rfl⟩ := List.mem_map.mp hl
  exact h l' hl'

/-- Replacing the queue of one key, in a registry that has a lock for it. -/
theorem requeue {g : Registry} (hg : g.Proper) {key : Key} {f : Lock → List Ticket}
    (hf : ∀ l, f l ≠ []) {l : Lock} (hl : g.lock? key = some l) :
    let g' : Registry := { g with locks := g.locks.map fun l =>
      if l.key = key then { l with queue := f l } else l }
    g'.Proper ∧ ∀ other, g'.queue other = if other = key then f l else g.queue other := by
  obtain ⟨hmem, hkey⟩ := mem_of_lock? hl
  have hmap : g.locks.map (fun l => if l.key = key then { l with queue := f l } else l) =
      g.locks.map fun l => { l with queue := if l.key = key then f l else l.queue } := by
    refine List.map_congr_left fun l _ => ?_
    by_cases h : l.key = key
    · rw [if_pos h, if_pos h]
    · rw [if_neg h, if_neg h]
  have hne : ∀ l ∈ g.locks, (if l.key = key then f l else l.queue) ≠ [] := by
    intro l hl
    split
    · exact hf l
    · exact hg.used l hl
  simp only [hmap]
  refine ⟨proper_map hg hne g.made, fun other => ?_⟩
  by_cases hlock : ∃ l ∈ g.locks, l.key = other
  · obtain ⟨l', hl', rfl⟩ := hlock
    rw [queue_map hg hne g.made hl']
    by_cases heq : l'.key = key
    · rw [if_pos heq, if_pos heq, eq_of_key_eq hg hl' hmem (heq.trans hkey.symm)]
    · rw [if_neg heq, if_neg heq, queue_of_mem hg hl']
  · have hnone : ∀ l ∈ g.locks, l.key ≠ other := fun l hl h => hlock ⟨l, hl, h⟩
    rw [queue_map_of_notMem g.made hnone, queue_of_notMem hnone, if_neg]
    rintro rfl
    exact hnone l hmem hkey

/-! ## Entering and leaving -/

theorem enter_spec {g : Registry} (hg : g.Proper) (key : Key) (ticket : Ticket) :
    (g.enter key ticket).Proper ∧ ∀ other, (g.enter key ticket).queue other =
      if other = key then g.queue key ++ [ticket] else g.queue other := by
  rw [enter]
  cases hl : g.lock? key with
  | some l =>
      have hqueue : g.queue key = l.queue := by rw [queue, hl]
      rw [hqueue]
      exact requeue hg (f := fun l => l.queue ++ [ticket]) (by simp) hl
  | none =>
      have hqueue : g.queue key = [] := (lock?_eq_none_iff hg key).mp hl
      have hnone : ∀ l ∈ g.locks, l.key ≠ key := by
        intro l hmem h
        rw [← h, lock?_of_mem hg hmem] at hl
        cases hl
      have hproper : (Registry.mk (g.locks ++ [⟨key, g.made, [ticket]⟩]) (g.made + 1)).Proper := by
        constructor
        · refine List.pairwise_append.mpr ⟨hg.once, List.pairwise_singleton _ _, ?_⟩
          intro l hmem l' hl'
          rw [List.mem_singleton.mp hl']
          exact hnone l hmem
        · intro l hmem
          rcases List.mem_append.mp hmem with hmem | hmem
          · exact hg.used l hmem
          · rw [List.mem_singleton.mp hmem]
            exact List.cons_ne_nil _ _
      refine ⟨hproper, fun other => ?_⟩
      rw [hqueue]
      by_cases heq : other = key
      · subst heq
        rw [if_pos rfl]
        exact queue_of_mem hproper (l := ⟨other, g.made, [ticket]⟩)
          (List.mem_append_right _ (List.mem_singleton.mpr rfl))
      · rw [if_neg heq]
        by_cases hlock : ∃ l ∈ g.locks, l.key = other
        · obtain ⟨l, hmem, rfl⟩ := hlock
          rw [queue_of_mem hg hmem]
          exact queue_of_mem hproper (List.mem_append_left _ hmem)
        · have hother : ∀ l ∈ g.locks, l.key ≠ other := fun l hl h => hlock ⟨l, hl, h⟩
          rw [queue_of_notMem hother]
          refine queue_of_notMem fun l hmem h => ?_
          rcases List.mem_append.mp hmem with hmem | hmem
          · exact hother l hmem h
          · rw [List.mem_singleton.mp hmem] at h
            exact heq h.symm

/-- What is left of a lock when the holder of a key leaves. -/
def afterLeave (key : Key) (l : Lock) : Option Lock :=
  if l.key = key then
    match l.queue.drop 1 with
    | [] => none
    | rest => some { l with queue := rest }
  else some l

theorem afterLeave_eq_some {key : Key} {l l' : Lock} (h : afterLeave key l = some l') :
    l'.key = l.key ∧ l'.queue = (if l.key = key then l.queue.tail else l.queue) ∧
      (l.key = key → l'.queue ≠ []) := by
  rw [afterLeave] at h
  split at h
  · next hkey =>
      rw [if_pos hkey, ← List.drop_one]
      split at h
      · cases h
      · next hne =>
          cases h
          exact ⟨rfl, rfl, fun _ => hne⟩
  · next hkey =>
      cases h
      exact ⟨rfl, by rw [if_neg hkey], fun h => absurd h hkey⟩

theorem afterLeave_eq_none {key : Key} {l : Lock} (h : afterLeave key l = none) :
    l.key = key ∧ l.queue.tail = [] := by
  rw [afterLeave] at h
  split at h
  · next hkey =>
      split at h
      · next hnil => exact ⟨hkey, by rw [← List.drop_one, hnil]⟩
      · cases h
  · cases h

theorem proper_leave {g : Registry} (hg : g.Proper) (key : Key) : (g.leave key).Proper := by
  constructor
  · refine List.pairwise_filterMap.mpr (hg.once.imp ?_)
    intro a b hne a' ha' b' hb'
    rw [(afterLeave_eq_some ha').1, (afterLeave_eq_some hb').1]
    exact hne
  · intro l' hl'
    obtain ⟨l, hl, h⟩ := List.mem_filterMap.mp hl'
    obtain ⟨-, hqueue, hne⟩ := afterLeave_eq_some h
    by_cases hkey : l.key = key
    · exact hne hkey
    · rw [hqueue, if_neg hkey]
      exact hg.used l hl

theorem queue_leave {g : Registry} (hg : g.Proper) (key other : Key) :
    (g.leave key).queue other =
      if other = key then (g.queue key).tail else g.queue other := by
  have hproper := proper_leave hg key
  by_cases hlock : ∃ l ∈ g.locks, l.key = other
  · obtain ⟨l, hl, rfl⟩ := hlock
    cases hleft : afterLeave key l with
    | some l' =>
        obtain ⟨hkey, hqueue, -⟩ := afterLeave_eq_some hleft
        rw [← hkey, queue_of_mem hproper (List.mem_filterMap.mpr ⟨l, hl, hleft⟩), hqueue, hkey]
        by_cases heq : l.key = key
        · rw [if_pos heq, if_pos heq, ← heq, queue_of_mem hg hl]
        · rw [if_neg heq, if_neg heq, queue_of_mem hg hl]
    | none =>
        obtain ⟨heq, htail⟩ := afterLeave_eq_none hleft
        rw [if_pos heq, ← heq, queue_of_mem hg hl, htail]
        refine queue_of_notMem fun a' ha' h => ?_
        obtain ⟨a, ha, hstays⟩ := List.mem_filterMap.mp ha'
        rw [(afterLeave_eq_some hstays).1] at h
        rw [eq_of_key_eq hg ha hl h] at hstays
        have hleft' : afterLeave l.key l = none := by rw [heq, hleft]
        have hgone : none = some a' := hleft'.symm.trans hstays
        cases hgone
  · have hnone : ∀ l ∈ g.locks, l.key ≠ other := fun l hl h => hlock ⟨l, hl, h⟩
    rw [queue_of_notMem hnone]
    have hgone : (g.leave key).queue other = [] := by
      refine queue_of_notMem fun l' hl' h => ?_
      obtain ⟨l, hl, hstays⟩ := List.mem_filterMap.mp hl'
      exact hnone l hl ((afterLeave_eq_some hstays).1.symm.trans h)
    rw [hgone]
    split
    · next heq => rw [← heq, queue_of_notMem hnone, List.tail_nil]
    · rfl

/-- The holder leaves a number of keys, each of them once. -/
theorem leave_all {g : Registry} (hg : g.Proper) {keys : List Key} (hkeys : keys.Nodup) :
    (keys.foldl leave g).Proper ∧ ∀ other, (keys.foldl leave g).queue other =
      if other ∈ keys then (g.queue other).tail else g.queue other := by
  induction keys generalizing g with
  | nil => exact ⟨hg, fun other => by rw [if_neg List.not_mem_nil]; rfl⟩
  | cons key keys ih =>
      obtain ⟨hnotMem, hkeys⟩ := List.nodup_cons.mp hkeys
      obtain ⟨hproper, hqueue⟩ := ih (proper_leave hg key) hkeys
      refine ⟨hproper, fun other => ?_⟩
      rw [List.foldl_cons, hqueue other, queue_leave hg]
      by_cases heq : other = key
      · subst heq
        rw [if_neg hnotMem, if_pos rfl, if_pos List.mem_cons_self]
      · rw [if_neg heq]
        simp only [List.mem_cons, heq, false_or]

end Registry

namespace Machine

/-- A key is taken if its first ticket is that of a transaction that holds it. -/
theorem isTaken_iff {m : Machine} {key : Key} : m.isTaken key = true ↔
    ∃ t, (m.registry.queue key).head? = some t ∧ key ∈ (m.transaction t.handle).held := by
  have hholder : (m.registry.lock? key).bind Lock.holder? = (m.registry.queue key).head? := by
    rw [Registry.queue]
    cases m.registry.lock? key <;> rfl
  rw [isTaken, hholder]
  cases (m.registry.queue key).head? with
  | none => exact ⟨fun h => (nomatch h), fun ⟨_, h, _⟩ => (nomatch h)⟩
  | some t => simp only [decide_eq_true_eq, Option.some.injEq, exists_eq_left']

/-- Whether tickets can take the place of those of a key: they are the same ones in another order,
and a transaction that has come to hold the key stays in front. -/
def Admits (m : Machine) (key : Key) (tickets : List Ticket) : Prop :=
  (m.registry.queue key).Perm tickets ∧
    (m.isTaken key = true → tickets.head? = (m.registry.queue key).head?)

/-- Either the tickets of a key cannot be replaced, and nothing happens, or they are. -/
theorem reorder_spec {m : Machine} (hm : m.registry.Proper) (key : Key) (tickets : List Ticket) :
    (¬ m.Admits key tickets ∧ (m.reorder key tickets).registry = m.registry) ∨
      (m.Admits key tickets ∧ (m.reorder key tickets).registry.Proper ∧
        ∀ other, (m.reorder key tickets).registry.queue other =
          if other = key then tickets else m.registry.queue other) := by
  rw [reorder, Admits]
  cases hl : m.registry.lock? key with
  | none =>
      have hqueue : m.registry.queue key = [] := (Registry.lock?_eq_none_iff hm key).mp hl
      rw [hqueue, List.nil_perm]
      simp only []
      by_cases hnil : tickets = []
      · refine Or.inr ⟨⟨hnil, fun _ => congrArg _ hnil⟩, hm, fun other => ?_⟩
        split
        · next heq => rw [heq, hnil, hqueue]
        · rfl
      · exact Or.inl ⟨fun h => hnil h.1, trivial⟩
  | some l =>
      have hqueue : m.registry.queue key = l.queue := by rw [Registry.queue, hl]
      rw [hqueue, ← List.isPerm_iff]
      simp only []
      split
      · next h =>
          have hne : tickets ≠ [] := by
            rintro rfl
            exact hm.used l (Registry.mem_of_lock? hl).1 (List.isPerm_iff.mp h.1).eq_nil
          exact Or.inr ⟨h, Registry.requeue hm (f := fun _ => tickets) (fun _ => hne) hl⟩
      · next h => exact Or.inl ⟨h, rfl⟩

end Machine

end Bookable.Store
