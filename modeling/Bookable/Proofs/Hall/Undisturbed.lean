import Bookable.Proofs.Hall.Accounts
import Bookable.Proofs.Hall.Owners
import Bookable.Proofs.Store.Mirror

/-!
# Users who do not disturb each other

What is left of a run when the calls of all users but one are deleted with all their
turns is again a run. The calls that are left are numbered anew, and so are the
transactions that they open; every other datum of an event is kept, the stamps of turns
among them. A turn that is none in the whole run, since the identifier that it is
offered is in use, is not there to be kept: it may have been in use by a record of
somebody else.

`Hall.Mirrors` relates the two runs, event by event: the calls that are left stand where
they stand in the whole run, on a machine that mirrors the user's part of the whole one.
An event of somebody else does nothing to that part, and an event of the user does the
same on both sides.

A cancellation counts among the calls of the owner of its booking. Who that is is given
for the whole run, since a call may come before its booking; `Hall.exists_owner` says
that there is always such a choice.
-/

namespace Bookable

namespace Store

variable {α : Type} {owner : String → String} {user : String} {n n' : Numbers}

/-! ## New numbers -/

def Place.renumbered (n : Numbers) (place : Place) : Place :=
  { place with handle := n.handles.idxOf place.handle }

/-- Where a program stands, with the new number of its transaction. -/
def Stage.renumbered (n : Numbers) : Stage α → Stage α
  | .active p place? => .active p (place?.map (·.renumbered n))
  | .waiting key request next place => .waiting key request next (place.renumbered n)
  | .ended result => .ended result

def Visit.renumbered (n : Numbers) (v : Visit) : Visit :=
  { v with stage := v.stage.renumbered n }

/-- The numbers after a turn of a call that is kept. A transaction that it opens is kept too. -/
def Numbers.after (n : Numbers) (s : Stage α) (m : Machine) : Numbers :=
  match s with
  | .active (.opening _) _ => { n with handles := n.handles ++ [m.begin.1] }
  | _ => n

theorem Numbers.within_after (n : Numbers) (s : Stage α) (m : Machine) :
    n.Within (n.after s m) := by
  unfold after
  split
  · exact ⟨List.prefix_refl _, List.prefix_append _ _⟩
  · exact ⟨List.prefix_refl _, List.prefix_refl _⟩

theorem Numbers.callers_after (n : Numbers) (s : Stage α) (m : Machine) :
    (n.after s m).callers = n.callers := by
  unfold after
  split <;> rfl

/-- Only the transaction that is opened gets a number. -/
theorem Numbers.mem_handles_after {s : Stage α} {m : Machine} {handle : Nat}
    (h : handle < m.transactions.length) :
    handle ∈ (n.after s m).handles ↔ handle ∈ n.handles := by
  unfold after
  split
  · show handle ∈ n.handles ++ [m.transactions.length] ↔ _
    rw [List.mem_append, List.mem_singleton, or_iff_left (Nat.ne_of_lt h)]
  · exact Iff.rfl

theorem Numbers.Within.place (h : n.Within n') {place : Place} (hplace : place.handle ∈ n.handles) :
    place.renumbered n' = place.renumbered n := by
  rw [Place.renumbered, Place.renumbered, Numbers.idxOf_of_prefix h.2 hplace]

/-- Further numbers make no difference to what has a number. -/
theorem Numbers.Within.stage (h : n.Within n') {s : Stage α}
    (hs : ∀ place, s.place? = some place → place.handle ∈ n.handles) :
    s.renumbered n' = s.renumbered n := by
  cases s with
  | ended result => rfl
  | active p place? =>
      cases place? with
      | none => rfl
      | some place =>
          exact congrArg (fun place => Stage.active p (some place)) (h.place (hs place rfl))
  | waiting key request next place =>
      exact congrArg (Stage.waiting key request next) (h.place (hs place rfl))

/-! ## A turn of the user's -/

/-- A program works in the transaction that it has worked in, or in one that it has opened. -/
theorem Stage.place?_step {s : Stage α} {m : Machine} {caller : Nat} {stamp : Stamp}
    {place : Place} (h : (s.step caller stamp m).1.place? = some place) :
    s.place? = some place ∨
      ∃ next place?, s = .active (.opening next) place? ∧ place.handle = m.begin.1 := by
  cases s with
  | ended result => cases h
  | active p place? =>
      cases p with
      | done a => cases h
      | fail cause => cases h
      | opening next =>
          cases h
          exact Or.inr ⟨next, place?, rfl, rfl⟩
      | ask request next =>
          cases place? with
          | none => cases h
          | some own =>
              rw [step] at h
              left
              split at h <;> exact h
      | closing next =>
          cases place? with
          | none => cases h
          | some own =>
              rw [step] at h
              split at h <;> cases h
  | waiting key request next own =>
      rw [step] at h
      left
      split at h <;> exact h

/-- A turn for the user does in the mirror what it does in the machine. -/
theorem Machine.Mirrors.step {peers : Peers} {pledge : Pledge α} {m m' : Machine}
    (h : m.Mirrors owner user n m') {caller : Nat} (hcaller : caller ∈ n.callers) {s : Stage α}
    (hplaces : ∀ place, s.place? = some place → place.handle ∈ n.handles)
    (hkeeps : s.Keeps peers pledge m) (hof : s.Of owner user m) {names : List String}
    (haccounted : m.Accounted names) (howned : m.records.Owned owner)
    (honce : ∀ place, s.place? = some place → (m.transaction place.handle).held.Nodup)
    (stamp : Stamp) :
    ((s.renumbered n).step (n.callers.idxOf caller) stamp m').1 =
        (s.step caller stamp m).1.renumbered (n.after s m) ∧
      (s.step caller stamp m).2.Mirrors owner user (n.after s m)
        ((s.renumbered n).step (n.callers.idxOf caller) stamp m').2 := by
  have hserves : ∀ place, s.place? = some place → m.Serves owner user place.handle :=
    fun place hplace => ⟨hof.place hplace, haccounted.changes _, haccounted.rules.recorded_once,
      howned⟩
  cases s with
  | ended result => exact ⟨rfl, h⟩
  | active p place? =>
      cases p with
      | done a => exact ⟨rfl, h⟩
      | fail cause =>
          rcases place? with _ | ⟨handle, _ | _⟩
          · exact ⟨rfl, h⟩
          · exact ⟨rfl, h⟩
          · exact ⟨rfl, h.rollback (hplaces _ rfl) (honce _ rfl)⟩
      | opening next =>
          refine ⟨?_, h.begin⟩
          have hnew : m.transactions.length ∉ n.handles :=
            fun hmem => absurd (h.opened _ hmem) (Nat.lt_irrefl _)
          have hnumber : (n.handles ++ [m.transactions.length]).idxOf m.transactions.length =
              m'.transactions.length := by
            rw [List.idxOf_append_of_notMem hnew, List.idxOf_cons_self, h.transactions,
              List.length_map, Nat.add_zero]
          show Stage.active next (some ⟨m'.transactions.length, true⟩) =
            .active next (some ⟨(n.handles ++ [m.transactions.length]).idxOf
              m.transactions.length, true⟩)
          rw [hnumber]
      | ask request next =>
          cases place? with
          | none => exact ⟨rfl, h⟩
          | some place =>
              have ht : n.Keeps ⟨caller, place.handle⟩ := ⟨hcaller, hplaces place rfl⟩
              rcases h.ask ht (hserves place rfl) hof.1.1 stamp with
                ⟨reply, m₁, m₂, hask, hask', hmirrors⟩ | ⟨key, m₁, m₂, hask, hask', hmirrors⟩
              · change m'.ask stamp (n.callers.idxOf caller) (place.renumbered n).handle request = _
                  at hask'
                simp only [Stage.renumbered, Option.map_some, Stage.step, hask, hask']
                exact ⟨rfl, hmirrors⟩
              · change m'.ask stamp (n.callers.idxOf caller) (place.renumbered n).handle request = _
                  at hask'
                simp only [Stage.renumbered, Option.map_some, Stage.step, hask, hask']
                exact ⟨rfl, hmirrors⟩
      | closing next =>
          cases place? with
          | none => exact ⟨rfl, h⟩
          | some place =>
              have hlive := hkeeps.1.2
              obtain ⟨houtcome, hmirrors⟩ := h.commit (hplaces place rfl) (hserves place rfl)
                (honce place rfl) hlive (haccounted.distinct_view hlive)
                (haccounted.publish_eq_view hlive)
              simp only [Stage.renumbered, Option.map_some, Stage.step]
              rcases hcommit : m.commit place.handle with ⟨result, woken, m₁⟩
              rcases hcommit' : m'.commit (place.renumbered n).handle with ⟨result', woken', m₂⟩
              rw [show m'.commit (n.handles.idxOf place.handle) = _ from hcommit', hcommit]
                at houtcome hmirrors
              obtain rfl : result' = result := houtcome
              cases result' with
              | ok done => exact ⟨rfl, hmirrors⟩
              | error cause => exact ⟨rfl, hmirrors⟩
  | waiting key request next place =>
      obtain ⟨-, hkey, -, -⟩ := hkeeps
      have ht : n.Keeps ⟨caller, place.handle⟩ := ⟨hcaller, hplaces place rfl⟩
      have hfront := h.registry.isHeldBy ((user_keyOf? hkey).trans hof.1.1) ht
      obtain ⟨hreply, hmirrors⟩ := h.resume (hplaces place rfl) (hserves place rfl) hkey hof.1.1
        stamp
      simp only [Stage.renumbered, Stage.step]
      rw [show m'.registry.isHeldBy key ⟨n.callers.idxOf caller, (place.renumbered n).handle⟩ =
        _ from hfront]
      split
      · exact ⟨congrArg (fun reply => Stage.active (next reply) _) hreply, hmirrors⟩
      · exact ⟨rfl, h⟩

/-! ## A turn of somebody else's -/

/-- A turn for another user does nothing to what is mirrored. -/
theorem Machine.Mirrors.step_others {peers : Peers} {pledge : Pledge α} {m m' : Machine}
    (h : m.Mirrors owner user n m') (caller : Nat) {s : Stage α}
    (hplaces : ∀ place, s.place? = some place → place.handle ∉ n.handles)
    (hkeeps : s.Keeps peers pledge m) {other : String} (hother : other ≠ user)
    (hof : s.Of owner other m) {names : List String} (haccounted : m.Accounted names)
    (howned : m.records.Owned owner)
    (honce : ∀ place, s.place? = some place → (m.transaction place.handle).held.Nodup)
    (stamp : Stamp) (hproper : (s.step caller stamp m).2.registry.Proper) :
    (s.step caller stamp m).2.Mirrors owner user n m' := by
  refine h.frame ?_ (s.length_step m caller stamp) (fun handle hmem => ?_) hproper
    fun key hkey => ?_
  · rcases s.records_step m caller stamp with
      ⟨-, hrecords⟩ | ⟨next, place, rfl, -, -, hrecords⟩
    · rw [hrecords]
    · rw [hrecords, haccounted.publish_eq_view hkeeps.1.2]
      exact (hof.2 place rfl).part_view_of_ne hother (haccounted.changes _)
        haccounted.rules.recorded_once howned
  · refine Stage.transaction_step caller stamp (h.opened handle hmem) fun place hplace heq => ?_
    rw [heq] at hmem
    exact hplaces place hplace hmem
  · exact hof.queue_step h.registry.proper honce caller stamp (hkey.trans_ne hother.symm)

/-! ## What is left of a run -/

/-- A run, and what is left of it when only certain calls are kept: the events, with the numbers
that the calls and their transactions have in the whole run. -/
structure Excerpt extends Numbers where
  whole : Hall := {}
  events : List Event := []

namespace Excerpt

/-- What is left of the next event, with the numbers after it. A turn that is none is not kept, and
neither are tickets of which some are not. -/
def keep? (mine : Call → Bool) (x : Excerpt) : Event → Option (Numbers × Event)
  | .call call =>
      if mine call then
        some ({ x.toNumbers with callers := x.callers ++ [x.whole.visits.length] }, .call call)
      else none
  | .turn stamp caller =>
      match x.whole.visits[caller]? with
      | none => none
      | some v =>
          if caller ∈ x.callers ∧ x.whole.machine.inUse stamp.id = false then
            some (x.after v.stage x.whole.machine, .turn stamp (x.callers.idxOf caller))
          else none
  | .reorder key tickets =>
      if ∀ t ∈ tickets, x.Keeps t then
        some (x.toNumbers, .reorder key (tickets.map x.ticket))
      else none

def take (mine : Call → Bool) (x : Excerpt) (event : Event) : Excerpt :=
  match x.keep? mine event with
  | none => { x with whole := x.whole.take event }
  | some (numbers, kept) =>
      { toNumbers := numbers, whole := x.whole.take event, events := x.events ++ [kept] }

def run (mine : Call → Bool) (events : List Event) : Excerpt := events.foldl (take mine) {}

/-- What is left of a run when the calls of all users but one are deleted. -/
def ofUser (owner : String → String) (user : String) (events : List Event) : Excerpt :=
  run (fun call => call.user owner == user) events

theorem run_concat (mine : Call → Bool) (past : List Event) (event : Event) :
    run mine (past ++ [event]) = (run mine past).take mine event := by
  rw [run, List.foldl_append]
  rfl

theorem whole_run (mine : Call → Bool) (events : List Event) :
    (run mine events).whole = Hall.run {} events := by
  induction events using List.reverseRecOn with
  | nil => rfl
  | append_singleton past event ih =>
      have htake : ((run mine past).take mine event).whole = (run mine past).whole.take event := by
        rw [take]
        split <;> rfl
      rw [run_concat, htake, ih, Hall.run_append]
      rfl

/-- What is left of a run begins with what is left of its beginning. -/
theorem events_run (mine : Call → Bool) (past rest : List Event) :
    (run mine past).events <+: (run mine (past ++ rest)).events := by
  induction rest using List.reverseRecOn with
  | nil => simp only [List.append_nil, List.prefix_refl]
  | append_singleton before event ih =>
      rw [← List.append_assoc, run_concat]
      refine ih.trans ?_
      rw [take]
      split
      · exact List.prefix_refl _
      · exact List.prefix_append _ _

/-- The calls that are left are those that are to be kept. -/
theorem calls_run (mine : Call → Bool) (events : List Event) :
    (run mine events).events.filterMap Event.call? =
      (events.filterMap Event.call?).filter mine := by
  induction events using List.reverseRecOn with
  | nil => rfl
  | append_singleton past event ih =>
      rw [run_concat, List.filterMap_append, List.filter_append, ← ih, take]
      cases event with
      | call call =>
          rw [keep?]
          by_cases hmine : mine call = true
          · rw [if_pos hmine]
            simp [Event.call?, hmine]
          · rw [if_neg hmine]
            simp [Event.call?, hmine]
      | turn stamp caller =>
          rw [keep?]
          split
          · exact (List.append_nil _).symm
          · next hkept =>
              split at hkept
              · cases hkept
              · split at hkept
                · cases hkept
                  exact List.filterMap_append
                · cases hkept
      | reorder key tickets =>
          rw [keep?]
          split
          · exact (List.append_nil _).symm
          · next hkept =>
              split at hkept
              · cases hkept
                exact List.filterMap_append
              · cases hkept

end Excerpt

/-! ## Mirrored halls -/

/-- The calls of a user, with new numbers, are all the calls in another hall, and its machine
mirrors the user's part of the first one. -/
structure Hall.Mirrors (owner : String → String) (user : String) (n : Numbers) (h h' : Hall) :
    Prop where
  machine : h.machine.Mirrors owner user n h'.machine
  known : ∀ caller ∈ n.callers, caller < h.visits.length
  length : h'.visits.length = n.callers.length
  kept : ∀ {caller : Nat} {v : Visit}, h.visits[caller]? = some v →
    (caller ∈ n.callers ↔ v.call.user owner = user)
  places : ∀ {caller : Nat} {v : Visit} {place : Place}, h.visits[caller]? = some v →
    v.stage.place? = some place → (place.handle ∈ n.handles ↔ caller ∈ n.callers)
  visits : ∀ {caller : Nat} {v : Visit}, h.visits[caller]? = some v → caller ∈ n.callers →
    h'.visits[n.callers.idxOf caller]? = some (v.renumbered n)

/-- What is not in use in a machine is not in use in its mirror. -/
theorem Machine.Mirrors.inUse {m m' : Machine} (h : m.Mirrors owner user n m') {id : String}
    (hid : m.inUse id = false) : m'.inUse id = false := by
  simp only [Machine.inUse, Bool.or_eq_false_iff, List.any_eq_false] at hid ⊢
  obtain ⟨⟨hrules, hbookings⟩, htransactions⟩ := hid
  rw [h.records, h.transactions]
  refine ⟨⟨fun rule hrule => ?_, fun b hb => ?_⟩, fun t ht => ?_⟩
  · exact hrules rule (Records.mem_part_rules.mp hrule).1
  · exact hbookings b (Records.mem_part_bookings.mp hb).1
  · obtain ⟨handle, hmem, rfl⟩ := List.mem_map.mp ht
    have hlt := h.opened handle hmem
    rw [Machine.transaction, List.getElem?_eq_getElem hlt]
    exact htransactions _ (List.getElem_mem hlt)

namespace Hall

/-- Nobody holds a key twice. -/
theorem Fair.once {peers : Peers} {pledge : Call → Pledge Answer} {r : Records} {h : Hall}
    (hf : h.Fair peers pledge r) {caller : Nat} {v : Visit} (hv : h.visits[caller]? = some v)
    {place : Place} (hplace : v.stage.place? = some place) :
    (h.machine.transaction place.handle).held.Nodup := by
  obtain ⟨a, ha, -, hheld⟩ := Stage.seat?_of_place? hplace h.machine
  rw [← hheld]
  exact hf.orderly.arranged.once ((seat?_eq hv).trans ha)

namespace Mirrors

variable {h h' : Hall}

/-- The places of the calls that are kept are kept. -/
theorem placed (hm : h.Mirrors owner user n h') {caller : Nat} {v : Visit}
    (hv : h.visits[caller]? = some v) (hcaller : caller ∈ n.callers) :
    ∀ place, v.stage.place? = some place → place.handle ∈ n.handles :=
  fun _ hplace => (hm.places hv hplace).mpr hcaller

theorem empty : ({} : Hall).Mirrors owner user {} {} where
  machine := ⟨rfl, rfl, List.nodup_nil, fun _ hmem => absurd hmem List.not_mem_nil,
    ⟨(Registry.idle_of_locks rfl).1, (Registry.idle_of_locks rfl).1, fun _ _ => rfl,
      fun _ _ => rfl, fun _ _ _ ht => absurd ht List.not_mem_nil⟩⟩
  known _ hmem := absurd hmem List.not_mem_nil
  length := rfl
  kept hv := nomatch hv
  places hv := nomatch hv
  visits hv := nomatch hv

theorem call (hm : h.Mirrors owner user n h') {call : Call} (hcall : call.user owner = user) :
    (h.take (.call call)).Mirrors owner user
      { n with callers := n.callers ++ [h.visits.length] } (h'.take (.call call)) := by
  have hwithin : n.Within { n with callers := n.callers ++ [h.visits.length] } :=
    ⟨List.prefix_append _ _, List.prefix_refl _⟩
  have hold : ∀ {caller : Nat} {v : Visit}, h.visits[caller]? = some v →
      (caller ∈ n.callers ++ [h.visits.length] ↔ caller ∈ n.callers) := by
    intro caller v hv
    have hlt := (List.getElem?_eq_some_iff.mp hv).1
    rw [List.mem_append, List.mem_singleton, or_iff_left (Nat.ne_of_lt hlt)]
  have hlast : h.visits.length ∈ n.callers ++ [h.visits.length] :=
    List.mem_append_right _ (List.mem_singleton_self _)
  have hnew : h.visits.length ∉ n.callers := fun hmem => absurd (hm.known _ hmem) (Nat.lt_irrefl _)
  refine ⟨?_, fun caller hmem => ?_, ?_, fun {caller v} hv => ?_, fun {caller v place} hv hplace => ?_,
    fun {caller v} hv hmem => ?_⟩
  · exact ⟨hm.machine.records, hm.machine.transactions, hm.machine.once, hm.machine.opened,
      hm.machine.registry.renumber hwithin⟩
  · show caller < (h.visits ++ [_]).length
    rw [List.length_append, List.length_singleton]
    rcases List.mem_append.mp hmem with hmem | hmem
    · exact Nat.lt_succ_of_lt (hm.known caller hmem)
    · rw [List.mem_singleton.mp hmem]
      exact Nat.lt_succ_self _
  · show (h'.visits ++ [_]).length = (n.callers ++ [_]).length
    rw [List.length_append, List.length_append, hm.length]
    rfl
  · rcases visits_call hv with hv | ⟨rfl, rfl⟩
    · exact (hold hv).trans (hm.kept hv)
    · exact iff_of_true hlast hcall
  · rcases visits_call hv with hv | ⟨-, rfl⟩
    · exact (hm.places hv hplace).trans (hold hv).symm
    · cases hplace
  · show (h'.visits ++ [_])[(n.callers ++ [h.visits.length]).idxOf caller]? = _
    rcases visits_call hv with hv | ⟨rfl, rfl⟩
    · have hmem := (hold hv).mp hmem
      have hlt := List.idxOf_lt_length_of_mem hmem
      rw [List.idxOf_append_of_mem hmem, List.getElem?_append_left (hm.length ▸ hlt),
        hm.visits hv hmem, Visit.renumbered, Visit.renumbered, hwithin.stage (hm.placed hv hmem)]
    · rw [List.idxOf_append_of_notMem hnew, List.idxOf_cons_self, Nat.add_zero, ← hm.length,
        List.getElem?_concat_length]
      rfl

theorem call_others (hm : h.Mirrors owner user n h') {call : Call}
    (hcall : call.user owner ≠ user) : (h.take (.call call)).Mirrors owner user n h' := by
  have hnew : h.visits.length ∉ n.callers := fun hmem => absurd (hm.known _ hmem) (Nat.lt_irrefl _)
  refine ⟨hm.machine, fun caller hmem => ?_, hm.length, fun {caller v} hv => ?_,
    fun {caller v place} hv hplace => ?_, fun {caller v} hv hmem => ?_⟩
  · show caller < (h.visits ++ [_]).length
    rw [List.length_append]
    exact Nat.lt_of_lt_of_le (hm.known caller hmem) (Nat.le_add_right _ _)
  · rcases visits_call hv with hv | ⟨rfl, rfl⟩
    · exact hm.kept hv
    · exact iff_of_false hnew hcall
  · rcases visits_call hv with hv | ⟨-, rfl⟩
    · exact hm.places hv hplace
    · cases hplace
  · rcases visits_call hv with hv | ⟨rfl, rfl⟩
    · exact hm.visits hv hmem
    · exact absurd hmem hnew

theorem reorder (hm : h.Mirrors owner user n h') (key : Key) {tickets : List Ticket}
    (htickets : ∀ t ∈ tickets, n.Keeps t) :
    (h.take (.reorder key tickets)).Mirrors owner user n
      (h'.take (.reorder key (tickets.map n.ticket))) :=
  ⟨hm.machine.reorder key htickets, hm.known, hm.length, hm.kept, hm.places, hm.visits⟩

/-- Tickets that are not all kept are none of a key of the user. -/
theorem reorder_others (hm : h.Mirrors owner user n h') (key : Key) {tickets : List Ticket}
    (htickets : ¬ ∀ t ∈ tickets, n.Keeps t) :
    (h.take (.reorder key tickets)).Mirrors owner user n h' := by
  refine ⟨hm.machine.reorder_others fun hkey hadmits => htickets fun t ht => ?_, hm.known,
    hm.length, hm.kept, hm.places, hm.visits⟩
  exact hm.machine.registry.kept key hkey t (hadmits.1.mem_iff.mpr ht)

section Turns

variable {past : List Event} {caller : Nat} {v : Visit} {stamp : Stamp}

theorem turn (hm : (Hall.run {} past).Mirrors owner user n h')
    (howned : (Hall.run {} past).machine.records.Owned owner)
    (hv : (Hall.run {} past).visits[caller]? = some v) (hcaller : caller ∈ n.callers)
    (hnew : (Hall.run {} past).machine.inUse stamp.id = false) :
    ((Hall.run {} past).take (.turn stamp caller)).Mirrors owner user
      (n.after v.stage (Hall.run {} past).machine)
      (h'.take (.turn stamp (n.callers.idxOf caller))) := by
  have hf := fair_valid past
  obtain ⟨names, haccounted⟩ := accounted_run past
  have hof := parted_run owner past hv
  rw [(hm.kept hv).mp hcaller] at hof
  have hplaced := hm.placed hv hcaller
  obtain ⟨hstage, hmachine⟩ := hm.machine.step hcaller hplaced (hf.keeps hv) hof haccounted howned
    (fun _ hplace => hf.once hv hplace) stamp
  have hv' := hm.visits hv hcaller
  obtain ⟨hwhole, hvisits⟩ := take_turn hv hnew
  obtain ⟨hpart, hvisits'⟩ := take_turn hv' (hm.machine.inUse hnew)
  have hcallers := n.callers_after v.stage (Hall.run {} past).machine
  have hwithin := n.within_after v.stage (Hall.run {} past).machine
  refine ⟨?_, fun other hmem => ?_, ?_, fun {other w} hw => ?_, fun {other w place} hw hplace => ?_,
    fun {other w} hw hmem => ?_⟩
  · rw [hwhole, hpart]
    exact hmachine
  · rw [hvisits, List.length_set]
    exact hm.known other (hcallers ▸ hmem)
  · rw [hvisits', List.length_set, hcallers, hm.length]
  · rw [hvisits] at hw
    rw [hcallers]
    rcases visits_turn hw with ⟨rfl, rfl⟩ | ⟨-, hw⟩
    · exact hm.kept (v := v) hv
    · exact hm.kept hw
  · rw [hvisits] at hw
    rw [hcallers]
    rcases visits_turn hw with ⟨rfl, rfl⟩ | ⟨-, hw⟩
    · refine iff_of_true ?_ hcaller
      rcases Stage.place?_step hplace with hold | ⟨next, place?, hopening, hopened⟩
      · exact hwithin.2.subset (hplaced place hold)
      · rw [hopening, hopened]
        exact List.mem_append_right _ (List.mem_singleton_self _)
    · have hlt := Machine.lt_length_of_live ((hf.keeps hw).live hplace).2
      exact (Numbers.mem_handles_after hlt).trans (hm.places hw hplace)
  · rw [hvisits] at hw
    rw [hcallers] at hmem ⊢
    rw [hvisits']
    rcases visits_turn hw with ⟨rfl, rfl⟩ | ⟨hne, hw⟩
    · rw [List.getElem?_set_self (List.getElem?_eq_some_iff.mp hv').1]
      exact congrArg (fun stage => some (Visit.mk v.call stage)) hstage
    · have hidx : n.callers.idxOf caller ≠ n.callers.idxOf other :=
        fun heq => hne ((List.idxOf_inj hcaller).mp heq).symm
      rw [List.getElem?_set_ne hidx, hm.visits hw hmem, Visit.renumbered, Visit.renumbered,
        hwithin.stage (hm.placed hw hmem)]

theorem turn_others (hm : (Hall.run {} past).Mirrors owner user n h')
    (howned : (Hall.run {} past).machine.records.Owned owner)
    (hv : (Hall.run {} past).visits[caller]? = some v) (hcaller : caller ∉ n.callers)
    (hnew : (Hall.run {} past).machine.inUse stamp.id = false) :
    ((Hall.run {} past).take (.turn stamp caller)).Mirrors owner user n h' := by
  have hf := fair_valid past
  obtain ⟨names, haccounted⟩ := accounted_run past
  obtain ⟨hwhole, hvisits⟩ := take_turn hv hnew
  have hproper := (fair_valid (past ++ [.turn stamp caller])).orderly.proper
  rw [run_append] at hproper
  change ((Hall.run {} past).take (.turn stamp caller)).machine.registry.Proper at hproper
  have hplaced : ∀ place, v.stage.place? = some place → place.handle ∉ n.handles :=
    fun place hplace hmem => hcaller ((hm.places hv hplace).mp hmem)
  refine ⟨?_, fun other hmem => ?_, hm.length, fun {other w} hw => ?_,
    fun {other w place} hw hplace => ?_, fun {other w} hw hmem => ?_⟩
  · rw [hwhole] at hproper ⊢
    exact hm.machine.step_others caller hplaced (hf.keeps hv)
      (fun huser => hcaller ((hm.kept hv).mpr huser)) (parted_run owner past hv) haccounted howned
      (fun _ hplace => hf.once hv hplace) stamp hproper
  · rw [hvisits, List.length_set]
    exact hm.known other hmem
  · rw [hvisits] at hw
    rcases visits_turn hw with ⟨rfl, rfl⟩ | ⟨-, hw⟩
    · exact hm.kept (v := v) hv
    · exact hm.kept hw
  · rw [hvisits] at hw
    rcases visits_turn hw with ⟨rfl, rfl⟩ | ⟨-, hw⟩
    · refine iff_of_false (fun hmem => ?_) hcaller
      rcases Stage.place?_step hplace with hold | ⟨next, place?, -, hopened⟩
      · exact hplaced place hold hmem
      · exact absurd (hm.machine.opened _ hmem) (hopened ▸ Nat.lt_irrefl _)
    · exact hm.places hw hplace
  · rw [hvisits] at hw
    rcases visits_turn hw with ⟨rfl, rfl⟩ | ⟨-, hw⟩
    · exact absurd hmem hcaller
    · exact hm.visits hw hmem

end Turns

end Mirrors

end Hall

/-- Bookings that are on record for their owners later on are so before. -/
theorem Records.Owned.of_grows {r r' : Records} (h : r'.Owned owner) (hgrows : r.Grows r') :
    r.Owned owner := by
  intro b hb
  obtain ⟨i, hi⟩ := List.mem_iff_getElem?.mp hb
  obtain ⟨b', hb', hbecomes⟩ := hgrows.bookings i b hi
  have howned := h b' (List.mem_of_getElem? hb')
  rcases hbecomes with rfl | rfl
  · exact howned
  · exact howned

/-- In every run the bookings have owners. -/
theorem Hall.exists_owner (events : List Event) :
    ∃ owner, (Hall.run {} events).machine.records.Owned owner := by
  obtain ⟨names, haccounted⟩ := accounted_run events
  exact Records.Distinct.exists_owner
    ⟨haccounted.rules.recorded_once, haccounted.bookings.recorded_once⟩

/-- What is left of a run when only the calls of a user are kept mirrors that user's part of it. -/
theorem Excerpt.mirrors_run (owner : String → String) (user : String) {events : List Event}
    (howned : (Hall.run {} events).machine.records.Owned owner) :
    (Hall.run {} events).Mirrors owner user (ofUser owner user events).toNumbers
      (Hall.run {} (ofUser owner user events).events) := by
  unfold ofUser
  induction events using List.reverseRecOn with
  | nil => exact Hall.Mirrors.empty
  | append_singleton past event ih =>
      have hpast : (Hall.run {} past).machine.records.Owned owner :=
        howned.of_grows (Hall.grows_run past [event])
      have hm := ih hpast
      have hwhole := whole_run (fun call => call.user owner == user) past
      rw [run_concat, Hall.run_append]
      generalize run (fun call => call.user owner == user) past = x at hm hwhole ⊢
      show ((Hall.run {} past).take event).Mirrors owner user _ _
      rw [take]
      cases event with
      | call call =>
          rw [keep?]
          by_cases hmine : call.user owner = user
          · rw [if_pos (beq_iff_eq.mpr hmine)]
            simp only [Hall.run_append, hwhole]
            exact hm.call hmine
          · rw [if_neg (by rwa [beq_iff_eq])]
            exact hm.call_others hmine
      | turn stamp caller =>
          rw [keep?, hwhole]
          cases hv : (Hall.run {} past).visits[caller]? with
          | none =>
              rw [Hall.take, hv]
              exact hm
          | some v =>
              simp only []
              by_cases hkept : caller ∈ x.callers ∧ (Hall.run {} past).machine.inUse stamp.id = false
              · rw [if_pos hkept]
                simp only [Hall.run_append]
                exact hm.turn hpast hv hkept.1 hkept.2
              · rw [if_neg hkept]
                cases hnew : (Hall.run {} past).machine.inUse stamp.id with
                | true =>
                    rw [Hall.take, hv]
                    simp only [hnew, if_true]
                    exact hm
                | false => exact hm.turn_others hpast hv (fun hmem => hkept ⟨hmem, hnew⟩) hnew
      | reorder key tickets =>
          rw [keep?]
          by_cases htickets : ∀ t ∈ tickets, x.Keeps t
          · rw [if_pos htickets]
            simp only [Hall.run_append]
            exact hm.reorder key htickets
          · rw [if_neg htickets]
            exact hm.reorder_others key htickets

end Store

open Store

/-- Let bookings have owners, those under whom they are on record at the end of a run. Delete from
the run all calls of users other than one, with their turns: what is left of its beginning is the
beginning of what is left of it, and its calls are those of the user. At every point of the run,
each of them has come as far by itself as in the whole run, with the same result or error, or
waits for the same key; the keys of the user have the same tickets, up to the numbers of callers
and transactions; and the rules and bookings on record are the user's in the whole run. -/
theorem users_undisturbed (owner : String → String) (user : String) (past rest : List Event)
    (howner : ∀ b ∈ (Hall.run {} (past ++ rest)).machine.records.bookings,
      owner b.id = b.user) :
    let x := Excerpt.ofUser owner user past
    let whole := Hall.run {} past
    let own := Hall.run {} x.events
    x.events <+: (Excerpt.ofUser owner user (past ++ rest)).events ∧
    own.visits.map Visit.call =
      (whole.visits.map Visit.call).filter (·.user owner == user) ∧
    (∀ caller v, whole.visits[caller]? = some v → v.call.user owner = user →
      own.visits[x.callers.idxOf caller]? = some (v.renumbered x.toNumbers)) ∧
    (∀ key : Key, key.user owner = user →
      own.machine.registry.queue key = (whole.machine.registry.queue key).map x.ticket) ∧
    own.machine.records.rules = whole.machine.records.rulesOf user ∧
    own.machine.records.bookings =
      whole.machine.records.bookings.filter (·.user == user) := by
  intro x whole own
  have howned : whole.machine.records.Owned owner :=
    Records.Owned.of_grows howner (Hall.grows_run past rest)
  have hm : whole.Mirrors owner user x.toNumbers own := Excerpt.mirrors_run owner user howned
  have hcalls : own.visits.map Visit.call =
      (whole.visits.map Visit.call).filter (·.user owner == user) := by
    rw [Hall.calls_run, Hall.calls_run]
    exact Excerpt.calls_run (fun call => call.user owner == user) past
  refine ⟨Excerpt.events_run _ past rest, hcalls, fun caller v hv huser => ?_,
    hm.machine.registry.queue, ?_, ?_⟩
  · exact hm.visits hv ((hm.kept hv).mpr huser)
  · exact congrArg Records.rules hm.machine.records
  · exact congrArg Records.bookings hm.machine.records

/-- Two users set a rule each and book at the same time. -/
def crossed : List Event :=
  opening ++
  .call (.setAvailability "ben" [{
    dayOfWeek := .int 1, startTime := .text "10:00", endTime := .text "10:40",
    slotLength := .int 20 }]) :: ["", "bens rule", "", "", ""].map (.turnOf 1) ++
  [.call (.createBooking { firstSlot with user := "ben" }), .call (.createBooking firstSlot)] ++
  (["", "", "", ""].flatMap fun id => [.turnOf 2 id, .turnOf 3 id]) ++
  [.turnOf 3 "booking", .turnOf 2 "bens booking"] ++
  (["", ""].flatMap fun id => [.turnOf 2 id, .turnOf 3 id])

/-- Then one of them leaves again. -/
def leaving : List Event :=
  .call (.cancelBooking "bens booking") :: ["", "", "", "", ""].map (.turnOf 4)

/-- The other one would have had the same booking without. -/
theorem anna_undisturbed :
    let owner := fun id => if id = "bens booking" then "ben" else "anna"
    let r := (Hall.run {} (crossed ++ leaving)).machine.records
    let own := Hall.run {} (Excerpt.ofUser owner "anna" crossed).events
    (∀ b ∈ r.bookings, owner b.id = b.user) ∧
      r.bookings.map (·.status) = [.cancelled, .confirmed] ∧
      own.visits.length = 2 ∧ own.machine.records.bookings.map Booking.id = ["booking"] := by
  intro owner r own
  have howner : ∀ b ∈ r.bookings, owner b.id = b.user := by decide +kernel
  obtain ⟨-, hcalls, -, -, -, hbookings⟩ :=
    users_undisturbed owner "anna" crossed leaving howner
  refine ⟨howner, by decide +kernel, ?_, ?_⟩
  · rw [← List.length_map, hcalls]
    decide +kernel
  · rw [hbookings]
    decide +kernel

end Bookable
