import Bookable.Proofs.Store.Locks
import Bookable.Proofs.Time.Calendar

/-!
# Who waits for whom

A lookup with a lock waits if its key is in use. Keys are not what callers ask for: the
key of a start is its second. To say whom a lookup waits for, what transactions hold is
traced back to the lookups that were answered for them. A transaction holds a key exactly
if it is still open and some request that needs the key has been answered for it, and a
key that is in use without being held has a request that is just about to be answered.

So a lookup waits exactly if another transaction has locked a start of the same user in
the same second. That other start may be a fraction of a second away: lookups of different
instants block each other, which they are not meant to. Lookups of starts that are whole
seconds never do.
-/

namespace Bookable.Store

open Time

/-! ## Requests that were answered -/

namespace Traffic

/-- The request that a move answers, with its transaction. -/
def answers (s : Traffic) : Move → Option (Nat × Request)
  | .ask stamp caller handle request =>
      if (s.waitingOf caller).isSome ∨ s.machine.transactions.length ≤ handle then none
      else
        match s.machine.ask stamp caller handle request with
        | .answered _ _ => some (handle, request)
        | .queued _ _ => none
  | .resume _ caller =>
      match s.waitingOf caller with
      | none => none
      | some w =>
          if s.machine.registry.isHeldBy w.key w.ticket then some (w.ticket.handle, w.request)
          else none
  | _ => none

/-- The requests that moves answer, with their transactions. -/
def answered (s : Traffic) : List Move → List (Nat × Request)
  | [] => []
  | move :: moves => (s.answers move).toList ++ (s.take move).answered moves

theorem answered_append (s : Traffic) (past : List Move) (move : Move) :
    s.answered (past ++ [move]) = s.answered past ++ ((s.run past).answers move).toList := by
  induction past generalizing s with
  | nil => simp [answered, run]
  | cons first past ih =>
      rw [List.cons_append, answered, ih, answered, List.append_assoc]
      rfl

theorem allowsAll_append (s : Traffic) (past : List Move) (move : Move) :
    s.allowsAll (past ++ [move]) = (s.allowsAll past && (s.run past).allows move) := by
  induction past generalizing s with
  | nil => simp [allowsAll, run]
  | cons first past ih =>
      rw [List.cons_append, allowsAll, ih, allowsAll, Bool.and_assoc]
      rfl

/-- What waits needs the key that it waits for. -/
def Keyed (s : Traffic) : Prop := ∀ w ∈ s.waiting, keyOf? w.request = some w.key

variable {s : Traffic}

theorem Keyed.take (h : s.Keyed) (move : Move) : (s.take move).Keyed := by
  cases move with
  | ask stamp caller handle request =>
      rw [Traffic.take]
      split
      · exact h
      · split
        · exact h
        · next hask =>
            intro w hw
            rcases List.mem_append.mp hw with hw | hw
            · exact h w hw
            · rw [List.mem_singleton.mp hw]
              exact (Machine.ask_queued hask).1
  | resume stamp caller =>
      rw [Traffic.take]
      split
      · exact h
      · split
        · exact fun w hw => h w (List.mem_filter.mp hw).1
        · exact h
  | _ => exact h

theorem keyed_run (moves : List Move) : (run {} moves).Keyed := by
  induction moves using List.reverseRecOn with
  | nil => exact fun w hw => absurd hw List.not_mem_nil
  | append_singleton past move ih =>
      rw [run_append]
      exact ih.take move

/-- Requests are answered for transactions that are open, by moves that end none. -/
theorem Exact.live_of_answers (h : s.Exact) {move : Move} (hallows : s.allows move = true)
    {handle : Nat} {request : Request} (hanswers : s.answers move = some (handle, request)) :
    (s.machine.transaction handle).ended = false ∧ ¬ move.Ends handle := by
  cases move with
  | ask stamp caller asked request' =>
      refine ⟨?_, id⟩
      rw [answers] at hanswers
      split at hanswers
      · cases hanswers
      · next hcan =>
          rw [not_or, Nat.not_le] at hcan
          split at hanswers
          · cases hanswers
            rw [allows, List.getElem?_eq_getElem hcan.2] at hallows
            rw [Machine.transaction, List.getElem?_eq_getElem hcan.2]
            simpa using hallows
          · cases hanswers
  | resume stamp caller =>
      refine ⟨?_, id⟩
      rw [answers] at hanswers
      split at hanswers
      · cases hanswers
      · next w hw =>
          split at hanswers
          · cases hanswers
            exact h.custody.live w (List.mem_of_find?_eq_some hw)
          · cases hanswers
  | _ => cases hanswers

end Traffic

/-! ## What is held was asked for -/

theorem Machine.mem_heldBy_hold {m : Machine} {handle other : Nat} {key needed : Key}
    (hlt : handle < m.transactions.length) :
    key ∈ (m.hold handle needed).heldBy other ↔
      key ∈ m.heldBy other ∨ handle = other ∧ needed = key := by
  rw [heldBy_hold needed hlt]
  rcases eq_or_ne other handle with rfl | hne
  · simp [eq_comm]
  · simp [Function.update_of_ne hne, hne.symm]

theorem Machine.mem_heldBy_ask {m m' : Machine} {stamp : Stamp} {caller handle other : Nat}
    {request : Request} {reply : request.Reply} {key : Key}
    (hlt : handle < m.transactions.length)
    (hask : m.ask stamp caller handle request = .answered reply m') :
    key ∈ m'.heldBy other ↔
      key ∈ m.heldBy other ∨ handle = other ∧ keyOf? request = some key := by
  obtain ⟨hnone, -, rfl⟩ | ⟨needed, hneeded, ⟨hheld, -, rfl⟩ | ⟨-, -, -, rfl⟩⟩ :=
    ask_answered hask
  · rw [heldBy_perform, hnone]
    simp
  · rw [heldBy_perform, hneeded, Option.some_inj]
    refine (or_iff_left_of_imp ?_).symm
    rintro ⟨rfl, rfl⟩
    exact hheld
  · rw [heldBy_perform, hneeded, Option.some_inj]
    exact mem_heldBy_hold hlt

theorem Machine.mem_heldBy_finish {m : Machine} {handle other : Nat} {key : Key}
    (t : Transaction) (hlt : handle < m.transactions.length) :
    key ∈ (m.finish handle t).2.heldBy other ↔ key ∈ m.heldBy other ∧ ¬ handle = other := by
  rw [heldBy_finish t hlt]
  rcases eq_or_ne other handle with rfl | hne
  · simp
  · simp [Function.update_of_ne hne, hne.symm]

namespace Traffic

variable {s : Traffic}

/-- A transaction that has ended holds nothing that a second end of it could take. -/
theorem Exact.mem_heldBy_of_ended (h : s.Exact) {ended handle : Nat} {key : Key}
    (hended : (s.machine.transaction ended).ended = true) :
    key ∈ s.machine.heldBy handle ↔ key ∈ s.machine.heldBy handle ∧ ¬ ended = handle := by
  refine (and_iff_left_of_imp fun hkey => ?_).symm
  rintro rfl
  exact Bool.false_ne_true ((h.custody.taken hkey).1.symm.trans hended)

/-- A move takes the keys of the transaction that it ends, and gives the key of the request that
it answers. -/
theorem Exact.mem_heldBy_take (h : s.Exact) (hkeyed : s.Keyed) (move : Move) (handle : Nat)
    (key : Key) :
    key ∈ (s.take move).machine.heldBy handle ↔
      key ∈ s.machine.heldBy handle ∧ ¬ move.Ends handle ∨
        ∃ request, s.answers move = some (handle, request) ∧ keyOf? request = some key := by
  cases move with
  | begin =>
      show key ∈ s.machine.begin.2.heldBy handle ↔ _
      rw [Machine.heldBy_begin]
      simp [Move.Ends, answers]
  | ask stamp caller asked request =>
      rw [Traffic.take, answers]
      by_cases hcannot : (s.waitingOf caller).isSome ∨ s.machine.transactions.length ≤ asked
      · simp [hcannot, Move.Ends]
      · simp only [if_neg hcannot]
        rw [not_or, Nat.not_le] at hcannot
        cases hask : s.machine.ask stamp caller asked request with
        | answered reply m =>
            refine (Machine.mem_heldBy_ask hcannot.2 hask).trans ?_
            simp [Move.Ends]
        | queued needed m =>
            obtain ⟨-, -, -, rfl⟩ := Machine.ask_queued hask
            simp [Move.Ends, Machine.heldBy, Machine.transaction]
  | resume stamp caller =>
      rw [Traffic.take, answers]
      cases hw : s.waitingOf caller with
      | none => simp [Move.Ends]
      | some w =>
          have hmem : w ∈ s.waiting := List.mem_of_find?_eq_some hw
          have hlt := Machine.lt_length_of_live (h.custody.live w hmem)
          by_cases hfirst : s.machine.registry.isHeldBy w.key w.ticket = true
          · simp only [if_pos hfirst]
            rw [Machine.resume, Machine.heldBy_perform, Machine.mem_heldBy_hold hlt]
            simp [Move.Ends, hkeyed w hmem]
          · simp [hfirst, Move.Ends]
  | reorder other queue =>
      show key ∈ (s.machine.reorder other queue).heldBy handle ↔ _
      rw [Machine.heldBy_reorder]
      simp [Move.Ends, answers]
  | commit ended =>
      rw [Traffic.take, Machine.commit_machine]
      simp only [Move.Ends, answers, reduceCtorEq, false_and, exists_false, or_false]
      split
      · next hended => exact h.mem_heldBy_of_ended hended
      · next hlive =>
          rw [Bool.not_eq_true] at hlive
          split
          · exact Machine.mem_heldBy_finish _ (Machine.lt_length_of_live hlive)
          · exact Machine.mem_heldBy_finish (m := { s.machine with
              records := (s.machine.transaction ended).publish s.machine.records }) _
              (Machine.lt_length_of_live hlive)
  | rollback ended =>
      rw [Traffic.take, Machine.rollback_machine]
      simp only [Move.Ends, answers, reduceCtorEq, false_and, exists_false, or_false]
      split
      · next hended => exact h.mem_heldBy_of_ended hended
      · next hlive =>
          rw [Bool.not_eq_true] at hlive
          exact Machine.mem_heldBy_finish _ (Machine.lt_length_of_live hlive)

/-- Requests are answered for transactions that have been begun. -/
theorem lt_length_of_answered {moves : List Move} (h : allowsAll {} moves = true) {handle : Nat}
    {request : Request} (hanswered : (handle, request) ∈ answered {} moves) :
    handle < (run {} moves).machine.transactions.length := by
  induction moves using List.reverseRecOn with
  | nil => exact absurd hanswered List.not_mem_nil
  | append_singleton past move ih =>
      rw [allowsAll_append, Bool.and_eq_true] at h
      rw [answered_append, List.mem_append, Option.mem_toList] at hanswered
      rw [run_append]
      refine Nat.lt_of_lt_of_le ?_ (Nat.le.intro (length_take _ move).symm)
      rcases hanswered with hpast | hnow
      · exact ih h.1 hpast
      · exact Machine.lt_length_of_live ((exact_empty.run h.1).live_of_answers h.2 hnow).1

/-- A transaction holds a key exactly if it is still open and a request that needs the key has been
answered for it. -/
theorem mem_heldBy_run {moves : List Move} (h : allowsAll {} moves = true) (handle : Nat)
    (key : Key) :
    key ∈ (run {} moves).machine.heldBy handle ↔ StillOpen moves handle ∧
      ∃ request, (handle, request) ∈ answered {} moves ∧ keyOf? request = some key := by
  induction moves using List.reverseRecOn with
  | nil => exact iff_of_false List.not_mem_nil fun ⟨_, _, hnone, _⟩ => List.not_mem_nil hnone
  | append_singleton past move ih =>
      rw [allowsAll_append, Bool.and_eq_true] at h
      have hexact := exact_empty.run h.1
      have hlive {request : Request} (hnow : (run {} past).answers move = some (handle, request)) :
          StillOpen past handle ∧ ¬ move.Ends handle := by
        rw [← ended_run]
        exact hexact.live_of_answers h.2 hnow
      rw [run_append]
      refine (hexact.mem_heldBy_take (keyed_run past) move handle key).trans ?_
      rw [ih h.1, stillOpen_append, answered_append]
      simp only [List.mem_append, Option.mem_toList]
      constructor
      · rintro (⟨⟨hopen, request, hpast, hkey⟩, hstays⟩ | ⟨request, hnow, hkey⟩)
        · exact ⟨Or.inr ⟨hopen, hstays⟩, request, Or.inl hpast, hkey⟩
        · exact ⟨Or.inr (hlive hnow), request, Or.inr hnow, hkey⟩
      · rintro ⟨hopen, request, hpast | hnow, hkey⟩
        · refine Or.inl ?_
          rcases hopen with ⟨-, hnew⟩ | ⟨hopen, hstays⟩
          · -- Nothing has been answered yet for a transaction that is begun now.
            have hlt := lt_length_of_answered h.1 hpast
            rw [length_run] at hlt
            exact absurd hnew (Nat.ne_of_gt hlt)
          · exact ⟨⟨hopen, request, hpast, hkey⟩, hstays⟩
        · exact Or.inr ⟨request, hnow, hkey⟩

end Traffic

/-! ## Locked starts -/

/-- A transaction that is still open has locked a start of a user: a lookup of that start with a
lock has been answered for it, or is just about to be, because its ticket has come to hold the
lock. -/
def Locked (moves : List Move) (handle : Nat) (user : String) (start : Instant) : Prop :=
  StillOpen moves handle ∧
    ((handle, Request.confirmedAt user start true) ∈ Traffic.answered {} moves ∨
      ∃ w ∈ (Traffic.run {} moves).waiting, w.ticket.handle = handle ∧
        w.request = .confirmedAt user start true ∧
        (Traffic.run {} moves).machine.registry.isHeldBy w.key w.ticket = true)

theorem keyOf?_eq_start {request : Request} {user : String} {second : Int}
    (h : keyOf? request = some (.start user second)) :
    ∃ start, request = .confirmedAt user start true ∧ start.unixSecond = second := by
  unfold keyOf? at h
  split at h
  · next asked start =>
      cases h
      exact ⟨start, rfl, rfl⟩
  · cases h
  · cases h

section

variable {moves : List Move} (h : Traffic.allowsAll {} moves = true) {handle : Nat}
  {user : String} {start : Instant}

include h

/-- The transaction that has locked a start is the first in the queue of its second. -/
theorem Locked.first (hlocked : Locked moves handle user start) :
    ∃ caller, ((Traffic.run {} moves).machine.registry.queue
      (.start user start.unixSecond)).head? = some ⟨caller, handle⟩ := by
  have hexact := Traffic.exact_empty.run h
  obtain ⟨hopen, hanswered | ⟨w, hw, rfl, hrequest, hfirst⟩⟩ := hlocked
  · have hheld := (Traffic.mem_heldBy_run h handle _).mpr ⟨hopen, _, hanswered, rfl⟩
    obtain ⟨-, caller, rest, hqueue, -⟩ := hexact.custody.taken hheld
    exact ⟨caller, by rw [hqueue, List.head?_cons]⟩
  · have hkey := Traffic.keyed_run moves w hw
    rw [hrequest] at hkey
    have hsame : Key.start user start.unixSecond = w.key := Option.some.inj hkey
    rw [hsame]
    exact ⟨w.ticket.caller, (Registry.isHeldBy_iff _ _ _).mp hfirst⟩

/-- Whoever is the first in the queue of a second has locked a start in it. -/
theorem exists_locked {second : Int} {caller : Nat}
    (hfirst : ((Traffic.run {} moves).machine.registry.queue (.start user second)).head? =
      some ⟨caller, handle⟩) :
    ∃ taken, taken.unixSecond = second ∧ Locked moves handle user taken := by
  have hexact := Traffic.exact_empty.run h
  by_cases hheld : Key.start user second ∈ (Traffic.run {} moves).machine.heldBy handle
  · obtain ⟨hopen, request, hanswered, hkey⟩ := (Traffic.mem_heldBy_run h handle _).mp hheld
    obtain ⟨taken, rfl, hsecond⟩ := keyOf?_eq_start hkey
    exact ⟨taken, hsecond, hopen, Or.inl hanswered⟩
  · have hticket : (⟨caller, handle⟩ : Ticket) ∈
        (Traffic.run {} moves).machine.registry.queue (.start user second) :=
      List.mem_of_head? hfirst
    obtain ⟨w, hw, hkey, hticket⟩ := hexact.custody.waits_of_ticket hheld hticket
    have hneeds := Traffic.keyed_run moves w hw
    rw [hkey] at hneeds
    obtain ⟨taken, hrequest, hsecond⟩ := keyOf?_eq_start hneeds
    refine ⟨taken, hsecond, ?_, Or.inr ⟨w, hw, by rw [hticket], hrequest, ?_⟩⟩
    · have hlive := hexact.custody.live w hw
      rw [hticket] at hlive
      exact (Traffic.ended_run moves handle).mp hlive
    · rw [Registry.isHeldBy_iff, hkey, hticket]
      exact hfirst

/-- A lookup waits if somebody is in the queue of its key before a request of its transaction has
been answered that needs the key. -/
theorem queued_iff {stamp : Stamp} {caller : Nat} :
    (∃ key m, (Traffic.run {} moves).machine.ask stamp caller handle
        (.confirmedAt user start true) = .queued key m) ↔
      .start user start.unixSecond ∉ (Traffic.run {} moves).machine.heldBy handle ∧
        ∃ first, ((Traffic.run {} moves).machine.registry.queue
          (.start user start.unixSecond)).head? = some first := by
  have hproper := (Traffic.exact_empty.run h).proper
  have hqueue : (∃ first, ((Traffic.run {} moves).machine.registry.queue
      (.start user start.unixSecond)).head? = some first) ↔
      (Traffic.run {} moves).machine.registry.lock? (.start user start.unixSecond) ≠ none := by
    rw [ne_eq, Registry.lock?_eq_none_iff hproper, ← List.head?_eq_none_iff, ← ne_eq,
      Option.ne_none_iff_exists']
  rw [hqueue]
  constructor
  · rintro ⟨key, m, hask⟩
    obtain ⟨hkey, hheld, ⟨l, hlock⟩, -⟩ := Machine.ask_queued hask
    have hsame : Key.start user start.unixSecond = key := Option.some.inj hkey
    rw [hsame, hlock]
    exact ⟨hheld, Option.some_ne_none l⟩
  · rintro ⟨hheld, hlock⟩
    obtain ⟨l, hlock⟩ := Option.ne_none_iff_exists'.mp hlock
    have hkey : keyOf? (.confirmedAt user start true) = some (.start user start.unixSecond) := rfl
    have hnot : Key.start user start.unixSecond ∉
      ((Traffic.run {} moves).machine.transaction handle).held := hheld
    rw [Machine.ask_eq, hkey]
    simp only [if_neg hnot, hlock]
    exact ⟨_, _, rfl⟩

/-- A lookup of a start with a lock waits if and only if another transaction that is still open has
locked a start of the same user in the same second, whatever other callers do. It is asked for a
transaction none of whose requests waits. So if all starts are whole seconds, it waits if and only
if another transaction has locked that very start. -/
theorem waits_iff_second_locked
    (hidle : ∀ w ∈ (Traffic.run {} moves).waiting, w.ticket.handle ≠ handle) (stamp : Stamp)
    (caller : Nat) (user : String) (start : Instant) :
    let waits := ∃ key m, (Traffic.run {} moves).machine.ask stamp caller handle
      (.confirmedAt user start true) = .queued key m
    (waits ↔ ∃ other taken, other ≠ handle ∧ taken.unixSecond = start.unixSecond ∧
      Locked moves other user taken) ∧
    (second ∣ start.micros →
      (∀ other taken, Locked moves other user taken → second ∣ taken.micros) →
      (waits ↔ ∃ other, other ≠ handle ∧ Locked moves other user start)) := by
  intro waits
  have hexact := Traffic.exact_empty.run h
  have hiff : waits ↔ ∃ other taken, other ≠ handle ∧ taken.unixSecond = start.unixSecond ∧
      Locked moves other user taken := by
    refine (queued_iff h).trans ?_
    constructor
    · rintro ⟨hheld, ⟨first, other⟩, hfirst⟩
      obtain ⟨taken, hsecond, hlocked⟩ := exists_locked h hfirst
      refine ⟨other, taken, ?_, hsecond, hlocked⟩
      rintro rfl
      -- The ticket is not that of the transaction itself, which neither holds the key nor waits.
      obtain ⟨w, hw, -, hticket⟩ :=
        hexact.custody.waits_of_ticket hheld (List.mem_of_head? hfirst)
      exact hidle w hw (by rw [hticket])
    · rintro ⟨other, taken, hne, hsecond, hlocked⟩
      obtain ⟨first, hfirst⟩ := hlocked.first h
      rw [hsecond] at hfirst
      refine ⟨fun hheld => hne ?_, _, hfirst⟩
      obtain ⟨-, own, rest, hqueue, -⟩ := hexact.custody.taken hheld
      rw [hqueue, List.head?_cons] at hfirst
      cases hfirst
      rfl
  refine ⟨hiff, fun hstart htaken => hiff.trans ?_⟩
  constructor
  · rintro ⟨other, taken, hne, hsecond, hlocked⟩
    obtain rfl := Instant.eq_of_unixSecond (htaken other taken hlocked) hstart hsecond
    exact ⟨other, hne, hlocked⟩
  · rintro ⟨other, hne, hlocked⟩
    exact ⟨other, start, hne, rfl, hlocked⟩

end

/-- Two transactions, the first of which has locked the start of a booking. -/
def rivalry : List Move :=
  [.begin, .begin,
    .ask ⟨halfHour.start, "id-0001"⟩ 10 0 (.confirmedAt "user-1" halfHour.start true)]

/-- The second transaction waits for the same start. -/
theorem rival_waits :
    Traffic.allowsAll {} rivalry = true ∧ (Traffic.run {} rivalry).waiting = [] ∧
      ∃ key m, (Traffic.run {} rivalry).machine.ask ⟨halfHour.start, "id-0002"⟩ 11 1
        (.confirmedAt "user-1" halfHour.start true) = .queued key m := by
  have hall : Traffic.allowsAll {} rivalry = true := by decide +kernel
  have hnobody : (Traffic.run {} rivalry).waiting = [] := rfl
  have hidle : ∀ w ∈ (Traffic.run {} rivalry).waiting, w.ticket.handle ≠ 1 := by
    rw [hnobody]
    exact fun w hw => absurd hw List.not_mem_nil
  refine ⟨hall, hnobody, ?_⟩
  refine (waits_iff_second_locked hall hidle ⟨halfHour.start, "id-0002"⟩ 11 "user-1"
    halfHour.start).1.mpr ⟨0, halfHour.start, by decide, rfl, ?_⟩
  refine ⟨?_, Or.inl (List.mem_singleton_self _)⟩
  rw [← Traffic.ended_run]
  rfl

/-- It also waits for the instant half a second later, which nobody has locked. -/
theorem rival_waits_in_vain :
    let later : Instant := ⟨halfHour.start.micros + 500000, by decide⟩
    (∃ key m, (Traffic.run {} rivalry).machine.ask ⟨halfHour.start, "id-0002"⟩ 11 1
        (.confirmedAt "user-1" later true) = .queued key m) ∧
      ∀ other, ¬ Locked rivalry other "user-1" later := by
  intro later
  have hall : Traffic.allowsAll {} rivalry = true := by decide +kernel
  refine ⟨(queued_iff hall).mpr ⟨by decide +kernel, ⟨10, 0⟩, by decide +kernel⟩, ?_⟩
  rintro other ⟨-, hanswered | ⟨w, hw, -⟩⟩
  · have hsame : (other, Request.confirmedAt "user-1" later true) =
        (0, .confirmedAt "user-1" halfHour.start true) := List.mem_singleton.mp hanswered
    injection hsame with _ hrequest
    injection hrequest with _ hstart
    exact absurd hstart (by decide)
  · exact absurd hw List.not_mem_nil

end Bookable.Store
