import Bookable.Proofs.Hall.Rules
import Bookable.Proofs.Store.History
import Mathlib.Data.List.Dedup

/-!
# Turns as moves

What a turn does to a machine some move of its traffic does as well. What is known of
moves is therefore known of turns: as every turn is offered an identifier that is not in
use, all identifiers are accounted for in every state of a hall, and records only grow.

In a hall an identifier may be offered again once nothing has it any more, so the ones
that have been drawn do not count here, but those that are in use.
-/

namespace Bookable.Store

variable {α : Type} {peers : Peers} {pledge : Pledge α}

/-- A turn is a move of a traffic with the same machine, and draws at most what it is offered. -/
theorem Stage.Keeps.exists_move {s : Stage α} {m : Machine} (hs : s.Keeps peers pledge m)
    (caller : Nat) (stamp : Stamp) : ∃ (traffic : Traffic) (move : Move),
      traffic.machine = m ∧ (∀ w ∈ traffic.waiting, w.request.inserts = false) ∧
      (∀ name ∈ move.drawn?.toList, name = stamp.id) ∧
      (traffic.take move).machine = (s.step caller stamp m).2 := by
  have hnobody : ∀ w ∈ ([] : List Waiting), w.request.inserts = false :=
    fun _ hw => absurd hw List.not_mem_nil
  have hnothing : ∀ name ∈ (none : Option String).toList, name = stamp.id :=
    fun _ hname => absurd hname List.not_mem_nil
  -- A request of a caller who does not wait goes on: that is a move which does nothing.
  have hidle : ∃ (traffic : Traffic) (move : Move),
      traffic.machine = m ∧ (∀ w ∈ traffic.waiting, w.request.inserts = false) ∧
      (∀ name ∈ move.drawn?.toList, name = stamp.id) ∧ (traffic.take move).machine = m :=
    ⟨⟨m, []⟩, .resume stamp caller, rfl, hnobody, hnothing, rfl⟩
  cases s with
  | ended result => exact hidle
  | active p place? =>
      cases p with
      | done a => exact hidle
      | fail cause =>
          rcases place? with _ | ⟨handle, _ | _⟩
          · exact hidle
          · exact hidle
          · exact ⟨⟨m, []⟩, .rollback handle, rfl, hnobody, hnothing, rfl⟩
      | opening next => exact ⟨⟨m, []⟩, .begin, rfl, hnobody, hnothing, rfl⟩
      | ask request next =>
          cases place? with
          | none => exact hidle
          | some place =>
              refine ⟨⟨m, []⟩, .ask stamp caller place.handle request, rfl, hnobody,
                fun name hname => ?_, ?_⟩
              · rw [Move.drawn?] at hname
                split at hname
                · exact List.mem_singleton.mp hname
                · exact absurd hname List.not_mem_nil
              · have hlt := Machine.lt_length_of_live hs.1.2
                have hcan : ¬ ((Traffic.waitingOf ⟨m, []⟩ caller).isSome ∨
                    m.transactions.length ≤ place.handle) := by
                  rintro (hwaits | hge)
                  · cases hwaits
                  · omega
                rw [Traffic.take, if_neg hcan, Stage.step]
                cases m.ask stamp caller place.handle request <;> rfl
      | closing next =>
          cases place? with
          | none => exact hidle
          | some place =>
              refine ⟨⟨m, []⟩, .commit place.handle, rfl, hnobody, hnothing, ?_⟩
              rw [Stage.step_closing]
              rfl
  | waiting key request next place =>
      obtain ⟨-, hkey, -, -⟩ := hs
      let waiting : Waiting := ⟨⟨caller, place.handle⟩, key, request⟩
      refine ⟨⟨m, [waiting]⟩, .resume stamp caller, rfl, fun w hw => ?_, hnothing, ?_⟩
      · rw [List.mem_singleton.mp hw]
        exact inserts_of_keyOf? hkey
      · have hwaiting : Traffic.waitingOf ⟨m, [waiting]⟩ caller = some waiting := by
          rw [Traffic.waitingOf, List.find?_singleton, if_pos (beq_self_eq_true caller)]
        rw [Traffic.take, hwaiting, Stage.step]
        show (if m.registry.isHeldBy key ⟨caller, place.handle⟩ = true then _ else _ :
          Traffic).machine = _
        split <;> rfl

/-! ## Identifiers in use -/

theorem Hall.notInUse_rules {m : Machine} {id : String} (hm : m.inUse id = false) :
    (∀ rule ∈ m.records.rules, rule.id ≠ some id) ∧
      ∀ handle, ∀ rule ∈ (m.transaction handle).newRules, rule.id ≠ some id := by
  simp only [Machine.inUse, Bool.or_eq_false_iff, List.any_eq_false, beq_iff_eq, Bool.not_eq_true]
    at hm
  obtain ⟨⟨hrecords, -⟩, htransactions⟩ := hm
  refine ⟨hrecords, fun handle rule hrule => ?_⟩
  rcases m.transaction_mem handle with hmem | hblank
  · exact (htransactions _ hmem).1 rule hrule
  · rw [hblank] at hrule
    cases hrule

/-- It is enough to account for the identifiers in use. -/
theorem Machine.Accounted.inUse {names : List String} {m : Machine} (h : m.Accounted names) :
    ∃ used : List String, used.Nodup ∧ (∀ name ∈ used, m.inUse name = true) ∧
      m.Accounted used := by
  let used := names.dedup.filter fun name => m.inUse name
  have hused : ∀ {name}, name ∈ names → m.inUse name = true → name ∈ used :=
    fun hname huse => List.mem_filter.mpr ⟨List.mem_dedup.mpr hname, huse⟩
  have huse : ∀ {name}, ¬ m.inUse name = false → m.inUse name = true :=
    fun h => Bool.not_eq_false _ ▸ h
  refine ⟨used, names.nodup_dedup.filter _, fun name hname => (List.mem_filter.mp hname).2,
    h.rules.redraw ?_ ?_, h.bookings.redraw ?_ ?_, h.changes⟩
  · intro id hid
    obtain ⟨name, hname, rfl⟩ := h.rules.recorded_drawn id hid
    obtain ⟨rule, hrule, heq⟩ := List.mem_map.mp hid
    exact ⟨name, hused hname (huse fun hnot => (Hall.notInUse_rules hnot).1 rule hrule heq), rfl⟩
  · intro handle id hid
    obtain ⟨name, hname, rfl⟩ := h.rules.fresh_drawn handle id hid
    obtain ⟨rule, hrule, heq⟩ := List.mem_map.mp hid
    exact ⟨name,
      hused hname (huse fun hnot => (Hall.notInUse_rules hnot).2 handle rule hrule heq), rfl⟩
  · intro id hid
    obtain ⟨b, hb, heq⟩ := List.mem_map.mp hid
    exact hused (h.bookings.recorded_drawn id hid)
      (huse fun hnot => (Hall.notInUse hnot).1 b hb heq)
  · intro handle id hid
    obtain ⟨b, hb, heq⟩ := List.mem_map.mp hid
    exact hused (h.bookings.fresh_drawn handle id hid)
      (huse fun hnot => (Hall.notInUse hnot).2 handle b hb heq)

/-- A turn that is offered a new identifier leaves all of them accounted for, and the records
grow. -/
theorem Stage.Keeps.accounted_step {s : Stage α} {m : Machine} (hs : s.Keeps peers pledge m)
    {names : List String} (h : m.Accounted names) (caller : Nat) {stamp : Stamp}
    (hnew : m.inUse stamp.id = false) :
    (∃ names', (s.step caller stamp m).2.Accounted names') ∧
      m.records.Grows (s.step caller stamp m).2.records := by
  obtain ⟨used, honce, huse, hused⟩ := h.inUse
  obtain ⟨traffic, move, rfl, hwaiting, hdrawn, hmove⟩ := hs.exists_move caller stamp
  rw [← hmove]
  have hmoves : move.drawn?.toList.Nodup := by cases move.drawn? <;> simp
  have hnames : (used ++ move.drawn?.toList).Nodup := by
    refine List.nodup_append.mpr ⟨honce, hmoves, fun name hname other hother heq => ?_⟩
    have hinUse := huse name hname
    rw [heq, hdrawn other hother, hnew] at hinUse
    cases hinUse
  exact ⟨⟨_, Traffic.accounted_take hused hwaiting hnames⟩, Traffic.grows_take hused move⟩

namespace Hall

theorem accounted_take {past : List Event}
    (h : ∃ names, (Hall.run {} past).machine.Accounted names) (event : Event) :
    (∃ names, ((Hall.run {} past).take event).machine.Accounted names) ∧
      (Hall.run {} past).machine.records.Grows
        ((Hall.run {} past).take event).machine.records := by
  obtain ⟨names, haccounted⟩ := h
  cases event with
  | call call => exact ⟨⟨names, haccounted⟩, .refl _⟩
  | reorder key tickets =>
      refine ⟨⟨names, haccounted.rested (fun _ hname => hname) ?_ fun handle => ?_⟩, ?_⟩
      · exact Machine.records_reorder _ _ _
      · show Transaction.Rests _ (((Hall.run {} past).machine.reorder key tickets).transaction _)
        rw [Machine.transaction_reorder]
        exact .refl _
      · show Records.Grows _ ((Hall.run {} past).machine.reorder key tickets).records
        rw [Machine.records_reorder]
        exact .refl _
  | turn stamp caller =>
      rcases (Hall.run {} past).take_turn_cases stamp caller with heq | ⟨v, hv, hnew, heq⟩
      · rw [heq]
        exact ⟨⟨names, haccounted⟩, .refl _⟩
      · rw [heq]
        exact ((fair_valid past).keeps hv).accounted_step haccounted caller hnew

theorem accounted_run (events : List Event) :
    ∃ names, (Hall.run {} events).machine.Accounted names := by
  induction events using List.reverseRecOn with
  | nil => exact ⟨[], Machine.accounted_empty⟩
  | append_singleton past event ih =>
      rw [run_append]
      exact (accounted_take ih event).1

/-- In every run of service calls, the records of an earlier state stay on record. -/
theorem grows_run (past rest : List Event) : (Hall.run {} past).machine.records.Grows
    (Hall.run {} (past ++ rest)).machine.records := by
  induction rest using List.reverseRecOn with
  | nil =>
      rw [List.append_nil]
      exact .refl _
  | append_singleton before event ih =>
      rw [← List.append_assoc, run_append]
      exact ih.trans (accounted_take (accounted_run _) event).2

end Hall

end Bookable.Store
