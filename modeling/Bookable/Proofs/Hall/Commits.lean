import Bookable.Proofs.Hall.Order

/-!
# Calls that have committed

A call that makes one transaction and has its answer as soon as that is committed has
succeeded exactly if it is listed among the commits. One event in a hall of such calls
therefore changes the list, the records and the answers together or not at all.
-/

namespace Bookable.Store

variable {α : Type} {peers : Peers}

/-- The answer of a program that has nothing left to do. -/
def Stage.answer? : Stage α → Option α
  | .active (.done a) none => some a
  | .ended (.ok a) => some a
  | _ => none

theorem Stage.answer?_within (p : Program α) (place : Place) :
    (Stage.active p (some place)).answer? = none := by
  cases p <;> rfl

/-- A turn that does not commit leaves the answer as it is. -/
theorem Stage.answer?_step {pledge : Pledge α}
    (houtside : ∀ {a t r}, ¬ pledge.ends a (some t) r) {s : Stage α} {m : Machine}
    (h : s.Keeps peers pledge m) (hcommits : s.commits m = false) (caller : Nat)
    (stamp : Stamp) : (s.step caller stamp m).1.answer? = s.answer? := by
  cases s with
  | ended result => rfl
  | active p place? =>
      cases place? with
      | none =>
          cases p with
          | done a => rfl
          | fail cause => rfl
          | opening next => exact answer?_within next _
          | ask request next => exact h.elim
          | closing next => exact h.elim
      | some place =>
          obtain ⟨hlive, h⟩ := h
          cases p with
          | done a => exact absurd h houtside
          | fail cause => rfl
          | opening next => exact h.elim
          | ask request next =>
              rw [step]
              split
              · next reply m' hask => exact answer?_within (next reply) place
              · rfl
          | closing next =>
              have hconflict : (m.transaction place.handle).conflicts m.records = true := by
                have hpublishes : m.publishes place.handle = false := hcommits
                rw [Machine.publishes_of_live hlive.2] at hpublishes
                simpa using hpublishes
              rw [stage_closing caller stamp next hlive.2, hconflict]
              rfl
  | waiting key request next place =>
      rw [step]
      split
      · exact answer?_within _ place
      · rfl

namespace Hall

/-- The call of a caller and its answer, if it has one. -/
def success? (h : Hall) (caller : Nat) : Option (Call × Answer) :=
  h.visits[caller]?.bind fun v => v.stage.answer?.map (v.call, ·)

theorem success?_eq {h : Hall} {caller : Nat} {v : Visit} (hv : h.visits[caller]? = some v) :
    h.success? caller = v.stage.answer?.map (v.call, ·) := by
  rw [success?, hv]
  rfl

/-- What a commit is that gives a call its answer. -/
structure Commit (pledge : Call → Pledge Answer) (h h' : Hall) (caller : Nat) (call : Call)
    (t : Transaction) (answer : Answer) : Prop where
  pledged : (pledge call).commits t (.done answer) h.machine.records
  records : h'.machine.records = t.publish h.machine.records
  listed : h'.commits = h.commits ++ [caller]
  before : h.success? caller = none
  after : h'.success? caller = some (call, answer)
  others : ∀ other, other ≠ caller → h'.success? other = h.success? other

variable {pledge : Call → Pledge Answer} {r : Records} {h : Hall}

/-- What an event changes: nothing of the commits, the records and the answers, or it is the
commit of one call. -/
theorem Fair.take_cases (hf : h.Fair peers pledge r) (pact : Pact peers pledge)
    (hdone : ∀ {call t next r}, (pledge call).commits t next r → ∃ a, next = .done a)
    (event : Event)
    (hcall : ∀ call, event = .call call →
      (Stage.active call.program none).answer? = none) :
    ((h.take event).commits = h.commits ∧
        (h.take event).machine.records = h.machine.records ∧
        ∀ caller, (h.take event).success? caller = h.success? caller) ∨
      ∃ caller call t answer, Commit pledge h (h.take event) caller call t answer := by
  cases event with
  | call call =>
      refine Or.inl ⟨rfl, rfl, fun caller => ?_⟩
      unfold success?
      show ((h.visits ++ [_])[caller]?.bind _) = _
      rcases Nat.lt_trichotomy caller h.visits.length with hlt | heq | hgt
      · rw [List.getElem?_append_left hlt]
      · rw [heq, List.getElem?_concat_length, List.getElem?_eq_none (Nat.le_refl _)]
        show (Stage.active call.program none).answer?.map _ = none
        rw [hcall call rfl]
        rfl
      · rw [List.getElem?_eq_none (Nat.le_of_lt hgt), List.getElem?_eq_none]
        rw [List.length_append, List.length_singleton]
        omega
  | reorder key queue =>
      exact Or.inl ⟨rfl, Machine.records_reorder _ _ _, fun _ => rfl⟩
  | turn stamp caller =>
      rcases h.take_turn_cases stamp caller with htake | ⟨v, hv, -, htake⟩
      · rw [htake]
        exact Or.inl ⟨rfl, rfl, fun _ => rfl⟩
      · rw [htake]
        have hlt : caller < h.visits.length := (List.getElem?_eq_some_iff.mp hv).1
        have hothers : ∀ (machine : Machine) (stage : Stage Answer) (commits : List Nat)
            (other : Nat), other ≠ caller →
            success? ⟨machine, h.visits.set caller { v with stage }, commits⟩ other =
              h.success? other := by
          intro machine stage commits other hne
          unfold success?
          rw [List.getElem?_set_ne (Ne.symm hne)]
        have hself : ∀ (machine : Machine) (stage : Stage Answer) (commits : List Nat),
            success? ⟨machine, h.visits.set caller { v with stage }, commits⟩ caller =
              stage.answer?.map (v.call, ·) := by
          intro machine stage commits
          exact success?_eq (h := ⟨machine, _, commits⟩) (List.getElem?_set_self hlt)
        have hkeeps := hf.keeps hv
        rcases v.stage.records_step h.machine caller stamp with
          ⟨hcommits, hrecords⟩ | ⟨next, place, hstage, hcommits, hnext, hrecords⟩
        · refine Or.inl ⟨?_, hrecords, fun other => ?_⟩
          · rw [hcommits]
            rfl
          · by_cases heq : other = caller
            · rw [heq, hself, success?_eq hv,
                Stage.answer?_step (pact.sound v.call).outside hkeeps hcommits]
            · exact hothers _ _ _ other heq
        · rw [hstage] at hkeeps
          have hpublishes : h.machine.publishes place.handle = true := by
            rw [hstage] at hcommits
            exact hcommits
          obtain ⟨-, hpledged⟩ := hkeeps.commits hpublishes
          obtain ⟨answer, rfl⟩ := hdone hpledged
          refine Or.inr ⟨caller, v.call, h.machine.transaction place.handle, answer,
            hpledged, hrecords, ?_, ?_, ?_, ?_⟩
          · rw [hcommits]
            rfl
          · rw [success?_eq hv, hstage]
            rfl
          · rw [hself, hnext]
            rfl
          · exact fun other hne => hothers _ _ _ other hne

/-- Every call that has an answer is listed once, and no other is. -/
structure Tallied (h : Hall) : Prop where
  once : h.commits.Nodup
  answered : ∀ caller, caller ∈ h.commits ↔ (h.success? caller).isSome

theorem tallied_start (m : Machine) : Tallied { machine := m } :=
  ⟨List.nodup_nil, fun _ => ⟨fun h => absurd h List.not_mem_nil, fun h => nomatch h⟩⟩

theorem Tallied.not_listed {h h' : Hall} (ht : h.Tallied) {caller : Nat} {call : Call}
    {t : Transaction} {answer : Answer} (hc : Commit pledge h h' caller call t answer) :
    caller ∉ h.commits := by
  rw [ht.answered, hc.before]
  exact Bool.false_ne_true

/-- What is listed of the calls that have committed grows by what is listed of the next one. -/
theorem Tallied.filterMap_commit {h h' : Hall} (ht : h.Tallied) {caller : Nat} {call : Call}
    {t : Transaction} {answer : Answer} (hc : Commit pledge h h' caller call t answer)
    (list : Nat → Call × Answer → Option α) :
    (h'.commits.filterMap fun other => (h'.success? other).bind (list other)) =
      (h.commits.filterMap fun other => (h.success? other).bind (list other)) ++
        (list caller (call, answer)).toList := by
  rw [hc.listed, List.filterMap_append]
  congr 1
  · refine List.filterMap_congr fun other hother => ?_
    rw [hc.others other]
    rintro rfl
    exact ht.not_listed hc hother
  · rw [List.filterMap_cons, hc.after, Option.bind_some]
    cases list caller (call, answer) <;> rfl

theorem Tallied.commit {h h' : Hall} (ht : h.Tallied) {caller : Nat} {call : Call}
    {t : Transaction} {answer : Answer} (hc : Commit pledge h h' caller call t answer) :
    h'.Tallied := by
  have hnew := ht.not_listed hc
  constructor
  · rw [hc.listed, ← List.concat_eq_append]
    exact ht.once.concat hnew
  · intro other
    rw [hc.listed, List.mem_append, List.mem_singleton]
    by_cases heq : other = caller
    · rw [heq, hc.after]
      exact ⟨fun _ => rfl, fun _ => Or.inr rfl⟩
    · rw [hc.others other heq, ht.answered]
      exact ⟨fun h => h.resolve_right heq, Or.inl⟩

theorem Tallied.of_eq {h h' : Hall} (ht : h.Tallied) (hcommits : h'.commits = h.commits)
    (hsuccess : ∀ caller, h'.success? caller = h.success? caller) : h'.Tallied := by
  refine ⟨by rw [hcommits]; exact ht.once, fun caller => ?_⟩
  rw [hcommits, hsuccess]
  exact ht.answered caller

end Hall

end Bookable.Store
