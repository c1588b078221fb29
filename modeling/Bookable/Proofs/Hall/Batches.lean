import Mathlib.Data.List.Forall2
import Bookable.Proofs.Hall.Patches
import Bookable.Proofs.Hall.Progress
import Bookable.Proofs.Store.Table

/-!
# Batches of rules

A batch of drafts is stored one draft a transaction, each after it has passed the check.
The first draft that does not pass ends the call, so what a batch leaves on record are
the drafts before it: the longest part of the batch from its beginning on that has no
unusable draft in it. They are appended in their order, with their times in normal form,
and nothing else on record changes. The call fails for what the check says of the draft
that ended it: a breach of a rule of the domain, unless the value that is to blame is too
long to be written out.

The stored rules get new identifiers. That is up to the supply: if an identifier that it
is still to give out were on record already, the rule of that identifier would be
replaced, whosever it is.
-/

namespace Bookable

open Store Time

variable {α : Type}

/-- A rule on record is what a draft of a user asks for, with its times as times are written. -/
def RuleDraft.StoredAs (user : String) (draft : RuleDraft) (rule : Rule) : Prop :=
  ∃ stamp start stop, givenTime draft.startTime = .ok start ∧
    givenTime draft.endTime = .ok stop ∧
    rule = newRule stamp { draft.rule user with
      startTime := .ofTime start, endTime := .ofTime stop }

/-! ## Storing one rule -/

namespace Store

/-- No rule has an identifier that a supply is still to give out. -/
def Supply.NewTo (s : Supply) (r : Records) : Prop :=
  ∀ n, s.issued ≤ n → ∀ rule ∈ r.rules, rule.id ≠ some (s.names.name n)

/-- A supply that has given out every identifier on record gives out new ones from then on. -/
theorem Supply.Covers.newTo {s : Supply} {r : Records} (h : s.Covers r) : s.NewTo r := by
  intro n hn rule hrule hid
  obtain ⟨m, hm, hname⟩ := h.rules rule hrule
  have heq := s.names.distinct (Option.some.inj (hname.symm.trans hid))
  omega

/-- The supply after a rule has been stored and read back. -/
def Supply.afterStoring (s : Supply) (user : String) (rule : Rule) : Supply :=
  (s.after (.insertRule rule)).after (.findRule user s.stamp.id)

theorem Supply.NewTo.store {s : Supply} {r : Records} (h : s.NewTo r) (user : String)
    (rule : Rule) : (s.afterStoring user rule).NewTo
      { r with rules := r.rules ++ [newRule s.stamp rule] } := by
  intro n hn other hother
  change s.issued + 1 ≤ n at hn
  rcases List.mem_append.mp hother with hold | hnew
  · exact h n (by omega) other hold
  · rw [List.mem_singleton.mp hnew]
    intro hid
    have heq := s.names.distinct (Option.some.inj hid)
    omega

end Store

/-- A rule of a user that is stored under a new identifier is read back, and is the last one on
record. -/
theorem solo_storeRule {r : Records} {s : Supply} (hnew : s.NewTo r) {user : String} {rule : Rule}
    (huser : rule.user = user) (f : Option Rule → Program α) :
    ((Service.storeRule user rule).bind f).solo none r s =
      (f (some (newRule s.stamp rule))).solo none
        { r with rules := r.rules ++ [newRule s.stamp rule] } (s.afterStoring user rule) := by
  let new := newRule s.stamp rule
  let t : Transaction := { newRules := [new] }
  have hfresh : ∀ old ∈ r.rules, old.id ≠ some s.stamp.id := hnew s.issued (Nat.le_refl _)
  have hseen : (t.view r).rules = r.rules ++ [new] := by
    show r.rules.map t.seenRule ++ [new] = _
    rw [show t.seenRule = id from rfl, List.map_id]
  have hfound : (t.view r).findRule user s.stamp.id = some new := by
    have hnone : r.rules.find? (fun old => old.id == some s.stamp.id && old.user == user) =
        none := by
      rw [List.find?_eq_none]
      intro old hold hmatch
      rw [Bool.and_eq_true, beq_iff_eq] at hmatch
      exact hfresh old hold hmatch.1
    rw [Records.findRule, hseen, List.find?_append, hnone, Option.none_or, List.find?_singleton,
      if_pos]
    rw [Bool.and_eq_true, beq_iff_eq, beq_iff_eq]
    exact ⟨rfl, huser⟩
  have hpublished : t.publish r = { r with rules := r.rules ++ [new] } := by
    show ({ rules := put Rule.id new r.rules, bookings := r.bookings } : Records) = _
    rw [put_of_fresh hfresh]
  have hclear : t.conflicts r = false := rfl
  show (if t.conflicts r = true then
      (.error .alreadyBooked, r, s.afterStoring user rule)
    else (f ((t.view r).findRule user s.stamp.id)).solo none (t.publish r)
      (s.afterStoring user rule)) = _
  rw [hclear, if_neg Bool.false_ne_true, hfound, hpublished]

/-! ## Storing a batch -/

/-- What becomes of a batch: the rules that are stored, and the result. -/
inductive Batch (user : String) :
    List RuleDraft → List Rule → Except Error (List Rule) → Prop where
  | nil : Batch user [] [] (.ok [])
  | refused {draft : RuleDraft} {cause : Error}
      (check : (draft.rule user).normalized = .error cause) (drafts : List RuleDraft) :
      Batch user (draft :: drafts) [] (.error cause)
  | stored {draft : RuleDraft} {rule : Rule} {drafts : List RuleDraft} {rules : List Rule}
      {result : Except Error (List Rule)} (passes : (draft.rule user).Passes)
      (first : draft.StoredAs user rule) (rest : Batch user drafts rules result) :
      Batch user (draft :: drafts) (rule :: rules) (result.map (rule :: ·))

theorem solo_setAvailability (user : String) (drafts : List RuleDraft) {r : Records} {s : Supply}
    (hnew : s.NewTo r) : ∃ rules result s', Batch user drafts rules result ∧
      s'.NewTo { r with rules := r.rules ++ rules } ∧
      (Service.setAvailability user drafts).solo none r s =
        (result, { r with rules := r.rules ++ rules }, s') := by
  induction drafts generalizing r s with
  | nil =>
      refine ⟨[], .ok [], s, .nil, ?_⟩
      rw [List.append_nil]
      exact ⟨hnew, rfl⟩
  | cons draft drafts ih =>
      have hprogram : Service.setAvailability user (draft :: drafts) =
          (Program.ofExcept (draft.rule user).normalized).bind fun rule =>
            (Service.storeRule user rule).bind fun stored =>
              (Service.setAvailability user drafts).bind fun others =>
                .done (stored.toList ++ others) := rfl
      rw [hprogram]
      by_cases hpasses : (draft.rule user).Passes
      · obtain ⟨start, stop, hstart, hstop, hnormal⟩ := hpasses.normalized
        rw [hnormal]
        obtain ⟨rules, result, s', hbatch, hnew', hsolo⟩ := ih (hnew.store user
          { draft.rule user with startTime := .ofTime start, endTime := .ofTime stop })
        rw [List.append_assoc] at hnew' hsolo
        refine ⟨_, _, s', .stored hpasses ⟨s.stamp, start, stop, hstart, hstop, rfl⟩ hbatch,
          hnew', ?_⟩
        have huser : Rule.user { draft.rule user with
            startTime := .ofTime start, endTime := .ofTime stop } = user := rfl
        refine (solo_storeRule hnew huser _).trans ((Program.solo_map _ _ _ _ _).trans ?_)
        rw [hsolo]
        rfl
      · obtain ⟨cause, hcause, -⟩ := Rule.exists_refusal hpasses
        refine ⟨[], .error cause, s, .refused hcause drafts, ?_⟩
        rw [hcause, List.append_nil]
        exact ⟨hnew, rfl⟩

namespace Batch

variable {user : String} {drafts : List RuleDraft} {rules : List Rule}
  {result : Except Error (List Rule)}

theorem user_eq (h : Batch user drafts rules result) : ∀ rule ∈ rules, rule.user = user := by
  induction h with
  | nil => exact fun _ hrule => absurd hrule List.not_mem_nil
  | refused => exact fun _ hrule => absurd hrule List.not_mem_nil
  | stored _ first _ ih =>
      obtain ⟨stamp, start, stop, -, -, rfl⟩ := first
      intro rule hrule
      rcases List.mem_cons.mp hrule with rfl | hrest
      · rfl
      · exact ih rule hrest

/-- A batch of drafts that all pass is stored and answered with the rules. -/
theorem all_stored (h : Batch user drafts rules result)
    (hpass : ∀ draft ∈ drafts, (draft.rule user).Passes) :
    result = .ok rules ∧ List.Forall₂ (RuleDraft.StoredAs user) drafts rules := by
  induction h with
  | nil => exact ⟨rfl, .nil⟩
  | @refused draft cause check drafts =>
      obtain ⟨start, stop, -, -, hnormal⟩ := (hpass draft List.mem_cons_self).normalized
      rw [check] at hnormal
      cases hnormal
  | stored _ first _ ih =>
      obtain ⟨rfl, hrest⟩ := ih fun draft hdraft => hpass draft (List.mem_cons_of_mem _ hdraft)
      exact ⟨rfl, .cons first hrest⟩

/-- The first draft that does not pass is why a batch is refused, and what is before it is
stored. -/
theorem refused_at {before after : List RuleDraft} {draft : RuleDraft}
    (h : Batch user (before ++ draft :: after) rules result)
    (hpass : ∀ draft ∈ before, (draft.rule user).Passes) (hfails : ¬ (draft.rule user).Passes) :
    ∃ cause, (draft.rule user).normalized = .error cause ∧ result = .error cause ∧
      List.Forall₂ (RuleDraft.StoredAs user) before rules := by
  induction before generalizing rules result with
  | nil =>
      cases h with
      | refused check => exact ⟨_, check, rfl, .nil⟩
      | stored passes => exact absurd passes hfails
  | cons other before ih =>
      cases h with
      | refused check =>
          obtain ⟨start, stop, -, -, hnormal⟩ := (hpass other List.mem_cons_self).normalized
          rw [check] at hnormal
          cases hnormal
      | stored _ first rest =>
          obtain ⟨cause, hcause, rfl, hrest⟩ :=
            ih rest fun draft hdraft => hpass draft (List.mem_cons_of_mem _ hdraft)
          exact ⟨cause, hcause, rfl, .cons first hrest⟩

end Batch

/-! ## The call -/

/-- A call to set rules comes to what becomes of the batch, at every desk. -/
theorem Store.Desk.serve_setAvailability {d : Desk} (hnew : d.supply.NewTo d.machine.records)
    (caller : Nat) (user : String) (drafts : List RuleDraft) :
    ∃ result d' rules,
      Desk.serve caller (Call.setAvailability user drafts).program none d =
        (.ended (result.map Answer.rules), d') ∧
      d'.machine.records =
        { d.machine.records with rules := d.machine.records.rules ++ rules } ∧
      d'.supply.NewTo d'.machine.records ∧ Batch user drafts rules result := by
  have hkeyless : Keyless (Call.setAvailability user drafts).program :=
    keyless_bind (keyless_setAvailability user drafts) fun _ => trivial
  obtain ⟨d', hserve, hrecords, hsupply⟩ := Desk.serve_keyless hkeyless caller d
  obtain ⟨rules, result, s', hbatch, hnew', hsolo⟩ := solo_setAvailability user drafts hnew
  have hcall : (Call.setAvailability user drafts).program.solo none d.machine.records d.supply =
      (result.map Answer.rules,
        { d.machine.records with rules := d.machine.records.rules ++ rules }, s') := by
    refine (Program.solo_map _ _ _ _ _).trans ?_
    rw [hsolo]
  rw [hcall] at hserve hrecords hsupply
  refine ⟨result, d', rules, hserve, hrecords, ?_, hbatch⟩
  rw [hrecords, hsupply]
  exact hnew'

theorem Store.Desk.answers_rules (d : Desk) (user : String) :
    d.Answers (.listAvailability user) (.ok (.rules (d.machine.records.rulesOf user))) := by
  have hcall : (Call.listAvailability user).program =
      (Program.transaction (Program.send (.rulesOf user))).bind (.done ∘ Answer.rules) := rfl
  refine d.answers_lookup hcall rfl ?_
  rw [Transaction.perform, Transaction.view_blank]

/-- The rules of a user after rules of one user have been appended. -/
theorem Store.Records.rulesOf_append {r : Records} {user : String} {rules : List Rule}
    (hrules : ∀ rule ∈ rules, rule.user = user) :
    Records.rulesOf { r with rules := r.rules ++ rules } user = r.rulesOf user ++ rules ∧
      ∀ other, other ≠ user →
        Records.rulesOf { r with rules := r.rules ++ rules } other = r.rulesOf other := by
  unfold rulesOf
  simp only [List.filter_append]
  refine ⟨?_, fun other hne => ?_⟩
  · rw [List.filter_eq_self.mpr fun rule hrule => beq_iff_eq.mpr (hrules rule hrule)]
  · have hnone : rules.filter (·.user == other) = [] := by
      rw [List.filter_eq_nil_iff]
      intro rule hrule huser
      exact hne ((beq_iff_eq.mp huser).symm.trans (hrules rule hrule))
    rw [hnone, List.append_nil]

/-- A call to set rules ends at every desk that gives out new identifiers, which the desk goes on to
do. It appends rules of the user to those on record, where they are listed after the ones before,
and changes nothing else. If all drafts pass the check, there is one rule for each of them, in their
order, and they are the answer. Otherwise there is one for each draft before the first that does not
pass, and the answer is what the check says of that one, which is a breach of a rule of the domain
if and only if the value that is to blame, if there is one, can be written out. -/
theorem longest_valid_part_stored {d : Desk} (hnew : d.supply.NewTo d.machine.records)
    (caller : Nat) (user : String) (drafts : List RuleDraft) :
    ∃ result d' rules,
      Desk.serve caller (Call.setAvailability user drafts).program none d =
        (.ended result, d') ∧
      d'.machine.records =
        { d.machine.records with rules := d.machine.records.rules ++ rules } ∧
      d'.supply.NewTo d'.machine.records ∧
      ((∀ draft ∈ drafts, (draft.rule user).Passes) → result = .ok (.rules rules) ∧
        List.Forall₂ (RuleDraft.StoredAs user) drafts rules) ∧
      (∀ before draft after, drafts = before ++ draft :: after →
        (∀ other ∈ before, (other.rule user).Passes) → ¬ (draft.rule user).Passes →
        ∃ cause, Rule.checked draft.dayOfWeek draft.startTime draft.endTime draft.slotLength =
            .error cause ∧ result = .error cause ∧
          (cause.kind = .validation ∨ cause.kind = .number) ∧
          (cause.kind = .validation ↔ (draft.rule user).Nameable) ∧
          List.Forall₂ (RuleDraft.StoredAs user) before rules) ∧
      d.Answers (.listAvailability user) (.ok (.rules (d.machine.records.rulesOf user))) ∧
      d'.Answers (.listAvailability user)
        (.ok (.rules (d.machine.records.rulesOf user ++ rules))) ∧
      ∀ other, other ≠ user → d'.Answers (.listAvailability other)
        (.ok (.rules (d.machine.records.rulesOf other))) := by
  obtain ⟨result, d', rules, hserve, hrecords, hsupply, hbatch⟩ :=
    Desk.serve_setAvailability hnew caller user drafts
  obtain ⟨hmine, hothers⟩ := d.machine.records.rulesOf_append hbatch.user_eq
  refine ⟨_, d', rules, hserve, hrecords, hsupply, fun hpass => ?_, ?_, d.answers_rules user,
    ?_, ?_⟩
  · obtain ⟨rfl, hstored⟩ := hbatch.all_stored hpass
    exact ⟨rfl, hstored⟩
  · rintro before draft after rfl hpass hfails
    obtain ⟨cause, hcause, rfl, hstored⟩ := hbatch.refused_at hpass hfails
    obtain ⟨-, hrefused⟩ := Rule.refusedFor_of_normalized hcause
    exact ⟨cause, Rule.checked_of_normalized hcause, rfl, hrefused.kind_cases,
      hrefused.validation_iff, hstored⟩
  · have hanswers := d'.answers_rules user
    rw [hrecords, hmine] at hanswers
    exact hanswers
  · intro other hne
    have hanswers := d'.answers_rules other
    rw [hrecords, hothers other hne] at hanswers
    exact hanswers

/-- A batch of three drafts, of which the second one ends before it starts, for a user who has a
rule already. The first one is stored, and its start is written with two digits. -/
theorem first_of_three_stored :
    let d := deskWith {
      user := "user-1", dayOfWeek := .int 5, startTime := .text "09:00",
      endTime := .text "10:00", slotLength := .int 20 }
    let first : RuleDraft := {
      dayOfWeek := .int 1, startTime := .text "9:00", endTime := .text "10:00",
      slotLength := .int 20 }
    let second : RuleDraft := { first with startTime := .text "12:00", endTime := .text "11:00" }
    let third : RuleDraft := { first with dayOfWeek := .int 2 }
    d.supply.NewTo d.machine.records ∧ (first.rule "user-1").Passes ∧
      ¬ (second.rule "user-1").Passes ∧ ∃ d' rule,
        Desk.serve 0 (Call.setAvailability "user-1" [first, second, third]).program none d =
          (.ended (.error .timesNotOrdered), d') ∧
        rule.startTime = .text "09:00" ∧ d'.Answers (.listAvailability "user-1")
          (.ok (.rules (d.machine.records.rulesOf "user-1" ++ [rule]))) := by
  intro d first second third
  have hcovers : d.supply.Covers d.machine.records := by
    refine ⟨fun rule hrule => ⟨0, Nat.one_pos, ?_⟩, fun _ hb => absurd hb List.not_mem_nil⟩
    have hids : ∀ rule ∈ d.machine.records.rules, rule.id = some (numbered.name 0) := by
      decide +kernel
    exact hids rule hrule
  have hpasses : (first.rule "user-1").Passes := by
    refine ⟨⟨1, rfl, by decide⟩, ⟨20, rfl, by decide⟩, ⟨9, 0, by decide, by decide⟩,
      ⟨10, 0, by decide, by decide⟩, ?_, ?_, by decide⟩ <;> rfl
  have hrefused : Rule.checked second.dayOfWeek second.startTime second.endTime
      second.slotLength = .error .timesNotOrdered := rfl
  have hfails : ¬ (second.rule "user-1").Passes := by
    intro hpasses
    obtain ⟨start, stop, -, -, hnormal⟩ := hpasses.normalized
    obtain ⟨times, hchecked, -⟩ := bind_eq_ok.mp hnormal
    cases hrefused.symm.trans hchecked
  obtain ⟨result, d', rules, hserve, -, -, -, hbatch, -, hlisted, -⟩ :=
    longest_valid_part_stored hcovers.newTo 0 "user-1" [first, second, third]
  obtain ⟨cause, hcause, rfl, -, -, hstored⟩ :=
    hbatch [first] second [third] rfl (by simpa using hpasses) hfails
  obtain ⟨rule, hrule, rfl⟩ : ∃ rule, first.StoredAs "user-1" rule ∧ rules = [rule] := by
    cases hstored with
    | cons hrule hrest =>
        cases hrest
        exact ⟨_, hrule, rfl⟩
  obtain ⟨stamp, start, stop, hstart, -, rfl⟩ := hrule
  cases hrefused.symm.trans hcause
  cases hstart.symm.trans (show givenTime first.startTime =
    .ok ⟨9, 0, by decide, by decide⟩ from rfl)
  exact ⟨hcovers.newTo, hpasses, hfails, d', _, hserve, rfl, hlisted⟩

/-- A day with more digits than can be written out is not refused for a breach of a rule. -/
theorem long_day_not_named :
    let d : Desk := { machine := {}, supply := { now := ⟨0, horizon_pos⟩ } }
    let first : RuleDraft := {
      dayOfWeek := .int 1, startTime := .text "9:00", endTime := .text "10:00",
      slotLength := .int 20 }
    let second : RuleDraft :=
      { first with dayOfWeek := .int (Number.tenTo Number.digitLimit : Nat) }
    (first.rule "user-1").Passes ∧ ¬ (second.rule "user-1").Passes ∧ ∃ d',
      Desk.serve 0 (Call.setAvailability "user-1" [first, second]).program none d =
        (.ended (.error .numberTooLong), d') ∧
      Error.numberTooLong.kind ≠ .validation := by
  intro d first second
  have hnew : d.supply.NewTo d.machine.records := fun _ _ _ hrule => absurd hrule List.not_mem_nil
  have hpasses : (first.rule "user-1").Passes := by
    refine ⟨⟨1, rfl, by decide⟩, ⟨20, rfl, by decide⟩, ⟨9, 0, by decide, by decide⟩,
      ⟨10, 0, by decide, by decide⟩, ?_, ?_, by decide⟩ <;> rfl
  have hday : ¬ (second.rule "user-1").dayOfWeek.IsWeekday := by
    rintro ⟨n, hn, -, hle⟩
    cases hn
    revert hle
    decide +kernel
  have hfails : ¬ (second.rule "user-1").Passes := fun h => hday h.day
  obtain ⟨result, d', rules, hserve, -, -, hbatch⟩ :=
    Desk.serve_setAvailability hnew 0 "user-1" [first, second]
  have hsplit : Batch "user-1" ([first] ++ second :: []) rules result := hbatch
  obtain ⟨cause, hcause, rfl, -⟩ := hsplit.refused_at (by simpa using hpasses) hfails
  have hlong : (second.rule "user-1").dayOfWeek.isWritable = false :=
    Value.isWritable_int.mpr (Int.natAbs_natCast _).ge
  have hrefused := Rule.checked_day hday second.startTime second.endTime second.slotLength
  rw [Error.blaming, hlong, if_neg Bool.false_ne_true] at hrefused
  cases (Rule.checked_of_normalized hcause).symm.trans hrefused
  exact ⟨hpasses, hfails, d', hserve, by decide⟩

end Bookable
