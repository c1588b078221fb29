import Bookable.Proofs.Hall.Updates

/-!
# An update that is overtaken is lost

What two updates leave on record depends on a single thing, whether the later one to
commit has looked the rule up before the earlier one has committed. If not, it has found
the changes of the earlier one and stores them with its own. If so, it stores the old
values in their place, and the earlier update is gone although it has been answered:
it has been overtaken.
-/

namespace Bookable

open Store Time

namespace Store.Hall

variable {user id : String} {changes : Nat → RuleChanges} {current : Rule}
  {seen : Nat → Option Rule} {h : Hall}

/-- Whether the call of a caller has looked its rule up. -/
def hasLooked (h : Hall) (caller : Nat) : Bool := (h.stage? caller).any Stage.hasLooked

theorem Edited.hasLooked (he : h.Edited user id changes current seen) (caller : Nat) :
    h.hasLooked caller = (seen caller).isSome := by
  unfold Hall.hasLooked
  cases hv : h.visits[caller]? with
  | none =>
      rw [stage?, hv, (he.absent (List.getElem?_eq_none_iff.mp hv)).1]
      rfl
  | some v =>
      rw [stage?_eq hv]
      exact (he.stands hv).hasLooked

/-- Whether at some moment of a run one caller has looked its rule up and another one has not
committed. -/
def overtaken (first last : Nat) (h : Hall) : List Event → Bool
  | [] => decide (first ∉ h.commits) && h.hasLooked last
  | event :: events =>
      decide (first ∉ h.commits) && h.hasLooked last || overtaken first last (h.take event) events

theorem overtaken_now {first last : Nat} (hfirst : first ∉ h.commits)
    (hlast : h.hasLooked last = true) (events : List Event) :
    overtaken first last h events = true := by
  cases events <;> simp [overtaken, hfirst, hlast]

theorem overtaken_never {first : Nat} (hfirst : first ∈ h.commits) (last : Nat)
    (events : List Event) : overtaken first last h events = false := by
  induction events generalizing h with
  | nil => simp [overtaken, hfirst]
  | cons event events ih => simp [overtaken, hfirst, ih (mem_commits_take hfirst event)]

/-! ## Two updates -/

/-- The calls that are there, and those that are still to come, are two updates of one rule. -/
def Both (user id : String) (changes : Nat → RuleChanges) (h : Hall) (events : List Event) :
    Prop :=
  h.visits.map Visit.call ++ events.filterMap Event.call? =
    [.updateAvailability user id (changes 0), .updateAvailability user id (changes 1)]

section Both

variable {event : Event} {events : List Event}

theorem Both.take (hb : h.Both user id changes (event :: events)) :
    (h.take event).Both user id changes events := by
  unfold Both at hb ⊢
  rw [calls_take, ← hb, List.append_assoc, List.filterMap_cons]
  cases event.call? <;> rfl

theorem Both.call (hb : h.Both user id changes (event :: events)) :
    ∀ call, event = .call call →
      call = .updateAvailability user id (changes h.visits.length) := by
  rintro call rfl
  unfold Both at hb
  rw [List.filterMap_cons] at hb
  simp only [Event.call?] at hb
  rw [← List.length_map (f := Visit.call)]
  generalize h.visits.map Visit.call = calls at hb
  rcases calls with _ | ⟨_, _ | ⟨_, calls⟩⟩
  · exact (List.cons.inj hb).1
  · exact (List.cons.inj (List.cons.inj hb).2).1
  · have hrest := (List.cons.inj (List.cons.inj hb).2).2
    cases (List.append_eq_nil_iff.mp hrest).2

theorem Both.length_le (hb : h.Both user id changes events) : h.visits.length ≤ 2 := by
  have hlength := congrArg List.length hb
  rw [List.length_append, List.length_map] at hlength
  change _ = 2 at hlength
  omega

/-- The callers are the first one and the second one. -/
theorem Edited.lt_two (he : h.Edited user id changes current seen)
    (hb : h.Both user id changes events) {caller : Nat} (hmem : caller ∈ h.commits) :
    caller < 2 := by
  have hle := hb.length_le
  rcases Nat.lt_or_ge caller h.visits.length with hlt | hge
  · omega
  · exact absurd hmem (he.absent hge).2

/-- When both have committed, nothing changes any more. -/
theorem Edited.run_both (he : h.Edited user id changes current seen)
    (hb : h.Both user id changes events) (hall : ∀ caller < 2, caller ∈ h.commits) :
    (h.run events).commits = h.commits ∧
      (h.run events).machine.records.findRule user id = some current := by
  induction events generalizing h seen with
  | nil => exact ⟨rfl, he.found⟩
  | cons event events ih =>
      rcases he.take event hb.call with
        ⟨seen', he', hcommits, -⟩ | ⟨caller, _, _, _, -, hout, -, hcommits, he'⟩
      · rw [← hcommits]
        refine ih he' hb.take ?_
        rw [hcommits]
        exact hall
      · have hmem : caller ∈ (h.take event).commits := by
          rw [hcommits]
          exact List.mem_append_right _ (List.mem_singleton_self _)
        exact absurd (hall caller (he'.lt_two hb.take hmem)) hout

/-- When one has committed, the other one stores what it has looked up, or will, with its
changes. -/
theorem Edited.run_one {first last : Nat} (he : h.Edited user id changes current seen)
    (hb : h.Both user id changes events) (hpair : ∀ caller < 2, caller = first ∨ caller = last)
    (hlast : last < 2) (hne : last ≠ first) (hone : h.commits = [first])
    (hsuccess : ∀ caller < 2, ∃ answer,
      (h.run events).stage? caller = some (.ended (.ok answer))) :
    ∃ rule now, (h.run events).commits = [first, last] ∧
      (h.run events).machine.records.findRule user id = some (rule.stamped now) ∧
      ((seen last).getD current).changed (changes last) = .ok rule := by
  induction events generalizing h seen with
  | nil =>
      obtain ⟨answer, hanswer⟩ := hsuccess last hlast
      have hmem := he.committed hanswer
      rw [hone, List.mem_singleton] at hmem
      exact absurd hmem hne
  | cons event events ih =>
      rcases he.take event hb.call with
        ⟨seen', he', hcommits, hlooks⟩ |
        ⟨caller, looked, rule, now, hseen, hout, hchanged, hcommits, he'⟩
      · obtain ⟨rule, now, hboth, hfound, hchanged⟩ :=
          ih he' hb.take (hcommits.trans hone) hsuccess
        refine ⟨rule, now, hboth, hfound, ?_⟩
        rcases hlooks last with heq | ⟨hnone, hsome⟩
        · rw [← heq]
          exact hchanged
        · rw [hsome] at hchanged
          rw [hnone]
          exact hchanged
      · rw [hone] at hcommits hout
        have hmem : caller ∈ (h.take event).commits := by
          rw [hcommits]
          exact List.mem_append_right _ (List.mem_singleton_self _)
        rcases hpair caller (he'.lt_two hb.take hmem) with rfl | rfl
        · exact absurd (List.mem_singleton_self _) hout
        · obtain ⟨hboth, hfound⟩ := he'.run_both hb.take fun other hother => by
            rw [hcommits]
            rcases hpair other hother with rfl | rfl
            · exact List.mem_cons_self
            · exact List.mem_cons_of_mem _ List.mem_cons_self
          refine ⟨rule, now, hboth.trans hcommits, hfound, ?_⟩
          rw [hseen]
          exact hchanged

/-- When none has committed, it depends on whether the later one has looked, or will look, before
the earlier one commits. -/
theorem Edited.run_none {old : Rule} (he : h.Edited user id changes old seen)
    (hb : h.Both user id changes events) (hnone : h.commits = [])
    (hseen : ∀ caller rule, seen caller = some rule → rule = old)
    (hsuccess : ∀ caller < 2, ∃ answer,
      (h.run events).stage? caller = some (.ended (.ok answer))) :
    ∃ first last rule now, (first = 0 ∧ last = 1 ∨ first = 1 ∧ last = 0) ∧
      (h.run events).commits = [first, last] ∧
      (h.run events).machine.records.findRule user id = some (rule.stamped now) ∧
      (overtaken first last h events = false →
        old.changed ((changes first).and (changes last)) = .ok rule) ∧
      (overtaken first last h events = true → old.changed (changes last) = .ok rule) := by
  induction events generalizing h seen with
  | nil =>
      obtain ⟨answer, hanswer⟩ := hsuccess 0 (by decide)
      have hmem := he.committed hanswer
      rw [hnone] at hmem
      cases hmem
  | cons event events ih =>
      rcases he.take event hb.call with
        ⟨seen', he', hcommits, hlooks⟩ |
        ⟨caller, looked, rule, now, hlooked, -, hchanged, hcommits, he'⟩
      · rw [hnone] at hcommits
        have hseen' : ∀ caller rule, seen' caller = some rule → rule = old := by
          intro caller rule hrule
          rcases hlooks caller with heq | ⟨-, heq⟩
          · exact hseen caller rule (heq.symm.trans hrule)
          · exact (Option.some.inj (heq.symm.trans hrule)).symm
        obtain ⟨first, last, rule, now, hpair, hrest⟩ := ih he' hb.take hcommits hseen' hsuccess
        refine ⟨first, last, rule, now, hpair, ?_⟩
        have hlater : overtaken first last h (event :: events) =
            overtaken first last (h.take event) events := by
          rw [overtaken, he.hasLooked, hnone]
          cases hlook : seen last with
          | none => rfl
          | some rule =>
              rw [overtaken_now]
              · rfl
              · rw [hcommits]
                exact List.not_mem_nil
              · rw [he'.hasLooked]
                rcases hlooks last with heq | ⟨-, heq⟩
                · rw [heq, hlook]
                  rfl
                · rw [heq]
                  rfl
        rw [hlater]
        exact hrest
      · rw [hnone] at hcommits
        have hmem : caller ∈ (h.take event).commits := by
          rw [hcommits]
          exact List.mem_singleton_self _
        have hcaller := he'.lt_two hb.take hmem
        obtain ⟨last, hpair⟩ : ∃ last, caller = 0 ∧ last = 1 ∨ caller = 1 ∧ last = 0 :=
          ⟨1 - caller, by omega⟩
        have hothers : ∀ other < 2, other = caller ∨ other = last := by
          intro other hother
          omega
        obtain ⟨rule', now', hboth, hfound, hchanged'⟩ :=
          he'.run_one hb.take hothers (by omega) (by omega) hcommits hsuccess
        have hdecided : overtaken caller last h (event :: events) = (seen last).isSome := by
          rw [overtaken, overtaken_never hmem, he.hasLooked, hnone]
          cases (seen last) <;> rfl
        obtain rfl := hseen caller looked hlooked
        cases hlook : seen last with
        | none =>
            rw [hlook] at hchanged' hdecided
            obtain ⟨both, hmerged, rfl⟩ := Rule.changed_changed hchanged hchanged'
            refine ⟨caller, last, both, now', hpair, hboth, hfound, fun _ => hmerged, ?_⟩
            intro hover
            rw [hdecided] at hover
            cases hover
        | some rule =>
            rw [hlook] at hchanged' hdecided
            rw [Option.getD_some, hseen last rule hlook] at hchanged'
            refine ⟨caller, last, rule', now', hpair, hboth, hfound, ?_, fun _ => hchanged'⟩
            intro hnot
            rw [hdecided] at hnot
            cases hnot

end Both

end Store.Hall

/-- Identifiers of rules occur once, since a rule takes the place of one with its identifier. -/
theorem Store.Machine.Settled.nodup_rules {m : Machine} (hm : m.Settled) :
    (m.records.rules.map Rule.id).Nodup := by
  obtain ⟨events, -, rfl⟩ := hm
  have hpublish : ∀ {t : Transaction} {r : Records}, True → (r.rules.map Rule.id).Nodup →
      ((t.publish r).rules.map Rule.id).Nodup := fun _ hr => nodup_foldl_put hr
  have hfair : (Hall.run {} events).Fair
      (Peers.keeping fun r => (r.rules.map Rule.id).Nodup)
      (fun _ => Pledge.writing fun _ => True) {} :=
    Hall.Fair.run (pact_writing hpublish) (fun call _ r _ => Hall.keeps_any call r)
      (Hall.Fair.start Hall.orderly_empty)
  exact hfair.reached List.nodup_nil

/-- Two updates of a rule on record that both succeed, in whatever order they take their turns. The
rule that is on record afterwards has the changes of both if the later one to commit has not
looked it up before the earlier one had committed. Otherwise it has the changes of the later one,
and the old values in all other fields. -/
theorem kept_unless_overtaken {m : Machine} (hm : m.Settled) {user id : String} {old : Rule}
    (hold : m.records.findRule user id = some old) {changes : Nat → RuleChanges}
    {events : List Event}
    (hcalls : events.filterMap Event.call? =
      [.updateAvailability user id (changes 0), .updateAvailability user id (changes 1)])
    (hsuccess : ∀ caller < 2, ∃ answer,
      (Hall.run { machine := m } events).stage? caller = some (.ended (.ok answer))) :
    let h := Hall.run { machine := m } events
    ∃ first last rule now, (first = 0 ∧ last = 1 ∨ first = 1 ∧ last = 0) ∧
      h.commits = [first, last] ∧
      h.machine.records.findRule user id = some (rule.stamped now) ∧
      (Hall.overtaken first last { machine := m } events = false →
        old.changed ((changes first).and (changes last)) = .ok rule) ∧
      (Hall.overtaken first last { machine := m } events = true →
        old.changed (changes last) = .ok rule) := by
  intro h
  obtain ⟨-, horderly, -⟩ := hm.spec
  have he : Hall.Edited user id changes old (fun _ => none) { machine := m } := by
    refine ⟨⟨horderly, fun hv => (nomatch hv), fun _ => trivial⟩, hm.nodup_rules, hold, ?_, ?_, ?_⟩
    · exact fun hnone => nomatch hnone
    · exact fun _ => ⟨rfl, List.not_mem_nil⟩
    · exact fun hv => nomatch hv
  exact he.run_none hcalls rfl (fun _ _ hnone => nomatch hnone) hsuccess

/-! ## A new title and a new length -/

def Store.Stage.succeeded : Stage Answer → Bool
  | .ended (.ok _) => true
  | _ => false

theorem Store.Stage.exists_of_succeeded {s? : Option (Stage Answer)}
    (h : s?.any Stage.succeeded = true) : ∃ answer, s? = some (.ended (.ok answer)) := by
  cases s? with
  | none => cases h
  | some s =>
      change s.succeeded = true at h
      unfold succeeded at h
      split at h
      · next answer => exact ⟨answer, rfl⟩
      · cases h

def retitled : RuleChanges := { title := some (.text "first") }

def shortened : RuleChanges := { slotLength := some (.int 10) }

/-- A rule gets a new title and a new length, by two callers who take given turns. -/
def twoUpdates (turns : List Nat) : List Event :=
  [.call (.updateAvailability "anna" "rule" retitled),
    .call (.updateAvailability "anna" "rule" shortened)] ++ turns.map (.turnOf · "")

/-- The second caller looks the rule up when the first one has committed. -/
def oneByOne : List Event := twoUpdates [0, 0, 0, 0, 0, 1, 1, 1, 1, 1]

/-- The second caller looks the rule up before the first one commits. -/
def sideBySide : List Event := twoUpdates [0, 1, 0, 1, 0, 0, 0, 1, 1, 1]

theorem kept_one_by_one :
    Hall.overtaken 0 1 { machine := opened } oneByOne = false ∧
      ∃ old rule now, opened.records.findRule "anna" "rule" = some old ∧
        (Hall.run { machine := opened } oneByOne).machine.records.findRule "anna" "rule" =
          some (rule.stamped now) ∧
        old.changed (retitled.and shortened) = .ok rule := by
  have hover : Hall.overtaken 0 1 { machine := opened } oneByOne = false := by decide +kernel
  have hcommits : (Hall.run { machine := opened } oneByOne).commits = [0, 1] := by
    decide +kernel
  have hended : ∀ caller < 2, ((Hall.run { machine := opened } oneByOne).stage? caller).any
      Stage.succeeded = true := by decide +kernel
  obtain ⟨old, hold⟩ : ∃ old, opened.records.findRule "anna" "rule" = some old :=
    Option.isSome_iff_exists.mp (by decide +kernel)
  let changes : Nat → RuleChanges := fun caller => if caller = 0 then retitled else shortened
  have hcalls : oneByOne.filterMap Event.call? =
      [.updateAvailability "anna" "rule" (changes 0),
        .updateAvailability "anna" "rule" (changes 1)] := rfl
  obtain ⟨first, last, rule, now, -, hboth, hfound, hkept, -⟩ :=
    kept_unless_overtaken settled_opened hold hcalls
      fun caller hcaller => Stage.exists_of_succeeded (hended caller hcaller)
  rw [hcommits] at hboth
  cases hboth
  exact ⟨hover, old, rule, now, hold, hfound, hkept hover⟩

/-- The two changes concern different fields and could be made at once, and both callers are told
that theirs was made. But the new title is lost. -/
theorem title_lost :
    (∀ caller < 2, ((Hall.run { machine := opened } sideBySide).stage? caller).any
      Stage.succeeded = true) ∧
      (opened.records.findRule "anna" "rule").any
        (fun old => (old.changed (retitled.and shortened)).isOk) = true ∧
      ((Hall.run { machine := opened } sideBySide).machine.records.findRule "anna" "rule").map
        (fun rule => (rule.slotLength.isNumber 10, rule.title.isText "first")) =
          some (true, false) := by
  decide +kernel

end Bookable
