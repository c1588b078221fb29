import Bookable.Proofs.Checks
import Bookable.Proofs.Hall.Solo
import Bookable.Proofs.Hall.Updates
import Bookable.Proofs.Slots.Lookup
import Bookable.Proofs.Time.Spelling

/-!
# What an update makes of a rule

An update changes one rule in its place and nothing else, or nothing at all. What it
makes of the rule is said here without the program: the merge has the new values where
there are some, and otherwise the old ones, with old times cut to their first five
characters; it has to pass the check that new rules pass; and then it is stored with its
times in normal form. Updates need no key, so this is so at every desk, whatever other
transactions have under way, and for rules that have come there in any way.

Stored times are read in a more tolerant way than given ones. But five characters in
which a time of day is found have no blanks around them, so a stored time that can be
read can also be given. An update that leaves the times alone is therefore not refused on
their account, and the windows of the rule stay what they were.

All this takes times that are texts. Old times are cut even where new ones are given, so a
rule whose stored time is no text cannot be repaired by an update.
-/

namespace Bookable

open Store Time

/-! ## The merge and its check -/

/-- The first five characters of a text. -/
def leading (s : String) : String := String.ofList (s.toList.take 5)

/-- A rule with new values for some of its fields. Its own times, which are texts, are cut. -/
def Rule.patched (r : Rule) (changes : RuleChanges) (start stop : String) : Rule :=
  { r with
    dayOfWeek := changes.dayOfWeek.getD r.dayOfWeek
    startTime := changes.startTime.getD (.text (leading start))
    endTime := changes.endTime.getD (.text (leading stop))
    slotLength := changes.slotLength.getD r.slotLength
    available := changes.available.getD r.available
    title := changes.title.getD r.title }

/-- A rule as an update stores it, with its times as times are written. -/
def Rule.settled (r : Rule) (first last : OfDay) (now : Instant) : Rule :=
  { r with startTime := .ofTime first, endTime := .ofTime last, updatedAt := some now }

namespace Rule

/-- Where the old times are texts, what is checked is the merge. -/
theorem changed_eq {r : Rule} {start stop : String} (hstart : r.startTime = .text start)
    (hstop : r.endTime = .text stop) (changes : RuleChanges) :
    r.changed changes = (r.patched changes start stop).normalized := by
  rw [changed, merged, hstart, hstop]
  rfl

/-- A change that is refused is refused for the merge, where the old times are texts. -/
theorem refused_of_changed {r : Rule} {changes : RuleChanges} {start stop : String} {cause : Error}
    (hstart : r.startTime = .text start) (hstop : r.endTime = .text stop)
    (h : r.changed changes = .error cause) :
    let merge := r.patched changes start stop
    ¬ merge.Passes ∧ merge.RefusedFor cause := by
  rw [changed_eq hstart hstop] at h
  exact refusedFor_of_normalized h

/-- A change that is made is made to the merge, which has passed the check. -/
theorem settled_of_changed {r rule : Rule} {changes : RuleChanges} {start stop : String}
    (hstart : r.startTime = .text start) (hstop : r.endTime = .text stop)
    (h : r.changed changes = .ok rule) :
    let merge := r.patched changes start stop
    merge.Passes ∧ ∃ first last, givenTime merge.startTime = .ok first ∧
      givenTime merge.endTime = .ok last ∧
      ∀ now, rule.stamped now = merge.settled first last now := by
  intro merge
  rw [changed_eq hstart hstop] at h
  have hpasses : merge.Passes := by
    by_contra hfails
    obtain ⟨cause, hcause, -⟩ := exists_refusal hfails
    exact nomatch hcause.symm.trans h
  obtain ⟨first, last, hfirst, hlast, hnormal⟩ := hpasses.normalized
  have hrule := hnormal.symm.trans h
  cases hrule
  exact ⟨hpasses, first, last, hfirst, hlast, fun now => rfl⟩

theorem failsWith_cutTime (v : Value) : FailsWith (·.kind = .mistyped) (cutTime v) := by
  unfold cutTime
  split
  · exact failsWith_ok _
  · exact failsWith_ok _
  · exact failsWith_error rfl

/-- A change fails because of the merge, or because an old time cannot be cut. -/
theorem kind_of_changed {r : Rule} {changes : RuleChanges} {cause : Error}
    (h : r.changed changes = .error cause) :
    cause.kind = .mistyped ∨ cause.kind = .validation ∨ cause.kind = .number := by
  rcases bind_eq_error.mp h with h | ⟨merge, -, h⟩
  · refine Or.inl (failsWith_bind (failsWith_cutTime _) (fun _ _ => ?_) cause h)
    exact failsWith_bind (failsWith_cutTime _) fun _ _ => failsWith_ok _
  · exact Or.inr (refusedFor_of_normalized h).2.kind_cases

end Rule

/-! ## Windows -/

/-- A stored time that can be read can be given as well, as far as it is read. -/
theorem exists_of_storedTime {v : Value} {t : OfDay} (h : storedTime v = .ok t) :
    ∃ s, v = .text s ∧ givenTime (.text (leading s)) = .ok t := by
  cases v with
  | text s =>
      refine ⟨s, rfl, ?_⟩
      rw [storedTime] at h
      split at h
      · cases h
      · split at h
        · next time hread =>
            cases h
            simp only [givenTime, leading, String.toList_ofList, OfDay.stripped_of_read? hread,
              hread]
        · cases h
  | list items =>
      rw [storedTime] at h
      split at h <;> cases h
  | map entries =>
      rw [storedTime] at h
      split at h <;> cases h
  | _ => cases h

/-- Changes that give no times, and otherwise only a day and a length that are valid. -/
structure RuleChanges.LeaveTimes (changes : RuleChanges) : Prop where
  start : changes.startTime = none
  stop : changes.endTime = none
  day : ∀ v, changes.dayOfWeek = some v → v.IsWeekday
  length : ∀ v, changes.slotLength = some v → v.IsLength

/-- A rule on record for a weekday, with a whole number for its length and a window on some day. -/
structure Rule.Works (r : Rule) : Prop where
  day : r.dayOfWeek.IsWeekday
  length : ∃ n : Int, r.slotLength = .int n
  window : ∃ day window, r.windowOn day = .ok window

theorem getD_of_forall {α : Type} {p : α → Prop} {a? : Option α} {b : α}
    (h : ∀ a, a? = some a → p a) (hb : p b) : p (a?.getD b) := by
  cases a? with
  | none => exact hb
  | some a => exact h a rfl

/-- With changes that leave the times alone, the merge of a rule that works passes the check, and
the rule that is stored has the windows of the old one. -/
theorem Rule.Works.patched {r : Rule} (h : r.Works) {changes : RuleChanges}
    (hchanges : changes.LeaveTimes) :
    ∃ start stop first last, r.startTime = .text start ∧ r.endTime = .text stop ∧
      let merge := r.patched changes start stop
      merge.Passes ∧ givenTime merge.startTime = .ok first ∧ givenTime merge.endTime = .ok last ∧
        ∀ now day, (merge.settled first last now).windowOn day = r.windowOn day := by
  obtain ⟨hday, ⟨n, hn⟩, day, window, hwindow⟩ := h
  obtain ⟨first, last, hfirst, hlast, hord, hcounts, -, -⟩ := Rule.windowOn_ok_inv hwindow
  obtain ⟨start, hstart, hgiven⟩ := exists_of_storedTime hfirst
  obtain ⟨stop, hstop, hgiven'⟩ := exists_of_storedTime hlast
  have hlength : r.slotLength.IsLength := by
    rw [hn, lengthCounts] at hcounts
    exact ⟨n, hn, decide_eq_true_eq.mp (Except.ok.inj hcounts)⟩
  refine ⟨start, stop, first, last, hstart, hstop, ?_⟩
  intro merge
  have hstays : merge.startTime = .text (leading start) := by
    simp only [merge, Rule.patched, hchanges.start, Option.getD_none]
  have hstays' : merge.endTime = .text (leading stop) := by
    simp only [merge, Rule.patched, hchanges.stop, Option.getD_none]
  have hday' : merge.dayOfWeek.IsWeekday :=
    getD_of_forall (p := Value.IsWeekday) hchanges.day hday
  have hlength' : merge.slotLength.IsLength :=
    getD_of_forall (p := Value.IsLength) hchanges.length hlength
  rw [hstays, hstays']
  refine ⟨⟨hday', hlength', first, last, ?_, ?_, hord⟩, hgiven, hgiven', fun now day => ?_⟩
  · rw [hstays, hgiven]
  · rw [hstays', hgiven']
  · obtain ⟨m, hm, hmpos⟩ := hlength'
    have hcounts' : lengthCounts (merge.settled first last now).slotLength = .ok true := by
      show lengthCounts merge.slotLength = _
      rw [hm, lengthCounts, decide_eq_true hmpos]
    have hread : storedTime (merge.settled first last now).startTime = .ok first :=
      storedTime_ofTime first
    have hread' : storedTime (merge.settled first last now).endTime = .ok last :=
      storedTime_ofTime last
    rw [Rule.windowOn_eq hread hread' hord hcounts', Rule.windowOn_eq hfirst hlast hord hcounts]

/-- Such changes are made, and the windows of the rule stay what they were. -/
theorem Rule.Works.exists_changed {r : Rule} (h : r.Works) {changes : RuleChanges}
    (hchanges : changes.LeaveTimes) :
    ∃ rule, r.changed changes = .ok rule ∧
      ∀ now day, (rule.stamped now).windowOn day = r.windowOn day := by
  obtain ⟨start, stop, first, last, hstart, hstop, hpasses, hfirst, hlast, hwindows⟩ :=
    h.patched hchanges
  cases hchanged : r.changed changes with
  | error cause => exact absurd hpasses (Rule.refused_of_changed hstart hstop hchanged).1
  | ok rule =>
      obtain ⟨-, first', last', hfirst', hlast', hnew⟩ :=
        Rule.settled_of_changed hstart hstop hchanged
      rw [hfirst] at hfirst'
      rw [hlast] at hlast'
      cases hfirst'
      cases hlast'
      refine ⟨rule, rfl, fun now day => ?_⟩
      rw [hnew]
      exact hwindows now day

/-! ## Where the rule is -/

namespace Store

/-- A rule takes the place of another one, and nothing else is different. -/
def Records.Replaces (r r' : Records) (old new : Rule) : Prop :=
  ∃ before after, r.rules = before ++ old :: after ∧
    r' = { r with rules := before ++ new :: after }

theorem Records.replaces_put {r : Records} (honce : (r.rules.map Rule.id).Nodup) {old new : Rule}
    (hold : old ∈ r.rules) (hid : new.id = old.id) :
    r.Replaces { r with rules := put Rule.id new r.rules } old new := by
  obtain ⟨before, after, hrules⟩ := List.append_of_mem hold
  have hbefore : new.id ∉ before.map Rule.id := by
    rw [hrules, List.map_append, List.map_cons] at honce
    intro hmem
    exact (List.nodup_append.mp honce).2.2 _ hmem _ List.mem_cons_self hid
  refine ⟨before, after, hrules, ?_⟩
  rw [hrules, put_append_right hbefore, put, if_pos hid.symm]

/-- Identifiers of rules occur once in every run. -/
theorem Traffic.rulesOnce_run (moves : List Move) :
    ((run {} moves).machine.records.rules.map Rule.id).Nodup := by
  induction moves using List.reverseRecOn with
  | nil => exact List.nodup_nil
  | append_singleton past move ih =>
      rw [run_append]
      change (((run {} past).take move).machine.records.rules.map Rule.id).Nodup
      rcases (run {} past).records_take move with hsame | ⟨handle, -, -, hpublished⟩
      · rw [hsame]
        exact ih
      · rw [hpublished]
        exact nodup_foldl_put ih

end Store

/-! ## The update -/

/-- What an update comes to on records and a supply of stamps. -/
theorem solo_update (user id : String) (changes : RuleChanges) (r : Records) (s : Supply) :
    (Call.updateAvailability user id changes).program.solo none r s =
      match r.findRule user id with
      | none => (.error .ruleNotFound, r, s.after (.findRule user id))
      | some old =>
          match old.changed changes with
          | .error cause => (.error cause, r, s.after (.findRule user id))
          | .ok rule =>
              let looked := s.after (.findRule user id)
              let new := rule.stamped looked.now
              (.ok (.rule (some new)), { r with rules := put Rule.id new r.rules },
                looked.after (.updateRule rule)) := by
  have hview : ({} : Transaction).view r = r := Transaction.view_blank [] r
  have hfind : ({} : Transaction).perform r s.stamp (.findRule user id) =
      (r.findRule user id, {}) := by
    simp only [Transaction.perform, hview]
  rw [update_program]
  simp only [Program.solo, answering, Program.bind, Transaction.locked, keyOf?, hfind]
  cases hfound : r.findRule user id with
  | none => rfl
  | some old =>
      simp only [edited]
      cases hchanged : old.changed changes with
      | error cause => rfl
      | ok rule =>
          obtain ⟨hid, huser⟩ := Records.isOf_of_findRule hfound
          obtain ⟨hid', huser'⟩ := Rule.id_changed hchanged
          have hrule : rule.IsOf user id := ⟨hid'.trans hid, huser'.trans huser⟩
          simp only [Program.ofExcept, storing, Program.bind, Program.solo, Transaction.locked,
            keyOf?, Transaction.perform_updateRule_blank hfound hrule]
          rfl

theorem keyless_update (user id : String) (changes : RuleChanges) :
    Keyless (Call.updateAvailability user id changes).program := by
  rw [update_program]
  refine ⟨rfl, fun found => ?_⟩
  cases found with
  | none => trivial
  | some old =>
      show Keyless (((Program.ofExcept (old.changed changes)).bind storing).bind _ |>.bind _)
      cases old.changed changes with
      | error cause => trivial
      | ok rule =>
          refine ⟨rfl, fun stored => ?_⟩
          cases stored <;> trivial

/-- An update never waits. It fails for want of the rule if and only if the user has no rule of that
identifier, and then, as whenever it fails, nothing changes. Otherwise, of a rule whose times are
texts, it is refused if and only if the merge does not pass the check, for a breach of a rule of the
domain if that can be said; and if the merge passes, it takes the place of the old rule with its
times in normal form and the time of the update, and is the answer. An update that leaves the times
alone is not refused for a rule that works, whose windows stay the same. -/
theorem updated_in_place {moves : List Move} {d : Desk}
    (hd : d.machine = (Traffic.run {} moves).machine) (caller : Nat) (user id : String)
    (changes : RuleChanges) :
    ∃ result d', Desk.serve caller (Call.updateAvailability user id changes).program none d =
        (.ended result, d') ∧
      ((∃ cause, result = .error cause ∧ cause.kind = .notFound) ↔
        d.machine.records.findRule user id = none) ∧
      (∀ cause, result = .error cause → d'.machine.records = d.machine.records) ∧
      ∀ old, d.machine.records.findRule user id = some old →
        (∀ start stop, old.startTime = .text start → old.endTime = .text stop →
          let merge := old.patched changes start stop
          ((∃ cause, result = .error cause) ↔ ¬ merge.Passes) ∧
          (∀ cause, result = .error cause → merge.Nameable → cause.kind = .validation) ∧
          (merge.Passes → ∃ first last, givenTime merge.startTime = .ok first ∧
            givenTime merge.endTime = .ok last ∧
            let new := merge.settled first last (d.supply.after (.findRule user id)).now
            result = .ok (.rule (some new)) ∧
              d.machine.records.Replaces d'.machine.records old new)) ∧
        (changes.LeaveTimes → old.Works → ∃ new, result = .ok (.rule (some new)) ∧
          ∀ day, new.windowOn day = old.windowOn day) := by
  obtain ⟨d', hserve, hrecords, -⟩ := Desk.serve_keyless (keyless_update user id changes) caller d
  refine ⟨_, d', hserve, ?_⟩
  rw [hrecords, solo_update]
  cases hfound : d.machine.records.findRule user id with
  | none =>
      refine ⟨iff_of_true ⟨_, rfl, rfl⟩ rfl, fun _ _ => rfl, fun old hold => ?_⟩
      cases hold
  | some old =>
      have honce : (d.machine.records.rules.map Rule.id).Nodup := by
        rw [hd]
        exact Traffic.rulesOnce_run moves
      cases hchanged : old.changed changes with
      | error cause =>
          simp only [hchanged]
          have hkind := Rule.kind_of_changed hchanged
          refine ⟨iff_of_false ?_ (Option.some_ne_none old), fun _ _ => trivial, ?_⟩
          · rintro ⟨_, ⟨⟩, hnotFound⟩
            rw [hnotFound] at hkind
            rcases hkind with hkind | hkind | hkind <;> cases hkind
          · rintro _ ⟨⟩
            refine ⟨fun start stop hstart hstop => ?_, fun hchanges hworks => ?_⟩
            · obtain ⟨hfails, hrefused⟩ := Rule.refused_of_changed hstart hstop hchanged
              refine ⟨iff_of_true ⟨_, rfl⟩ hfails, ?_, fun hpasses => absurd hpasses hfails⟩
              rintro _ ⟨⟩ hnameable
              exact hrefused.validation_iff.mpr hnameable
            · obtain ⟨rule, hrule, -⟩ := hworks.exists_changed hchanges
              rw [hchanged] at hrule
              cases hrule
      | ok rule =>
          simp only [hchanged]
          have hreplaces : d.machine.records.Replaces _ old
              (rule.stamped (d.supply.after (.findRule user id)).now) :=
            Records.replaces_put honce (List.mem_of_find?_eq_some hfound)
              (Rule.id_changed hchanged).1
          refine ⟨iff_of_false ?_ (Option.some_ne_none old), ?_, ?_⟩
          · rintro ⟨_, ⟨⟩, -⟩
          · rintro _ ⟨⟩
          rintro _ ⟨⟩
          refine ⟨fun start stop hstart hstop => ?_, fun hchanges hworks => ?_⟩
          · obtain ⟨hpasses, first, last, hfirst, hlast, hnew⟩ :=
              Rule.settled_of_changed hstart hstop hchanged
            refine ⟨iff_of_false ?_ (not_not_intro hpasses), ?_, fun _ =>
              ⟨first, last, hfirst, hlast, ?_⟩⟩
            · rintro ⟨_, ⟨⟩⟩
            · rintro _ ⟨⟩
            · rw [← hnew]
              exact ⟨rfl, hreplaces⟩
          · obtain ⟨rule', hrule, hwindows⟩ := hworks.exists_changed hchanges
            rw [hchanged] at hrule
            cases hrule
            exact ⟨_, rfl, hwindows _⟩

/-- A desk where a transaction has stored one rule, as it was given. -/
def deskWith (rule : Rule) : Desk where
  machine := (Traffic.run {} [.begin,
    .ask ⟨⟨0, horizon_pos⟩, "id-0001"⟩ 0 0 (.insertRule rule), .commit 0]).machine
  supply := { now := ⟨0, horizon_pos⟩, issued := 1 }

/-- A rule whose times have seconds is given a title. -/
theorem retitled_with_seconds :
    let d := deskWith {
      user := "user-1", dayOfWeek := .int 1, startTime := .text "09:00:00",
      endTime := .text "10:00:00", slotLength := .int 20 }
    let changes : RuleChanges := { title := some (.text "late") }
    ∃ old new d', d.machine.records.findRule "user-1" "id-0001" = some old ∧
      old.startTime = .text "09:00:00" ∧
      Desk.serve 0 (Call.updateAvailability "user-1" "id-0001" changes).program none d =
        (.ended (.ok (.rule (some new))), d') ∧
      ∀ day, new.windowOn day = old.windowOn day := by
  intro d changes
  obtain ⟨result, d', hserve, -, -, hupdated⟩ :=
    updated_in_place (d := d) rfl 0 "user-1" "id-0001" changes
  obtain ⟨-, hkeeps⟩ := hupdated _ rfl
  have hchanges : changes.LeaveTimes := ⟨rfl, rfl, nofun, nofun⟩
  obtain ⟨new, hnew, hwindows⟩ := hkeeps hchanges
    ⟨⟨1, rfl, by decide⟩, ⟨20, rfl⟩, 7,
      (Rule.windowOn_ok rfl (by decide)).imp fun _ h => h.1⟩
  rw [hnew] at hserve
  exact ⟨_, new, d', rfl, rfl, hserve, hwindows⟩

/-- A rule without a start cannot be given one, although the merge would pass the check. -/
theorem missing_time_not_repaired :
    let d := deskWith {
      user := "user-1", dayOfWeek := .int 1, startTime := .null, endTime := .text "10:00",
      slotLength := .int 20 }
    let changes : RuleChanges :=
      { startTime := some (.text "09:00"), endTime := some (.text "10:00") }
    (∃ old, d.machine.records.findRule "user-1" "id-0001" = some old ∧
      ∀ start stop, (old.patched changes start stop).Passes) ∧
    ∃ d', Desk.serve 0 (Call.updateAvailability "user-1" "id-0001" changes).program none d =
        (.ended (.error .mistyped), d') ∧ d'.machine.records = d.machine.records := by
  intro d changes
  refine ⟨⟨_, rfl, fun start stop => ?_⟩, ?_⟩
  · refine ⟨⟨1, rfl, by decide⟩, ⟨20, rfl, by decide⟩, ⟨9, 0, by decide, by decide⟩,
      ⟨10, 0, by decide, by decide⟩, ?_, ?_, by decide⟩ <;> rfl
  · obtain ⟨d', hserve, hrecords, -⟩ :=
      Desk.serve_keyless (keyless_update "user-1" "id-0001" changes) 0 d
    rw [solo_update] at hserve hrecords
    exact ⟨d', hserve, hrecords⟩

end Bookable
