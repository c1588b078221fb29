import Bookable.Proofs.Hall.Listing
import Bookable.Proofs.Hall.Updates
import Bookable.Proofs.Time.Spelling

/-!
# Where the rules on record come from

A rule on record was made from a draft that somebody asked to be stored for its user.
Each field of it that decides about slots has what the draft says or what some call to
update this rule has given for it, and never anything else, however the calls take
their turns. An update writes all fields of the rule that it has looked up, so it may
put back an older value of a field, but an older value also came from somewhere.

That is an invariant of the records which every call keeps up. For a new rule it is what
the check says about the draft. For an update it is what the check says about the new
values, together with the invariant for the rule that was looked up: a time that is kept
is read again as it was written, so it is still the time of the text that it came from.
-/

namespace Bookable

open Store Time

/-! ## What callers have given -/

/-- A value for a field of a rule: it is the initial one, or some call to update the rule gives
it. -/
def Rule.Given (calls : Call → Prop) (rule : Rule) (initial : Value)
    (later : RuleChanges → Option Value) (v : Value) : Prop :=
  v = initial ∨ ∃ id changes, rule.id = some id ∧
    calls (.updateAvailability rule.user id changes) ∧ later changes = some v

/-- A time of day that is spelled by a text which is given for a field of a rule. -/
def Rule.Told (calls : Call → Prop) (rule : Rule) (initial : Value)
    (later : RuleChanges → Option Value) (t : OfDay) : Prop :=
  ∃ s, rule.Given calls initial later (.text s) ∧ t.SpelledBy s

/-- The fields of a rule are those of a rule, and come from a draft or from calls to update it. -/
structure Rule.From (calls : Call → Prop) (draft : RuleDraft) (rule : Rule) (day length : Int)
    (start stop : OfDay) : Prop where
  dayOfWeek : rule.dayOfWeek = .int day
  slotLength : rule.slotLength = .int length
  startTime : rule.startTime = .ofTime start
  endTime : rule.endTime = .ofTime stop
  inWeek : 0 ≤ day ∧ day ≤ 6
  positive : 0 < length
  ordered : start.minutes < stop.minutes
  givenDay : rule.Given calls draft.dayOfWeek RuleChanges.dayOfWeek (.int day)
  givenLength : rule.Given calls draft.slotLength RuleChanges.slotLength (.int length)
  toldStart : rule.Told calls draft.startTime RuleChanges.startTime start
  toldStop : rule.Told calls draft.endTime RuleChanges.endTime stop

/-- A rule comes from one of the drafts that a call asks to be stored for its user. -/
def Rule.Founded (calls : Call → Prop) (rule : Rule) : Prop :=
  ∃ drafts draft, calls (.setAvailability rule.user drafts) ∧ draft ∈ drafts ∧
    ∃ day length start stop, rule.From calls draft day length start stop

section Origin

variable {calls : Call → Prop} {rule rule' : Rule} {initial v : Value}
  {later : RuleChanges → Option Value} {user id : String} {changes : RuleChanges}

/-! ## New rules -/

theorem told_initial {t : OfDay} (h : givenTime initial = .ok t) :
    rule.Told calls initial later t := by
  obtain ⟨s, rfl, hspelled⟩ := exists_of_givenTime h
  exact ⟨s, Or.inl rfl, hspelled⟩

theorem founded_new {drafts : List RuleDraft} {draft : RuleDraft}
    (hcall : calls (.setAvailability user drafts)) (hdraft : draft ∈ drafts)
    (hrule : (draft.rule user).normalized = .ok rule) (stamp : Stamp) :
    (newRule stamp rule).Founded calls := by
  obtain ⟨⟨start, stop⟩, hchecked, h⟩ := bind_eq_ok.mp hrule
  cases h
  obtain ⟨⟨day, length, hday, h0, h6, hlength, hpos, hord⟩, hstart, hstop⟩ :=
    Rule.checked_ok hchecked
  refine ⟨drafts, draft, hcall, hdraft, day, length, start, stop, ?_⟩
  exact {
    dayOfWeek := hday
    slotLength := hlength
    startTime := rfl
    endTime := rfl
    inWeek := ⟨h0, h6⟩
    positive := hpos
    ordered := hord
    givenDay := Or.inl hday.symm
    givenLength := Or.inl hlength.symm
    toldStart := told_initial hstart
    toldStop := told_initial hstop }

/-! ## Changed rules -/

theorem Rule.Given.keep (h : rule.Given calls initial later v) (hid : rule'.id = rule.id)
    (huser : rule'.user = rule.user) : rule'.Given calls initial later v := by
  rwa [Given, hid, huser]

/-- The value that a field has after an update is given, if the one before was. -/
theorem Rule.Given.change {v' : Value} (h : rule.Given calls initial later v)
    (hrule : rule'.IsOf user id) (hid : rule'.id = rule.id) (huser : rule'.user = rule.user)
    (hcall : calls (.updateAvailability user id changes)) (hv : (later changes).getD v = v') :
    rule'.Given calls initial later v' := by
  cases hlater : later changes with
  | none =>
      rw [hlater, Option.getD_none] at hv
      subst hv
      exact h.keep hid huser
  | some new =>
      rw [hlater, Option.getD_some] at hv
      subst hv
      obtain ⟨hown, rfl⟩ := hrule
      exact Or.inr ⟨id, changes, hown, hcall, hlater⟩

/-- A time that is kept is read again as it was written, and a new one is told. -/
theorem Rule.Told.change {t t' : OfDay} (h : rule.Told calls initial later t)
    (hrule : rule'.IsOf user id) (hid : rule'.id = rule.id) (huser : rule'.user = rule.user)
    (hcall : calls (.updateAvailability user id changes))
    (ht : givenTime ((later changes).getD (.ofTime t)) = .ok t') :
    rule'.Told calls initial later t' := by
  cases hlater : later changes with
  | none =>
      rw [hlater, Option.getD_none, givenTime_ofTime] at ht
      cases ht
      obtain ⟨s, hgiven, hspelled⟩ := h
      exact ⟨s, hgiven.keep hid huser, hspelled⟩
  | some new =>
      rw [hlater, Option.getD_some] at ht
      obtain ⟨s, rfl, hspelled⟩ := exists_of_givenTime ht
      obtain ⟨hown, rfl⟩ := hrule
      exact ⟨s, Or.inr ⟨id, changes, hown, hcall, hlater⟩, hspelled⟩

theorem Rule.Founded.change (h : rule.Founded calls) (hrule : rule.IsOf user id)
    (hcall : calls (.updateAvailability user id changes))
    (hchanged : rule.changed changes = .ok rule') (now : Instant) :
    (rule'.stamped now).Founded calls := by
  obtain ⟨drafts, draft, hset, hdraft, day, length, start, stop, hfrom⟩ := h
  obtain ⟨from?, to?, start', stop', hcut, hcut', hchecked, rfl⟩ := Rule.changed_eq_ok.mp hchanged
  rw [hfrom.startTime, cutTime_ofTime] at hcut
  rw [hfrom.endTime, cutTime_ofTime] at hcut'
  cases hcut
  cases hcut'
  obtain ⟨⟨day', length', hday, h0, h6, hlength, hpos, hord⟩, hstart, hstop⟩ :=
    Rule.checked_ok hchecked
  refine ⟨drafts, draft, hset, hdraft, day', length', start', stop', ?_⟩
  have hday' : changes.dayOfWeek.getD (.int day) = .int day' := by
    rw [← hfrom.dayOfWeek]
    exact hday
  have hlength' : changes.slotLength.getD (.int length) = .int length' := by
    rw [← hfrom.slotLength]
    exact hlength
  exact {
    dayOfWeek := hday
    slotLength := hlength
    startTime := rfl
    endTime := rfl
    inWeek := ⟨h0, h6⟩
    positive := hpos
    ordered := hord
    givenDay := hfrom.givenDay.change hrule rfl rfl hcall hday'
    givenLength := hfrom.givenLength.change hrule rfl rfl hcall hlength'
    toldStart := hfrom.toldStart.change hrule rfl rfl hcall hstart
    toldStop := hfrom.toldStop.change hrule rfl rfl hcall hstop }

/-! ## Calls to update a rule -/

/-- What an update writes is made of the rule that it has found on record. -/
theorem keeps_updateAvailability_founded (hcall : calls (.updateAvailability user id changes))
    {r : Records} (hr : r.RulesAll (Rule.Founded calls)) :
    (Service.updateAvailability user id changes).Keeps
      (Peers.keeping (Records.RulesAll (Rule.Founded calls)))
      (Pledge.writing (Transaction.RulesAll (Rule.Founded calls))) none r := by
  rw [updateAvailability_eq]
  intro r₁ hmay₁ r₂ stamp hmay₂ _
  have hr₂ : r₂.RulesAll (Rule.Founded calls) := hmay₂ (hmay₁ hr)
  have hview : ({} : Transaction).view r₂ = r₂ := Transaction.view_blank [] r₂
  have hup := rulesAll_upheld (Rule.Founded calls)
  show ((edited changes ((({} : Transaction).view r₂).findRule user id)).bind fun a =>
    .closing (.done a)).Keeps _ _ (some {}) r₂
  rw [hview]
  refine Program.keeps_closing hup ?_ hup.opened r₂
  cases hfound : r₂.findRule user id with
  | none => trivial
  | some rule =>
      refine Program.asks_ofExcept_bind fun rule' hchanged => ⟨fun now => ?_, fun reply => ?_⟩
      · have hrule : rule.Founded calls := hr₂ rule (List.mem_of_find?_eq_some hfound)
        exact hrule.change (Records.isOf_of_findRule hfound) hcall hchanged now
      · cases reply <;> trivial

end Origin

namespace Store

/-- Whatever turns calls take, every rule on record comes from what they have given. -/
theorem Hall.founded_run (events : List Event) :
    (Hall.run {} events).machine.records.RulesAll
      (Rule.Founded fun call => .call call ∈ events) := by
  have hempty : (Hall.machine {}).records.RulesAll (Rule.Founded fun call => .call call ∈ events) :=
    fun _ hrule => absurd hrule List.not_mem_nil
  have hfair : (Hall.run {} events).Fair
      (Peers.keeping (Records.RulesAll (Rule.Founded fun call => .call call ∈ events)))
      (fun _ => Pledge.writing
        (Transaction.RulesAll (Rule.Founded fun call => .call call ∈ events))) {} := by
    refine Hall.Fair.run (pact_writing fun ht hr => ht.publish hr)
      (fun call hcall r hreached => ?_) (Hall.Fair.start Hall.orderly_empty)
    refine keeps_call_of ((rulesAll_upheld _).mono fun _ h => h.writes _) ?_ ?_ ?_
    · rintro user drafts rfl
      exact keeps_setAvailability_of (rulesAll_upheld _)
        (fun draft hdraft rule hrule => founded_new hcall hdraft hrule) (fun _ => trivial) r
    · rintro user id changes rfl
      exact keeps_updateAvailability_founded hcall (hreached hempty)
    · rintro request rfl
      exact keeps_createBooking_writing fun _ _ _ _ _ _ _ _ =>
        ⟨fun _ h => absurd h List.not_mem_nil, fun _ h => absurd h List.not_mem_nil⟩
  exact hfair.reached hempty

end Store

/-! ## Windows of rules on record -/

/-- In every state that services can reach, a rule on record has a whole number from 0 to 6 for its
day, a positive whole number for its length, and two times in order, each with two ASCII digits on
both sides of a colon. All of them come from one draft or from calls to update the rule, and the
times are those that the texts of the callers spell. On every day of the calendar, the window of
the rule reaches from the one time to the other. -/
theorem rule_as_given (events : List Event) {rule : Rule}
    (hrule : rule ∈ (Hall.run {} events).machine.records.rules) :
    let calls : Call → Prop := fun call => .call call ∈ events
    ∃ (day length : Int) (start stop : OfDay),
      (rule.dayOfWeek = .int day ∧ 0 ≤ day ∧ day ≤ 6) ∧
      (rule.slotLength = .int length ∧ 0 < length) ∧
      rule.startTime = .text (String.ofList start.clock) ∧
      rule.endTime = .text (String.ofList stop.clock) ∧
      start.minutes < stop.minutes ∧
      (∃ drafts draft, calls (.setAvailability rule.user drafts) ∧ draft ∈ drafts ∧
        rule.Given calls draft.dayOfWeek RuleChanges.dayOfWeek (.int day) ∧
        rule.Given calls draft.slotLength RuleChanges.slotLength (.int length) ∧
        (∃ s, rule.Given calls draft.startTime RuleChanges.startTime (.text s) ∧
          start.SpelledBy s) ∧
        (∃ s, rule.Given calls draft.endTime RuleChanges.endTime (.text s) ∧
          stop.SpelledBy s)) ∧
      ∀ d < calendarDays, ∃ window, rule.windowOn d = .ok window ∧
        window.start.micros = d * Time.day + start.minutes * minute ∧
        window.stop.micros = d * Time.day + stop.minutes * minute := by
  intro calls
  obtain ⟨drafts, draft, hcall, hdraft, day, length, start, stop, hfrom⟩ :=
    Hall.founded_run events rule hrule
  refine ⟨day, length, start, stop, ⟨hfrom.dayOfWeek, hfrom.inWeek⟩,
    ⟨hfrom.slotLength, hfrom.positive⟩, ?_, ?_, hfrom.ordered, ?_, fun d hd => ?_⟩
  · rw [hfrom.startTime, Value.ofTime, start.text_eq_clock]
  · rw [hfrom.endTime, Value.ofTime, stop.text_eq_clock]
  · exact ⟨drafts, draft, hcall, hdraft, hfrom.givenDay, hfrom.givenLength, hfrom.toldStart,
      hfrom.toldStop⟩
  · have hplan := Rule.plan?_ofTime hfrom.startTime hfrom.endTime hfrom.slotLength hfrom.ordered
      hfrom.positive
    obtain ⟨window, hwindow, -, hstart, hstop⟩ := Rule.windowOn_ok hplan hd
    exact ⟨window, hwindow, hstart, hstop⟩

/-- A rule whose start is given with a blank and without zeros, and whose end is given anew. -/
def tidying : List Event :=
  .call (.setAvailability "anna" [{
    dayOfWeek := .int 1, startTime := .text " 9:5", endTime := .text "10:40",
    slotLength := .int 20 }]) :: ["", "rule", "", "", ""].map (.turnOf 0) ++
  .call (.updateAvailability "anna" "rule" { endTime := some (.text "11:0") }) ::
    ["", "", "", "", ""].map (.turnOf 1)

/-- The start of the rule that is on record then is still the one that its draft spells. -/
theorem tidied_as_given :
    ∃ rule ∈ (Hall.run {} tidying).machine.records.rules, ∃ start : OfDay,
      rule.startTime = .text (String.ofList start.clock) ∧ start.SpelledBy " 9:5" ∧
      ∃ window, rule.windowOn 1 = .ok window ∧
        window.start.micros = Time.day + start.minutes * minute := by
  have hne : (Hall.run {} tidying).machine.records.rules ≠ [] := by
    rw [ne_eq, ← List.isEmpty_iff]
    decide +kernel
  have hmem := List.head_mem hne
  obtain ⟨day, length, start, stop, -, -, hstart, -, -, ⟨drafts, draft, hcall, hdraft, -, -,
    ⟨s, hgiven, hspelled⟩, -⟩, hwindows⟩ := rule_as_given tidying hmem
  obtain ⟨window, hwindow, hfrom, -⟩ := hwindows 1 (by decide)
  refine ⟨_, hmem, start, hstart, ?_, window, hwindow, by rw [hfrom, Nat.one_mul]⟩
  simp only [tidying, List.map_cons, Event.turnOf, List.map_nil, List.cons_append,
    List.nil_append, List.mem_cons, Event.call.injEq, Call.setAvailability.injEq, reduceCtorEq,
    List.not_mem_nil, or_self, or_false] at hcall
  obtain ⟨-, rfl⟩ := hcall
  cases List.mem_singleton.mp hdraft
  rcases hgiven with hinitial | ⟨id, changes, -, hupdate, hlater⟩
  · cases hinitial
    exact hspelled
  · simp only [tidying, List.map_cons, Event.turnOf, List.map_nil, List.cons_append,
      List.nil_append, List.mem_cons, Event.call.injEq, Call.updateAvailability.injEq,
      reduceCtorEq, List.not_mem_nil, or_self, or_false, false_or] at hupdate
    obtain ⟨-, -, rfl⟩ := hupdate
    cases hlater

end Bookable
