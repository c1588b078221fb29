import Bookable.Proofs.Hall.Rules
import Bookable.Proofs.Store.View

/-!
# Updates of one rule

An update looks its rule up in one turn, writes it in another and commits in a third,
and no key keeps anybody else away in the meantime. What it stores is what it has looked
up with its changes, all fields of it, whatever has become of the rule since then.

`Editing` says where an update stands and which rule it has looked up, and is kept by
its own turns and by those of others. `Hall.Edited` says the same of all updates in a
hall, together with the rule on record. An event either leaves that rule alone, or it
is a commit that puts in its place what the caller has made of the rule it looked up.
-/

namespace Bookable

open Store Time

/-- A rule of a user with an identifier. -/
def Rule.IsOf (user id : String) (r : Rule) : Prop := r.id = some id ∧ r.user = user

theorem Store.Records.isOf_of_findRule {r : Records} {user id : String} {rule : Rule}
    (h : r.findRule user id = some rule) : rule.IsOf user id := by
  have hfound := List.find?_some h
  simp only [Bool.and_eq_true, beq_iff_eq] at hfound
  exact hfound

/-- A rule that takes the place of another one is found there, if identifiers occur once. -/
theorem Store.Records.findRule_put {r : Records} {user id : String} {old new : Rule}
    (honce : (r.rules.map Rule.id).Nodup) (hold : r.findRule user id = some old)
    (hnew : new.IsOf user id) :
    ({ r with rules := put Rule.id new r.rules } : Records).findRule user id = some new := by
  have hmatch : (new.id == some id && new.user == user) = true := by
    rw [hnew.1, hnew.2, beq_self_eq_true, beq_self_eq_true]
    rfl
  unfold findRule at hold ⊢
  show (put Rule.id new r.rules).find? _ = some new
  generalize r.rules = rules at honce hold
  induction rules with
  | nil => cases hold
  | cons rule rest ih =>
      rw [List.map_cons, List.nodup_cons] at honce
      rw [put]
      split
      · rw [List.find?_cons, hmatch]
      · next hid =>
          have hother : (rule.id == some id && rule.user == user) = false := by
            rw [beq_eq_false_iff_ne.mpr (by rw [← hnew.1]; exact hid), Bool.false_and]
          rw [List.find?_cons, hother] at hold ⊢
          exact ih honce.2 hold

/-! ## The program of an update -/

/-- What is left of an update when its rule is changed. -/
def storing (rule : Rule) : Program Rule :=
  .ask (.updateRule rule) fun
    | none => .fail .ruleNotFound
    | some stored => .done stored

/-- What is left of an update when its rule was looked up. -/
def edited (changes : RuleChanges) : Option Rule → Program Rule
  | none => .fail .ruleNotFound
  | some rule => (Program.ofExcept (rule.changed changes)).bind storing

theorem updateAvailability_eq (user id : String) (changes : RuleChanges) :
    Service.updateAvailability user id changes =
      Program.transaction (.ask (.findRule user id) (edited changes)) := by
  refine congrArg Program.transaction (congrArg (Program.ask _) (funext fun reply => ?_))
  cases reply with
  | none => rfl
  | some rule =>
      show (Program.ofExcept (rule.merged changes)).bind _ =
        (Program.ofExcept (rule.merged changes >>= Rule.normalized)).bind _
      cases rule.merged changes with
      | error cause => rfl
      | ok merged =>
          show (Program.ofExcept merged.normalized).bind _ =
            (Program.ofExcept merged.normalized).bind _
          refine congrArg (Program.bind _) (funext fun changed => ?_)
          refine congrArg (Program.ask _) (funext fun reply => ?_)
          cases reply <;> rfl

/-- A program in a transaction of its own, up to the answer of the call. -/
def answering (p : Program Rule) : Program Answer :=
  (p.bind fun stored => .closing (.done stored)).bind (.done ∘ .rule ∘ some)

theorem update_program (user id : String) (changes : RuleChanges) :
    (Call.updateAvailability user id changes).program =
      .opening (answering (.ask (.findRule user id) (edited changes))) := by
  show (Service.updateAvailability user id changes).bind _ = _
  rw [updateAvailability_eq]
  rfl

namespace Store

/-! ## Requests of a transaction that has not written -/

theorem Machine.ask_blank {m : Machine} (stamp : Stamp) (caller : Nat) {handle : Nat}
    {request : Request} (hkey : keyOf? request = none) (blank : m.transaction handle = {}) :
    ∃ m', m.ask stamp caller handle request =
        .answered (({} : Transaction).perform m.records stamp request).1 m' ∧
      m'.transaction handle = (({} : Transaction).perform m.records stamp request).2 ∧
      m'.records = m.records := by
  have hlt : handle < m.transactions.length := by
    refine Machine.lt_length_of_live ?_
    rw [blank]
  refine ⟨(m.perform stamp handle request).2, ?_, ?_, rfl⟩
  · rw [ask_eq, hkey, perform_reply, blank]
  · rw [transaction_perform hlt, blank]

theorem Transaction.perform_updateRule_blank {r : Records} {user id : String}
    {current rule : Rule} (hfound : r.findRule user id = some current)
    (hrule : rule.IsOf user id) (stamp : Stamp) :
    ({} : Transaction).perform r stamp (.updateRule rule) =
      (some (rule.stamped stamp.now), { updatedRules := [rule.stamped stamp.now] }) := by
  obtain ⟨hid, rfl⟩ := hrule
  have hview : ({} : Transaction).view r = r := Transaction.view_blank [] r
  exact perform_updateRule hid (by rw [hview]; exact hfound) stamp

end Store

/-! ## Where an update stands -/

/-- An update with the rule that it has looked up, if it has, and whether it has committed. -/
inductive Editing (user id : String) (changes : RuleChanges) (m : Machine) :
    Option Rule → Bool → Stage Answer → Prop where
  | fresh : Editing user id changes m none false
      (.active (.opening (answering (.ask (.findRule user id) (edited changes)))) none)
  | opened {place : Place} (blank : m.transaction place.handle = {}) :
      Editing user id changes m none false
        (.active (answering (.ask (.findRule user id) (edited changes))) (some place))
  | looked {seen rule : Rule} {place : Place} (changed : seen.changed changes = .ok rule)
      (blank : m.transaction place.handle = {}) :
      Editing user id changes m (some seen) false
        (.active (answering (storing rule)) (some place))
  | wrote {seen rule : Rule} {now : Instant} {place : Place}
      (changed : seen.changed changes = .ok rule)
      (written : m.transaction place.handle = { updatedRules := [rule.stamped now] }) :
      Editing user id changes m (some seen) false
        (.active (answering (.done (rule.stamped now))) (some place))
  | refused {seen : Rule} {cause : Error} {place? : Option Place} :
      Editing user id changes m (some seen) false (.active (.fail cause) place?)
  | failed {seen : Rule} {cause : Error} :
      Editing user id changes m (some seen) false (.ended (.error cause))
  | stored {seen : Rule} {answer : Answer} :
      Editing user id changes m (some seen) true (.active (.done answer) none)
  | answered {seen : Rule} {answer : Answer} :
      Editing user id changes m (some seen) true (.ended (.ok answer))

/-- Whether an update has looked its rule up. -/
def Store.Stage.hasLooked : Stage Answer → Bool
  | .active (.opening _) _ => false
  | .active (.ask (.findRule _ _) _) _ => false
  | _ => true

namespace Editing

variable {user id : String} {changes : RuleChanges} {m m' : Machine} {seen? : Option Rule}
  {done : Bool} {s : Stage Answer}

theorem hasLooked (h : Editing user id changes m seen? done s) :
    s.hasLooked = seen?.isSome := by
  cases h <;> rfl

/-- The turns of others leave an update where it stands. -/
theorem frame (h : Editing user id changes m seen? done s)
    (heq : ∀ place, s.place? = some place →
      m'.transaction place.handle = m.transaction place.handle) :
    Editing user id changes m' seen? done s := by
  cases h with
  | fresh => exact .fresh
  | opened blank => exact .opened ((heq _ rfl).trans blank)
  | looked changed blank => exact .looked changed ((heq _ rfl).trans blank)
  | wrote changed written => exact .wrote changed ((heq _ rfl).trans written)
  | refused => exact .refused
  | failed => exact .failed
  | stored => exact .stored
  | answered => exact .answered

theorem step_ask {stamp : Stamp} {caller : Nat} {request : Request}
    {next : request.Reply → Program Rule} {place : Place} {reply : request.Reply}
    (hask : m.ask stamp caller place.handle request = .answered reply m') :
    Stage.step caller stamp (.active (answering (.ask request next)) (some place)) m =
      (.active (answering (next reply)) (some place), m') := by
  simp only [answering, Program.bind, Stage.step, hask]

/-- A turn of an update: it does not touch the records, and may look up the rule on record, or it
commits what it has looked up with its changes. -/
theorem turn {current : Rule} (hfound : m.records.findRule user id = some current)
    (hseen : ∀ seen, seen? = some seen → seen.IsOf user id)
    (h : Editing user id changes m seen? done s) (caller : Nat) (stamp : Stamp) :
    (∃ seen?', Editing user id changes (s.step caller stamp m).2 seen?' done
        (s.step caller stamp m).1 ∧
      (s.step caller stamp m).2.records = m.records ∧ s.commits m = false ∧
      (seen?' = seen? ∨ seen? = none ∧ seen?' = some current)) ∨
    (∃ seen rule now, seen? = some seen ∧ done = false ∧ seen.changed changes = .ok rule ∧
      s.commits m = true ∧
      Editing user id changes (s.step caller stamp m).2 seen? true (s.step caller stamp m).1 ∧
      (s.step caller stamp m).2.records = { m.records with
        rules := put Rule.id (rule.stamped now) m.records.rules }) := by
  cases h with
  | fresh =>
      refine Or.inl ⟨none, .opened ?_, rfl, rfl, Or.inl rfl⟩
      show m.begin.2.transaction m.transactions.length = {}
      rw [Machine.transaction_begin, if_pos rfl]
  | @opened place blank =>
      have hkey : keyOf? (.findRule user id) = none := rfl
      obtain ⟨m', hask, htransaction, hrecords⟩ := Machine.ask_blank stamp caller hkey blank
      have hview : ({} : Transaction).view m.records = m.records := Transaction.view_blank [] _
      simp only [Transaction.perform, hview, hfound] at hask htransaction
      rw [step_ask hask]
      refine Or.inl ⟨some current, ?_, hrecords, rfl, Or.inr ⟨rfl, rfl⟩⟩
      show Editing user id changes m' (some current) false
        (.active (answering ((Program.ofExcept (current.changed changes)).bind storing)) _)
      cases hchanged : current.changed changes with
      | error cause => exact .refused
      | ok rule => exact .looked hchanged htransaction
  | @looked seen rule place changed blank =>
      obtain ⟨hid, huser⟩ := Rule.id_changed changed
      obtain ⟨hid', huser'⟩ := hseen seen rfl
      have hrule : rule.IsOf user id := ⟨hid.trans hid', huser.trans huser'⟩
      have hkey : keyOf? (.updateRule rule) = none := rfl
      obtain ⟨m', hask, htransaction, hrecords⟩ := Machine.ask_blank stamp caller hkey blank
      rw [Transaction.perform_updateRule_blank hfound hrule] at hask htransaction
      unfold storing
      rw [step_ask hask]
      exact Or.inl ⟨some seen, .wrote changed htransaction, hrecords, rfl, Or.inl rfl⟩
  | @wrote seen rule now place changed written =>
      have hlive : (m.transaction place.handle).ended = false := by rw [written]
      have hclear : (m.transaction place.handle).conflicts m.records = false := by
        rw [written]
        rfl
      have hpublishes := Machine.publishes_iff.mpr ⟨hlive, hclear⟩
      refine Or.inr ⟨seen, rule, now, rfl, rfl, changed, hpublishes, ?_, ?_⟩
      · have hstage : (Stage.step caller stamp (.active (answering (.done (rule.stamped now)))
            (some place)) m).1 = .active (.done (.rule (some (rule.stamped now)))) none := by
          refine (Stage.stage_closing caller stamp _ hlive).trans ?_
          rw [hclear]
          rfl
        rw [hstage]
        exact .stored
      · show (Stage.step caller stamp (.active (.closing _) (some place)) m).2.records = _
        rw [Stage.step_closing, Machine.records_commit, if_pos hpublishes, written]
        rfl
  | refused =>
      exact Or.inl ⟨_, .failed, Machine.records_abandon m _, rfl, Or.inl rfl⟩
  | failed => exact Or.inl ⟨_, .failed, rfl, rfl, Or.inl rfl⟩
  | stored => exact Or.inl ⟨_, .answered, rfl, rfl, Or.inl rfl⟩
  | answered => exact Or.inl ⟨_, .answered, rfl, rfl, Or.inl rfl⟩

end Editing

/-! ## Updates in a hall -/

namespace Store.Hall

/-- Updates of one rule: which rule is on record, and which one each of them has looked up. -/
structure Edited (user id : String) (changes : Nat → RuleChanges) (current : Rule)
    (seen : Nat → Option Rule) (h : Hall) : Prop where
  fair : h.Fair (Peers.keeping fun _ => True) (fun _ => Pledge.writing fun _ => True) {}
  once : (h.machine.records.rules.map Rule.id).Nodup
  found : h.machine.records.findRule user id = some current
  own : ∀ {caller : Nat} {rule : Rule}, seen caller = some rule → rule.IsOf user id
  absent : ∀ {caller : Nat}, h.visits.length ≤ caller → seen caller = none ∧ caller ∉ h.commits
  stands : ∀ {caller : Nat} {v : Visit}, h.visits[caller]? = some v →
    Editing user id (changes caller) h.machine (seen caller) (decide (caller ∈ h.commits)) v.stage

variable {user id : String} {changes : Nat → RuleChanges} {current : Rule}
  {seen : Nat → Option Rule} {h : Hall}

theorem Edited.call (he : h.Edited user id changes current seen) {call : Call}
    (hcall : call = .updateAvailability user id (changes h.visits.length)) :
    (h.take (.call call)).Edited user id changes current seen := by
  have hfair := he.fair.take pact_any (.call call) fun call _ r _ => keeps_any call r
  refine ⟨hfair, he.once, he.found, he.own, ?_, ?_⟩
  · intro caller hle
    rw [take, List.length_append] at hle
    exact he.absent (Nat.le_trans (Nat.le_add_right _ _) hle)
  · intro caller v hv
    rcases visits_call hv with hv | ⟨rfl, rfl⟩
    · exact he.stands hv
    · obtain ⟨hnone, hout⟩ := he.absent (Nat.le_refl _)
      have hprogram := update_program user id (changes h.visits.length)
      rw [← hcall] at hprogram
      rw [hnone, hprogram]
      show Editing user id _ _ none (decide (h.visits.length ∈ h.commits)) _
      rw [decide_eq_false hout]
      exact .fresh

theorem Edited.reorder (he : h.Edited user id changes current seen) (key : Key)
    (queue : List Ticket) : (h.take (.reorder key queue)).Edited user id changes current seen := by
  have hfair := he.fair.take pact_any (.reorder key queue) fun call _ r _ => keeps_any call r
  refine ⟨hfair, ?_, ?_, he.own, he.absent, ?_⟩
  · show ((h.machine.reorder key queue).records.rules.map Rule.id).Nodup
    rw [Machine.records_reorder]
    exact he.once
  · show (h.machine.reorder key queue).records.findRule user id = some current
    rw [Machine.records_reorder]
    exact he.found
  · intro caller v hv
    exact (he.stands hv).frame fun place _ => Machine.transaction_reorder _ _ _ _

/-- A turn of one update leaves the others where they stand. -/
theorem Edited.others (he : h.Edited user id changes current seen) {caller other : Nat}
    {v w : Visit} (hv : h.visits[caller]? = some v) (hw : h.visits[other]? = some w)
    (hne : other ≠ caller) (stamp : Stamp) :
    Editing user id (changes other) (v.stage.step caller stamp h.machine).2 (seen other)
      (decide (other ∈ h.commits)) w.stage :=
  (he.stands hw).frame fun _ hplace => he.fair.transaction_others hv hw hne stamp hplace

/-- A turn of an update either leaves the records alone, and perhaps looks the rule up, or commits
what its caller has looked up with its changes. -/
theorem Edited.turn (he : h.Edited user id changes current seen) (stamp : Stamp)
    (caller : Nat) :
    (∃ seen', (h.take (.turn stamp caller)).Edited user id changes current seen' ∧
      (h.take (.turn stamp caller)).commits = h.commits ∧
      ∀ other, seen' other = seen other ∨ seen other = none ∧ seen' other = some current) ∨
    (∃ rule changed now, seen caller = some rule ∧ caller ∉ h.commits ∧
      rule.changed (changes caller) = .ok changed ∧
      (h.take (.turn stamp caller)).commits = h.commits ++ [caller] ∧
      (h.take (.turn stamp caller)).Edited user id changes (changed.stamped now) seen) := by
  have hfair := he.fair.take pact_any (.turn stamp caller) fun call _ r _ => keeps_any call r
  rcases h.take_turn_cases stamp caller with htake | ⟨v, hv, -, htake⟩
  · rw [htake]
    exact Or.inl ⟨seen, he, rfl, fun _ => Or.inl rfl⟩
  · have hlt : caller < h.visits.length := (List.getElem?_eq_some_iff.mp hv).1
    rw [htake] at hfair ⊢
    rcases (he.stands hv).turn he.found (fun _ => he.own) caller stamp with
      ⟨seen?, hstands, hrecords, hquiet, hlooked⟩ |
      ⟨rule, changed, now, hrule, hopen, hchanged, hcommits, hstands, hrecords⟩
    · left
      rw [hquiet, if_neg Bool.false_ne_true] at hfair ⊢
      refine ⟨fun other => if other = caller then seen? else seen other,
        ⟨hfair, ?_, ?_, ?_, ?_, ?_⟩, rfl, ?_⟩
      · rw [hrecords]
        exact he.once
      · rw [hrecords]
        exact he.found
      · intro other rule hrule
        split at hrule
        · rcases hlooked with heq | ⟨-, heq⟩
          · exact he.own (heq.symm.trans hrule)
          · cases heq.symm.trans hrule
            exact Records.isOf_of_findRule he.found
        · exact he.own hrule
      · intro other hle
        rw [List.length_set] at hle
        rw [if_neg (by omega)]
        exact he.absent hle
      · intro other w hw
        rcases visits_turn hw with ⟨rfl, rfl⟩ | ⟨hne, hw⟩
        · rw [if_pos rfl]
          exact hstands
        · rw [if_neg hne]
          exact he.others hv hw hne stamp
      · intro other
        simp only []
        split
        · next heq =>
            rw [heq]
            exact hlooked
        · exact Or.inl rfl
    · right
      rw [hcommits, if_pos rfl] at hfair ⊢
      obtain ⟨hid, huser⟩ := Rule.id_changed hchanged
      obtain ⟨hid', huser'⟩ := he.own hrule
      have hown : (changed.stamped now).IsOf user id := ⟨hid.trans hid', huser.trans huser'⟩
      refine ⟨rule, changed, now, hrule, of_decide_eq_false hopen, hchanged, rfl,
        ⟨hfair, ?_, ?_, he.own, ?_, ?_⟩⟩
      · rw [hrecords]
        exact nodup_put he.once _
      · rw [hrecords]
        exact Records.findRule_put he.once he.found hown
      · intro other hle
        rw [List.length_set] at hle
        obtain ⟨hnone, hout⟩ := he.absent hle
        refine ⟨hnone, fun hmem => ?_⟩
        rcases List.mem_append.mp hmem with hmem | hmem
        · exact hout hmem
        · have := List.mem_singleton.mp hmem
          omega
      · intro other w hw
        rcases visits_turn hw with ⟨rfl, rfl⟩ | ⟨hne, hw⟩
        · rw [decide_eq_true (List.mem_append_right _ (List.mem_singleton_self _))]
          exact hstands
        · have hmem : other ∈ h.commits ++ [caller] ↔ other ∈ h.commits := by
            rw [List.mem_append, List.mem_singleton]
            exact or_iff_left hne
          rw [decide_eq_decide.mpr hmem]
          exact he.others hv hw hne stamp

theorem Edited.take (he : h.Edited user id changes current seen) (event : Event)
    (hcall : ∀ call, event = .call call →
      call = .updateAvailability user id (changes h.visits.length)) :
    (∃ seen', (h.take event).Edited user id changes current seen' ∧
      (h.take event).commits = h.commits ∧
      ∀ other, seen' other = seen other ∨ seen other = none ∧ seen' other = some current) ∨
    (∃ caller rule changed now, seen caller = some rule ∧ caller ∉ h.commits ∧
      rule.changed (changes caller) = .ok changed ∧
      (h.take event).commits = h.commits ++ [caller] ∧
      (h.take event).Edited user id changes (changed.stamped now) seen) := by
  cases event with
  | call call => exact Or.inl ⟨seen, he.call (hcall call rfl), rfl, fun _ => Or.inl rfl⟩
  | reorder key queue => exact Or.inl ⟨seen, he.reorder key queue, rfl, fun _ => Or.inl rfl⟩
  | turn stamp caller =>
      rcases he.turn stamp caller with hquiet | ⟨rule, changed, now, hcommit⟩
      · exact Or.inl hquiet
      · exact Or.inr ⟨caller, rule, changed, now, hcommit⟩

/-- Who has an answer has committed. -/
theorem Edited.committed (he : h.Edited user id changes current seen) {caller : Nat}
    {answer : Answer} (hanswer : h.stage? caller = some (.ended (.ok answer))) :
    caller ∈ h.commits := by
  cases hv : h.visits[caller]? with
  | none =>
      rw [stage?, hv] at hanswer
      cases hanswer
  | some v =>
      have hstands := he.stands hv
      rw [stage?_eq hv] at hanswer
      rw [Option.some.inj hanswer] at hstands
      cases hdone : decide (caller ∈ h.commits) with
      | true => exact of_decide_eq_true hdone
      | false =>
          rw [hdone] at hstands
          generalize seen caller = seen? at hstands
          cases hstands

end Store.Hall

end Bookable
