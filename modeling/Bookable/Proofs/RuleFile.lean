import Mathlib.Data.List.Forall2
import Bookable.Proofs.Commands

/-!
# What is said about a rules file

Every item of a rules file has to be a map that has a day and two times and no field that
rules do not have. If all items are like that there is a draft for each of them, in their
order. The first item that is not decides what is said about the file, and this is a breach
of a rule of the domain, with two exceptions. Unknown fields are named in alphabetical
order, and a key that is no text cannot be brought into that order, or named. A map with
such a key, an unquoted number for example, therefore ends the reading with a fault, which
is not reported to a person, while unknown fields of other names are. And a time is turned
into a text before it is looked at, which fails for integers of too many digits. That is
reported, but not as a breach of a rule.

Reading comes before writing, so whatever is wrong with a file, nothing is stored from it.
-/

namespace Bookable.RuleFile

open Store Command Time

/-! ## Items -/

/-- The keys of a map are names of fields of a rule, and those that a rule has to have are among
them. -/
structure Shaped (entries : List (Value × Value)) : Prop where
  known : ∀ entry ∈ entries, ∃ name ∈ fieldNames, entry.1 = .text name
  complete : ∀ name ∈ requiredNames, (Value.field? entries name).isSome = true

/-- An item has the shape of a rule. -/
def WellShaped (item : Value) : Prop := ∃ entries, item = .map entries ∧ Shaped entries

/-- An item is a map one of whose keys is no text. -/
def HasOddKey (item : Value) : Prop :=
  ∃ entries, item = .map entries ∧ ∃ entry ∈ entries, ∀ name, entry.1 ≠ .text name

/-- A time is too long to be written out: a number of so many hours, or what holds an integer of
too many digits. -/
def TooLong : Value → Prop
  | .int n => Number.isWritable (n / 60) = false
  | v => v.isWritable = false

/-- An item has the shape of a rule, but one of its times is too long. -/
def HasLongTime (item : Value) : Prop :=
  ∃ entries, item = .map entries ∧ Shaped entries ∧
    ∃ name ∈ ["start_time", "end_time"], ∃ v, Value.field? entries name = some v ∧ TooLong v

/-- An item has the shape of a rule and times that can be written out. -/
def Readable (item : Value) : Prop := WellShaped item ∧ ¬ HasLongTime item

/-- A draft has the fields of a map, and otherwise the values that fields have by default. -/
structure Describes (defaultLength : Int) (entries : List (Value × Value)) (draft : RuleDraft) :
    Prop where
  day : Value.field? entries "day_of_week" = some draft.dayOfWeek
  start : ∃ v, Value.field? entries "start_time" = some v ∧ timeText v = .ok draft.startTime
  stop : ∃ v, Value.field? entries "end_time" = some v ∧ timeText v = .ok draft.endTime
  length : draft.slotLength =
    (Value.field? entries "slot_length_minutes").getD (.int defaultLength)
  available : draft.available = (Value.field? entries "available").getD (.bool true)
  title : draft.title =
    let title := (Value.field? entries "title").getD .null
    if title.truthy then title else .text ""

/-- A draft is that of an item. -/
def DraftOf (defaultLength : Int) (item : Value) (draft : RuleDraft) : Prop :=
  ∃ entries, item = .map entries ∧ Describes defaultLength entries draft

theorem HasOddKey.not_wellShaped {item : Value} (h : HasOddKey item) : ¬ WellShaped item := by
  rintro ⟨entries, rfl, hshaped⟩
  obtain ⟨_, ⟨⟩, entry, hentry, hodd⟩ := h
  obtain ⟨name, -, hname⟩ := hshaped.known entry hentry
  exact hodd name hname

theorem HasLongTime.wellShaped {item : Value} (h : HasLongTime item) : WellShaped item := by
  obtain ⟨entries, hitem, hshaped, -⟩ := h
  exact ⟨entries, hitem, hshaped⟩

example : TooLong (.int (60 * Number.tenTo Number.digitLimit : Nat)) := by
  show Number.isWritable _ = false
  decide +kernel

/-- Why an item is not read. -/
inductive Unread : Value → Error → Prop where
  | oddKey {item : Value} (odd : HasOddKey item) : Unread item .mistyped
  | longTime {item : Value} (long : HasLongTime item) : Unread item .numberTooLong
  | misshapen {item : Value} {cause : Error} (shape : ¬ WellShaped item) (keys : ¬ HasOddKey item)
      (kind : cause.kind = .validation) : Unread item cause

namespace Unread

variable {item : Value} {cause : Error}

theorem not_readable (h : Unread item cause) : ¬ Readable item := by
  rintro ⟨hshaped, hshort⟩
  cases h with
  | oddKey odd => exact odd.not_wellShaped hshaped
  | longTime long => exact hshort long
  | misshapen shape => exact shape hshaped

theorem mistyped_iff (h : Unread item cause) : cause.kind = .mistyped ↔ HasOddKey item := by
  cases h with
  | oddKey odd => exact iff_of_true rfl odd
  | longTime long => exact iff_of_false (by rintro ⟨⟩) fun odd => odd.not_wellShaped long.wellShaped
  | misshapen _ keys kind =>
      rw [kind]
      exact iff_of_false (by rintro ⟨⟩) keys

theorem number_iff (h : Unread item cause) : cause.kind = .number ↔ HasLongTime item := by
  cases h with
  | oddKey odd => exact iff_of_false (by rintro ⟨⟩) fun long => odd.not_wellShaped long.wellShaped
  | longTime long => exact iff_of_true rfl long
  | misshapen shape _ kind =>
      rw [kind]
      exact iff_of_false (by rintro ⟨⟩) fun long => shape long.wellShaped

theorem kind_cases (h : Unread item cause) :
    cause.kind = .mistyped ∨ cause.kind = .number ∨ cause.kind = .validation := by
  cases h with
  | oddKey => exact Or.inl rfl
  | longTime => exact Or.inr (Or.inl rfl)
  | misshapen _ _ kind => exact Or.inr (Or.inr kind)

end Unread

/-! ## Lists of items -/

/-- The first item that cannot be read is of a kind. -/
def FirstUnread (P : Value → Prop) (items : List Value) : Prop :=
  ∃ before item after, items = before ++ item :: after ∧
    (∀ other ∈ before, Readable other) ∧ P item

namespace FirstUnread

variable {P Q : Value → Prop} {item : Value} {items : List Value} {cause : Error}

theorem head (h : P item) (rest : List Value) : FirstUnread P (item :: rest) :=
  ⟨[], item, rest, rfl, fun _ h => absurd h List.not_mem_nil, h⟩

theorem cons (hitem : Readable item) (h : FirstUnread P items) : FirstUnread P (item :: items) := by
  obtain ⟨before, other, after, rfl, hbefore, hother⟩ := h
  exact ⟨item :: before, other, after, rfl, List.forall_mem_cons.mpr ⟨hitem, hbefore⟩, hother⟩

theorem imp (h : FirstUnread P items) (himp : ∀ item, P item → Q item) : FirstUnread Q items := by
  obtain ⟨before, item, after, hitems, hbefore, hitem⟩ := h
  exact ⟨before, item, after, hitems, hbefore, himp item hitem⟩

theorem not_forall (h : FirstUnread P items) (hP : ∀ item, P item → ¬ Readable item) :
    ¬ ∀ item ∈ items, Readable item := by
  obtain ⟨before, item, after, rfl, -, hitem⟩ := h
  exact fun hall => hP item hitem (hall item (List.mem_append_right _ List.mem_cons_self))

/-- There is only one first item that cannot be read. -/
theorem meet (h : FirstUnread P items) (h' : FirstUnread Q items)
    (hP : ∀ item, P item → ¬ Readable item) (hQ : ∀ item, Q item → ¬ Readable item) :
    ∃ item, P item ∧ Q item := by
  obtain ⟨before, item, after, rfl, hbefore, hitem⟩ := h
  induction before with
  | nil =>
      rw [List.nil_append] at h'
      obtain ⟨before', item', after', hitems, hbefore', hitem'⟩ := h'
      cases before' with
      | nil =>
          cases hitems
          exact ⟨item, hitem, hitem'⟩
      | cons first =>
          cases hitems
          exact absurd (hbefore' _ List.mem_cons_self) (hP item hitem)
  | cons first before ih =>
      obtain ⟨hfirst, hbefore⟩ := List.forall_mem_cons.mp hbefore
      rw [List.cons_append] at h'
      obtain ⟨before', item', after', hitems, hbefore', hitem'⟩ := h'
      cases before' with
      | nil =>
          cases hitems
          exact absurd hfirst (hQ _ hitem')
      | cons first' before' =>
          obtain ⟨rfl, hrest⟩ := List.cons.inj hitems
          exact ih ⟨before', item', after', hrest, (List.forall_mem_cons.mp hbefore').2,
            hitem'⟩ hbefore

/-- What is true of an item exactly for causes of a kind is true of the first item that cannot be
read exactly if the cause is of the kind. -/
theorem kind_iff (h : FirstUnread (Unread · cause) items) {kind : Kind}
    (hP : ∀ item, P item → ¬ Readable item)
    (hiff : ∀ item, Unread item cause → (cause.kind = kind ↔ P item)) :
    cause.kind = kind ↔ FirstUnread P items := by
  constructor
  · exact fun hkind => h.imp fun item hitem => (hiff item hitem).mp hkind
  · intro hfirst
    obtain ⟨item, hunread, hitem⟩ := h.meet hfirst (fun _ => Unread.not_readable) hP
    exact (hiff item hunread).mpr hitem

theorem mistyped_iff (h : FirstUnread (Unread · cause) items) :
    cause.kind = .mistyped ↔ FirstUnread HasOddKey items :=
  h.kind_iff (fun _ odd readable => odd.not_wellShaped readable.1) fun _ => Unread.mistyped_iff

theorem number_iff (h : FirstUnread (Unread · cause) items) :
    cause.kind = .number ↔ FirstUnread HasLongTime items :=
  h.kind_iff (fun _ long readable => readable.2 long) fun _ => Unread.number_iff

theorem kind_cases (h : FirstUnread (Unread · cause) items) :
    cause.kind = .mistyped ∨ cause.kind = .number ∨ cause.kind = .validation := by
  obtain ⟨-, item, -, -, -, hunread⟩ := h
  exact hunread.kind_cases

end FirstUnread

/-- What reading a document can come to. -/
inductive Reading (defaultLength : Int) : Value → Except Error (List RuleDraft) → Prop where
  | drafts {items : List Value} {drafts : List RuleDraft}
      (readable : ∀ item ∈ items, Readable item)
      (of : List.Forall₂ (DraftOf defaultLength) items drafts) :
      Reading defaultLength (.list items) (.ok drafts)
  | empty {v : Value} (counts : v.truthy = false) (other : ∀ items, v ≠ .list items) :
      Reading defaultLength v (.ok [])
  | unread {items : List Value} {cause : Error} (first : FirstUnread (Unread · cause) items) :
      Reading defaultLength (.list items) (.error cause)
  | noList {v : Value} (other : ∀ items, v ≠ .list items) :
      Reading defaultLength v (.error .rulesNotList)

namespace Reading

variable {defaultLength : Int} {v : Value} {result : Except Error (List RuleDraft)}

theorem ok_iff {items : List Value} (h : Reading defaultLength (.list items) result) :
    (∃ drafts, result = .ok drafts) ↔ ∀ item ∈ items, Readable item := by
  cases h with
  | drafts readable of => exact iff_of_true ⟨_, rfl⟩ readable
  | empty counts other => exact absurd rfl (other items)
  | unread first =>
      exact iff_of_false (by rintro ⟨_, ⟨⟩⟩) (first.not_forall fun _ => Unread.not_readable)
  | noList other => exact absurd rfl (other items)

/-- What the cause of a failure is depends on the first item that cannot be read. -/
theorem kind_iff {cause : Error} (h : Reading defaultLength v (.error cause)) :
    (cause.kind = .mistyped ↔ ∃ items, v = .list items ∧ FirstUnread HasOddKey items) ∧
      (cause.kind = .number ↔ ∃ items, v = .list items ∧ FirstUnread HasLongTime items) ∧
      (cause.kind = .mistyped ∨ cause.kind = .number ∨ cause.kind = .validation) := by
  cases h with
  | @unread items _ first =>
      have hlist : ∀ P : Value → Prop,
          (∃ items', Value.list items = .list items' ∧ FirstUnread P items') ↔
            FirstUnread P items := by
        intro P
        constructor
        · rintro ⟨_, ⟨⟩, hfirst⟩
          exact hfirst
        · exact fun hfirst => ⟨items, rfl, hfirst⟩
      rw [hlist, hlist]
      exact ⟨first.mistyped_iff, first.number_iff, first.kind_cases⟩
  | noList other =>
      refine ⟨iff_of_false (by rintro ⟨⟩) ?_, iff_of_false (by rintro ⟨⟩) ?_, Or.inr (Or.inr rfl)⟩
      · rintro ⟨items, hlist, -⟩
        exact other items hlist
      · rintro ⟨items, hlist, -⟩
        exact other items hlist

theorem validation_iff (h : Reading defaultLength v result) :
    (∀ cause, result = .error cause → cause.kind = .validation) ↔
      ¬ ∃ items, v = .list items ∧
        (FirstUnread HasOddKey items ∨ FirstUnread HasLongTime items) := by
  cases result with
  | ok drafts =>
      refine iff_of_true (by rintro _ ⟨⟩) ?_
      rintro ⟨items, rfl, hodd | hlong⟩
      · exact hodd.not_forall (fun _ odd readable => odd.not_wellShaped readable.1)
          (h.ok_iff.mp ⟨drafts, rfl⟩)
      · exact hlong.not_forall (fun _ long readable => readable.2 long)
          (h.ok_iff.mp ⟨drafts, rfl⟩)
  | error cause =>
      obtain ⟨hmistyped, hnumber, hkind⟩ := h.kind_iff
      constructor
      · rintro hvalidation ⟨items, hv, hodd | hlong⟩
        · cases (hvalidation cause rfl).symm.trans (hmistyped.mpr ⟨items, hv, hodd⟩)
        · cases (hvalidation cause rfl).symm.trans (hnumber.mpr ⟨items, hv, hlong⟩)
      · rintro hnone _ ⟨⟩
        rcases hkind with hkind | hkind | hkind
        · obtain ⟨items, hv, hodd⟩ := hmistyped.mp hkind
          exact absurd ⟨items, hv, Or.inl hodd⟩ hnone
        · obtain ⟨items, hv, hlong⟩ := hnumber.mp hkind
          exact absurd ⟨items, hv, Or.inr hlong⟩ hnone
        · exact hkind

end Reading

end Bookable.RuleFile
