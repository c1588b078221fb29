import Bookable.Proofs.Hall.Turns

/-!
# What programs rely on and what they promise

Between two turns of a program its peers may change the records, but not in every way:
they leave alone what the keys and the new records of the program's transaction stand
for. What they may do is a relation on records, and a program is judged by what it does
whatever its peers do: `Program.Keeps` says that along every run among such peers the
program commits, fails and ends only as its pledge allows. It follows the program
request by request, so it is proved by reading the program, and a program that goes on
with another one is split by `keeps_bind`.

A turn keeps the pledge of the program that takes it, and the turns of others keep it as
long as they do what peers may do. That nobody has to speak of interleavings any more is
the point of it.
-/

namespace Bookable

open Store

variable {α β : Type}

namespace Store

/-- What the peers of a transaction may do to the records, and the stamps that can be drawn. -/
structure Peers where
  may : Transaction → Records → Records → Prop
  stamps : Records → Stamp → Prop
  refl : ∀ t r, may t r r
  trans : ∀ {t r₁ r₂ r₃}, may t r₁ r₂ → may t r₂ r₃ → may t r₁ r₃

/-- What is true whenever a program commits and goes on with another one, meets a conflict when it
commits, has failed, and has a result. -/
structure Pledge (α : Type) where
  commits : Transaction → Program α → Records → Prop
  clashes : Transaction → Records → Prop
  fails : Error → Records → Prop
  ends : α → Option Transaction → Records → Prop

end Store

namespace Program

/-- A program keeps its pledge among peers, from a transaction or from outside of one. -/
def Keeps (peers : Peers) (pledge : Pledge α) :
    Program α → Option Transaction → Records → Prop
  | .done a, t?, r => pledge.ends a t? r
  | .fail cause, t?, r => ∀ r', peers.may (t?.getD {}) r r' → pledge.fails cause r'
  | .opening next, none, r => ∀ r', peers.may {} r r' → next.Keeps peers pledge (some {}) r'
  | .ask request next, some t, r => ∀ r' stamp, peers.may t r r' → peers.stamps r' stamp →
      (next ((t.locked request).perform r' stamp request).1).Keeps peers pledge
        (some ((t.locked request).perform r' stamp request).2) r'
  | .closing next, some t, r => ∀ r', peers.may t r r' →
      if t.conflicts r' then pledge.clashes t r' ∧ pledge.fails .alreadyBooked r'
      else pledge.commits t next r' ∧ next.Keeps peers pledge none (t.publish r')
  | _, _, _ => False

/-- Peers may go on doing what they may do. -/
theorem Keeps.mono {peers : Peers} {pledge : Pledge α}
    (hends : ∀ {a t? r r'}, pledge.ends a t? r → peers.may (t?.getD {}) r r' →
      pledge.ends a t? r')
    {p : Program α} {t? : Option Transaction} {r r' : Records}
    (h : p.Keeps peers pledge t? r) (hmay : peers.may (t?.getD {}) r r') :
    p.Keeps peers pledge t? r' := by
  cases p with
  | done a => exact hends h hmay
  | fail cause => exact fun r'' hmay' => h r'' (peers.trans hmay hmay')
  | opening next =>
      cases t? with
      | none => exact fun r'' hmay' => h r'' (peers.trans hmay hmay')
      | some t => exact h.elim
  | ask request next =>
      cases t? with
      | none => exact h.elim
      | some t => exact fun r'' stamp hmay' => h r'' stamp (peers.trans hmay hmay')
  | closing next =>
      cases t? with
      | none => exact h.elim
      | some t => exact fun r'' hmay' => h r'' (peers.trans hmay hmay')

end Program

/-! ## One program after another -/

/-- The pledge of a program that another one follows. -/
def Store.Pledge.before (peers : Peers) (pledge : Pledge β) (f : α → Program β) : Pledge α where
  commits t next r := pledge.commits t (next.bind f) r
  clashes := pledge.clashes
  fails := pledge.fails
  ends a t? r := (f a).Keeps peers pledge t? r

theorem Program.keeps_bind {peers : Peers} {pledge : Pledge β} {f : α → Program β}
    {p : Program α} {t? : Option Transaction} {r : Records} :
    (p.bind f).Keeps peers pledge t? r ↔ p.Keeps peers (pledge.before peers f) t? r := by
  induction p generalizing t? r with
  | done a => exact Iff.rfl
  | fail cause => exact Iff.rfl
  | opening next ih =>
      cases t? with
      | none => exact forall_congr' fun r' => forall_congr' fun _ => ih
      | some t => exact Iff.rfl
  | ask request next ih =>
      cases t? with
      | none => exact Iff.rfl
      | some t =>
          exact forall_congr' fun r' => forall_congr' fun stamp => forall_congr' fun _ =>
            forall_congr' fun _ => ih _
  | closing next ih =>
      cases t? with
      | none => exact Iff.rfl
      | some t =>
          refine forall_congr' fun r' => forall_congr' fun _ => ?_
          split
          · exact Iff.rfl
          · exact and_congr_right fun _ => ih

theorem Program.Keeps.weaken {peers : Peers} {pledge pledge' : Pledge α}
    (hcommits : ∀ {t next r}, pledge.commits t next r → pledge'.commits t next r)
    (hclashes : ∀ {t r}, pledge.clashes t r → pledge'.clashes t r)
    (hfails : ∀ {cause r}, pledge.fails cause r → pledge'.fails cause r)
    (hends : ∀ {a t? r}, pledge.ends a t? r → pledge'.ends a t? r)
    {p : Program α} {t? : Option Transaction} {r : Records}
    (h : p.Keeps peers pledge t? r) : p.Keeps peers pledge' t? r := by
  induction p generalizing t? r with
  | done a => exact hends h
  | fail cause => exact fun r' hmay => hfails (h r' hmay)
  | opening next ih =>
      cases t? with
      | none => exact fun r' hmay => ih (h r' hmay)
      | some t => exact h.elim
  | ask request next ih =>
      cases t? with
      | none => exact h.elim
      | some t => exact fun r' stamp hmay hstamp => ih _ (h r' stamp hmay hstamp)
  | closing next ih =>
      cases t? with
      | none => exact h.elim
      | some t =>
          intro r' hmay
          have hclose := h r' hmay
          split
          · next hconflict =>
              rw [if_pos hconflict] at hclose
              exact ⟨hclashes hclose.1, hfails hclose.2⟩
          · next hconflict =>
              rw [if_neg hconflict] at hclose
              exact ⟨hcommits hclose.1, ih hclose.2⟩

/-! ## Turns of a program's own -/

namespace Store

/-- Two transactions have neither a key nor the identifier of a new booking in common. -/
def Transaction.Apart (t u : Transaction) : Prop :=
  (∀ key ∈ t.held, key ∉ u.held) ∧ ∀ a ∈ t.newBookings, ∀ b ∈ u.newBookings, a.id ≠ b.id

/-- What makes pledges hold good among each other: results are given outside of transactions, what
is promised of results and failures outlasts what peers do, and a commit does to the transactions
apart from it what peers may do. -/
structure Pledge.Sound (peers : Peers) (pledge : Pledge α) : Prop where
  outside : ∀ {a t r}, ¬ pledge.ends a (some t) r
  ends : ∀ {a r r'}, pledge.ends a none r → peers.may {} r r' → pledge.ends a none r'
  fails : ∀ {cause r r'}, pledge.fails cause r → peers.may {} r r' → pledge.fails cause r'
  commits : ∀ {t next r}, pledge.commits t next r → t.conflicts r = false →
    ∀ u, u.Apart t → peers.may u r (t.publish r)

namespace Stage

/-- The transaction in which a program works. -/
def place? : Stage α → Option Place
  | .active _ place? => place?
  | .waiting _ _ _ place => some place
  | .ended _ => none

/-- A place that a program has opened for itself and that is still open. -/
def Live (m : Machine) (place : Place) : Prop :=
  place.own = true ∧ (m.transaction place.handle).ended = false

/-- Where a program stands, its pledge is kept from there on. -/
def Keeps (peers : Peers) (pledge : Pledge α) : Stage α → Machine → Prop
  | .active p none, m => p.Keeps peers pledge none m.records
  | .active p (some place), m =>
      Live m place ∧ p.Keeps peers pledge (some (m.transaction place.handle)) m.records
  | .waiting key request next place, m =>
      Live m place ∧ keyOf? request = some key ∧ key ∉ (m.transaction place.handle).held ∧
        (Program.ask request next).Keeps peers pledge (some (m.transaction place.handle))
          m.records
  | .ended (.ok a), m => pledge.ends a none m.records
  | .ended (.error cause), m => pledge.fails cause m.records

end Stage

theorem Machine.records_abandon (m : Machine) (place? : Option Place) :
    (m.abandon place?).records = m.records := by
  rcases place? with _ | ⟨handle, _ | _⟩
  · rfl
  · rfl
  · exact records_rollback m handle

/-- A turn keeps the pledge of the program that takes it. -/
theorem Stage.Keeps.step {peers : Peers} {pledge : Pledge α}
    (houtside : ∀ {a t r}, ¬ pledge.ends a (some t) r) {s : Stage α} {m : Machine}
    (h : s.Keeps peers pledge m) (caller : Nat) {stamp : Stamp}
    (hstamp : peers.stamps m.records stamp) :
    (s.step caller stamp m).1.Keeps peers pledge (s.step caller stamp m).2 := by
  cases s with
  | ended result => exact h
  | active p place? =>
      cases place? with
      | none =>
          cases p with
          | done a => exact h
          | fail cause => exact h m.records (peers.refl _ _)
          | opening next =>
              have hfresh : m.begin.2.transaction m.transactions.length = {} := by
                rw [Machine.transaction_begin, if_pos rfl]
              refine ⟨⟨rfl, ?_⟩, ?_⟩
              · exact congrArg Transaction.ended hfresh
              · show next.Keeps peers pledge
                  (some (m.begin.2.transaction m.transactions.length)) m.records
                rw [hfresh]
                exact h m.records (peers.refl _ _)
          | ask request next => exact h.elim
          | closing next => exact h.elim
      | some place =>
          obtain ⟨hlive, h⟩ := h
          have hlt := Machine.lt_length_of_live hlive.2
          cases p with
          | done a => exact absurd h houtside
          | fail cause =>
              show pledge.fails cause (m.abandon (some place)).records
              rw [Machine.records_abandon]
              exact h m.records (peers.refl _ _)
          | opening next => exact h.elim
          | ask request next =>
              rw [Stage.step]
              split
              · next reply m' hask =>
                  obtain ⟨rfl, htransaction⟩ := Machine.transaction_ask hlt hask
                  refine ⟨⟨hlive.1, ?_⟩, ?_⟩
                  · rw [htransaction, Transaction.perform_ended, Transaction.locked_ended]
                    exact hlive.2
                  · rw [htransaction, Machine.records_ask_answered hask]
                    exact h m.records stamp (peers.refl _ _) hstamp
              · next key m' hask =>
                  obtain ⟨hkey, hheld, -, rfl⟩ := Machine.ask_queued hask
                  exact ⟨hlive, hkey, hheld, h⟩
          | closing next =>
              have hclose := h m.records (peers.refl _ _)
              have hrecords := m.records_commit place.handle
              rw [Machine.publishes_of_live hlive.2] at hrecords
              rw [stage_closing caller stamp next hlive.2, step_closing]
              cases hconflict : (m.transaction place.handle).conflicts m.records with
              | true =>
                  rw [hconflict] at hclose hrecords
                  show pledge.fails .alreadyBooked (m.commit place.handle).2.2.records
                  rw [hrecords]
                  exact hclose.2
              | false =>
                  rw [hconflict] at hclose hrecords
                  show next.Keeps peers pledge none (m.commit place.handle).2.2.records
                  rw [hrecords]
                  exact hclose.2
  | waiting key request next place =>
      obtain ⟨hlive, hkey, hheld, hask⟩ := h
      have hlt := Machine.lt_length_of_live hlive.2
      rw [Stage.step]
      split
      · obtain ⟨hreply, htransaction⟩ := Machine.resume_spec stamp hlt hkey hheld
        refine ⟨⟨hlive.1, ?_⟩, ?_⟩
        · rw [htransaction, Transaction.perform_ended, Transaction.locked_ended]
          exact hlive.2
        · rw [htransaction, hreply, Machine.records_resume]
          exact hask m.records stamp (peers.refl _ _) hstamp
      · exact ⟨hlive, hkey, hheld, hask⟩

/-- The turns of others keep the pledge of a program, if they leave its transaction alone and do
to the records what peers may do. -/
theorem Stage.Keeps.frame {peers : Peers} {pledge : Pledge α} (hsound : pledge.Sound peers)
    {s : Stage α} {m m' : Machine} (h : s.Keeps peers pledge m)
    (htransaction : ∀ place, s.place? = some place →
      m'.transaction place.handle = m.transaction place.handle ∧
        peers.may (m.transaction place.handle) m.records m'.records)
    (hmay : peers.may {} m.records m'.records) : s.Keeps peers pledge m' := by
  have hends : ∀ {a t? r r'}, pledge.ends a t? r → peers.may (t?.getD {}) r r' →
      pledge.ends a t? r' := by
    intro a t? r r' hends hmay
    cases t? with
    | none => exact hsound.ends hends hmay
    | some t => exact absurd hends hsound.outside
  cases s with
  | ended result =>
      cases result with
      | ok a => exact hsound.ends h hmay
      | error cause => exact hsound.fails h hmay
  | active p place? =>
      cases place? with
      | none => exact Program.Keeps.mono hends h hmay
      | some place =>
          obtain ⟨heq, hplace⟩ := htransaction place rfl
          obtain ⟨hlive, h⟩ := h
          refine ⟨⟨hlive.1, by rw [heq]; exact hlive.2⟩, ?_⟩
          rw [heq]
          exact Program.Keeps.mono hends h hplace
  | waiting key request next place =>
      obtain ⟨heq, hplace⟩ := htransaction place rfl
      obtain ⟨hlive, hkey, hheld, h⟩ := h
      refine ⟨⟨hlive.1, by rw [heq]; exact hlive.2⟩, hkey, by rw [heq]; exact hheld, ?_⟩
      rw [heq]
      exact Program.Keeps.mono hends h hplace

end Store

end Bookable
