import Bookable.Proofs.Hall.Pledge
import Bookable.Proofs.Hall.Seats

/-!
# Order in the hall

As long as every program keeps some pledge, its transactions are opened and ended one by
one, and the seats of the callers and the queues of the registry stay arranged: nobody
else has a key that a transaction holds, and when all calls have ended the registry is
empty. New bookings of different transactions have different identifiers, since every
turn is offered a new one.

With the hall in order, what a commit does to the others is what peers may do, and so
every pledge is kept by every call along every run. `Fair.run` is the theorem that
everything about interleaved calls is derived from.
-/

namespace Bookable.Store

variable {α : Type} {peers : Peers}

def Stage.seat? (s : Stage α) (m : Machine) : Option Seat :=
  match s with
  | .active _ (some place) => some ⟨place.handle, (m.transaction place.handle).held, none⟩
  | .waiting key _ _ place => some ⟨place.handle, (m.transaction place.handle).held, some key⟩
  | _ => none

/-! ## What a turn leaves alone -/

theorem Stage.transaction_step {s : Stage α} {m : Machine} (caller : Nat) (stamp : Stamp)
    {other : Nat} (hlt : other < m.transactions.length)
    (hne : ∀ place, s.place? = some place → other ≠ place.handle) :
    (s.step caller stamp m).2.transaction other = m.transaction other := by
  cases s with
  | ended result => rfl
  | active p place? =>
      cases p with
      | done a => rfl
      | fail cause =>
          rcases place? with _ | ⟨handle, _ | _⟩
          · rfl
          · rfl
          · show (m.rollback handle).2.transaction other = m.transaction other
            rw [Machine.rollback_machine]
            split
            · rfl
            · exact Machine.transaction_finish_of_ne _ (hne _ rfl)
      | opening next =>
          show m.begin.2.transaction other = m.transaction other
          rw [Machine.transaction_begin, if_neg (by omega)]
      | ask request next =>
          cases place? with
          | none => rfl
          | some place =>
              rw [step]
              split
              · next hask => exact Machine.transaction_ask_of_ne hask (hne place rfl)
              · next hask =>
                  obtain ⟨-, -, -, rfl⟩ := Machine.ask_queued hask
                  rfl
      | closing next =>
          cases place? with
          | none => rfl
          | some place =>
              rw [step_closing]
              exact Machine.transaction_commit_of_ne (hne place rfl)
  | waiting key request next place =>
      rw [step]
      split
      · refine (Machine.transaction_setTransaction_of_ne (hne place rfl).symm _).trans ?_
        exact Machine.transaction_setTransaction_of_ne (hne place rfl).symm _
      · rfl

/-- The records after a turn: only a commit that publishes changes them. -/
theorem Stage.records_step (s : Stage α) (m : Machine) (caller : Nat) (stamp : Stamp) :
    (s.commits m = false ∧ (s.step caller stamp m).2.records = m.records) ∨
      ∃ next place, s = .active (.closing next) (some place) ∧ s.commits m = true ∧
        (s.step caller stamp m).1 = .active next none ∧
        (s.step caller stamp m).2.records =
          (m.transaction place.handle).publish m.records := by
  cases s with
  | ended result => exact Or.inl ⟨rfl, rfl⟩
  | active p place? =>
      cases p with
      | done a => exact Or.inl ⟨rfl, rfl⟩
      | fail cause => exact Or.inl ⟨rfl, Machine.records_abandon m place?⟩
      | opening next => exact Or.inl ⟨rfl, rfl⟩
      | ask request next =>
          left
          cases place? with
          | none => exact ⟨rfl, rfl⟩
          | some place =>
              refine ⟨rfl, ?_⟩
              rw [step]
              split
              · next hask => exact Machine.records_ask_answered hask
              · next hask => exact Machine.records_ask_queued hask
      | closing next =>
          cases place? with
          | none => exact Or.inl ⟨rfl, rfl⟩
          | some place =>
              have hrecords := m.records_commit place.handle
              cases hpublishes : m.publishes place.handle with
              | false =>
                  rw [hpublishes] at hrecords
                  refine Or.inl ⟨hpublishes, ?_⟩
                  rw [step_closing]
                  exact hrecords
              | true =>
                  rw [hpublishes] at hrecords
                  refine Or.inr ⟨next, place, rfl, hpublishes, ?_, ?_⟩
                  · obtain ⟨hlive, hclear⟩ := Machine.publishes_iff.mp hpublishes
                    rw [stage_closing caller stamp next hlive, hclear]
                    rfl
                  · rw [step_closing]
                    exact hrecords
  | waiting key request next place =>
      left
      refine ⟨rfl, ?_⟩
      rw [step]
      split <;> rfl

theorem Machine.newBookings_finish (m : Machine) (handle other : Nat) {t : Transaction}
    (ht : ∀ b ∈ t.newBookings, b ∈ (m.transaction handle).newBookings) :
    ∀ b ∈ ((m.finish handle t).2.transaction other).newBookings,
      b ∈ (m.transaction other).newBookings := by
  intro b hb
  rw [transaction_finish, transaction_setTransaction] at hb
  split at hb
  · next h =>
      rw [← h.1]
      exact ht b hb
  · exact hb

theorem Machine.newBookings_commit (m : Machine) (handle other : Nat) :
    ∀ b ∈ ((m.commit handle).2.2.transaction other).newBookings,
      b ∈ (m.transaction other).newBookings := by
  rw [commit_machine]
  split
  · exact fun b hb => hb
  · split
    · exact newBookings_finish m handle other (t := (m.transaction handle).cleared)
        fun _ hb => absurd hb List.not_mem_nil
    · exact newBookings_finish _ handle other fun b hb => hb

theorem Machine.newBookings_perform (m : Machine) (stamp : Stamp) (handle other : Nat)
    (request : Request) :
    ∀ b ∈ ((m.perform stamp handle request).2.transaction other).newBookings,
      b ∈ (m.transaction other).newBookings ∨ b.id = stamp.id ∧ other = handle := by
  intro b hb
  rw [perform_machine, transaction_setTransaction] at hb
  split at hb
  · next h =>
      rw [Transaction.perform_newBookings] at hb
      split at hb
      · rcases mem_of_mem_put hb with rfl | hb
        · exact Or.inr ⟨rfl, h.1.symm⟩
        · rw [← h.1]
          exact Or.inl hb
      · rw [← h.1]
        exact Or.inl hb
  · exact Or.inl hb

theorem Machine.newBookings_hold (m : Machine) (handle other : Nat) (key : Key) :
    ((m.hold handle key).transaction other).newBookings =
      (m.transaction other).newBookings := by
  rw [hold, transaction_setTransaction]
  split
  · next h => rw [h.1]
  · rfl

/-- A turn adds at most one new booking, with the identifier that it was offered. -/
theorem Stage.newBookings_step (s : Stage α) (m : Machine) (caller : Nat) (stamp : Stamp)
    (other : Nat) :
    ∀ b ∈ ((s.step caller stamp m).2.transaction other).newBookings,
      b ∈ (m.transaction other).newBookings ∨
        b.id = stamp.id ∧ ∃ place, s.place? = some place ∧ other = place.handle := by
  cases s with
  | ended result => exact fun b hb => Or.inl hb
  | active p place? =>
      cases p with
      | done a => exact fun b hb => Or.inl hb
      | fail cause =>
          rcases place? with _ | ⟨handle, _ | _⟩
          · exact fun b hb => Or.inl hb
          · exact fun b hb => Or.inl hb
          · intro b hb
            change b ∈ ((m.rollback handle).2.transaction other).newBookings at hb
            rw [Machine.rollback_machine] at hb
            split at hb
            · exact Or.inl hb
            · exact Or.inl (Machine.newBookings_finish m handle other
                (t := (m.transaction handle).cleared)
                (fun _ hb => absurd hb List.not_mem_nil) b hb)
      | opening next =>
          intro b hb
          change b ∈ (m.begin.2.transaction other).newBookings at hb
          rw [Machine.transaction_begin] at hb
          split at hb
          · cases hb
          · exact Or.inl hb
      | ask request next =>
          cases place? with
          | none => exact fun b hb => Or.inl hb
          | some place =>
              intro b hb
              rw [step] at hb
              split at hb
              · next hask =>
                  obtain ⟨-, -, rfl⟩ | ⟨key, -, ⟨-, -, rfl⟩ | ⟨-, -, -, rfl⟩⟩ :=
                    Machine.ask_answered hask
                  · exact (Machine.newBookings_perform m stamp _ other request b hb).imp_right
                      fun h => ⟨h.1, place, rfl, h.2⟩
                  · exact (Machine.newBookings_perform m stamp _ other request b hb).imp_right
                      fun h => ⟨h.1, place, rfl, h.2⟩
                  · rcases Machine.newBookings_perform _ stamp _ other request b hb with hb | h
                    · rw [Machine.newBookings_hold] at hb
                      exact Or.inl hb
                    · exact Or.inr ⟨h.1, place, rfl, h.2⟩
              · next hask =>
                  obtain ⟨-, -, -, rfl⟩ := Machine.ask_queued hask
                  exact Or.inl hb
      | closing next =>
          cases place? with
          | none => exact fun b hb => Or.inl hb
          | some place =>
              intro b hb
              rw [step_closing] at hb
              exact Or.inl (Machine.newBookings_commit m place.handle other b hb)
  | waiting key request next place =>
      intro b hb
      rw [step] at hb
      split at hb
      · rcases Machine.newBookings_perform _ stamp _ other request b hb with hb | h
        · rw [Machine.newBookings_hold] at hb
          exact Or.inl hb
        · exact Or.inr ⟨h.1, place, rfl, h.2⟩
      · exact Or.inl hb

/-! ## Seats and queues after a turn -/

theorem reseat_same {seats : Nat → Option Seat} {caller : Nat} {seat? : Option Seat}
    (h : seats caller = seat?) : reseat seats caller seat? = seats := by
  funext other
  rw [reseat]
  split
  · next heq => rw [heq, h]
  · rfl

/-- The end of a transaction takes its caller off the queues. -/
theorem Arranged.finish {seats : Nat → Option Seat} {m : Machine}
    (hm : m.registry.Proper) (h : Arranged seats m.registry.queue) {caller handle : Nat}
    {t : Transaction} (hseat : seats caller = some ⟨handle, t.held, none⟩) :
    (m.finish handle t).2.registry.Proper ∧
      Arranged (reseat seats caller none) (m.finish handle t).2.registry.queue := by
  have honce : t.held.reverse.Nodup := List.nodup_reverse.mpr (h.once hseat)
  obtain ⟨hproper, hqueue⟩ := Registry.leave_all hm honce
  rw [Machine.registry_finish]
  refine ⟨hproper, ?_⟩
  have hleave := h.leave hseat rfl
  have heq : (t.held.reverse.foldl Registry.leave m.registry).queue = fun key =>
      if key ∈ t.held then (m.registry.queue key).tail else m.registry.queue key := by
    funext key
    simp only [hqueue, List.mem_reverse]
  rw [heq]
  exact hleave

theorem Arranged.commit {seats : Nat → Option Seat} {m : Machine}
    (hm : m.registry.Proper) (h : Arranged seats m.registry.queue) {caller handle : Nat}
    (hlive : (m.transaction handle).ended = false)
    (hseat : seats caller = some ⟨handle, (m.transaction handle).held, none⟩) :
    (m.commit handle).2.2.registry.Proper ∧
      Arranged (reseat seats caller none) (m.commit handle).2.2.registry.queue := by
  rw [Machine.commit_machine, hlive]
  simp only [Bool.false_eq_true, if_false]
  split
  · exact Arranged.finish (t := (m.transaction handle).cleared) hm h hseat
  · exact Arranged.finish
      (m := { m with records := (m.transaction handle).publish m.records }) hm h hseat

theorem Arranged.rollback {seats : Nat → Option Seat} {m : Machine}
    (hm : m.registry.Proper) (h : Arranged seats m.registry.queue) {caller handle : Nat}
    (hlive : (m.transaction handle).ended = false)
    (hseat : seats caller = some ⟨handle, (m.transaction handle).held, none⟩) :
    (m.rollback handle).2.registry.Proper ∧
      Arranged (reseat seats caller none) (m.rollback handle).2.registry.queue := by
  rw [Machine.rollback_machine, hlive]
  exact Arranged.finish (t := (m.transaction handle).cleared) hm h hseat

theorem Registry.queue_enter {g : Registry} (hg : g.Proper) (key : Key) (ticket : Ticket) :
    (g.enter key ticket).queue = requeued g.queue key (g.queue key ++ [ticket]) :=
  funext (enter_spec hg key ticket).2

theorem Transaction.held_perform_locked {t : Transaction} (r : Records) (stamp : Stamp)
    {request : Request} {key : Key} (hkey : keyOf? request = some key) (hheld : key ∉ t.held) :
    ((t.locked request).perform r stamp request).2.held = t.held ++ [key] := by
  rw [perform_held, locked, hkey]
  simp only [if_neg hheld]

/-- A turn of a program that keeps a pledge keeps the seats and the queues arranged. -/
theorem Stage.arranged_step {pledge : Pledge α}
    (houtside : ∀ {a t r}, ¬ pledge.ends a (some t) r) {s : Stage α} {m : Machine}
    (hs : s.Keeps peers pledge m) {seats : Nat → Option Seat}
    (hm : m.registry.Proper) (h : Arranged seats m.registry.queue) {caller : Nat}
    (hseat : seats caller = s.seat? m)
    (hold : ∀ {other a}, seats other = some a → a.handle < m.transactions.length)
    (stamp : Stamp) :
    (s.step caller stamp m).2.registry.Proper ∧
      Arranged (reseat seats caller ((s.step caller stamp m).1.seat? (s.step caller stamp m).2))
        (s.step caller stamp m).2.registry.queue := by
  have hsame : Arranged (reseat seats caller (s.seat? m)) m.registry.queue := by
    rw [reseat_same hseat]
    exact h
  cases s with
  | ended result => exact ⟨hm, hsame⟩
  | active p place? =>
      cases place? with
      | none =>
          cases p with
          | done a => exact ⟨hm, hsame⟩
          | fail cause => exact ⟨hm, hsame⟩
          | opening next =>
              refine ⟨hm, ?_⟩
              show Arranged (reseat seats caller (some ⟨m.transactions.length,
                (m.begin.2.transaction m.transactions.length).held, none⟩)) m.registry.queue
              rw [Machine.transaction_begin, if_pos rfl]
              exact h.sit hseat fun hother heq => absurd (hold hother) (by omega)
          | ask request next => exact hs.elim
          | closing next => exact hs.elim
      | some place =>
          obtain ⟨⟨hown, hlive⟩, hs⟩ := hs
          have hlt := Machine.lt_length_of_live hlive
          cases p with
          | done a => exact absurd hs houtside
          | fail cause =>
              obtain ⟨handle, own⟩ := place
              cases hown
              exact h.rollback hm hlive hseat
          | opening next => exact hs.elim
          | ask request next =>
              rw [step]
              split
              · next reply m' hask =>
                  obtain ⟨-, htransaction⟩ := Machine.transaction_ask hlt hask
                  simp only [seat?, htransaction]
                  obtain ⟨hkey, -, rfl⟩ | ⟨key, hkey, ⟨hheld, -, rfl⟩ | ⟨hheld, hfree, -, rfl⟩⟩ :=
                    Machine.ask_answered hask
                  · rw [Transaction.perform_held, Transaction.locked, hkey]
                    exact ⟨hm, hsame⟩
                  · rw [Transaction.perform_held, Transaction.locked, hkey]
                    simp only [if_pos hheld]
                    exact ⟨hm, hsame⟩
                  · rw [Transaction.held_perform_locked _ _ hkey hheld]
                    refine ⟨(Registry.enter_spec hm key _).1, ?_⟩
                    show Arranged _ (m.registry.enter key ⟨caller, place.handle⟩).queue
                    have hempty := (Registry.lock?_eq_none_iff hm key).mp hfree
                    rw [Registry.queue_enter hm, hempty]
                    exact h.seize hseat rfl hempty
              · next key m' hask =>
                  obtain ⟨hkey, hheld, ⟨l, hl⟩, rfl⟩ := Machine.ask_queued hask
                  refine ⟨(Registry.enter_spec hm key _).1, ?_⟩
                  show Arranged _ (m.registry.enter key ⟨caller, place.handle⟩).queue
                  rw [Registry.queue_enter hm]
                  refine h.await hseat rfl hheld fun hempty => ?_
                  rw [(Registry.lock?_eq_none_iff hm key).mpr hempty] at hl
                  cases hl
          | closing next =>
              have hcommit := h.commit hm hlive hseat
              rw [stage_closing caller stamp next hlive, step_closing]
              split
              · exact hcommit
              · exact hcommit
  | waiting key request next place =>
      obtain ⟨⟨hown, hlive⟩, hkey, hheld, hs⟩ := hs
      have hlt := Machine.lt_length_of_live hlive
      rw [step]
      split
      · next hfront =>
          obtain ⟨-, htransaction⟩ := Machine.resume_spec stamp hlt hkey hheld
          simp only [seat?, htransaction]
          rw [Transaction.held_perform_locked _ _ hkey hheld]
          exact ⟨hm, h.grant hseat rfl ((Registry.isHeldBy_iff _ _ _).mp hfront)⟩
      · exact ⟨hm, hsame⟩

/-- With nobody in a seat, no lock is left. -/
theorem Arranged.locks_eq_nil {seats : Nat → Option Seat} {g : Registry} (hg : g.Proper)
    (h : Arranged seats g.queue) (hnobody : ∀ caller, seats caller = none) : g.locks = [] := by
  refine Registry.locks_eq_nil hg fun key => ?_
  rw [List.eq_nil_iff_forall_not_mem]
  intro ticket hticket
  obtain ⟨a, ha, -⟩ := h.owned hticket
  rw [hnobody] at ha
  cases ha

/-! ## The hall -/

theorem Stage.seat?_of_place? {s : Stage α} {place : Place} (h : s.place? = some place)
    (m : Machine) : ∃ a, s.seat? m = some a ∧ a.handle = place.handle ∧
      a.held = (m.transaction place.handle).held := by
  cases s with
  | ended result => cases h
  | active p place? =>
      cases h
      exact ⟨_, rfl, rfl, rfl⟩
  | waiting key request next place =>
      cases h
      exact ⟨_, rfl, rfl, rfl⟩

theorem Stage.place?_of_seat? {s : Stage α} {m : Machine} {a : Seat} (h : s.seat? m = some a) :
    ∃ place, s.place? = some place ∧ a.handle = place.handle := by
  cases s with
  | ended result => cases h
  | active p place? =>
      cases place? with
      | none => cases h
      | some place =>
          cases h
          exact ⟨place, rfl, rfl⟩
  | waiting key request next place =>
      cases h
      exact ⟨place, rfl, rfl⟩

theorem Stage.seat?_congr {s : Stage α} {m m' : Machine}
    (h : ∀ place, s.place? = some place →
      m'.transaction place.handle = m.transaction place.handle) : s.seat? m' = s.seat? m := by
  cases s with
  | ended result => rfl
  | active p place? =>
      cases place? with
      | none => rfl
      | some place => simp only [seat?, h place rfl]
  | waiting key request next place => simp only [seat?, h place rfl]

theorem Stage.Keeps.live {pledge : Pledge α} {s : Stage α} {m : Machine}
    (h : s.Keeps peers pledge m) {place : Place} (hplace : s.place? = some place) :
    Stage.Live m place := by
  cases s with
  | ended result => cases hplace
  | active p place? =>
      cases hplace
      exact h.1
  | waiting key request next place =>
      cases hplace
      exact h.1

/-- What is known of a commit that publishes. -/
theorem Stage.Keeps.commits {pledge : Pledge α} {next : Program α} {place : Place}
    {m : Machine} (h : Stage.Keeps peers pledge (.active (.closing next) (some place)) m)
    (hpublishes : m.publishes place.handle = true) :
    (m.transaction place.handle).conflicts m.records = false ∧
      pledge.commits (m.transaction place.handle) next m.records := by
  have hclose := h.2 m.records (peers.refl _ _)
  obtain ⟨-, hclear⟩ := Machine.publishes_iff.mp hpublishes
  rw [hclear, if_neg Bool.false_ne_true] at hclose
  exact ⟨hclear, hclose.1⟩

namespace Hall

def seat? (h : Hall) (caller : Nat) : Option Seat :=
  (h.stage? caller).bind (·.seat? h.machine)

/-- Seats and queues are arranged, and no identifier of a new booking occurs twice. -/
structure Orderly (h : Hall) : Prop where
  proper : h.machine.registry.Proper
  arranged : Arranged h.seat? h.machine.registry.queue
  distinct : ∀ i j, i ≠ j → ∀ a ∈ (h.machine.transaction i).newBookings,
    ∀ b ∈ (h.machine.transaction j).newBookings, a.id ≠ b.id

/-- The hall is in order, every call keeps its pledge, and the records come from some others by
what peers may do. -/
structure Fair (peers : Peers) (pledge : Call → Pledge Answer) (r : Records) (h : Hall) :
    Prop where
  orderly : h.Orderly
  keeps : ∀ {caller : Nat} {v : Visit}, h.visits[caller]? = some v →
    v.stage.Keeps peers (pledge v.call) h.machine
  reached : peers.may {} r h.machine.records

/-- Pledges that hold good among each other, with stamps that can be drawn. -/
structure Pact (peers : Peers) (pledge : Call → Pledge Answer) : Prop where
  sound : ∀ call, (pledge call).Sound peers
  stamps : ∀ {m : Machine} {stamp : Stamp}, m.inUse stamp.id = false →
    peers.stamps m.records stamp

variable {pledge : Call → Pledge Answer} {r : Records} {h : Hall}

theorem stage?_eq {caller : Nat} {v : Visit} (hv : h.visits[caller]? = some v) :
    h.stage? caller = some v.stage := by
  rw [stage?, hv]
  rfl

theorem seat?_eq {caller : Nat} {v : Visit} (hv : h.visits[caller]? = some v) :
    h.seat? caller = v.stage.seat? h.machine := by
  rw [seat?, stage?_eq hv]
  rfl

/-- Every seat is that of a visit, with a transaction that is still open. -/
theorem Fair.visit_of_seat (hf : h.Fair peers pledge r) {caller : Nat} {a : Seat}
    (ha : h.seat? caller = some a) : ∃ v place, h.visits[caller]? = some v ∧
      v.stage.place? = some place ∧ a.handle = place.handle ∧ Stage.Live h.machine place := by
  unfold seat? stage? at ha
  cases hv : h.visits[caller]? with
  | none =>
      rw [hv] at ha
      cases ha
  | some v =>
      rw [hv] at ha
      obtain ⟨place, hplace, hhandle⟩ := Stage.place?_of_seat? ha
      exact ⟨v, place, rfl, hplace, hhandle, (hf.keeps hv).live hplace⟩

theorem Fair.apart (hf : h.Fair peers pledge r) {i j : Nat} {v w : Visit} {p q : Place}
    (hv : h.visits[i]? = some v) (hw : h.visits[j]? = some w) (hne : i ≠ j)
    (hp : v.stage.place? = some p) (hq : w.stage.place? = some q) :
    p.handle ≠ q.handle ∧
      (h.machine.transaction p.handle).Apart (h.machine.transaction q.handle) := by
  obtain ⟨a, ha, hap, hheld⟩ := Stage.seat?_of_place? hp h.machine
  obtain ⟨b, hb, hbq, hheld'⟩ := Stage.seat?_of_place? hq h.machine
  rw [← seat?_eq hv] at ha
  rw [← seat?_eq hw] at hb
  have hhandle : p.handle ≠ q.handle := by
    rw [← hap, ← hbq]
    exact fun heq => hne (hf.orderly.arranged.apart ha hb heq)
  refine ⟨hhandle, fun key hkey hkey' => ?_, hf.orderly.distinct _ _ hhandle⟩
  rw [← hheld] at hkey
  rw [← hheld'] at hkey'
  exact hne (hf.orderly.arranged.exclusive ha hb hkey hkey')

/-- A turn of one caller leaves the transactions of the others alone. -/
theorem Fair.transaction_others (hf : h.Fair peers pledge r) {caller other : Nat} {v w : Visit}
    (hv : h.visits[caller]? = some v) (hw : h.visits[other]? = some w) (hne : other ≠ caller)
    (stamp : Stamp) {place : Place} (hplace : w.stage.place? = some place) :
    (v.stage.step caller stamp h.machine).2.transaction place.handle =
      h.machine.transaction place.handle := by
  have hlive := (hf.keeps hw).live hplace
  refine Stage.transaction_step caller stamp (Machine.lt_length_of_live hlive.2) ?_
  exact fun own hown => (hf.apart hw hv hne hplace hown).1

theorem notInUse {m : Machine} {id : String} (hm : m.inUse id = false) :
    (∀ b ∈ m.records.bookings, b.id ≠ id) ∧
      ∀ handle, ∀ b ∈ (m.transaction handle).newBookings, b.id ≠ id := by
  simp only [Machine.inUse, Bool.or_eq_false_iff, List.any_eq_false, beq_iff_eq, Bool.not_eq_true]
    at hm
  obtain ⟨⟨-, hrecords⟩, htransactions⟩ := hm
  refine ⟨hrecords, fun handle b hb => ?_⟩
  rcases m.transaction_mem handle with hmem | hblank
  · exact (htransactions _ hmem).2 b hb
  · rw [hblank] at hb
    cases hb

theorem visits_call {call : Call} {caller : Nat} {v : Visit}
    (hv : (h.take (.call call)).visits[caller]? = some v) :
    h.visits[caller]? = some v ∨
      (caller = h.visits.length ∧ v = ⟨call, .active call.program none⟩) := by
  change (h.visits ++ [_])[caller]? = some v at hv
  rcases Nat.lt_or_ge caller h.visits.length with hlt | hge
  · rw [List.getElem?_append_left hlt] at hv
    exact Or.inl hv
  · rw [List.getElem?_append_right hge, List.getElem?_singleton] at hv
    split at hv
    · next hlast =>
        cases hv
        exact Or.inr ⟨by omega, rfl⟩
    · cases hv

theorem visits_turn {caller other : Nat} {v w : Visit} {stage : Stage Answer}
    (hw : (h.visits.set caller { v with stage })[other]? = some w) :
    (other = caller ∧ w = { v with stage }) ∨
      (other ≠ caller ∧ h.visits[other]? = some w) := by
  rw [List.getElem?_set] at hw
  split at hw
  · next heq =>
      subst heq
      split at hw
      · cases hw
        exact Or.inl ⟨rfl, rfl⟩
      · cases hw
  · next hne => exact Or.inr ⟨fun heq => hne heq.symm, hw⟩

/-- The records after a turn are what the peers of every other transaction may make of them. -/
theorem Fair.may_step (hf : h.Fair peers pledge r) (pact : Pact peers pledge) {caller : Nat}
    {v : Visit} (hv : h.visits[caller]? = some v) (stamp : Stamp) (u : Transaction)
    (hu : ∀ place, v.stage.place? = some place →
      u.Apart (h.machine.transaction place.handle)) :
    peers.may u h.machine.records (v.stage.step caller stamp h.machine).2.records := by
  rcases v.stage.records_step h.machine caller stamp with
    ⟨-, hrecords⟩ | ⟨next, place, hstage, hcommits, -, hrecords⟩
  · rw [hrecords]
    exact peers.refl _ _
  · rw [hrecords]
    have hkeeps := hf.keeps hv
    rw [hstage] at hkeeps hcommits
    obtain ⟨hconflict, hcommit⟩ := hkeeps.commits hcommits
    refine (pact.sound v.call).commits hcommit hconflict u (hu place ?_)
    rw [hstage]
    rfl

theorem Fair.seat?_step (hf : h.Fair peers pledge r) {caller : Nat} {v : Visit}
    (hv : h.visits[caller]? = some v) (stamp : Stamp) :
    seat? ⟨(v.stage.step caller stamp h.machine).2,
        h.visits.set caller { v with stage := (v.stage.step caller stamp h.machine).1 },
        h.commits⟩ =
      reseat h.seat? caller ((v.stage.step caller stamp h.machine).1.seat?
        (v.stage.step caller stamp h.machine).2) := by
  funext other
  rw [reseat]
  split
  · next heq =>
      subst heq
      have hlt : other < h.visits.length := (List.getElem?_eq_some_iff.mp hv).1
      exact seat?_eq (h := ⟨_, h.visits.set other _, h.commits⟩) (List.getElem?_set_self hlt)
  · next hne =>
      cases hw : h.visits[other]? with
      | none =>
          unfold seat? stage?
          rw [List.getElem?_set_ne (Ne.symm hne), hw]
          rfl
      | some w =>
          rw [seat?_eq hw, seat?_eq (v := w)]
          · exact Stage.seat?_congr fun q hq => hf.transaction_others hv hw hne stamp hq
          · rw [List.getElem?_set_ne (Ne.symm hne)]
            exact hw

theorem Fair.turn (hf : h.Fair peers pledge r) (pact : Pact peers pledge) (stamp : Stamp)
    (caller : Nat) : (h.take (.turn stamp caller)).Fair peers pledge r := by
  rcases h.take_turn_cases stamp caller with htake | ⟨v, hv, hnew, htake⟩
  · rw [htake]
    exact hf
  · rw [htake]
    have hkeeps := hf.keeps hv
    have hold : ∀ {other a}, h.seat? other = some a →
        a.handle < h.machine.transactions.length := by
      intro other a ha
      obtain ⟨-, place, -, -, hhandle, hlive⟩ := hf.visit_of_seat ha
      rw [hhandle]
      exact Machine.lt_length_of_live hlive.2
    obtain ⟨hproper, harranged⟩ := Stage.arranged_step (pact.sound v.call).outside hkeeps
      hf.orderly.proper hf.orderly.arranged (seat?_eq hv) hold stamp
    refine ⟨⟨hproper, ?_, ?_⟩, ?_, ?_⟩
    · have hseat := hf.seat?_step hv stamp
      show Arranged (seat? ⟨_, _, h.commits⟩) _
      rw [hseat]
      exact harranged
    · -- Only the caller's own transaction has got a booking with the offered identifier.
      intro i j hne a ha b hb
      have hfresh := (notInUse hnew).2
      rcases v.stage.newBookings_step h.machine caller stamp i a ha with ha | ⟨hid, p, hp, hi⟩
      · rcases v.stage.newBookings_step h.machine caller stamp j b hb with hb | ⟨hid', -⟩
        · exact hf.orderly.distinct i j hne a ha b hb
        · rw [hid']
          exact hfresh i a ha
      · rcases v.stage.newBookings_step h.machine caller stamp j b hb with hb | ⟨-, q, hq, hj⟩
        · rw [hid]
          exact (hfresh j b hb).symm
        · rw [hp] at hq
          cases hq
          exact absurd (hi.trans hj.symm) hne
    · intro other w hw
      rcases visits_turn hw with ⟨-, rfl⟩ | ⟨hne, hw⟩
      · exact hkeeps.step (pact.sound v.call).outside caller (pact.stamps hnew)
      · refine (hf.keeps hw).frame (pact.sound w.call) (fun q hq => ⟨?_, ?_⟩) ?_
        · exact hf.transaction_others hv hw hne stamp hq
        · exact hf.may_step pact hv stamp _ fun p hp => (hf.apart hw hv hne hq hp).2
        · refine hf.may_step pact hv stamp _ fun p _ => ⟨?_, ?_⟩
          · exact fun _ hkey => absurd hkey List.not_mem_nil
          · exact fun _ hb => absurd hb List.not_mem_nil
    · refine peers.trans hf.reached (hf.may_step pact hv stamp _ fun p _ => ⟨?_, ?_⟩)
      · exact fun _ hkey => absurd hkey List.not_mem_nil
      · exact fun _ hb => absurd hb List.not_mem_nil

theorem Fair.call (hf : h.Fair peers pledge r) {call : Call}
    (hcall : call.program.Keeps peers (pledge call) none h.machine.records) :
    (h.take (.call call)).Fair peers pledge r := by
  have hseat : (h.take (.call call)).seat? = h.seat? := by
    funext caller
    unfold seat? stage?
    show ((h.visits ++ [_])[caller]?.map Visit.stage).bind _ = _
    rcases Nat.lt_trichotomy caller h.visits.length with hlt | heq | hgt
    · rw [List.getElem?_append_left hlt]
      rfl
    · rw [heq, List.getElem?_concat_length, List.getElem?_eq_none (Nat.le_refl _)]
      rfl
    · rw [List.getElem?_eq_none (Nat.le_of_lt hgt), List.getElem?_eq_none]
      · rfl
      · rw [List.length_append, List.length_singleton]
        omega
  refine ⟨⟨hf.orderly.proper, ?_, hf.orderly.distinct⟩, ?_, hf.reached⟩
  · rw [hseat]
    exact hf.orderly.arranged
  · intro caller v hv
    rcases visits_call hv with hv | ⟨-, rfl⟩
    · exact hf.keeps hv
    · exact hcall

theorem Fair.reorder (hf : h.Fair peers pledge r) (pact : Pact peers pledge) (key : Key)
    (queue : List Ticket) : (h.take (.reorder key queue)).Fair peers pledge r := by
  have hseat : (h.take (.reorder key queue)).seat? = h.seat? := by
    funext caller
    unfold seat? stage?
    show (h.visits[caller]?.map Visit.stage).bind (·.seat? (h.machine.reorder key queue)) = _
    cases h.visits[caller]? with
    | none => rfl
    | some v =>
        exact Stage.seat?_congr fun place _ => Machine.transaction_reorder _ _ _ _
  have hkeeps : ∀ {caller : Nat} {v : Visit}, h.visits[caller]? = some v →
      v.stage.Keeps peers (pledge v.call) (h.machine.reorder key queue) := by
    intro caller v hv
    refine (hf.keeps hv).frame (pact.sound v.call) (fun place _ => ⟨?_, ?_⟩) ?_
    · exact Machine.transaction_reorder _ _ _ _
    · rw [Machine.records_reorder]
      exact peers.refl _ _
    · rw [Machine.records_reorder]
      exact peers.refl _ _
  have hdistinct : ∀ i j, i ≠ j →
      ∀ a ∈ ((h.machine.reorder key queue).transaction i).newBookings,
      ∀ b ∈ ((h.machine.reorder key queue).transaction j).newBookings, a.id ≠ b.id := by
    intro i j
    rw [Machine.transaction_reorder, Machine.transaction_reorder]
    exact hf.orderly.distinct i j
  have hreached : peers.may {} r (h.machine.reorder key queue).records := by
    rw [Machine.records_reorder]
    exact hf.reached
  rcases Machine.reorder_spec hf.orderly.proper key queue with
    ⟨-, heq⟩ | ⟨⟨hperm, hfirst⟩, hproper, hqueue⟩
  · refine ⟨⟨?_, ?_, hdistinct⟩, hkeeps, hreached⟩
    · show (h.machine.reorder key queue).registry.Proper
      rw [heq]
      exact hf.orderly.proper
    · rw [hseat]
      show Arranged _ (h.machine.reorder key queue).registry.queue
      rw [heq]
      exact hf.orderly.arranged
  · refine ⟨⟨hproper, ?_, hdistinct⟩, hkeeps, hreached⟩
    rw [hseat]
    show Arranged _ (h.machine.reorder key queue).registry.queue
    have heq : (h.machine.reorder key queue).registry.queue =
        requeued h.machine.registry.queue key queue := funext hqueue
    rw [heq]
    refine hf.orderly.arranged.shuffle hperm fun {i a} hi hheld => hfirst ?_
    -- The first ticket is that of a transaction that has come to hold the key.
    obtain ⟨v, place, hv, hplace, hhandle, -⟩ := hf.visit_of_seat hi
    obtain ⟨b, hb, -, hheld'⟩ := Stage.seat?_of_place? hplace h.machine
    rw [← seat?_eq hv, hi] at hb
    cases hb
    refine Machine.isTaken_iff.mpr ⟨_, hf.orderly.arranged.front hi hheld, ?_⟩
    rw [hhandle, ← hheld']
    exact hheld

theorem Fair.take (hf : h.Fair peers pledge r) (pact : Pact peers pledge) (event : Event)
    (hcall : ∀ call, event = .call call → ∀ r', peers.may {} r r' →
      call.program.Keeps peers (pledge call) none r') :
    (h.take event).Fair peers pledge r := by
  cases event with
  | call call => exact hf.call (hcall call rfl _ hf.reached)
  | turn stamp caller => exact hf.turn pact stamp caller
  | reorder key queue => exact hf.reorder pact key queue

theorem Fair.run (pact : Pact peers pledge) {events : List Event}
    (hcalls : ∀ call, .call call ∈ events → ∀ r', peers.may {} r r' →
      call.program.Keeps peers (pledge call) none r')
    (hf : h.Fair peers pledge r) : (h.run events).Fair peers pledge r := by
  induction events generalizing h with
  | nil => exact hf
  | cons event events ih =>
      refine ih (fun call hcall => hcalls call (List.mem_cons_of_mem event hcall)) ?_
      refine hf.take pact event fun call heq => ?_
      exact hcalls call (by rw [heq]; exact List.mem_cons_self)

/-! ## Beginning and end -/

theorem orderly_of_idle {m : Machine} (hlocks : m.registry.locks = [])
    (hdistinct : ∀ i j, i ≠ j → ∀ a ∈ (m.transaction i).newBookings,
      ∀ b ∈ (m.transaction j).newBookings, a.id ≠ b.id) : Orderly { machine := m } := by
  obtain ⟨hproper, hqueue⟩ := Registry.idle_of_locks hlocks
  refine ⟨hproper, ?_, hdistinct⟩
  show Arranged _ m.registry.queue
  rw [hqueue]
  exact Arranged.nobody

theorem orderly_empty : Orderly {} :=
  orderly_of_idle rfl fun _ _ _ _ ha => absurd ha List.not_mem_nil

theorem Fair.start {m : Machine} (hm : Orderly { machine := m }) :
    Fair peers pledge m.records { machine := m } :=
  ⟨hm, fun hv => (nomatch hv), peers.refl _ _⟩

/-- When all calls have ended, nobody uses a key. -/
theorem Fair.finish (hf : h.Fair peers pledge r) (hfinished : h.Finished) :
    h.machine.registry.locks = [] ∧ Orderly { machine := h.machine } := by
  have hlocks : h.machine.registry.locks = [] := by
    refine hf.orderly.arranged.locks_eq_nil hf.orderly.proper fun caller => ?_
    cases hseat : h.seat? caller with
    | none => rfl
    | some a =>
        obtain ⟨v, place, hv, hplace, -⟩ := hf.visit_of_seat hseat
        have hended := hfinished v (List.mem_of_getElem? hv)
        cases hstage : v.stage with
        | ended result =>
            rw [hstage] at hplace
            cases hplace
        | _ =>
            rw [hstage] at hended
            cases hended
  exact ⟨hlocks, orderly_of_idle hlocks hf.orderly.distinct⟩

end Hall

end Bookable.Store
