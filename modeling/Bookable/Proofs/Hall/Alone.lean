import Bookable.Proofs.Hall.Order

/-!
# Calls that are served alone

A call that is served from its beginning to its end while nobody else is never waits: a
key that is in use would be its own. It therefore ends, and what it ends with can be
read off any pledge that it keeps among peers that do nothing. `Serial` is one such call
after another.
-/

namespace Bookable.Store

variable {α : Type}

/-- The turns of a call, from its beginning to its end, without anybody else's. -/
def Alone (m : Machine) (call : Call) (result : Except Error Answer) (m' : Machine) : Prop :=
  ∃ stamps, Stage.turns 0 stamps (.active call.program none) m = (.ended result, m')

/-- Calls that succeed one after the other, each of them alone. -/
inductive Serial : Machine → List (Call × Answer) → Machine → Prop where
  | nil (m : Machine) : Serial m [] m
  | cons {m₁ m₂ m₃ : Machine} {call : Call} {answer : Answer} {log : List (Call × Answer)}
      (first : Alone m₁ call (.ok answer) m₂) (rest : Serial m₂ log m₃) :
      Serial m₁ ((call, answer) :: log) m₃

theorem Serial.concat {m₁ m₂ m₃ : Machine} {log : List (Call × Answer)} {call : Call}
    {answer : Answer} (h : Serial m₁ log m₂) (last : Alone m₂ call (.ok answer) m₃) :
    Serial m₁ (log ++ [(call, answer)]) m₃ := by
  induction h with
  | nil m => exact .cons last (.nil m₃)
  | cons first _ ih => exact .cons first (ih last)

/-- Nobody else does anything, and certain stamps are drawn. -/
def Peers.nobody (drawn : Stamp → Prop) : Peers where
  may _ r r' := r' = r
  stamps _ stamp := drawn stamp
  refl _ _ := rfl
  trans h h' := h'.trans h

/-- The seats of a hall with a single caller. -/
def onlySeat (caller : Nat) (seat? : Option Seat) : Nat → Option Seat :=
  reseat (fun _ => none) caller seat?

theorem onlySeat_cases {caller other : Nat} {seat? : Option Seat} {a : Seat}
    (h : onlySeat caller seat? other = some a) : seat? = some a := by
  rcases reseat_cases h with ⟨-, h⟩ | ⟨-, h⟩
  · exact h
  · cases h

theorem onlySeat_none (caller : Nat) : onlySeat caller none = fun _ => none :=
  reseat_same rfl

theorem reseat_onlySeat (caller : Nat) (seat? seat?' : Option Seat) :
    reseat (onlySeat caller seat?) caller seat?' = onlySeat caller seat?' := by
  funext other
  unfold onlySeat reseat
  split <;> rfl

theorem Stage.Keeps.turns {peers : Peers} {pledge : Pledge α}
    (houtside : ∀ {a t r}, ¬ pledge.ends a (some t) r) {s : Stage α} {m : Machine}
    (h : s.Keeps peers pledge m) (caller : Nat) (hstamps : ∀ r stamp, peers.stamps r stamp)
    (stamps : List Stamp) :
    (Stage.turns caller stamps s m).1.Keeps peers pledge (Stage.turns caller stamps s m).2 := by
  induction stamps generalizing s m with
  | nil => exact h
  | cons stamp stamps ih => exact ih (h.step houtside caller (hstamps _ stamp))

/-- A program comes to an end if the turns keep up something that makes its requests be answered
and its commits take place. -/
theorem Stage.exists_turns {I : Stage α → Machine → Prop} (caller : Nat) (stamp : Stamp)
    (hstep : ∀ {s m}, I s m → I (s.step caller stamp m).1 (s.step caller stamp m).2)
    (hask : ∀ {request next place? m}, I (.active (.ask request next) place?) m →
      ∃ place reply m', place? = some place ∧
        m.ask stamp caller place.handle request = .answered reply m')
    (hclosing : ∀ {next place? m}, I (.active (.closing next) place?) m →
      ∃ place, place? = some place)
    {p : Program α} {place? : Option Place} {m : Machine} (h : I (.active p place?) m) :
    ∃ stamps result m', Stage.turns caller stamps (.active p place?) m = (.ended result, m') ∧
      I (.ended result) m' := by
  induction p generalizing place? m with
  | done a => exact ⟨[stamp], .ok a, m, rfl, hstep h⟩
  | fail cause => exact ⟨[stamp], .error cause, m.abandon place?, rfl, hstep h⟩
  | opening next ih =>
      obtain ⟨stamps, result, m', hturns, hended⟩ := ih (hstep h)
      exact ⟨stamp :: stamps, result, m', hturns, hended⟩
  | ask request next ih =>
      obtain ⟨place, reply, m', rfl, hanswered⟩ := hask h
      have hnext := hstep h
      rw [Stage.step, hanswered] at hnext
      obtain ⟨stamps, result, m'', hturns, hended⟩ := ih reply hnext
      refine ⟨stamp :: stamps, result, m'', ?_, hended⟩
      rw [Stage.turns, Stage.step, hanswered]
      exact hturns
  | closing next ih =>
      obtain ⟨place, rfl⟩ := hclosing h
      have hnext := hstep h
      rcases hcommit : m.commit place.handle with ⟨cause | _, woken, m'⟩
      · rw [Stage.step, hcommit] at hnext
        refine ⟨[stamp], .error cause, m', ?_, hnext⟩
        rw [Stage.turns, Stage.step, hcommit]
        rfl
      · rw [Stage.step, hcommit] at hnext
        obtain ⟨stamps, result, m'', hturns, hended⟩ := ih hnext
        refine ⟨stamp :: stamps, result, m'', ?_, hended⟩
        rw [Stage.turns, Stage.step, hcommit]
        exact hturns

/-- A stage that takes its turns alone: it keeps its pledge, and nobody else has a seat. -/
structure Stage.Solitary (caller : Nat) (drawn : Stamp → Prop) (pledge : Pledge α)
    (s : Stage α) (m : Machine) : Prop where
  keeps : s.Keeps (Peers.nobody drawn) pledge m
  proper : m.registry.Proper
  arranged : Arranged (onlySeat caller (s.seat? m)) m.registry.queue

namespace Stage.Solitary

variable {caller : Nat} {drawn : Stamp → Prop} {stamp : Stamp} {pledge : Pledge α}
  {m : Machine}

theorem step (houtside : ∀ {a t r}, ¬ pledge.ends a (some t) r) (hdrawn : drawn stamp)
    {s : Stage α} (h : s.Solitary caller drawn pledge m) :
    (s.step caller stamp m).1.Solitary caller drawn pledge (s.step caller stamp m).2 := by
  have hold : ∀ {other a}, onlySeat caller (s.seat? m) other = some a →
      a.handle < m.transactions.length := by
    intro other a ha
    obtain ⟨place, hplace, hhandle⟩ := Stage.place?_of_seat? (onlySeat_cases ha)
    rw [hhandle]
    exact Machine.lt_length_of_live (h.keeps.live hplace).2
  obtain ⟨hproper, harranged⟩ :=
    Stage.arranged_step houtside h.keeps h.proper h.arranged (reseat_self _ _ _) hold stamp
  rw [reseat_onlySeat] at harranged
  exact ⟨h.keeps.step houtside caller hdrawn, hproper, harranged⟩

theorem turns (houtside : ∀ {a t r}, ¬ pledge.ends a (some t) r) {stamps : List Stamp}
    (hdrawn : ∀ stamp ∈ stamps, drawn stamp) {s : Stage α}
    (h : s.Solitary caller drawn pledge m) :
    (Stage.turns caller stamps s m).1.Solitary caller drawn pledge
      (Stage.turns caller stamps s m).2 := by
  induction stamps generalizing s m with
  | nil => exact h
  | cons stamp stamps ih =>
      refine ih (fun other hother => hdrawn other (List.mem_cons_of_mem stamp hother)) ?_
      exact h.step houtside (hdrawn stamp List.mem_cons_self)

theorem not_queued {request : Request} {next : request.Reply → Program α} {place : Place}
    (h : Stage.Solitary caller drawn pledge (.active (.ask request next) (some place)) m) :
    ∃ reply m', m.ask stamp caller place.handle request = .answered reply m' := by
  cases hask : m.ask stamp caller place.handle request with
  | answered reply m' => exact ⟨reply, m', rfl⟩
  | queued key m' =>
      obtain ⟨-, hheld, ⟨l, hl⟩, -⟩ := Machine.ask_queued hask
      cases hqueue : m.registry.queue key with
      | nil =>
          rw [(Registry.lock?_eq_none_iff h.proper key).mpr hqueue] at hl
          cases hl
      | cons ticket tickets =>
          have hticket : ticket ∈ m.registry.queue key := by
            rw [hqueue]
            exact List.mem_cons_self
          obtain ⟨a, ha, -, huse⟩ := h.arranged.owned hticket
          cases onlySeat_cases ha
          rcases huse with huse | huse
          · exact absurd huse hheld
          · cases huse

theorem ends (houtside : ∀ {a t r}, ¬ pledge.ends a (some t) r) (hdrawn : drawn stamp)
    {p : Program α} {place? : Option Place}
    (h : Stage.Solitary caller drawn pledge (.active p place?) m) :
    ∃ stamps result m', Stage.turns caller stamps (.active p place?) m = (.ended result, m') ∧
      Stage.Solitary caller drawn pledge (.ended result) m' := by
  refine Stage.exists_turns (I := Stage.Solitary caller drawn pledge) caller stamp
    (fun h => h.step houtside hdrawn) (fun h => ?_) (fun h => ?_) h
  · next request next place? _ =>
      cases place? with
      | none => exact h.keeps.elim
      | some place =>
          obtain ⟨reply, m', hask⟩ := h.not_queued
          exact ⟨place, reply, m', rfl, hask⟩
  · next next place? _ =>
      cases place? with
      | none => exact h.keeps.elim
      | some place => exact ⟨place, rfl⟩

end Stage.Solitary

theorem Machine.solitary {m : Machine} {caller : Nat} {drawn : Stamp → Prop} {pledge : Pledge α}
    {p : Program α} (hlocks : m.registry.locks = [])
    (h : p.Keeps (Peers.nobody drawn) pledge none m.records) :
    Stage.Solitary caller drawn pledge (.active p none) m := by
  obtain ⟨hproper, hqueue⟩ := Registry.idle_of_locks hlocks
  refine ⟨h, hproper, ?_⟩
  show Arranged (onlySeat caller none) m.registry.queue
  rw [onlySeat_none, hqueue]
  exact Arranged.nobody

theorem Stage.Solitary.locks_eq_nil {m : Machine} {caller : Nat} {drawn : Stamp → Prop}
    {pledge : Pledge α} {result : Except Error α}
    (h : Stage.Solitary caller drawn pledge (.ended result) m) : m.registry.locks = [] := by
  refine h.arranged.locks_eq_nil h.proper fun other => ?_
  show onlySeat caller none other = none
  rw [onlySeat_none]

section Results

variable {m m' : Machine} {caller : Nat} {call : Call} {drawn : Stamp → Prop}
  {pledge : Pledge Answer}

/-- A call that is alone has a result, on a machine without locks. -/
theorem Alone.exists (houtside : ∀ {a t r}, ¬ pledge.ends a (some t) r)
    {stamp : Stamp} (hdrawn : drawn stamp) (hlocks : m.registry.locks = [])
    (h : call.program.Keeps (Peers.nobody drawn) pledge none m.records) :
    ∃ result m', Alone m call result m' ∧ m'.registry.locks = [] ∧
      (Stage.ended result).Keeps (Peers.nobody drawn) pledge m' := by
  obtain ⟨stamps, result, m', hturns, hended⟩ :=
    Stage.Solitary.ends houtside hdrawn (Machine.solitary hlocks h)
  exact ⟨result, m', ⟨stamps, hturns⟩, hended.locks_eq_nil, hended.keeps⟩

theorem Alone.solitary (houtside : ∀ {a t r}, ¬ pledge.ends a (some t) r)
    (hlocks : m.registry.locks = []) {result : Except Error Answer}
    (halone : Alone m call result m')
    (h : call.program.Keeps (Peers.nobody fun _ => True) pledge none m.records) :
    Stage.Solitary 0 (fun _ => True) pledge (.ended result) m' := by
  obtain ⟨stamps, hturns⟩ := halone
  have hdrawn : ∀ stamp ∈ stamps, (fun _ : Stamp => True) stamp := fun _ _ => trivial
  have hsolitary : Stage.Solitary 0 _ pledge (.active call.program none) m :=
    Machine.solitary hlocks h
  have hend := hsolitary.turns houtside hdrawn
  rw [hturns] at hend
  exact hend

/-- The result of a call that was alone is as it has pledged. -/
theorem Alone.keeps (houtside : ∀ {a t r}, ¬ pledge.ends a (some t) r)
    (hlocks : m.registry.locks = []) {result : Except Error Answer}
    (halone : Alone m call result m')
    (h : call.program.Keeps (Peers.nobody fun _ => True) pledge none m.records) :
    (Stage.ended result).Keeps (Peers.nobody fun _ => True) pledge m' :=
  (halone.solitary houtside hlocks h).keeps

/-- To end with a result and with records as a property says. -/
def Pledge.outcome (P : Except Error Answer → Records → Prop) : Pledge Answer where
  commits _ _ _ := True
  clashes _ _ := True
  fails cause r := P (.error cause) r
  ends a t? r := t? = none ∧ P (.ok a) r

variable {P : Except Error Answer → Records → Prop}

theorem outcome_outside {a : Answer} {t : Transaction} {r : Records} :
    ¬ (Pledge.outcome P).ends a (some t) r :=
  fun h => nomatch h.1

theorem Stage.Keeps.outcome {result : Except Error Answer}
    (h : (Stage.ended result).Keeps (Peers.nobody drawn) (Pledge.outcome P) m) :
    P result m.records := by
  cases result with
  | ok a => exact h.2
  | error cause => exact h

theorem Alone.outcome (hlocks : m.registry.locks = []) {result : Except Error Answer}
    (halone : Alone m call result m')
    (h : call.program.Keeps (Peers.nobody fun _ => True) (Pledge.outcome P) none m.records) :
    P result m'.records :=
  (Alone.keeps outcome_outside hlocks halone h).outcome

theorem Alone.exists_outcome (hlocks : m.registry.locks = [])
    (h : call.program.Keeps (Peers.nobody fun _ => True) (Pledge.outcome P) none m.records) :
    ∃ result m', Alone m call result m' ∧ P result m'.records := by
  obtain ⟨result, m', halone, -, hended⟩ :=
    @Alone.exists m call _ _ outcome_outside ⟨⟨0, horizon_pos⟩, ""⟩ trivial hlocks h
  exact ⟨result, m', halone, hended.outcome⟩

/-- Whether or not keys are in use, a call that was alone and has come to an end has ended as it
has pledged. -/
theorem Alone.fulfils {result : Except Error Answer} (halone : Alone m call result m')
    (h : call.program.Keeps (Peers.nobody fun _ => True) (Pledge.outcome P) none m.records) :
    P result m'.records := by
  obtain ⟨stamps, hturns⟩ := halone
  have hstart : (Stage.active call.program none).Keeps (Peers.nobody fun _ => True)
      (Pledge.outcome P) m := h
  have hend := hstart.turns outcome_outside 0 (fun _ _ => trivial) stamps
  rw [hturns] at hend
  exact hend.outcome

end Results

/-! ## Calls that need no key -/

/-- A program makes no request that needs a key. -/
def Keyless : Program α → Prop
  | .done _ => True
  | .fail _ => True
  | .opening next => Keyless next
  | .ask request next => keyOf? request = none ∧ ∀ reply, Keyless (next reply)
  | .closing next => Keyless next

theorem keyless_bind {β : Type} {p : Program α} {f : α → Program β} (hp : Keyless p)
    (hf : ∀ a, Keyless (f a)) : Keyless (p.bind f) := by
  induction p with
  | done a => exact hf a
  | fail cause => trivial
  | opening next ih => exact ih hp
  | ask request next ih => exact ⟨hp.1, fun reply => ih reply (hp.2 reply)⟩
  | closing next ih => exact ih hp

/-- Where a program stands, it makes no request any more that needs a key. -/
def Stage.Keyless : Stage α → Prop
  | .active p _ => Store.Keyless p
  | .waiting _ _ _ _ => False
  | .ended _ => True

theorem Machine.ask_keyless {request : Request} (h : keyOf? request = none) (m : Machine)
    (stamp : Stamp) (caller handle : Nat) :
    ∃ reply m', m.ask stamp caller handle request = .answered reply m' := by
  rw [ask_eq, h]
  exact ⟨_, _, rfl⟩

theorem Stage.Keyless.step {s : Stage α} (h : s.Keyless) (caller : Nat) (stamp : Stamp)
    (m : Machine) : (s.step caller stamp m).1.Keyless := by
  cases s with
  | ended result => exact h
  | waiting key request next place => exact h.elim
  | active p place? =>
      cases p with
      | done a => trivial
      | fail cause => trivial
      | opening next => exact h
      | ask request next =>
          cases place? with
          | none => trivial
          | some place =>
              obtain ⟨reply, m', hask⟩ := Machine.ask_keyless h.1 m stamp caller place.handle
              rw [Stage.step, hask]
              exact h.2 reply
      | closing next =>
          cases place? with
          | none => trivial
          | some place =>
              rw [Stage.step]
              split
              · exact h
              · trivial

/-- A call that needs no key comes to an end on every machine, whatever keys are in use. -/
theorem Alone.exists_keyless {m : Machine} {call : Call} (hkeyless : Keyless call.program)
    {P : Except Error Answer → Records → Prop}
    (h : call.program.Keeps (Peers.nobody fun _ => True) (Pledge.outcome P) none m.records) :
    ∃ result m', Alone m call result m' ∧ P result m'.records := by
  let stamp : Stamp := ⟨⟨0, horizon_pos⟩, ""⟩
  let I (s : Stage Answer) (m : Machine) : Prop :=
    s.Keeps (Peers.nobody fun _ => True) (Pledge.outcome P) m ∧ s.Keyless
  have hask : ∀ {request next place? m}, I (.active (.ask request next) place?) m →
      ∃ place reply m', place? = some place ∧
        m.ask stamp 0 place.handle request = .answered reply m' := by
    intro request next place? m h
    cases place? with
    | none => exact h.1.elim
    | some place =>
        obtain ⟨reply, m', hask⟩ := Machine.ask_keyless h.2.1 m stamp 0 place.handle
        exact ⟨place, reply, m', rfl, hask⟩
  have hclosing : ∀ {next place? m}, I (.active (.closing next) place?) m →
      ∃ place, place? = some place := by
    intro next place? m h
    cases place? with
    | none => exact h.1.elim
    | some place => exact ⟨place, rfl⟩
  have hstart : I (.active call.program none) m := ⟨h, hkeyless⟩
  obtain ⟨stamps, result, m', hturns, hended, -⟩ := Stage.exists_turns 0 stamp
    (fun h => ⟨h.1.step outcome_outside 0 trivial, h.2.step 0 stamp _⟩) hask hclosing hstart
  exact ⟨result, m', ⟨stamps, hturns⟩, hended.outcome⟩

end Bookable.Store
