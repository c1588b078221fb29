import Bookable.Proofs.Hall.Serial
import Bookable.Proofs.Hall.Updates
import Mathlib.Data.List.Induction
import Mathlib.Logic.Function.Basic

/-!
# A booking is cancelled once

Who cancels a booking looks its status up twice, once before it has the key of the
booking and once under the key. What becomes of it is decided by these two moments:
who finds the booking cancelled at first is told so, and who finds it confirmed goes on
and either cancels it or, if somebody else has been faster, is told that there is none.

The status itself changes once. Nobody but the holder of its key cancels a booking, and
no booking is stored in the place of another one, because identifiers are drawn once. So
the callers who have cancelled a booking are a list that is empty as long as the booking
is confirmed and has one entry afterwards, and a first look that finds it cancelled is a
look after the commit of the one who is in that list. Other calls may do what they like
in the meantime.
-/

namespace Bookable

open Store Time

/-! ## The status of a booking -/

/-- A transaction neither stores a booking under an identifier nor cancels the one that has it. -/
def Store.Transaction.Spares (id : String) (t : Transaction) : Prop :=
  (∀ b ∈ t.newBookings, b.id ≠ id) ∧ id ∉ t.cancelled

theorem Store.Transaction.statusOf_publish {t : Transaction} {id : String}
    (hnew : ∀ b ∈ t.newBookings, b.id ≠ id) (r : Records) :
    (t.publish r).statusOf id =
      if id ∈ t.cancelled then (r.statusOf id).map fun _ => .cancelled else r.statusOf id := by
  have hadded : (t.newBookings.foldl (fun bookings b => put Booking.id b bookings)
      r.bookings).find? (·.id == id) = r.bookings.find? (·.id == id) := by
    generalize r.bookings = bookings
    generalize t.newBookings = news at hnew
    induction news generalizing bookings with
    | nil => rfl
    | cons new news ih =>
        rw [List.foldl_cons, ih _ (fun b hb => hnew b (List.mem_cons_of_mem new hb)), find?_put,
          if_neg (hnew new List.mem_cons_self)]
  have hid : (fun b : Booking => b.id == id) ∘ t.seenBooking = (·.id == id) :=
    funext fun b => congrArg (· == id) (t.seenBooking_id b)
  unfold Records.statusOf
  rw [publish_bookings, List.find?_map, hid, hadded]
  cases hfound : r.bookings.find? (·.id == id) with
  | none => split <;> rfl
  | some b =>
      have hb : b.id = id := eq_of_beq (List.find?_some hfound :)
      show some (t.seenBooking b).status = _
      rw [Transaction.seenBooking, hb]
      split <;> rfl

/-- What may become of the status of a booking: nothing, or somebody cancels the booking, who is
not the one that relies on this if it holds the key. -/
def Onward (id : String) (t : Transaction) (r r' : Records) : Prop :=
  r'.statusOf id = r.statusOf id ∨
    r.statusOf id = some .confirmed ∧ r'.statusOf id = some .cancelled ∧ Key.booking id ∉ t.held

namespace Onward

variable {id : String} {t : Transaction} {r r' r'' : Records}

theorem trans (h : Onward id t r r') (h' : Onward id t r' r'') : Onward id t r r'' := by
  rcases h with h | ⟨hconfirmed, hcancelled, hheld⟩
  · rw [Onward, h] at h'
    exact h'
  · rcases h' with h' | ⟨hconfirmed', -, -⟩
    · exact Or.inr ⟨hconfirmed, h'.trans hcancelled, hheld⟩
    · rw [hcancelled] at hconfirmed'
      cases hconfirmed'

theorem known (h : Onward id t r r') (hr : r.statusOf id ≠ none) : r'.statusOf id ≠ none := by
  rcases h with h | ⟨-, hcancelled, -⟩
  · rw [h]
    exact hr
  · rw [hcancelled]
    exact nofun

theorem cancelled (h : Onward id t r r') (hr : r.statusOf id = some .cancelled) :
    r'.statusOf id = some .cancelled := by
  rcases h with h | ⟨-, hcancelled, -⟩
  · rw [h, hr]
  · exact hcancelled

theorem confirmed (h : Onward id t r r') (hheld : Key.booking id ∈ t.held)
    (hr : r.statusOf id = some .confirmed) : r'.statusOf id = some .confirmed := by
  rcases h with h | ⟨-, -, hnot⟩
  · rw [h, hr]
  · exact absurd hheld hnot

end Onward

def Store.Peers.cancellers (id : String) : Peers where
  may := Onward id
  stamps r stamp := ∀ b ∈ r.bookings, b.id ≠ stamp.id
  refl _ _ := Or.inl rfl
  trans := Onward.trans

/-- To cancel a booking that is confirmed at the moment of the commit, and to fail only if it is
cancelled by then. Calls that are not to cancel this booking leave it as it is. -/
def Store.Pledge.canceller (id : String) (call : Call) : Pledge Answer where
  commits t _ r := (call = .cancelBooking id → t = cancelling id [id] ∧
      r.statusOf id = some .confirmed) ∧
    (call ≠ .cancelBooking id → t.Spares id)
  clashes _ _ := call ≠ .cancelBooking id
  fails _ r := call = .cancelBooking id → r.statusOf id = some .cancelled
  ends _ t? _ := t? = none

theorem Store.Transaction.Spares.onward {id : String} {t : Transaction} (h : t.Spares id)
    (u : Transaction) (r : Records) : Onward id u r (t.publish r) := by
  refine Or.inl ?_
  rw [t.statusOf_publish h.1, if_neg h.2]

theorem statusOf_cancelling {id : String} {r : Records} (hr : r.statusOf id = some .confirmed) :
    ((cancelling id [id]).publish r).statusOf id = some .cancelled := by
  have hmem : id ∈ (cancelling id [id]).cancelled := List.mem_singleton_self id
  rw [Transaction.statusOf_publish fun _ hb => absurd hb List.not_mem_nil, if_pos hmem, hr]
  rfl

theorem pact_cancellers (id : String) :
    Hall.Pact (Peers.cancellers id) (Pledge.canceller id) where
  sound call := by
    refine ⟨fun h => (nomatch h), fun h _ => h, fun h hmay heq => hmay.cancelled (h heq), ?_⟩
    intro t next r hcommits _ u hapart
    by_cases hcall : call = .cancelBooking id
    · obtain ⟨rfl, hconfirmed⟩ := hcommits.1 hcall
      refine Or.inr ⟨hconfirmed, statusOf_cancelling hconfirmed, fun hkey => ?_⟩
      exact hapart.1 _ hkey (List.mem_singleton_self _)
    · exact (hcommits.2 hcall).onward u r
  stamps hnew := (Hall.notInUse hnew).1

/-! ## Calls that spare a booking -/

/-- A request that neither books nor cancels a given booking. -/
def Request.Spares (id : String) : Request → Prop
  | .insertBooking _ => False
  | .cancelBooking other => other ≠ id
  | _ => True

theorem spares_upheld (id : String) :
    Upheld (Request.Spares id) (fun _ => True) (Transaction.Spares id) where
  opened := ⟨fun _ hb => absurd hb List.not_mem_nil, List.not_mem_nil⟩
  touched _ _ h := h
  performed {t r request} stamp hreq _ ht := by
    have hanswers := t.perform_answers r stamp request
    generalize (t.perform r stamp request).2 = t' at hanswers ⊢
    cases hanswers with
    | insertBooking request => exact hreq.elim
    | cancelBooking _ =>
        refine ⟨ht.1, fun hmem => ?_⟩
        rcases List.mem_append.mp hmem with hmem | hmem
        · exact ht.2 hmem
        · exact hreq (List.mem_singleton.mp hmem).symm
    | updateRule _ _ =>
        rw [Transaction.update]
        split <;> exact ht
    | _ => exact ht

variable {id : String}

/-- A new booking takes the place of none that is on record. -/
theorem keeps_createBooking_spares (request : BookingRequest) {r : Records}
    (hknown : r.statusOf id ≠ none) :
    (Service.createBooking request).Keeps (Peers.cancellers id)
      (Pledge.writing (Transaction.Spares id)) none r := by
  refine keeps_createBooking (fun _ _ _ => trivial) (fun _ _ _ => trivial)
    (fun _ _ _ _ _ _ => trivial) fun _ _ r₁ r₂ r₃ hmay₁ _ hmay₂ hmay₃ => ?_
  split
  · exact fun _ _ => trivial
  · intro stamp r₄ r₅ hmay₄ hstamp _
    split
    · exact ⟨trivial, trivial⟩
    · refine ⟨⟨fun b hb heq => ?_, List.not_mem_nil⟩, rfl⟩
      cases List.mem_singleton.mp hb
      have hstill := hmay₄.known (hmay₃.known (hmay₂.known (hmay₁.known hknown)))
      rw [Records.statusOf, ne_eq, Option.map_eq_none_iff, List.find?_eq_none] at hstill
      refine hstill fun old hold hid => hstamp old hold ?_
      exact (eq_of_beq hid).trans heq.symm

theorem keeps_sparing {call : Call} (hcall : call ≠ .cancelBooking id) {r : Records}
    (hknown : r.statusOf id ≠ none) :
    call.program.Keeps (Peers.cancellers id) (Pledge.writing (Transaction.Spares id)) none r := by
  refine keeps_call_reading (spares_upheld id) (fun request hplain hkey => ?_)
    (fun user drafts _ => ?_) (fun user rule changes _ => ?_) (fun request _ => ?_)
    fun other heq => ?_
  · cases request with
    | insertBooking request => exact hplain
    | cancelBooking other => cases hkey
    | _ => trivial
  · exact keeps_setAvailability_of (spares_upheld id) (fun _ _ _ _ => trivial) (fun _ => trivial) r
  · obtain ⟨p, heq, hp⟩ : ∃ p, Service.updateAvailability user rule changes =
        Program.transaction p ∧ p.Asks (Request.Spares id) :=
      asks_updateAvailability trivial fun _ _ => trivial
    rw [heq]
    exact Program.keeps_transaction (spares_upheld id) hp r
  · exact keeps_createBooking_spares request hknown
  · have hother : other ≠ id := by
      rintro rfl
      exact hcall heq
    obtain ⟨p, heq, hp⟩ : ∃ p, Service.cancelBooking other = Program.transaction p ∧
        p.Asks (Request.Spares id) := asks_cancelBooking trivial hother
    rw [heq]
    exact Program.keeps_transaction (spares_upheld id) hp r

theorem keeps_cancelBooking_canceller {r : Records} (hknown : r.statusOf id ≠ none) :
    (Call.cancelBooking id).program.Keeps (Peers.cancellers id)
      (Pledge.canceller id (.cancelBooking id)) none r := by
  show ((Service.cancelBooking id).bind _).Keeps _ _ _ _
  rw [Program.keeps_bind]
  refine keeps_cancelBooking (fun r₁ hmay hnone => ?_) (fun r₁ _ hstatus r' hmay' _ => ?_)
    fun r₁ r₂ hmay hconfirmed hmay' => ?_
  · exact absurd hnone (hmay.known hknown)
  · exact hmay'.cancelled hstatus
  · split
    · next hstill =>
        intro r₃ hmay₃
        have hkey : Key.booking id ∈ (cancelling id [id]).held := List.mem_singleton_self _
        exact ⟨⟨fun _ => ⟨rfl, hmay₃.confirmed hkey hstill⟩, fun hne => absurd rfl hne⟩, rfl⟩
    · next hlost =>
        -- The booking is there, and it is not confirmed any more.
        intro r' hmay'' _
        refine hmay''.cancelled ?_
        rcases hmay' with hsame | ⟨-, hcancelled, -⟩
        · exact absurd (hsame.trans hconfirmed) hlost
        · exact hcancelled

theorem keeps_canceller (call : Call) {r : Records} (hknown : r.statusOf id ≠ none) :
    call.program.Keeps (Peers.cancellers id) (Pledge.canceller id call) none r := by
  by_cases hcall : call = .cancelBooking id
  · rw [hcall]
    exact keeps_cancelBooking_canceller hknown
  · refine Program.Keeps.weaken ?_ ?_ ?_ ?_ (keeps_sparing hcall hknown)
    · exact fun hspares => ⟨fun heq => absurd heq hcall, fun _ => hspares⟩
    · exact fun _ => hcall
    · exact fun _ heq => absurd heq hcall
    · exact fun hends => hends

/-! ## Where a cancellation stands -/

/-- What is left of a cancellation when the booking was marked, or when it was not. -/
def counted (count : Nat) : Program Unit :=
  if count = 0 then .fail .bookingNotFound else .done ()

/-- What is left of a cancellation when the status of the booking was looked up. -/
def looked (id : String) : Option Status → Program Unit
  | none => .fail .bookingNotFound
  | some .cancelled => .fail .alreadyCancelled
  | some .confirmed => .ask (.cancelBooking id) counted

/-- A program in a transaction of its own, up to the answer of the call. -/
def finishing (p : Program Unit) : Program Answer :=
  (p.bind fun result => .closing (.done result)).bind fun () => .done .nothing

theorem cancel_program (id : String) :
    (Call.cancelBooking id).program = .opening (finishing (.ask (.statusOf id) (looked id))) := by
  show (Service.cancelBooking id).bind _ = _
  rw [cancelBooking_eq]
  refine congrArg (fun next => Program.opening (finishing (.ask (.statusOf id) next)))
    (funext fun status => ?_)
  rcases status with _ | _ | _ <;> rfl

/-- A cancellation with the status that it has found at first, if it has looked, and whether it has
committed. -/
inductive Seeking (id : String) (m : Machine) : Option Status → Bool → Stage Answer → Prop where
  | fresh : Seeking id m none false
      (.active (.opening (finishing (.ask (.statusOf id) (looked id)))) none)
  | opened {place : Place} (blank : m.transaction place.handle = {}) :
      Seeking id m none false
        (.active (finishing (.ask (.statusOf id) (looked id))) (some place))
  | found {place : Place} : Seeking id m (some .confirmed) false
      (.active (finishing (.ask (.cancelBooking id) counted)) (some place))
  | waits {key : Key} {place : Place} : Seeking id m (some .confirmed) false
      (.waiting key (.cancelBooking id) (fun count => finishing (counted count)) place)
  | marked {place : Place} : Seeking id m (some .confirmed) false
      (.active (finishing (.done ())) (some place))
  | missed {place? : Option Place} : Seeking id m (some .confirmed) false
      (.active (.fail .bookingNotFound) place?)
  | lost : Seeking id m (some .confirmed) false (.ended (.error .bookingNotFound))
  | cancelled : Seeking id m (some .confirmed) true (.active (.done .nothing) none)
  | won : Seeking id m (some .confirmed) true (.ended (.ok .nothing))
  | late {place? : Option Place} : Seeking id m (some .cancelled) false
      (.active (.fail .alreadyCancelled) place?)
  | refused : Seeking id m (some .cancelled) false (.ended (.error .alreadyCancelled))

/-- Whether a cancellation has looked up the status of its booking. -/
def Store.Stage.hasRead : Stage Answer → Bool
  | .active (.opening _) _ => false
  | .active (.ask (.statusOf _) _) _ => false
  | _ => true

namespace Seeking

variable {m m' : Machine} {seen? : Option Status} {done : Bool} {s : Stage Answer}

theorem hasRead (h : Seeking id m seen? done s) : s.hasRead = seen?.isSome := by
  cases h <;> rfl

theorem commits_unseen (h : Seeking id m none done s) : s.commits m = false := by
  cases h <;> rfl

/-- The turns of others leave a cancellation where it stands. -/
theorem frame (h : Seeking id m seen? done s)
    (heq : ∀ place, s.place? = some place →
      m'.transaction place.handle = m.transaction place.handle) :
    Seeking id m' seen? done s := by
  cases h with
  | fresh => exact .fresh
  | opened blank => exact .opened ((heq _ rfl).trans blank)
  | found => exact .found
  | waits => exact .waits
  | marked => exact .marked
  | missed => exact .missed
  | lost => exact .lost
  | cancelled => exact .cancelled
  | won => exact .won
  | late => exact .late
  | refused => exact .refused

theorem ended_ok {answer : Answer} (h : Seeking id m seen? done (.ended (.ok answer))) :
    done = true := by
  cases h
  rfl

theorem ended_of_done (h : Seeking id m seen? true s) (hended : s.isEnded = true) :
    s = .ended (.ok .nothing) := by
  cases h with
  | cancelled => cases hended
  | won => rfl

/-- What a cancellation that has not committed is told depends on what it has found at first. -/
theorem ended_of_not_done (h : Seeking id m seen? false s) (hended : s.isEnded = true) :
    seen? = some .confirmed ∧ s = .ended (.error .bookingNotFound) ∨
      seen? = some .cancelled ∧ s = .ended (.error .alreadyCancelled) := by
  cases h with
  | lost => exact Or.inl ⟨rfl, rfl⟩
  | refused => exact Or.inr ⟨rfl, rfl⟩
  | _ => cases hended

theorem after_count (count : Nat) (place : Place) :
    Seeking id m (some .confirmed) false
      (.active (finishing (counted count)) (some place)) := by
  rw [counted]
  split
  · exact .missed
  · exact .marked

/-- A turn of a cancellation: it may look up the status on record. -/
theorem turn {peers : Peers} (h : Seeking id m seen? done s)
    (hkeeps : s.Keeps peers (Pledge.canceller id (.cancelBooking id)) m)
    (hknown : m.records.statusOf id ≠ none) (caller : Nat) (stamp : Stamp) :
    ∃ seen?', Seeking id (s.step caller stamp m).2 seen?' (done || s.commits m)
        (s.step caller stamp m).1 ∧
      (seen?' = seen? ∨ seen? = none ∧ seen?' = m.records.statusOf id) := by
  cases h with
  | fresh =>
      refine ⟨none, .opened ?_, Or.inl rfl⟩
      show m.begin.2.transaction m.transactions.length = {}
      rw [Machine.transaction_begin, if_pos rfl]
  | @opened place blank =>
      have hkey : keyOf? (.statusOf id) = none := rfl
      obtain ⟨m', hask, -, -⟩ := Machine.ask_blank stamp caller hkey blank
      have hview : ({} : Transaction).view m.records = m.records := Transaction.view_blank [] _
      simp only [Transaction.perform, hview] at hask
      refine ⟨m.records.statusOf id, ?_, Or.inr ⟨rfl, rfl⟩⟩
      simp only [finishing, Program.bind, Stage.step, hask]
      cases hstatus : m.records.statusOf id with
      | none => exact absurd hstatus hknown
      | some status =>
          cases status with
          | confirmed => exact .found
          | cancelled => exact .late
  | @found place =>
      refine ⟨some .confirmed, ?_, Or.inl rfl⟩
      simp only [finishing, Program.bind, Stage.step]
      split
      · exact after_count _ place
      · next hask =>
          obtain ⟨-, -, -, rfl⟩ := Machine.ask_queued hask
          exact .waits
  | @waits key place =>
      refine ⟨some .confirmed, ?_, Or.inl rfl⟩
      rw [Stage.step]
      split
      · exact after_count _ place
      · exact .waits
  | @marked place =>
      have hlive := hkeeps.1.2
      have hclear : (m.transaction place.handle).conflicts m.records = false := by
        have hclose := hkeeps.2 m.records (peers.refl _ _)
        by_contra hconflict
        rw [Bool.not_eq_false] at hconflict
        rw [if_pos hconflict] at hclose
        exact hclose.1 rfl
      have hcommits : Stage.commits (.active (finishing (.done ())) (some place)) m = true :=
        Machine.publishes_iff.mpr ⟨hlive, hclear⟩
      have hstage : (Stage.step caller stamp (.active (finishing (.done ())) (some place)) m).1 =
          .active (.done .nothing) none := by
        refine (Stage.stage_closing caller stamp _ hlive).trans ?_
        rw [hclear]
        rfl
      rw [hstage, hcommits]
      exact ⟨some .confirmed, .cancelled, Or.inl rfl⟩
  | missed => exact ⟨_, .lost, Or.inl rfl⟩
  | lost => exact ⟨_, .lost, Or.inl rfl⟩
  | cancelled => exact ⟨_, .won, Or.inl rfl⟩
  | won => exact ⟨_, .won, Or.inl rfl⟩
  | late => exact ⟨_, .refused, Or.inl rfl⟩
  | refused => exact ⟨_, .refused, Or.inl rfl⟩

end Seeking

/-! ## Cancellations in a hall -/

/-- Whether a call is to cancel a booking. -/
def Store.Call.cancels (id : String) : Call → Bool
  | .cancelBooking other => other == id
  | _ => false

theorem Store.Call.cancels_iff {call : Call} :
    call.cancels id = true ↔ call = .cancelBooking id := by
  cases call with
  | cancelBooking other =>
      rw [cancels, beq_iff_eq]
      exact ⟨congrArg Call.cancelBooking, fun heq => Call.cancelBooking.inj heq⟩
  | _ => exact ⟨fun h => (nomatch h), fun h => (nomatch h)⟩

namespace Store.Hall

/-- The callers who have cancelled a booking. -/
def cancelledBy (id : String) (h : Hall) : List Nat :=
  h.commits.filter fun caller => (h.visits.map Visit.call)[caller]?.any (·.cancels id)

variable {h h' : Hall}

theorem mem_cancelledBy {caller : Nat} : caller ∈ h.cancelledBy id ↔
    caller ∈ h.commits ∧ ∃ v, h.visits[caller]? = some v ∧ v.call = .cancelBooking id := by
  rw [cancelledBy, List.mem_filter, List.getElem?_map]
  refine and_congr_right fun _ => ?_
  cases h.visits[caller]? with
  | none => exact ⟨fun h => (nomatch h), fun ⟨_, h, _⟩ => nomatch h⟩
  | some v =>
      show v.call.cancels id = true ↔ _
      rw [Call.cancels_iff]
      exact ⟨fun heq => ⟨v, rfl, heq⟩, fun ⟨w, hw, heq⟩ => Option.some.inj hw ▸ heq⟩

/-- The calls of those who have come in already are those of the rest of the run. -/
theorem mem_cancelledBy_old {caller : Nat} (hold : caller < h.visits.length)
    (hcommits : caller ∈ h.commits) (events : List Event) :
    caller ∈ (h.run events).cancelledBy id ↔ caller ∈ h.cancelledBy id := by
  rw [← List.length_map (f := Visit.call)] at hold
  rw [cancelledBy, cancelledBy, List.mem_filter, List.mem_filter, calls_run,
    List.getElem?_append_left hold]
  exact and_congr_left fun _ => iff_of_true (mem_commits_run hcommits events) hcommits

/-- Who has cancelled a booking has done so for good. -/
theorem mem_cancelledBy_run {caller : Nat} (hmem : caller ∈ h.cancelledBy id)
    (events : List Event) : caller ∈ (h.run events).cancelledBy id := by
  obtain ⟨hcommits, v, hv, -⟩ := mem_cancelledBy.mp hmem
  have hold : caller < h.visits.length := (List.getElem?_eq_some_iff.mp hv).1
  exact (mem_cancelledBy_old hold hcommits events).mpr hmem

theorem cancelledBy_call {call : Call} (hold : ∀ caller ∈ h.commits, caller < h.visits.length) :
    (h.take (.call call)).cancelledBy id = h.cancelledBy id := by
  refine List.filter_congr fun caller hcaller => ?_
  rw [calls_take, List.getElem?_append_left]
  rw [List.length_map]
  exact hold caller hcaller

/-- A commit is listed if it is that of a call to cancel the booking. -/
theorem cancelledBy_commit (hcalls : h'.visits.map Visit.call = h.visits.map Visit.call)
    {caller : Nat} {v : Visit} (hv : h.visits[caller]? = some v)
    (hcommits : h'.commits = h.commits ++ [caller]) :
    h'.cancelledBy id = h.cancelledBy id ++ if v.call.cancels id then [caller] else [] := by
  rw [cancelledBy, hcalls, hcommits, List.filter_append, List.filter_cons, List.getElem?_map, hv]
  rfl

/-- Where the cancellations of a booking stand. The booking is confirmed and nobody has cancelled
it, or it is cancelled and one caller has done that. -/
structure Sought (id : String) (r : Records) (seen : Nat → Option Status) (h : Hall) : Prop where
  fair : h.Fair (Peers.cancellers id) (Pledge.canceller id) r
  ledger : h.machine.records.statusOf id = some .confirmed ∧ h.cancelledBy id = [] ∨
    h.machine.records.statusOf id = some .cancelled ∧ ∃ winner, h.cancelledBy id = [winner]
  absent : ∀ {caller : Nat}, h.visits.length ≤ caller → seen caller = none ∧ caller ∉ h.commits
  stands : ∀ {caller : Nat} {v : Visit}, h.visits[caller]? = some v →
    v.call = .cancelBooking id →
    Seeking id h.machine (seen caller) (decide (caller ∈ h.commits)) v.stage

variable {r : Records} {seen : Nat → Option Status}

theorem Sought.nobody (hs : h.Sought id r seen)
    (hconfirmed : h.machine.records.statusOf id = some .confirmed) : h.cancelledBy id = [] := by
  rcases hs.ledger with ⟨-, hnobody⟩ | ⟨hcancelled, -⟩
  · exact hnobody
  · rw [hcancelled] at hconfirmed
    cases hconfirmed

theorem Sought.exists_only (hs : h.Sought id r seen)
    (hcancelled : h.machine.records.statusOf id = some .cancelled) :
    ∃ winner, h.cancelledBy id = [winner] := by
  rcases hs.ledger with ⟨hconfirmed, -⟩ | ⟨-, honly⟩
  · rw [hcancelled] at hconfirmed
    cases hconfirmed
  · exact honly

theorem Sought.known (hs : h.Sought id r seen) : h.machine.records.statusOf id ≠ none := by
  rcases hs.ledger with ⟨hstatus, -⟩ | ⟨hstatus, -⟩
  · rw [hstatus]
    exact nofun
  · rw [hstatus]
    exact nofun

theorem Sought.call (hs : h.Sought id r seen) (call : Call) :
    (h.take (.call call)).Sought id r seen := by
  refine ⟨hs.fair.call (keeps_canceller call hs.known), ?_, ?_, ?_⟩
  · rw [cancelledBy_call fun caller hcaller => Nat.lt_of_not_le fun hle =>
      (hs.absent hle).2 hcaller]
    exact hs.ledger
  · intro caller hle
    rw [take, List.length_append] at hle
    exact hs.absent (Nat.le_trans (Nat.le_add_right _ _) hle)
  · intro caller v hv hcall
    rcases visits_call hv with hv | ⟨rfl, rfl⟩
    · exact hs.stands hv hcall
    · obtain ⟨hnone, hout⟩ := hs.absent (Nat.le_refl _)
      change call = .cancelBooking id at hcall
      rw [hnone, hcall, cancel_program]
      show Seeking id _ none (decide (h.visits.length ∈ h.commits)) _
      rw [decide_eq_false hout]
      exact .fresh

theorem Sought.reorder (hs : h.Sought id r seen) (key : Key) (queue : List Ticket) :
    (h.take (.reorder key queue)).Sought id r seen := by
  refine ⟨hs.fair.reorder (pact_cancellers id) key queue, ?_, hs.absent, fun hv hcall => ?_⟩
  · show (h.machine.reorder key queue).records.statusOf id = some .confirmed ∧ _ ∨
      (h.machine.reorder key queue).records.statusOf id = some .cancelled ∧ _
    rw [Machine.records_reorder]
    exact hs.ledger
  · exact (hs.stands hv hcall).frame fun place _ => Machine.transaction_reorder _ _ _ _

/-- The one who cancels a booking finds it confirmed, and leaves it cancelled. Every other turn
leaves it as it is. -/
theorem Sought.ledger_turn (hs : h.Sought id r seen) {stamp : Stamp} {caller : Nat} {v : Visit}
    (hv : h.visits[caller]? = some v)
    (hcalls : h'.visits.map Visit.call = h.visits.map Visit.call)
    (hrecords : h'.machine.records = (v.stage.step caller stamp h.machine).2.records)
    (hcommits : h'.commits =
      if v.stage.commits h.machine then h.commits ++ [caller] else h.commits) :
    h'.machine.records.statusOf id = some .confirmed ∧ h'.cancelledBy id = [] ∨
      h'.machine.records.statusOf id = some .cancelled ∧
        ∃ winner, h'.cancelledBy id = [winner] := by
  rcases v.stage.records_step h.machine caller stamp with
    ⟨hquiet, hsame⟩ | ⟨next, place, hstage, hpublishes, -, hpublished⟩
  · rw [hquiet, if_neg Bool.false_ne_true] at hcommits
    rw [hrecords, hsame, cancelledBy, hcalls, hcommits]
    exact hs.ledger
  · rw [hpublishes, if_pos rfl] at hcommits
    rw [hrecords, hpublished, cancelledBy_commit hcalls hv hcommits]
    have hkeeps := hs.fair.keeps hv
    rw [hstage] at hkeeps hpublishes
    obtain ⟨-, hmine, hothers⟩ := hkeeps.commits hpublishes
    by_cases hcall : v.call = .cancelBooking id
    · obtain ⟨ht, hconfirmed⟩ := hmine hcall
      rw [if_pos (Call.cancels_iff.mpr hcall), ht]
      rw [hs.nobody hconfirmed]
      exact Or.inr ⟨statusOf_cancelling hconfirmed, caller, rfl⟩
    · obtain ⟨hnew, hnot⟩ := hothers hcall
      rw [if_neg (fun h => hcall (Call.cancels_iff.mp h)), List.append_nil,
        Transaction.statusOf_publish hnew, if_neg hnot]
      exact hs.ledger

/-- What a caller has found after an event: what it had found before, or the status on record, if
that is what it has looked up now. -/
def Looks (id : String) (h h' : Hall) (seen? seen?' : Option Status) : Prop :=
  seen?' = seen? ∨ seen? = none ∧ seen?' = h.machine.records.statusOf id ∧
    h'.machine.records = h.machine.records

/-- A turn may be one at which a cancellation looks up the status on record. -/
theorem Sought.turn (hs : h.Sought id r seen) (stamp : Stamp) (caller : Nat) :
    ∃ seen', (h.take (.turn stamp caller)).Sought id r seen' ∧
      ∀ other, Looks id h (h.take (.turn stamp caller)) (seen other) (seen' other) := by
  have hfair := hs.fair.turn (pact_cancellers id) stamp caller
  have hcalls := (h.calls_take (.turn stamp caller)).trans (List.append_nil _)
  rcases h.take_turn_cases stamp caller with htake | ⟨v, hv, -, htake⟩
  · rw [htake]
    exact ⟨seen, hs, fun _ => Or.inl rfl⟩
  · have hlt : caller < h.visits.length := (List.getElem?_eq_some_iff.mp hv).1
    rw [htake] at hfair hcalls ⊢
    obtain ⟨seen?, hown, hlooks⟩ : ∃ seen?, (v.call = .cancelBooking id →
        Seeking id (v.stage.step caller stamp h.machine).2 seen?
          (decide (caller ∈ h.commits) || v.stage.commits h.machine)
          (v.stage.step caller stamp h.machine).1) ∧
        (seen? = seen caller ∨ seen caller = none ∧ seen? = h.machine.records.statusOf id ∧
          v.stage.commits h.machine = false) := by
      by_cases hcall : v.call = .cancelBooking id
      · have hstands := hs.stands hv hcall
        have hkeeps := hs.fair.keeps hv
        rw [hcall] at hkeeps
        obtain ⟨seen?, hturn, hlooks⟩ := hstands.turn hkeeps hs.known caller stamp
        refine ⟨seen?, fun _ => hturn, hlooks.imp_right fun ⟨hnone, hseen⟩ => ?_⟩
        rw [hnone] at hstands
        exact ⟨hnone, hseen, hstands.commits_unseen⟩
      · exact ⟨seen caller, fun heq => absurd heq hcall, Or.inl rfl⟩
    have hlisted : ∀ other, decide (other ∈ if v.stage.commits h.machine then h.commits ++ [caller]
        else h.commits) =
        (decide (other ∈ h.commits) || decide (other = caller) && v.stage.commits h.machine) := by
      intro other
      cases v.stage.commits h.machine <;> simp
    refine ⟨Function.update seen caller seen?, ⟨hfair, ?_, ?_, ?_⟩, ?_⟩
    · exact hs.ledger_turn hv hcalls rfl rfl
    · intro other hle
      rw [List.length_set] at hle
      obtain ⟨hnone, hout⟩ := hs.absent hle
      have hne : other ≠ caller := by omega
      rw [Function.update_of_ne hne, ← decide_eq_false_iff_not, hlisted, decide_eq_false hout,
        decide_eq_false hne]
      exact ⟨hnone, rfl⟩
    · intro other w hw hcall
      rcases visits_turn hw with ⟨rfl, rfl⟩ | ⟨hne, hw⟩
      · rw [Function.update_self, hlisted, decide_eq_true rfl, Bool.true_and]
        exact hown hcall
      · rw [Function.update_of_ne hne, hlisted, decide_eq_false hne, Bool.false_and, Bool.or_false]
        exact (hs.stands hw hcall).frame fun _ hplace =>
          hs.fair.transaction_others hv hw hne stamp hplace
    · intro other
      by_cases heq : other = caller
      · rw [heq, Function.update_self]
        refine hlooks.imp_right fun ⟨hnone, hseen, hquiet⟩ => ⟨hnone, hseen, ?_⟩
        rcases v.stage.records_step h.machine caller stamp with
          ⟨-, hsame⟩ | ⟨_, _, _, hpublishes, -⟩
        · exact hsame
        · rw [hquiet] at hpublishes
          cases hpublishes
      · rw [Function.update_of_ne heq]
        exact Or.inl rfl

theorem Sought.take (hs : h.Sought id r seen) (event : Event) :
    ∃ seen', (h.take event).Sought id r seen' ∧
      ∀ caller, Looks id h (h.take event) (seen caller) (seen' caller) := by
  cases event with
  | call call => exact ⟨seen, hs.call call, fun _ => Or.inl rfl⟩
  | reorder key queue => exact ⟨seen, hs.reorder key queue, fun _ => Or.inl rfl⟩
  | turn stamp caller => exact hs.turn stamp caller

/-- A booking that is cancelled stays so. -/
theorem Sought.gone {seen' : Nat → Option Status} (hs : h.Sought id r seen)
    (events : List Event) (hs' : (h.run events).Sought id r seen')
    (hstatus : h.machine.records.statusOf id = some .cancelled) :
    (h.run events).machine.records.statusOf id = some .cancelled := by
  obtain ⟨winner, hwinner⟩ := hs.exists_only hstatus
  have hmem : winner ∈ h.cancelledBy id := by
    rw [hwinner]
    exact List.mem_singleton_self _
  rcases hs'.ledger with ⟨-, hnobody⟩ | ⟨hcancelled, -⟩
  · have hstill := mem_cancelledBy_run hmem events
    rw [hnobody] at hstill
    cases hstill
  · exact hcancelled

/-! ## The moment of the first look -/

/-- Whether the call of a caller has looked up a status. -/
def hasRead (h : Hall) (caller : Nat) : Bool := (h.stage? caller).any Stage.hasRead

/-- At some moment of a run one caller has looked up a status and another one has not committed. -/
def ReadsBefore (h : Hall) (events : List Event) (reader winner : Nat) : Prop :=
  ∃ past, past <+: events ∧ (h.run past).hasRead reader = true ∧ winner ∉ (h.run past).commits

/-- What the status that a caller has found at first says about a run. -/
def Recalls (id : String) (h : Hall) (events : List Event) (caller : Nat) :
    Option Status → Prop
  | none => ∀ past, past <+: events → (h.run past).hasRead caller = false
  | some .confirmed => ∃ past, past <+: events ∧ (h.run past).hasRead caller = true ∧
      (h.run past).machine.records.statusOf id = some .confirmed
  | some .cancelled => ∀ past, past <+: events → (h.run past).hasRead caller = true →
      (h.run past).machine.records.statusOf id = some .cancelled

theorem Sought.hasRead (hs : h.Sought id r seen) {caller : Nat}
    (hcall : ∀ v, h.visits[caller]? = some v → v.call = .cancelBooking id) :
    h.hasRead caller = (seen caller).isSome := by
  unfold Hall.hasRead
  cases hv : h.visits[caller]? with
  | none =>
      rw [stage?, hv, (hs.absent (List.getElem?_eq_none_iff.mp hv)).1]
      rfl
  | some v =>
      rw [stage?_eq hv]
      exact (hs.stands hv (hcall v hv)).hasRead

theorem Recalls.take {events : List Event} {event : Event} {caller : Nat}
    {seen? seen?' : Option Status} (hr : Recalls id h events caller seen?)
    (hread : (h.run events).hasRead caller = seen?.isSome)
    (hread' : (h.run (events ++ [event])).hasRead caller = seen?'.isSome)
    (hlooks : Looks id (h.run events) (h.run (events ++ [event])) seen? seen?')
    (hgone : (h.run events).machine.records.statusOf id = some .cancelled →
      (h.run (events ++ [event])).machine.records.statusOf id = some .cancelled) :
    Recalls id h (events ++ [event]) caller seen?' := by
  have hsplit : ∀ past, past <+: events ++ [event] → past = events ++ [event] ∨ past <+: events :=
    fun past => List.prefix_concat_iff.mp
  have hnone : seen? = none → seen?' = none → Recalls id h (events ++ [event]) caller none := by
    rintro rfl rfl past hpast
    rcases hsplit past hpast with rfl | hpast
    · exact hread'
    · exact hr past hpast
  rcases hlooks with rfl | ⟨rfl, hseen, hrecords⟩
  · rcases seen?' with _ | _ | _
    · exact hnone rfl rfl
    · obtain ⟨past, hpast, hlook⟩ := hr
      exact ⟨past, hpast.trans (List.prefix_append _ _), hlook⟩
    · intro past hpast hlook
      rcases hsplit past hpast with rfl | hpast
      · exact hgone (hr events (List.prefix_refl _) hread)
      · exact hr past hpast hlook
  · rcases seen?' with _ | _ | _
    · exact hnone rfl rfl
    · refine ⟨events ++ [event], List.prefix_refl _, hread', ?_⟩
      rw [hrecords]
      exact hseen.symm
    · intro past hpast hlook
      rcases hsplit past hpast with rfl | hpast
      · rw [hrecords]
        exact hseen.symm
      · rw [hr past hpast] at hlook
        cases hlook

/-- Along a run, callers who cancel remember what they have found. -/
theorem Sought.run (hs : h.Sought id r fun _ => none) (hnobody : h.visits = [])
    (events : List Event) :
    ∃ seen, (h.run events).Sought id r seen ∧ ∀ caller,
      (∀ v, (h.run events).visits[caller]? = some v → v.call = .cancelBooking id) →
      Recalls id h events caller (seen caller) := by
  induction events using List.reverseRecOn with
  | nil =>
      refine ⟨_, hs, fun caller _ past hpast => ?_⟩
      rw [List.prefix_nil.mp hpast]
      show (h.stage? caller).any _ = false
      rw [stage?, hnobody]
      rfl
  | append_singleton events event ih =>
      obtain ⟨seen, hnow, hrecalls⟩ := ih
      obtain ⟨seen', hnext, hlooks⟩ := hnow.take event
      have hlast : h.run (events ++ [event]) = (h.run events).take event :=
        h.run_append events [event]
      rw [hlast]
      refine ⟨seen', hnext, fun caller hcall => ?_⟩
      have hcall' : ∀ v, (h.run events).visits[caller]? = some v →
          v.call = .cancelBooking id := by
        intro v hv
        obtain ⟨w, hw, heq⟩ := exists_visit_take hv event
        rw [← heq]
        exact hcall w hw
      refine (hrecalls caller hcall').take (hnow.hasRead hcall') ?_ ?_ ?_
      · rw [hlast]
        exact hnext.hasRead hcall
      · rw [hlast]
        exact hlooks caller
      · rw [hlast]
        exact hnow.gone [event] hnext

/-! ## One winner -/

theorem Sought.eq_of_mem (hs : h.Sought id r seen) {i j : Nat} (hi : i ∈ h.cancelledBy id)
    (hj : j ∈ h.cancelledBy id) : i = j := by
  rcases hs.ledger with ⟨-, hnobody⟩ | ⟨-, winner, hwinner⟩
  · rw [hnobody] at hi
    cases hi
  · rw [hwinner, List.mem_singleton] at hi hj
    rw [hi, hj]

/-- Who has been told that the booking is cancelled by its call has cancelled it. -/
theorem Sought.mem_of_ok (hs : h.Sought id r seen) {caller : Nat} {v : Visit} {answer : Answer}
    (hv : h.visits[caller]? = some v) (hcall : v.call = .cancelBooking id)
    (hstage : v.stage = .ended (.ok answer)) : caller ∈ h.cancelledBy id := by
  have hstands := hs.stands hv hcall
  rw [hstage] at hstands
  exact mem_cancelledBy.mpr ⟨of_decide_eq_true hstands.ended_ok, v, hv, hcall⟩

/-- When somebody wanted to cancel the booking and all calls have ended, somebody has done it. -/
theorem Sought.exists_winner (hs : h.Sought id r seen) (hfinished : h.Finished) {caller : Nat}
    {v : Visit} (hv : h.visits[caller]? = some v) (hcall : v.call = .cancelBooking id) :
    h.machine.records.statusOf id = some .cancelled ∧ ∃ winner, winner ∈ h.cancelledBy id := by
  rcases hs.ledger with ⟨hconfirmed, hnobody⟩ | ⟨hcancelled, winner, hwinner⟩
  · have hended := hfinished v (List.mem_of_getElem? hv)
    cases hstage : v.stage with
    | active p place? =>
        rw [hstage] at hended
        cases hended
    | waiting key request next place =>
        rw [hstage] at hended
        cases hended
    | ended result =>
        cases result with
        | ok answer =>
            have hmem := hs.mem_of_ok hv hcall hstage
            rw [hnobody] at hmem
            cases hmem
        | error cause =>
            have hkeeps := hs.fair.keeps hv
            rw [hstage] at hkeeps
            rw [hkeeps hcall] at hconfirmed
            cases hconfirmed
  · refine ⟨hcancelled, winner, ?_⟩
    rw [hwinner]
    exact List.mem_singleton_self _

/-- Who finds the booking confirmed has looked before the commit of the one who cancels it. -/
theorem Sought.not_mem_of_confirmed (hs : h.Sought id r seen)
    (hconfirmed : h.machine.records.statusOf id = some .confirmed) {events : List Event}
    {winner : Nat} (hwinner : winner ∈ (h.run events).cancelledBy id) : winner ∉ h.commits := by
  intro hmem
  have hold : winner < h.visits.length := Nat.lt_of_not_le fun hle => (hs.absent hle).2 hmem
  rw [mem_cancelledBy_old hold hmem, hs.nobody hconfirmed] at hwinner
  cases hwinner

/-- Who finds it cancelled has looked after that commit. -/
theorem Sought.mem_of_cancelled (hs : h.Sought id r seen)
    (hcancelled : h.machine.records.statusOf id = some .cancelled) {events : List Event}
    {seen' : Nat → Option Status} (hs' : (h.run events).Sought id r seen') {winner : Nat}
    (hwinner : winner ∈ (h.run events).cancelledBy id) : winner ∈ h.commits := by
  obtain ⟨first, hfirst⟩ := hs.exists_only hcancelled
  have hmem : first ∈ h.cancelledBy id := by
    rw [hfirst]
    exact List.mem_singleton_self _
  rw [← hs'.eq_of_mem (mem_cancelledBy_run hmem events) hwinner]
  exact (mem_cancelledBy.mp hmem).1

end Store.Hall

/-- Any number of callers want to cancel a booking that is confirmed, among others who do something
else. When all of them have been served, in whatever order they took their turns, one of them has
cancelled the booking. Every other one has been told that there is none if it had looked up the
status before that commit, and that the booking is cancelled already if it had not. The booking is
cancelled then and for good, and nobody else will ever be told to have cancelled it. -/
theorem cancelled_once {m : Machine} (hm : m.Settled) {id : String}
    (hid : m.records.statusOf id = some .confirmed) {events : List Event}
    (hsome : .call (.cancelBooking id) ∈ events)
    (hfinished : (Hall.run { machine := m } events).Finished) :
    let start : Hall := { machine := m }
    let h := start.run events
    ∃ winner, h.visits[winner]? = some ⟨.cancelBooking id, .ended (.ok .nothing)⟩ ∧
      (∀ (other : Nat) (v : Visit), h.visits[other]? = some v → v.call = .cancelBooking id →
        other ≠ winner →
        (start.ReadsBefore events other winner → v.stage = .ended (.error .bookingNotFound)) ∧
        (¬ start.ReadsBefore events other winner →
          v.stage = .ended (.error .alreadyCancelled))) ∧
      h.machine.records.statusOf id = some .cancelled ∧
      ∀ later,
        (start.run (events ++ later)).machine.records.statusOf id = some .cancelled ∧
        ∀ (other : Nat) (v : Visit) (answer : Answer),
          (start.run (events ++ later)).visits[other]? = some v →
          v.call = .cancelBooking id → v.stage = .ended (.ok answer) → other = winner := by
  intro start h
  obtain ⟨-, horderly, -⟩ := hm.spec
  have hstart : start.Sought id m.records fun _ => none :=
    ⟨Hall.Fair.start horderly, Or.inl ⟨hid, rfl⟩, fun _ => ⟨rfl, List.not_mem_nil⟩,
      fun hv => nomatch hv⟩
  have hrun := hstart.run rfl
  obtain ⟨seen, hs, hrecalls⟩ := hrun events
  obtain ⟨hcancelled, winner, hwinner⟩ : h.machine.records.statusOf id = some .cancelled ∧
      ∃ winner, winner ∈ h.cancelledBy id := by
    have hmem : Call.cancelBooking id ∈ h.visits.map Visit.call := by
      rw [Hall.calls_run]
      exact List.mem_append_right _ (List.mem_filterMap.mpr ⟨_, hsome, rfl⟩)
    obtain ⟨v, hv, hcall⟩ := List.mem_map.mp hmem
    obtain ⟨caller, hcaller⟩ := List.getElem?_of_mem hv
    exact hs.exists_winner hfinished hcaller hcall
  refine ⟨winner, ?_, fun other v hv hcall hne => ?_, hcancelled, fun later => ?_⟩
  · obtain ⟨hcommits, ⟨call, stage⟩, hv, rfl⟩ := Hall.mem_cancelledBy.mp hwinner
    have hstands := hs.stands hv rfl
    rw [decide_eq_true hcommits] at hstands
    have hended : stage = .ended (.ok .nothing) :=
      hstands.ended_of_done (hfinished _ (List.mem_of_getElem? hv))
    rw [hv, hended]
  · have hout : other ∉ h.commits := fun hmem =>
      hne (hs.eq_of_mem (Hall.mem_cancelledBy.mpr ⟨hmem, v, hv, hcall⟩) hwinner)
    have hstands := hs.stands hv hcall
    rw [decide_eq_false hout] at hstands
    have hrecall := hrecalls other fun w hw => by
      rw [hv] at hw
      cases hw
      exact hcall
    rcases hstands.ended_of_not_done (hfinished v (List.mem_of_getElem? hv)) with
      ⟨hseen, hstage⟩ | ⟨hseen, hstage⟩
    · rw [hseen] at hrecall
      obtain ⟨past, hprefix, hread, hconfirmed⟩ := hrecall
      refine ⟨fun _ => hstage, fun hafter => absurd ⟨past, hprefix, hread, ?_⟩ hafter⟩
      obtain ⟨rest, rfl⟩ := hprefix
      obtain ⟨_, hpast, -⟩ := hrun past
      have hsplit : h = (start.run past).run rest := start.run_append past rest
      rw [hsplit] at hwinner
      exact hpast.not_mem_of_confirmed hconfirmed hwinner
    · rw [hseen] at hrecall
      refine ⟨fun ⟨past, hprefix, hread, hnot⟩ => absurd ?_ hnot, fun _ => hstage⟩
      have hstatus := hrecall past hprefix hread
      obtain ⟨rest, rfl⟩ := hprefix
      obtain ⟨_, hpast, -⟩ := hrun past
      have hsplit : h = (start.run past).run rest := start.run_append past rest
      change h.Sought id m.records seen at hs
      rw [hsplit] at hs hwinner
      exact hpast.mem_of_cancelled hstatus hs hwinner
  · obtain ⟨seen', hs', -⟩ := hrun (events ++ later)
    have hsplit : start.run (events ++ later) = h.run later := start.run_append events later
    rw [hsplit] at hs' ⊢
    refine ⟨hs.gone later hs' hcancelled, fun other v answer hv hcall hstage => ?_⟩
    exact hs'.eq_of_mem (hs'.mem_of_ok hv hcall hstage) (Hall.mem_cancelledBy_run hwinner later)

def booked : Machine := (Hall.run {} bookedOnce).machine

theorem settled_booked : booked.Settled := ⟨bookedOnce, by decide +kernel, rfl⟩

/-- Three cancellations of a booking and a reservation of its slot. The second cancellation looks
the status up while the first one works, and waits for it; the third one comes after it. -/
def threeCancellations : List Event :=
  [.call (.cancelBooking "booking"), .call (.cancelBooking "booking"),
    .call (.cancelBooking "booking"), .call (.createBooking firstSlot)] ++
    [0, 0, 1, 1, 0, 1, 0, 0, 1, 1, 2, 2, 2, 3, 3, 3, 3].map (.turnOf · "") ++
    [.turnOf 3 "again", .turnOf 3 "", .turnOf 3 ""]

/-- The kind of the failure with which a call has ended. -/
def Store.Stage.failure? : Stage Answer → Option Kind
  | .ended (.error cause) => some cause.kind
  | _ => none

/-- Whether a call to cancel a booking has failed, and how. -/
def Store.Hall.failedWith (id : String) (h : Hall) (caller : Nat) (kind : Kind) : Bool :=
  h.visits[caller]?.any fun v => v.call.cancels id && v.stage.failure? == some kind

theorem Store.Hall.exists_failed {h : Hall} {caller : Nat} {kind : Kind}
    (hfailed : h.failedWith id caller kind = true) :
    ∃ v, h.visits[caller]? = some v ∧ v.call = .cancelBooking id ∧
      v.stage.failure? = some kind := by
  unfold failedWith at hfailed
  cases hv : h.visits[caller]? with
  | none =>
      rw [hv] at hfailed
      cases hfailed
  | some v =>
      rw [hv, Option.any_some, Bool.and_eq_true, Call.cancels_iff, beq_iff_eq] at hfailed
      exact ⟨v, rfl, hfailed⟩

theorem cancelled_once_of_three :
    let start : Hall := { machine := booked }
    let h := start.run threeCancellations
    booked.records.statusOf "booking" = some .confirmed ∧ h.Finished ∧
      ∃ winner, h.visits[winner]? = some ⟨.cancelBooking "booking", .ended (.ok .nothing)⟩ ∧
        start.ReadsBefore threeCancellations 1 winner ∧
        ¬ start.ReadsBefore threeCancellations 2 winner ∧
        h.machine.records.statusOf "booking" = some .cancelled := by
  have hid : booked.records.statusOf "booking" = some .confirmed := by decide +kernel
  have hsome : Event.call (.cancelBooking "booking") ∈ threeCancellations := List.mem_cons_self
  have hfinished : (Hall.run { machine := booked } threeCancellations).Finished := by
    decide +kernel
  have hearly : (Hall.run { machine := booked } threeCancellations).failedWith "booking" 1
      .notFound = true := by decide +kernel
  have hlate : (Hall.run { machine := booked } threeCancellations).failedWith "booking" 2
      .alreadyCancelled = true := by decide +kernel
  obtain ⟨winner, hwinner, hothers, hcancelled, -⟩ :=
    cancelled_once settled_booked hid hsome hfinished
  -- How a caller has failed says whether it has looked before the commit.
  have hloser : ∀ {caller kind}, (Hall.run { machine := booked } threeCancellations).failedWith
      "booking" caller kind = true →
      (Hall.ReadsBefore { machine := booked } threeCancellations caller winner →
          kind = .notFound) ∧
        (¬ Hall.ReadsBefore { machine := booked } threeCancellations caller winner →
          kind = .alreadyCancelled) := by
    intro caller kind hfailed
    obtain ⟨v, hv, hcall, hkind⟩ := Hall.exists_failed hfailed
    have hne : caller ≠ winner := by
      rintro rfl
      rw [hv] at hwinner
      cases hwinner
      cases hkind
    obtain ⟨hbefore, hafter⟩ := hothers caller v hv hcall hne
    refine ⟨fun h => ?_, fun h => ?_⟩
    · rw [hbefore h] at hkind
      exact (Option.some.inj hkind).symm
    · rw [hafter h] at hkind
      exact (Option.some.inj hkind).symm
  refine ⟨hid, hfinished, winner, hwinner, ?_, fun h => ?_, hcancelled⟩
  · by_contra h
    cases (hloser hearly).2 h
  · cases (hloser hlate).1 h

end Bookable
