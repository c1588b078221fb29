import Bookable.Command.Run
import Bookable.Proofs.Results

/-!
# What a command does with what it is given

An error ends a run with exit code 1, and it is shown if its kind is reported to people
and is the fault of the run if not. A command that books reads two instants before it does
anything else. If the first cannot be read, that is the error of the run, and nothing is
changed; if both can be, the request is for these instants, in whatever way they were
written. A command that lists slots shows each slot that was found in two lines, one of
which gives the slot in UTC.
-/

namespace Bookable.Command

open Store Time

variable {w w' : World} {settings : Settings}

namespace Run

theorem exit_failed (shown : List Item) (e : Error) : (failed shown e).exit = 1 := by
  rw [failed]
  split
  · rfl
  · rfl

end Run

/-! ## Booking -/

/-- The request of a command that books, for the instants that it has read. -/
def bookingOf (user email title description source kind : String) (start stop : Instant) :
    BookingRequest where
  user
  email := some email
  start
  stop
  source := some source
  kind := some kind
  description := some description
  title := some title

theorem perform_book [Zones] {start stop : String} {first last : Instant}
    (hstart : Instant.read w.supply.now settings.timezone start = .ok first)
    (hstop : Instant.read w.supply.now settings.timezone stop = .ok last)
    (user email title description source kind : String) :
    let served := w.serve settings.databaseUrl <| Service.createBooking <|
      bookingOf user email title description source kind first last
    ∃ run, perform w settings (.book user start stop email title description source kind) =
        (run, served.2) ∧
      (∀ e, served.1 = .error e → run = .failed [] e) ∧
      ∀ booking, served.1 = .ok booking →
        .line ("[bold green]✓ Booking " ++ booking.id ++ " confirmed.[/bold green]") ∈
          run.shown := by
  intro served
  rw [perform]
  simp only [hstart, hstop, ok_bind]
  cases hserved : w.serve settings.databaseUrl (Service.createBooking
    (bookingOf user email title description source kind first last)) with
  | mk result w' =>
      have hserved' : served = (result, w') := hserved
      rw [hserved']
      simp only [bookingOf] at hserved
      simp only [pure, Except.pure, hserved]
      cases result with
      | error e =>
          refine ⟨.failed [] e, rfl, ?_, ?_⟩
          · rintro _ ⟨⟩
            rfl
          · rintro _ ⟨⟩
      | ok booking =>
          refine ⟨_, rfl, ?_, ?_⟩
          · rintro _ ⟨⟩
          · rintro _ ⟨⟩
            unfold Run.showing
            split
            · exact List.mem_cons_self
            · exact List.mem_cons_self

/-- The line that gives a slot in UTC. -/
def isoLine (slot : Interval) : Item :=
  .line ("    [dim]" ++ slot.start.iso ++ " → " ++ slot.stop.iso ++ "[/dim]")

theorem mem_slotLines {zone : Zone} {slot : Interval} {items : List Item}
    (h : slotLines zone slot = .ok items) : isoLine slot ∈ items := by
  obtain ⟨start, -, h⟩ := bind_eq_ok.mp h
  obtain ⟨stop, -, h⟩ := bind_eq_ok.mp h
  cases h
  exact List.mem_cons_of_mem _ List.mem_cons_self

/-- What was shown stays, and each slot adds its lines until one has none. -/
theorem mem_showSlots (zone : Zone) (shown : List Item) (found : List Interval) :
    (∀ item ∈ shown, item ∈ (showSlots zone shown found).shown) ∧
      ((showSlots zone shown found).exit = 0 →
        ∀ slot ∈ found, isoLine slot ∈ (showSlots zone shown found).shown) := by
  induction found generalizing shown with
  | nil => exact ⟨fun item hitem => hitem, fun _ slot hslot => by cases hslot⟩
  | cons first rest ih =>
      rw [showSlots]
      cases hlines : slotLines zone first with
      | error e => exact ⟨fun item hitem => hitem, by rintro ⟨⟩⟩
      | ok items =>
          obtain ⟨hkept, hshown⟩ := ih (shown ++ items)
          refine ⟨fun item hitem => hkept item (List.mem_append_left _ hitem), fun hexit => ?_⟩
          intro slot hslot
          rcases List.mem_cons.mp hslot with rfl | hslot
          · exact hkept _ (List.mem_append_right _ (mem_slotLines hlines))
          · exact hshown hexit slot hslot

/-- A command that lists slots and does not fail shows every slot that it has found. -/
theorem perform_slots [Zones] {user : String} {start stop : Option String} {run : Run}
    (h : perform w settings (.slots user start stop) = (run, w')) (hexit : run.exit = 0) :
    ∃ first last found,
      w.serve settings.databaseUrl (Service.listSlots user first last) = (.ok found, w') ∧
        ∀ slot ∈ found, isoLine slot ∈ run.shown := by
  rw [perform] at h
  simp only [] at h
  split at h
  · next bounds _ =>
      obtain ⟨first, last⟩ := bounds
      simp only [] at h
      split at h
      · next found w'' hserved =>
          cases h
          refine ⟨first, last, found, hserved, fun slot hslot => ?_⟩
          have hsome : ¬ found.isEmpty = true := by
            rw [List.isEmpty_iff]
            exact List.ne_nil_of_mem hslot
          rw [if_neg hsome] at hexit ⊢
          exact (mem_showSlots _ _ found).2 hexit slot hslot
      · cases h
        rw [Run.exit_failed] at hexit
        cases hexit
  · cases h
    rw [Run.exit_failed] at hexit
    cases hexit

end Bookable.Command
