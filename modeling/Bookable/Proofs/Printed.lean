import Bookable.Proofs.Commands
import Bookable.Proofs.Time.Iso

/-!
# Printed instants are read back

An instant is written as a local date and time at some offset, with the offset after it.
The local time may lie on another day, in another month and in another year than the time
in UTC. Reading takes the offset away again and so finds the instant, and since the text
says its offset, neither the clock nor the zone that a reader would fall back on is asked,
and it does not matter whether that zone is known.

The texts that a command shows for a slot are of this kind, at no offset. So whoever gives
them to a command that books asks for this slot and no other, whatever zone is set.
-/

namespace Bookable

open Command Store

namespace Time

/-- A text is the local date and time of an instant at an offset in minutes, with a fraction that may
be left out if it is zero, and the offset. -/
def Instant.WrittenAt (t : Instant) (offset : Int) (text : String) : Prop :=
  ∃ here : Instant, t.shift? (offset * minute) = some here ∧
    Iso.WrittenAt here.civil offset text.toList

/-- An offset of less than a day can be written. -/
theorem Iso.exists_writtenOffset {offset : Int} (h : offset.natAbs < 1440) :
    ∃ mark, WrittenOffset offset mark := by
  rcases Int.natAbs_eq offset with hsign | hsign
  · rw [hsign]
    exact ⟨_, .ahead h⟩
  · rw [hsign]
    exact ⟨_, .behind h⟩

theorem Reading.ofText?_written {c : Civil} (hvalid : c.Valid) {offset : Int} {text : String}
    (h : Iso.WrittenAt c offset text.toList) : ofText? text = some (.moment c (some offset)) := by
  rw [ofText?, if_neg]
  · simp only [Iso.read_written hvalid h, Option.some_or]
  · rintro rfl
    exact h.getElem?_ne (by decide : Text.asciiDigit? 'n' = none) (by decide : 0 < 4) rfl

namespace Instant

theorem exists_writtenAt {t here : Instant} {offset : Int} (hoffset : offset.natAbs < 1440)
    (hhere : t.shift? (offset * minute) = some here) : ∃ text, t.WrittenAt offset text := by
  obtain ⟨mark, hmark⟩ := Iso.exists_writtenOffset hoffset
  exact ⟨String.ofList _, here, hhere, 'T', _, mark, Or.inl rfl, .digits, hmark,
    String.toList_ofList⟩

theorem read_writtenAt [Zones] {t : Instant} {offset : Int} {text : String}
    (h : t.WrittenAt offset text) (clock : Instant) (zone : String) :
    read clock zone text = .ok t := by
  obtain ⟨here, hhere, hwritten⟩ := h
  have hvalid : here.civil.Valid := Civil.valid_ofMicros here.lt_horizon
  have hmicros : (here.micros : Int) = t.micros + offset * minute := ofMicros?_eq_some.mp hhere
  have hback : (t.micros : Int) = here.civil.micros - offset * minute := by
    rw [micros_civil, hmicros, Int.add_sub_cancel]
  simp only [read, Reading.ofText?_written hvalid hwritten, ofOffset]
  rw [ofMicros?_eq_some.mpr hback]
  rfl

/-- The ISO text of an instant is its text at no offset. -/
theorem writtenAt_iso (t : Instant) : t.WrittenAt 0 t.iso := by
  have hhere : t.shift? (0 * minute) = some t := by
    rw [shift?, Int.zero_mul, Int.add_zero, ofMicros?_micros]
  have hfraction : WrittenFraction t.civil.micro
      (if t.civil.micro = 0 then [] else '.' :: Text.paddedDigits 6 t.civil.micro) := by
    split
    · next hzero => exact .nothing hzero
    · exact .digits
  refine ⟨t, hhere, 'T', _, _, Or.inl rfl, hfraction, .utc, ?_⟩
  simp only [iso, Civil.timeDigits, Civil.clockDigits, String.toList_ofList, List.append_assoc,
    List.cons_append]

end Instant

end Time

open Time

/-- Every instant can be written at every offset of less than a day at which its local time lies in
the calendar, and whatever is written for it is read back as the instant by every clock and with
every zone, known or not, whatever zones are known. A command that lists slots shows the texts of
all the slots it has found, and a command that books, given the texts of a slot, books this slot or
says why it cannot. -/
theorem printed_instants_read_back [Zones] :
    (∀ (t here : Instant) (offset : Int), offset.natAbs < 1440 →
      t.shift? (offset * minute) = some here → ∃ text, t.WrittenAt offset text) ∧
    (∀ (t : Instant) (offset : Int) (text : String), t.WrittenAt offset text →
      ∀ clock zone, Instant.read clock zone text = .ok t) ∧
    (∀ (w w' : World) (settings : Settings) (user : String) (start stop : Option String) (run : Run),
      Command.perform w settings (.slots user start stop) = (run, w') → run.exit = 0 →
        ∃ first last found,
          w.serve settings.databaseUrl (Service.listSlots user first last) = (.ok found, w') ∧
            ∀ slot ∈ found,
              .line ("    [dim]" ++ slot.start.iso ++ " → " ++ slot.stop.iso ++ "[/dim]") ∈
                run.shown) ∧
    ∀ (w : World) (settings : Settings) (slot : Interval)
      (user email title description source kind : String),
      let served := w.serve settings.databaseUrl <| Service.createBooking <|
        bookingOf user email title description source kind slot.start slot.stop
      ∃ run, Command.perform w settings
          (.book user slot.start.iso slot.stop.iso email title description source kind) =
            (run, served.2) ∧
        (∀ e, served.1 = .error e → run = .failed [] e) ∧
        ∀ booking, served.1 = .ok booking →
          .line ("[bold green]✓ Booking " ++ booking.id ++ " confirmed.[/bold green]") ∈
            run.shown := by
  refine ⟨fun t here offset => Instant.exists_writtenAt, fun t offset text => Instant.read_writtenAt,
    ?_, ?_⟩
  · intro w w' settings user start stop run hrun hexit
    exact perform_slots hrun hexit
  · intro w settings slot user email title description source kind
    exact perform_book (Instant.read_writtenAt slot.start.writtenAt_iso _ _)
      (Instant.read_writtenAt slot.stop.writtenAt_iso _ _) user email title description source kind

/-- An instant on the last evening of a year, written in the morning of the next year, and read with
a zone that is not known. -/
theorem new_year_read_back :
    let t : Instant := ⟨63871284600000007, by decide⟩
    let text := "2025-01-01 05:00:00.000007+05:30"
    t.WrittenAt 330 text ∧ Instant.read ⟨0, by decide⟩ "Mars/Olympus" text = .ok t ∧
      t.iso = "2024-12-31T23:30:00.000007Z" := by
  intro t text
  obtain ⟨-, hread, -, -⟩ := printed_instants_read_back
  have hhere : t.shift? (330 * minute) = some ⟨63871304400000007, by decide⟩ := by
    decide +kernel
  have hmark : Iso.WrittenOffset 330 ('+' :: Iso.hourMinuteDigits 330) := .ahead (by decide)
  have hwritten : t.WrittenAt 330 text := by
    refine ⟨_, hhere, ' ', _, _, Or.inr rfl, .digits, hmark, ?_⟩
    decide +kernel
  exact ⟨hwritten, hread t 330 text hwritten _ "Mars/Olympus", by decide +kernel⟩

end Bookable
