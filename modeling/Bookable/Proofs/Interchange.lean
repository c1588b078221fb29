import Bookable.Proofs.Suits

/-!
# One store in the place of the other

Calls that are made one after the other can be served at a desk, where transactions hold
locks and buffer their writes, or on tables, which check every write at once. Both come
to what the programs of the calls come to by themselves, as long as what the calls give
has a place in the tables. So every call ends in the same way on both, draws the same
stamps, and leaves the same records.
-/

namespace Bookable

open Store Time

namespace Store

/-- Calls one after the other, each with the number of its caller. -/
def Desk.serveEach : List (Nat × Call) → Desk → List (Progress Answer) × Desk
  | [], d => ([], d)
  | (caller, call) :: calls, d =>
      let (progress, d) := serve caller call.program none d
      let (others, d) := serveEach calls d
      (progress :: others, d)

/-- Calls one after the other. -/
def TableDesk.serveEach : List Call → TableDesk → List (Except Error Answer) × TableDesk
  | [], d => ([], d)
  | call :: calls, d =>
      let (result, _, d) := serve call.program none d
      let (others, d) := serveEach calls d
      (result :: others, d)

theorem Records.sound_empty (s : Supply) : ({} : Records).Sound s where
  distinct := ⟨List.nodup_nil, List.nodup_nil⟩
  storable _ h := absurd h List.not_mem_nil
  covered := ⟨fun _ h => absurd h List.not_mem_nil, fun _ h => absurd h List.not_mem_nil⟩

/-- A desk without locks and tables with the same records and the same supply serve a call with the
same result, and then again have the same records and the same supply. -/
theorem serve_both {d : Desk} (hlocks : d.machine.registry.locks = [])
    (hsound : d.machine.records.Sound d.supply) {call : Call} (h : call.Storable)
    (caller : Nat) :
    ∃ result d' work, Desk.serve caller call.program none d = (.ended result, d') ∧
      TableDesk.serve call.program none { records := d.machine.records, supply := d.supply } =
        (result, work, { records := d'.machine.records, supply := d'.supply }) ∧
      d'.machine.registry.locks = [] ∧ d'.machine.records.Sound d'.supply := by
  obtain ⟨d', hserve, hrecords, hsupply, hfree⟩ := Desk.serve_call hlocks caller call
  have hmatches : TableDesk.Matches (call.program.solo none d.machine.records d.supply)
      (TableDesk.serve call.program none
        { records := d.machine.records, supply := d.supply }) :=
    @TableDesk.serve_suited _ _ call.program none _ _ (suits_call h) hsound
      fun t ht => nomatch ht
  rcases htables : TableDesk.serve call.program none
    { records := d.machine.records, supply := d.supply } with ⟨result, work, e⟩
  rw [htables] at hmatches
  obtain ⟨hresult, he, hsound'⟩ := hmatches
  rw [← hrecords, ← hsupply] at he hsound'
  rw [← hresult] at hserve
  exact ⟨result, d', work, hserve, congrArg (fun e => (result, work, e)) he, hfree, hsound'⟩

theorem serveEach_both {calls : List (Nat × Call)} :
    ∀ {d : Desk}, d.machine.registry.locks = [] → d.machine.records.Sound d.supply →
      (∀ made ∈ calls, made.2.Storable) →
      ∃ results d', Desk.serveEach calls d = (results.map .ended, d') ∧
        TableDesk.serveEach (calls.map (·.2))
            { records := d.machine.records, supply := d.supply } =
          (results, { records := d'.machine.records, supply := d'.supply }) := by
  induction calls with
  | nil => exact fun _ _ _ => ⟨[], _, rfl, rfl⟩
  | cons made calls ih =>
      intro d hlocks hsound h
      obtain ⟨caller, call⟩ := made
      obtain ⟨result, d', work, hserve, htables, hlocks', hsound'⟩ :=
        serve_both hlocks hsound (h _ List.mem_cons_self) caller
      obtain ⟨results, d'', heach, htables'⟩ :=
        ih hlocks' hsound' fun other hother => h other (List.mem_cons_of_mem _ hother)
      refine ⟨result :: results, d'', ?_, ?_⟩
      · rw [Desk.serveEach, hserve]
        simp only [heach, List.map_cons]
      · rw [List.map_cons, TableDesk.serveEach, htables]
        simp only [htables']

end Store

/-- Calls that are made one after the other on empty stores, with the same supply of stamps, end in
the same way on both of them and leave the same records. None of them ever waits. -/
theorem stores_agree (calls : List (Nat × Call)) (supply : Supply)
    (h : ∀ made ∈ calls, made.2.Storable) :
    let desk := Desk.serveEach calls { supply }
    let tables := TableDesk.serveEach (calls.map (·.2)) { supply }
    desk.1 = tables.1.map .ended ∧ desk.2.machine.records = tables.2.records ∧
      desk.2.supply = tables.2.supply := by
  obtain ⟨results, d, hdesk, htables⟩ :=
    @serveEach_both calls { supply } rfl (Records.sound_empty supply) h
  intro desk tables
  have hdesk : desk = (results.map .ended, d) := hdesk
  have htables : tables = (results, { records := d.machine.records, supply := d.supply }) :=
    htables
  rw [hdesk, htables]
  exact ⟨rfl, rfl, rfl⟩

/-- A rule is stored, its first slot booked, asked for again, cancelled twice and booked again. -/
def Store.rebooking : List (Nat × Call) := [
  (0, .setAvailability "anna" [{
    dayOfWeek := .int 1, startTime := .text "10:00", endTime := .text "10:40",
    slotLength := .int 20 }]),
  (1, .createBooking firstSlot), (2, .createBooking firstSlot), (0, .cancelBooking "id-0002"),
  (0, .cancelBooking "id-0002"), (2, .createBooking firstSlot)]

theorem rebooked_on_both :
    let supply : Supply := { now := ⟨0, horizon_pos⟩ }
    let desk := Desk.serveEach rebooking { supply }
    let tables := TableDesk.serveEach (rebooking.map (·.2)) { supply }
    (∀ made ∈ rebooking, made.2.Storable) ∧
      tables.1.map Except.isOk = [true, true, false, true, false, true] ∧
      desk.1 = tables.1.map .ended ∧ desk.2.machine.records = tables.2.records ∧
      desk.2.supply = tables.2.supply := by
  have hstorable : ∀ made ∈ rebooking, made.2.Storable := by
    have hslot : firstSlot.Complete := ⟨rfl, rfl, rfl, rfl, rfl⟩
    intro made hmade
    simp only [rebooking, List.mem_cons, List.not_mem_nil, or_false] at hmade
    rcases hmade with rfl | rfl | rfl | rfl | rfl | rfl
    · intro draft hdraft
      rw [List.mem_singleton.mp hdraft]
      exact ⟨⟨true, rfl⟩, ⟨"", rfl⟩, fun n hn => by cases hn; decide⟩
    · exact hslot
    · exact hslot
    · trivial
    · trivial
    · exact hslot
  exact ⟨hstorable, by decide +kernel, stores_agree rebooking _ hstorable⟩

end Bookable
