import Bookable.Proofs.Slots.Lookup

/-!
# What can keep slots from being derived

Deriving free slots reads rules and bookings and does arithmetic on instants, so there
are few things that can go wrong: a rule that cannot be used, values that cannot be
computed with or be named, a range without duration, or the end of the calendar. This
holds of all rules, whatever stands in their fields, and it is shown function by function,
along the way in which slots are derived. In particular whether a request is for a free
slot is never answered with a conflict: a conflict is what the stores report.

A range without duration is the rarest of these. The times of a rule that has been checked
are in order, so it takes a length that counts and still comes to no time, or a lookup for
bookings. The lemmas on the way to the walk leave open which causes are allowed, and say
what a set of causes has to contain.
-/

namespace Bookable

open Time

/-- Whether a cause lies in what a rule holds, or in the end of the calendar. -/
def Error.ofRule (e : Error) : Bool :=
  match e.kind with
  | .validation | .overflow | .mistyped | .number => true
  | _ => false

/-- Whether a cause can keep slots from being derived. -/
def Error.ofDerivation (e : Error) : Bool :=
  match e.kind with
  | .validation | .invalidRange | .overflow | .mistyped | .number => true
  | _ => false

theorem Error.ofDerivation_of_ofRule {e : Error} (h : e.ofRule = true) :
    e.ofDerivation = true := by
  unfold ofRule at h
  unfold ofDerivation
  cases hkind : e.kind <;> simp only [hkind, Bool.false_eq_true] at h ⊢

theorem Error.kind_of_ofRule {e : Error} (h : e.ofRule = true) : e.kind ≠ .invalidRange := by
  intro hkind
  simp only [ofRule, hkind, Bool.false_eq_true] at h

/-- If a rule cannot be read, then for a cause that lies in it, or in the end of the calendar. -/
abbrev Reads {α : Type} (x : Except Error α) : Prop := FailsWith (·.ofRule = true) x

/-- If a derivation fails, then for a cause that can keep slots from being derived. -/
abbrev Derives {α : Type} (x : Except Error α) : Prop := FailsWith (·.ofDerivation = true) x

theorem reads_inCalendar {α : Type} (a? : Option α) : Reads (inCalendar a?) := by
  cases a? with
  | none => exact failsWith_error rfl
  | some a => exact failsWith_ok a

theorem derives_inCalendar {α : Type} (a? : Option α) : Derives (inCalendar a?) :=
  (reads_inCalendar a?).imp fun _ => Error.ofDerivation_of_ofRule

theorem Interval.derives_between (start stop : Instant) : Derives (between start stop) := by
  rw [between]
  split
  · exact failsWith_ok _
  · exact failsWith_error rfl

theorem Interval.derives_padded (a : Interval) (micros : Int) : Derives (a.padded micros) :=
  failsWith_bind (derives_inCalendar _) fun _ _ =>
    failsWith_bind (derives_inCalendar _) fun _ _ => derives_between _ _

/-! ## Rules -/

/-- A value that is to blame keeps a rule from being read, named or not. -/
theorem Error.ofRule_blaming {cause : Value → Error} {v : Value}
    (h : (cause v).ofRule = true) : (blaming v cause).ofRule = true := by
  rw [blaming]
  split
  · exact h
  · rfl

theorem reads_storedTime (v : Value) : Reads (storedTime v) := by
  unfold storedTime
  split
  · split
    · exact failsWith_error rfl
    · split
      · exact failsWith_ok _
      · exact failsWith_error rfl
  · exact failsWith_error rfl
  · split
    · exact failsWith_error (Error.ofRule_blaming rfl)
    · exact failsWith_error rfl
  · split
    · exact failsWith_error (Error.ofRule_blaming rfl)
    · exact failsWith_error rfl
  · exact failsWith_error rfl

theorem reads_lengthCounts (v : Value) : Reads (lengthCounts v) := by
  unfold lengthCounts
  split
  · exact failsWith_ok _
  · exact failsWith_ok _
  · exact failsWith_ok _
  · exact failsWith_error rfl

theorem reads_slotMicros (v : Value) : Reads (slotMicros v) := by
  unfold slotMicros
  split
  · exact failsWith_ok _
  · exact failsWith_ok _
  · exact failsWith_ok _
  · exact failsWith_error rfl
  · exact failsWith_error rfl

/-- The times are compared before the window is made, so the window is never empty. -/
theorem Rule.reads_windowOn (r : Rule) (day : Nat) : Reads (r.windowOn day) := by
  refine failsWith_bind (reads_storedTime _) fun start _ =>
    failsWith_bind (reads_storedTime _) fun stop _ => ?_
  simp only []
  split
  · next hord =>
      refine failsWith_bind (reads_lengthCounts _) fun counts _ => ?_
      split
      · refine failsWith_bind (reads_inCalendar _) fun first hfirst =>
          failsWith_bind (reads_inCalendar _) fun last hlast => ?_
        have hfrom := Instant.micros_of_ofMicros? (inCalendar_ok hfirst)
        have hto := Instant.micros_of_ofMicros? (inCalendar_ok hlast)
        have hmicros : start.micros < stop.micros :=
          Nat.mul_lt_mul_of_pos_right hord (by decide)
        have hlt : first < last := by
          show first.micros < last.micros
          omega
        rw [Interval.between, dif_pos hlt]
        exact failsWith_ok _
      · exact failsWith_error rfl
  · exact failsWith_error rfl

section

variable {P : Error → Prop}

/-- The walk through a window fails only where a slot would end outside of the calendar, or as soon
as it starts. -/
theorem failsWith_tileFrom (window : Interval) {length : Int} (request : Interval)
    (hout : P .outsideCalendar) (hempty : length ≤ 0 → ∀ start stop, P (.emptyRange start stop))
    (start : Instant) : FailsWith P (tileFrom window length request start) := by
  induction start using tileFrom.induct window length with
  | case1 start hshift =>
      rw [tileFrom, hshift]
      exact failsWith_error hout
  | case2 start stop hshift hends hnext ih =>
      rw [tileFrom, hshift]
      simp only [if_pos hends, dif_pos hnext]
      exact failsWith_bind ih fun rest _ => failsWith_ok _
  | case3 start stop hshift hends hnext =>
      rw [tileFrom, hshift]
      simp only [if_pos hends, dif_neg hnext]
      have hmicros := Instant.micros_of_shift? hshift
      have hle : ¬ start.micros < stop.micros := hnext
      exact failsWith_error (hempty (by omega) start stop)
  | case4 start stop hshift hlast =>
      rw [tileFrom, hshift]
      simp only [if_neg hlast]
      exact failsWith_ok _

theorem Rule.failsWith_slotsOn (r : Rule) (request : Interval) (day : Nat)
    (hrule : ∀ e : Error, e.ofRule = true → P e)
    (hempty : lengthCounts r.slotLength = .ok true → ∀ length ≤ 0,
      slotMicros r.slotLength = .ok length → ∀ start stop, P (.emptyRange start stop)) :
    FailsWith P (r.slotsOn request day) := by
  rw [slotsOn]
  split
  · refine failsWith_bind ((r.reads_windowOn day).imp hrule) fun window hwindow => ?_
    obtain ⟨-, -, -, -, -, hcounts, -, -⟩ := windowOn_ok_inv hwindow
    split
    · refine failsWith_bind ((reads_slotMicros _).imp hrule) fun length hlength => ?_
      exact failsWith_tileFrom window request (hrule _ rfl)
        (fun hle => hempty hcounts length hle hlength) window.start
    · exact failsWith_ok _
  · exact failsWith_ok _

theorem failsWith_expand {rules : List Rule} (request : Interval) (hout : P .outsideCalendar)
    (hslots : ∀ r ∈ rules, ∀ day, FailsWith P (r.slotsOn request day)) :
    FailsWith P (expand rules request) := by
  rw [expand]
  split
  · exact failsWith_ok _
  · refine failsWith_bind (failsWith_mapM fun day _ => failsWith_mapM fun r hr =>
      hslots r hr day) fun found _ => ?_
    split
    · exact failsWith_error hout
    · exact failsWith_ok _

end

/-- A length that is a whole number does not count, or comes to some time. -/
theorem reads_expand_of_int {rules : List Rule} (request : Interval)
    (hlengths : ∀ r ∈ rules, ∃ k : Int, r.slotLength = .int k) : Reads (expand rules request) := by
  refine failsWith_expand request rfl fun r hr day =>
    r.failsWith_slotsOn request day (fun _ h => h) ?_
  obtain ⟨k, hk⟩ := hlengths r hr
  intro hcounts length hle hmicros
  rw [hk] at hcounts hmicros
  have hpos : 0 < k := of_decide_eq_true (Except.ok.inj hcounts)
  cases hmicros
  unfold minute second at hle
  omega

/-! ## Free slots -/

theorem derives_expand (rules : List Rule) (request : Interval) :
    Derives (expand rules request) :=
  failsWith_expand request rfl fun r _ day => r.failsWith_slotsOn request day
    (fun _ => Error.ofDerivation_of_ofRule) fun _ _ _ _ _ _ => rfl

theorem derives_lookupRange (request : Interval) (candidates : List Interval) :
    Derives (lookupRange request candidates) :=
  failsWith_bind (request.derives_padded _) fun _ _ => Interval.derives_between _ _

theorem derives_freeWithin (rules : List Rule) (load : Interval → List Booking)
    (window : Interval) : Derives (freeWithin rules load window) := by
  cases hempty : rules.isEmpty with
  | true =>
      rw [freeWithin, hempty]
      exact failsWith_ok _
  | false =>
      rw [freeWithin_eq load window hempty]
      refine failsWith_bind (derives_expand rules window) fun candidates _ => ?_
      split
      · exact failsWith_ok _
      · exact failsWith_bind (derives_lookupRange _ _) fun _ _ => failsWith_ok _

theorem derives_revalidated (request : BookingRequest) : Derives (revalidated request) := by
  refine failsWith_bind (derives_inCalendar _) fun start _ =>
    failsWith_bind (derives_inCalendar _) fun stop _ => ?_
  rw [Service.window]
  split
  · exact Interval.derives_between _ _
  · exact failsWith_error rfl

theorem derives_accept (rules : List Rule) (load : Interval → List Booking)
    (request : BookingRequest) : Derives (accept rules load request) := by
  refine failsWith_bind (derives_revalidated request) fun window _ =>
    failsWith_bind (derives_freeWithin _ _ _) fun slots _ => ?_
  split
  · exact failsWith_ok _
  · exact failsWith_error rfl

/-- Whether a request is for a free slot is not answered with a conflict. -/
theorem kind_of_accept {rules : List Rule} {load : Interval → List Booking}
    {request : BookingRequest} {cause : Error} (h : accept rules load request = .error cause) :
    cause.kind ≠ .conflict := by
  intro hkind
  have hderivation := derives_accept rules load request cause h
  simp only [Error.ofDerivation, hkind, Bool.false_eq_true] at hderivation

end Bookable
