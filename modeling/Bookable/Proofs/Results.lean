/-!
# Results that may be errors

How computations in `Except` go on, and what running one over a list amounts to: it
gives a result for every element, or the error of one of them.
-/

namespace Bookable

variable {ε α β γ : Type}

@[simp] theorem ok_bind (a : α) (f : α → Except ε β) : (Except.ok a >>= f) = f a := rfl

@[simp] theorem error_bind (e : ε) (f : α → Except ε β) :
    ((Except.error e : Except ε α) >>= f) = .error e := rfl

theorem eq_ok_of_isOk {x : Except ε Unit} (h : x.isOk = true) : x = .ok () := by
  cases x with
  | error e => cases h
  | ok a => rfl

/-- A computation that goes on with another one has a result if both of them do. -/
theorem bind_eq_ok {x : Except ε α} {f : α → Except ε β} {b : β} :
    (x >>= f) = .ok b ↔ ∃ a, x = .ok a ∧ f a = .ok b := by
  cases x with
  | error e =>
      rw [error_bind]
      constructor
      · intro h
        cases h
      · rintro ⟨a, h, -⟩
        cases h
  | ok a =>
      rw [ok_bind]
      constructor
      · exact fun h => ⟨a, rfl, h⟩
      · rintro ⟨a', h, hb⟩
        cases h
        exact hb

/-- A computation that goes on with another one fails if one of them does. -/
theorem bind_eq_error {x : Except ε α} {f : α → Except ε β} {e : ε} :
    (x >>= f) = .error e ↔ x = .error e ∨ ∃ a, x = .ok a ∧ f a = .error e := by
  cases x with
  | error e' =>
      rw [error_bind]
      constructor
      · intro h
        cases h
        exact Or.inl rfl
      · rintro (h | ⟨a, h, -⟩)
        · cases h
          rfl
        · cases h
  | ok a =>
      rw [ok_bind]
      constructor
      · exact fun h => Or.inr ⟨a, rfl, h⟩
      · rintro (h | ⟨a', h, he⟩)
        · cases h
        · cases h
          exact he

theorem mapM_ok {f : α → Except ε β} {g : α → γ} {view : β → γ} {l : List α}
    (h : ∀ a ∈ l, ∃ b, f a = .ok b ∧ view b = g a) :
    ∃ bs, l.mapM f = .ok bs ∧ bs.map view = l.map g := by
  induction l with
  | nil => exact ⟨[], rfl, rfl⟩
  | cons a l ih =>
      obtain ⟨b, hb, hview⟩ := h a List.mem_cons_self
      obtain ⟨bs, hbs, hviews⟩ := ih fun c hc => h c (List.mem_cons_of_mem a hc)
      refine ⟨b :: bs, ?_, ?_⟩
      · rw [List.mapM_cons, hb, ok_bind, hbs, ok_bind]
        rfl
      · rw [List.map_cons, List.map_cons, hview, hviews]

/-- A computation that comes to a function of what another one comes to, run over the same list. -/
theorem mapM_map {f g : α → Except ε β} {view : β → β} {l : List α} {bs : List β}
    (h : ∀ a ∈ l, ∀ b, f a = .ok b → g a = .ok (view b)) (hbs : l.mapM f = .ok bs) :
    l.mapM g = .ok (bs.map view) := by
  induction l generalizing bs with
  | nil =>
      cases hbs
      rfl
  | cons a l ih =>
      rw [List.mapM_cons] at hbs ⊢
      obtain ⟨b, hb, hbs⟩ := bind_eq_ok.mp hbs
      obtain ⟨cs, hcs, hbs⟩ := bind_eq_ok.mp hbs
      cases hbs
      rw [h a List.mem_cons_self b hb, ok_bind,
        ih (fun c hc => h c (List.mem_cons_of_mem a hc)) hcs, ok_bind]
      rfl

theorem mem_of_mapM_ok {f : α → Except ε β} {l : List α} {bs : List β} (h : l.mapM f = .ok bs)
    {b : β} (hb : b ∈ bs) : ∃ a ∈ l, f a = .ok b := by
  induction l generalizing bs with
  | nil =>
      cases h
      cases hb
  | cons a l ih =>
      rw [List.mapM_cons] at h
      obtain ⟨c, hc, h⟩ := bind_eq_ok.mp h
      obtain ⟨cs, hcs, h⟩ := bind_eq_ok.mp h
      cases h
      rcases List.mem_cons.mp hb with rfl | hb
      · exact ⟨a, List.mem_cons_self, hc⟩
      · obtain ⟨d, hd, hfd⟩ := ih hcs hb
        exact ⟨d, List.mem_cons_of_mem a hd, hfd⟩

theorem exists_of_mapM_error {f : α → Except ε β} {l : List α} {e : ε}
    (h : l.mapM f = .error e) : ∃ a ∈ l, f a = .error e := by
  induction l with
  | nil => cases h
  | cons a l ih =>
      rw [List.mapM_cons] at h
      cases ha : f a with
      | error cause =>
          rw [ha, error_bind] at h
          cases h
          exact ⟨a, List.mem_cons_self, ha⟩
      | ok b =>
          rw [ha, ok_bind] at h
          cases hl : l.mapM f with
          | error cause =>
              rw [hl, error_bind] at h
              cases h
              obtain ⟨c, hc, hcause⟩ := ih hl
              exact ⟨c, List.mem_cons_of_mem a hc, hcause⟩
          | ok bs =>
              rw [hl, ok_bind] at h
              cases h

theorem exists_mapM_error {f : α → Except ε β} {l : List α} {a : α} (ha : a ∈ l) {e : ε}
    (h : f a = .error e) : ∃ cause, l.mapM f = .error cause := by
  induction l with
  | nil => cases ha
  | cons b l ih =>
      rw [List.mapM_cons]
      cases hb : f b with
      | error cause => exact ⟨cause, rfl⟩
      | ok c =>
          rw [ok_bind]
          rcases List.mem_cons.mp ha with rfl | ha
          · rw [h] at hb
            cases hb
          · obtain ⟨cause, hcause⟩ := ih ha
            exact ⟨cause, by rw [hcause, error_bind]⟩

/-! ## Where errors come from -/

/-- If a computation fails, then for a cause of a certain kind. -/
def FailsWith (P : ε → Prop) (x : Except ε α) : Prop := ∀ e, x = .error e → P e

variable {P : ε → Prop}

theorem failsWith_ok (a : α) : FailsWith P (.ok a : Except ε α) := nofun

theorem failsWith_error {e : ε} (h : P e) : FailsWith P (.error e : Except ε α) := by
  rintro _ ⟨⟩
  exact h

theorem FailsWith.imp {P Q : ε → Prop} {x : Except ε α} (h : FailsWith P x)
    (himp : ∀ e, P e → Q e) : FailsWith Q x :=
  fun e he => himp e (h e he)

theorem failsWith_bind {x : Except ε α} {f : α → Except ε β} (hx : FailsWith P x)
    (hf : ∀ a, x = .ok a → FailsWith P (f a)) : FailsWith P (x >>= f) := by
  intro e he
  rcases bind_eq_error.mp he with he | ⟨a, ha, he⟩
  · exact hx e he
  · exact hf a ha e he

theorem failsWith_mapM {f : α → Except ε β} {l : List α} (h : ∀ a ∈ l, FailsWith P (f a)) :
    FailsWith P (l.mapM f) := by
  intro e he
  obtain ⟨a, ha, hcause⟩ := exists_of_mapM_error he
  exact h a ha e hcause

/-! ## Results that may be missing -/

variable {Q : α → Prop}

end Bookable
