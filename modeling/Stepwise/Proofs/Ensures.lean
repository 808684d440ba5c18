import Stepwise.Run

/-! What holds when a piece of a run is over: `Ensures x m Q H` says that `x`, begun in `m`, either ends
with a value and a state of which `Q` holds, or halts for a reason and in a state of which `H` does. -/

namespace Stepwise

variable {α β : Type}

namespace Run

def Ensures (x : Run α) (m : Machine) (Q : α → Machine → Prop) (H : Halt → Machine → Prop) : Prop :=
  match x m with
  | .ok a m' => Q a m'
  | .error e m' => H e m'

variable {x : Run α} {f : α → Run β} {m m' : Machine} {a : α} {e : Halt} {Q Q' : α → Machine → Prop}
  {R : β → Machine → Prop} {H H' : Halt → Machine → Prop}

theorem ensures_iff_of_ok (h : x m = .ok a m') : Ensures x m Q H ↔ Q a m' := by
  simp only [Ensures, h]

theorem ensures_iff_of_error (h : x m = .error e m') : Ensures x m Q H ↔ H e m' := by
  simp only [Ensures, h]

theorem Ensures.ok (hx : Ensures x m Q H) (h : x m = .ok a m') : Q a m' :=
  (ensures_iff_of_ok h).mp hx

theorem Ensures.error (hx : Ensures x m Q H) (h : x m = .error e m') : H e m' :=
  (ensures_iff_of_error h).mp hx

instance [∀ a m, Decidable (Q a m)] [∀ e m, Decidable (H e m)] : Decidable (Ensures x m Q H) :=
  match h : x m with
  | .ok _ _ => decidable_of_iff _ (ensures_iff_of_ok h).symm
  | .error _ _ => decidable_of_iff _ (ensures_iff_of_error h).symm

theorem Ensures.exists_ok (hx : Ensures x m Q fun _ _ => False) : ∃ a m', x m = .ok a m' ∧ Q a m' := by
  cases h : x m with
  | ok a m' => exact ⟨a, m', rfl, hx.ok h⟩
  | error e m' => exact (hx.error h).elim

theorem Ensures.exists_error (hx : Ensures x m (fun _ _ => False) H) :
    ∃ e m', x m = .error e m' ∧ H e m' := by
  cases h : x m with
  | ok a m' => exact (hx.ok h).elim
  | error e m' => exact ⟨e, m', rfl, hx.error h⟩

theorem Ensures.mono (hx : Ensures x m Q H) (hQ : ∀ a m', Q a m' → Q' a m')
    (hH : ∀ e m', H e m' → H' e m') : Ensures x m Q' H' := by
  cases h : x m with
  | ok a m' => exact (ensures_iff_of_ok h).mpr (hQ a m' (hx.ok h))
  | error e m' => exact (ensures_iff_of_error h).mpr (hH e m' (hx.error h))

theorem Ensures.imp (hx : Ensures x m Q H) (hQ : ∀ a m', Q a m' → Q' a m') : Ensures x m Q' H :=
  hx.mono hQ fun _ _ => id

theorem Ensures.and (hx : Ensures x m Q H) (hx' : Ensures x m Q' H') :
    Ensures x m (fun a m' => Q a m' ∧ Q' a m') (fun e m' => H e m' ∧ H' e m') := by
  cases h : x m with
  | ok a m' => exact (ensures_iff_of_ok h).mpr ⟨hx.ok h, hx'.ok h⟩
  | error e m' => exact (ensures_iff_of_error h).mpr ⟨hx.error h, hx'.error h⟩

theorem bind_ok (h : x m = .ok a m') : (x >>= f) m = f a m' := by
  show EStateM.bind x f m = _
  simp [EStateM.bind, h]

theorem bind_error (h : x m = .error e m') : (x >>= f) m = .error e m' := by
  show EStateM.bind x f m = _
  simp [EStateM.bind, h]

theorem bind_eq_ok {b : β} (h : (x >>= f) m = .ok b m') : ∃ a m₁, x m = .ok a m₁ ∧ f a m₁ = .ok b m' := by
  cases hx : x m with
  | ok a m₁ => exact ⟨a, m₁, rfl, by rw [← h, bind_ok hx]⟩
  | error e m₁ =>
    rw [bind_error hx] at h
    exact nomatch h

/-- One piece after another: where the first ends, the second begins. -/
theorem Ensures.bind (hx : Ensures x m (fun a m' => Ensures (f a) m' R H) H) :
    Ensures (x >>= f) m R H := by
  cases h : x m with
  | ok a m' =>
    unfold Ensures
    rw [bind_ok h]
    exact hx.ok h
  | error e m' => exact (ensures_iff_of_error (bind_error h)).mpr (hx.error h)

theorem Ensures.andThen (hx : Ensures x m Q H) (hf : ∀ a m', Q a m' → Ensures (f a) m' R H) :
    Ensures (x >>= f) m R H :=
  .bind (hx.imp hf)

theorem assured_eq_ok : assured x m = .ok a m' ↔ x m = .ok a m' := by
  unfold assured
  cases hx : x m with
  | ok b m₁ => rfl
  | error e m₁ => cases e <;> simp

theorem assured_eq_fault {f : Fault} (h : assured x m = .error (.fault f) m') :
    ∃ f', x m = .error (.fault f') m' ∧ f = { f' with cause := .internal f'.cause } := by
  unfold assured at h
  cases hx : x m with
  | ok b m₁ =>
    rw [hx] at h
    cases h
  | error e m₁ =>
    rw [hx] at h
    cases e with
    | fault f' =>
      cases h
      exact ⟨f', rfl, rfl⟩
    | _ => cases h

/-- Where a piece is assured, only what its fault is called changes. -/
theorem Ensures.assured (hx : Ensures x m Q H)
    (hH : ∀ f m', H (.fault f) m' → H (.fault { f with cause := .internal f.cause }) m') :
    Ensures (assured x) m Q H := by
  unfold Ensures Run.assured
  cases h : x m with
  | ok a m' => exact hx.ok h
  | error e m' =>
    cases e with
    | fault f => exact hH f m' (hx.error h)
    | _ => exact hx.error h

/-- However the piece ends, it leaves a state of which `P` holds. -/
abbrev Leaves (x : Run α) (m : Machine) (P : Machine → Prop) : Prop :=
  Ensures x m (fun _ => P) (fun _ => P)

end Run

end Stepwise
