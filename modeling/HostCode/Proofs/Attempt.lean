import HostCode.Segment
import Mathlib.Data.List.Forall2

/-! # Outcomes of attempts

A fault keeps the state that was reached, so what a computation ensures has two parts: one for
the value that it returns, and one for the fault that breaks it off.
-/

namespace HostCode

variable {σ α β : Type} {x : Attempt σ α} {s : σ}
  {Q Q' : α → σ → Prop} {E E' : Fault → σ → Prop}

/-- From `s`, the attempt returns with `Q` or breaks off with `E`. -/
def Ensures (x : Attempt σ α) (s : σ) (Q : α → σ → Prop) (E : Fault → σ → Prop) : Prop :=
  match x s with
  | .ok v s => Q v s
  | .error f s => E f s

theorem modify_apply (t : σ → σ) (s : σ) : (modify t : Attempt σ PUnit) s = .ok ⟨⟩ (t s) := rfl

namespace Ensures

theorem imp (h : Ensures x s Q E) (hq : ∀ v s, Q v s → Q' v s) (he : ∀ f s, E f s → E' f s) :
    Ensures x s Q' E' := by
  unfold Ensures at h ⊢
  split <;> rename_i hx <;> simp only [hx] at h
  · exact hq _ _ h
  · exact he _ _ h

theorem and (h : Ensures x s Q E) (h' : Ensures x s Q' E') :
    Ensures x s (fun v s => Q v s ∧ Q' v s) (fun f s => E f s ∧ E' f s) := by
  unfold Ensures at h h' ⊢
  split <;> rename_i hx <;> simp only [hx] at h h'
  · exact ⟨h, h'⟩
  · exact ⟨h, h'⟩

theorem bind {k : α → Attempt σ β} {R : β → σ → Prop}
    (h : Ensures x s (fun v s => Ensures (k v) s R E) E) : Ensures (x >>= k) s R E := by
  change (match EStateM.bind x k s with
    | .ok v s => R v s
    | .error f s => E f s)
  unfold Ensures at h
  unfold EStateM.bind
  cases hx : x s <;> simp only [hx] at h
  · exact h
  · exact h

theorem pure {v : α} (h : Q v s) : Ensures (Pure.pure v) s Q E := h

theorem get {Q : σ → σ → Prop} (h : Q s s) : Ensures (MonadState.get : Attempt σ σ) s Q E := h

theorem modifying {t : σ → σ} {Q : PUnit → σ → Prop} (h : Q ⟨⟩ (t s)) :
    Ensures (modify t : Attempt σ PUnit) s Q E := h

end Ensures

def returned (P : α → σ → Bool) : EStateM.Result Fault σ α → Bool
  | .ok v s => P v s
  | .error _ _ => false

theorem exists_of_returned {P : α → σ → Bool} {r : EStateM.Result Fault σ α}
    (h : returned P r = true) : ∃ v s, r = .ok v s ∧ P v s = true := by
  cases r with
  | ok v s => exact ⟨v, s, rfl, h⟩
  | error f s => cases h

/-! ## Results -/

section Results

variable {ε : Type}

theorem bind_eq_ok {x : Except ε α} {k : α → Except ε β} {v : β} :
    (x >>= k) = .ok v ↔ ∃ u, x = .ok u ∧ k u = .ok v := by
  constructor
  · intro h
    cases x with
    | error e => cases h
    | ok u => exact ⟨u, rfl, h⟩
  · rintro ⟨u, rfl, h⟩
    exact h

theorem map_eq_ok {x : Except ε α} {f : α → β} {v : β} :
    f <$> x = .ok v ↔ ∃ u, x = .ok u ∧ f u = v := by
  cases x with
  | error e =>
    constructor
    · rintro ⟨⟩
    · rintro ⟨u, ⟨⟩, -⟩
  | ok u =>
    constructor
    · rintro ⟨⟩
      exact ⟨u, rfl, rfl⟩
    · rintro ⟨_, ⟨⟩, rfl⟩
      rfl

theorem mapM_eq_ok {f : α → Except ε β} {as : List α} {bs : List β} :
    as.mapM f = .ok bs ↔ List.Forall₂ (fun a b => f a = .ok b) as bs := by
  constructor
  · intro h
    induction as generalizing bs with
    | nil =>
      cases h
      exact .nil
    | cons a as ih =>
      rw [List.mapM_cons] at h
      obtain ⟨b, hf, h⟩ := bind_eq_ok.mp h
      obtain ⟨bs, hm, h⟩ := bind_eq_ok.mp h
      cases h
      exact .cons hf (ih hm)
  · intro h
    induction h with
    | nil => rfl
    | cons hf _ ih =>
      rw [List.mapM_cons, hf, ih]
      rfl

theorem toOption_bind (x : Except ε α) (k : α → Except ε β) :
    (x >>= k).toOption = x.toOption >>= fun v => (k v).toOption := by
  cases x <;> rfl

theorem toOption_eq_some {x : Except ε α} {v : α} : x.toOption = some v ↔ x = .ok v := by
  cases x with
  | error e =>
    constructor
    · rintro ⟨⟩
    · rintro ⟨⟩
  | ok u =>
    constructor
    · rintro ⟨⟩
      rfl
    · rintro ⟨⟩
      rfl

end Results

end HostCode
