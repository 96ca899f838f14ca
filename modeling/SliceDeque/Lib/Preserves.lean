import SliceDeque.Lib.Exec

/-!
# What no run changes

A condition on states that no part of a program breaks holds after every run of
it, whether the run returns, panics or wraps around.
-/

set_option autoImplicit false

namespace Exec
variable {ε σ τ α β : Type} {I : σ → Prop} {m : Exec ε σ α} {f : α → Exec ε σ β} {s : σ}

/-- From every state in `I` the run ends in `I`. -/
def Preserves (I : σ → Prop) (m : Exec ε σ α) : Prop := ∀ s, I s → Lands m s (fun _ => I) fun _ => I

theorem Lands.state (h : Lands m s (fun _ => I) fun _ => I) : I (m s).state := by
  obtain ⟨h⟩ := h
  revert h
  cases (m s).result <;> exact id

/-- A first part that ends in `I`, and a second that preserves it. -/
theorem Lands.andThen (h : Lands m s (fun _ => I) fun _ => I) (hf : ∀ a, Preserves I (f a)) :
    Lands (m >>= f) s (fun _ => I) fun _ => I :=
  lands_bind.mpr (lands_mono h (fun a s' hs' => hf a s' hs') fun _ _ => id)

theorem Lands.unwound {cleanup : Exec ε σ Unit} (h : Lands m s (fun _ => I) fun _ => I) (hc : Preserves I cleanup) :
    Lands (onPanic m cleanup) s (fun _ => I) fun _ => I := lands_onPanic h fun _ s' hs' => hc s' hs'

theorem preserves_pure {a : α} : Preserves I (pure a : Exec ε σ α) := fun _ hs => lands_pure.mpr hs

theorem preserves_throw {e : ε} : Preserves I (throw e : Exec ε σ α) := fun _ hs => lands_throw.mpr hs

theorem preserves_wrap : Preserves I (wrap : Exec ε σ Unit) := fun _ hs => lands_wrap.mpr hs

theorem Preserves.bind (h : Preserves I m) (hf : ∀ a, Preserves I (f a)) : Preserves I (m >>= f) :=
  fun s hs => (h s hs).andThen hf

theorem Preserves.onPanic {cleanup : Exec ε σ Unit} (h : Preserves I m) (hc : Preserves I cleanup) :
    Preserves I (onPanic m cleanup) := fun s hs => (h s hs).unwound hc

theorem preserves_ite {c : Prop} [Decidable c] {m' : Exec ε σ α} (h : c → Preserves I m) (h' : ¬ c → Preserves I m') :
    Preserves I (if c then m else m') := fun s hs => lands_ite.mpr ⟨fun hc => h hc s hs, fun hc => h' hc s hs⟩

theorem preserves_when {c : Prop} [Decidable c] {m : Exec ε σ Unit} (h : c → Preserves I m) : Preserves I (when c m) :=
  preserves_ite h fun _ => preserves_pure

end Exec
