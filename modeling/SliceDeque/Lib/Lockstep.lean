import SliceDeque.Lib.Runs

/-!
# Two runs in lockstep

`Lockstep R A m m'`: from states related by `R` the programs `m` and `m'` end in
states related by `R`, with values related by `A` or with the same panic, and
one wraps around if the other does.
-/

set_option autoImplicit false

namespace Exec
variable {ε σ σ' τ τ' α α' β β' Op : Type}

/-- Related values, or the same panic. -/
inductive Agree (A : α → α' → Prop) : Except ε α → Except ε α' → Prop
  | ok {a : α} {a' : α'} (h : A a a') : Agree A (.ok a) (.ok a')
  | error (e : ε) : Agree A (.error e) (.error e)

theorem Agree.eq {r r' : Except ε α} (h : Agree Eq r r') : r = r' := by
  cases h with
  | ok h => rw [h]
  | error e => rfl

structure Lockstep (R : σ → σ' → Prop) (A : α → α' → Prop) (m : Exec ε σ α) (m' : Exec ε σ' α') : Prop where
  run : ∀ s s', R s s' →
    (m s).wrapped = (m' s').wrapped ∧ Agree A (m s).result (m' s').result ∧ R (m s).state (m' s').state

namespace Lockstep
variable {R : σ → σ' → Prop} {S : τ → τ' → Prop} {A : α → α' → Prop} {B : β → β' → Prop} {m : Exec ε σ α} {m' : Exec ε σ' α'}
variable {f : α → Exec ε σ β} {f' : α' → Exec ε σ' β'}

theorem refl (m : Exec ε σ α) : Lockstep Eq Eq m m := by
  refine ⟨?_⟩
  intro s _ h
  rw [← h]
  refine ⟨rfl, ?_, rfl⟩
  cases (m s).result with
  | ok a => exact .ok rfl
  | error e => exact .error e

theorem pure {a : α} {a' : α'} (h : A a a') : Lockstep (ε := ε) R A (Pure.pure a) (Pure.pure a') :=
  ⟨fun _ _ hR => ⟨rfl, .ok h, hR⟩⟩

theorem throw (e : ε) : Lockstep R A (Exec.throw e) (Exec.throw e) :=
  ⟨fun _ _ hR => ⟨rfl, .error e, hR⟩⟩

theorem wrap : Lockstep (ε := ε) R Eq Exec.wrap Exec.wrap :=
  ⟨fun _ _ hR => ⟨rfl, .ok rfl, hR⟩⟩

theorem get : Lockstep (ε := ε) R R Exec.get Exec.get :=
  ⟨fun _ _ hR => ⟨rfl, .ok hR, hR⟩⟩

theorem modify {g : σ → σ} {g' : σ' → σ'} (h : ∀ s s', R s s' → R (g s) (g' s')) :
    Lockstep (ε := ε) R Eq (Exec.modify g) (Exec.modify g') :=
  ⟨fun s s' hR => ⟨rfl, .ok rfl, h s s' hR⟩⟩

theorem bind (h : Lockstep R A m m') (hf : ∀ a a', A a a' → Lockstep R B (f a) (f' a')) :
    Lockstep R B (m >>= f) (m' >>= f') := by
  refine ⟨fun s s' hR => ?_⟩
  obtain ⟨hw, hr, hs⟩ := h.run s s' hR
  rw [bind_apply, bind_apply]
  cases hm : m s with | mk w r t =>
  cases hm' : m' s' with | mk w' r' t' =>
  rw [hm, hm'] at hw hr hs
  cases hr with
  | error e => exact ⟨hw, .error e, hs⟩
  | ok ha =>
    obtain ⟨hw₁, hr₁, hs₁⟩ := (hf _ _ ha).run t t' hs
    exact ⟨congrArg₂ or hw hw₁, hr₁, hs₁⟩

theorem ite {c : Prop} [Decidable c] {n : Exec ε σ α} {n' : Exec ε σ' α'} (h : c → Lockstep R A m m')
    (h' : ¬ c → Lockstep R A n n') : Lockstep R A (if c then m else n) (if c then m' else n') := by
  split
  · exact h ‹_›
  · exact h' ‹_›

theorem when {c : Prop} [Decidable c] {m : Exec ε σ Unit} {m' : Exec ε σ' Unit} (h : Lockstep R Eq m m') :
    Lockstep R Eq (Exec.when c m) (Exec.when c m') := ite (fun _ => h) fun _ => pure rfl

theorem onPanic {c : Exec ε σ Unit} {c' : Exec ε σ' Unit} (h : Lockstep R A m m') (hc : Lockstep R Eq c c') :
    Lockstep R A (Exec.onPanic m c) (Exec.onPanic m' c') := by
  refine ⟨fun s s' hR => ?_⟩
  obtain ⟨hw, hr, hs⟩ := h.run s s' hR
  unfold Exec.onPanic
  cases hm : m s with | mk w r t =>
  cases hm' : m' s' with | mk w' r' t' =>
  rw [hm, hm'] at hw hr hs
  cases hr with
  | ok ha => exact ⟨hw, .ok ha, hs⟩
  | error e =>
    obtain ⟨hw₁, -, hs₁⟩ := hc.run t t' hs
    exact ⟨congrArg₂ or hw hw₁, .error e, hs₁⟩

theorem zoom {part : σ → τ} {put : σ → τ → σ} {part' : σ' → τ'} {put' : σ' → τ' → σ'} {m : Exec ε τ α} {m' : Exec ε τ' α'}
    (hm : Lockstep S A m m') (hpart : ∀ s s', R s s' → S (part s) (part' s'))
    (hput : ∀ s s' t t', R s s' → S t t' → R (put s t) (put' s' t')) :
    Lockstep R A (Exec.zoom part put m) (Exec.zoom part' put' m') := by
  refine ⟨fun s s' hR => ?_⟩
  obtain ⟨hw, hr, hs⟩ := hm.run _ _ (hpart s s' hR)
  exact ⟨hw, hr, hput _ _ _ _ hR hs⟩

theorem runs {R : σ → σ' → Prop} {step : Op → Exec ε σ α} {step' : Op → Exec ε σ' α} (h : ∀ op, Lockstep R Eq (step op) (step' op)) :
    ∀ (ops : List Op) (s : σ) (s' : σ'), R s s' →
      results step ops s = results step' ops s' ∧ R (final step ops s) (final step' ops s') := by
  intro ops
  induction ops with
  | nil => exact fun s s' hR => ⟨rfl, hR⟩
  | cons op ops ih =>
    intro s s' hR
    obtain ⟨-, hr, hs⟩ := (h op).run s s' hR
    obtain ⟨hresults, hfinal⟩ := ih _ _ hs
    refine ⟨?_, hfinal⟩
    rw [results, results, hr.eq, hresults]

end Lockstep

end Exec
