import SliceDeque.Lib.Exec

/-!
# Runs of operations

A run performs operations one after the other. A panic ends its operation, not
the run. What every step preserves holds in every state that is reached; what
every step has in common with a step of a specification, all runs have.
-/

set_option autoImplicit false

namespace Exec
variable {ε σ τ α β Op : Type} (step : Op → Exec ε σ α)

/-- The state after the operations. -/
def final : List Op → σ → σ
  | [], s => s
  | op :: ops, s => final ops (step op s).state

/-- What the operations return. -/
def results : List Op → σ → List (Except ε α)
  | [], _ => []
  | op :: ops, s => (step op s).result :: results ops (step op s).state

/-- Every step of the run satisfies `P`, which sees the operation and the state before it. -/
def Always (P : Op → σ → Prop) : List Op → σ → Prop
  | [], _ => True
  | op :: ops, s => P op s ∧ Always P ops (step op s).state

instance {P : Op → σ → Prop} [∀ op s, Decidable (P op s)] : ∀ ops s, Decidable (Always step P ops s)
  | [], _ => isTrue trivial
  | op :: ops, s =>
    have : Decidable (Always step P ops (step op s).state) := instDecidableAlways ops _
    inferInstanceAs (Decidable (_ ∧ _))

section Specification
variable (spec : Op → τ → β × τ)

def specFinal : List Op → τ → τ
  | [], t => t
  | op :: ops, t => specFinal ops (spec op t).2

def specResults : List Op → τ → List β
  | [], _ => []
  | op :: ops, t => (spec op t).1 :: specResults ops (spec op t).2

end Specification

variable {step} {spec : Op → τ → β × τ} {I : σ → Prop} {P Q : Op → σ → Prop} {R : σ → τ → Prop}
variable {M : Except ε α → β → Prop}

theorem final_append (ops ops' : List Op) (s : σ) :
    final step (ops ++ ops') s = final step ops' (final step ops s) := by
  induction ops generalizing s with
  | nil => rfl
  | cons op ops ih => exact ih _

theorem always_append {ops ops' : List Op} {s : σ} :
    Always step P (ops ++ ops') s ↔ Always step P ops s ∧ Always step P ops' (final step ops s) := by
  induction ops generalizing s with
  | nil => simp [Always, final]
  | cons op ops ih => simp [Always, final, ih, and_assoc]

theorem always_of_forall (h : ∀ op s, P op s) (ops : List Op) (s : σ) : Always step P ops s := by
  induction ops generalizing s with
  | nil => trivial
  | cons op ops ih => exact ⟨h op s, ih _⟩

theorem always_and_of_mem {R : Op → Prop} {ops : List Op} {s : σ} (h : Always step P ops s) (hR : ∀ op ∈ ops, R op) :
    Always step (fun op s => P op s ∧ R op) ops s := by
  induction ops generalizing s with
  | nil => trivial
  | cons op ops ih =>
    exact ⟨⟨h.1, hR op List.mem_cons_self⟩, ih h.2 fun op' hop => hR op' (List.mem_cons_of_mem _ hop)⟩

/-- What every step preserves holds at the end of every run. -/
theorem final_invariant (hstep : ∀ op s, I s → P op s → I (step op s).state) :
    ∀ (ops : List Op) (s : σ), I s → Always step P ops s → I (final step ops s) := by
  intro ops
  induction ops with
  | nil => exact fun s h _ => h
  | cons op ops ih => exact fun s h hP => ih _ (hstep op s h hP.1) hP.2

/-- A property of the steps that follows from the invariant holds of every step. -/
theorem always_of_invariant (hstep : ∀ op s, I s → P op s → I (step op s).state)
    (hQ : ∀ op s, I s → P op s → Q op s) :
    ∀ (ops : List Op) (s : σ), I s → Always step P ops s → Always step Q ops s := by
  intro ops
  induction ops with
  | nil => exact fun _ _ _ => trivial
  | cons op ops ih => exact fun s h hP => ⟨hQ op s h hP.1, ih _ (hstep op s h hP.1) hP.2⟩

theorem exists_of_mem_results {r : Except ε α} {ops : List Op} {s : σ} (h : Always step P ops s) (hr : r ∈ results step ops s) :
    ∃ op t, P op t ∧ (step op t).result = r := by
  induction ops generalizing s with
  | nil => exact absurd hr List.not_mem_nil
  | cons op ops ih =>
    rcases List.mem_cons.mp hr with rfl | hr
    · exact ⟨op, s, h.1, rfl⟩
    · exact ih h.2 hr

/-- Steps that agree with a specification make runs that agree with it. -/
theorem simulation (hstep : ∀ op s t, R s t → P op s →
      M (step op s).result (spec op t).1 ∧ R (step op s).state (spec op t).2) :
    ∀ (ops : List Op) (s : σ) (t : τ), R s t → Always step P ops s →
      List.Forall₂ M (results step ops s) (specResults spec ops t) ∧ R (final step ops s) (specFinal spec ops t) := by
  intro ops
  induction ops with
  | nil => exact fun s t h _ => ⟨.nil, h⟩
  | cons op ops ih =>
    intro s t h hP
    obtain ⟨hM, hR⟩ := hstep op s t h hP.1
    obtain ⟨hMs, hRs⟩ := ih _ _ hR hP.2
    exact ⟨.cons hM hMs, hRs⟩

/-- A run of a nondeterministic specification, with what it returns. -/
inductive Path {ρ : Type} (spec : Op → τ → ρ → τ → Prop) : List Op → τ → List ρ → τ → Prop where
  | nil (t : τ) : Path spec [] t [] t
  | cons {op : Op} {ops : List Op} {t t' t'' : τ} {r : ρ} {rs : List ρ} :
      spec op t r t' → Path spec ops t' rs t'' → Path spec (op :: ops) t (r :: rs) t''

/-- Forward simulation: steps that a nondeterministic specification allows make runs that it allows. -/
theorem refinement {spec : Op → τ → Except ε α → τ → Prop} (hstep : ∀ op s t, R s t → P op s →
      ∃ t', spec op t (step op s).result t' ∧ R (step op s).state t') :
    ∀ (ops : List Op) (s : σ) (t : τ), R s t → Always step P ops s →
      ∃ t', Path spec ops t (results step ops s) t' ∧ R (final step ops s) t' := by
  intro ops
  induction ops with
  | nil => exact fun s t h _ => ⟨t, .nil t, h⟩
  | cons op ops ih =>
    intro s t h hP
    obtain ⟨t', hspec, hR⟩ := hstep op s t h hP.1
    obtain ⟨t'', hpath, hR'⟩ := ih _ _ hR hP.2
    exact ⟨t'', .cons hspec hpath, hR'⟩

/-- Steps that never fail return what the specification returns. -/
theorem results_eq_map {rs : List (Except ε β)} {bs : List β} (h : List.Forall₂ (fun r b => r = .ok b) rs bs) :
    rs = bs.map .ok := by
  induction h with
  | nil => rfl
  | cons h _ ih => rw [h, ih, List.map_cons]

end Exec
