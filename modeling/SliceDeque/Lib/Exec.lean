import Mathlib.Tactic.Common

/-!
# Programs with mutable state, panics and machine arithmetic

A program runs on a state and ends with a value or with a panic. The state
survives a panic. Beside the result a run reports whether some machine
operation silently wrapped around on the way: the report of a sequence is
the disjunction of the reports of its parts.
-/

set_option autoImplicit false

/-- What one run leaves: the wrap report, the value or the panic, and the state. -/
structure Outcome (ε σ α : Type) where
  wrapped : Bool
  result : Except ε α
  state : σ

def Exec (ε σ α : Type) : Type := σ → Outcome ε σ α

namespace Exec
variable {ε σ τ α β : Type}

protected def pure (a : α) : Exec ε σ α := fun s => ⟨false, .ok a, s⟩

protected def bind (m : Exec ε σ α) (f : α → Exec ε σ β) : Exec ε σ β := fun s =>
  match (m s).result with
  | .ok a =>
    let o := f a (m s).state
    ⟨(m s).wrapped || o.wrapped, o.result, o.state⟩
  | .error e => ⟨(m s).wrapped, .error e, (m s).state⟩

-- `pure` and `bind` are definitions of their own, so that comparing two
-- programs compares their parts before it runs them.
instance : Monad (Exec ε σ) where
  pure := Exec.pure
  bind := Exec.bind

def get : Exec ε σ σ := fun s => ⟨false, .ok s, s⟩

def modify (f : σ → σ) : Exec ε σ Unit := fun s => ⟨false, .ok (), f s⟩

def throw (e : ε) : Exec ε σ α := fun s => ⟨false, .error e, s⟩

def when (c : Prop) [Decidable c] (m : Exec ε σ Unit) : Exec ε σ Unit := if c then m else pure ()

/-- Report that an operation wrapped around. -/
def wrap : Exec ε σ Unit := fun s => ⟨true, .ok (), s⟩

/-- Run `cleanup` while a panic of `m` unwinds. The first panic is the one that is reported. -/
def onPanic (m : Exec ε σ α) (cleanup : Exec ε σ Unit) : Exec ε σ α := fun s =>
  match (m s).result with
  | .ok _ => m s
  | .error e =>
    let o := cleanup (m s).state
    ⟨(m s).wrapped || o.wrapped, .error e, o.state⟩

/-- Run a program on a part of the state. -/
def zoom (part : σ → τ) (put : σ → τ → σ) (m : Exec ε τ α) : Exec ε σ α := fun s =>
  let o := m (part s)
  ⟨o.wrapped, o.result, put s o.state⟩

/-- Run a body for every element of a list, in order. -/
def forEach (f : α → Exec ε σ Unit) : List α → Exec ε σ Unit
  | [] => pure ()
  | a :: as => do
    f a
    forEach f as

/-! ## Weakest preconditions

`wp m s Q P`: unless some operation wraps, the run of `m` from `s` ends with
a value and state in `Q` or with a panic and state in `P`. -/

structure wp (m : Exec ε σ α) (s : σ) (Q : α → σ → Prop) (P : ε → σ → Prop) : Prop where
  ends : (m s).wrapped = false →
    match (m s).result with
    | .ok a => Q a (m s).state
    | .error e => P e (m s).state

variable {m : Exec ε σ α} {f : α → Exec ε σ β} {s : σ}
variable {Q Q' : α → σ → Prop} {P P' : ε → σ → Prop} {R : β → σ → Prop}

theorem wp_mono (h : wp m s Q P) (hQ : ∀ a s', Q a s' → Q' a s')
    (hP : ∀ e s', P e s' → P' e s') : wp m s Q' P' := by
  refine ⟨fun hw => ?_⟩
  have h := h.ends hw
  revert h
  cases (m s).result with
  | ok a => exact hQ a _
  | error e => exact hP e _

theorem wp_and (h : wp m s Q P) (h' : wp m s Q' P') :
    wp m s (fun a s' => Q a s' ∧ Q' a s') fun e s' => P e s' ∧ P' e s' := by
  refine ⟨fun hw => ?_⟩
  have h := h.ends hw
  have h' := h'.ends hw
  revert h h'
  cases (m s).result with
  | ok a => exact And.intro
  | error e => exact And.intro

theorem wp_trivial (m : Exec ε σ α) (s : σ) : wp m s (fun _ _ => True) fun _ _ => True :=
  ⟨fun _ => by cases (m s).result <;> trivial⟩

@[simp] theorem wp_pure {a : α} : wp (pure a) s Q P ↔ Q a s :=
  ⟨fun h => h.ends rfl, fun h => ⟨fun _ => h⟩⟩

@[simp] theorem wp_get {Q : σ → σ → Prop} : wp get s Q P ↔ Q s s :=
  ⟨fun h => h.ends rfl, fun h => ⟨fun _ => h⟩⟩

@[simp] theorem wp_modify {g : σ → σ} {Q : Unit → σ → Prop} :
    wp (modify g) s Q P ↔ Q () (g s) :=
  ⟨fun h => h.ends rfl, fun h => ⟨fun _ => h⟩⟩

@[simp] theorem wp_throw {e : ε} : wp (throw e) s Q P ↔ P e s :=
  ⟨fun h => h.ends rfl, fun h => ⟨fun _ => h⟩⟩

@[simp] theorem wp_wrap {Q : Unit → σ → Prop} : wp wrap s Q P ↔ True :=
  ⟨fun _ => trivial, fun _ => ⟨fun hw => absurd hw (by simp [wrap])⟩⟩

theorem bind_apply (m : Exec ε σ α) (f : α → Exec ε σ β) (s : σ) :
    (m >>= f) s = match (m s).result with
      | .ok a => ⟨(m s).wrapped || (f a (m s).state).wrapped, (f a (m s).state).result,
          (f a (m s).state).state⟩
      | .error e => ⟨(m s).wrapped, .error e, (m s).state⟩ := rfl

theorem bind_bind {γ : Type} (m : Exec ε σ α) (f : α → Exec ε σ β) (g : β → Exec ε σ γ) :
    (m >>= f) >>= g = m >>= fun a => f a >>= g := by
  funext s
  rw [bind_apply, bind_apply m, bind_apply m]
  cases (m s).result with
  | error e => rfl
  | ok a =>
    simp only [bind_apply (f a)]
    cases (f a (m s).state).result with
    | error e => rfl
    | ok b => simp [Bool.or_assoc]

@[simp] theorem wp_bind :
    wp (m >>= f) s R P ↔ wp m s (fun a s' => wp (f a) s' R P) P := by
  constructor
  · rintro ⟨h⟩
    rw [bind_apply] at h
    refine ⟨fun hw => ?_⟩
    revert h
    cases (m s).result with
    | ok a => exact fun h => ⟨fun hf => h (by simp [hw, hf])⟩
    | error e => exact fun h => h hw
  · rintro ⟨h⟩
    refine ⟨?_⟩
    rw [bind_apply]
    revert h
    cases (m s).result with
    | ok a =>
      intro h hw
      simp only [Bool.or_eq_false_iff] at hw
      exact (h hw.1).ends hw.2
    | error e => exact id

@[simp] theorem wp_ite {c : Prop} [Decidable c] {m' : Exec ε σ α} :
    wp (if c then m else m') s Q P ↔ (c → wp m s Q P) ∧ (¬ c → wp m' s Q P) := by
  split <;> simp_all

@[simp] theorem wp_when {c : Prop} [Decidable c] {m : Exec ε σ Unit} {Q : Unit → σ → Prop} :
    wp (when c m) s Q P ↔ (c → wp m s Q P) ∧ (¬ c → Q () s) := by
  simp [when]

theorem wp_check {c : Prop} [Decidable c] {m : Exec ε σ Unit} {Q : Unit → σ → Prop}
    (h : c → wp m s (fun _ s' => s' = s) fun _ _ => False) (hQ : Q () s) : wp (when c m) s Q P := by
  rw [wp_when]
  exact ⟨fun hc => wp_mono (h hc) (fun _ _ h => h ▸ hQ) (fun _ _ h => h.elim), fun _ => hQ⟩

/-- Sequencing with the specification of the first part. -/
theorem wp_seq (h : wp m s Q P) (hf : ∀ a s', Q a s' → wp (f a) s' R P')
    (hP : ∀ e s', P e s' → P' e s') : wp (m >>= f) s R P' :=
  wp_bind.mpr (wp_mono h hf hP)

theorem wp_onPanic {cleanup : Exec ε σ Unit} (h : wp m s Q P)
    (hc : ∀ e s', P e s' → wp cleanup s' (fun _ => P' e) (fun _ => P' e)) :
    wp (onPanic m cleanup) s Q P' := by
  obtain ⟨h⟩ := h
  refine ⟨?_⟩
  unfold onPanic
  revert h
  cases hr : (m s).result with
  | ok a => simpa only [hr] using id
  | error e =>
    intro h hw
    simp only [Bool.or_eq_false_iff] at hw
    have := (hc e _ (h hw.1)).ends hw.2
    revert this
    cases (cleanup (m s).state).result <;> exact id

theorem wp_zoom {part : σ → τ} {put : σ → τ → σ} {m : Exec ε τ α} :
    wp (zoom part put m) s Q P ↔
      wp m (part s) (fun a t => Q a (put s t)) (fun e t => P e (put s t)) :=
  ⟨fun h => ⟨h.ends⟩, fun h => ⟨h.ends⟩⟩

/-! ## Runs that end with a value

`Ends m s Q`: the run of `m` from `s` neither panics nor wraps, and ends in `Q`. -/

def Ends (m : Exec ε σ α) (s : σ) (Q : α → σ → Prop) : Prop :=
  ∃ a s', m s = ⟨false, .ok a, s'⟩ ∧ Q a s'

@[simp] theorem ends_pure {a : α} : Ends (pure a : Exec ε σ α) s Q ↔ Q a s := by
  constructor
  · rintro ⟨_, _, h, hq⟩
    cases h
    exact hq
  · exact fun h => ⟨a, s, rfl, h⟩

@[simp] theorem ends_get {Q : σ → σ → Prop} : Ends (get : Exec ε σ σ) s Q ↔ Q s s := by
  constructor
  · rintro ⟨_, _, h, hq⟩
    cases h
    exact hq
  · exact fun h => ⟨s, s, rfl, h⟩

@[simp] theorem ends_modify {g : σ → σ} {Q : Unit → σ → Prop} :
    Ends (modify g : Exec ε σ Unit) s Q ↔ Q () (g s) := by
  constructor
  · rintro ⟨_, _, h, hq⟩
    cases h
    exact hq
  · exact fun h => ⟨(), g s, rfl, h⟩

@[simp] theorem ends_bind : Ends (m >>= f) s R ↔ Ends m s fun a s' => Ends (f a) s' R := by
  constructor
  · rintro ⟨b, s', h, hq⟩
    rw [bind_apply] at h
    cases hm : m s with | mk w r t =>
    rw [hm] at h
    cases r with
    | error e => simp at h
    | ok a =>
      simp only [Outcome.mk.injEq, Bool.or_eq_false_iff] at h
      obtain ⟨⟨rfl, hw⟩, hr, hs⟩ := h
      refine ⟨a, t, hm, b, s', ?_, hq⟩
      rw [← hw, ← hr, ← hs]
  · rintro ⟨a, t, hm, b, s', hf, hq⟩
    refine ⟨b, s', ?_, hq⟩
    rw [bind_apply, hm]
    simp [hf]

@[simp] theorem ends_ite {c : Prop} [Decidable c] {m' : Exec ε σ α} :
    Ends (if c then m else m') s Q ↔ (c → Ends m s Q) ∧ (¬ c → Ends m' s Q) := by
  split <;> simp_all

@[simp] theorem ends_when {c : Prop} [Decidable c] {m : Exec ε σ Unit} {Q : Unit → σ → Prop} :
    Ends (when c m) s Q ↔ (c → Ends m s Q) ∧ (¬ c → Q () s) := by
  simp [when]

theorem not_ends_throw {e : ε} : ¬ Ends (throw e : Exec ε σ α) s Q := by
  intro h
  obtain ⟨a, s', h, -⟩ := h
  cases h

@[simp] theorem ends_onPanic {cleanup : Exec ε σ Unit} : Ends (onPanic m cleanup) s Q ↔ Ends m s Q := by
  unfold Ends onPanic
  cases hm : m s with | mk w r t =>
  cases r with
  | ok a => simp
  | error e => simp

theorem ends_zoom {part : σ → τ} {put : σ → τ → σ} {m : Exec ε τ α} :
    Ends (zoom part put m) s Q ↔ Ends m (part s) fun a t => Q a (put s t) := by
  unfold Ends zoom
  cases hm : m (part s) with | mk w r t =>
  constructor
  · intro h
    obtain ⟨a, s', h, hq⟩ := h
    simp only [Outcome.mk.injEq] at h
    obtain ⟨rfl, rfl, rfl⟩ := h
    exact ⟨a, t, rfl, hq⟩
  · intro h
    obtain ⟨a, t', h, hq⟩ := h
    cases h
    exact ⟨a, put s t, rfl, hq⟩

theorem ends_mono (h : Ends m s Q) (hQ : ∀ a s', Q a s' → Q' a s') : Ends m s Q' := by
  obtain ⟨a, s', hm, hq⟩ := h
  exact ⟨a, s', hm, hQ a s' hq⟩

theorem ends_eq_iff {m : Exec ε σ Unit} {t : σ} : Ends m s (fun _ s' => s' = t) ↔ m s = ⟨false, .ok (), t⟩ := by
  constructor
  · intro h
    obtain ⟨⟨⟩, _, hm, rfl⟩ := h
    exact hm
  · exact fun hm => ⟨(), t, hm, rfl⟩

theorem Ends.at_iff {m : Exec ε σ Unit} {t : σ} {R : Unit → σ → Prop} (h : Ends m s fun _ s' => s' = t) :
    Ends m s R ↔ R () t := by
  have hm := ends_eq_iff.mp h
  constructor
  · intro hends
    obtain ⟨_, _, he, hr⟩ := hends
    rw [hm] at he
    cases he
    exact hr
  · exact fun hr => ⟨(), t, hm, hr⟩

theorem Ends.unique (h : Ends m s Q) (h' : Ends m s Q') : Ends m s fun a s' => Q a s' ∧ Q' a s' := by
  obtain ⟨a, s', hm, hq⟩ := h
  obtain ⟨b, t, hm', hq'⟩ := h'
  rw [hm] at hm'
  cases hm'
  exact ⟨a, s', hm, hq, hq'⟩

/-- Sequencing when it is known how the first part ends. -/
theorem ends_bind_iff {c : Prop} (h : Ends m s Q) (hf : ∀ a s', Q a s' → (Ends (f a) s' R ↔ c)) :
    Ends (m >>= f) s R ↔ c := by
  rw [ends_bind]
  constructor
  · intro hends
    obtain ⟨a, s', -, hq, hr⟩ := h.unique hends
    exact (hf a s' hq).mp hr
  · exact fun hc => ends_mono h fun a s' hq => (hf a s' hq).mpr hc

/-! ## Exact runs

`Exact m s`: no operation of the run of `m` from `s` wraps around. A program
without machine arithmetic is exact from every state. -/

def Exact (m : Exec ε σ α) (s : σ) : Prop := (m s).wrapped = false

instance : Decidable (Exact m s) := inferInstanceAs (Decidable ((m s).wrapped = false))

@[simp] theorem exact_pure {a : α} : Exact (pure a : Exec ε σ α) s := rfl

@[simp] theorem exact_get : Exact (get : Exec ε σ σ) s := rfl

@[simp] theorem exact_modify {g : σ → σ} : Exact (modify g : Exec ε σ Unit) s := rfl

@[simp] theorem exact_throw {e : ε} : Exact (throw e : Exec ε σ α) s := rfl

/-- What holds however a run ends. -/
theorem wp_state {R : σ → Prop} (hm : Exact m s) (h : wp m s (fun _ => R) fun _ => R) : R (m s).state := by
  have h := h.ends hm
  revert h
  cases (m s).result <;> exact id

theorem exact_seq (hm : Exact m s) (h : wp m s Q P) (hf : ∀ a s', Q a s' → Exact (f a) s') : Exact (m >>= f) s := by
  have h := h.ends hm
  unfold Exact at *
  rw [bind_apply]
  revert h
  cases (m s).result with
  | ok a => exact fun h => by simp [hm, hf a _ h]
  | error e => exact fun _ => hm

theorem exact_bind (hm : Exact m s) (hf : ∀ a s', Exact (f a) s') : Exact (m >>= f) s :=
  exact_seq hm (wp_trivial m s) fun a s' _ => hf a s'

theorem exact_pure_bind {a : α} (h : Exact (f a) s) : Exact (pure a >>= f) s := by
  apply exact_seq (Q := fun b s' => b = a ∧ s' = s) (P := fun _ _ => False) exact_pure (wp_pure.mpr ⟨rfl, rfl⟩)
  rintro _ _ ⟨rfl, rfl⟩
  exact h

theorem exact_ite {c : Prop} [Decidable c] {m' : Exec ε σ α} (h : c → Exact m s) (h' : ¬ c → Exact m' s) :
    Exact (if c then m else m') s := by
  split
  · exact h ‹_›
  · exact h' ‹_›

theorem exact_when {c : Prop} [Decidable c] {m : Exec ε σ Unit} (h : c → Exact m s) : Exact (when c m) s :=
  exact_ite h fun _ => exact_pure

theorem exact_unwind {cleanup : Exec ε σ Unit} (hm : Exact m s) (h : wp m s Q P)
    (hc : ∀ e s', P e s' → Exact cleanup s') : Exact (onPanic m cleanup) s := by
  have h := h.ends hm
  unfold Exact onPanic at *
  revert h
  cases (m s).result with
  | ok a => exact fun _ => hm
  | error e => exact fun h => by simp [hm, hc e _ h]

theorem exact_onPanic {cleanup : Exec ε σ Unit} (hm : Exact m s) (hc : ∀ s', Exact cleanup s') :
    Exact (onPanic m cleanup) s :=
  exact_unwind hm (wp_trivial m s) fun _ s' _ => hc s'

theorem exact_zoom {part : σ → τ} {put : σ → τ → σ} {m : Exec ε τ α} (h : Exact m (part s)) :
    Exact (zoom part put m) s := h

/-- A run that is exact and cannot panic ends with a value. -/
theorem ends_iff : Ends m s Q ↔ Exact m s ∧ wp m s Q fun _ _ => False := by
  constructor
  · rintro ⟨a, s', h, hq⟩
    exact ⟨by rw [Exact, h], ⟨fun _ => by rw [h]; exact hq⟩⟩
  · rintro ⟨hw, h⟩
    have h := h.ends hw
    revert h
    cases hm : m s with | mk w r t =>
    rw [Exact, hm] at hw
    subst hw
    cases r with
    | ok a => exact fun h => ⟨a, t, hm, h⟩
    | error e => exact False.elim

/-- What a specification says about a run that ends with a value. -/
theorem Ends.wp {Q' : α → σ → Prop} (h : Ends m s Q) (hwp : Exec.wp m s Q' P) : Ends m s Q' := by
  obtain ⟨a, s', hm, -⟩ := h
  have hends := hwp.ends (by rw [hm])
  rw [hm] at hends
  exact ⟨a, s', hm, hends⟩

/-- A program that ends with a value exactly if `c` holds, and then always in the same way. -/
theorem ends_iff_of_wp {c : Prop} {a : α} {t : σ} (hm : Exact m s)
    (h : wp m s (fun b s' => c ∧ b = a ∧ s' = t) fun _ _ => ¬ c) : Ends m s Q ↔ c ∧ Q a t := by
  constructor
  · intro hends
    obtain ⟨_, _, -, ⟨hc, rfl, rfl⟩, hq⟩ := (hends.wp h).unique hends
    exact ⟨hc, hq⟩
  · rintro ⟨hc, hq⟩
    refine ends_iff.mpr ⟨hm, wp_mono h ?_ fun _ _ hn => hn hc⟩
    rintro _ _ ⟨-, rfl, rfl⟩
    exact hq

/-- A run that does not end with a value panics or wraps around. -/
theorem wp_of_not_ends (h : ¬ Ends m s fun _ _ => True) (hwp : wp m s Q P) : wp m s Q' P := by
  refine ⟨fun hw => ?_⟩
  have hends := hwp.ends hw
  revert h hends
  cases hm : m s with | mk w r t =>
  rw [hm] at hw
  subst hw
  cases r with
  | ok a => exact fun h _ => absurd ⟨a, t, hm, trivial⟩ h
  | error e => exact fun _ => id

/-! ## Runs that may wrap around

`Lands m s Q P`: the run of `m` from `s` ends with a value and state in `Q` or
with a panic and state in `P`, whether or not some operation wraps. -/

structure Lands (m : Exec ε σ α) (s : σ) (Q : α → σ → Prop) (P : ε → σ → Prop) : Prop where
  ends : match (m s).result with
    | .ok a => Q a (m s).state
    | .error e => P e (m s).state

theorem lands_trivial (m : Exec ε σ α) (s : σ) : Lands m s (fun _ _ => True) fun _ _ => True :=
  ⟨by cases (m s).result <;> trivial⟩

theorem lands_of_exact (hm : Exact m s) (h : wp m s Q P) : Lands m s Q P := ⟨h.ends hm⟩

theorem Ends.lands (h : Ends m s Q) : Lands m s Q P := by
  obtain ⟨a, s', hm, hq⟩ := h
  refine ⟨?_⟩
  rw [hm]
  exact hq

@[simp] theorem lands_pure {a : α} : Lands (pure a) s Q P ↔ Q a s := ⟨fun h => h.ends, fun h => ⟨h⟩⟩

@[simp] theorem lands_get {Q : σ → σ → Prop} : Lands get s Q P ↔ Q s s := ⟨fun h => h.ends, fun h => ⟨h⟩⟩

@[simp] theorem lands_modify {g : σ → σ} {Q : Unit → σ → Prop} : Lands (modify g) s Q P ↔ Q () (g s) :=
  ⟨fun h => h.ends, fun h => ⟨h⟩⟩

@[simp] theorem lands_throw {e : ε} : Lands (throw e) s Q P ↔ P e s := ⟨fun h => h.ends, fun h => ⟨h⟩⟩

@[simp] theorem lands_wrap {Q : Unit → σ → Prop} : Lands wrap s Q P ↔ Q () s := ⟨fun h => h.ends, fun h => ⟨h⟩⟩

@[simp] theorem lands_bind : Lands (m >>= f) s R P ↔ Lands m s (fun a s' => Lands (f a) s' R P) P := by
  constructor
  · rintro ⟨h⟩
    rw [bind_apply] at h
    refine ⟨?_⟩
    revert h
    cases (m s).result with
    | ok a => exact fun h => ⟨h⟩
    | error e => exact id
  · rintro ⟨h⟩
    refine ⟨?_⟩
    rw [bind_apply]
    revert h
    cases (m s).result with
    | ok a => exact fun h => h.ends
    | error e => exact id

@[simp] theorem lands_ite {c : Prop} [Decidable c] {m' : Exec ε σ α} :
    Lands (if c then m else m') s Q P ↔ (c → Lands m s Q P) ∧ (¬ c → Lands m' s Q P) := by
  split <;> simp_all

@[simp] theorem lands_when {c : Prop} [Decidable c] {m : Exec ε σ Unit} {Q : Unit → σ → Prop} :
    Lands (when c m) s Q P ↔ (c → Lands m s Q P) ∧ (¬ c → Q () s) := by
  simp [when]

theorem lands_zoom {part : σ → τ} {put : σ → τ → σ} {m : Exec ε τ α} :
    Lands (zoom part put m) s Q P ↔ Lands m (part s) (fun a t => Q a (put s t)) fun e t => P e (put s t) :=
  ⟨fun h => ⟨h.ends⟩, fun h => ⟨h.ends⟩⟩

theorem lands_onPanic {cleanup : Exec ε σ Unit} (h : Lands m s Q P)
    (hc : ∀ e s', P e s' → Lands cleanup s' (fun _ => P' e) fun _ => P' e) : Lands (onPanic m cleanup) s Q P' := by
  obtain ⟨h⟩ := h
  refine ⟨?_⟩
  unfold onPanic
  revert h
  cases hr : (m s).result with
  | ok a => simpa only [hr] using id
  | error e =>
    intro h
    have := (hc e _ h).ends
    revert this
    cases (cleanup (m s).state).result <;> exact id

theorem lands_mono (h : Lands m s Q P) (hQ : ∀ a s', Q a s' → Q' a s') (hP : ∀ e s', P e s' → P' e s') :
    Lands m s Q' P' := by
  obtain ⟨h⟩ := h
  refine ⟨?_⟩
  revert h
  cases (m s).result with
  | ok a => exact hQ a _
  | error e => exact hP e _

theorem Lands.inter (h : Lands m s Q P) (h' : Lands m s Q' P') :
    Lands m s (fun a s' => Q a s' ∧ Q' a s') fun e s' => P e s' ∧ P' e s' := by
  obtain ⟨h⟩ := h
  obtain ⟨h'⟩ := h'
  refine ⟨?_⟩
  revert h h'
  cases (m s).result with
  | ok a => exact And.intro
  | error e => exact And.intro

theorem Lands.of_false {c : Prop} (h : Lands m s (fun _ _ => c) fun _ _ => c) : c := by
  obtain ⟨h⟩ := h
  revert h
  cases (m s).result <;> exact id

/-! ## Runs whose outcome is known

`Does m s Q P`: no operation of the run of `m` from `s` wraps around, and it
ends with a value and state in `Q` or with a panic and state in `P`. -/

structure Does (m : Exec ε σ α) (s : σ) (Q : α → σ → Prop) (P : ε → σ → Prop) : Prop where
  exact : Exact m s
  wp : Exec.wp m s Q P

theorem Does.mono (h : Does m s Q P) (hQ : ∀ a s', Q a s' → Q' a s') (hP : ∀ e s', P e s' → P' e s') :
    Does m s Q' P' := ⟨h.exact, wp_mono h.wp hQ hP⟩

theorem Ends.does (h : Ends m s Q) : Does m s Q P := by
  obtain ⟨hm, hwp⟩ := ends_iff.mp h
  exact ⟨hm, wp_mono hwp (fun _ _ => id) fun _ _ => False.elim⟩

theorem does_pure {a : α} (h : Q a s) : Does (pure a) s Q P := ⟨exact_pure, wp_pure.mpr h⟩

theorem does_bind (h : Does m s Q P) (hf : ∀ a s', Q a s' → Does (f a) s' R P) : Does (m >>= f) s R P :=
  ⟨exact_seq h.exact h.wp fun a s' hq => (hf a s' hq).exact, wp_bind.mpr (wp_mono h.wp (fun a s' hq => (hf a s' hq).wp) fun _ _ => id)⟩

theorem does_ite {c : Prop} [Decidable c] {m' : Exec ε σ α} (h : c → Does m s Q P) (h' : ¬ c → Does m' s Q P) :
    Does (if c then m else m') s Q P := by
  split
  · exact h ‹_›
  · exact h' ‹_›

theorem does_onPanic {cleanup : Exec ε σ Unit} (h : Does m s Q P)
    (hc : ∀ e s', P e s' → Does cleanup s' (fun _ => P' e) fun _ => P' e) : Does (onPanic m cleanup) s Q P' :=
  ⟨exact_unwind h.exact h.wp fun e s' hp => (hc e s' hp).exact, wp_onPanic h.wp fun e s' hp => (hc e s' hp).wp⟩

theorem Does.outcome (h : Does m s Q P) :
    Does m s (fun a s' => m s = ⟨false, .ok a, s'⟩ ∧ Q a s') fun e s' => m s = ⟨false, .error e, s'⟩ ∧ P e s' := by
  obtain ⟨hm, h⟩ := h
  refine ⟨hm, ⟨fun hw => ?_⟩⟩
  have h := h.ends hw
  revert h
  cases hr : m s with | mk w r t =>
  rw [Exact, hr] at hm
  subst hm
  cases r with
  | ok a => exact fun h => ⟨rfl, h⟩
  | error e => exact fun h => ⟨rfl, h⟩

/-- A run whose result is known beforehand. -/
theorem Does.result_eq {r : Except ε α} {R : σ → Prop}
    (h : Does m s (fun a s' => r = .ok a ∧ R s') fun e s' => r = .error e ∧ R s') : (m s).result = r ∧ R (m s).state := by
  have hends := h.wp.ends h.exact
  revert hends
  cases (m s).result with
  | ok a => exact fun h => ⟨h.1.symm, h.2⟩
  | error e => exact fun h => ⟨h.1.symm, h.2⟩

/-- Some operation of a run without an outcome wraps around. -/
theorem not_exact_of_wp (h : wp m s (fun _ _ => False) fun _ _ => False) : ¬ Exact m s :=
  fun hm => wp_state (R := fun _ => False) hm h

theorem does_iff {c : Prop} (hm : c → Exact m s) (h : wp m s Q P) (hw : ¬ c → wp m s (fun _ _ => False) fun _ _ => False) :
    Does m s Q P ↔ c :=
  ⟨fun hd => by_contra fun hc => not_exact_of_wp (hw hc) hd.exact, fun hc => ⟨hm hc, h⟩⟩

end Exec
