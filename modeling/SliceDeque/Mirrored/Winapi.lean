import SliceDeque.Lib.AddressSpace
import SliceDeque.Platform

/-!
# Mirrored allocation on Windows

`src/mirrored/winapi.rs`. Each iteration of the retry loop meets its own
outcomes: other threads may take the range between `VirtualFree` and the map
calls. `CloseHandle`, `VirtualFree` and `UnmapViewOfFile` succeed.
-/

set_option autoImplicit false

namespace Sdeq.Winapi
open Exec

/-- The outcomes of the calls, by iteration of the retry loop. -/
structure Kernel where
  granularity : Nat
  createFileMapping : Option Int
  virtualAlloc : Nat → Option Int
  mapFirst : Nat → Bool
  mapSecond : Nat → Bool
  /-- the section object behind the new handle -/
  sectionId : Nat

/-- Open handles, and views by their base address: section and size. -/
structure Process where
  handles : Int → Option Nat
  views : Int → Option (Nat × Nat)
  reserved : Int → Option Nat

abbrev Sys (α : Type) : Type := Exec Panic Process α

namespace Process

def withHandle (p : Process) (h : Int) (sec : Nat) : Process :=
  { p with handles := fun x => if x = h then some sec else p.handles x }

def withoutHandle (p : Process) (h : Int) : Process :=
  { p with handles := fun x => if x = h then none else p.handles x }

end Process

variable (K : Kernel)

def maxNoAllocIters : Nat := 10

def createFileMapping (size : Nat) : Sys (Except AllocError Int) := do
  assert (size ≠ 0)
  assert (size % K.granularity = 0)
  match K.createFileMapping with
  | none => pure (.error .oom)
  | some h => do
    modify fun p => p.withHandle h K.sectionId
    pure (.ok h)

def closeFileMapping (h : Int) : Sys Unit := do
  assert (h ≠ 0)
  modify fun p => p.withoutHandle h

def virtualFree (a : Int) : Sys Unit :=
  modify fun p => { p with reserved := fun x => if x = a then none else p.reserved x }

def reserveVirtualMemory (noIters size : Nat) : Sys (Except AllocError Int) := do
  assert (size ≠ 0)
  assert (size % K.granularity = 0)
  match K.virtualAlloc noIters with
  | none => pure (.error .oom)
  | some a => do
    modify fun p => { p with reserved := fun x => if x = a then some size else p.reserved x }
    virtualFree a
    pure (.ok a)

/-- `granted` is the answer of `MapViewOfFileEx`. -/
def mapViewOfFile (granted : Bool) (h : Int) (size : Nat) (address : Int) : Sys Bool := do
  assert (h ≠ 0)
  assert (address ≠ 0)
  assert (size ≠ 0)
  assert (size % K.granularity = 0)
  let p ← get
  match p.handles h, granted with
  | some sec, true => do
    modify fun p => { p with views := fun x => if x = address then some (sec, size) else p.views x }
    pure true
  | _, _ => pure false

def unmapViewOfFile (address : Int) : Sys Unit := do
  assert (address ≠ 0)
  modify fun p => { p with views := fun x => if x = address then none else p.views x }

/-- The retry loop, with `left` iterations to go: `no_iters` is `11 - left`. -/
def attempts (size : Nat) (fileMapping : Int) : Nat → Sys (Except AllocError Int)
  | 0 => do
    closeFileMapping fileMapping
    pure (.error .other)
  | left + 1 => do
    let noIters := maxNoAllocIters - left
    let r ← reserveVirtualMemory K noIters size
    match r with
    -- the `?` leaves the function with the handle open
    | .error e => pure (.error e)
    | .ok virtPtr => do
      let first ← mapViewOfFile K (K.mapFirst noIters) fileMapping (size / 2) virtPtr
      if first = false then attempts size fileMapping left
      else do
        let second ← mapViewOfFile K (K.mapSecond noIters) fileMapping (size / 2) (virtPtr + (size / 2 : Nat))
        if second = false then do
          unmapViewOfFile virtPtr
          attempts size fileMapping left
        else pure (.ok virtPtr)

def allocateMirrored (size : Nat) : Sys (Except AllocError Int) := do
  assert (size ≠ 0)
  assert (size / 2 % K.granularity = 0)
  let r ← createFileMapping K (size / 2)
  match r with
  | .error e => pure (.error e)
  | .ok fileMapping => do
    let r ← attempts K size fileMapping (maxNoAllocIters + 1)
    match r with
    | .error e => pure (.error e)
    | .ok virtPtr => do
      closeFileMapping fileMapping
      pure (.ok virtPtr)

def deallocateMirrored (ptr : Int) (size : Nat) : Sys Unit := do
  assert (ptr ≠ 0)
  assert (size ≠ 0)
  assert (size % K.granularity = 0)
  unmapViewOfFile ptr
  unmapViewOfFile (ptr + (size / 2 : Nat))

/-- The objects the kernel picks are new. -/
structure Kernel.Lawful (p : Process) (size : Nat) : Prop where
  handle : ∀ h, K.createFileMapping = some h → h ≠ 0 ∧ p.handles h = none
  range : ∀ k a, K.virtualAlloc k = some a →
    0 < a ∧ p.reserved a = none ∧ p.views a = none ∧ p.views (a + (size / 2 : Nat)) = none

/-- A size the allocator accepts: a multiple of two units. -/
structure Admissible (size : Nat) : Prop where
  pos : size / 2 ≠ 0
  even : 2 * (size / 2) = size
  half_mod : size / 2 % K.granularity = 0

/-- On success two views of one section and no handle, on failure nothing. -/
def NoLeak (K : Kernel) (p : Process) (size : Nat) : Except AllocError Int → Process → Prop
  | .ok ptr, p' => p'.handles = p.handles ∧ p'.reserved = p.reserved ∧
      p'.views = fun x => if x = ptr + (size / 2 : Nat) then some (K.sectionId, size / 2)
        else if x = ptr then some (K.sectionId, size / 2) else p.views x
  | .error _, p' => p'.handles = p.handles ∧ p'.reserved = p.reserved ∧ p'.views = p.views

/-- Iteration `k` reserves a range and loses it. -/
def Retried (k : Nat) : Prop :=
  K.virtualAlloc k ≠ none ∧ (K.mapFirst k = false ∨ K.mapSecond k = false)

/-- The loop, entered at iteration `n`, reaches an iteration that cannot reserve a range. -/
def FailsFrom (n : Nat) : Prop :=
  ∃ k, n ≤ k ∧ k ≤ maxNoAllocIters ∧ (∀ j, n ≤ j → j < k → Retried K j) ∧ K.virtualAlloc k = none

/-- The early return of the loop is taken. -/
def ReservationFails : Prop := K.createFileMapping ≠ none ∧ FailsFrom K 0

variable {K} {p p' : Process} {size : Nat}

theorem failsFrom_succ {n : Nat} : FailsFrom K n ↔
    n ≤ maxNoAllocIters ∧ (K.virtualAlloc n = none ∨ Retried K n ∧ FailsFrom K (n + 1)) := by
  constructor
  · rintro ⟨k, hn, hk, hretry, hnone⟩
    refine ⟨by omega, ?_⟩
    rcases Nat.eq_or_lt_of_le hn with rfl | hlt
    · exact .inl hnone
    · exact .inr ⟨hretry n le_rfl hlt, k, hlt, hk, fun j hj => hretry j (by omega), hnone⟩
  · rintro ⟨hn, hnone | ⟨hr, k, hk, hk', hretry, hnone⟩⟩
    · exact ⟨n, le_rfl, hn, fun j h h' => by omega, hnone⟩
    · refine ⟨k, by omega, hk', fun j hj hjk => ?_, hnone⟩
      rcases Nat.eq_or_lt_of_le hj with rfl | hlt
      · exact hr
      · exact hretry j hlt hjk

/-- The process once both views are there. -/
def Process.withViews (q : Process) (sec half : Nat) (ptr : Int) : Process :=
  { q with views := fun x => if x = ptr + half then some (sec, half)
      else if x = ptr then some (sec, half) else q.views x }

theorem ite_ite_eq {α γ : Type} [DecidableEq α] {f : α → Option γ} {a : α} (c : γ) (h : f a = none) :
    (fun x => if x = a then none else if x = a then some c else f x) = f := by
  funext x
  by_cases hx : x = a <;> simp [hx, h]

theorem ends_reserveVirtualMemory {n : Nat} (hs : Admissible K size)
    (hr : ∀ a, K.virtualAlloc n = some a → p.reserved a = none) :
    Ends (reserveVirtualMemory K n size) p fun r p' => p' = p ∧ match r with
      | .ok a => K.virtualAlloc n = some a
      | .error _ => K.virtualAlloc n = none := by
  have hmod : size % K.granularity = 0 := by
    rw [← hs.even, Nat.mul_mod, hs.half_mod, Nat.mul_zero, Nat.zero_mod]
  have hpos := hs.pos
  simp only [reserveVirtualMemory, ends_bind, ends_assert]
  refine ⟨by omega, hmod, ?_⟩
  cases ha : K.virtualAlloc n with
  | none => simp
  | some a =>
    simp only [ends_bind, ends_modify, virtualFree, ends_pure, and_true]
    rw [ite_ite_eq size (hr a ha)]

theorem ends_mapViewOfFile {granted : Bool} {h address : Int} {half sec : Nat} (hh : h ≠ 0)
    (ha : 0 < address) (hs : half ≠ 0) (hmod : half % K.granularity = 0) (hsec : p.handles h = some sec) :
    Ends (mapViewOfFile K granted h half address) p fun ok p' => ok = granted ∧
      p' = if granted then { p with views := fun x => if x = address then some (sec, half) else p.views x }
        else p := by
  simp only [mapViewOfFile, ends_bind, ends_assert, ends_get, hsec]
  refine ⟨hh, by omega, hs, hmod, ?_⟩
  cases granted <;> simp

/-- The loop: it reserves nothing and maps nothing unless it succeeds, and it closes the
handle unless it meets an iteration that cannot reserve. -/
theorem ends_attempts {h : Int} {sec : Nat} (hs : Admissible K size) (hh : h ≠ 0)
    (hsec : p.handles h = some sec)
    (hrange : ∀ k a, K.virtualAlloc k = some a →
      0 < a ∧ p.reserved a = none ∧ p.views a = none ∧ p.views (a + (size / 2 : Nat)) = none)
    (left : Nat) (hleft : left ≤ maxNoAllocIters + 1) :
    Ends (attempts K size h left) p fun r p' => match r with
      | .ok ptr => p' = p.withViews sec (size / 2) ptr ∧ ¬ FailsFrom K (maxNoAllocIters + 1 - left)
      | .error _ => p' = p ∧ FailsFrom K (maxNoAllocIters + 1 - left) ∨
          p' = p.withoutHandle h ∧ ¬ FailsFrom K (maxNoAllocIters + 1 - left) := by
  induction left with
  | zero =>
    simp only [attempts, closeFileMapping, ends_bind, ends_assert, ends_modify, ends_pure]
    refine ⟨hh, .inr ⟨trivial, ?_⟩⟩
    rw [failsFrom_succ]
    omega
  | succ left ih =>
    have ih := ih (by omega)
    have hiter : maxNoAllocIters + 1 - (left + 1) = maxNoAllocIters - left := by omega
    have hnext : maxNoAllocIters + 1 - left = maxNoAllocIters - left + 1 := by omega
    have hle : maxNoAllocIters - left ≤ maxNoAllocIters := Nat.sub_le _ _
    rw [hiter]
    rw [hnext] at ih
    simp only [attempts, ends_bind]
    refine ends_mono (ends_reserveVirtualMemory hs fun a ha => (hrange _ a ha).2.1) ?_
    rintro (e | a) q ⟨hq, ha⟩
    · exact ends_pure.mpr (.inl ⟨hq, failsFrom_succ.mpr ⟨hle, .inl ha⟩⟩)
    rw [hq]
    obtain ⟨hpos, -, hv, hv'⟩ := hrange _ a ha
    have hsome : K.virtualAlloc (maxNoAllocIters - left) ≠ none := by simp [ha]
    -- a lost race leads to the next iteration in the same state
    have hretry : Retried K (maxNoAllocIters - left) → Ends (attempts K size h left) p fun r p' => match r with
        | .ok ptr => p' = p.withViews sec (size / 2) ptr ∧ ¬ FailsFrom K (maxNoAllocIters - left)
        | .error _ => p' = p ∧ FailsFrom K (maxNoAllocIters - left) ∨
            p' = p.withoutHandle h ∧ ¬ FailsFrom K (maxNoAllocIters - left) := by
      intro hr
      have hiff : FailsFrom K (maxNoAllocIters - left) ↔ FailsFrom K (maxNoAllocIters - left + 1) := by
        rw [failsFrom_succ]
        simp [hle, hsome, hr]
      rw [hiff]
      exact ih
    simp only [ends_bind]
    refine ends_mono (ends_mapViewOfFile hh hpos hs.pos hs.half_mod hsec) ?_
    rintro _ _ ⟨rfl, rfl⟩
    cases hfirst : K.mapFirst (maxNoAllocIters - left) with
    | false => simpa using hretry ⟨hsome, .inl hfirst⟩
    | true =>
    simp only [Bool.true_eq_false, if_false, if_true, ends_bind]
    refine ends_mono (ends_mapViewOfFile hh (by omega) hs.pos hs.half_mod hsec) ?_
    rintro _ _ ⟨rfl, rfl⟩
    cases hsecond : K.mapSecond (maxNoAllocIters - left) with
    | false =>
      simp only [if_true, if_false, Bool.false_eq_true, unmapViewOfFile, ends_bind, ends_assert, ends_modify]
      refine ⟨by omega, ?_⟩
      rw [ite_ite_eq (sec, size / 2) hv]
      exact hretry ⟨hsome, .inr hsecond⟩
    | true =>
      simp only [Bool.true_eq_false, if_false, if_true, ends_pure]
      refine ⟨by trivial, ?_⟩
      rw [failsFrom_succ]
      rintro ⟨-, hn | ⟨⟨-, h1 | h1⟩, -⟩⟩
      · exact hsome hn
      · rw [hfirst] at h1
        cases h1
      · rw [hsecond] at h1
        cases h1

/-- The outcome of `allocate_mirrored` on every retry history. -/
theorem ends_allocateMirrored (h : K.Lawful p size) (hs : Admissible K size) :
    Ends (allocateMirrored K size) p fun r p' =>
      (¬ ReservationFails K ∧ NoLeak K p size r p') ∨
      (ReservationFails K ∧ (∃ e, r = .error e) ∧ p'.handles ≠ p.handles) := by
  have hpos := hs.pos
  simp only [allocateMirrored, createFileMapping, ends_bind, ends_assert]
  refine ⟨by omega, hs.half_mod, hs.pos, hs.half_mod, ?_⟩
  cases hc : K.createFileMapping with
  | none =>
    have hn : ¬ ReservationFails K := fun h => h.1 hc
    simp [hn, NoLeak]
  | some fm =>
  obtain ⟨hne, hfree⟩ := h.handle fm hc
  have hclose := ite_ite_eq K.sectionId hfree
  simp only [ends_bind, ends_modify, ends_pure]
  refine ends_mono (ends_attempts (p := p.withHandle fm K.sectionId) hs hne (if_pos rfl) h.range _ le_rfl) ?_
  rw [Nat.sub_self]
  rintro (e | ptr) q
  · rintro (⟨rfl, hf⟩ | ⟨rfl, hf⟩)
    · refine ends_pure.mpr (.inr ⟨⟨by simp [hc], hf⟩, ⟨e, rfl⟩, fun heq => ?_⟩)
      have := congrFun heq fm
      simp [Process.withHandle, hfree] at this
    · exact ends_pure.mpr (.inl ⟨fun h => hf h.2, hclose, rfl, rfl⟩)
  · rintro ⟨rfl, hf⟩
    simp only [closeFileMapping, ends_bind, ends_assert, ends_modify, ends_pure]
    exact ⟨hne, .inl ⟨fun h => hf h.2, hclose, rfl, rfl⟩⟩

/-- Nothing leaks exactly when the loop never meets a reservation that fails. -/
theorem allocateMirrored_noLeak_iff (h : K.Lawful p size) (hs : Admissible K size) :
    Ends (allocateMirrored K size) p (NoLeak K p size) ↔ ¬ ReservationFails K := by
  have hends := ends_allocateMirrored h hs
  constructor
  · intro hn
    obtain ⟨r, p', -, hleak, hor⟩ := hn.unique hends
    rintro hf
    rcases hor with ⟨hnf, -⟩ | ⟨-, ⟨e, rfl⟩, hne⟩
    · exact hnf hf
    · exact hne hleak.1
  · intro hnf
    refine ends_mono hends ?_
    rintro r p' (⟨-, hleak⟩ | ⟨hf, -⟩)
    · exact hleak
    · exact absurd hf hnf

/-- A file mapping can be created, but address space is exhausted. -/
def exhaustedKernel : Kernel := ⟨0x10000, some 4, fun _ => none, fun _ => true, fun _ => true, 0⟩

/-- The second view of the first two iterations is lost to another thread. -/
def racyKernel : Kernel := ⟨0x10000, some 4, fun _ => some 0x20000, fun _ => true, fun k => decide (2 ≤ k), 0⟩

def emptyProcess : Process := ⟨fun _ => none, fun _ => none, fun _ => none⟩

theorem exhaustedKernel_leaks_handle :
    exhaustedKernel.Lawful emptyProcess 0x20000 ∧ Admissible exhaustedKernel 0x20000 ∧
      ¬ Ends (allocateMirrored exhaustedKernel 0x20000) emptyProcess
        (NoLeak exhaustedKernel emptyProcess 0x20000) := by
  have hl : exhaustedKernel.Lawful emptyProcess 0x20000 := by
    refine ⟨?_, ?_⟩
    · rintro _ ⟨⟩
      exact ⟨by decide, rfl⟩
    · rintro _ _ ⟨⟩
  have hs : Admissible exhaustedKernel 0x20000 := ⟨by decide, by decide, by decide⟩
  refine ⟨hl, hs, fun hn => ?_⟩
  obtain ⟨r, p', -, hleak, hor⟩ := hn.unique (ends_allocateMirrored hl hs)
  rcases hor with ⟨hnf, -⟩ | ⟨-, ⟨e, rfl⟩, hne⟩
  · exact hnf ⟨by decide, 0, le_rfl, by decide, fun j h h' => by omega, rfl⟩
  · exact hne hleak.1

theorem racyKernel_noLeak :
    Ends (allocateMirrored racyKernel 0x20000) emptyProcess (NoLeak racyKernel emptyProcess 0x20000) := by
  have hl : racyKernel.Lawful emptyProcess 0x20000 := by
    refine ⟨?_, ?_⟩
    · rintro _ ⟨⟩
      exact ⟨by decide, rfl⟩
    · rintro _ _ ⟨⟩
      exact ⟨by decide, rfl, rfl, rfl⟩
  refine (allocateMirrored_noLeak_iff hl ⟨by decide, by decide, by decide⟩).mpr ?_
  rintro ⟨-, k, -, -, -, hk⟩
  cases hk

end Sdeq.Winapi
