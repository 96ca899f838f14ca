import SliceDeque.Lib.AddressSpace
import SliceDeque.Platform

/-!
# Mirrored allocation with System V shared memory

`src/mirrored/sysv.rs`. The destructors of the local handles are written out
where the source runs them. `munmap`, `shmdt` and `shmctl` succeed; `shmat`
returns `-1` or the requested address.
-/

set_option autoImplicit false

namespace Sdeq.Sysv
open Exec

/-- The outcomes of the calls, by attempt. -/
structure Kernel where
  pageSize : Nat
  shmget : Option Int
  mmap : Nat → Option Int
  shmatFirst : Nat → Bool
  shmatSecond : Nat → Bool

structure Process where
  /-- sizes of the segments -/
  segments : Int → Option Nat
  /-- how often a segment was marked for removal -/
  removals : Int → Nat
  /-- attachments by address: segment and size -/
  attached : Int → Option (Int × Nat)
  reserved : AddressSpace Unit
  mmapCalls : Nat

abbrev Sys (α : Type) : Type := Exec Panic Process α

namespace Process

def attach (p : Process) (ptr : Int) (id : Int) (size : Nat) : Process :=
  { p with attached := fun x => if x = ptr then some (id, size) else p.attached x }

def detach (p : Process) (ptr : Int) : Process :=
  { p with attached := fun x => if x = ptr then none else p.attached x }

def remove (p : Process) (id : Int) : Process :=
  { p with removals := fun x => if x = id then p.removals x + 1 else p.removals x }

end Process

variable (K : Kernel)

def maxNoIters : Nat := 10

def mapFailed : Int := -1

namespace SharedMemory

def allocate (size : Nat) : Sys (Except AllocError Int) := do
  assert (size ≠ 0)
  assert (size % K.pageSize = 0)
  match K.shmget with
  | none => pure (.error .oom)
  | some id => do
    modify fun p => { p with segments := fun x => if x = id then some size else p.segments x }
    pure (.ok id)

def shmat (granted : Bool) (id ptr : Int) : Sys Int := do
  let p ← get
  match p.segments id, granted with
  | some size, true => do
    modify fun p => p.attach ptr id size
    pure ptr
  | _, _ => pure (-1)

end SharedMemory

namespace MemoryMap

def fromRaw (ptr : Int) : Sys Int := do
  assert (ptr ≠ 0)
  pure ptr

/-- `shmdt` -/
def drop (m : Int) : Sys Unit := modify fun p => p.detach m

end MemoryMap

namespace SharedMemory

def attach (granted : Bool) (id ptr : Int) : Sys (Except AllocError Int) := do
  assert (ptr ≠ 0)
  let r ← shmat granted id ptr
  if r = -1 then pure (.error .other)
  else if r ≠ ptr then do
    MemoryMap.drop ptr
    pure (.error .other)
  else pure (.ok ptr)

/-- `shmctl(id, IPC_RMID)` -/
def drop (id : Int) : Sys Unit := modify fun p => p.remove id

end SharedMemory

/-- `mmap(null, size, PROT_NONE, ..)` -/
def mmap (counter size : Nat) : Sys Int := do
  modify fun p => { p with mmapCalls := p.mmapCalls + 1 }
  match K.mmap counter with
  | none => pure mapFailed
  | some ptr => do
    modify fun p => { p with reserved := p.reserved.place ptr size fun _ => () }
    pure ptr

def unmap (ptr : Int) (size : Nat) : Sys Unit :=
  modify fun p => { p with reserved := p.reserved.clear ptr size }

/-- The retry loop, with `left` attempts to go. -/
def attempts (size : Nat) (shm : Int) : Nat → Sys (Except AllocError Int)
  | 0 => pure (.error .other)
  | left + 1 => do
    let counter := maxNoIters - left
    let ptr ← mmap K counter size
    if ptr = mapFailed then pure (.error .oom)
    else do
      unmap ptr size
      let map0 ← SharedMemory.attach (K.shmatFirst counter) shm ptr
      match map0 with
      | .error _ => attempts size shm left
      | .ok map0 => do
        let map1 ← SharedMemory.attach (K.shmatSecond counter) shm (ptr + (size / 2 : Nat))
        match map1 with
        | .error _ => do
          -- `map0` goes out of scope
          MemoryMap.drop map0
          attempts size shm left
        | .ok _ => pure (.ok ptr)

def allocateMirrored (size : Nat) : Sys (Except AllocError Int) := do
  assert (size ≠ 0)
  assert (size / 2 % K.pageSize = 0)
  let r ← SharedMemory.allocate K (size / 2)
  match r with
  | .error e => pure (.error e)
  | .ok shm => do
    let r ← attempts K size shm maxNoIters
    -- `shm` goes out of scope on every way out of the loop
    SharedMemory.drop shm
    pure r

/-- `ptr.offset(size as isize / 2)`: the signed quotient rounds towards zero. -/
def deallocateMirrored (ptr : Int) (size : Nat) : Sys Unit := do
  let ptr2 := ptr + (asIsize size).tdiv 2
  let m ← MemoryMap.fromRaw ptr
  MemoryMap.drop m
  let m2 ← MemoryMap.fromRaw ptr2
  MemoryMap.drop m2

/-- The objects the kernel picks are new, and user addresses lie below `2 ^ 63`. -/
structure Kernel.Lawful (p : Process) (size : Nat) : Prop where
  segment : ∀ id, K.shmget = some id → p.segments id = none
  range : ∀ k a, K.mmap k = some a → 0 < a ∧ a + size ≤ isizeBound ∧ p.reserved.Free a size ∧
    p.attached a = none ∧ p.attached (a + (size / 2 : Nat)) = none

structure Admissible (size : Nat) : Prop where
  pos : size / 2 ≠ 0
  even : 2 * (size / 2) = size
  half_mod : size / 2 % K.pageSize = 0

/-- Both halves of `[ptr, ptr + 2 * half)` are attached to the segment, nothing else is new. -/
structure BothAttached (p p' : Process) (id ptr : Int) (half : Nat) : Prop where
  low : p'.attached ptr = some (id, half)
  high : p'.attached (ptr + half) = some (id, half)
  outside : ∀ x, x ≠ ptr → x ≠ ptr + half → p'.attached x = p.attached x

/-- The contract of one call that started in `p`. -/
structure NoLeak (p : Process) (size : Nat) (r : Except AllocError Int) (p' : Process) : Prop where
  calls : p'.mmapCalls ≤ p.mmapCalls + 10
  reserved_eq : p'.reserved = p.reserved
  removed : p'.removals = fun x => if K.shmget = some x then p.removals x + 1 else p.removals x
  attached : match r with
    | .error _ => p'.attached = p.attached
    | .ok ptr => (∃ id, K.shmget = some id ∧ BothAttached p p' id ptr (size / 2)) ∧
        Ends (deallocateMirrored ptr size) p' fun _ p'' => p''.attached = p.attached

variable {K} {p p' : Process} {size : Nat}

theorem Process.detach_attach {ptr id : Int} {n : Nat} (h : p.attached ptr = none) :
    (p.attach ptr id n).detach ptr = p := by
  cases p
  simp only [attach, detach, Process.mk.injEq, true_and, and_true]
  funext x
  by_cases hx : x = ptr
  · subst hx
    simpa using h.symm
  · simp [hx]

theorem ends_attach {granted : Bool} {id ptr : Int} {n : Nat} (hptr : 0 < ptr)
    (hseg : p.segments id = some n) :
    Ends (SharedMemory.attach granted id ptr) p fun r p' =>
      (granted = true ∧ r = .ok ptr ∧ p' = p.attach ptr id n) ∨
      (granted = false ∧ r = .error .other ∧ p' = p) := by
  simp only [SharedMemory.attach, SharedMemory.shmat, ends_bind, ends_assert, ends_get, hseg]
  refine ⟨by omega, ?_⟩
  cases granted with
  | false => simp
  | true =>
    have hne : ¬ ptr = -1 := by omega
    simp [hne]

/-- What an attempt that fails leaves: one more call of `mmap`. -/
structure Idle (n : Nat) (p p' : Process) : Prop where
  segments_eq : p'.segments = p.segments
  removals_eq : p'.removals = p.removals
  attached_eq : p'.attached = p.attached
  reserved_eq : p'.reserved = p.reserved
  calls : p'.mmapCalls ≤ p.mmapCalls + n

theorem Idle.trans {n k : Nat} {q : Process} (h : Idle n p p') (h' : Idle k p' q) : Idle (n + k) p q :=
  ⟨h'.segments_eq.trans h.segments_eq, h'.removals_eq.trans h.removals_eq,
    h'.attached_eq.trans h.attached_eq, h'.reserved_eq.trans h.reserved_eq,
    by have := h.calls; have := h'.calls; omega⟩

/-- What the loop returns after at most `n` attempts. -/
def LoopPost (K : Kernel) (size : Nat) (shm : Int) (n : Nat) (p : Process) :
    Except AllocError Int → Process → Prop
  | .error _, p' => Idle n p p'
  | .ok ptr, p' => (∃ k, K.mmap k = some ptr) ∧ ∃ q, Idle n p q ∧
      p' = (q.attach ptr shm (size / 2)).attach (ptr + (size / 2 : Nat)) shm (size / 2)

theorem LoopPost.of_idle {n k : Nat} {shm : Int} {r : Except AllocError Int} {q : Process} (h : Idle n p q)
    (hpost : LoopPost K size shm k q r p') : LoopPost K size shm (n + k) p r p' := by
  cases r with
  | error e => exact h.trans hpost
  | ok ptr =>
    obtain ⟨hk, q', hq', rfl⟩ := hpost
    exact ⟨hk, q', h.trans hq', rfl⟩

theorem ends_attempts {shm : Int} (left : Nat) :
    ∀ p : Process, p.segments shm = some (size / 2) →
      (∀ k a, K.mmap k = some a → 0 < a ∧ p.reserved.Free a size ∧ p.attached a = none) →
      Ends (attempts K size shm left) p (LoopPost K size shm left p) := by
  induction left with
  | zero =>
    intro p _ _
    simp only [attempts, ends_pure]
    exact ⟨rfl, rfl, rfl, rfl, le_rfl⟩
  | succ left ih =>
    intro p hseg hrange
    simp only [attempts, mmap, ends_bind, ends_modify]
    cases ha : K.mmap (maxNoIters - left) with
    | none =>
      simp only [ends_pure, ends_ite, true_implies, not_true, false_implies, and_true]
      exact ⟨rfl, rfl, rfl, rfl, by simp⟩
    | some ptr =>
    obtain ⟨hpos, hfree, hnone⟩ := hrange _ ptr ha
    have hne : ¬ ptr = mapFailed := by unfold mapFailed; omega
    simp only [ends_bind, ends_modify, ends_pure, ends_ite, hne, false_implies, not_false_iff, true_implies,
      true_and, unmap, AddressSpace.clear_place hfree]
    -- the process after the range was reserved and given back
    have hidle : Idle 1 p { p with mmapCalls := p.mmapCalls + 1 } := ⟨rfl, rfl, rfl, rfl, le_rfl⟩
    have hretry : Ends (attempts K size shm left) { p with mmapCalls := p.mmapCalls + 1 }
        (LoopPost K size shm (left + 1) p) := by
      rw [Nat.add_comm left]
      exact ends_mono (ih _ hseg hrange) fun r q h => h.of_idle hidle
    refine ends_mono (ends_attach (n := size / 2) hpos hseg) ?_
    rintro _ _ (⟨-, rfl, rfl⟩ | ⟨-, rfl, rfl⟩)
    · simp only [ends_bind]
      refine ends_mono (ends_attach (n := size / 2) (by omega) hseg) ?_
      rintro _ _ (⟨-, rfl, rfl⟩ | ⟨-, rfl, rfl⟩)
      · refine ends_pure.mpr ⟨⟨_, ha⟩, { p with mmapCalls := p.mmapCalls + 1 }, ?_, rfl⟩
        exact ⟨rfl, rfl, rfl, rfl, by simp⟩
      · simp only [ends_bind, MemoryMap.drop, ends_modify]
        rw [Process.detach_attach (by exact hnone)]
        exact hretry
    · exact hretry

/-- Detaching both halves restores the attachments. -/
theorem ends_deallocateMirrored {q : Process} {id ptr : Int} (hptr : 0 < ptr)
    (hbound : ptr + size ≤ isizeBound) (heven : 2 * (size / 2) = size)
    (hboth : BothAttached p q id ptr (size / 2)) (hlow : p.attached ptr = none)
    (hhigh : p.attached (ptr + (size / 2 : Nat)) = none) :
    Ends (deallocateMirrored ptr size) q fun _ p' => p'.attached = p.attached := by
  have hoff : (asIsize size).tdiv 2 = (size / 2 : Nat) := by
    rw [asIsize_of_lt (by omega)]
    exact (Int.natCast_div size 2).symm
  simp only [deallocateMirrored, MemoryMap.fromRaw, MemoryMap.drop, ends_bind, ends_assert, ends_pure,
    ends_modify, hoff]
  refine ⟨by omega, by omega, ?_⟩
  funext x
  simp only [Process.detach]
  by_cases h1 : x = ptr + (size / 2 : Nat)
  · rw [if_pos h1, h1, hhigh]
  by_cases h2 : x = ptr
  · rw [if_neg h1, if_pos h2, h2, hlow]
  · rw [if_neg h1, if_neg h2, hboth.outside x h2 h1]

/-- System V allocation on every retry history. -/
theorem allocateMirrored_noLeak (h : K.Lawful p size) (hs : Admissible K size) :
    Ends (allocateMirrored K size) p (NoLeak K p size) := by
  have hpos := hs.pos
  simp only [allocateMirrored, SharedMemory.allocate, ends_bind, ends_assert]
  refine ⟨by omega, hs.half_mod, hs.pos, hs.half_mod, ?_⟩
  cases hg : K.shmget with
  | none =>
    refine ends_pure.mpr (ends_pure.mpr ⟨by omega, rfl, ?_, rfl⟩)
    simp [hg]
  | some shm =>
  simp only [ends_bind, ends_modify, ends_pure, SharedMemory.drop]
  refine ends_mono (ends_attempts (p := ⟨_, p.removals, p.attached, p.reserved, p.mmapCalls⟩)
    maxNoIters (if_pos rfl) fun k a ha => ?_) ?_
  · obtain ⟨h1, -, h2, h3, -⟩ := h.range k a ha
    exact ⟨h1, h2, h3⟩
  have hremoved : ∀ x, (if x = shm then p.removals x + 1 else p.removals x) =
      if K.shmget = some x then p.removals x + 1 else p.removals x := by
    intro x
    simp only [hg, Option.some.injEq, eq_comm]
  rintro (e | ptr) q
  · intro hidle
    refine ⟨hidle.calls, hidle.reserved_eq, ?_, hidle.attached_eq⟩
    funext x
    rw [← hremoved, Process.remove, hidle.removals_eq]
  · rintro ⟨⟨k, hk⟩, q', hidle, rfl⟩
    obtain ⟨hptr, hbound, -, hlow, hhigh⟩ := h.range k ptr hk
    have hne : ptr ≠ ptr + (size / 2 : Nat) := by omega
    have hboth : BothAttached p (((q'.attach ptr shm (size / 2)).attach (ptr + (size / 2 : Nat)) shm
        (size / 2)).remove shm) shm ptr (size / 2) := by
      refine ⟨?_, if_pos rfl, fun x h1 h2 => ?_⟩
      · exact (if_neg hne).trans (if_pos rfl)
      · exact ((if_neg h2).trans (if_neg h1)).trans (congrFun hidle.attached_eq x)
    refine ⟨hidle.calls, hidle.reserved_eq, ?_, ⟨shm, hg, hboth⟩,
      ends_deallocateMirrored hptr hbound hs.even hboth hlow hhigh⟩
    funext x
    rw [← hremoved]
    simp only [Process.remove, Process.attach, hidle.removals_eq]

/-- The first attempt loses the second half, the second attempt finds no range. -/
def unluckyKernel : Kernel :=
  ⟨4096, some 5, fun k => if k = 1 then some 0x10000 else none, fun _ => true, fun _ => false⟩

def emptyProcess : Process := ⟨fun _ => none, fun _ => 0, fun _ => none, fun _ => none, 0⟩

theorem unluckyKernel_noLeak :
    Ends (allocateMirrored unluckyKernel 8192) emptyProcess (NoLeak unluckyKernel emptyProcess 8192) := by
  refine allocateMirrored_noLeak ⟨fun _ _ => rfl, fun k a ha => ?_⟩ ⟨by decide, by decide, by decide⟩
  have hk : a = 0x10000 := by
    by_cases hk : k = 1 <;> simp_all [unluckyKernel]
  subst hk
  exact ⟨by decide, by decide, fun _ _ _ => rfl, rfl, rfl⟩

end Sdeq.Sysv
