import SliceDeque.Lib.AddressSpace
import SliceDeque.Platform

/-!
# Mirrored allocation on Linux

`src/mirrored/linux.rs`. The kernel answers each system call as `Kernel`
says; a call that fails changes nothing.
-/

set_option autoImplicit false

namespace Sdeq.Linux
open Exec

inductive Errno where
  | enosys
  | other
  deriving DecidableEq

/-- The outcomes of the calls, and the objects the kernel picks. -/
structure Kernel where
  pageSize : Nat
  memfdCreate : Except Errno Int
  mkstemp : Option Int
  ftruncate : Bool
  mmap : Option Int
  mmapFixed : Bool
  /-- the file behind a new descriptor -/
  file : Nat

/-- A mapped byte is a byte of a file. -/
structure Process where
  space : AddressSpace (Nat × Nat)
  fds : Int → Option Nat
  names : List Nat
  length : Nat → Nat
  errno : Errno

abbrev Sys (α : Type) : Type := Exec Panic Process α

namespace Process

def openFd (p : Process) (fd : Int) (file : Nat) : Process :=
  { p with fds := fun x => if x = fd then some file else p.fds x }

def closeFd (p : Process) (fd : Int) : Process :=
  { p with fds := fun x => if x = fd then none else p.fds x }

end Process

variable (K : Kernel)

def mapFailed : Int := -1

def memfdCreate : Sys Int :=
  match K.memfdCreate with
  | .ok fd => do
    modify fun p => p.openFd fd K.file
    pure fd
  | .error e => do
    modify fun p => { p with errno := e }
    pure (-1)

/-- Creates the file under a name. -/
def mkstemp : Sys Int :=
  match K.mkstemp with
  | some fd => do
    modify fun p => { p.openFd fd K.file with names := K.file :: p.names }
    pure fd
  | none => pure (-1)

/-- `unlink(fname)` for the name that `mkstemp` made. -/
def unlink : Sys Unit := modify fun p => { p with names := p.names.erase K.file }

def ftruncate (fd : Int) (length : Nat) : Sys Int := do
  let p ← get
  match p.fds fd, K.ftruncate with
  | some file, true => do
    modify fun p => { p with length := fun x => if x = file then length else p.length x }
    pure 0
  | _, _ => pure (-1)

/-- `mmap(null, size, .., fd, 0)` -/
def mmap (size : Nat) (fd : Int) : Sys Int := do
  let p ← get
  match p.fds fd, K.mmap with
  | some file, some ptr => do
    modify fun p => { p with space := p.space.place ptr size fun k => (file, k) }
    pure ptr
  | _, _ => pure mapFailed

/-- `mmap(addr, size, .., MAP_FIXED, fd, 0)` -/
def mmapFixed (addr : Int) (size : Nat) (fd : Int) : Sys Int := do
  let p ← get
  match p.fds fd, K.mmapFixed with
  | some file, true => do
    modify fun p => { p with space := p.space.place addr size fun k => (file, k) }
    pure addr
  | _, _ => pure mapFailed

def munmap (ptr : Int) (size : Nat) : Sys Unit := modify fun p => { p with space := p.space.clear ptr size }

def close (fd : Int) : Sys Unit := modify fun p => p.closeFd fd

/-- The descriptor of a temporary file without a name, or `-1`. -/
def createFile : Sys Int := do
  let fd ← memfdCreate K
  let p ← get
  if fd = -1 ∧ p.errno = .enosys then do
    let fd ← mkstemp K
    when (fd ≠ -1) (unlink K)
    pure fd
  else pure fd

def allocateMirrored (size : Nat) : Sys (Except AllocError Int) := do
  let halfSize := size / 2
  assert (size ≠ 0)
  assert (halfSize % K.pageSize = 0)
  let fd ← createFile K
  if fd = -1 then pure (.error .other)
  else do
    let r ← ftruncate K fd halfSize
    if r = -1 then do
      close fd
      pure (.error .oom)
    else do
      let ptr ← mmap K size fd
      if ptr = mapFailed then do
        close fd
        pure (.error .oom)
      else do
        let ptr2 ← mmapFixed K (ptr + halfSize) halfSize fd
        if ptr2 = mapFailed then do
          munmap ptr size
          close fd
          pure (.error .other)
        else do
          close fd
          pure (.ok ptr)

def deallocateMirrored (ptr : Int) (size : Nat) : Sys Unit := do
  assert (ptr ≠ 0)
  assert (size ≠ 0)
  assert (size % K.pageSize = 0)
  munmap ptr size

/-- What the kernel promises about the objects it picks. -/
structure Kernel.Lawful (p : Process) (size : Nat) : Prop where
  memfd : ∀ fd, K.memfdCreate = .ok fd → 0 ≤ fd ∧ p.fds fd = none
  mkstemp : ∀ fd, K.mkstemp = some fd → 0 ≤ fd ∧ p.fds fd = none
  mmap : ∀ ptr, K.mmap = some ptr → 0 < ptr ∧ p.space.Free ptr size
  file_unnamed : K.file ∉ p.names
  file_unmapped : ∀ a k, p.space a ≠ some (K.file, k)
  file_closed : ∀ fd, p.fds fd ≠ some K.file

variable {K} {p p' : Process} {size : Nat}

/-- Descriptors, names and mappings are those of `p`. -/
structure Process.Same (p p' : Process) : Prop where
  space_eq : p'.space = p.space
  fds_eq : p'.fds = p.fds
  names_eq : p'.names = p.names

/-- Both halves of `[ptr, ptr + size)` show `size / 2` bytes of one file, and nothing else changed. -/
structure Mirrored (file : Nat) (p p' : Process) (ptr : Int) (size : Nat) : Prop where
  low : ∀ b : Nat, b < size / 2 → p'.space (ptr + b) = some (file, b)
  high : ∀ b : Nat, b < size / 2 → p'.space (ptr + (size / 2 : Nat) + b) = some (file, b)
  outside : ∀ a, a < ptr ∨ ptr + size ≤ a → p'.space a = p.space a
  length_eq : p'.length file = size / 2
  fds_eq : p'.fds = p.fds
  names_eq : p'.names = p.names

theorem Process.fds_closeFd {q : Process} {fd : Int} {file : Nat} (hq : q.fds = (p.openFd fd file).fds)
    (h : p.fds fd = none) : (q.closeFd fd).fds = p.fds := by
  funext x
  simp only [closeFd, hq, openFd]
  by_cases hx : x = fd
  · simp [hx, h]
  · simp [hx]

theorem ends_createFile (h : K.Lawful p size) :
    Ends (createFile K) p fun fd q => fd = -1 ∧ p.Same q ∨
      0 ≤ fd ∧ p.fds fd = none ∧ ∃ e, q = { p.openFd fd K.file with errno := e } := by
  unfold createFile memfdCreate
  cases hm : K.memfdCreate with
  | ok fd =>
    obtain ⟨hfd, hnone⟩ := h.memfd fd hm
    have hne : ¬ fd = -1 := by omega
    simp only [ends_bind, ends_modify, ends_pure, ends_get, ends_ite, hne, false_and, false_implies,
      not_false_iff, true_implies, true_and, false_or]
    exact ⟨hfd, hnone, p.errno, rfl⟩
  | error e =>
    have hsame : p.Same { p with errno := e } := ⟨rfl, rfl, rfl⟩
    simp only [ends_bind, ends_modify, ends_pure, ends_get, ends_ite, true_and]
    refine ⟨fun _ => ?_, fun _ => .inl hsame⟩
    unfold mkstemp
    cases hk : K.mkstemp with
    | none => simpa using hsame
    | some fd =>
      obtain ⟨hfd, hnone⟩ := h.mkstemp fd hk
      have hne : ¬ fd = -1 := by omega
      simp only [ends_bind, ends_modify, ends_pure, ends_when, unlink]
      refine ⟨fun _ => .inr ⟨hfd, hnone, e, ?_⟩, fun h => absurd hne h⟩
      simp [Process.openFd]

/-- The outcome of `allocate_mirrored`, whatever the kernel answers. -/
theorem ends_allocateMirrored (h : K.Lawful p size) (hsize : size ≠ 0)
    (heven : 2 * (size / 2) = size) (hd : size / 2 % K.pageSize = 0) :
    Ends (allocateMirrored K size) p fun r p' => match r with
      | .ok ptr => 0 < ptr ∧ p.space.Free ptr size ∧ Mirrored K.file p p' ptr size
      | .error _ => p.Same p' := by
  simp only [allocateMirrored, ends_bind, ends_assert]
  refine ⟨hsize, hd, ends_mono (ends_createFile h) ?_⟩
  rintro fd q (⟨rfl, hsame⟩ | ⟨hfd, hnone, e, rfl⟩)
  · simpa using hsame
  have hne : ¬ fd = -1 := by omega
  have hopen : (p.openFd fd K.file).fds fd = some K.file := if_pos rfl
  simp only [ends_ite, hne, false_implies, not_false_iff, true_implies, true_and, ftruncate, ends_bind,
    ends_get, hopen]
  cases ht : K.ftruncate with
  | false =>
    simp only [ends_pure, close, ends_modify, true_implies, not_true, false_implies, and_true]
    exact ⟨rfl, Process.fds_closeFd rfl hnone, rfl⟩
  | true =>
  simp only [ends_bind, ends_modify, ends_pure, mmap, ends_get, hopen]
  refine ⟨fun h => absurd h (by decide), fun _ => ?_⟩
  cases hm : K.mmap with
  | none =>
    simp only [ends_pure, close, ends_modify, true_implies, not_true, false_implies, and_true]
    exact ⟨rfl, Process.fds_closeFd rfl hnone, rfl⟩
  | some ptr =>
  obtain ⟨hptr, hfree⟩ := h.mmap ptr hm
  simp only [ends_bind, ends_modify, ends_pure, mmapFixed, ends_get, hopen]
  refine ⟨fun h => absurd h (by unfold mapFailed; omega), fun _ => ?_⟩
  cases hf : K.mmapFixed with
  | false =>
    simp only [ends_pure, close, munmap, ends_modify, true_implies, not_true, false_implies, and_true]
    exact ⟨AddressSpace.clear_place hfree, Process.fds_closeFd rfl hnone, rfl⟩
  | true =>
    simp only [ends_bind, ends_modify, ends_pure, close]
    refine ⟨fun h => absurd h (by unfold mapFailed; omega), fun _ => ⟨hptr, hfree, ?_⟩⟩
    refine ⟨fun b hb => ?_, fun b hb => ?_, fun a ha => ?_, ?_, Process.fds_closeFd rfl hnone, rfl⟩
    · exact (AddressSpace.place_outside (by omega)).trans (AddressSpace.place_inside b (by omega))
    · exact AddressSpace.place_inside b hb
    · exact (AddressSpace.place_outside (by omega)).trans (AddressSpace.place_outside (by omega))
    · simp [Process.closeFd]

/-- After a successful call, unmapping restores the address space. -/
theorem Mirrored.clear {file : Nat} {ptr : Int} (h : Mirrored file p p' ptr size)
    (hfree : p.space.Free ptr size) : p'.space.clear ptr size = p.space := by
  funext a
  by_cases ha : ptr ≤ a ∧ a < ptr + size
  · rw [AddressSpace.clear, if_pos ha, hfree a ha.1 ha.2]
  · rw [AddressSpace.clear, if_neg ha, h.outside a (by omega)]

theorem ends_deallocateMirrored {file : Nat} {ptr : Int} (h : Mirrored file p p' ptr size)
    (hfree : p.space.Free ptr size) (hptr : 0 < ptr) (hsize : size ≠ 0) (hd : size % K.pageSize = 0) :
    Ends (deallocateMirrored K ptr size) p' fun _ p'' => p''.space = p.space := by
  simp only [deallocateMirrored, ends_bind, ends_assert, munmap, ends_modify]
  exact ⟨by omega, hsize, hd, h.clear hfree⟩

/-- The whole contract of a call that started in `p`. -/
def AllOrNothing (K : Kernel) (p : Process) (size : Nat) : Except AllocError Int → Process → Prop
  | .ok ptr, p' => Mirrored K.file p p' ptr size ∧ K.file ∉ p'.names ∧
      (∀ a k, p.space a ≠ some (K.file, k)) ∧
      (∀ a k, p'.space a = some (K.file, k) → k < p'.length K.file) ∧
      Ends (deallocateMirrored K ptr size) p' fun _ p'' => p''.space = p.space
  | .error _, p' => p.Same p'

theorem allocateMirrored_allOrNothing (h : K.Lawful p size) (hsize : 0 < size)
    (hpages : 2 * K.pageSize ∣ size) : Ends (allocateMirrored K size) p (AllOrNothing K p size) := by
  obtain ⟨c, hc⟩ := hpages
  have hhalf : size / 2 = K.pageSize * c := by
    rw [hc, Nat.mul_assoc, Nat.mul_div_cancel_left _ (by omega)]
  have heven : 2 * (size / 2) = size := by rw [hhalf, ← Nat.mul_assoc, hc]
  have hd : size / 2 % K.pageSize = 0 := by rw [hhalf, Nat.mul_mod_right]
  have hd' : size % K.pageSize = 0 := by
    rw [hc, Nat.mul_comm 2, Nat.mul_assoc, Nat.mul_mod_right]
  refine ends_mono (ends_allocateMirrored h (by omega) heven hd) ?_
  rintro (_ | ptr) p'
  · exact id
  rintro ⟨hptr, hfree, hm⟩
  refine ⟨hm, ?_, h.file_unmapped, fun a k ha => ?_, ends_deallocateMirrored hm hfree hptr (by omega) hd'⟩
  · rw [hm.names_eq]
    exact h.file_unnamed
  rw [hm.length_eq]
  by_cases hin : ptr ≤ a ∧ a < ptr + size
  · by_cases hlow : a < ptr + (size / 2 : Nat)
    · have := hm.low (a - ptr).toNat (by omega)
      rw [show ptr + ((a - ptr).toNat : Int) = a by omega, ha] at this
      cases this
      omega
    · have := hm.high (a - ptr - (size / 2 : Nat)).toNat (by omega)
      rw [show ptr + (size / 2 : Nat) + ((a - ptr - (size / 2 : Nat)).toNat : Int) = a by omega, ha] at this
      cases this
      omega
  · exact absurd ((hm.outside a (by omega)) ▸ ha) (h.file_unmapped a k)

/-- A kernel with 4096-byte pages that supports `memfd_create` and grants everything. -/
def generousKernel : Kernel := ⟨4096, .ok 3, none, true, some 0x10000, true, 7⟩

def emptyProcess : Process := ⟨fun _ => none, fun _ => none, [], fun _ => 0, .other⟩

theorem generousKernel_allOrNothing :
    Ends (allocateMirrored generousKernel 8192) emptyProcess (AllOrNothing generousKernel emptyProcess 8192) := by
  refine allocateMirrored_allOrNothing ⟨?_, ?_, ?_, ?_, ?_, ?_⟩ (by decide) (by decide)
  · rintro _ ⟨⟩
    exact ⟨by decide, rfl⟩
  · rintro _ ⟨⟩
  · rintro _ ⟨⟩
    exact ⟨by decide, fun _ _ _ => rfl⟩
  · simp [emptyProcess]
  · simp [emptyProcess]
  · simp [emptyProcess]

/-- The mapping translates addresses as `Mirror.phys` does. -/
theorem Mirrored.phys {β : Type} {file : Nat} {ptr : Int} (h : Mirrored file p p' ptr size)
    (heven : 2 * (size / 2) = size) (bytes : Int → β) {a : Int} (ha : ptr ≤ a) (ha' : a < ptr + size) :
    p'.space a = some (file, ((⟨ptr, size / 2, bytes⟩ : Mirror β).phys a).toNat) := by
  by_cases hlow : a < ptr + (size / 2 : Nat)
  · have := h.low (a - ptr).toNat (by omega)
    rw [show ptr + ((a - ptr).toNat : Int) = a by omega] at this
    rw [this, Mirror.phys, Int.emod_eq_of_lt (by simp only; omega) (by simp only; omega)]
  · have := h.high (a - ptr - (size / 2 : Nat)).toNat (by omega)
    rw [show ptr + (size / 2 : Nat) + ((a - ptr - (size / 2 : Nat)).toNat : Int) = a by omega] at this
    rw [this, Mirror.phys, ← Int.sub_emod_right, Int.emod_eq_of_lt (by simp only; omega) (by simp only; omega)]

end Sdeq.Linux
