import SliceDeque.Lib.AddressSpace
import SliceDeque.Platform

/-!
# Mirrored allocation on macOS

`src/mirrored/macos.rs`. A mapped byte is a byte of a memory object. A call
that fails leaves the address space unchanged; `mach_vm_deallocate` succeeds.
-/

set_option autoImplicit false

namespace Sdeq.Macos
open Exec

/-- The outcomes of the calls, and the objects behind the two allocations. -/
structure Kernel where
  debug : Bool
  pageSize : Nat
  vmAllocate : Option Int
  vmAllocateFixed : Bool
  makeMemoryEntry : Bool
  vmRemap : Bool
  object : Nat
  firstHalf : Nat

structure Task where
  space : AddressSpace (Nat × Nat)

abbrev Sys (α : Type) : Type := Exec Panic Task α

variable (K : Kernel)

/-- `mach_vm_allocate(.., VM_FLAGS_ANYWHERE)` -/
def vmAllocate (size : Nat) : Sys (Option Int) :=
  match K.vmAllocate with
  | none => pure none
  | some addr => do
    modify fun t => ⟨t.space.place addr size fun k => (K.object, k)⟩
    pure (some addr)

/-- `mach_vm_allocate(.., VM_FLAGS_FIXED | VM_FLAGS_OVERWRITE)` -/
def vmAllocateFixed (addr : Int) (size : Nat) : Sys Bool := do
  when (K.vmAllocateFixed = true) do
    modify fun t => ⟨t.space.place addr size fun k => (K.firstHalf, k)⟩
  pure K.vmAllocateFixed

/-- `mach_make_memory_entry_64`: the address space stays as it is. -/
def makeMemoryEntry : Sys Bool := pure K.makeMemoryEntry

/-- `mach_vm_remap`: `[target, target + size)` shows what `[source, source + size)` shows. -/
def vmRemap (target : Int) (size : Nat) (source : Int) : Sys Bool := do
  when (K.vmRemap = true) do
    modify fun t => ⟨fun b =>
      if target ≤ b ∧ b < target + size then t.space (source + (b - target)) else t.space b⟩
  pure K.vmRemap

def dealloc (ptr : Int) (size : Nat) : Sys Unit := do
  assert (size ≠ 0)
  assert (size % K.pageSize = 0)
  assert (ptr ≠ 0)
  modify fun t => ⟨t.space.clear ptr size⟩

def allocateMirrored (size : Nat) : Sys (Except AllocError Int) := do
  assert (size ≠ 0)
  let halfSize := size / 2
  assert (halfSize % K.pageSize = 0)
  let r ← vmAllocate K size
  match r with
  | none => pure (.error .oom)
  | some addr => do
    when (K.debug = true ∧ addr = 0) (throw .debugAssert)
    let ok ← vmAllocateFixed K addr halfSize
    -- returns without deallocating
    if ok = false then pure (.error .other)
    else do
      let ok ← makeMemoryEntry K
      if ok = false then do
        dealloc K addr size
        pure (.error .other)
      else do
        let ok ← vmRemap K (addr + halfSize) halfSize addr
        if ok = false then do
          dealloc K addr size
          pure (.error .other)
        else pure (.ok addr)

def deallocateMirrored (ptr : Int) (size : Nat) : Sys Unit := do
  assert (ptr ≠ 0)
  assert (size ≠ 0)
  assert (size % K.pageSize = 0)
  dealloc K ptr size

/-- The kernel picks a free range. -/
def Kernel.Lawful (t : Task) (size : Nat) : Prop :=
  ∀ addr, K.vmAllocate = some addr → 0 < addr ∧ t.space.Free addr size

structure Admissible (size : Nat) : Prop where
  pos : 0 < size
  even : 2 * (size / 2) = size
  half_mod : size / 2 % K.pageSize = 0

/-- Exactly `[addr, addr + size)` was added, and its second half aliases the first. -/
structure Added (t t' : Task) (addr : Int) (size : Nat) : Prop where
  free : t.space.Free addr size
  inside : ∀ b, addr ≤ b → b < addr + size → t'.space b ≠ none
  outside : ∀ b, b < addr ∨ addr + size ≤ b → t'.space b = t.space b
  aliased : ∀ b : Nat, b < size / 2 → t'.space (addr + (size / 2 : Nat) + b) = t'.space (addr + b)

/-- The contract of one call that started in `t`. -/
def AllOrNothing (t : Task) (size : Nat) : Except AllocError Int → Task → Prop
  | .ok addr, t' => Added t t' addr size
  | .error _, t' => t'.space = t.space

/-- The first allocation succeeds and the second one, over its first half, fails. -/
def FirstHalfFails : Prop := K.vmAllocate ≠ none ∧ K.vmAllocateFixed = false

variable {K} {t t' : Task} {size : Nat}

theorem ends_dealloc {s : Task} {addr : Int} {Q : Unit → Task → Prop} (hs : Admissible K size)
    (haddr : 0 < addr) (hQ : Q () ⟨s.space.clear addr size⟩) : Ends (dealloc K addr size) s Q := by
  have hpos := hs.pos
  have hmod : size % K.pageSize = 0 := by
    rw [← hs.even, Nat.mul_mod, hs.half_mod, Nat.mul_zero, Nat.zero_mod]
  simp only [dealloc, ends_bind, ends_assert, ends_modify]
  exact ⟨by omega, hmod, by omega, hQ⟩

theorem added_of_remap {addr : Int} {f g : Nat → Nat × Nat} (heven : 2 * (size / 2) = size)
    (hfree : t.space.Free addr size) : Added t ⟨fun b =>
      if addr + (size / 2 : Nat) ≤ b ∧ b < addr + (size / 2 : Nat) + (size / 2 : Nat) then
        (t.space.place addr size f).place addr (size / 2) g (addr + (b - (addr + (size / 2 : Nat))))
      else (t.space.place addr size f).place addr (size / 2) g b⟩ addr size := by
  -- every byte of the first half shows the second object
  have hlow : ∀ b : Nat, b < size / 2 →
      (t.space.place addr size f).place addr (size / 2) g (addr + b) = some (g b) :=
    fun b hb => AddressSpace.place_inside b hb
  refine ⟨hfree, fun b h1 h2 => ?_, fun b hb => ?_, fun b hb => ?_⟩
  · by_cases hhigh : addr + (size / 2 : Nat) ≤ b
    · have := hlow (b - (addr + (size / 2 : Nat))).toNat (by omega)
      rw [show (((b - (addr + (size / 2 : Nat))).toNat : Nat) : Int) = b - (addr + (size / 2 : Nat)) by omega] at this
      simp only [if_pos (show addr + (size / 2 : Nat) ≤ b ∧ b < addr + (size / 2 : Nat) + (size / 2 : Nat) by omega), this]
      simp
    · have := hlow (b - addr).toNat (by omega)
      rw [show addr + ((b - addr).toNat : Int) = b by omega] at this
      simp only [if_neg (show ¬ (addr + (size / 2 : Nat) ≤ b ∧ b < addr + (size / 2 : Nat) + (size / 2 : Nat)) by omega), this]
      simp
  · simp only [if_neg (show ¬ (addr + (size / 2 : Nat) ≤ b ∧ b < addr + (size / 2 : Nat) + (size / 2 : Nat)) by omega)]
    exact (AddressSpace.place_outside (by omega)).trans (AddressSpace.place_outside hb)
  · simp only [if_pos (show addr + (size / 2 : Nat) ≤ addr + (size / 2 : Nat) + b ∧
      addr + (size / 2 : Nat) + b < addr + (size / 2 : Nat) + (size / 2 : Nat) by omega),
      if_neg (show ¬ (addr + (size / 2 : Nat) ≤ addr + (b : Int) ∧
        addr + (b : Int) < addr + (size / 2 : Nat) + (size / 2 : Nat)) by omega)]
    congr 1
    omega

/-- The outcome of `allocate_mirrored`, whatever the kernel answers. -/
theorem ends_allocateMirrored (h : K.Lawful t size) (hs : Admissible K size) :
    Ends (allocateMirrored K size) t fun r t' =>
      (¬ FirstHalfFails K ∧ AllOrNothing t size r t') ∨
      (FirstHalfFails K ∧ ∃ e addr, r = .error e ∧ t.space addr = none ∧ t'.space addr ≠ none) := by
  have hpos := hs.pos
  have heven := hs.even
  simp only [allocateMirrored, ends_bind, ends_assert]
  refine ⟨by omega, hs.half_mod, ?_⟩
  unfold vmAllocate
  cases ha : K.vmAllocate with
  | none => exact ends_pure.mpr (ends_pure.mpr (.inl ⟨fun h => h.1 ha, rfl⟩))
  | some addr =>
  obtain ⟨haddr, hfree⟩ := h addr ha
  have hne : ¬ (K.debug = true ∧ addr = 0) := fun h => by omega
  simp only [ends_bind, ends_modify, ends_pure, ends_when, ends_ite, hne, vmAllocateFixed, makeMemoryEntry,
    false_implies, not_false_iff, true_implies, true_and]
  have hin : t.space.place addr size (fun k => (K.object, k)) addr ≠ none := by
    rw [AddressSpace.place, if_pos ⟨le_rfl, by omega⟩]
    simp
  refine ⟨fun hf => ⟨fun h => by simp [hf] at h, fun hok => ?_⟩, fun hf => ⟨fun _ => .inr ⟨?_, ?_⟩, fun h => ?_⟩⟩
  · have hnf : ¬ FirstHalfFails K := fun h => hok h.2
    have hclear : ((t.space.place addr size fun k => (K.object, k)).place addr (size / 2)
        fun k => (K.firstHalf, k)).clear addr size = t.space :=
      AddressSpace.clear_place_part hfree le_rfl (by omega)
    refine ⟨fun _ => ends_dealloc hs haddr (.inl ⟨hnf, hclear⟩), fun _ => ?_⟩
    simp only [vmRemap, ends_bind, ends_when, ends_modify, ends_pure]
    refine ⟨fun hr => ⟨fun h => by simp [hr] at h, fun _ => .inl ⟨hnf, ?_⟩⟩,
      fun hr => ⟨fun _ => ends_dealloc hs haddr (.inl ⟨hnf, hclear⟩), fun h => by simp [hr] at h⟩⟩
    exact added_of_remap heven hfree
  · exact ⟨by simp [ha], by simpa using hf⟩
  · exact ⟨.other, addr, rfl, hfree addr le_rfl (by omega), hin⟩
  · exact absurd (by simpa using hf) h

/-- Memory is released or handed out exactly when the second allocation does not fail alone. -/
theorem allocateMirrored_allOrNothing_iff (h : K.Lawful t size) (hs : Admissible K size) :
    Ends (allocateMirrored K size) t (AllOrNothing t size) ↔ ¬ FirstHalfFails K := by
  have hends := ends_allocateMirrored h hs
  constructor
  · intro hn hf
    obtain ⟨r, t', -, hpost, hor⟩ := hn.unique hends
    rcases hor with ⟨hnf, -⟩ | ⟨-, e, addr, rfl, hnone, hsome⟩
    · exact hnf hf
    · exact hsome ((congrFun hpost addr).trans hnone)
  · intro hnf
    refine ends_mono hends ?_
    rintro r t' (⟨-, hpost⟩ | ⟨hf, -⟩)
    · exact hpost
    · exact absurd hf hnf

/-- Everything succeeds but the overwriting allocation. -/
def halfwayKernel : Kernel := ⟨false, 4096, some 0x10000, false, true, true, 0, 1⟩

/-- The remapping fails. -/
def unmirroredKernel : Kernel := ⟨false, 4096, some 0x10000, true, true, false, 0, 1⟩

def emptyTask : Task := ⟨fun _ => none⟩

theorem halfwayKernel_leaks :
    halfwayKernel.Lawful emptyTask 8192 ∧ Admissible halfwayKernel 8192 ∧
      ¬ Ends (allocateMirrored halfwayKernel 8192) emptyTask (AllOrNothing emptyTask 8192) := by
  have hl : halfwayKernel.Lawful emptyTask 8192 := by
    rintro _ ⟨⟩
    exact ⟨by decide, fun _ _ _ => rfl⟩
  have hs : Admissible halfwayKernel 8192 := ⟨by decide, by decide, by decide⟩
  refine ⟨hl, hs, fun hn => ?_⟩
  obtain ⟨r, t', -, hpost, hor⟩ := hn.unique (ends_allocateMirrored hl hs)
  rcases hor with ⟨hnf, -⟩ | ⟨-, e, addr, rfl, hnone, hsome⟩
  · exact hnf ⟨by decide, rfl⟩
  · exact hsome ((congrFun hpost addr).trans hnone)

theorem unmirroredKernel_allOrNothing :
    Ends (allocateMirrored unmirroredKernel 8192) emptyTask (AllOrNothing emptyTask 8192) := by
  refine (allocateMirrored_allOrNothing_iff ?_ ⟨by decide, by decide, by decide⟩).mpr fun h => ?_
  · rintro _ ⟨⟩
    exact ⟨by decide, fun _ _ _ => rfl⟩
  · exact absurd h.2 (by decide)

end Sdeq.Macos
