import SliceDeque.Lib.Memory
import SliceDeque.Mirrored.Linux
import SliceDeque.Mirrored.Macos
import SliceDeque.Mirrored.Sysv
import SliceDeque.Mirrored.Winapi

/-!
# Sessions with the four allocators

A program allocates and deallocates mirrored buffers in any order, and the
kernel answers every call anew. On Linux and macOS the buffers are mirrors as
`Platform` has them, each of its own; on the other two the tables of the
system hold exactly the halves of the buffers that were not deallocated.
-/

set_option autoImplicit false

namespace Sdeq
open Exec Claim

/-- What the deque expects of the memory that a call of `allocate_mirrored` returns. -/
structure Buffer.Answer {β : Type} (granularity size : Nat) (m : Mirror β) : Prop where
  half_eq : m.half = size / 2
  base_dvd : (granularity : Int) ∣ m.base
  base_pos : 0 < m.base
  base_fits : m.base + size < usizeBound

namespace Linux

def span (h : Int × Kernel × Nat) : Span (Nat × Nat) := ⟨h.1, h.2.2 / 2, fun k => (h.2.1.file, k)⟩

def allocator : Allocator Panic Process (Kernel × Nat) AllocError Int (Nat × Nat) where
  acquire x := allocateMirrored x.1 x.2
  release x ptr := deallocateMirrored x.1 ptr x.2
  table p := p.space
  claim x ptr := (span (ptr, x)).claim

/-- `mmap` returns page boundaries, and the range ends in the address space. -/
structure Lawful (x : Kernel × Nat) (p : Process) : Prop where
  lawful : x.1.Lawful p x.2
  pos : 0 < x.2
  pages : 2 * x.1.pageSize ∣ x.2
  aligned : ∀ ptr, x.1.mmap = some ptr → (x.1.pageSize : Int) ∣ ptr ∧ ptr + x.2 < usizeBound

structure Good (x : Kernel × Nat) (ptr : Int) : Prop where
  pos : 0 < x.2
  pages : 2 * x.1.pageSize ∣ x.2
  aligned : (x.1.pageSize : Int) ∣ ptr
  base_pos : 0 < ptr
  fits : ptr + x.2 < usizeBound

/-- No descriptor is left open and no file keeps a name. -/
structure Keeps (p p' : Process) : Prop where
  fds_eq : p'.fds = p.fds
  names_eq : p'.names = p.names

variable {K : Kernel} {p p' : Process} {size : Nat} {ptr : Int}

theorem even_of_pages {g : Nat} (h : 2 * g ∣ size) : 2 * (size / 2) = size ∧ size / 2 % g = 0 ∧ size % g = 0 := by
  obtain ⟨c, rfl⟩ := h
  have hhalf : 2 * g * c / 2 = g * c := by rw [Nat.mul_assoc, Nat.mul_div_cancel_left _ (by omega)]
  refine ⟨by rw [hhalf, Nat.mul_assoc], by rw [hhalf, Nat.mul_mod_right], ?_⟩
  rw [Nat.mul_comm 2, Nat.mul_assoc, Nat.mul_mod_right]

/-- A successful call returns what `mmap` returned. -/
theorem wp_allocateMirrored : wp (allocateMirrored K size) p (fun r _ => ∀ ptr, r = .ok ptr → K.mmap = some ptr)
    fun _ _ => True := by
  simp only [allocateMirrored, wp_bind, wp_assert, implies_true, and_true]
  intro _ _
  refine wp_mono (wp_trivial _ _) (fun fd q _ => ?_) fun _ _ _ => trivial
  simp only [wp_ite, wp_pure, wp_bind]
  refine ⟨fun _ => by simp, fun _ => ?_⟩
  refine wp_mono (wp_trivial _ _) (fun r q _ => ?_) fun _ _ _ => trivial
  simp only [close, munmap, wp_modify]
  refine ⟨fun _ => by simp, fun _ => ?_⟩
  have hmap : wp (mmap K size fd) q (fun a _ => a = mapFailed ∨ K.mmap = some a) fun _ _ => True := by
    simp only [mmap, wp_bind, wp_get]
    split
    · simp only [wp_bind, wp_modify, wp_pure]
      exact .inr ‹_›
    · exact wp_pure.mpr (.inl rfl)
  refine wp_mono hmap (fun a q hor => ⟨fun _ => by simp, fun hne => ?_⟩) fun _ _ _ => trivial
  refine wp_mono (wp_trivial _ _) (fun b q _ => ⟨fun _ => by simp, fun _ => ?_⟩) fun _ _ _ => trivial
  rintro _ ⟨⟩
  exact hor.resolve_left hne

theorem sound : Session.Sound allocator Lawful Good Keeps where
  refl _ := ⟨rfl, rfl⟩
  trans _ _ _ h h' := ⟨h'.fds_eq.trans h.fds_eq, h'.names_eq.trans h.names_eq⟩
  acquire := by
    rintro ⟨K, size⟩ p h
    obtain ⟨heven, hmod, -⟩ := even_of_pages h.pages
    have hends := ends_allocateMirrored h.lawful (show size ≠ 0 from h.pos.ne') heven hmod
    refine ends_mono (hends.unique (hends.wp wp_allocateMirrored)) ?_
    rintro (e | ptr) p' ⟨hpost, hmap⟩
    · have hsame : p.Same p' := hpost
      exact ⟨⟨hsame.fds_eq, hsame.names_eq⟩, hsame.space_eq⟩
    obtain ⟨hptr, hfree, hm⟩ := hpost
    obtain ⟨hal, hfit⟩ := h.aligned ptr (hmap ptr rfl)
    have hsize : (2 : Int) * (size / 2 : Nat) = size := by omega
    refine ⟨⟨hm.fds_eq, hm.names_eq⟩, ⟨h.pos, h.pages, hal, hptr, hfit⟩, ?_⟩
    refine Span.added (s := span (ptr, K, size)) ?_ hm.low hm.high fun a ha => hm.outside a ?_
    · rwa [show 2 * (span (ptr, K, size)).half = size from heven]
    · simpa only [span, hsize] using ha
  release := by
    rintro ⟨K, size⟩ ptr p h _
    obtain ⟨heven, -, hmod⟩ := even_of_pages h.pages
    have hpos := h.base_pos
    have hsize : size ≠ 0 := h.pos.ne'
    simp only [allocator, deallocateMirrored, ends_bind, ends_assert, munmap, ends_modify]
    refine ⟨by omega, hsize, hmod, ⟨rfl, rfl⟩, ?_⟩
    have hclear := Span.cleared (s := span (ptr, K, size)) p.space
    rwa [show 2 * (span (ptr, K, size)).half = size from heven] at hclear

theorem mirrored (β : Type) : Memory.Mirrored allocator span Lawful Good
    fun x => Buffer.Answer (β := β) x.1.pageSize x.2 where
  claim_eq _ _ := rfl
  half_pos x ptr h := by
    obtain ⟨c, hc⟩ := h.pages
    have hpos := h.pos
    have hne : x.2 / 2 ≠ 0 := fun h0 => by
      have := (even_of_pages h.pages).1
      omega
    exact Nat.pos_of_ne_zero hne
  injective _ _ _ j k _ _ he := (Prod.mk.inj he).2
  fresh x p h _ a k := h.lawful.file_unmapped a k
  fits _ _ _ h := ⟨rfl, h.aligned, h.base_pos, h.fits⟩

/-- A program that allocates, deallocates, reads, writes and moves bytes on Linux, in any order and
with buffers of its own, sees independent mirrors; the address space is the old one under the
buffers that were not deallocated, and no descriptor and no file name is left behind. -/
theorem process_refines_mirrors {β : Type} (bytes : Nat × Nat → β) (p : Process) (qs : List (Memory.Request (Kernel × Nat) β))
    (hqs : Always (Memory.serve allocator .fault) (Memory.Request.Fits span Lawful) qs ⟨⟨p, []⟩, bytes⟩) :
    ∃ ms, Path (Memory.Serves fun x => Buffer.Answer x.1.pageSize x.2) qs []
        (results (Memory.serve allocator .fault) qs ⟨⟨p, []⟩, bytes⟩) ms ∧
      Memory.Sees allocator span Good Keeps p (final (Memory.serve allocator .fault) qs ⟨⟨p, []⟩, bytes⟩) ms :=
  Memory.refines sound (mirrored β) bytes qs hqs

/-- What is written through one half is read through the other. -/
def echo : List (Memory.Request (Kernel × Nat) Nat) :=
  [.session (.acquire (generousKernel, 8192)), .write 0x10ffe [1, 2, 3], .read 0x11ffe 2, .move 0x10010 0x10000 1,
    .session (.release 0)]

theorem echo_process_refines : ∃ ms, Path (Memory.Serves fun x => Buffer.Answer x.1.pageSize x.2) echo []
      (results (Memory.serve allocator .fault) echo ⟨⟨emptyProcess, []⟩, fun _ => 0⟩) ms ∧
    Memory.Sees allocator span Good Keeps emptyProcess
      (final (Memory.serve allocator .fault) echo ⟨⟨emptyProcess, []⟩, fun _ => 0⟩) ms := by
  refine process_refines_mirrors _ _ _ ⟨⟨⟨?_, ?_, ?_, ?_, ?_, ?_⟩, by decide, by decide, ?_⟩, ?_, ?_, ⟨?_, ?_⟩, Nat.zero_lt_one, trivial⟩
  · rintro _ ⟨⟩
    exact ⟨by decide, rfl⟩
  · rintro _ ⟨⟩
  · rintro _ ⟨⟩
    exact ⟨by decide, fun _ _ _ => rfl⟩
  · simp [emptyProcess]
  · simp [emptyProcess]
  · simp [emptyProcess]
  · rintro _ ⟨⟩
    decide
  all_goals exact ⟨(0x10000, generousKernel, 8192), List.mem_singleton_self _, by decide, by decide, by decide⟩

example : results (Memory.serve allocator .fault) echo ⟨⟨emptyProcess, []⟩, fun _ => 0⟩ =
    [.ok (.ok []), .ok (.ok []), .ok (.ok [1, 2]), .ok (.ok []), .ok (.ok [])] := rfl

end Linux

namespace Macos

def span (h : Int × Kernel × Nat) : Span (Nat × Nat) := ⟨h.1, h.2.2 / 2, fun k => (h.2.1.firstHalf, k)⟩

def allocator : Allocator Panic Task (Kernel × Nat) AllocError Int (Nat × Nat) where
  acquire x := allocateMirrored x.1 x.2
  release x ptr := deallocateMirrored x.1 ptr x.2
  table t := t.space
  claim x ptr := (span (ptr, x)).claim

/-- The kernel picks pages of the address space and an object that is not mapped, and the second
allocation does not fail alone. -/
structure Lawful (x : Kernel × Nat) (t : Task) : Prop where
  lawful : x.1.Lawful t x.2
  admissible : Admissible x.1 x.2
  aligned : ∀ addr, x.1.vmAllocate = some addr → (x.1.pageSize : Int) ∣ addr ∧ addr + x.2 < usizeBound
  unmapped : ∀ a k, t.space a ≠ some (x.1.firstHalf, k)
  firstHalf : ¬ FirstHalfFails x.1

structure Good (x : Kernel × Nat) (addr : Int) : Prop where
  admissible : Admissible x.1 x.2
  aligned : (x.1.pageSize : Int) ∣ addr
  base_pos : 0 < addr
  fits : addr + x.2 < usizeBound

variable {K : Kernel} {t t' : Task} {size : Nat}

/-- A successful call returns what the first allocation returned, and its first half shows the
object of the second allocation. -/
theorem wp_allocateMirrored : wp (allocateMirrored K size) t (fun r t' => ∀ addr, r = .ok addr →
      K.vmAllocate = some addr ∧ ∀ b : Nat, b < size / 2 → t'.space (addr + b) = some (K.firstHalf, b))
    fun _ _ => True := by
  simp only [allocateMirrored, wp_bind, wp_assert, implies_true, and_true, vmAllocate]
  intro _ _
  cases ha : K.vmAllocate with
  | none => simp
  | some addr =>
  simp only [wp_bind, wp_modify, wp_pure, wp_when, wp_throw, wp_ite, vmAllocateFixed, makeMemoryEntry, vmRemap, dealloc,
    wp_assert, reduceCtorEq, false_implies, implies_true, and_true, true_and]
  refine fun _ => ⟨fun _ _ _ => ⟨fun _ _ => ?_, fun h h' => absurd (Bool.eq_false_iff.mpr h) h'⟩,
    fun h h' => absurd (Bool.eq_false_iff.mpr h) h'⟩
  rintro _ ⟨⟩
  refine ⟨rfl, fun b hb => ?_⟩
  rw [if_neg (by omega)]
  exact AddressSpace.place_inside b hb

theorem sound : Session.Sound allocator Lawful Good fun _ _ => True where
  refl _ := trivial
  trans _ _ _ _ _ := trivial
  acquire := by
    rintro ⟨K, size⟩ t h
    have hends := ends_allocateMirrored h.lawful h.admissible
    refine ends_mono (hends.unique (hends.wp wp_allocateMirrored)) ?_
    rintro (e | addr) t' ⟨⟨-, hpost⟩ | ⟨hf, -⟩, hmap⟩
    · exact ⟨trivial, hpost⟩
    · exact absurd hf h.firstHalf
    · have hadd : Added t t' addr size := hpost
      obtain ⟨ha, hlow⟩ := hmap addr rfl
      obtain ⟨hal, hfit⟩ := h.aligned addr ha
      have heven : 2 * (size / 2) = size := h.admissible.even
      refine ⟨trivial, ⟨h.admissible, hal, (h.lawful addr ha).1, hfit⟩, ?_⟩
      refine Span.added (s := span (addr, K, size)) ?_ hlow (fun b hb => ?_) fun a ha => hadd.outside a ?_
      · rw [show 2 * (span (addr, K, size)).half = size from heven]
        exact hadd.free
      · exact (hadd.aliased b hb).trans (hlow b hb)
      · have hsize : (2 : Int) * (size / 2 : Nat) = size := by omega
        simpa only [span, hsize] using ha
    · exact absurd hf h.firstHalf
  release := by
    rintro ⟨K, size⟩ addr t h _
    have heven : 2 * (size / 2) = size := h.admissible.even
    have hpos := h.base_pos
    have hmod : size % K.pageSize = 0 := by
      rw [← heven, Nat.mul_mod, h.admissible.half_mod, Nat.mul_zero, Nat.zero_mod]
    have hne : size ≠ 0 := h.admissible.pos.ne'
    simp only [allocator, deallocateMirrored, ends_bind, ends_assert]
    refine ⟨by omega, hne, hmod, ends_dealloc h.admissible hpos ⟨trivial, ?_⟩⟩
    have hclear := Span.cleared (s := span (addr, K, size)) t.space
    rwa [show 2 * (span (addr, K, size)).half = size from heven] at hclear

theorem mirrored (β : Type) : Memory.Mirrored allocator span Lawful Good
    fun x => Buffer.Answer (β := β) x.1.pageSize x.2 where
  claim_eq _ _ := rfl
  half_pos x _ h := by
    have hpos := h.admissible.pos
    have heven := h.admissible.even
    show 0 < x.2 / 2
    omega
  injective _ _ _ j k _ _ he := (Prod.mk.inj he).2
  fresh x t h _ a k := h.unmapped a k
  fits _ _ _ h := ⟨rfl, h.aligned, h.base_pos, h.fits⟩

/-- On macOS the same holds of every run in which no call meets the unhandled failure. -/
theorem task_refines_mirrors {β : Type} (bytes : Nat × Nat → β) (t : Task) (qs : List (Memory.Request (Kernel × Nat) β))
    (hqs : Always (Memory.serve allocator .fault) (Memory.Request.Fits span Lawful) qs ⟨⟨t, []⟩, bytes⟩) :
    ∃ ms, Path (Memory.Serves fun x => Buffer.Answer x.1.pageSize x.2) qs []
        (results (Memory.serve allocator .fault) qs ⟨⟨t, []⟩, bytes⟩) ms ∧
      Memory.Sees allocator span Good (fun _ _ => True) t (final (Memory.serve allocator .fault) qs ⟨⟨t, []⟩, bytes⟩) ms :=
  Memory.refines sound (mirrored β) bytes qs hqs

/-- Every call succeeds. -/
def grantingKernel : Kernel := ⟨false, 4096, some 0x10000, true, true, true, 0, 1⟩

def echo : List (Memory.Request (Kernel × Nat) Nat) :=
  [.session (.acquire (grantingKernel, 8192)), .write 0x10ffe [1, 2, 3], .read 0x11ffe 2, .session (.release 0)]

theorem echo_task_refines : ∃ ms, Path (Memory.Serves fun x => Buffer.Answer x.1.pageSize x.2) echo []
      (results (Memory.serve allocator .fault) echo ⟨⟨emptyTask, []⟩, fun _ => 0⟩) ms ∧
    Memory.Sees allocator span Good (fun _ _ => True) emptyTask
      (final (Memory.serve allocator .fault) echo ⟨⟨emptyTask, []⟩, fun _ => 0⟩) ms := by
  refine task_refines_mirrors _ _ _ ⟨⟨?_, ⟨by decide, by decide, by decide⟩, ?_, fun a k => ?_, fun h => ?_⟩, ?_, ?_,
    Nat.zero_lt_one, trivial⟩
  · rintro _ ⟨⟩
    exact ⟨by decide, fun _ _ _ => rfl⟩
  · rintro _ ⟨⟩
    decide
  · simp [emptyTask]
  · exact absurd h.2 (by decide)
  all_goals exact ⟨(0x10000, grantingKernel, 8192), List.mem_singleton_self _, by decide, by decide, by decide⟩

end Macos

/-- The two halves of a buffer in a table of base addresses. -/
def Buffer.halves {κ : Type} (id : κ) (ptr : Int) (half : Nat) : Claim Int (κ × Nat) :=
  ⟨fun a => a = ptr ∨ a = ptr + half, fun _ => (id, half)⟩

namespace Winapi

def allocator : Allocator Panic Process (Kernel × Nat) AllocError Int (Nat × Nat) where
  acquire x := allocateMirrored x.1 x.2
  release x ptr := deallocateMirrored x.1 ptr x.2
  table p := p.views
  claim x ptr := Buffer.halves x.1.sectionId ptr (x.2 / 2)

/-- The loop never meets a reservation that fails. -/
structure Lawful (x : Kernel × Nat) (p : Process) : Prop where
  lawful : x.1.Lawful p x.2
  admissible : Admissible x.1 x.2
  reserves : ¬ ReservationFails x.1

structure Good (x : Kernel × Nat) (ptr : Int) : Prop where
  admissible : Admissible x.1 x.2
  base_pos : 0 < ptr

structure Keeps (p p' : Process) : Prop where
  handles_eq : p'.handles = p.handles
  reserved_eq : p'.reserved = p.reserved

variable {K : Kernel} {p p' : Process} {size : Nat}

theorem wp_attempts {h : Int} (left : Nat) : ∀ p : Process,
    wp (attempts K size h left) p (fun r _ => ∀ ptr, r = .ok ptr → ∃ k, K.virtualAlloc k = some ptr) fun _ _ => True := by
  induction left with
  | zero =>
    intro p
    simp only [attempts, wp_bind, wp_pure, reduceCtorEq, false_implies, implies_true]
    exact wp_trivial _ _
  | succ left ih =>
    intro p
    have hreserve : wp (reserveVirtualMemory K (maxNoAllocIters - left) size) p
        (fun r _ => ∀ a, r = .ok a → K.virtualAlloc (maxNoAllocIters - left) = some a) fun _ _ => True := by
      simp only [reserveVirtualMemory, wp_bind, wp_assert, implies_true, and_true]
      intro _ _
      cases K.virtualAlloc (maxNoAllocIters - left) with
      | none => simp
      | some a => simp [virtualFree]
    simp only [attempts, wp_bind]
    refine wp_mono hreserve ?_ fun _ _ _ => trivial
    rintro (e | a) q ha
    · simp
    simp only [wp_bind, wp_ite]
    refine wp_mono (wp_trivial _ _) (fun first q _ => ⟨fun _ => ih q, fun _ => ?_⟩) fun _ _ _ => trivial
    refine wp_mono (wp_trivial _ _) (fun second q _ => ⟨fun _ => ?_, fun _ => ?_⟩) fun _ _ _ => trivial
    · exact wp_mono (wp_trivial _ _) (fun _ q _ => ih q) fun _ _ _ => trivial
    · refine wp_pure.mpr ?_
      rintro _ ⟨⟩
      exact ⟨_, ha a rfl⟩

/-- A successful call returns a range that was reserved in some iteration. -/
theorem wp_allocateMirrored : wp (allocateMirrored K size) p
    (fun r _ => ∀ ptr, r = .ok ptr → ∃ k, K.virtualAlloc k = some ptr) fun _ _ => True := by
  simp only [allocateMirrored, wp_bind, wp_assert, implies_true, and_true]
  intro _ _
  refine wp_mono (wp_trivial _ _) ?_ fun _ _ _ => trivial
  rintro (e | fm) q -
  · simp
  simp only [wp_bind]
  refine wp_mono (wp_attempts _ q) ?_ fun _ _ _ => trivial
  rintro (e | ptr) q hk
  · simp
  simp only [wp_bind, wp_pure]
  exact wp_mono (wp_trivial _ _) (fun _ _ _ => hk) fun _ _ _ => trivial

theorem sound : Session.Sound allocator Lawful Good Keeps where
  refl _ := ⟨rfl, rfl⟩
  trans _ _ _ h h' := ⟨h'.handles_eq.trans h.handles_eq, h'.reserved_eq.trans h.reserved_eq⟩
  acquire := by
    rintro ⟨K, size⟩ p h
    have hends := ends_allocateMirrored h.lawful h.admissible
    refine ends_mono (hends.unique (hends.wp wp_allocateMirrored)) ?_
    rintro (e | ptr) p' ⟨⟨-, hleak⟩ | ⟨hf, -⟩, hk⟩
    · exact ⟨⟨hleak.1, hleak.2.1⟩, hleak.2.2⟩
    · exact absurd hf h.reserves
    · obtain ⟨k, hk⟩ := hk ptr rfl
      obtain ⟨hpos, -, hlow, hhigh⟩ := h.lawful.range k ptr hk
      refine ⟨⟨hleak.1, hleak.2.1⟩, ⟨h.admissible, hpos⟩, ?_, ?_, fun a ha => ?_⟩
      · rintro a (rfl | rfl)
        · exact hlow
        · exact hhigh
      · rintro a (rfl | rfl)
        · simp [allocator, hleak.2.2, Buffer.halves]
        · simp [allocator, hleak.2.2, Buffer.halves]
      · obtain ⟨h1, h2⟩ := not_or.mp ha
        exact (congrFun hleak.2.2 a).trans ((if_neg h2).trans (if_neg h1))
    · exact absurd hf h.reserves
  release := by
    rintro ⟨K, size⟩ ptr p h _
    have hpos := h.base_pos
    have hhalf : size / 2 ≠ 0 := h.admissible.pos
    have heven : 2 * (size / 2) = size := h.admissible.even
    have hmod : size % K.granularity = 0 := by
      rw [← heven, Nat.mul_mod, h.admissible.half_mod, Nat.mul_zero, Nat.zero_mod]
    simp only [allocator, deallocateMirrored, unmapViewOfFile, ends_bind, ends_assert, ends_modify]
    refine ⟨by omega, by omega, hmod, by omega, by omega, ⟨rfl, rfl⟩, ?_, fun a ha => ?_⟩
    · rintro a (rfl | rfl)
      · simp
      · simp
    · obtain ⟨h1, h2⟩ := not_or.mp ha
      exact (if_neg h2).trans (if_neg h1)

/-- Windows: in any run of allocations and deallocations that never meets a reservation that fails,
no call panics, and the open handles are those of the beginning, the views those of the beginning
and two for each buffer that was not deallocated. -/
theorem views_settle (p : Process) (rs : List (Session.Request (Kernel × Nat)))
    (hrs : Always (Session.serve allocator) (Session.Request.Fits Lawful) rs ⟨p, []⟩) :
    Always (Session.serve allocator) (fun r c => Ends (Session.serve allocator r) c fun _ _ => True) rs ⟨p, []⟩ ∧
      Session.Settled allocator Good Keeps p (final (Session.serve allocator) rs ⟨p, []⟩) :=
  Session.settled_final sound rs hrs

/-- The range is lost twice before each buffer is mapped. -/
def racySession : List (Session.Request (Kernel × Nat)) :=
  [.acquire (racyKernel, 0x20000), .release 0, .acquire (racyKernel, 0x20000)]

theorem racySession_settles :
    Always (Session.serve allocator) (fun r c => Ends (Session.serve allocator r) c fun _ _ => True) racySession
        ⟨emptyProcess, []⟩ ∧
      Session.Settled allocator Good Keeps emptyProcess (final (Session.serve allocator) racySession ⟨emptyProcess, []⟩) := by
  have hreserves : ¬ ReservationFails racyKernel := by
    rintro ⟨-, k, -, -, -, hk⟩
    cases hk
  refine views_settle _ _ ⟨⟨⟨?_, ?_⟩, ⟨by decide, by decide, by decide⟩, hreserves⟩, Nat.zero_lt_one,
    ⟨⟨?_, ?_⟩, ⟨by decide, by decide, by decide⟩, hreserves⟩, trivial⟩
  · rintro _ ⟨⟩
    exact ⟨by decide, rfl⟩
  · rintro _ _ ⟨⟩
    exact ⟨by decide, rfl, rfl, rfl⟩
  · rintro _ ⟨⟩
    exact ⟨by decide, rfl⟩
  · rintro _ _ ⟨⟩
    exact ⟨by decide, rfl, rfl, rfl⟩

end Winapi

namespace Sysv

def allocator : Allocator Panic Process (Kernel × Nat) AllocError Int (Int × Nat) where
  acquire x := allocateMirrored x.1 x.2
  release x ptr := deallocateMirrored ptr x.2
  table p := p.attached
  claim x ptr := Buffer.halves (x.1.shmget.getD 0) ptr (x.2 / 2)

structure Lawful (x : Kernel × Nat) (p : Process) : Prop where
  lawful : x.1.Lawful p x.2
  admissible : Admissible x.1 x.2

structure Good (x : Kernel × Nat) (ptr : Int) : Prop where
  even : 2 * (x.2 / 2) = x.2
  base_pos : 0 < ptr
  fits : ptr + x.2 ≤ isizeBound

/-- No range stays reserved, the segments of `p` are as they were, and every new one is marked for
removal once. -/
structure Keeps (p p' : Process) : Prop where
  reserved_eq : p'.reserved = p.reserved
  old : ∀ id n, p.segments id = some n → p'.segments id = some n ∧ p'.removals id = p.removals id
  new : ∀ id, p.segments id = none → p'.segments id = none ∧ p'.removals id = p.removals id ∨
    p'.segments id ≠ none ∧ p'.removals id = p.removals id + 1

variable {K : Kernel} {p p' : Process} {size : Nat}

theorem Keeps.refl (p : Process) : Keeps p p :=
  ⟨rfl, fun _ _ h => ⟨h, rfl⟩, fun _ h => .inl ⟨h, rfl⟩⟩

theorem Keeps.trans {q : Process} (h : Keeps p p') (h' : Keeps p' q) : Keeps p q := by
  refine ⟨h'.reserved_eq.trans h.reserved_eq, fun id n hn => ?_, fun id hn => ?_⟩
  · obtain ⟨hs, hr⟩ := h.old id n hn
    obtain ⟨hs', hr'⟩ := h'.old id n hs
    exact ⟨hs', hr'.trans hr⟩
  · rcases h.new id hn with ⟨hs, hr⟩ | ⟨hs, hr⟩
    · rcases h'.new id hs with ⟨hs', hr'⟩ | ⟨hs', hr'⟩
      · exact .inl ⟨hs', hr'.trans hr⟩
      · exact .inr ⟨hs', by rw [hr', hr]⟩
    · obtain ⟨n, hs⟩ := Option.ne_none_iff_exists'.mp hs
      obtain ⟨hs', hr'⟩ := h'.old id n hs
      exact .inr ⟨by simp [hs'], hr'.trans hr⟩

/-- The process once the segment exists. -/
def Process.withSegment (p : Process) (id : Int) (n : Nat) : Process :=
  { p with segments := fun x => if x = id then some n else p.segments x }

/-- A call that gets a segment runs the loop with it and marks it for removal. -/
theorem ends_allocateMirrored (h : K.Lawful p size) (hs : Admissible K size) :
    Ends (allocateMirrored K size) p fun r p' =>
      (∃ e, r = .error e ∧ p' = p) ∨ ∃ shm q, K.shmget = some shm ∧
        LoopPost K size shm maxNoIters (p.withSegment shm (size / 2)) r q ∧ p' = q.remove shm := by
  have hpos := hs.pos
  simp only [allocateMirrored, SharedMemory.allocate, ends_bind, ends_assert]
  refine ⟨by omega, hs.half_mod, hs.pos, hs.half_mod, ?_⟩
  cases hg : K.shmget with
  | none => exact ends_pure.mpr (ends_pure.mpr (.inl ⟨.oom, rfl, rfl⟩))
  | some shm =>
  simp only [ends_bind, ends_modify, ends_pure, SharedMemory.drop]
  refine ends_mono (ends_attempts (p := p.withSegment shm (size / 2)) maxNoIters (if_pos rfl) fun k a ha => ?_) ?_
  · obtain ⟨h1, -, h2, h3, -⟩ := h.range k a ha
    exact ⟨h1, h2, h3⟩
  · exact fun r q hpost => .inr ⟨shm, q, rfl, hpost, rfl⟩

theorem Keeps.of_idle {shm : Int} {n : Nat} {q : Process} (hnew : p.segments shm = none)
    (h : Idle n (p.withSegment shm (size / 2)) q) : Keeps p (q.remove shm) := by
  refine ⟨h.reserved_eq, fun id k hk => ?_, fun id hk => ?_⟩
  · have hne : id ≠ shm := by
      rintro rfl
      rw [hnew] at hk
      cases hk
    refine ⟨?_, ?_⟩
    · show q.segments id = some k
      rw [h.segments_eq]
      exact (if_neg hne).trans hk
    · exact (if_neg hne).trans (congrFun h.removals_eq id)
  · by_cases hid : id = shm
    · subst hid
      refine .inr ⟨?_, ?_⟩
      · show q.segments id ≠ none
        rw [h.segments_eq]
        simp [Process.withSegment]
      · exact (if_pos rfl).trans (congrArg (· + 1) (congrFun h.removals_eq id))
    · refine .inl ⟨?_, (if_neg hid).trans (congrFun h.removals_eq id)⟩
      show q.segments id = none
      rw [h.segments_eq]
      exact (if_neg hid).trans hk

theorem sound : Session.Sound allocator Lawful Good Keeps where
  refl := Keeps.refl
  trans _ _ _ := Keeps.trans
  acquire := by
    rintro ⟨K, size⟩ p h
    refine ends_mono (ends_allocateMirrored h.lawful h.admissible) ?_
    rintro r p' (⟨e, rfl, rfl⟩ | ⟨shm, q, hg, hpost, rfl⟩)
    · exact ⟨.refl _, rfl⟩
    have hnew := h.lawful.segment shm hg
    cases r with
    | error e => exact ⟨.of_idle hnew hpost, hpost.attached_eq⟩
    | ok ptr =>
      obtain ⟨⟨k, hk⟩, q', hidle, rfl⟩ := hpost
      obtain ⟨hpos, hfits, -, hlow, hhigh⟩ := h.lawful.range k ptr hk
      have hkeeps := Keeps.of_idle hnew hidle
      refine ⟨⟨hkeeps.reserved_eq, hkeeps.old, hkeeps.new⟩, ⟨h.admissible.even, hpos, hfits⟩, ?_, ?_, fun a ha => ?_⟩
      · rintro a (rfl | rfl)
        · exact hlow
        · exact hhigh
      · rintro a ha
        show (if a = _ then _ else if a = _ then _ else _) = some (K.shmget.getD 0, size / 2)
        rw [show K.shmget = some shm from hg]
        rcases ha with rfl | rfl
        · simp
        · simp
      · obtain ⟨h1, h2⟩ := not_or.mp ha
        exact (if_neg h2).trans ((if_neg h1).trans (congrFun hidle.attached_eq a))
  release := by
    rintro ⟨K, size⟩ ptr p h _
    have hpos := h.base_pos
    have hfits : ptr + size ≤ isizeBound := h.fits
    have hoff : (asIsize size).tdiv 2 = (size / 2 : Nat) := by
      rw [asIsize_of_lt (by omega)]
      exact (Int.natCast_div size 2).symm
    simp only [allocator, deallocateMirrored, MemoryMap.fromRaw, MemoryMap.drop, ends_bind, ends_assert, ends_pure,
      ends_modify, hoff]
    refine ⟨by omega, by omega, ⟨rfl, fun _ _ hn => ⟨hn, rfl⟩, fun _ hn => .inl ⟨hn, rfl⟩⟩, ?_, fun a ha => ?_⟩
    · rintro a (rfl | rfl)
      · simp [Process.detach]
      · simp [Process.detach]
    · obtain ⟨h1, h2⟩ := not_or.mp ha
      exact (if_neg h2).trans (if_neg h1)

/-- System V: in any run of allocations and deallocations, whatever is lost to other threads, no call
panics, exactly the halves of the buffers that were not deallocated are attached beside what was
attached before, and every segment that was made is marked for removal once. -/
theorem attachments_settle (p : Process) (rs : List (Session.Request (Kernel × Nat)))
    (hrs : Always (Session.serve allocator) (Session.Request.Fits Lawful) rs ⟨p, []⟩) :
    Always (Session.serve allocator) (fun r c => Ends (Session.serve allocator r) c fun _ _ => True) rs ⟨p, []⟩ ∧
      Session.Settled allocator Good Keeps p (final (Session.serve allocator) rs ⟨p, []⟩) :=
  Session.settled_final sound rs hrs

/-- The third attempt keeps both halves. -/
def luckyKernel : Kernel := ⟨4096, some 6, fun _ => some 0x10000, fun _ => true, fun k => decide (2 < k)⟩

def luckySession : List (Session.Request (Kernel × Nat)) :=
  [.acquire (unluckyKernel, 8192), .acquire (luckyKernel, 8192), .release 0]

theorem luckySession_settles :
    Always (Session.serve allocator) (fun r c => Ends (Session.serve allocator r) c fun _ _ => True) luckySession
        ⟨emptyProcess, []⟩ ∧
      Session.Settled allocator Good Keeps emptyProcess (final (Session.serve allocator) luckySession ⟨emptyProcess, []⟩) := by
  refine attachments_settle _ _ ⟨⟨⟨fun _ _ => rfl, fun k a ha => ?_⟩, ⟨by decide, by decide, by decide⟩⟩,
    ⟨⟨?_, ?_⟩, ⟨by decide, by decide, by decide⟩⟩, Nat.zero_lt_one, trivial⟩
  · have hk : a = 0x10000 := by
      by_cases hk : k = 1 <;> simp_all [unluckyKernel]
    subst hk
    exact ⟨by decide, by decide, fun _ _ _ => rfl, rfl, rfl⟩
  · rintro _ ⟨⟩
    rfl
  · rintro _ _ ⟨⟩
    exact ⟨by decide, by decide, fun b h1 h2 => if_pos ⟨h1, h2⟩, rfl, rfl⟩

end Sysv

end Sdeq
