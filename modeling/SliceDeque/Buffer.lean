import SliceDeque.Lib.Rounding
import SliceDeque.Lib.Ledger
import SliceDeque.Platform

/-!
# The mirrored buffer

`src/mirrored/buffer.rs`. The length of a buffer is recomputed into a byte
size whenever the buffer is freed or the head of a deque moves; `Buffer.Ok`
holds what makes this round trip exact.
-/

set_option autoImplicit false

namespace Sdeq
open Exec Rounding

structure Buffer (β : Type) where
  ptr : Region β
  len : Nat

/-- The buffer with other bytes in its memory. -/
def Buffer.withMemory {β : Type} (b : Buffer β) (m : Mirror β) : Buffer β :=
  ⟨⟨b.ptr.id, b.ptr.size, m⟩, b.len⟩

namespace Buffer
variable {T β X σ : Type} (E : Env T β)

def emptyLen : Nat := if E.layout.size = 0 then (isizeBound - 1) * 2 else 0

/-- `NonNull::dangling()`: an aligned address that maps no memory. -/
def dangling : Region β := ⟨0, 0, ⟨E.layout.align, 0, E.junk⟩⟩

def new : Buffer β := ⟨dangling E, emptyLen E⟩

def fromRawParts (ptr : Region β) (len : Nat) : Exec Panic σ (Buffer β) := do
  assert (len % 2 = 0)
  assert (ptr.mirror.base ≠ 0)
  when (E.layout.size = 0) (debugAssert E (len = emptyLen E))
  pure ⟨ptr, len⟩

def noRequiredAllocationUnits (bytes : Nat) : Exec Panic σ Nat := do
  let ag := E.granularity
  let sum ← usize E (bytes + ag)
  let top ← usizeSub E sum 1
  let r := max (top / ag) 1
  let r ← (if r % 2 = 0 then pure r else usize E (r + 1))
  when (E.debug = true) do
    let v ← usize E (r * ag)
    debugAssert E (bytes ≤ v)
  debugAssert E (r % 2 = 0)
  pure r

def sizeInBytes (len : Nat) : Exec Panic σ Nat := do
  let bytes ← usize E (len * E.layout.size)
  let units ← noRequiredAllocationUnits E bytes
  let v ← usize E (units * E.granularity)
  debugAssert E (bytes ≤ v)
  pure v

def uninitialized (len : Nat) : Method T X (Except AllocError (Buffer β)) := do
  if E.layout.size = 0 then pure (.ok ⟨dangling E, emptyLen E⟩)
  else do
    assert (E.layout.align ≤ E.granularity)
    if len = 0 then pure (.ok (new E))
    else do
      assert (len % 2 = 0)
      let allocSize ← sizeInBytes E len
      debugAssert E (0 < allocSize)
      debugAssert E (allocSize % 2 = 0)
      debugAssert E (allocSize % E.granularity = 0)
      debugAssert E (len * E.layout.size ≤ allocSize)
      let r ← allocateMirrored E allocSize
      match r with
      | .error e => pure (.error e)
      | .ok ptr => pure (.ok ⟨ptr, allocSize / E.layout.size⟩)

def drop (b : Buffer β) : Method T X Unit := do
  if E.layout.size = 0 then debugAssert E (b.len = emptyLen E)
  else if b.len = 0 then pure ()
  else do
    let size ← sizeInBytes E b.len
    deallocateMirrored E b.ptr size

/-! ## Sizes without machine arithmetic -/

/-- The bytes that are mapped for `len` elements. -/
def byteSize (len : Nat) : Nat := evenSize E.granularity (len * E.layout.size)

/-- No operation of `sizeInBytes` leaves the range of `usize`. -/
def Fits (len : Nat) : Prop :=
  len * E.layout.size + E.granularity < usizeBound ∧ byteSize E len < usizeBound

variable {E}

theorem byteSize_dvd (len : Nat) : 2 * E.granularity ∣ byteSize E len := evenSize_dvd _ _

theorem byteSize_pos (len : Nat) : 0 < byteSize E len := evenSize_pos E.granularity_pos _

theorem le_byteSize (len : Nat) : len * E.layout.size ≤ byteSize E len :=
  le_evenSize E.granularity_pos _

theorem byteSize_mod_granularity (len : Nat) : byteSize E len % E.granularity = 0 :=
  Nat.mod_eq_zero_of_dvd ((Dvd.intro_left 2 rfl).trans (byteSize_dvd len))

theorem byteSize_half_mod (len : Nat) : byteSize E len / 2 % E.granularity = 0 := by
  obtain ⟨k, hk⟩ := byteSize_dvd (E := E) len
  rw [hk, Nat.mul_assoc, Nat.mul_div_cancel_left _ (by omega)]
  exact Nat.mul_mod_right _ _

theorem two_mul_half_byteSize (len : Nat) : 2 * (byteSize E len / 2) = byteSize E len := by
  obtain ⟨k, hk⟩ := byteSize_dvd (E := E) len
  rw [hk, Nat.mul_assoc, Nat.mul_div_cancel_left _ (by omega)]

theorem byteSize_mono {n m : Nat} (h : n ≤ m) : byteSize E n ≤ byteSize E m :=
  evenSize_mono E.granularity_pos (Nat.mul_le_mul_right _ h)

theorem Fits.mono {n m : Nat} (h : Fits E m) (hnm : n ≤ m) : Fits E n := by
  have hb := byteSize_mono (E := E) hnm
  have hm := Nat.mul_le_mul_right E.layout.size hnm
  obtain ⟨h1, h2⟩ := h
  constructor <;> omega

theorem fits_of_no_bytes {len : Nat} (h : len * E.layout.size = 0) : Fits E len := by
  have hg := E.granularity_fits
  have hpos := E.granularity_pos
  have := evenSize_le (n := 0) E.granularity_pos (dvd_refl (2 * E.granularity)) (by omega) (by omega)
  unfold Fits byteSize
  rw [h]
  constructor <;> omega

/-- The number of units is rounded up to an even number, or the sum overflows. -/
theorem wp_noRequiredAllocationUnits {bytes : Nat} {s : σ} {Q : Nat → σ → Prop} {P : Panic → σ → Prop}
    (hQ : bytes + E.granularity < usizeBound → Q (evenUnits E.granularity bytes) s)
    (hP : ¬ (bytes + E.granularity < usizeBound ∧ evenSize E.granularity bytes < usizeBound) →
      E.debug = true → P .overflow s) : wp (noRequiredAllocationUnits E bytes) s Q P := by
  have hg := E.granularity_pos
  have hle := le_evenSize hg bytes
  have heven := evenUnits_even E.granularity bytes
  have htop := Nat.div_le_self (bytes + E.granularity - 1) E.granularity
  -- what follows the rounding of the number of units
  have hrest : bytes + E.granularity < usizeBound → ∀ r, r = evenUnits E.granularity bytes →
      wp (do
        when (E.debug = true) do
          let v ← usize E (r * E.granularity)
          debugAssert E (bytes ≤ v)
        debugAssert E (r % 2 = 0)
        pure r) s Q P := by
    rintro h r rfl
    have hsize : evenUnits E.granularity bytes * E.granularity = evenSize E.granularity bytes := rfl
    simp only [wp_bind, wp_when, wp_usize, wp_pure, hsize]
    refine ⟨fun _ => ⟨fun _ => ?_, fun hover => hP fun hh => by omega⟩, fun _ => ?_⟩
    · exact wp_debugAssert hle (wp_debugAssert heven (hQ h))
    · exact wp_debugAssert heven (hQ h)
  simp only [noRequiredAllocationUnits, wp_bind, wp_usize, wp_usizeSub, wp_ite, wp_pure] at hrest ⊢
  refine ⟨fun h => ⟨fun _ => ⟨fun hr => ?_, fun hr => ⟨fun _ => ?_, fun hover => ?_⟩⟩, fun _ => by omega⟩,
    fun h => hP fun hh => by omega⟩
  · exact hrest h _ (by unfold evenUnits; rw [if_pos hr])
  · exact hrest h _ (by unfold evenUnits; rw [if_neg hr])
  · unfold usizeBound at *
    omega

/-- Machine arithmetic computes `byteSize`, or it overflows. -/
theorem wp_sizeInBytes {len : Nat} {s : σ} {Q : Nat → σ → Prop} {P : Panic → σ → Prop}
    (hQ : Fits E len → Q (byteSize E len) s)
    (hP : ¬ Fits E len → E.debug = true → P .overflow s) :
    wp (sizeInBytes E len) s Q P := by
  have hle := le_byteSize (E := E) len
  simp only [sizeInBytes, wp_bind, wp_usize]
  refine ⟨fun _ => wp_noRequiredAllocationUnits (fun hsum => ?_) hP, fun hover => hP fun hf => ?_⟩
  · refine ⟨fun hsize => wp_debugAssert hle (wp_pure.mpr (hQ ⟨hsum, hsize⟩)), fun hover => hP fun hf => ?_⟩
    have := hf.2
    unfold byteSize evenSize at this
    omega
  · have := hf.1
    omega

theorem exact_noRequiredAllocationUnits {bytes : Nat} {s : σ} (hsum : bytes + E.granularity < usizeBound)
    (hsize : evenSize E.granularity bytes < usizeBound) : Exact (noRequiredAllocationUnits E bytes) s := by
  have hg := E.granularity_pos
  have htop := Nat.div_le_self (bytes + E.granularity - 1) E.granularity
  apply exact_usize_bind hsum
  apply exact_usizeSub_bind (by omega)
  have hround : wp (if max ((bytes + E.granularity - 1) / E.granularity) 1 % 2 = 0 then
        pure (max ((bytes + E.granularity - 1) / E.granularity) 1)
      else usize E (max ((bytes + E.granularity - 1) / E.granularity) 1 + 1)) s
      (fun r _ => r = evenUnits E.granularity bytes) fun _ _ => True := by
    unfold evenUnits
    simp only [wp_ite, wp_pure, wp_usize]
    exact ⟨fun hr => (if_pos hr).symm, fun hr => ⟨fun _ => (if_neg hr).symm, fun _ _ => trivial⟩⟩
  apply exact_seq _ hround
  · rintro _ s' rfl
    apply exact_bind
    · exact exact_when fun _ => exact_usize_bind hsize exact_debugAssert
    · exact fun _ _ => exact_bind exact_debugAssert fun _ _ => exact_pure
  · apply exact_ite
    · exact fun _ => exact_pure
    · intro _
      apply exact_usize
      unfold usizeBound at *
      omega

theorem exact_sizeInBytes {len : Nat} {s : σ} (h : Fits E len) : Exact (sizeInBytes E len) s := by
  obtain ⟨hsum, hsize⟩ := h
  apply exact_usize_bind (by omega)
  have hunits : wp (noRequiredAllocationUnits E (len * E.layout.size)) s
      (fun r _ => r = evenUnits E.granularity (len * E.layout.size)) fun _ _ => True :=
    wp_noRequiredAllocationUnits (fun _ => rfl) fun _ _ => trivial
  apply exact_seq (exact_noRequiredAllocationUnits hsum hsize) hunits
  rintro _ s' rfl
  exact exact_usize_bind hsize (exact_bind exact_debugAssert fun _ _ => exact_pure)

theorem sizeInBytes_apply {len : Nat} {s : σ} (h : Fits E len) : sizeInBytes E len s = ⟨false, .ok (byteSize E len), s⟩ := by
  have hwp : wp (sizeInBytes E len) s (fun v s' => v = byteSize E len ∧ s' = s) fun _ _ => False :=
    wp_sizeInBytes (fun _ => ⟨rfl, rfl⟩) fun hf => absurd h hf
  obtain ⟨v, s', hrun, rfl, rfl⟩ := ends_iff.mpr ⟨exact_sizeInBytes h, hwp⟩
  exact hrun

theorem sizeInBytes_congr {n n' : Nat} (h : Fits E n) (h' : Fits E n') (hb : byteSize E n' = byteSize E n) :
    (sizeInBytes E n' : Exec Panic σ Nat) = sizeInBytes E n := by
  funext s
  rw [sizeInBytes_apply h, sizeInBytes_apply h', hb]

theorem exact_sizeInBytes_of_debug {len : Nat} {s : σ} (hd : E.debug = true) : Exact (sizeInBytes E len) s := by
  have hunits : ∀ (bytes : Nat) (s : σ), Exact (noRequiredAllocationUnits E bytes) s := by
    intro bytes s
    apply exact_bind (exact_usize_of_debug hd)
    intro _ _
    apply exact_bind (exact_usizeSub_of_debug hd)
    intro _ _
    apply exact_bind (exact_ite (fun _ => exact_pure) fun _ => exact_usize_of_debug hd)
    intro _ _
    apply exact_bind (exact_when fun _ => exact_bind (exact_usize_of_debug hd) fun _ _ => exact_debugAssert)
    exact fun _ _ => exact_bind exact_debugAssert fun _ _ => exact_pure
  apply exact_bind (exact_usize_of_debug hd)
  intro _ _
  apply exact_bind (hunits _ _)
  intro _ _
  exact exact_bind (exact_usize_of_debug hd) fun _ _ => exact_bind exact_debugAssert fun _ _ => exact_pure

/-! ## Well-formed buffers -/

variable (E)

/-- Number of elements in one half. -/
def cap (b : Buffer β) : Nat := b.len / 2

/-- The mapping behind a buffer that owns one. -/
structure Allocated (b : Buffer β) : Prop where
  align_le : E.layout.align ≤ E.granularity
  half_eq : b.ptr.mirror.half = b.ptr.size / 2
  /-- the size that was requested is recovered from the rounded-down length -/
  size_eq : b.ptr.size = byteSize E (2 * b.cap)
  bytes_le : b.len * E.layout.size ≤ b.ptr.size
  cap_eq : b.cap = b.ptr.mirror.half / E.layout.size
  cap_pos : 0 < b.cap
  base_dvd : (E.granularity : Int) ∣ b.ptr.mirror.base
  base_fits : b.ptr.mirror.base + b.ptr.size < usizeBound

structure Ok (b : Buffer β) : Prop where
  base_pos : 0 < b.ptr.mirror.base
  base_dvd : E.layout.align ∣ E.granularity → (E.layout.align : Int) ∣ b.ptr.mirror.base
  zst : E.layout.size = 0 → b.len = emptyLen E
  alloc : E.layout.size ≠ 0 → b.len ≠ 0 → Allocated E b

/-- The mappings that are freed with a buffer, as call and size. -/
def regions (b : Buffer β) : List (Nat × Nat) :=
  if E.layout.size = 0 ∨ b.len = 0 then [] else [(b.ptr.id, b.ptr.size)]

/-- The size of one half as `move_head_unchecked` recomputes it. -/
def regionSize (b : Buffer β) : Nat := byteSize E b.len / 2

variable {E} {b : Buffer β}

theorem Allocated.byteSize_len (h : Allocated E b) : byteSize E b.len = b.ptr.size := by
  rw [h.size_eq]
  refine evenSize_sandwich E.granularity_pos (Nat.mul_le_mul_right _ ?_) (h.bytes_le.trans h.size_eq.le)
  unfold cap
  omega

theorem Allocated.two_mul_half (h : Allocated E b) : 2 * b.ptr.mirror.half = b.ptr.size := by
  rw [h.half_eq, h.size_eq, two_mul_half_byteSize]

theorem Allocated.regionSize_eq (h : Allocated E b) : b.regionSize E = b.ptr.mirror.half := by
  rw [regionSize, h.byteSize_len, h.half_eq]

theorem Allocated.cap_mul_le (h : Allocated E b) : b.cap * E.layout.size ≤ b.ptr.mirror.half := by
  rw [h.cap_eq]
  exact Nat.div_mul_le_self _ _

theorem Allocated.granularity_le_base (h : Allocated E b) (hpos : 0 < b.ptr.mirror.base) :
    (E.granularity : Int) ≤ b.ptr.mirror.base :=
  Int.le_of_dvd hpos h.base_dvd

theorem Ok.withMemory {m : Mirror β} (h : Ok E b) (hb : m.base = b.ptr.mirror.base)
    (hh : m.half = b.ptr.mirror.half) : Ok E (b.withMemory m) := by
  obtain ⟨base, half, bytes⟩ := m
  subst hb hh
  refine ⟨h.base_pos, h.base_dvd, h.zst, fun hs hl => ?_⟩
  have ha := h.alloc hs hl
  exact ⟨ha.align_le, ha.half_eq, ha.size_eq, ha.bytes_le, ha.cap_eq, ha.cap_pos, ha.base_dvd, ha.base_fits⟩

theorem Ok.fits (h : Ok E b) : Fits E b.len := by
  by_cases hs : E.layout.size = 0
  · exact fits_of_no_bytes (by rw [hs, Nat.mul_zero])
  by_cases hl : b.len = 0
  · exact fits_of_no_bytes (by rw [hl, Nat.zero_mul])
  have ha := h.alloc hs hl
  have hb := ha.granularity_le_base h.base_pos
  have hf := ha.base_fits
  have hle := ha.bytes_le
  have hlen := ha.byteSize_len
  have hpos := E.granularity_pos
  constructor <;> omega

theorem Ok.len_lt (h : Ok E b) : b.len < usizeBound := by
  by_cases hs : E.layout.size = 0
  · rw [h.zst hs, emptyLen, if_pos hs]
    decide
  have := h.fits.1
  have : b.len * 1 ≤ b.len * E.layout.size := Nat.mul_le_mul_left _ (by omega)
  omega

theorem Ok.cap_lt (h : Ok E b) : b.cap < isizeBound := by
  have := h.len_lt
  unfold cap usizeBound isizeBound at *
  omega

/-- A buffer for fewer elements can be asked for. -/
theorem Ok.request {n : Nat} (h : Ok E b) (hn : n ≤ b.cap) : 2 * n < usizeBound ∧ Fits E (2 * n) := by
  have hlt := h.cap_lt
  have hbound : 2 * isizeBound = usizeBound := by decide
  refine ⟨by omega, h.fits.mono ?_⟩
  unfold cap at hn
  omega

theorem Ok.align_le (h : Ok E b) (hs : E.layout.size ≠ 0) (hc : b.cap ≠ 0) : E.layout.align ≤ E.granularity :=
  (h.alloc hs fun hl => hc (by simp [cap, hl])).align_le

theorem Ok.cap_mul_le (h : Ok E b) : b.cap * E.layout.size ≤ b.ptr.mirror.half := by
  by_cases hs : E.layout.size = 0
  · simp [hs]
  by_cases hl : b.len = 0
  · simp [cap, hl]
  exact (h.alloc hs hl).cap_mul_le

theorem Ok.cap_mul_le_max (h : Ok E b) : b.cap * E.layout.size < isizeBound := by
  by_cases hc : b.cap * E.layout.size = 0
  · rw [hc]
    decide
  have ha := h.alloc (fun hs => hc (by rw [hs, Nat.mul_zero])) fun hl => hc (by simp [cap, hl])
  have hle := ha.cap_mul_le
  have hhalf := ha.two_mul_half
  have hfits := ha.base_fits
  have hpos := h.base_pos
  unfold isizeBound usizeBound at *
  omega

theorem regionSize_pos (b : Buffer β) : 0 < b.regionSize E := by
  have hp := byteSize_pos (E := E) b.len
  have h2 := two_mul_half_byteSize (E := E) b.len
  unfold regionSize
  omega

/-- Where elements occupy memory, the recomputed half is the real one. -/
theorem Ok.regionSize_eq (h : Ok E b) (hc : b.cap * E.layout.size ≠ 0) :
    b.regionSize E = b.ptr.mirror.half := by
  refine (h.alloc ?_ ?_).regionSize_eq
  · rintro hs
    simp [hs] at hc
  · rintro hl
    simp [cap, hl] at hc

theorem Ok.cap_mul_le_regionSize (h : Ok E b) : b.cap * E.layout.size ≤ b.regionSize E := by
  by_cases hc : b.cap * E.layout.size = 0
  · rw [hc]
    omega
  · rw [h.regionSize_eq hc]
    exact h.cap_mul_le

theorem regionSize_dvd (b : Buffer β) (hd : E.layout.align ∣ E.granularity) :
    (E.layout.align : Int) ∣ (b.regionSize E : Nat) := by
  obtain ⟨k, hk⟩ := byteSize_dvd (E := E) b.len
  have : b.regionSize E = E.granularity * k := by
    unfold regionSize
    rw [hk, Nat.mul_assoc, Nat.mul_div_cancel_left _ (by omega)]
  rw [this]
  exact_mod_cast hd.trans (Dvd.intro k rfl)

theorem ok_new : Ok E (new E) where
  base_pos := by
    have := E.layout.align_pos
    simp only [new, dangling]
    omega
  base_dvd _ := dvd_refl _
  zst _ := rfl
  alloc hs hl := by simp [new, emptyLen, hs] at hl

@[simp] theorem regions_new : regions E (new E) = [] := by
  by_cases hs : E.layout.size = 0 <;> simp [regions, new, emptyLen, hs]

theorem cap_new (hs : E.layout.size ≠ 0) : (new E).cap = 0 := by
  simp [cap, new, emptyLen, hs]

theorem Ok.cap_zst (h : Ok E b) (hs : E.layout.size = 0) : b.cap = isizeBound - 1 := by
  rw [cap, h.zst hs, emptyLen, if_pos hs, Nat.mul_div_cancel _ (by omega)]

/-- A buffer freed with the rounded-down capacity is freed with the right size. -/
theorem Ok.recap (h : Ok E b) :
    Ok E ⟨b.ptr, 2 * b.cap⟩ ∧ regions E ⟨b.ptr, 2 * b.cap⟩ = b.regions E := by
  have hcap : (⟨b.ptr, 2 * b.cap⟩ : Buffer β).cap = b.cap := by simp [cap]
  refine ⟨⟨h.base_pos, h.base_dvd, fun hs => ?_, fun hs hl => ?_⟩, ?_⟩
  · rw [h.cap_zst hs, emptyLen, if_pos hs, Nat.mul_comm]
  · have ha := h.alloc hs fun h0 => hl (by simp [cap, h0])
    refine ⟨ha.align_le, ha.half_eq, by rw [hcap]; exact ha.size_eq, ?_, by rw [hcap]; exact ha.cap_eq,
      by rw [hcap]; exact ha.cap_pos, ha.base_dvd, ha.base_fits⟩
    exact (Nat.mul_le_mul_right _ (show 2 * b.cap ≤ b.len by unfold cap; omega)).trans ha.bytes_le
  · unfold regions
    by_cases hs : E.layout.size = 0
    · rw [if_pos (.inl hs), if_pos (.inl hs)]
    by_cases hl : b.len = 0
    · rw [if_pos (.inr (by simp [cap, hl])), if_pos (.inr hl)]
    · have := (h.alloc hs hl).cap_pos
      rw [if_neg (by rintro (h | h) <;> [exact hs h; (dsimp only at h; omega)]),
        if_neg (by rintro (h | h) <;> [exact hs h; exact hl h])]

theorem wp_fromRawParts {ptr : Region β} {len : Nat} {t : σ} {Q : Buffer β → σ → Prop} {P : Panic → σ → Prop}
    (h : Ok E ⟨ptr, len⟩) (h2 : len % 2 = 0) (hQ : Q ⟨ptr, len⟩ t) : wp (fromRawParts E ptr len) t Q P := by
  have hbase := h.base_pos
  simp only [fromRawParts, wp_bind, wp_assert, wp_when, wp_pure]
  refine ⟨fun _ => ⟨fun _ => ⟨fun hs => wp_debugAssert (h.zst hs) hQ, fun _ => hQ⟩, fun h0 => absurd hbase.ne' h0⟩,
    fun hodd => absurd h2 hodd⟩

theorem exact_fromRawParts {ptr : Region β} {len : Nat} {t : σ} : Exact (fromRawParts E ptr len) t :=
  exact_bind exact_assert fun _ _ => exact_bind exact_assert fun _ _ =>
    exact_bind (exact_when fun _ => exact_debugAssert) fun _ _ => exact_pure

/-- The length of a buffer that was asked for `n` elements. -/
def lenFor (E : Env T β) (n : Nat) : Nat :=
  if E.layout.size = 0 then emptyLen E else if n = 0 then 0 else byteSize E n / E.layout.size

theorem le_lenFor {n : Nat} (hs : E.layout.size ≠ 0) : n ≤ lenFor E n := by
  rw [lenFor, if_neg hs]
  split
  · omega
  · exact (Nat.le_div_iff_mul_le (by omega)).mpr (le_byteSize n)

/-- What a successful `uninitialized(n)` returns. -/
structure Uninit (s s' : Frame X T) (n : Nat) (b : Buffer β) : Prop where
  ok : Ok E b
  len_eq : b.len = lenFor E n
  align_le : E.layout.size ≠ 0 → E.layout.align ≤ E.granularity
  /-- the mapping is what the allocator answered -/
  fresh : E.layout.size ≠ 0 → n ≠ 0 → ∃ a f, E.allocate s.world.calls (byteSize E n) = .ok (a, f) ∧
    b.ptr = ⟨s.world.calls, byteSize E n, ⟨a, byteSize E n / 2, f⟩⟩
  self_eq : s'.self = s.self
  world_eq : s'.world = s.world.map (regions E b)
  call : ∀ r ∈ regions E b, r.1 = s.world.calls

/-- What an allocation failure leaves. -/
structure Refused (E : Env T β) (s s' : Frame X T) (e : AllocError) : Prop where
  answer : ∃ n, E.allocate s.world.calls n = .error e
  self_eq : s'.self = s.self
  world_eq : s'.world = s.world.refuse

theorem wp_allocateMirrored {size : Nat} {s : Frame X T}
    {Q : Except AllocError (Region β) → Frame X T → Prop} {P : Panic → Frame X T → Prop}
    (h0 : size ≠ 0) (h1 : size / 2 % E.granularity = 0)
    (hok : ∀ a f, E.allocate s.world.calls size = .ok (a, f) →
      Q (.ok ⟨s.world.calls, size, ⟨a, size / 2, f⟩⟩) ⟨s.self, s.world.map [(s.world.calls, size)]⟩)
    (herr : ∀ e s', E.allocate s.world.calls size = .error e → Refused E s s' e → Q (.error e) s') :
    wp (allocateMirrored E size) s Q P := by
  simp only [allocateMirrored, wp_bind, wp_assert, wp_world]
  refine ⟨fun _ => ⟨fun _ => ?_, fun h => absurd h1 h⟩, fun h => absurd h0 h⟩
  cases ha : E.allocate s.world.calls size with
  | error e =>
    simp only [wp_bind, wp_modifyWorld, wp_pure]
    exact herr e _ ha ⟨⟨size, ha⟩, rfl, rfl⟩
  | ok r =>
    simp only [wp_bind, wp_modifyWorld, wp_pure]
    exact hok r.1 r.2 ha

/-- The buffer made from a fresh mapping of `byteSize n` bytes. -/
theorem ok_of_mapping {n k : Nat} {a : Int} {f : Int → β} (hs : E.layout.size ≠ 0)
    (hal : E.layout.align ≤ E.granularity) (hn : n ≠ 0) (h2 : n % 2 = 0)
    (ha : E.allocate k (byteSize E n) = .ok (a, f)) :
    Ok E ⟨⟨k, byteSize E n, ⟨a, byteSize E n / 2, f⟩⟩, byteSize E n / E.layout.size⟩ ∧
      n ≤ byteSize E n / E.layout.size := by
  have hge : n ≤ byteSize E n / E.layout.size :=
    (Nat.le_div_iff_mul_le (by omega)).mpr (le_byteSize n)
  have hle := Nat.div_mul_le_self (byteSize E n) E.layout.size
  refine ⟨⟨E.base_pos _ _ _ _ ha, fun hd => ?_, fun h => absurd h hs, fun _ _ => ?_⟩, hge⟩
  · exact (Int.natCast_dvd_natCast.mpr hd).trans (E.base_dvd _ _ _ _ ha)
  refine ⟨hal, rfl, ?_, hle, half_div _ _, ?_, E.base_dvd _ _ _ _ ha, E.base_fits _ _ _ _ ha⟩
  · have h2n : n ≤ 2 * (byteSize E n / E.layout.size / 2) := by omega
    exact (evenSize_sandwich E.granularity_pos (Nat.mul_le_mul_right _ h2n)
      ((Nat.mul_le_mul_right _ (by omega)).trans hle)).symm
  · unfold cap
    dsimp only
    omega

/-- `uninitialized` for an even length. Before an error or a panic nothing has happened. -/
theorem wp_uninitialized {n : Nat} {s : Frame X T} (h2 : n % 2 = 0) :
    wp (uninitialized E n) s
      (fun r s' => match r with
        | .ok b => Uninit (E := E) s s' n b
        | .error e => n ≠ 0 ∧ E.allocate s.world.calls (byteSize E n) = .error e ∧ Refused E s s' e)
      (fun p s' => s' = s ∧ (p = .overflow ∧ ¬ Fits E n ∨
        p = .assert ∧ E.layout.size ≠ 0 ∧ E.granularity < E.layout.align)) := by
  unfold uninitialized
  rw [wp_ite]
  refine ⟨fun hs => ?_, fun hs => ?_⟩
  · rw [wp_pure]
    refine ⟨⟨?_, fun _ => dvd_refl _, fun _ => rfl, fun h => absurd hs h⟩, ?_, fun h => absurd hs h, fun h => absurd hs h, rfl, ?_, ?_⟩
    · have := E.layout.align_pos
      simp only [dangling]
      omega
    · rw [lenFor, if_pos hs]
    · simp [regions, hs, World.map]
    · simp [regions, hs]
  simp only [wp_bind, wp_assert]
  refine ⟨fun hal => ?_, fun hal => ⟨trivial, .inr ⟨trivial, hs, by omega⟩⟩⟩
  rw [wp_ite]
  refine ⟨fun hn => ?_, fun hn => ?_⟩
  · rw [wp_pure]
    refine ⟨ok_new, ?_, fun _ => hal, fun _ h => absurd hn h, rfl, by simp [World.map], by simp⟩
    rw [lenFor, if_neg hs, if_pos hn, new, emptyLen, if_neg hs]
  simp only [wp_bind, wp_assert]
  refine ⟨fun _ => ?_, fun h => absurd h2 h⟩
  refine wp_sizeInBytes (fun hf => ?_) (fun hf _ => ⟨rfl, .inl ⟨rfl, hf⟩⟩)
  have hpos := byteSize_pos (E := E) n
  refine wp_debugAssert hpos ?_
  refine wp_debugAssert (by have := two_mul_half_byteSize (E := E) n; omega) ?_
  refine wp_debugAssert (byteSize_mod_granularity n) ?_
  refine wp_debugAssert (le_byteSize n) ?_
  refine wp_allocateMirrored (by omega) (byteSize_half_mod n) (fun a f ha => ?_) (fun e s' he h => ?_)
  · obtain ⟨hok, hge⟩ := ok_of_mapping hs hal hn h2 ha
    rw [wp_pure]
    have hr : regions E (⟨⟨s.world.calls, byteSize E n, ⟨a, byteSize E n / 2, f⟩⟩,
        byteSize E n / E.layout.size⟩ : Buffer β) = [(s.world.calls, byteSize E n)] :=
      if_neg (by rintro (h | h) <;> [exact hs h; (dsimp only at h; omega)])
    refine ⟨hok, ?_, fun _ => hal, fun _ _ => ⟨a, f, ha, rfl⟩, rfl, ?_, ?_⟩
    · rw [lenFor, if_neg hs, if_neg hn]
    · rw [hr]
    · simp [hr]
  · exact wp_pure.mpr ⟨hn, he, h⟩

theorem exact_allocateMirrored {size : Nat} {s : Frame X T} : Exact (allocateMirrored E size) s := by
  apply exact_bind exact_assert
  intro _ _
  apply exact_bind exact_assert
  intro _ _
  apply exact_bind exact_world
  intro w s'
  cases E.allocate w.calls size with
  | error e => exact exact_bind exact_modifyWorld fun _ _ => exact_pure
  | ok r => exact exact_bind exact_modifyWorld fun _ _ => exact_pure

theorem exact_uninitialized {n : Nat} {s : Frame X T}
    (h : E.debug = true ∨ (E.layout.size ≠ 0 → E.layout.align ≤ E.granularity → Fits E n)) :
    Exact (uninitialized E n) s := by
  apply exact_ite
  · exact fun _ => exact_pure
  intro hs
  apply exact_assert_bind
  intro hal
  apply exact_ite
  · exact fun _ => exact_pure
  intro _
  apply exact_bind exact_assert
  intro _ _
  have hsize : ∀ s : Frame X T, Exact (sizeInBytes E n) s := by
    intro s
    rcases h with hd | hf
    · exact exact_sizeInBytes_of_debug hd
    · exact exact_sizeInBytes (hf hs hal)
  apply exact_bind (hsize _)
  intro _ _
  apply exact_bind exact_debugAssert
  intro _ _
  apply exact_bind exact_debugAssert
  intro _ _
  apply exact_bind exact_debugAssert
  intro _ _
  apply exact_bind exact_debugAssert
  intro _ _
  apply exact_bind exact_allocateMirrored
  intro r _
  cases r <;> exact exact_pure

/-- Without overflow checks a size that does not fit wraps around. -/
theorem wp_uninitialized_wraps {n : Nat} {s : Frame X T} (hd : E.debug = false) (hs : E.layout.size ≠ 0)
    (hal : E.layout.align ≤ E.granularity) (h2 : n % 2 = 0) (hf : ¬ Fits E n) :
    wp (uninitialized E n) s (fun _ _ => False) fun _ _ => False := by
  have hn : n ≠ 0 := by
    intro h0
    exact hf (fits_of_no_bytes (by rw [h0, Nat.zero_mul]))
  rw [uninitialized, if_neg hs, wp_bind, wp_assert]
  refine ⟨fun _ => ?_, fun hlt => hlt hal⟩
  rw [if_neg hn, wp_bind, wp_assert]
  refine ⟨fun _ => ?_, fun hodd => hodd h2⟩
  rw [wp_bind]
  exact wp_sizeInBytes (fun hfit => absurd hfit hf) fun _ hdebug => absurd hdebug (by rw [hd]; decide)

theorem wp_drop {s : Frame X T} {Q : Unit → Frame X T → Prop} {P : Panic → Frame X T → Prop}
    (h : Ok E b) (hQ : Q () ⟨s.self, s.world.unmap (regions E b)⟩) : wp (drop E b) s Q P := by
  unfold drop regions at *
  rw [wp_ite]
  refine ⟨fun hs => ?_, fun hs => ?_⟩
  · refine wp_debugAssert (h.zst hs) ?_
    simpa [hs, World.unmap] using hQ
  rw [wp_ite]
  refine ⟨fun hl => ?_, fun hl => ?_⟩
  · simpa [hl, World.unmap] using hQ
  have ha := h.alloc hs hl
  simp only [wp_bind]
  refine wp_sizeInBytes (fun _ => ?_) (fun hf => absurd h.fits hf)
  have hb := h.base_pos
  have hpos := byteSize_pos (E := E) b.len
  simp only [deallocateMirrored, wp_bind, wp_assert, wp_modifyWorld]
  refine ⟨fun _ => ⟨fun _ => ⟨fun _ => ?_, fun h => absurd (byteSize_mod_granularity _) h⟩,
    fun h => by omega⟩, fun h => by omega⟩
  rw [ha.byteSize_len]
  simpa [hs, hl] using hQ

theorem exact_drop {s : Frame X T} (h : Ok E b) : Exact (drop E b) s := by
  apply exact_ite
  · exact fun _ => exact_debugAssert
  · intro _
    apply exact_ite
    · exact fun _ => exact_pure
    · exact fun _ => exact_bind (exact_sizeInBytes h.fits) fun _ _ => exact_bind exact_assert fun _ _ =>
        exact_bind exact_assert fun _ _ => exact_bind exact_assert fun _ _ => exact_modifyWorld

end Buffer

end Sdeq
