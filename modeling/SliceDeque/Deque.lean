import SliceDeque.Buffer

/-!
# The deque: representation, head, tail and growth

`src/lib.rs`. A deque is a buffer together with the address and the length of
its element slice. `SliceDeque.WF` is the representation invariant; a deque
that satisfies it is an array of `capacity` slots behind its head.
-/

set_option autoImplicit false

namespace Sdeq
open Exec

section Memory
variable {T β σ : Type} (E : Env T β)

/-- `ptr::read` -/
def readAt (r : Region β) (a : Int) : Exec Panic σ T :=
  if r.mirror.Covers a E.layout.size then pure (r.mirror.read E.layout a) else throw .fault

/-- `ptr::write` -/
def writeAt (r : Region β) (a : Int) (v : T) : Exec Panic σ (Region β) :=
  if r.mirror.Covers a E.layout.size then pure { r with mirror := r.mirror.write E.layout a v }
  else throw .fault

/-- `ptr::copy` and `ptr::copy_nonoverlapping` of `count` elements. -/
def copyAt (dst : Region β) (d : Int) (src : Region β) (a : Int) (count : Nat) :
    Exec Panic σ (Region β) :=
  if src.mirror.Covers a (count * E.layout.size) ∧ dst.mirror.Covers d (count * E.layout.size) then
    pure { dst with mirror := dst.mirror.copyFrom d src.mirror a (count * E.layout.size) }
  else throw .fault

/-- The values of `n` consecutive slots from address `a` on. -/
def readRange (r : Region β) (a : Int) (n : Nat) : Exec Panic σ (List T) :=
  if r.mirror.Covers a (n * E.layout.size) then pure (r.mirror.elems E.layout a n) else throw .fault

variable {E} {σ₀ : σ} {P : Panic → σ → Prop}

theorem wp_copyAt {dst src : Region β} {d a : Int} {n : Nat} {Q : Region β → σ → Prop}
    (hs : src.mirror.Covers a (n * E.layout.size)) (hd : dst.mirror.Covers d (n * E.layout.size))
    (hQ : Q ⟨dst.id, dst.size, dst.mirror.copyFrom d src.mirror a (n * E.layout.size)⟩ σ₀) :
    wp (copyAt E dst d src a n) σ₀ Q P := by
  rw [copyAt, if_pos ⟨hs, hd⟩]
  exact wp_pure.mpr hQ

theorem wp_readRange {r : Region β} {a : Int} {n : Nat} {Q : List T → σ → Prop}
    (h : r.mirror.Covers a (n * E.layout.size)) (hQ : Q (r.mirror.elems E.layout a n) σ₀) :
    wp (readRange E r a n) σ₀ Q P := by
  rw [readRange, if_pos h]
  exact wp_pure.mpr hQ

@[simp] theorem exact_readAt {r : Region β} {a : Int} : Exact (readAt E r a) σ₀ :=
  exact_ite (fun _ => exact_pure) fun _ => exact_throw

@[simp] theorem exact_writeAt {r : Region β} {a : Int} {v : T} : Exact (writeAt E r a v) σ₀ :=
  exact_ite (fun _ => exact_pure) fun _ => exact_throw

@[simp] theorem exact_copyAt {dst src : Region β} {d a : Int} {n : Nat} : Exact (copyAt E dst d src a n) σ₀ :=
  exact_ite (fun _ => exact_pure) fun _ => exact_throw

theorem exact_copyAt_bind {α : Type} {dst src : Region β} {d a : Int} {n : Nat} {f : Region β → Exec Panic σ α}
    (h : Exact (f ⟨dst.id, dst.size, dst.mirror.copyFrom d src.mirror a (n * E.layout.size)⟩) σ₀) :
    Exact (copyAt E dst d src a n >>= f) σ₀ := by
  have hcopy : wp (copyAt E dst d src a n) σ₀
      (fun r σ => r = ⟨dst.id, dst.size, dst.mirror.copyFrom d src.mirror a (n * E.layout.size)⟩ ∧ σ = σ₀)
      fun _ _ => True := by
    simp only [copyAt, wp_ite, wp_pure, wp_throw]
    exact ⟨fun _ => ⟨trivial, trivial⟩, fun _ => trivial⟩
  apply exact_seq exact_copyAt hcopy
  rintro _ _ ⟨rfl, rfl⟩
  exact h

@[simp] theorem exact_readRange {r : Region β} {a : Int} {n : Nat} : Exact (readRange E r a n) σ₀ :=
  exact_ite (fun _ => exact_pure) fun _ => exact_throw

end Memory

/-- `NonNull<[T]>` -/
structure Slice where
  ptr : Int
  len : Nat

structure SliceDeque (β : Type) where
  elems : Slice
  buf : Buffer β

abbrev DeqM (T β α : Type) := Method T (SliceDeque β) α

namespace SliceDeque
variable {T β X : Type} (E : Env T β)

def new : SliceDeque β := ⟨⟨(Buffer.new E).ptr.mirror.base, 0⟩, Buffer.new E⟩

def capacity (d : SliceDeque β) : Nat := d.buf.cap

/-- The deque with another number of elements. -/
def withLen (d : SliceDeque β) (n : Nat) : SliceDeque β := ⟨⟨d.elems.ptr, n⟩, d.buf⟩

def withCapacity (n : Nat) : Method T X (SliceDeque β) := do
  let n2 ← usize E (2 * n)
  let r ← Buffer.uninitialized E n2
  match r with
  | .error e => throw (.alloc e)
  | .ok buf => pure ⟨⟨buf.ptr.mirror.base, 0⟩, buf⟩

/-- Is the address one of an element of the slice? -/
def inBounds (s : Slice) (p : Int) : Prop := s.ptr ≤ p ∧ p < s.ptr + E.layout.size * s.len

instance (s : Slice) (p : Int) : Decidable (inBounds E s p) := inferInstanceAs (Decidable (_ ∧ _))

def fromRawParts (ptr : Region β) (capacity : Nat) (elems : Slice) : Method T X (SliceDeque β) := do
  debugAssert E (inBounds E ⟨ptr.mirror.base, capacity⟩ elems.ptr)
  debugAssert E (elems.len < capacity)
  let n2 ← usize E (capacity * 2)
  let buf ← Buffer.fromRawParts E ptr n2
  pure ⟨elems, buf⟩

def len : DeqM T β Nat := do
  let d ← self
  debugAssert E (d.elems.len ≤ d.capacity)
  pure d.elems.len

def isFull : DeqM T β Bool := do
  let l ← len E
  let d ← self
  pure (l == d.capacity)

/-- Address of the uninitialized slots behind the tail, and their number. -/
def tailHeadSlice (d : SliceDeque β) : Slice :=
  ⟨d.elems.ptr + d.elems.len * E.layout.size, d.capacity - d.elems.len⟩

def readSlot (i : Int) : DeqM T β T := do
  let d ← self
  readAt E d.buf.ptr (d.elems.ptr + i * E.layout.size)

def writeSlot (i : Int) (v : T) : DeqM T β Unit := do
  let d ← self
  let r ← writeAt E d.buf.ptr (d.elems.ptr + i * E.layout.size) v
  setSelf { d with buf := { d.buf with ptr := r } }

/-- Copy `count` elements from slot `i` to slot `j`; the ranges may overlap. -/
def copySlots (i j : Int) (count : Nat) : DeqM T β Unit := do
  let d ← self
  let r ← copyAt E d.buf.ptr (d.elems.ptr + j * E.layout.size) d.buf.ptr
    (d.elems.ptr + i * E.layout.size) count
  setSelf { d with buf := { d.buf with ptr := r } }

/-- `self.get_mut(i).unwrap()` -/
def unwrapIndex (i : Nat) : DeqM T β Unit := do
  let d ← self
  assert (i < d.elems.len)

def growPolicy (additional : Nat) : DeqM T β Nat := do
  let d ← self
  let curCap := d.capacity
  let oldLen ← len E
  if oldLen + additional < usizeBound then
    let reqCap := oldLen + additional
    if curCap < reqCap then
      let dblCap := min (2 * curCap) (usizeBound - 1)
      pure (max reqCap dblCap)
    else pure reqCap
  else throw .overflow

def reserveCapacity (newCapacity : Nat) : DeqM T β (Except AllocError Unit) := do
  let d ← self
  if newCapacity ≤ d.capacity then pure (.ok ())
  else do
    let n2 ← usize E (2 * newCapacity)
    let r ← Buffer.uninitialized E n2
    match r with
    | .error e => pure (.error e)
    | .ok newBuffer => do
      debugAssert E (2 * newCapacity ≤ newBuffer.len)
      let len ← len E
      let ptr ← copyAt E newBuffer.ptr newBuffer.ptr.mirror.base d.buf.ptr d.elems.ptr len
      modifyWorld fun w => w.copy len
      setSelf ⟨⟨ptr.mirror.base, len⟩, { newBuffer with ptr := ptr }⟩
      Buffer.drop E d.buf
      pure (.ok ())

def tryReserve (additional : Nat) : DeqM T β (Except AllocError Unit) := do
  let oldLen ← len E
  let newCap ← growPolicy E additional
  let r ← reserveCapacity E newCap
  match r with
  | .error e => pure (.error e)
  | .ok () => do
    let d ← self
    debugAssert E (oldLen + additional ≤ d.capacity)
    pure (.ok ())

/-- `unwrap` of an allocation result -/
def unwrapAlloc (r : Except AllocError Unit) : DeqM T β Unit :=
  match r with
  | .error e => throw (.alloc e)
  | .ok () => pure ()

def reserve (additional : Nat) : DeqM T β Unit := do
  let r ← tryReserve E additional
  unwrapAlloc r

def reserveExact (additional : Nat) : DeqM T β Unit := do
  let oldLen ← len E
  if oldLen + additional < usizeBound then do
    let r ← reserveCapacity E (oldLen + additional)
    unwrapAlloc r
    let d ← self
    debugAssert E (oldLen + additional ≤ d.capacity)
  else throw .overflow

def moveHeadUnchecked (x : Int) : DeqM T β Unit := do
  let d ← self
  let cap := d.capacity
  let len ← len E
  when (E.debug = true) do
    let free ← usizeSub E cap len
    debugAssert E (-asIsize free ≤ x)
    debugAssert E (x ≤ asIsize len)
  let newBegin := d.elems.ptr + x * E.layout.size
  let firstRegionBegin := d.buf.ptr.mirror.base
  let bytes ← Buffer.sizeInBytes E d.buf.len
  let regionSize : Nat := bytes / 2
  debugAssert E (cap * E.layout.size ≤ regionSize)
  let secondRegionBegin := firstRegionBegin + regionSize
  let newBegin ← (if newBegin < firstRegionBegin then pure (newBegin + regionSize)
    else if secondRegionBegin ≤ newBegin then do
      debugAssert E (newBegin < secondRegionBegin + regionSize)
      pure (newBegin - regionSize)
    else pure newBegin)
  debugAssert E (firstRegionBegin ≤ newBegin)
  debugAssert E (newBegin < secondRegionBegin)
  debugAssert E (firstRegionBegin ≤ newBegin ∧ newBegin < firstRegionBegin + regionSize)
  let newLen ← isize E (asIsize len - x)
  debugAssert E (0 ≤ newLen)
  debugAssert E (newLen ≤ asIsize cap)
  setSelf { d with elems := ⟨newBegin, asUsize newLen⟩ }

def moveHead (x : Int) : DeqM T β Unit := do
  let d ← self
  let len ← len E
  let free ← usizeSub E d.capacity len
  assert (-asIsize free ≤ x ∧ x ≤ asIsize len)
  moveHeadUnchecked E x

def moveTailUnchecked (x : Int) : DeqM T β Unit := do
  let len ← len E
  let d ← self
  let cap := d.capacity
  when (E.debug = true) do
    let free ← usizeSub E cap len
    debugAssert E (-asIsize len ≤ x)
    debugAssert E (x ≤ asIsize free)
  let newLen ← isize E (asIsize len + x)
  debugAssert E (0 ≤ newLen)
  debugAssert E (newLen ≤ asIsize cap)
  setSelf { d with elems := ⟨d.elems.ptr, asUsize newLen⟩ }

def moveTail (x : Int) : DeqM T β Unit := do
  let d ← self
  let len ← len E
  let free ← usizeSub E d.capacity len
  assert (-asIsize len ≤ x ∧ x ≤ asIsize free)
  moveTailUnchecked E x

/-! ## The representation invariant -/

structure WF (d : SliceDeque β) : Prop where
  buf : Buffer.Ok E d.buf
  len_le : d.elems.len ≤ d.capacity
  begin_ge : d.buf.ptr.mirror.base ≤ d.elems.ptr
  begin_lt : d.elems.ptr < d.buf.ptr.mirror.base + d.buf.regionSize E
  aligned : E.layout.align ∣ E.granularity → (E.layout.align : Int) ∣ d.elems.ptr

/-- The value in slot `i`, counted from the head. -/
def slot (d : SliceDeque β) (i : Int) : T := d.buf.ptr.mirror.slot E.layout d.elems.ptr i

/-- The values of slots `i` to `i + n`. -/
def window (d : SliceDeque β) (i n : Nat) : List T :=
  d.buf.ptr.mirror.elems E.layout (d.elems.ptr + i * E.layout.size) n

/-- What `as_slice()` shows. -/
def toList (d : SliceDeque β) : List T := d.buf.ptr.mirror.elems E.layout d.elems.ptr d.elems.len

def regions (d : SliceDeque β) : List (Nat × Nat) := Buffer.regions E d.buf

variable {E} {d : SliceDeque β}

theorem window_eq (d : SliceDeque β) (i n : Nat) :
    d.window E i n = (List.range n).map fun k : Nat => d.slot E (i + k : Nat) := by
  apply List.map_congr_left
  intro k _
  rw [Mirror.slot_add]
  push_cast
  rfl

@[simp] theorem toList_length (d : SliceDeque β) : (d.toList E).length = d.elems.len := by
  simp [toList]

@[simp] theorem toList_getElem (d : SliceDeque β) (i : Nat) (h : i < (d.toList E).length) :
    (d.toList E)[i] = d.slot E i := Mirror.elems_getElem _ _ _ _

@[simp] theorem window_length (d : SliceDeque β) (i n : Nat) : (d.window E i n).length = n := by
  simp [window]

@[simp] theorem window_getElem (d : SliceDeque β) (i n k : Nat) (h : k < (d.window E i n).length) :
    (d.window E i n)[k] = d.slot E (i + k : Nat) := by
  simp [window_eq]

theorem toList_eq_of_slots {d' : SliceDeque β} (hl : d'.elems.len = d.elems.len)
    (h : ∀ i : Nat, i < d.elems.len → d'.slot E i = d.slot E i) : d'.toList E = d.toList E := by
  unfold toList
  rw [hl]
  exact Mirror.elems_congr h

theorem wf_new : WF E (new E : SliceDeque β) where
  buf := Buffer.ok_new
  len_le := Nat.zero_le _
  begin_ge := le_refl _
  begin_lt := by
    have := Buffer.regionSize_pos (E := E) (Buffer.new E)
    simp only [new]
    omega
  aligned _ := dvd_refl _

@[simp] theorem toList_new : (new E : SliceDeque β).toList E = [] := rfl

@[simp] theorem regions_new : (new E : SliceDeque β).regions E = [] := Buffer.regions_new

theorem wf_start {b : Buffer β} {n : Nat} (hb : Buffer.Ok E b) (hn : n ≤ b.cap) :
    WF E (⟨⟨b.ptr.mirror.base, n⟩, b⟩ : SliceDeque β) where
  buf := hb
  len_le := hn
  begin_ge := le_refl _
  begin_lt := by
    have := Buffer.regionSize_pos (E := E) b
    dsimp only
    omega
  aligned := hb.base_dvd

namespace WF
variable (h : WF E d)
include h

theorem cap_mul_le : d.capacity * E.layout.size ≤ d.buf.ptr.mirror.half := h.buf.cap_mul_le

theorem cap_lt : d.capacity < isizeBound := h.buf.cap_lt

theorem fits {n : Nat} (hn : n ≤ d.capacity) : Buffer.Fits E (2 * n) := by
  refine h.buf.fits.mono ?_
  unfold capacity Buffer.cap at hn
  omega

theorem len_lt : d.elems.len < isizeBound := lt_of_le_of_lt h.len_le h.cap_lt

theorem covers {i : Int} {n : Nat} (hi : 0 ≤ i) (hn : i + n ≤ d.capacity) :
    d.buf.ptr.mirror.Covers (d.elems.ptr + i * E.layout.size) (n * E.layout.size) := by
  by_cases hz : d.capacity * E.layout.size = 0
  · left
    rcases Nat.mul_eq_zero.mp hz with hz | hz
    · rw [show n = 0 by omega, Nat.zero_mul]
    · rw [hz, Nat.mul_zero]
  · right
    have hr := h.buf.regionSize_eq hz
    have hlt := h.begin_lt
    have hge := h.begin_ge
    have hmono := Mirror.mul_size_mono E.layout.size hn
    have hpos := Mirror.mul_size_mono E.layout.size hi
    have hcap : (d.capacity : Int) * E.layout.size ≤ d.buf.ptr.mirror.half := by
      exact_mod_cast h.cap_mul_le
    rw [hr] at hlt
    rw [add_mul] at hmono
    push_cast
    constructor <;> linarith

theorem covers_slot {i : Int} (hi : 0 ≤ i) (hn : i < d.capacity) :
    d.buf.ptr.mirror.Covers (d.elems.ptr + i * E.layout.size) E.layout.size := by
  simpa using h.covers (n := 1) hi (by omega)

theorem withMemory {m : Mirror β} (hb : m.base = d.buf.ptr.mirror.base)
    (hh : m.half = d.buf.ptr.mirror.half) :
    WF E (⟨d.elems, d.buf.withMemory m⟩ : SliceDeque β) where
  buf := h.buf.withMemory hb hh
  len_le := h.len_le
  begin_ge := hb.le.trans h.begin_ge
  begin_lt := h.begin_lt.trans_le (by
    have : (d.buf.withMemory m).ptr.mirror.base = d.buf.ptr.mirror.base := hb
    rw [this]
    exact le_rfl)
  aligned := h.aligned

theorem withLen {n : Nat} (hn : n ≤ d.capacity) : WF E (d.withLen n) :=
  { h with len_le := hn }

end WF

/-- Three elements of three bytes each; the first one crosses the end of the first copy. -/
def sample : SliceDeque Nat where
  elems := ⟨0x100000ffe, 3⟩
  buf := ⟨⟨0, 8192, ⟨0x100000000, 4096, fun q => if q = 4094 then 10 else if q = 1 then 20 else if q = 4 then 30 else 0⟩⟩, 2730⟩

theorem wf_sample {debug : Bool} : WF (cells debug 3 (by decide)) sample := by
  have hbuf : Buffer.Ok (cells debug 3 (by decide)) sample.buf := by
    refine ⟨by decide, fun _ => one_dvd _, fun h => ?_, fun _ _ => ?_⟩
    · cases h
    · cases debug <;> exact ⟨by decide, rfl, rfl, by decide, rfl, by decide, by decide, by decide⟩
  refine ⟨hbuf, by decide, by decide, ?_, fun _ => one_dvd _⟩
  cases debug <;> decide

example : sample.toList (cells true 3 (by decide)) = [10, 20, 30] := by decide

section Specs
variable {s : Frame (SliceDeque β) T} {P : Panic → Frame (SliceDeque β) T → Prop}

theorem wp_len {Q : Nat → Frame (SliceDeque β) T → Prop} (h : WF E s.self)
    (hQ : Q s.self.elems.len s) : wp (len E) s Q P := by
  simp only [len, wp_bind, wp_self]
  exact wp_debugAssert h.len_le (wp_pure.mpr hQ)

theorem wp_isFull {Q : Bool → Frame (SliceDeque β) T → Prop} (h : WF E s.self)
    (hQ : Q (s.self.elems.len == s.self.capacity) s) : wp (isFull E) s Q P := by
  simp only [isFull, wp_bind]
  exact wp_len h (by simpa using hQ)

theorem wp_readSlot {i : Int} {Q : T → Frame (SliceDeque β) T → Prop} (h : WF E s.self)
    (hi : 0 ≤ i) (hc : i < s.self.capacity) (hQ : Q (s.self.slot E i) s) :
    wp (readSlot E i) s Q P := by
  simp only [readSlot, readAt, wp_bind, wp_self, if_pos (h.covers_slot hi hc)]
  exact wp_pure.mpr hQ

/-- The deque after the memory changed. -/
structure Rewritten (d d' : SliceDeque β) : Prop where
  elems_eq : d'.elems = d.elems
  len_eq : d'.buf.len = d.buf.len
  id_eq : d'.buf.ptr.id = d.buf.ptr.id
  size_eq : d'.buf.ptr.size = d.buf.ptr.size

theorem Rewritten.refl (d : SliceDeque β) : Rewritten d d := ⟨rfl, rfl, rfl, rfl⟩

theorem Rewritten.trans {d₁ d₂ : SliceDeque β} (h : Rewritten d d₁) (h' : Rewritten d₁ d₂) : Rewritten d d₂ :=
  ⟨h'.elems_eq.trans h.elems_eq, h'.len_eq.trans h.len_eq, h'.id_eq.trans h.id_eq, h'.size_eq.trans h.size_eq⟩

theorem Rewritten.capacity_eq {d' : SliceDeque β} (h : Rewritten d d') : d'.capacity = d.capacity := by
  rw [capacity, capacity, Buffer.cap, Buffer.cap, h.len_eq]

theorem Rewritten.regions_eq {d' : SliceDeque β} (h : Rewritten d d') : d'.regions E = d.regions E := by
  simp [regions, Buffer.regions, h.len_eq, h.id_eq, h.size_eq]

theorem wp_writeSlot {i : Int} {v : T} {Q : Unit → Frame (SliceDeque β) T → Prop} (h : WF E s.self)
    (hi : 0 ≤ i) (hc : i < s.self.capacity)
    (hQ : ∀ d', WF E d' → Rewritten s.self d' →
      (∀ k : Int, 0 ≤ k → k < s.self.capacity → d'.slot E k = if k = i then v else s.self.slot E k) →
      Q () ⟨d', s.world⟩) : wp (writeSlot E i v) s Q P := by
  simp only [writeSlot, writeAt, wp_bind, wp_self, if_pos (h.covers_slot hi hc), wp_pure, wp_setSelf]
  refine hQ _ (h.withMemory rfl rfl) ⟨rfl, rfl, rfl, rfl⟩ fun k hk hkc => ?_
  exact Mirror.slot_write h.cap_mul_le (by omega) (by omega)

theorem wp_copySlots {i j : Int} {n : Nat} {Q : Unit → Frame (SliceDeque β) T → Prop} (h : WF E s.self)
    (hi : 0 ≤ i) (hin : i + n ≤ s.self.capacity) (hj : 0 ≤ j) (hjn : j + n ≤ s.self.capacity)
    (hQ : ∀ d', WF E d' → Rewritten s.self d' →
      (∀ k : Int, 0 ≤ k → k < s.self.capacity →
        d'.slot E k = if j ≤ k ∧ k < j + n then s.self.slot E (i + (k - j)) else s.self.slot E k) →
      Q () ⟨d', s.world⟩) : wp (copySlots E i j n) s Q P := by
  simp only [copySlots, wp_bind, wp_self]
  refine wp_copyAt (h.covers hi hin) (h.covers hj hjn) (wp_setSelf.mpr ?_)
  refine hQ _ (h.withMemory rfl rfl) ⟨rfl, rfl, rfl, rfl⟩ fun k hk hkc => ?_
  refine (Mirror.slot_copyFrom h.cap_mul_le hk hkc hj hjn).trans ?_
  rw [Mirror.slot_add]
  rfl

theorem wp_copySlots_zero {i j : Int} {Q : Unit → Frame (SliceDeque β) T → Prop} (hQ : Q () s) :
    wp (copySlots E i j 0) s Q P := by
  simp only [copySlots, wp_bind, wp_self]
  refine wp_copyAt (.inl (Nat.zero_mul _)) (.inl (Nat.zero_mul _)) (wp_setSelf.mpr ?_)
  simp only [Nat.zero_mul, Mirror.copyFrom, Mirror.store_zero]
  exact hQ

theorem wp_unwrapIndex {i : Nat} {Q : Unit → Frame (SliceDeque β) T → Prop}
    (hi : i < s.self.elems.len) (hQ : Q () s) : wp (unwrapIndex i) s Q P := by
  simp only [unwrapIndex, wp_bind, wp_self, wp_assert]
  exact ⟨fun _ => hQ, fun h => absurd hi h⟩

theorem ends_len {Q : Nat → Frame (SliceDeque β) T → Prop} (h : WF E s.self) :
    Ends (len E) s Q ↔ Q s.self.elems.len s := by
  simp only [len, ends_bind, ends_self, ends_debugAssert h.len_le, ends_pure]

@[simp] theorem exact_len : Exact (len E) s :=
  exact_bind exact_self fun _ _ => exact_bind exact_debugAssert fun _ _ => exact_pure

theorem exact_len_bind {α : Type} {f : Nat → DeqM T β α} (h : WF E s.self) (hf : Exact (f s.self.elems.len) s) :
    Exact (len E >>= f) s := by
  have hlen : wp (len E) s (fun l s' => l = s.self.elems.len ∧ s' = s) fun _ _ => False := wp_len h ⟨rfl, rfl⟩
  apply exact_seq exact_len hlen
  rintro _ _ ⟨rfl, rfl⟩
  exact hf

@[simp] theorem exact_readSlot {i : Int} : Exact (readSlot E i) s :=
  exact_bind exact_self fun _ _ => exact_readAt

@[simp] theorem exact_writeSlot {i : Int} {v : T} : Exact (writeSlot E i v) s :=
  exact_bind exact_self fun _ _ => exact_bind exact_writeAt fun _ _ => exact_setSelf

@[simp] theorem exact_copySlots {i j : Int} {n : Nat} : Exact (copySlots E i j n) s :=
  exact_bind exact_self fun _ _ => exact_bind exact_copyAt fun _ _ => exact_setSelf

end Specs

end SliceDeque

end Sdeq
