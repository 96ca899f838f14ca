import SliceDeque.Deque

/-!
# Moving the head and the tail, growing the buffer

Each operation has one specification. Moving the head by `x` renumbers the
slots by `x`, whatever the wrap-around did to the address; growing keeps the
first `len` slots.
-/

set_option autoImplicit false

namespace Sdeq.SliceDeque
open Exec

variable {T β : Type} {E : Env T β} {s : Frame (SliceDeque β) T}
variable {P : Panic → Frame (SliceDeque β) T → Prop}

/-- The effect of moving the head by `x`. -/
structure HeadMoved (E : Env T β) (d : SliceDeque β) (x : Int) (d' : SliceDeque β) : Prop where
  wf : WF E d'
  buf_eq : d'.buf = d.buf
  len_eq : (d'.elems.len : Int) = d.elems.len - x
  slot_eq : ∀ i : Int, d'.slot E i = d.slot E (x + i)

theorem HeadMoved.capacity_eq {d d' : SliceDeque β} {x : Int} (h : HeadMoved E d x d') :
    d'.capacity = d.capacity := by
  rw [capacity, capacity, h.buf_eq]

theorem HeadMoved.regions_eq {d d' : SliceDeque β} {x : Int} (h : HeadMoved E d x d') :
    d'.regions E = d.regions E := by
  rw [regions, regions, h.buf_eq]

/-- Where the head lands before it is shifted back into the first region. -/
theorem WF.head_range {d : SliceDeque β} (h : WF E d) {x : Int}
    (hx : -(d.capacity - d.elems.len : Int) ≤ x) (hx' : x ≤ d.elems.len) :
    d.buf.ptr.mirror.base - d.buf.regionSize E ≤ d.elems.ptr + x * E.layout.size ∧
    d.elems.ptr + x * E.layout.size < d.buf.ptr.mirror.base + 2 * d.buf.regionSize E := by
  have hle := h.len_le
  have hcap : (d.capacity : Int) * E.layout.size ≤ d.buf.regionSize E := by
    exact_mod_cast h.buf.cap_mul_le_regionSize
  have h1 := Mirror.mul_size_mono E.layout.size (show -(d.capacity : Int) ≤ x by omega)
  have h2 := Mirror.mul_size_mono E.layout.size (show x ≤ (d.capacity : Int) by omega)
  have hge := h.begin_ge
  have hlt := h.begin_lt
  rw [neg_mul] at h1
  constructor <;> linarith

/-- The shifted head: it lies in the first region and shows the same slots. -/
theorem WF.head_shift {d : SliceDeque β} (h : WF E d) {x : Int} (k : Int) {n : Nat}
    (hx : -(d.capacity - d.elems.len : Int) ≤ x) (hx' : x ≤ d.elems.len) (hn : (n : Int) = d.elems.len - x)
    (hk : k = 0 ∨ (k = d.buf.regionSize E ∨ k = -d.buf.regionSize E) ∧ x * E.layout.size ≠ 0)
    (hge : d.buf.ptr.mirror.base ≤ d.elems.ptr + x * E.layout.size + k)
    (hlt : d.elems.ptr + x * E.layout.size + k < d.buf.ptr.mirror.base + d.buf.regionSize E) :
    HeadMoved E d x { d with elems := ⟨d.elems.ptr + x * E.layout.size + k, n⟩ } := by
  have hle := h.len_le
  have hk' : k = 0 ∨ k = d.buf.ptr.mirror.half ∨ k = -d.buf.ptr.mirror.half := by
    rcases hk with hk | ⟨hk, hne⟩
    · exact .inl hk
    have hr : d.buf.regionSize E = d.buf.ptr.mirror.half := by
      refine h.buf.regionSize_eq fun hz => hne ?_
      rcases Nat.mul_eq_zero.mp hz with hz | hz
      · have : d.capacity = 0 := hz
        rw [show x = 0 by omega, zero_mul]
      · simp [hz]
    rw [hr] at hk
    exact .inr hk
  refine ⟨⟨h.buf, ?_, hge, hlt, fun hd => ?_⟩, rfl, hn, fun i => ?_⟩
  · show n ≤ d.capacity
    omega
  · have hs : (E.layout.align : Int) ∣ x * E.layout.size :=
      (Int.natCast_dvd_natCast.mpr E.layout.align_dvd).mul_left x
    have hreg := Buffer.regionSize_dvd d.buf hd
    refine Int.dvd_add (Int.dvd_add (h.aligned hd) hs) ?_
    rcases hk with rfl | ⟨rfl | rfl, _⟩
    · exact Int.dvd_zero _
    · exact hreg
    · exact Int.dvd_neg.mpr hreg
  · show d.buf.ptr.mirror.slot E.layout (d.elems.ptr + x * E.layout.size + k) i = _
    rcases hk' with rfl | rfl | rfl
    · rw [add_zero, Mirror.slot_add]
      rfl
    · rw [Mirror.slot_add_half, Mirror.slot_add]
      rfl
    · rw [← sub_eq_add_neg, Mirror.slot_sub_half, Mirror.slot_add]
      rfl

/-- The deque whose head was moved by `x`. -/
def headed (E : Env T β) (d : SliceDeque β) (x : Int) : SliceDeque β :=
  ⟨⟨Mirror.turn d.buf.ptr.mirror.base (d.buf.regionSize E) d.elems.ptr (x * E.layout.size), (d.elems.len - x).toNat⟩, d.buf⟩

/-- `move_head_unchecked` in its range: no assertion fires and nothing panics. -/
theorem wp_moveHeadUnchecked_headed {x : Int} {Q : Unit → Frame (SliceDeque β) T → Prop} (h : WF E s.self)
    (hx : -(s.self.capacity - s.self.elems.len : Int) ≤ x) (hx' : x ≤ s.self.elems.len)
    (hQ : HeadMoved E s.self x (s.self.headed E x) → Q () ⟨s.self.headed E x, s.world⟩) :
    wp (moveHeadUnchecked E x) s Q P := by
  have hle := h.len_le
  have hcap := h.cap_lt
  have hrange := h.head_range hx hx'
  obtain ⟨n, hn⟩ : ∃ n : Nat, (n : Int) = s.self.elems.len - x := ⟨(s.self.elems.len - x).toNat, by omega⟩
  have hlen := asIsize_of_lt h.len_lt
  simp only [moveHeadUnchecked, wp_bind, wp_self]
  refine wp_len h (wp_check (fun _ => ?_) ?_)
  · simp only [wp_bind, wp_usizeSub]
    refine ⟨fun _ => wp_debugAssert ?_ (wp_debugAssert (by rw [hlen]; exact hx') rfl), fun _ => by omega⟩
    rw [asIsize_of_lt (by omega)]
    omega
  refine Buffer.wp_sizeInBytes (fun _ => ?_) (fun hf => absurd h.buf.fits hf)
  rw [show Buffer.byteSize E s.self.buf.len / 2 = s.self.buf.regionSize E from rfl]
  refine wp_debugAssert h.buf.cap_mul_le_regionSize ?_
  -- the region of the new head
  refine wp_mono (Q := fun b s' => s' = s ∧ HeadMoved E s.self x ⟨⟨b, n⟩, s.self.buf⟩ ∧
      (s.self.buf.regionSize E : Int) ∣ b - (s.self.elems.ptr + x * E.layout.size))
    (P := fun _ _ => False) ?_ ?_ (fun _ _ => False.elim)
  · have hge := h.begin_ge
    have hlt := h.begin_lt
    simp only [wp_ite, wp_bind, wp_pure]
    refine ⟨fun hlow => ⟨trivial, ?_, ?_⟩, fun hlow => ⟨fun hhigh => ?_, fun hhigh => ⟨trivial, ?_, ?_⟩⟩⟩
    · exact h.head_shift _ hx hx' hn (.inr ⟨.inl rfl, by omega⟩) (by omega) (by omega)
    · rw [add_sub_cancel_left]
    · refine wp_debugAssert (by omega) ⟨rfl, ?_, ?_⟩
      · exact h.head_shift _ hx hx' hn (.inr ⟨.inr rfl, by omega⟩) (by omega) (by omega)
      · rw [sub_sub_cancel_left, Int.dvd_neg]
    · have := h.head_shift 0 hx hx' hn (.inl rfl) (by omega) (by omega)
      rwa [add_zero] at this
    · rw [sub_self]
      exact Int.dvd_zero _
  · intro b s' hs'
    obtain ⟨hs, hm, hturn⟩ := hs'
    have hbegin : b = Mirror.turn s.self.buf.ptr.mirror.base (s.self.buf.regionSize E) s.self.elems.ptr
      (x * E.layout.size) := Mirror.turn_eq hm.wf.begin_ge hm.wf.begin_lt hturn
    have hat : (⟨⟨b, n⟩, s.self.buf⟩ : SliceDeque β) = s.self.headed E x := by
      rw [headed, ← hn, Int.toNat_natCast, ← hbegin]
    rw [← hat] at hQ
    rw [hs]
    refine wp_debugAssert hm.wf.begin_ge (wp_debugAssert hm.wf.begin_lt
      (wp_debugAssert ⟨hm.wf.begin_ge, hm.wf.begin_lt⟩ ?_))
    rw [wp_isize, hlen, ← hn]
    refine ⟨fun _ => wp_debugAssert (by omega) (wp_debugAssert ?_ ?_), fun hf => absurd ?_ hf⟩
    · rw [asIsize_of_lt hcap]
      omega
    · rw [asUsize_natCast, wp_setSelf]
      exact hQ hm
    · unfold isizeBound at *
      omega

theorem wp_moveHeadUnchecked {x : Int} {Q : Unit → Frame (SliceDeque β) T → Prop} (h : WF E s.self)
    (hx : -(s.self.capacity - s.self.elems.len : Int) ≤ x) (hx' : x ≤ s.self.elems.len)
    (hQ : ∀ d', HeadMoved E s.self x d' → Q () ⟨d', s.world⟩) : wp (moveHeadUnchecked E x) s Q P :=
  wp_moveHeadUnchecked_headed h hx hx' (hQ _)

theorem wp_moveHead {x : Int} {Q : Unit → Frame (SliceDeque β) T → Prop} (h : WF E s.self)
    (hQ : ∀ d', HeadMoved E s.self x d' → Q () ⟨d', s.world⟩)
    (hP : ¬ (-(s.self.capacity - s.self.elems.len : Int) ≤ x ∧ x ≤ s.self.elems.len) → P .assert s) :
    wp (moveHead E x) s Q P := by
  have hle := h.len_le
  have hcap := h.cap_lt
  have hfree := asIsize_of_lt (show s.self.capacity - s.self.elems.len < isizeBound by omega)
  simp only [moveHead, wp_bind, wp_self]
  refine wp_len h ?_
  rw [wp_usizeSub, wp_assert, hfree, asIsize_of_lt h.len_lt, Nat.cast_sub hle]
  exact ⟨fun _ => ⟨fun hx => wp_moveHeadUnchecked h hx.1 hx.2 hQ, hP⟩, fun _ => by omega⟩

theorem wp_moveTailUnchecked {x : Int} {n : Nat} {Q : Unit → Frame (SliceDeque β) T → Prop}
    (h : WF E s.self) (hn : (n : Int) = s.self.elems.len + x) (hcap : n ≤ s.self.capacity)
    (hQ : Q () ⟨s.self.withLen n, s.world⟩) : wp (moveTailUnchecked E x) s Q P := by
  have hle := h.len_le
  have hc := h.cap_lt
  have hlen := asIsize_of_lt h.len_lt
  simp only [moveTailUnchecked, wp_bind, wp_self]
  refine wp_len h (wp_check (fun _ => ?_) ?_)
  · simp only [wp_bind, wp_usizeSub]
    refine ⟨fun _ => wp_debugAssert (by omega) (wp_debugAssert ?_ rfl), fun _ => by omega⟩
    rw [asIsize_of_lt (by omega)]
    omega
  rw [wp_isize, hlen, ← hn]
  refine ⟨fun _ => wp_debugAssert (by omega) (wp_debugAssert ?_ ?_), fun hf => absurd ?_ hf⟩
  · rw [asIsize_of_lt hc]
    omega
  · rw [asUsize_natCast, wp_setSelf]
    exact hQ
  · unfold isizeBound at *
    omega

theorem exact_moveHeadUnchecked {x : Int} (h : WF E s.self) (hx : -(s.self.capacity - s.self.elems.len : Int) ≤ x)
    (hx' : x ≤ s.self.elems.len) : Exact (moveHeadUnchecked E x) s := by
  have hle := h.len_le
  have hc := h.cap_lt
  apply exact_self_bind
  apply exact_len_bind h
  apply exact_bind
  · exact exact_when fun _ => exact_bind (exact_usizeSub hle) fun _ _ =>
      exact_bind exact_debugAssert fun _ _ => exact_debugAssert
  intro _ _
  apply exact_bind (Buffer.exact_sizeInBytes h.buf.fits)
  intro _ _
  apply exact_bind exact_debugAssert
  intro _ _
  apply exact_bind
  · apply exact_ite fun _ => exact_pure
    intro _
    exact exact_ite (fun _ => exact_bind exact_debugAssert fun _ _ => exact_pure) fun _ => exact_pure
  intro _ _
  apply exact_bind exact_debugAssert
  intro _ _
  apply exact_bind exact_debugAssert
  intro _ _
  apply exact_bind exact_debugAssert
  intro _ _
  apply exact_bind
  · apply exact_isize
    rw [asIsize_of_lt h.len_lt]
    unfold isizeBound at *
    omega
  · exact fun _ _ => exact_bind exact_debugAssert fun _ _ => exact_bind exact_debugAssert fun _ _ => exact_setSelf

theorem exact_moveTailUnchecked {x : Int} {n : Nat} (h : WF E s.self) (hn : (n : Int) = s.self.elems.len + x)
    (hcap : n ≤ s.self.capacity) : Exact (moveTailUnchecked E x) s := by
  have hle := h.len_le
  have hc := h.cap_lt
  apply exact_len_bind h
  apply exact_self_bind
  apply exact_bind
  · exact exact_when fun _ => exact_bind (exact_usizeSub hle) fun _ _ =>
      exact_bind exact_debugAssert fun _ _ => exact_debugAssert
  · intro _ s'
    apply exact_bind
    · apply exact_isize
      rw [asIsize_of_lt h.len_lt, ← hn]
      unfold isizeBound at *
      omega
    · exact fun _ _ => exact_bind exact_debugAssert fun _ _ => exact_bind exact_debugAssert fun _ _ => exact_setSelf

theorem wp_moveTail {x : Int} {Q : Unit → Frame (SliceDeque β) T → Prop} (h : WF E s.self)
    (hQ : ∀ n : Nat, (n : Int) = s.self.elems.len + x → n ≤ s.self.capacity →
      Q () ⟨s.self.withLen n, s.world⟩)
    (hP : ¬ (-(s.self.elems.len : Int) ≤ x ∧ x ≤ (s.self.capacity - s.self.elems.len : Int)) → P .assert s) :
    wp (moveTail E x) s Q P := by
  have hle := h.len_le
  have hcap := h.cap_lt
  have hfree := asIsize_of_lt (show s.self.capacity - s.self.elems.len < isizeBound by omega)
  simp only [moveTail, wp_bind, wp_self]
  refine wp_len h ?_
  rw [wp_usizeSub, wp_assert, hfree, asIsize_of_lt h.len_lt, Nat.cast_sub hle]
  refine ⟨fun _ => ⟨fun hx => ?_, hP⟩, fun _ => by omega⟩
  obtain ⟨n, hn⟩ : ∃ n : Nat, (n : Int) = s.self.elems.len + x := ⟨(s.self.elems.len + x).toNat, by omega⟩
  exact wp_moveTailUnchecked h hn (by omega) (hQ n hn (by omega))

theorem exact_moveTail {x : Int} (h : WF E s.self) : Exact (moveTail E x) s := by
  have hle := h.len_le
  have hcap := h.cap_lt
  apply exact_self_bind
  apply exact_len_bind h
  apply exact_usizeSub_bind hle
  apply exact_assert_bind
  intro hx
  rw [asIsize_of_lt h.len_lt, asIsize_of_lt (by omega)] at hx
  exact exact_moveTailUnchecked (n := (s.self.elems.len + x).toNat) h (by omega) (by omega)

/-! ## Growth -/

/-- The contents were copied to the start of a new buffer, and the old one was freed. -/
structure Relocated (E : Env T β) (s s' : Frame (SliceDeque β) T) (c : Nat) : Prop where
  begin_eq : s'.self.elems.ptr = s'.self.buf.ptr.mirror.base
  world_eq : s'.world = ((s.world.map (s'.self.regions E)).copy s.self.elems.len).unmap (s.self.regions E)
  call : ∀ r ∈ s'.self.regions E, r.1 = s.world.calls
  /-- behind the contents the new buffer shows what the allocator left there -/
  memory : E.layout.size ≠ 0 → ∃ a f, E.allocate s.world.calls (Buffer.byteSize E (2 * c)) = .ok (a, f) ∧
    s'.self.buf.ptr.mirror = (⟨a, Buffer.byteSize E (2 * c) / 2, f⟩ : Mirror β).copyFrom a s.self.buf.ptr.mirror
      s.self.elems.ptr (s.self.elems.len * E.layout.size)

/-- What a granted request for capacity `c` leaves. -/
structure Grown (E : Env T β) (s s' : Frame (SliceDeque β) T) (c : Nat) : Prop where
  wf : WF E s'.self
  cap_ge : c ≤ s'.self.capacity
  len_eq : s'.self.elems.len = s.self.elems.len
  slot_eq : ∀ i : Nat, i < s.self.elems.len → s'.self.slot E i = s.self.slot E i
  moved : s' = s ∨ s.self.capacity < c ∧ Relocated E s s' c

/-- What a refused request leaves: the call is recorded, nothing else changed. -/
abbrev Refused (E : Env T β) (s s' : Frame (SliceDeque β) T) (e : AllocError) : Prop :=
  Buffer.Refused E s s' e

/-- The panics of a request: a size does not fit, or elements are aligned more strictly than pages. -/
def SizePanic (E : Env T β) (p : Panic) : Prop :=
  p = .overflow ∨ p = .assert ∧ E.granularity < E.layout.align

theorem Grown.toList_eq {s' : Frame (SliceDeque β) T} {c : Nat} (h : Grown E s s' c) :
    s'.self.toList E = s.self.toList E := toList_eq_of_slots h.len_eq h.slot_eq

theorem Grown.produced_eq {s' : Frame (SliceDeque β) T} {c : Nat} (h : Grown E s s' c) :
    s'.world.produced = s.world.produced := by
  rcases h.moved with rfl | ⟨-, hr⟩
  · rfl
  · rw [hr.world_eq]
    rfl

/-- The capacity that `grow_policy` asks for. -/
def growTarget (d : SliceDeque β) (additional : Nat) : Nat :=
  if d.capacity < d.elems.len + additional then
    max (d.elems.len + additional) (min (2 * d.capacity) (usizeBound - 1))
  else d.elems.len + additional

theorem le_growTarget (d : SliceDeque β) (additional : Nat) :
    d.elems.len + additional ≤ growTarget d additional := by
  unfold growTarget
  split <;> omega

theorem wp_growPolicy {additional : Nat} {Q : Nat → Frame (SliceDeque β) T → Prop} (h : WF E s.self)
    (hQ : s.self.elems.len + additional < usizeBound → Q (growTarget s.self additional) s) (hP : P .overflow s) :
    wp (growPolicy E additional) s Q P := by
  unfold growTarget at hQ
  simp only [growPolicy, wp_bind, wp_self]
  refine wp_len h ?_
  simp only [wp_ite, wp_pure, wp_throw]
  refine ⟨fun hn => ⟨fun hc => ?_, fun hc => ?_⟩, fun _ => hP⟩
  · have hgrow := hQ hn
    rwa [if_pos hc] at hgrow
  · have hgrow := hQ hn
    rwa [if_neg hc] at hgrow

/-- A buffer large enough takes over the contents of a deque. -/
theorem grown_of_uninit {n : Nat} {b : Buffer β} {s₁ : Frame (SliceDeque β) T} (h : WF E s.self)
    (hc : s.self.capacity < n) (hb : Buffer.Uninit (E := E) s s₁ (2 * n) b) (hn : n ≤ b.cap) :
    Grown E s ⟨⟨⟨b.ptr.mirror.base, s.self.elems.len⟩, b.withMemory (b.ptr.mirror.copyFrom b.ptr.mirror.base
        s.self.buf.ptr.mirror s.self.elems.ptr (s.self.elems.len * E.layout.size))⟩,
      ((s.world.map (Buffer.regions E b)).copy s.self.elems.len).unmap (s.self.regions E)⟩ n := by
  have hle := h.len_le
  have hwf : WF E (⟨⟨b.ptr.mirror.base, s.self.elems.len⟩, b⟩ : SliceDeque β) :=
    wf_start hb.ok (by omega)
  have hmem : E.layout.size ≠ 0 → ∃ a f, E.allocate s.world.calls (Buffer.byteSize E (2 * n)) = .ok (a, f) ∧
      b.ptr.mirror = ⟨a, Buffer.byteSize E (2 * n) / 2, f⟩ := by
    intro hs
    obtain ⟨a, f, ha, hptr⟩ := hb.fresh hs (by omega)
    exact ⟨a, f, ha, by rw [hptr]⟩
  refine ⟨hwf.withMemory rfl rfl, hn, rfl, fun i hi => ?_, .inr ⟨hc, rfl, rfl, hb.call, fun hs => ?_⟩⟩
  swap
  · obtain ⟨a, f, ha, hm⟩ := hmem hs
    exact ⟨a, f, ha, by simp only [Buffer.withMemory, hm]⟩
  have hcopy := Mirror.slot_copyFrom (r := s.self.buf.ptr.mirror) (a := s.self.elems.ptr)
    (b := b.ptr.mirror.base) (i := i) (y := 0) (n := s.self.elems.len) hb.ok.cap_mul_le
    (by omega) (by omega) le_rfl (by omega)
  rw [zero_mul, add_zero, if_pos ⟨by omega, by omega⟩, sub_zero] at hcopy
  exact hcopy

/-- `reserve_capacity` beyond the capacity: the request is granted, refused, or its sizes do not fit. -/
theorem wp_reserveCapacity_grow {c : Nat} (h : WF E s.self) (hc : s.self.capacity < c) :
    wp (reserveCapacity E c) s
      (fun r s' => match r with
        | .ok () => Grown E s s' c ∧ s'.self.capacity = Buffer.lenFor E (2 * c) / 2
        | .error e => E.allocate s.world.calls (Buffer.byteSize E (2 * c)) = .error e ∧ Refused E s s' e)
      (fun p s' => s' = s ∧ (p = .overflow ∧ ¬ (2 * c < usizeBound ∧ Buffer.Fits E (2 * c)) ∨
        p = .assert ∧ E.layout.size ≠ 0 ∧ E.granularity < E.layout.align)) := by
  have hle := h.len_le
  simp only [reserveCapacity, wp_bind, wp_self, wp_ite, wp_pure, wp_usize]
  refine ⟨fun hnc => by omega, fun _ => ⟨fun hn2 => ?_, fun hn2 _ => ⟨trivial, .inl ⟨trivial, fun hh => by omega⟩⟩⟩⟩
  refine wp_mono (Buffer.wp_uninitialized (by omega)) ?_ ?_
  · rintro (e | b) s₁ hb
    · exact wp_pure.mpr hb.2
    have hself := hb.self_eq
    have hnb : c ≤ b.cap := by
      by_cases hs : E.layout.size = 0
      · have hz := h.buf.cap_zst hs
        have : s.self.capacity = s.self.buf.cap := rfl
        unfold isizeBound usizeBound at *
        omega
      · have := hb.len_eq.ge.trans' (Buffer.le_lenFor hs)
        unfold Buffer.cap
        omega
    have hgrown := grown_of_uninit h (by omega) hb hnb
    have hcov : s.self.buf.ptr.mirror.Covers s.self.elems.ptr (s.self.elems.len * E.layout.size) := by
      have := h.covers (i := 0) (n := s.self.elems.len) le_rfl (by omega)
      rwa [zero_mul, add_zero] at this
    have hcov' : b.ptr.mirror.Covers b.ptr.mirror.base (s.self.elems.len * E.layout.size) := by
      have hwf : WF E (⟨⟨b.ptr.mirror.base, s.self.elems.len⟩, b⟩ : SliceDeque β) :=
        wf_start hb.ok (by omega)
      have := hwf.covers (i := 0) (n := s.self.elems.len) le_rfl (by rw [zero_add]; exact_mod_cast hwf.len_le)
      rwa [zero_mul, add_zero] at this
    simp only [wp_bind]
    refine wp_debugAssert ?_ (wp_len (by rw [hself]; exact h) ?_)
    · unfold Buffer.cap at hnb
      omega
    rw [hself]
    simp only [copyAt, if_pos (And.intro hcov hcov'), wp_pure, wp_modifyWorld, wp_setSelf]
    refine Buffer.wp_drop h.buf ?_
    dsimp only
    rw [hb.world_eq]
    exact ⟨hgrown, congrArg (· / 2) hb.len_eq⟩
  · rintro p s' ⟨rfl, ⟨rfl, hf⟩ | ⟨rfl, hs, ha⟩⟩
    · exact ⟨rfl, .inl ⟨rfl, fun hh => hf hh.2⟩⟩
    · exact ⟨rfl, .inr ⟨rfl, hs, ha⟩⟩

theorem wp_reserveCapacity {c : Nat} (h : WF E s.self) :
    wp (reserveCapacity E c) s
      (fun r s' => match r with
        | .ok () => Grown E s s' c
        | .error e => Refused E s s' e)
      (fun p s' => s' = s ∧ SizePanic E p) := by
  by_cases hc : s.self.capacity < c
  · apply wp_mono (wp_reserveCapacity_grow h hc)
    · rintro (e | ⟨⟩) s' hs'
      · exact hs'.2
      · exact hs'.1
    · rintro p s' ⟨hs, ⟨hp, -⟩ | ⟨hp, -, ha⟩⟩
      · exact ⟨hs, .inl hp⟩
      · exact ⟨hs, .inr ⟨hp, ha⟩⟩
  · simp only [reserveCapacity, wp_bind, wp_self]
    rw [if_pos (by omega), wp_pure]
    exact ⟨h, by omega, rfl, fun _ _ => rfl, .inl rfl⟩

/-- No size of a request for capacity `c` wraps around silently. -/
def Askable (E : Env T β) (c : Nat) : Prop :=
  E.debug = true ∨ 2 * c < usizeBound ∧ (E.layout.size ≠ 0 → E.layout.align ≤ E.granularity → Buffer.Fits E (2 * c))

theorem not_askable {c : Nat} (ha : ¬ Askable E c) : E.debug = false ∧ (2 * c < usizeBound →
    E.layout.size ≠ 0 ∧ E.layout.align ≤ E.granularity ∧ ¬ Buffer.Fits E (2 * c)) := by
  rw [Askable, not_or, Bool.not_eq_true] at ha
  refine ⟨ha.1, fun hfit => ?_⟩
  by_contra hno
  exact ha.2 ⟨hfit, fun hs hal => by_contra fun hf => hno ⟨hs, hal, hf⟩⟩

theorem exact_reserveCapacity {c : Nat} (h : WF E s.self) (ha : s.self.capacity < c → Askable E c) :
    Exact (reserveCapacity E c) s := by
  apply exact_self_bind
  apply exact_ite
  · exact fun _ => exact_pure
  intro hnot
  have hask := ha (Nat.not_le.mp hnot)
  have htwice : Exact (usize E (2 * c)) s := by
    rcases hask with hd | hf
    · exact exact_usize_of_debug hd
    · exact exact_usize hf.1
  have hc : wp (usize E (2 * c)) s (fun n s' => n = 2 * c ∧ s' = s) fun _ _ => True :=
    wp_usize.mpr ⟨fun _ => ⟨rfl, rfl⟩, fun _ _ => trivial⟩
  apply exact_seq htwice hc
  rintro _ _ ⟨rfl, rfl⟩
  apply exact_bind (Buffer.exact_uninitialized (hask.imp_right And.right))
  intro r _
  cases r with
  | error e => exact exact_pure
  | ok b =>
    apply exact_bind exact_debugAssert
    intro _ _
    apply exact_bind exact_len
    intro _ _
    apply exact_bind exact_copyAt
    intro _ _
    apply exact_bind exact_modifyWorld
    intro _ _
    apply exact_bind exact_setSelf
    intro _ _
    exact exact_bind (Buffer.exact_drop h.buf) fun _ _ => exact_pure

/-- Other requests wrap around. -/
theorem wp_reserveCapacity_wraps {c : Nat} (hc : s.self.capacity < c) (ha : ¬ Askable E c) :
    wp (reserveCapacity E c) s (fun _ _ => False) fun _ _ => False := by
  obtain ⟨hd, hf⟩ := not_askable ha
  rw [reserveCapacity, wp_bind, wp_self, if_neg (Nat.not_le.mpr hc), wp_bind, wp_usize]
  refine ⟨fun hfit => ?_, fun _ hdebug => absurd hdebug (by rw [hd]; decide)⟩
  obtain ⟨hs, hal, hnot⟩ := hf hfit
  rw [wp_bind]
  exact wp_mono (Buffer.wp_uninitialized_wraps hd hs hal (by omega) hnot) (fun _ _ => False.elim) fun _ _ => id

/-- A request whose sizes fit is granted when the allocator has memory for it. -/
theorem ends_reserveCapacity_granted {c : Nat} (h : WF E s.self) (hc : s.self.capacity < c) (hfit : 2 * c < usizeBound)
    (hf : E.layout.size ≠ 0 → Buffer.Fits E (2 * c)) (hgrant : E.layout.size ≠ 0 → E.layout.align ≤ E.granularity ∧
      ∃ r, E.allocate s.world.calls (Buffer.byteSize E (2 * c)) = .ok r) :
    Ends (reserveCapacity E c) s fun r s' =>
      r = .ok () ∧ Grown E s s' c ∧ s'.self.capacity = Buffer.lenFor E (2 * c) / 2 := by
  have hs : E.layout.size ≠ 0 := by
    intro hs
    have hz := h.buf.cap_zst hs
    have hcap : s.self.capacity = s.self.buf.cap := rfl
    unfold isizeBound usizeBound at *
    omega
  obtain ⟨hal, r, hr⟩ := hgrant hs
  apply ends_iff.mpr ⟨exact_reserveCapacity h fun _ => .inr ⟨hfit, fun hs _ => hf hs⟩, _⟩
  apply wp_mono (wp_reserveCapacity_grow h hc)
  · rintro (e | ⟨⟩) s' hs'
    · rw [hr] at hs'
      exact absurd hs'.1 (by simp)
    · exact ⟨rfl, hs'⟩
  · rintro p s' ⟨-, ⟨-, hn⟩ | ⟨-, -, hlt⟩⟩
    · exact hn ⟨hfit, hf hs⟩
    · exact absurd hal (Nat.not_le.mpr hlt)

theorem wp_tryReserve {additional : Nat} (h : WF E s.self) :
    wp (tryReserve E additional) s
      (fun r s' => match r with
        | .ok () => Grown E s s' (growTarget s.self additional)
        | .error e => Refused E s s' e)
      (fun p s' => s' = s ∧ SizePanic E p) := by
  simp only [tryReserve, wp_bind]
  refine wp_len h (wp_growPolicy h (fun _ => ?_) ⟨rfl, .inl rfl⟩)
  refine wp_mono (wp_reserveCapacity h) ?_ (fun _ _ => id)
  rintro (e | ⟨⟩) s' hs'
  · exact wp_pure.mpr hs'
  · simp only [wp_bind, wp_self]
    exact wp_debugAssert ((le_growTarget _ _).trans hs'.cap_ge) (wp_pure.mpr hs')

/-- The panics of `reserve` leave the deque as it was. -/
def ReservePanic (E : Env T β) (s : Frame (SliceDeque β) T) (p : Panic) (s' : Frame (SliceDeque β) T) : Prop :=
  s' = s ∧ SizePanic E p ∨ ∃ e, p = .alloc e ∧ Refused E s s' e

theorem wp_reserve {additional : Nat} (h : WF E s.self) :
    wp (reserve E additional) s (fun _ s' => Grown E s s' (growTarget s.self additional))
      (ReservePanic E s) := by
  simp only [reserve, wp_bind]
  refine wp_mono (wp_tryReserve h) ?_ (fun _ _ => .inl)
  rintro (e | ⟨⟩) s' hs'
  · exact wp_throw.mpr (.inr ⟨e, rfl, hs'⟩)
  · exact wp_pure.mpr hs'

theorem wp_reserve_room {additional : Nat} {Q : Unit → Frame (SliceDeque β) T → Prop} (h : WF E s.self)
    (hroom : s.self.elems.len + additional ≤ s.self.capacity) (hQ : Q () s) : wp (reserve E additional) s Q P := by
  have hlt := h.cap_lt
  have hbound : isizeBound < usizeBound := by decide
  have htarget : growTarget s.self additional = s.self.elems.len + additional := if_neg (by omega)
  simp only [reserve, tryReserve, wp_bind]
  apply wp_len h
  have hgrow : wp (growPolicy E additional) s (fun n s' => n = s.self.elems.len + additional ∧ s' = s)
      fun _ _ => False := by
    simp only [growPolicy, wp_bind, wp_self]
    apply wp_len h
    rw [if_pos (by omega), if_neg (by omega)]
    exact wp_pure.mpr ⟨rfl, rfl⟩
  refine wp_mono hgrow ?_ fun _ _ => False.elim
  rintro _ _ ⟨rfl, rfl⟩
  simp only [reserveCapacity, wp_bind, wp_self, if_pos hroom, wp_pure]
  apply wp_debugAssert hroom
  simp only [unwrapAlloc, wp_pure]
  exact hQ

theorem exact_growPolicy {additional : Nat} : Exact (growPolicy E additional) s := by
  apply exact_bind exact_self
  intro _ _
  apply exact_bind exact_len
  intro _ _
  apply exact_ite
  · intro _
    apply exact_ite
    · exact fun _ => exact_pure
    · exact fun _ => exact_pure
  · exact fun _ => exact_throw

theorem ends_growPolicy {additional : Nat} (h : WF E s.self) (hfit : s.self.elems.len + additional < usizeBound) :
    Ends (growPolicy E additional) s fun n s' => n = growTarget s.self additional ∧ s' = s := by
  apply ends_iff.mpr ⟨exact_growPolicy, _⟩
  simp only [growPolicy, wp_bind, wp_self]
  apply wp_len h
  rw [if_pos hfit, growTarget]
  split <;> exact wp_pure.mpr ⟨rfl, rfl⟩

theorem ends_unwrapAlloc {r : Except AllocError Unit} {Q : Unit → Frame (SliceDeque β) T → Prop} :
    Ends (unwrapAlloc r) s Q ↔ r = .ok () ∧ Q () s := by
  cases r with
  | error e => exact ⟨fun h => absurd h not_ends_throw, fun h => absurd h.1 (by simp)⟩
  | ok _ => simp [unwrapAlloc]

/-- A reservation whose sizes fit succeeds when the allocator has memory for it. -/
theorem ends_reserve_granted {n : Nat} (h : WF E s.self) (hc : s.self.capacity < s.self.elems.len + n)
    (hfit : 2 * growTarget s.self n < usizeBound)
    (hf : E.layout.size ≠ 0 → Buffer.Fits E (2 * growTarget s.self n))
    (hgrant : E.layout.size ≠ 0 → E.layout.align ≤ E.granularity ∧
      ∃ r, E.allocate s.world.calls (Buffer.byteSize E (2 * growTarget s.self n)) = .ok r) :
    Ends (reserve E n) s fun _ s' => Grown E s s' (growTarget s.self n) := by
  have hle := le_growTarget s.self n
  rw [reserve, ends_bind, tryReserve, ends_bind, ends_len h, ends_bind]
  apply ends_mono (ends_growPolicy h (by omega))
  intro _ _ hgrow
  rw [hgrow.1, hgrow.2, ends_bind]
  apply ends_mono (ends_reserveCapacity_granted h (by omega) hfit hf hgrant)
  intro r s' hs'
  obtain ⟨rfl, hgrown, -⟩ := hs'
  rw [ends_bind, ends_self, ends_bind, ends_debugAssert (hle.trans hgrown.cap_ge), ends_pure, ends_unwrapAlloc]
  exact ⟨rfl, hgrown⟩

theorem exact_tryReserve {n : Nat} (h : WF E s.self)
    (ha : s.self.capacity < s.self.elems.len + n → s.self.elems.len + n < usizeBound → Askable E (growTarget s.self n)) :
    Exact (tryReserve E n) s := by
  have hgrow : wp (growPolicy E n) s (fun k s' => k = growTarget s.self n ∧ s' = s ∧ s.self.elems.len + n < usizeBound)
      fun _ _ => True := wp_growPolicy h (fun hn => ⟨rfl, rfl, hn⟩) trivial
  apply exact_len_bind h
  apply exact_seq exact_growPolicy hgrow
  intro k s' hk
  rw [hk.1, hk.2.1]
  apply exact_bind
  · apply exact_reserveCapacity h
    intro hc
    by_cases hroom : s.self.elems.len + n ≤ s.self.capacity
    · rw [growTarget, if_neg (by omega)] at hc
      omega
    · exact ha (by omega) hk.2.2
  · intro r _
    cases r with
    | error e => exact exact_pure
    | ok _ => exact exact_bind exact_self fun _ _ => exact_bind exact_debugAssert fun _ _ => exact_pure

@[simp] theorem exact_unwrapAlloc {r : Except AllocError Unit} : Exact (unwrapAlloc r) s := by
  cases r with
  | error e => exact exact_throw
  | ok _ => exact exact_pure

theorem exact_reserve {n : Nat} (h : WF E s.self)
    (ha : s.self.capacity < s.self.elems.len + n → Askable E (growTarget s.self n)) : Exact (reserve E n) s :=
  exact_bind (exact_tryReserve h fun hc _ => ha hc) fun _ _ => exact_unwrapAlloc

theorem exact_reserve_room {n : Nat} (h : WF E s.self) (hroom : s.self.elems.len + n ≤ s.self.capacity) :
    Exact (reserve E n) s := exact_reserve h fun hc => by omega

theorem wp_tryReserve_wraps {n : Nat} (h : WF E s.self) (hn : s.self.elems.len + n < usizeBound)
    (hc : s.self.capacity < s.self.elems.len + n) (ha : ¬ Askable E (growTarget s.self n)) :
    wp (tryReserve E n) s (fun _ _ => False) fun _ _ => False := by
  have hle := le_growTarget s.self n
  rw [tryReserve, wp_bind]
  apply wp_len h
  rw [wp_bind]
  apply wp_mono (ends_iff.mp (ends_growPolicy h hn)).2 _ fun _ _ => id
  intro k s' hk
  rw [hk.1, hk.2, wp_bind]
  exact wp_mono (wp_reserveCapacity_wraps (by omega) ha) (fun _ _ => False.elim) fun _ _ => id

theorem wp_reserve_wraps {n : Nat} (h : WF E s.self) (hn : s.self.elems.len + n < usizeBound)
    (hc : s.self.capacity < s.self.elems.len + n) (ha : ¬ Askable E (growTarget s.self n)) :
    wp (reserve E n) s (fun _ _ => False) fun _ _ => False :=
  wp_seq (wp_tryReserve_wraps h hn hc ha) (fun _ _ => False.elim) fun _ _ => id

theorem does_reserve {n : Nat} (h : WF E s.self)
    (ha : s.self.capacity < s.self.elems.len + n → Askable E (growTarget s.self n)) :
    Does (reserve E n) s (fun _ s' => Grown E s s' (growTarget s.self n)) (ReservePanic E s) :=
  ⟨exact_reserve h ha, wp_reserve h⟩

theorem wp_reserveExact {additional : Nat} (h : WF E s.self) :
    wp (reserveExact E additional) s
      (fun _ s' => Grown E s s' (s.self.elems.len + additional)) (ReservePanic E s) := by
  simp only [reserveExact, wp_bind]
  refine wp_len h ?_
  simp only [wp_ite, wp_bind, wp_throw]
  refine ⟨fun _ => ?_, fun _ => .inl ⟨rfl, .inl rfl⟩⟩
  refine wp_mono (wp_reserveCapacity h) ?_ (fun _ _ => .inl)
  rintro (e | ⟨⟩) s' hs'
  · exact wp_throw.mpr (.inr ⟨e, rfl, hs'⟩)
  · simp only [unwrapAlloc, wp_pure, wp_self]
    exact wp_debugAssert hs'.cap_ge hs'

end Sdeq.SliceDeque
