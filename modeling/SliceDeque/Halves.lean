import SliceDeque.Cloning

/-!
# The two halves of a buffer

`src/mirrored/buffer.rs`. A buffer is mirrored in bytes, but its length and the
place of its second half are counted in elements. What a call of
`uninitialized` returns is described here whether or not the size that it
computes wraps around.
-/

set_option autoImplicit false

namespace Sdeq
open Exec Rounding

namespace Buffer
variable {T β X σ : Type} (E : Env T β)

/-- `get(i)` -/
def get (i : Nat) : Method T (Buffer β) T := do
  let b ← self
  if i < b.len then readAt E b.ptr (b.ptr.mirror.base + i * E.layout.size) else throw .index

/-- Write a value through `get_mut(i)`. -/
def set (i : Nat) (v : T) : Method T (Buffer β) Unit := do
  let b ← self
  if i < b.len then do
    let r ← writeAt E b.ptr (b.ptr.mirror.base + i * E.layout.size) v
    setSelf ⟨r, b.len⟩
  else throw .index

def dropSelf : Method T (Buffer β) Unit := do
  let b ← self
  drop E b

/-- The slice of the first `mid` elements. -/
def firstHalf (b : Buffer β) (mid : Nat) : SliceDeque β := ⟨⟨b.ptr.mirror.base, mid⟩, b⟩

/-- `Clone::clone`: the elements of the first half are cloned over those of the new buffer, which is
dropped when a panic unwinds. -/
def clone : Method T (Buffer β) (Buffer β) := do
  let b ← self
  let mid := b.len / 2
  let r ← uninitialized E b.len
  match r with
  | .error e => throw (.alloc e)
  | .ok c => do
    let from_ ← readRange E b.ptr b.ptr.mirror.base mid
    let r ← onLocal c do
      onPanic (if mid ≤ c.len then
        within (c.firstHalf mid) SliceDeque.buf (SliceDeque.cloneFromSlice E 0 from_) else throw .index) (dropSelf E)
    pure r.2

variable {E} {s : Frame X T} {n : Nat} {b : Buffer β}

/-! ## Sizes that may wrap around -/

section Sizes
variable {t : σ}

/-- What follows the rounding of the number of units does not change it. -/
theorem lands_units_checked {bytes r : Nat} {Q : Nat → σ → Prop} (hQ : Q r t) :
    Lands (do
      when (E.debug = true) do
        let v ← usize E (r * E.granularity)
        debugAssert E (bytes ≤ v)
      debugAssert E (r % 2 = 0)
      pure r) t Q fun _ _ => True := by
  have hrest : Lands (do
      debugAssert E (r % 2 = 0)
      pure r) t Q fun _ _ => True := by
    rw [lands_bind]
    exact lands_debugAssert_or (lands_pure.mpr hQ) trivial
  rw [lands_bind, lands_when, lands_bind]
  exact ⟨fun _ => lands_usize_mod (lands_debugAssert_or hrest trivial) trivial, fun _ => hrest⟩

/-- The number of units is even, also when it wrapped around. -/
theorem lands_noRequiredAllocationUnits_even {bytes : Nat} :
    Lands (noRequiredAllocationUnits E bytes) t (fun r _ => r % 2 = 0) fun _ _ => True := by
  have htop : ∀ top : Nat, Lands (do
      let r ← (if max (top / E.granularity) 1 % 2 = 0 then pure (max (top / E.granularity) 1)
        else usize E (max (top / E.granularity) 1 + 1))
      when (E.debug = true) do
        let v ← usize E (r * E.granularity)
        debugAssert E (bytes ≤ v)
      debugAssert E (r % 2 = 0)
      pure r) t (fun r _ => r % 2 = 0) fun _ _ => True := by
    intro top
    rw [lands_bind, lands_ite, lands_pure]
    refine ⟨fun hr => lands_units_checked hr, fun hr => lands_usize_mod (lands_units_checked ?_) trivial⟩
    unfold usizeBound
    omega
  rw [noRequiredAllocationUnits, lands_bind]
  refine lands_usize_mod ?_ trivial
  rw [lands_bind]
  exact lands_usizeSub (fun _ => htop _) (fun _ => htop _) trivial

theorem lands_sizeInBytes_even {len : Nat} : Lands (sizeInBytes E len) t (fun v _ => v % 2 = 0) fun _ _ => True := by
  rw [sizeInBytes, lands_bind]
  refine lands_usize_mod ?_ trivial
  rw [lands_bind]
  refine lands_mono lands_noRequiredAllocationUnits_even (fun r t' hr => ?_) fun _ _ _ => trivial
  rw [lands_bind]
  refine lands_usize_mod ?_ trivial
  rw [lands_bind]
  refine lands_debugAssert_or (lands_pure.mpr ?_) trivial
  obtain ⟨k, rfl⟩ := Nat.dvd_of_mod_eq_zero hr
  rw [Nat.mul_assoc, Nat.mod_mod_of_dvd _ (by decide)]
  exact Nat.mul_mod_right _ _

/-- So many units are too few, or a mapping of them does not fit into the address space. -/
def Misjudged (E : Env T β) (bytes r : Nat) : Prop :=
  r * E.granularity % usizeBound < bytes ∨ usizeBound ≤ r * E.granularity % usizeBound + E.granularity

/-- The last number of units below `2 ^ 64` bytes, rounded up to an even one. -/
theorem misjudged_top {bytes q : Nat} (hq : q * E.granularity < usizeBound)
    (hnext : usizeBound ≤ q * E.granularity + E.granularity) (hb : E.granularity < bytes) :
    Misjudged E bytes q ∧ Misjudged E bytes ((q + 1) % usizeBound) := by
  have hg := E.granularity_pos
  have hfit := E.granularity_fits
  have hqq : q * 1 ≤ q * E.granularity := Nat.mul_le_mul_left q hg
  constructor
  · right
    rwa [Nat.mod_eq_of_lt hq]
  · left
    rcases Nat.lt_or_ge (q + 1) usizeBound with hlt | hge
    · rw [Nat.mod_eq_of_lt hlt, Nat.add_mul, Nat.one_mul, Nat.mod_eq_sub_mod hnext, Nat.mod_eq_of_lt (by omega)]
      omega
    · rw [show q + 1 = usizeBound by omega, Nat.mod_self, Nat.zero_mul, Nat.zero_mod]
      omega

theorem lands_noRequiredAllocationUnits_small {bytes : Nat} (hb : bytes < usizeBound)
    (hf : ¬ (bytes + E.granularity < usizeBound ∧ evenSize E.granularity bytes < usizeBound)) :
    Lands (noRequiredAllocationUnits E bytes) t (fun r _ => Misjudged E bytes r) fun _ _ => True := by
  have hg := E.granularity_pos
  have hfit := E.granularity_fits
  have hlarge : usizeBound < bytes + 2 * E.granularity := by
    have hsize := evenSize_lt hg bytes
    omega
  have htop : ∀ top : Nat,
      (max (top / E.granularity) 1 % 2 = 0 → Misjudged E bytes (max (top / E.granularity) 1)) →
      (max (top / E.granularity) 1 % 2 ≠ 0 → Misjudged E bytes ((max (top / E.granularity) 1 + 1) % usizeBound)) →
      Lands (do
        let r ← (if max (top / E.granularity) 1 % 2 = 0 then pure (max (top / E.granularity) 1)
          else usize E (max (top / E.granularity) 1 + 1))
        when (E.debug = true) do
          let v ← usize E (r * E.granularity)
          debugAssert E (bytes ≤ v)
        debugAssert E (r % 2 = 0)
        pure r) t (fun r _ => Misjudged E bytes r) fun _ _ => True := by
    intro top heven hodd
    rw [lands_bind, lands_ite, lands_pure]
    exact ⟨fun hr => lands_units_checked (heven hr), fun hr => lands_usize_mod (lands_units_checked (hodd hr)) trivial⟩
  rw [noRequiredAllocationUnits, lands_bind]
  refine lands_usize_mod ?_ trivial
  rw [lands_bind]
  rcases Nat.lt_or_ge (bytes + E.granularity) usizeBound with hsum | hsum
  · -- the number of units is right, and their size wraps around
    rw [Nat.mod_eq_of_lt hsum]
    have hsize : Misjudged E bytes (evenUnits E.granularity bytes) := by
      have hge : usizeBound ≤ evenSize E.granularity bytes := by omega
      have hlt := evenSize_lt hg bytes
      left
      rw [show evenUnits E.granularity bytes * E.granularity = evenSize E.granularity bytes from rfl,
        Nat.mod_eq_sub_mod hge, Nat.mod_eq_of_lt (by omega)]
      omega
    have hunits := Nat.div_le_self (bytes + E.granularity - 1) E.granularity
    refine lands_usizeSub (fun _ => htop _ (fun hr => ?_) fun hr => ?_) (fun h => by omega) trivial
    · rwa [evenUnits, if_pos hr] at hsize
    · rw [evenUnits, if_neg hr] at hsize
      rwa [Nat.mod_eq_of_lt (by unfold usizeBound at *; omega)]
  · rw [Nat.mod_eq_sub_mod hsum, Nat.mod_eq_of_lt (by omega)]
    refine lands_usizeSub (fun _ => ?_) (fun hzero => ?_) trivial
    · -- the sum wraps around to less than one unit
      have hone : max ((bytes + E.granularity - usizeBound - 1) / E.granularity) 1 = 1 := by
        rw [Nat.div_eq_of_lt (by omega)]
        rfl
      refine htop _ (fun hr => ?_) fun _ => ?_
      · rw [hone] at hr
        omega
      · left
        rw [hone, show (1 + 1) % usizeBound = 2 from rfl, Nat.mod_eq_of_lt (by omega)]
        omega
    · -- the sum wraps around to zero, and its predecessor to the end of the range
      have htotal : bytes + E.granularity - usizeBound + usizeBound - 1 = usizeBound - 1 := by omega
      rw [htotal]
      have hdiv := Nat.div_add_mod (usizeBound - 1) E.granularity
      have hmod := Nat.mod_lt (usizeBound - 1) hg
      rw [Nat.mul_comm] at hdiv
      have hpos : 1 ≤ (usizeBound - 1) / E.granularity := (Nat.one_le_div_iff hg).mpr (by omega)
      have hmis : Misjudged E bytes ((usizeBound - 1) / E.granularity) ∧
          Misjudged E bytes (((usizeBound - 1) / E.granularity + 1) % usizeBound) :=
        misjudged_top (by omega) (by omega) (by omega)
      exact htop _ (fun _ => by rw [Nat.max_eq_left hpos]; exact hmis.1) fun _ => by rw [Nat.max_eq_left hpos]; exact hmis.2

/-- A size that does not fit comes out too small, or so large that no mapping of it fits into the
address space. -/
theorem lands_sizeInBytes_small {len : Nat} (hf : ¬ Fits E len) :
    Lands (sizeInBytes E len) t (fun v _ => v < len * E.layout.size ∨ usizeBound ≤ v + E.granularity) fun _ _ => True := by
  have hpos : 0 < usizeBound := by decide
  rw [sizeInBytes, lands_bind]
  refine lands_usize_mod ?_ trivial
  rw [lands_bind]
  have hend : ∀ (r : Nat) (t' : σ),
      r * E.granularity % usizeBound < len * E.layout.size ∨ usizeBound ≤ r * E.granularity % usizeBound + E.granularity →
      Lands (do
        let v ← usize E (r * E.granularity)
        debugAssert E (len * E.layout.size % usizeBound ≤ v)
        pure v) t' (fun v _ => v < len * E.layout.size ∨ usizeBound ≤ v + E.granularity) fun _ _ => True := by
    intro r t' hr
    rw [lands_bind]
    refine lands_usize_mod ?_ trivial
    rw [lands_bind]
    exact lands_debugAssert_or (lands_pure.mpr hr) trivial
  rcases Nat.lt_or_ge (len * E.layout.size) usizeBound with hlt | hge
  · rw [Nat.mod_eq_of_lt hlt] at hend ⊢
    exact lands_mono (lands_noRequiredAllocationUnits_small hlt hf) (fun r t' hr => hend r t' hr) fun _ _ _ => trivial
  · exact lands_mono (lands_trivial _ _) (fun r t' _ => hend r t' (.inl ((Nat.mod_lt _ hpos).trans_le hge))) fun _ _ _ => trivial

theorem lands_sizeInBytes {len : Nat} : Lands (sizeInBytes E len) t
    (fun v _ => v % 2 = 0 ∧ (Fits E len → v = byteSize E len) ∧
      (¬ Fits E len → v < len * E.layout.size ∨ usizeBound ≤ v + E.granularity)) fun _ _ => True := by
  by_cases hf : Fits E len
  · have hsize := lands_of_exact (exact_sizeInBytes (s := t) hf)
      (wp_sizeInBytes (Q := fun v _ => v = byteSize E len) (P := fun _ _ => True) (fun _ => rfl) fun _ _ => trivial)
    exact lands_mono (lands_sizeInBytes_even.inter hsize) (fun v _ hv => ⟨hv.1, fun _ => hv.2, fun hn => absurd hf hn⟩)
      fun _ _ _ => trivial
  · exact lands_mono (lands_sizeInBytes_even.inter (lands_sizeInBytes_small hf))
      (fun v _ hv => ⟨hv.1, fun hn => absurd hn hf, fun _ => hv.2⟩) fun _ _ _ => trivial

end Sizes

/-! ## What is returned -/

theorem lands_allocateMirrored {size : Nat} :
    Lands (allocateMirrored E size) s
      (fun r _ => ∀ p, r = .ok p → size ≠ 0 ∧ size / 2 % E.granularity = 0 ∧
        ∃ a f, E.allocate s.world.calls size = .ok (a, f) ∧ p = ⟨s.world.calls, size, ⟨a, size / 2, f⟩⟩)
      fun _ _ => True := by
  simp only [allocateMirrored, lands_bind, lands_assert, lands_world]
  refine ⟨fun h0 => ⟨fun hmod => ?_, fun _ => trivial⟩, fun _ => trivial⟩
  cases ha : E.allocate s.world.calls size with
  | error e =>
    simp only [lands_bind, lands_modifyWorld, lands_pure]
    exact fun p hp => by cases hp
  | ok r =>
    simp only [lands_bind, lands_modifyWorld, lands_pure]
    intro p hp
    cases hp
    exact ⟨h0, hmod, r.1, r.2, rfl, rfl⟩

/-- A buffer of `v` mapped bytes that was returned for `n` elements. If the size of `n` elements does
not fit, fewer bytes are mapped. -/
structure Mapped (E : Env T β) (n v : Nat) (b : Buffer β) : Prop where
  memory : ∃ k a f, E.allocate k v = .ok (a, f) ∧ b = ⟨⟨k, v, ⟨a, v / 2, f⟩⟩, v / E.layout.size⟩
  dvd : 2 * E.granularity ∣ v
  pos : 0 < v
  even : n % 2 = 0
  exact : Fits E n → v = byteSize E n
  small : ¬ Fits E n → v < n * E.layout.size

/-- What a successful call of `uninitialized(n)` returned. -/
def Returned (E : Env T β) (n : Nat) (b : Buffer β) : Prop :=
  E.layout.align ≤ E.granularity ∧ (n = 0 ∧ b = new E ∨ ∃ v, Mapped E n v b)

theorem lands_uninitialized (hs : E.layout.size ≠ 0) :
    Lands (uninitialized E n) s (fun r _ => ∀ b, r = .ok b → Returned E n b) fun _ _ => True := by
  rw [uninitialized, if_neg hs, lands_bind, lands_assert]
  refine ⟨fun hal => ?_, fun _ => trivial⟩
  rw [lands_ite]
  refine ⟨fun h0 => lands_pure.mpr fun b hb => ?_, fun h0 => ?_⟩
  · cases hb
    exact ⟨hal, .inl ⟨h0, rfl⟩⟩
  rw [lands_bind, lands_assert]
  refine ⟨fun h2 => ?_, fun _ => trivial⟩
  rw [lands_bind]
  refine lands_mono lands_sizeInBytes (fun v s₁ hv => ?_) fun _ _ _ => trivial
  obtain ⟨heven, hexact, hsmall⟩ := hv
  rw [lands_bind]
  refine lands_debugAssert_or ?_ trivial
  rw [lands_bind]
  refine lands_debugAssert_or ?_ trivial
  rw [lands_bind]
  refine lands_debugAssert_or ?_ trivial
  rw [lands_bind]
  refine lands_debugAssert_or ?_ trivial
  rw [lands_bind]
  refine lands_mono lands_allocateMirrored ?_ fun _ _ _ => trivial
  rintro (e | p) s₂ hp
  · exact lands_pure.mpr fun b hb => by cases hb
  refine lands_pure.mpr fun b hb => ?_
  cases hb
  obtain ⟨hv, hmod, a, f, ha, rfl⟩ := hp p rfl
  refine ⟨hal, .inr ⟨v, ⟨_, a, f, ha, rfl⟩, ?_, by omega, h2, hexact, fun hf => (hsmall hf).resolve_right fun hlarge => ?_⟩⟩
  · obtain ⟨k, hk⟩ := Nat.dvd_of_mod_eq_zero hmod
    exact ⟨k, by rw [Nat.mul_assoc, ← hk]; omega⟩
  · have hpos := E.base_pos _ _ _ _ ha
    have hfits := E.base_fits _ _ _ _ ha
    have hge := Int.le_of_dvd hpos (E.base_dvd _ _ _ _ ha)
    omega

theorem returned_of_result (hs : E.layout.size ≠ 0) (h : (uninitialized E n s).result = .ok (.ok b)) : Returned E n b := by
  have hends := (lands_uninitialized (s := s) (n := n) hs).ends
  rw [h] at hends
  exact hends b rfl

/-! ## The second half -/

/-- The first half of the elements is mirrored into the second one. -/
structure Mirrors (E : Env T β) (n : Nat) (b : Buffer β) : Prop where
  len_ge : n ≤ b.len
  same_bytes : ∀ i k : Nat, i < b.len / 2 → k < E.layout.size →
    b.ptr.mirror.phys (b.ptr.mirror.base + i * E.layout.size + k) =
      b.ptr.mirror.phys (b.ptr.mirror.base + (b.len / 2 + i : Nat) * E.layout.size + k)
  read_back : ∀ (i : Nat) (v : T) (w : World T), i < b.len / 2 → Ends (do
    set E i v
    get E (b.len / 2 + i)) ⟨b, w⟩ fun r _ => r = v

section Halves
variable {v : Nat}

theorem half_elems_le : v / E.layout.size / 2 * E.layout.size ≤ v / 2 := by
  rw [half_div]
  exact Nat.div_mul_le_self _ _

/-- If the second half starts where the mapping is mirrored, it mirrors the first one. -/
theorem mirrors_of_half_eq (hm : Mapped E n v b) (hs : E.layout.size ≠ 0) (hle : n * E.layout.size ≤ v)
    (hhalf : v / E.layout.size / 2 * E.layout.size = v / 2) : Mirrors E n b := by
  obtain ⟨k, a, f, -, rfl⟩ := hm.memory
  have hsecond : ∀ i : Nat, a + ((v / E.layout.size / 2 + i : Nat) : Int) * E.layout.size =
      a + i * E.layout.size + (v / 2 : Nat) := by
    intro i
    rw [← hhalf]
    push_cast
    ring
  refine ⟨(Nat.le_div_iff_mul_le (by omega)).mpr hle, fun i j _ _ => ?_, fun i x w hi => ?_⟩
  · simp only [Mirror.phys, hsecond]
    rw [show a + i * E.layout.size + (v / 2 : Nat) + j - a = a + i * E.layout.size + j - a + (v / 2 : Nat) by ring,
      Int.add_emod_right]
  · dsimp only at hi
    have hin : v / E.layout.size / 2 + i < v / E.layout.size := by omega
    have hroom : (v / E.layout.size / 2 + i + 1) * E.layout.size ≤ 2 * (v / 2) := by
      have := Nat.mul_le_mul_right E.layout.size (show v / E.layout.size / 2 + i + 1 ≤ 2 * (v / E.layout.size / 2) by omega)
      rwa [Nat.mul_assoc, hhalf] at this
    have hcov : ∀ m : Mirror β, m.base = a → m.half = v / 2 → ∀ j : Nat, j ≤ v / E.layout.size / 2 + i →
        m.Covers (m.base + j * E.layout.size) E.layout.size := by
      intro m hb hh j hj
      have hmul := Nat.mul_le_mul_right E.layout.size (show j + 1 ≤ v / E.layout.size / 2 + i + 1 by omega)
      rw [Nat.add_mul, Nat.one_mul] at hmul
      refine .inr ⟨?_, ?_⟩
      · have : (0 : Int) ≤ j * E.layout.size := by positivity
        omega
      · rw [hh]
        have : ((j * E.layout.size : Nat) : Int) + E.layout.size ≤ 2 * (v / 2 : Nat) := by exact_mod_cast hmul.trans hroom
        push_cast at this ⊢
        linarith
    have hfirst : Mirror.Covers ⟨a, v / 2, f⟩ (a + i * E.layout.size) E.layout.size :=
      hcov ⟨a, v / 2, f⟩ rfl rfl i (by omega)
    simp only [set, get, ends_bind, ends_self, writeAt, readAt, if_pos (show i < v / E.layout.size by omega),
      if_pos hfirst, ends_pure, ends_setSelf, if_pos hin,
      if_pos (hcov (Mirror.write ⟨a, v / 2, f⟩ E.layout (a + i * E.layout.size) x) rfl rfl _ le_rfl)]
    have hslot := Mirror.slot_write (m := ⟨a, v / 2, f⟩) (L := E.layout) (b := a) (i := i) (k := i) (v := x) hhalf.le
      (by omega) (by omega)
    rw [if_pos rfl, ← Mirror.slot_add_half] at hslot
    refine Eq.trans ?_ hslot
    simp only [Mirror.write_base, Mirror.write_half, hsecond]
    rw [Mirror.slot, add_right_comm]

/-- The halves agree only if the mapping is mirrored where the second half of the elements starts. -/
theorem half_eq_of_mirrors (hm : Mapped E n v b) (hs : E.layout.size ≠ 0) (hn : 0 < n) (h : Mirrors E n b) :
    v / E.layout.size / 2 * E.layout.size = v / 2 := by
  obtain ⟨k, a, f, -, rfl⟩ := hm.memory
  have hlen := h.len_ge
  have heven := hm.even
  dsimp only at hlen
  have hpos : 0 < v / E.layout.size / 2 := by omega
  have hbytes := h.same_bytes 0 0 hpos (by omega)
  simp only [Mirror.phys, Nat.cast_zero, zero_mul, add_zero, sub_self, Int.zero_emod, add_sub_cancel_left] at hbytes
  have hdvd : v / 2 ∣ v / E.layout.size / 2 * E.layout.size := by
    have := Int.dvd_of_emod_eq_zero hbytes.symm
    exact_mod_cast this
  exact le_antisymm half_elems_le (Nat.le_of_dvd (Nat.mul_pos hpos (by omega)) hdvd)

/-- A buffer mirrors its first half of elements into the second one exactly if its size could be
computed and an element divides half of the mapping. -/
theorem uninitialized_mirrors_iff (hs : E.layout.size ≠ 0) (hn : 0 < n)
    (hb : (uninitialized E n s).result = .ok (.ok b)) :
    Mirrors E n b ↔ Fits E n ∧ E.layout.size ∣ byteSize E n / 2 := by
  obtain ⟨-, ⟨h0, -⟩ | ⟨v, hm⟩⟩ := returned_of_result hs hb
  · omega
  constructor
  · intro h
    have hf : Fits E n := by
      by_contra hf
      obtain ⟨k, a, f, -, rfl⟩ := hm.memory
      have hlen : n ≤ v / E.layout.size := h.len_ge
      have hsmall := hm.small hf
      have := (Nat.le_div_iff_mul_le (by omega)).mp hlen
      omega
    refine ⟨hf, ?_⟩
    rw [← hm.exact hf, ← half_eq_of_mirrors hm hs hn h]
    exact Nat.dvd_mul_left _ _
  · rintro ⟨hf, hdvd⟩
    have hv := hm.exact hf
    refine mirrors_of_half_eq hm hs (by rw [hv]; exact le_byteSize n) ?_
    rw [half_div, hv]
    exact Nat.div_mul_cancel hdvd

/-- A buffer of two pages for elements of three bytes. -/
def skewed : Buffer Nat := ⟨⟨0, 8192, ⟨0x100000000, 4096, fun _ => 0⟩⟩, 2730⟩

/-- 1365 elements of three bytes do not fill a page: the second half of the elements starts one byte
before the second half of the memory. -/
theorem uninitialized_skewed :
    (uninitialized (cells false 3 (by decide)) 2 (⟨(), .start⟩ : Frame Unit Nat)).result = .ok (.ok skewed) ∧
    ¬ Mirrors (cells false 3 (by decide)) 2 skewed := by
  refine ⟨rfl, fun h => ?_⟩
  exact absurd (h.same_bytes 0 0 (by decide) (by decide)) (by decide)

theorem sample_mirrors :
    Mirrors (cells false 4 (by decide)) 2 ⟨⟨0, 8192, ⟨0x100000000, 4096, fun _ => 0⟩⟩, 2048⟩ :=
  (uninitialized_mirrors_iff (s := (⟨(), .start⟩ : Frame Unit Nat)) (by decide) (by decide) rfl).mpr
    ⟨⟨by decide, by decide⟩, by decide⟩

end Halves

/-! ## The length of a buffer as an argument -/

/-- The same slots of the same buffer, with other bytes. -/
def SamePlace (d d' : SliceDeque β) : Prop :=
  d'.elems = d.elems ∧ d'.buf.len = d.buf.len ∧ d'.buf.ptr.mirror.base = d.buf.ptr.mirror.base

section Place
variable {d : SliceDeque β} {f : Frame (SliceDeque β) T}

theorem wp_writeSlot_place {i : Int} {v : T} (h : SamePlace d f.self) :
    wp (SliceDeque.writeSlot E i v) f (fun _ f' => SamePlace d f'.self) fun _ _ => True := by
  simp only [SliceDeque.writeSlot, wp_bind, wp_self, writeAt, wp_ite, wp_pure, wp_setSelf, wp_throw]
  exact ⟨fun _ => h, fun _ => trivial⟩

theorem wp_cloneFromSlice_place (vs : List T) (i : Nat) (h : SamePlace d f.self) :
    wp (SliceDeque.cloneFromSlice E i vs) f (fun _ f' => SamePlace d f'.self) fun _ _ => True := by
  induction vs generalizing i f with
  | nil => exact wp_pure.mpr h
  | cons v vs ih =>
    simp only [SliceDeque.cloneFromSlice, SliceDeque.assignClone, wp_bind]
    refine wp_produce (fun c _ => ?_) fun _ => trivial
    simp only [SliceDeque.readSlot, wp_bind, wp_self, readAt, wp_ite, wp_pure, wp_throw]
    refine ⟨fun _ => wp_onPanic (P := fun _ _ => True) ?_ fun _ _ _ => wp_trivial _ _, fun _ => trivial⟩
    refine wp_dropValue ?_ fun _ => trivial
    exact wp_mono (wp_writeSlot_place h) (fun _ f' hf => ih (i + 1) hf) fun _ _ _ => trivial

end Place

theorem Mapped.bounds {v : Nat} (hm : Mapped E n v b) : v + E.granularity < usizeBound := by
  obtain ⟨k, a, f, ha, -⟩ := hm.memory
  have hpos := E.base_pos _ _ _ _ ha
  have hfits := E.base_fits _ _ _ _ ha
  have hge := Int.le_of_dvd hpos (E.base_dvd _ _ _ _ ha)
  omega

/-- The length of a buffer can be asked for again, and gives the same length. -/
theorem Returned.len_again (h : Returned E n b) (hs : E.layout.size ≠ 0) : Fits E b.len ∧ lenFor E b.len = b.len := by
  obtain ⟨-, ⟨-, rfl⟩ | ⟨v, hm⟩⟩ := h
  · have hlen : (new E).len = 0 := if_neg hs
    rw [hlen]
    exact ⟨fits_of_no_bytes (Nat.zero_mul _), by rw [lenFor, if_neg hs, if_pos rfl]⟩
  · have hbound := hm.bounds
    obtain ⟨k, a, f, -, rfl⟩ := hm.memory
    have hle := Nat.div_mul_le_self v E.layout.size
    have hsize : byteSize E (v / E.layout.size) ≤ v := evenSize_le E.granularity_pos hm.dvd hm.pos hle
    refine ⟨⟨by dsimp only; omega, by dsimp only; omega⟩, ?_⟩
    rw [lenFor, if_neg hs]
    dsimp only
    split
    case isTrue h0 => exact h0.symm
    case isFalse =>
      exact le_antisymm (Nat.div_le_div_right hsize) ((Nat.le_div_iff_mul_le (by omega)).mpr (le_byteSize _))

theorem Returned.covers (h : Returned E n b) :
    b.ptr.mirror.Covers b.ptr.mirror.base (b.len / 2 * E.layout.size) := by
  obtain ⟨-, ⟨-, rfl⟩ | ⟨v, hm⟩⟩ := h
  · left
    by_cases hs : E.layout.size = 0 <;> simp [new, emptyLen, hs]
  · obtain ⟨k, a, f, -, rfl⟩ := hm.memory
    have hle : v / E.layout.size / 2 * E.layout.size ≤ v / 2 := half_elems_le
    refine .inr ⟨le_rfl, ?_⟩
    dsimp only
    omega

/-- The values of the first half. -/
def firstValues (E : Env T β) (b : Buffer β) : List T := b.ptr.mirror.elems E.layout b.ptr.mirror.base (b.len / 2)

/-- `clone` and `from_raw_parts` take the length of the buffer: the clone has the same length and
clones of the first half, unless user code panics, and the parts make up the same buffer. -/
structure Accepted (E : Env T β) (b : Buffer β) (w : World T) : Prop where
  clones : Lands (clone E) ⟨b, w⟩
    (fun c t => t.self = b ∧ c.len = b.len ∧ (clonesFrom E w.produced (b.firstValues E)).length = b.len / 2 ∧
      c.firstValues E = clonesFrom E w.produced (b.firstValues E))
    (fun p _ => p = .user ∨ p = .destructor)
  rebuilds : Ends (fromRawParts E b.ptr b.len) () fun b' _ => b' = b

section Accept
variable {w : World T}

theorem wp_cloneOver {c : Buffer β} {mid : Nat} {vs : List T} (hok : Ok E c) (hmid : mid ≤ c.cap) (hlen : vs.length = mid) :
    wp (SliceDeque.cloneFromSlice E 0 vs) (⟨c.firstHalf mid, w⟩ : Frame (SliceDeque β) T)
      (fun _ t => t.self.buf.len = c.len ∧ (clonesFrom E w.produced vs).length = mid ∧
        t.self.buf.ptr.mirror.elems E.layout t.self.buf.ptr.mirror.base mid = clonesFrom E w.produced vs)
      (fun p t => (p = .user ∨ p = .destructor) ∧ Ok E t.self.buf) := by
  have hwf : SliceDeque.WF E (c.firstHalf mid) := SliceDeque.wf_start hok hmid
  have hclone := SliceDeque.wp_cloneFromSlice vs [] ((c.firstHalf mid).toList E) ⟨c.firstHalf mid, w⟩ hwf rfl
    (by rw [SliceDeque.toList_length, hlen]; rfl)
  have hsafe := SliceDeque.safe_cloneFromSlice vs 0 ⟨c.firstHalf mid, w⟩ hwf (by rw [Nat.zero_add]; exact hlen)
  have hplace := wp_cloneFromSlice_place (E := E) (d := c.firstHalf mid) (f := ⟨c.firstHalf mid, w⟩) vs 0 ⟨rfl, rfl, rfl⟩
  refine wp_mono (wp_and (wp_and hclone hsafe) hplace) ?_ fun p t hp => ⟨hp.1.2.1, hp.1.2.2.ok.buf⟩
  rintro _ t ⟨⟨⟨ha, hn⟩, -⟩, helems, hblen, hbase⟩
  refine ⟨hblen, hn.trans hlen, ?_⟩
  have hl := ha.toList_eq
  rw [List.nil_append, hn, List.drop_of_length_le (by rw [SliceDeque.toList_length, hlen]; exact le_rfl),
    List.append_nil] at hl
  rw [← hl, SliceDeque.toList, helems, hbase]
  rfl

/-- What a clone of the buffer needs of it. -/
structure Clonable (E : Env T β) (b : Buffer β) (w : World T) : Prop where
  align_le : E.layout.align ≤ E.granularity
  fits : Fits E b.len
  len_again : lenFor E b.len = b.len
  covers : b.ptr.mirror.Covers b.ptr.mirror.base (b.len / 2 * E.layout.size)
  granted : b.len ≠ 0 → ∃ r, E.allocate w.calls (byteSize E b.len) = .ok r

theorem firstValues_length (b : Buffer β) : (b.firstValues E).length = b.len / 2 := by
  simp [firstValues]

theorem wp_clone (h : Clonable E b w) (h2 : b.len % 2 = 0) : wp (clone E) ⟨b, w⟩
    (fun c t => t.self = b ∧ c.len = b.len ∧ (clonesFrom E w.produced (b.firstValues E)).length = b.len / 2 ∧
      c.firstValues E = clonesFrom E w.produced (b.firstValues E))
    (fun p _ => p = .user ∨ p = .destructor) := by
  simp only [clone, wp_bind, wp_self]
  refine wp_mono (wp_uninitialized h2) ?_ ?_
  · rintro (e | c) t hc
    · obtain ⟨h0, he, -⟩ := hc
      obtain ⟨r, hr⟩ := h.granted h0
      rw [show (⟨b, w⟩ : Frame (Buffer β) T).world = w from rfl, hr] at he
      cases he
    have hlen : c.len = b.len := hc.len_eq.trans h.len_again
    have hmid : b.len / 2 ≤ c.cap := by rw [cap, hlen]
    have hprod : t.world.produced = w.produced := by rw [hc.world_eq]; rfl
    have hover := wp_cloneOver (w := t.world) hc.ok hmid (firstValues_length (E := E) b)
    rw [hprod] at hover
    simp only [wp_bind]
    refine wp_readRange h.covers ?_
    rw [wp_onLocal]
    refine wp_onPanic (P := fun p t' => (p = .user ∨ p = .destructor) ∧ Ok E t'.self) ?_ ?_
    · rw [if_pos (by rw [hlen]; omega), wp_within]
      refine wp_mono hover (fun _ t' ht => wp_pure.mpr ⟨hc.self_eq, ht.1.trans hlen, ht.2.1, ?_⟩) fun _ _ => id
      dsimp only
      rw [firstValues, ht.1, hlen]
      exact ht.2.2
    · rintro p t' ⟨hp, hok⟩
      simp only [dropSelf, wp_bind, wp_self]
      exact wp_drop hok hp
  · rintro p t ⟨-, ⟨-, hf⟩ | ⟨-, -, hal⟩⟩
    · exact absurd h.fits hf
    · have := h.align_le
      omega

theorem exact_clone (h : Clonable E b w) (h2 : b.len % 2 = 0) : Exact (clone E) (⟨b, w⟩ : Frame (Buffer β) T) := by
  apply exact_self_bind
  apply exact_seq (exact_uninitialized (.inr fun _ _ => h.fits)) (wp_uninitialized h2)
  rintro (e | c) t hc
  · exact exact_throw
  have hlen : c.len = b.len := hc.len_eq.trans h.len_again
  have hmid : b.len / 2 ≤ c.cap := by rw [cap, hlen]
  have hread : wp (readRange E b.ptr b.ptr.mirror.base (b.len / 2)) t (fun vs t' => vs.length = b.len / 2 ∧ t' = t)
      fun _ _ => False := wp_readRange h.covers ⟨firstValues_length b, rfl⟩
  apply exact_seq exact_readRange hread
  intro vs t' h
  obtain ⟨hvs, ht⟩ := h
  rw [ht]
  apply exact_bind _ fun _ _ => exact_pure
  apply exact_onLocal
  have hover := wp_cloneOver (w := t.world) hc.ok hmid hvs
  rw [if_pos (show b.len / 2 ≤ c.len by rw [hlen]; omega)]
  refine exact_unwind (P := fun _ t' => Ok E t'.self) (Q := fun _ _ => True) (exact_zoom ?_) ?_ fun p t' hok => ?_
  · exact SliceDeque.exact_cloneFromSlice _ _ _
  · rw [wp_within]
    exact wp_mono hover (fun _ _ _ => trivial) fun p t' hp => hp.2
  · exact exact_self_bind (exact_drop hok)

theorem Returned.clonable (h : Returned E n b) (hs : E.layout.size ≠ 0)
    (hgrant : b.len ≠ 0 → ∃ r, E.allocate w.calls (byteSize E b.len) = .ok r) {m : Mirror β}
    (hbase : m.base = b.ptr.mirror.base) (hhalf : m.half = b.ptr.mirror.half) : Clonable E (b.withMemory m) w := by
  obtain ⟨hfits, hlen⟩ := h.len_again hs
  refine ⟨h.1, hfits, hlen, ?_, hgrant⟩
  have hcov := h.covers
  unfold Mirror.Covers at *
  rw [← hbase, ← hhalf] at hcov
  exact hcov

/-- Of the bytes of a mapping that its elements leave over: less than half an element in each half. -/
theorem half_even_iff {v s : Nat} (hs : 0 < s) (hv : 2 * (v / 2) = v) : v / s % 2 = 0 ↔ 2 * (v / 2 % s) < s := by
  have hdiv := Nat.div_add_mod (v / 2) s
  have hmod := Nat.mod_lt (v / 2) hs
  have hsum : v = s * (2 * (v / 2 / s)) + 2 * (v / 2 % s) := by
    rw [Nat.mul_left_comm]
    omega
  have hquot : v / s = 2 * (v / 2 / s) + 2 * (v / 2 % s) / s := by
    conv_lhs => rw [hsum]
    rw [Nat.mul_add_div hs]
  rw [hquot]
  rcases Nat.lt_or_ge (2 * (v / 2 % s)) s with hlt | hge
  · rw [Nat.div_eq_of_lt hlt]
    omega
  · rw [show 2 * (v / 2 % s) / s = 1 from Nat.div_eq_of_lt_le (by omega) (by omega)]
    omega

/-- Two pages hold 481 elements of 17 bytes. -/
def odd : Buffer Nat := ⟨⟨0, 8192, ⟨0x100000000, 4096, fun _ => 0⟩⟩, 481⟩

end Accept

end Buffer

end Sdeq
