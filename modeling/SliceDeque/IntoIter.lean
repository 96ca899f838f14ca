import SliceDeque.Iterators

/-!
# The consuming iterator

`IntoIter` took the buffer of a deque apart: the pointer and the capacity are
kept to free it, two cursors delimit the items that were not taken yet. For
elements without bytes the cursors count items.
-/

set_option autoImplicit false

namespace Sdeq
open Exec

structure IntoIter (β : Type) where
  buf : Region β
  cap : Nat
  ptr : Int
  end_ : Int

namespace IntoIter
variable {T β X : Type} (E : Env T β)

/-- The distance of the cursors for one item. -/
def stride : Int := if E.layout.size = 0 then 1 else E.layout.size

/-- `ptr.wrapping_offset_from_(other)` -/
def wrappingOffsetFrom (ptr other : Int) : Option Int :=
  if E.layout.size = 0 then none else some (((other - ptr).bmod usizeBound).tdiv E.layout.size)

def sizeHint (it : IntoIter β) : Nat × Option Nat :=
  let exact := match wrappingOffsetFrom E it.ptr it.end_ with
    | some x => asUsize x
    | none => ((it.end_ - it.ptr) % usizeBound).toNat
  (exact, some exact)

def asSlice : Method T (IntoIter β) (List T) := do
  let it ← self
  readRange E it.buf it.ptr (sizeHint E it).1

/-- The items between the cursors. -/
def remaining (it : IntoIter β) : Nat := ((it.end_ - it.ptr) / stride E).toNat

def next : Method T (IntoIter β) (Option T) := do
  let it ← self
  if it.ptr = it.end_ then pure none
  else if E.layout.size = 0 then do
    setSelf { it with ptr := it.ptr + 1 }
    let v ← readAt E it.buf 1
    pure (some v)
  else do
    setSelf { it with ptr := it.ptr + E.layout.size }
    let v ← readAt E it.buf it.ptr
    pure (some v)

def nextBack : Method T (IntoIter β) (Option T) := do
  let it ← self
  if it.end_ = it.ptr then pure none
  else if E.layout.size = 0 then do
    setSelf { it with end_ := it.end_ - 1 }
    let v ← readAt E it.buf 1
    pure (some v)
  else do
    setSelf { it with end_ := it.end_ - E.layout.size }
    let v ← readAt E it.buf (it.end_ - E.layout.size)
    pure (some v)

/-- Take an item from one of the ends. -/
def pull : End → Method T (IntoIter β) (Option T)
  | .front => next E
  | .back => nextBack E

/-- `Drop for IntoIter`. A panic in the loop leaves the buffer behind. -/
def drop : Method T (IntoIter β) Unit := do
  let it ← self
  exhaust E (next E) (remaining E it)
  let len ← usize E (2 * it.cap)
  let b ← Buffer.fromRawParts E it.buf len
  Buffer.drop E b

/-! ## The items that were not taken -/

/-- The buffer as `Drop` puts it together again. -/
def buffer (it : IntoIter β) : Buffer β := ⟨it.buf, 2 * it.cap⟩

def vals (it : IntoIter β) : List T := it.buf.mirror.elems E.layout it.ptr (it.remaining E)

structure Ok (it : IntoIter β) : Prop where
  buf : Buffer.Ok E it.buffer
  end_eq : it.end_ = it.ptr + it.remaining E * stride E
  remaining_le : it.remaining E ≤ it.cap
  covers : it.buf.mirror.Covers it.ptr (it.remaining E * E.layout.size)

def owner : Owner (IntoIter β) T := ⟨Ok E, vals E, fun it => it.buffer.regions E⟩

def view : View (IntoIter β) T (Buffer β) := ⟨Ok E, vals E, buffer⟩

variable {E} {ι : Type} {f : T → ι} {s : Frame (IntoIter β) T} {P : Panic → Frame (IntoIter β) T → Prop}

theorem stride_pos : 0 < stride E := by
  unfold stride
  split <;> omega

theorem remaining_of_eq {it : IntoIter β} {n : Nat} (h : it.end_ = it.ptr + n * stride E) : it.remaining E = n := by
  rw [remaining, h, add_sub_cancel_left, Int.mul_ediv_cancel _ (stride_pos (E := E)).ne', Int.toNat_natCast]

theorem Ok.remaining_eq_zero {it : IntoIter β} (h : Ok E it) : it.ptr = it.end_ ↔ it.remaining E = 0 := by
  have hs := stride_pos (E := E)
  have he := h.end_eq
  constructor
  · intro heq
    have : (it.remaining E : Int) * stride E = 0 := by omega
    rcases Int.mul_eq_zero.mp this with h0 | h0 <;> omega
  · intro h0
    rw [h0, Nat.cast_zero, zero_mul, add_zero] at he
    exact he.symm

theorem Ok.part {it : IntoIter β} (h : Ok E it) {i k : Nat} (hik : i + k ≤ it.remaining E) :
    Ok E ⟨it.buf, it.cap, it.ptr + i * stride E, it.ptr + (i + k) * stride E⟩ ∧
    vals E ⟨it.buf, it.cap, it.ptr + i * stride E, it.ptr + (i + k) * stride E⟩ = ((vals E it).drop i).take k := by
  have hrem : remaining E (⟨it.buf, it.cap, it.ptr + i * stride E, it.ptr + (i + k) * stride E⟩ : IntoIter β) = k :=
    remaining_of_eq (by ring)
  have haddr : (E.layout.size = 0 ∧ stride E = 1) ∨ stride E = E.layout.size := by
    unfold stride
    split <;> simp_all
  have hle := h.remaining_le
  refine ⟨⟨h.buf, by rw [hrem]; ring, by rw [hrem]; dsimp only; omega, ?_⟩, ?_⟩
  · rw [hrem]
    rcases haddr with ⟨hz, -⟩ | hs
    · exact .inl (by rw [hz, Nat.mul_zero])
    · rw [hs]
      exact h.covers.part hik
  · simp only [vals, hrem]
    rw [Mirror.elems_drop _ (by omega), Mirror.elems_take _ (by omega)]
    rcases haddr with ⟨hz, -⟩ | hs
    · exact Mirror.elems_congr_of_size hz _ _ _
    · rw [hs]

theorem vals_length (it : IntoIter β) : (vals E it).length = it.remaining E := by
  simp [vals]

/-- The machine arithmetic on the cursors counts the items. -/
theorem sizeHint_eq {it : IntoIter β} (h : Ok E it) : sizeHint E it = (it.remaining E, some (it.remaining E)) := by
  have hle := h.remaining_le
  have hcap : it.buffer.cap = it.cap := by simp [buffer, Buffer.cap]
  have hlt := h.buf.cap_lt
  have hdiff : it.end_ - it.ptr = it.remaining E * stride E := by
    have := h.end_eq
    omega
  rw [hcap] at hlt
  unfold sizeHint wrappingOffsetFrom
  rw [hdiff]
  by_cases hs : E.layout.size = 0
  · have hmod : ((it.remaining E : Int) * stride E) % usizeBound = it.remaining E := by
      rw [stride, if_pos hs, mul_one]
      unfold isizeBound usizeBound at *
      omega
    rw [if_pos hs]
    simp [hmod]
  · -- the items lie in one half, which is shorter than `isize::MAX`
    have hbytes : it.remaining E * E.layout.size ≤ it.cap * E.layout.size := Nat.mul_le_mul_right _ hle
    have hhalf := h.buf.cap_mul_le_max
    rw [hcap] at hhalf
    have hmod : ((it.remaining E : Int) * stride E).bmod usizeBound = (it.remaining E * E.layout.size : Nat) := by
      rw [stride, if_neg hs]
      unfold isizeBound usizeBound at *
      push_cast
      apply Int.bmod_eq_of_le <;> omega
    have hdiv : ((it.remaining E * E.layout.size : Nat) : Int).tdiv E.layout.size = it.remaining E := by
      rw [Int.natCast_mul, Int.mul_tdiv_cancel _ (by omega)]
    rw [if_neg hs]
    simp only [hmod, hdiv, asUsize_natCast]

theorem ends_asSlice (h : Ok E s.self) : Ends (asSlice E) s fun vs s' => vs = s.self.vals E ∧ s' = s := by
  have hread : wp (asSlice E) s (fun vs s' => vs = s.self.vals E ∧ s' = s) fun _ _ => False := by
    simp only [asSlice, wp_bind, wp_self, sizeHint_eq h]
    exact wp_readRange h.covers ⟨rfl, rfl⟩
  exact ends_iff.mpr ⟨exact_self_bind exact_readRange, hread⟩

theorem wp_readItem {it : IntoIter β} (h : Ok E it) {i : Nat} (hi : i < it.remaining E) {a : Int}
    (ha : E.layout.size ≠ 0 → a = it.ptr + i * E.layout.size) {σ : Type} {t : σ} {Q : T → σ → Prop}
    {P : Panic → σ → Prop} (hQ : ∀ v, (vals E it)[i]? = some v → Q v t) : wp (readAt E it.buf a) t Q P := by
  have hv : (vals E it)[i]? = some (it.buf.mirror.read E.layout a) := by
    rw [vals, List.getElem?_eq_getElem (by simpa using hi), Mirror.elems_getElem]
    by_cases hz : E.layout.size = 0
    · exact congrArg some (Mirror.read_congr_of_size hz _ _)
    · rw [ha hz]
      rfl
  have hcov : it.buf.mirror.Covers a E.layout.size := by
    by_cases hz : E.layout.size = 0
    · exact .inl hz
    · have := h.covers.part (i := i) (k := 1) (by omega)
      rwa [one_mul, ← ha hz] at this
  rw [readAt, if_pos hcov]
  exact wp_pure.mpr (hQ _ hv)

@[simp] theorem exact_next : Exact (next E) s :=
  exact_bind exact_self fun _ _ => exact_ite (fun _ => exact_pure) fun _ => exact_ite
    (fun _ => exact_bind exact_setSelf fun _ _ => exact_bind exact_readAt fun _ _ => exact_pure)
    fun _ => exact_bind exact_setSelf fun _ _ => exact_bind exact_readAt fun _ _ => exact_pure

@[simp] theorem exact_nextBack : Exact (nextBack E) s :=
  exact_bind exact_self fun _ _ => exact_ite (fun _ => exact_pure) fun _ => exact_ite
    (fun _ => exact_bind exact_setSelf fun _ _ => exact_bind exact_readAt fun _ _ => exact_pure)
    fun _ => exact_bind exact_setSelf fun _ _ => exact_bind exact_readAt fun _ _ => exact_pure

theorem wp_next (h : Ok E s.self) :
    wp (next E) s (fun r s' => r = (s.self.vals E).head? ∧ (view E).Taken s s' (s.self.vals E).tail) P := by
  have hz := h.remaining_eq_zero
  have hlen := vals_length (E := E) s.self
  simp only [next, wp_bind, wp_self, wp_ite, wp_pure]
  refine ⟨fun heq => ?_, fun hne => ?_⟩
  · have hnil : vals E s.self = [] := List.eq_nil_of_length_eq_zero (by rw [hlen, hz.mp heq])
    exact ⟨by rw [hnil]; rfl, h, by rw [hnil]; exact hnil, rfl, rfl⟩
  · have hpos : 0 < s.self.remaining E := Nat.pos_of_ne_zero fun h0 => hne (hz.mpr h0)
    obtain ⟨hok, hvals⟩ := h.part (i := 1) (k := s.self.remaining E - 1) (by omega)
    have hend : s.self.ptr + ((1 : Nat) + (s.self.remaining E - 1 : Nat)) * stride E = s.self.end_ := by
      rw [h.end_eq]
      congr 2
      omega
    rw [hend, List.take_of_length_le (by rw [List.length_drop, hlen]), List.drop_one, Nat.cast_one, one_mul] at hvals
    rw [hend, Nat.cast_one, one_mul] at hok
    refine ⟨fun hs => ?_, fun hs => ?_⟩
    · rw [stride, if_pos hs] at hok hvals
      simp only [wp_setSelf]
      refine wp_readItem h hpos (fun hne => absurd hs hne) fun v hv => ⟨?_, hok, hvals, rfl, rfl⟩
      rw [List.head?_eq_getElem?, hv]
    · rw [stride, if_neg hs] at hok hvals
      simp only [wp_setSelf]
      refine wp_readItem h hpos (fun _ => by simp) fun v hv => ⟨?_, hok, hvals, rfl, rfl⟩
      rw [List.head?_eq_getElem?, hv]

theorem wp_nextBack (h : Ok E s.self) :
    wp (nextBack E) s (fun r s' => r = (s.self.vals E).getLast? ∧ (view E).Taken s s' (s.self.vals E).dropLast) P := by
  have hz := h.remaining_eq_zero
  have hlen := vals_length (E := E) s.self
  simp only [nextBack, wp_bind, wp_self, wp_ite, wp_pure]
  refine ⟨fun heq => ?_, fun hne => ?_⟩
  · have hnil : vals E s.self = [] := List.eq_nil_of_length_eq_zero (by rw [hlen, hz.mp heq.symm])
    exact ⟨by rw [hnil]; rfl, h, by rw [hnil]; exact hnil, rfl, rfl⟩
  · have hpos : 0 < s.self.remaining E := Nat.pos_of_ne_zero fun h0 => hne (hz.mpr h0).symm
    obtain ⟨hok, hvals⟩ := h.part (i := 0) (k := s.self.remaining E - 1) (by omega)
    have hend : s.self.ptr + ((0 : Nat) + (s.self.remaining E - 1 : Nat)) * stride E = s.self.end_ - stride E := by
      have he := h.end_eq
      rw [Nat.cast_sub (by omega), Nat.cast_zero, zero_add, Nat.cast_one, sub_mul, one_mul]
      omega
    rw [hend, Nat.cast_zero, zero_mul, add_zero, List.drop_zero] at hvals
    rw [hend, Nat.cast_zero, zero_mul, add_zero] at hok
    rw [show s.self.remaining E - 1 = (vals E s.self).length - 1 by rw [hlen], ← List.dropLast_eq_take] at hvals
    refine ⟨fun hs => ?_, fun hs => ?_⟩
    · rw [stride, if_pos hs] at hok hvals
      simp only [wp_setSelf]
      refine wp_readItem h (i := s.self.remaining E - 1) (by omega) (fun hne => absurd hs hne)
        fun v hv => ⟨?_, hok, hvals, rfl, rfl⟩
      rw [List.getLast?_eq_getElem?, hlen, hv]
    · rw [stride, if_neg hs] at hok hvals hend
      simp only [wp_setSelf]
      refine wp_readItem h (i := s.self.remaining E - 1) (by omega) (fun _ => ?_) fun v hv => ⟨?_, hok, hvals, rfl, rfl⟩
      · rw [← hend]
        simp
      · rw [List.getLast?_eq_getElem?, hlen, hv]

theorem keeps_taken {s' : Frame (IntoIter β) T} {l taken : List T} (h : (view E).Taken s s' l)
    (hl : ids f (s.self.vals E) = ids f l + ids f taken) : Keeps (owner E) f s s' [] taken [] := by
  have hvals : s'.self.vals E = l := h.items_eq
  have hbuf : s'.self.buffer = s.self.buffer := h.fixed_eq
  refine ⟨⟨h.ok, ?_⟩, ?_⟩
  · rw [h.world_eq, Multiset.coe_nil, add_zero]
    simp only [owner, hbuf]
    exact .refl _ _
  · simp only [owner, h.world_eq, hvals, ids_nil, add_zero, hl]
    exact .refl _ _

theorem conserves_next (h : Ok E s.self) : Conserves E (owner E) f (next E) [] Option.toList s := by
  refine wp_mono (wp_next h) ?_ fun _ _ => False.elim
  rintro _ s' ⟨rfl, ht⟩
  refine keeps_taken ht ?_
  cases hl : (s.self.vals E).head? with
  | none => simp [List.head?_eq_none_iff.mp hl]
  | some a => exact ids_head hl

theorem conserves_nextBack (h : Ok E s.self) : Conserves E (owner E) f (nextBack E) [] Option.toList s := by
  refine wp_mono (wp_nextBack h) ?_ fun _ _ => False.elim
  rintro _ s' ⟨rfl, ht⟩
  refine keeps_taken ht ?_
  cases hl : (s.self.vals E).getLast? with
  | none => simp [List.getLast?_eq_none_iff.mp hl]
  | some a => exact ids_getLast hl

theorem ends_pull (e : End) (s : Frame (IntoIter β) T) (h : Ok E s.self) : Ends (pull E e) s fun r s' =>
    r = (e.pull (s.self.vals E)).1 ∧ (view E).Taken s s' (e.pull (s.self.vals E)).2 := by
  cases e with
  | front => exact ends_iff.mpr ⟨exact_next, wp_next h⟩
  | back => exact ends_iff.mpr ⟨exact_nextBack, wp_nextBack h⟩

/-! ## Dropping -/

theorem wp_exhaust (h : Ok E s.self) :
    wp (exhaust E (next E) (s.self.remaining E)) s (fun _ s' => (view E).Reduced s s' (s.self.remaining E))
      (fun p s' => p = .destructor ∧ SliceDeque.DestructorsPanic E ∧ ∃ k, (view E).Reduced s s' k) :=
  View.wp_exhaust (V := view E) (fun _ h => wp_next h) _ s h (vals_length _)

/-- Dropping the iterator destroys what remains and frees the buffer, unless a destructor panics:
then the items behind it and the buffer are left. -/
theorem wp_drop (h : Ok E s.self) :
    wp (drop E) s (fun _ s' => s'.world = (s.world.destroy (s.self.vals E)).unmap (s.self.buffer.regions E))
      (fun p s' => p = .destructor ∧ SliceDeque.DestructorsPanic E ∧ ∃ k, (view E).Reduced s s' k) := by
  simp only [drop, wp_bind, wp_self]
  refine wp_mono (wp_exhaust h) (fun _ s₁ hr => ?_) fun _ _ => id
  have hlt := h.buf.len_lt
  have hworld : s₁.world = s.world.destroy (s.self.vals E) := (hr.all (vals_length _)).2
  simp only [buffer] at hlt
  rw [wp_usize]
  refine ⟨fun _ => ?_, fun hge => absurd hlt (by omega)⟩
  exact Buffer.wp_fromRawParts h.buf (by omega) (Buffer.wp_drop h.buf (by rw [hworld]; rfl))

theorem exact_drop (h : Ok E s.self) : Exact (drop E) s := by
  apply exact_self_bind
  apply exact_bind (View.exact_exhaust fun _ => exact_next)
  intro _ s₁
  have hlt := h.buf.len_lt
  apply exact_usize_bind hlt
  have hmake : wp (Buffer.fromRawParts E s.self.buf (2 * s.self.cap)) s₁ (fun b _ => b = s.self.buffer)
      fun _ _ => True := Buffer.wp_fromRawParts h.buf (by omega) rfl
  apply exact_seq Buffer.exact_fromRawParts hmake
  rintro _ s₃ rfl
  exact Buffer.exact_drop h.buf

/-- A dropped iterator owns nothing any more, but for what a panic of a destructor left. -/
theorem discards_drop (h : Ok E s.self) :
    wp (drop E) s (fun _ s' => Discarded f s.world s'.world (s.self.vals E) (s.self.buffer.regions E) [] [])
      (fun p s' => p = .destructor ∧ SliceDeque.DestructorsPanic E ∧ ∃ lost out,
        Discarded f s.world s'.world (s.self.vals E) (s.self.buffer.regions E) lost out) := by
  refine wp_mono (wp_drop h) ?_ ?_
  · intro _ s' hw
    refine ⟨?_, ?_⟩ <;> rw [hw]
    · have := Trade.unmap (s.world.destroy (s.self.vals E)) 0 (s.self.buffer.regions E)
      rw [zero_add] at this
      exact (Trade.destroy _ _ _).trans this
    · exact (Logged.destroy _ _).unmap.moves (by simp)
  · rintro p s' ⟨hp, hd, k, hr⟩
    refine ⟨hp, hd, (s.self.vals E).drop k, s.self.buffer.regions E, ?_, ?_⟩ <;> rw [hr.world_eq]
    · exact .destroy _ _ _
    · apply (Logged.destroy _ _).moves
      rw [ids_nil, add_zero, add_comm, ← ids_append]
      exact congrArg _ (List.take_append_drop k _).symm

end IntoIter

namespace SliceDeque
variable {T β X : Type} (E : Env T β)

/-- `IntoIterator for SliceDeque`; the deque is forgotten. -/
def intoIter (d : SliceDeque β) : Method T X (IntoIter β) := do
  let l := d.elems.len
  let end_ : Int := if E.layout.size = 0 then d.elems.ptr + l else d.elems.ptr + l * E.layout.size
  assert (d.elems.ptr ≤ end_)
  let it : IntoIter β := ⟨d.buf.ptr, d.capacity, d.elems.ptr, end_⟩
  debugAssert E (l = (IntoIter.sizeHint E it).1)
  pure it

variable {E} {d : SliceDeque β} {t : Frame X T}

/-- The iterator over all elements of a deque. -/
structure Consumer (E : Env T β) (d : SliceDeque β) (it : IntoIter β) : Prop where
  ok : IntoIter.Ok E it
  vals_eq : it.vals E = d.toList E
  regions_eq : it.buffer.regions E = d.regions E

theorem wp_intoIter {Q : IntoIter β → Frame X T → Prop} {P : Panic → Frame X T → Prop} (h : WF E d)
    (hQ : ∀ it, Consumer E d it → Q it t) : wp (intoIter E d) t Q P := by
  have hstride : (if E.layout.size = 0 then d.elems.ptr + d.elems.len else
      d.elems.ptr + d.elems.len * E.layout.size : Int) = d.elems.ptr + d.elems.len * IntoIter.stride E := by
    unfold IntoIter.stride
    split <;> simp
  have hrem : IntoIter.remaining E (⟨d.buf.ptr, d.capacity, d.elems.ptr,
      d.elems.ptr + d.elems.len * IntoIter.stride E⟩ : IntoIter β) = d.elems.len := IntoIter.remaining_of_eq rfl
  have hpos := IntoIter.stride_pos (E := E)
  obtain ⟨hok, hreg⟩ := h.buf.recap
  have hiter : Consumer E d ⟨d.buf.ptr, d.capacity, d.elems.ptr, d.elems.ptr + d.elems.len * IntoIter.stride E⟩ := by
    refine ⟨⟨hok, by rw [hrem], by rw [hrem]; exact h.len_le, by rw [hrem]; exact h.covers_toList⟩, ?_, hreg⟩
    rw [IntoIter.vals, hrem]
    rfl
  simp only [intoIter, hstride, wp_bind, wp_assert]
  refine ⟨fun _ => ?_, fun hlt => absurd ?_ hlt⟩
  · rw [hstride]
    apply wp_debugAssert
    · rw [IntoIter.sizeHint_eq hiter.ok, hrem]
    · exact wp_pure.mpr (hQ _ hiter)
  · have : (0 : Int) ≤ d.elems.len * IntoIter.stride E := by positivity
    omega

@[simp] theorem exact_intoIter : Exact (intoIter E d) t :=
  exact_bind exact_assert fun _ _ => exact_bind exact_debugAssert fun _ _ => exact_pure

/-- Any use of the iterator of a deque leaves of it what it leaves of the list of all elements. -/
theorem ends_intoIter_used (h : WF E d) : Ends (intoIter E d) t fun it t₁ => ∀ ops,
    let u := final (IntoIter.pull E) ops ⟨it, t₁.world⟩
    IntoIter.Ok E u.self ∧ u.self.vals E = specFinal End.pull ops (d.toList E) := by
  apply ends_iff.mpr ⟨exact_intoIter, wp_intoIter h _⟩
  intro it hit ops
  obtain ⟨-, -, hu⟩ := View.run_pull (V := IntoIter.view E) (s := ⟨it, t.world⟩) IntoIter.ends_pull ops hit.ok
  have hvals : IntoIter.vals E (final (IntoIter.pull E) ops ⟨it, t.world⟩).self = specFinal End.pull ops (it.vals E) :=
    hu.items_eq
  rw [hit.vals_eq] at hvals
  exact ⟨hu.ok, hvals⟩

/-- The consuming iterator yields the elements of the deque from both ends, each of them once, counts
those that are left, shows them, and destroys them when it is dropped. -/
theorem intoIter_yields_all (h : WF E d) : Ends (intoIter E d) t fun it t₁ => t₁ = t ∧ ∀ ops : List End,
    let left := specFinal End.pull ops (d.toList E)
    let u := final (IntoIter.pull E) ops ⟨it, t.world⟩
    results (IntoIter.pull E) ops ⟨it, t.world⟩ = (specResults End.pull ops (d.toList E)).map .ok ∧
    End.yielded .front ops (specResults End.pull ops (d.toList E)) ++ left ++
      (End.yielded .back ops (specResults End.pull ops (d.toList E))).reverse = d.toList E ∧
    Always (IntoIter.pull E) (fun e u => Exact (IntoIter.pull E e) u) ops ⟨it, t.world⟩ ∧
    u.self.sizeHint E = (left.length, some left.length) ∧
    (E.layout.size ≠ 0 → Ends (IntoIter.asSlice E) u fun vs u' => vs = left ∧ u' = u) ∧
    u.world = t.world ∧ Exact (IntoIter.drop E) u ∧
    wp (IntoIter.drop E) u (fun _ u' => u'.world = (t.world.destroy left).unmap (d.regions E))
      (fun p _ => p = .destructor ∧ DestructorsPanic E) := by
  apply ends_iff.mpr ⟨exact_intoIter, wp_intoIter h _⟩
  intro it hit
  refine ⟨rfl, fun ops => ?_⟩
  obtain ⟨hres, hexact, hu⟩ := View.run_pull (V := IntoIter.view E) (s := ⟨it, t.world⟩) IntoIter.ends_pull ops hit.ok
  have hok := hu.ok
  have hvals := hu.items_eq
  have hbuf := hu.fixed_eq
  have hworld := hu.world_eq
  simp only [IntoIter.view, hit.vals_eq] at hres hok hvals hbuf
  dsimp only at hworld ⊢
  have hlen := IntoIter.vals_length (E := E) (final (IntoIter.pull E) ops (⟨it, t.world⟩ : Frame (IntoIter β) T)).self
  rw [hvals] at hlen
  refine ⟨hres, End.yielded_append _ _, hexact, ?_, fun _ => ?_, hworld, IntoIter.exact_drop hok, ?_⟩
  · rw [IntoIter.sizeHint_eq hok, hlen]
  · refine ends_mono (IntoIter.ends_asSlice hok) ?_
    rintro vs u' ⟨rfl, rfl⟩
    exact ⟨hvals, rfl⟩
  · refine wp_mono (IntoIter.wp_drop hok) (fun _ u' hw => ?_) fun p u' hp => ⟨hp.1, hp.2.1⟩
    rw [hw, hvals, hworld, hbuf, hit.regions_eq]

/-- One element is taken from each end of a deque whose head crosses the end of the buffer. -/
theorem sample_intoIter : Ends (intoIter (cells false 3 (by decide)) sample) (⟨(), .start⟩ : Frame Unit Nat) fun it t₁ =>
    let u := final (IntoIter.pull (cells false 3 (by decide))) [.back, .front] ⟨it, t₁.world⟩
    results (IntoIter.pull (cells false 3 (by decide))) [.back, .front] ⟨it, t₁.world⟩ =
      [.ok (some 30), .ok (some 10)] ∧
    u.self.sizeHint (cells false 3 (by decide)) = (1, some 1) ∧
    wp (IntoIter.drop (cells false 3 (by decide))) u (fun _ u' => u'.world.destroyed = [20]) fun p _ => p = .destructor := by
  refine ends_mono (intoIter_yields_all wf_sample) fun it t₁ hit => ?_
  obtain ⟨rfl, hops⟩ := hit
  obtain ⟨hres, -, -, hsize, -, -, -, hdrop⟩ := hops [.back, .front]
  exact ⟨hres, hsize, wp_mono hdrop (fun _ u' hu => by rw [hu]; rfl) fun _ _ hp => hp.1⟩

end SliceDeque

end Sdeq
