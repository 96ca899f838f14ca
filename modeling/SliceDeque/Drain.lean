import SliceDeque.Iterators

/-!
# The draining iterator

A `Drain` borrows its deque, which was shortened to the elements in front of
the range: a leaked `Drain` loses elements, but exposes none twice. Behind the
items of the range lies the tail, which `Drop` moves back.
-/

set_option autoImplicit false

namespace Sdeq
open Exec SliceDeque

/-- `ops::Bound` -/
inductive Bound where
  | included (n : Nat)
  | excluded (n : Nat)
  | unbounded
  deriving DecidableEq, Repr

structure Drain (β : Type) where
  /-- index of the tail to preserve -/
  tailStart : Nat
  tailLen : Nat
  /-- the range that remains to be removed -/
  iter : Slice
  deq : SliceDeque β

/-- The first index of a range that starts at the bound. -/
def Bound.low : Bound → Nat
  | included n => n
  | excluded n => n + 1
  | unbounded => 0

/-- The index behind a range that ends at the bound. -/
def Bound.high (len : Nat) : Bound → Nat
  | included n => n + 1
  | excluded n => n
  | unbounded => len

section Ranges
variable {T β σ : Type} (E : Env T β)

def rangeStart : Bound → Exec Panic σ Nat
  | .included n => pure n
  | .excluded n => usize E (n + 1)
  | .unbounded => pure 0

def rangeEnd (len : Nat) : Bound → Exec Panic σ Nat
  | .included n => usize E (n + 1)
  | .excluded n => pure n
  | .unbounded => pure len

variable {E} {t : σ} {Q : Nat → σ → Prop} {P : Panic → σ → Prop} {b : Bound} {len : Nat}

theorem wp_rangeStart (hQ : Q b.low t) (hP : usizeBound ≤ b.low → P .overflow t) : wp (rangeStart E b) t Q P := by
  cases b with
  | included n => exact wp_pure.mpr hQ
  | excluded n => exact wp_usize.mpr ⟨fun _ => hQ, fun h _ => hP h⟩
  | unbounded => exact wp_pure.mpr hQ

theorem wp_rangeEnd (hQ : Q (b.high len) t) (hP : usizeBound ≤ b.high len → P .overflow t) :
    wp (rangeEnd E len b) t Q P := by
  cases b with
  | included n => exact wp_usize.mpr ⟨fun _ => hQ, fun h _ => hP h⟩
  | excluded n => exact wp_pure.mpr hQ
  | unbounded => exact wp_pure.mpr hQ

theorem exact_rangeStart (h : b.low < usizeBound) : Exact (rangeStart E b) t := by
  cases b with
  | included n => exact exact_pure
  | excluded n => exact exact_usize h
  | unbounded => exact exact_pure

theorem exact_rangeEnd (h : b.high len < usizeBound) : Exact (rangeEnd E len b) t := by
  cases b with
  | included n => exact exact_usize h
  | excluded n => exact exact_pure
  | unbounded => exact exact_pure

end Ranges

/-- `drain(range)` -/
def SliceDeque.drain {T β : Type} (E : Env T β) (start end_ : Bound) : DeqM T β (Drain β) := do
  let l ← len E
  let start ← rangeStart E start
  let end_ ← rangeEnd E l end_
  assert (start ≤ end_)
  assert (end_ ≤ l)
  let d ← self
  setSelf (d.withLen start)
  let ptr : Int := if E.layout.size = 0 then d.elems.ptr + start else d.elems.ptr + start * E.layout.size
  pure ⟨end_, l - end_, ⟨ptr, end_ - start⟩, d.withLen start⟩

namespace Drain
variable {T β : Type} (E : Env T β)

def next : Method T (Drain β) (Option T) := do
  let dr ← self
  if dr.iter.len = 0 then pure none
  else do
    setSelf { dr with iter := ⟨dr.iter.ptr + E.layout.size, dr.iter.len - 1⟩ }
    let v ← readAt E dr.deq.buf.ptr dr.iter.ptr
    pure (some v)

def nextBack : Method T (Drain β) (Option T) := do
  let dr ← self
  if dr.iter.len = 0 then pure none
  else do
    setSelf { dr with iter := ⟨dr.iter.ptr, dr.iter.len - 1⟩ }
    let v ← readAt E dr.deq.buf.ptr (dr.iter.ptr + (dr.iter.len - 1 : Nat) * E.layout.size)
    pure (some v)

/-- Take an item from one of the ends. -/
def pull : End → Method T (Drain β) (Option T)
  | .front => next E
  | .back => nextBack E

/-- `size_hint` of the slice iterator -/
def sizeHint (dr : Drain β) : Nat × Option Nat := (dr.iter.len, some dr.iter.len)

/-- Call a method of the deque behind the iterator. -/
def onDeq {α : Type} (m : DeqM T β α) : Method T (Drain β) α :=
  onPart Drain.deq (fun dr d => ⟨dr.tailStart, dr.tailLen, dr.iter, d⟩) m

/-- Move the tail back behind the elements that stay. -/
def restoreTail : Method T (Drain β) Unit := do
  let dr ← self
  when (0 < dr.tailLen) (onDeq do
    let start ← len E
    copySlots E dr.tailStart start dr.tailLen
    moveTailUnchecked E (asIsize dr.tailLen))

/-- `Drop for Drain` -/
def drop : Method T (Drain β) Unit := do
  let dr ← self
  exhaust E (next E) dr.iter.len
  restoreTail E

/-! ## Three parts of a deque -/

def items (dr : Drain β) : List T := dr.deq.buf.ptr.mirror.elems E.layout dr.iter.ptr dr.iter.len

def tail (dr : Drain β) : List T := dr.deq.window E dr.tailStart dr.tailLen

/-- The elements that stay, the items and the tail follow one another. -/
structure Ok (dr : Drain β) : Prop where
  wf : WF E dr.deq
  items_at : dr.iter.len ≠ 0 → dr.tailStart ≤ dr.deq.capacity ∧ ∃ a : Nat, dr.deq.elems.len ≤ a ∧
    a + dr.iter.len ≤ dr.tailStart ∧ (E.layout.size ≠ 0 → dr.iter.ptr = dr.deq.elems.ptr + a * E.layout.size)
  tail_at : 0 < dr.tailLen → dr.deq.elems.len ≤ dr.tailStart ∧ dr.tailStart + dr.tailLen ≤ dr.deq.capacity

def owner : Owner (Drain β) T :=
  ⟨Ok E, fun dr => dr.deq.toList E ++ dr.items E ++ dr.tail E, fun dr => dr.deq.regions E⟩

variable {E} {ι : Type} {f : T → ι} {s : Frame (Drain β) T} {P : Panic → Frame (Drain β) T → Prop}

theorem Ok.covers {dr : Drain β} (h : Ok E dr) :
    dr.deq.buf.ptr.mirror.Covers dr.iter.ptr (dr.iter.len * E.layout.size) := by
  by_cases hz : dr.iter.len * E.layout.size = 0
  · exact .inl hz
  have hn : dr.iter.len ≠ 0 := fun h0 => hz (by rw [h0, Nat.zero_mul])
  have hs : E.layout.size ≠ 0 := fun h0 => hz (by rw [h0, Nat.mul_zero])
  obtain ⟨hcap, a, -, hle, hptr⟩ := h.items_at hn
  rw [hptr hs]
  exact h.wf.covers (i := a) (by omega) (by omega)

def view (E : Env T β) : View (Drain β) T (SliceDeque β × Nat × Nat) :=
  ⟨Ok E, items E, fun dr => (dr.deq, dr.tailStart, dr.tailLen)⟩

/-- The deque and the tail do not move while items are taken. -/
theorem deq_of_fixed {dr dr' : Drain β} (h : (view E).fixed dr' = (view E).fixed dr) :
    dr'.deq = dr.deq ∧ dr'.tail E = dr.tail E := by
  simp only [view, Prod.mk.injEq] at h
  obtain ⟨hdeq, hstart, hlen⟩ := h
  exact ⟨hdeq, by rw [tail, tail, hdeq, hstart, hlen]⟩

theorem items_length (dr : Drain β) : (dr.items E).length = dr.iter.len := by
  simp [items]

/-- A drain over a part of the items. -/
theorem Ok.part (h : Ok E s.self) {i k : Nat} (hik : i + k ≤ s.self.iter.len) :
    (view E).Taken s ⟨⟨s.self.tailStart, s.self.tailLen, ⟨s.self.iter.ptr + i * E.layout.size, k⟩, s.self.deq⟩, s.world⟩
      (((s.self.items E).drop i).take k) := by
  refine ⟨⟨h.wf, fun hk => ?_, h.tail_at⟩, ?_, rfl, rfl⟩
  · have hk : k ≠ 0 := hk
    obtain ⟨hcap, a, hla, hat, hptr⟩ := h.items_at (by omega)
    refine ⟨hcap, a + i, by dsimp only; omega, by dsimp only; omega, fun hs => ?_⟩
    dsimp only
    rw [hptr hs]
    push_cast
    ring
  · simp only [view, items]
    rw [Mirror.elems_drop _ (by omega), Mirror.elems_take _ (by omega)]

theorem wp_readItem (h : Ok E s.self) {i : Nat} (hi : i < s.self.iter.len) {σ : Type} {t : σ} {Q : T → σ → Prop}
    {P : Panic → σ → Prop} (hQ : ∀ v, (s.self.items E)[i]? = some v → Q v t) :
    wp (readAt E s.self.deq.buf.ptr (s.self.iter.ptr + i * E.layout.size)) t Q P := by
  have hcov := h.covers.part (i := i) (k := 1) (by omega)
  rw [one_mul] at hcov
  rw [readAt, if_pos hcov]
  refine wp_pure.mpr (hQ _ ?_)
  rw [items, List.getElem?_eq_getElem (by simpa using hi), Mirror.elems_getElem]
  rfl

@[simp] theorem exact_next : Exact (next E) s :=
  exact_bind exact_self fun _ _ => exact_ite (fun _ => exact_pure) fun _ =>
    exact_bind exact_setSelf fun _ _ => exact_bind exact_readAt fun _ _ => exact_pure

@[simp] theorem exact_nextBack : Exact (nextBack E) s :=
  exact_bind exact_self fun _ _ => exact_ite (fun _ => exact_pure) fun _ =>
    exact_bind exact_setSelf fun _ _ => exact_bind exact_readAt fun _ _ => exact_pure

theorem wp_next (h : Ok E s.self) :
    wp (next E) s (fun r s' => r = (s.self.items E).head? ∧ (view E).Taken s s' (s.self.items E).tail) P := by
  have hlen := items_length (E := E) s.self
  simp only [next, wp_bind, wp_self, wp_ite, wp_pure]
  refine ⟨fun h0 => ?_, fun hne => ?_⟩
  · have hnil : items E s.self = [] := List.eq_nil_of_length_eq_zero (by rw [hlen, h0])
    exact ⟨by rw [hnil]; rfl, h, by rw [hnil]; exact hnil, rfl, rfl⟩
  · have ht := h.part (i := 1) (k := s.self.iter.len - 1) (by omega)
    rw [List.take_of_length_le (by rw [List.length_drop, hlen]), List.drop_one, Nat.cast_one, one_mul] at ht
    rw [wp_setSelf]
    have := wp_readItem (i := 0) (P := P) (t := ⟨⟨s.self.tailStart, s.self.tailLen,
      ⟨s.self.iter.ptr + E.layout.size, s.self.iter.len - 1⟩, s.self.deq⟩, s.world⟩)
      (Q := fun a s' => some a = (s.self.items E).head? ∧ (view E).Taken s s' (s.self.items E).tail) h (by omega)
      fun v hv => ⟨by rw [List.head?_eq_getElem?, hv], ht⟩
    rwa [Nat.cast_zero, zero_mul, add_zero] at this

theorem wp_nextBack (h : Ok E s.self) :
    wp (nextBack E) s (fun r s' => r = (s.self.items E).getLast? ∧ (view E).Taken s s' (s.self.items E).dropLast) P := by
  have hlen := items_length (E := E) s.self
  simp only [nextBack, wp_bind, wp_self, wp_ite, wp_pure]
  refine ⟨fun h0 => ?_, fun hne => ?_⟩
  · have hnil : items E s.self = [] := List.eq_nil_of_length_eq_zero (by rw [hlen, h0])
    exact ⟨by rw [hnil]; rfl, h, by rw [hnil]; exact hnil, rfl, rfl⟩
  · have ht := h.part (i := 0) (k := s.self.iter.len - 1) (by omega)
    rw [Nat.cast_zero, zero_mul, add_zero, List.drop_zero] at ht
    have hlast : (items E s.self).dropLast = (items E s.self).take (s.self.iter.len - 1) := by
      rw [List.dropLast_eq_take, hlen]
    rw [← hlast] at ht
    rw [wp_setSelf]
    refine wp_readItem (i := s.self.iter.len - 1) h (by omega) fun v hv => ⟨?_, ht⟩
    rw [List.getLast?_eq_getElem?, hlen, hv]

theorem keeps_taken {s' : Frame (Drain β) T} {l taken : List T} (h : (view E).Taken s s' l)
    (hl : ids f (s.self.items E) = ids f l + ids f taken) : Keeps (owner E) f s s' [] taken [] := by
  obtain ⟨hdeq, htail⟩ := deq_of_fixed h.fixed_eq
  have hitems : s'.self.items E = l := h.items_eq
  refine ⟨⟨h.ok, ?_⟩, ?_⟩
  · rw [h.world_eq, Multiset.coe_nil, add_zero]
    simp only [owner, hdeq]
    exact .refl _ _
  · simp only [owner, h.world_eq, hitems, hdeq, htail, ids_append, ids_nil, add_zero, hl]
    rw [← add_assoc, add_right_comm]
    exact .refl _ _

theorem conserves_next (h : Ok E s.self) : Conserves E (owner E) f (next E) [] Option.toList s := by
  refine wp_mono (wp_next h) ?_ fun _ _ => False.elim
  rintro _ s' ⟨rfl, ht⟩
  refine keeps_taken ht ?_
  cases hl : (s.self.items E).head? with
  | none => simp [List.head?_eq_none_iff.mp hl]
  | some a => exact ids_head hl

theorem conserves_nextBack (h : Ok E s.self) : Conserves E (owner E) f (nextBack E) [] Option.toList s := by
  refine wp_mono (wp_nextBack h) ?_ fun _ _ => False.elim
  rintro _ s' ⟨rfl, ht⟩
  refine keeps_taken ht ?_
  cases hl : (s.self.items E).getLast? with
  | none => simp [List.getLast?_eq_none_iff.mp hl]
  | some a => exact ids_getLast hl

theorem ends_pull (e : End) (s : Frame (Drain β) T) (h : Ok E s.self) : Ends (pull E e) s fun r s' =>
    r = (e.pull (s.self.items E)).1 ∧ (view E).Taken s s' (e.pull (s.self.items E)).2 := by
  cases e with
  | front => exact ends_iff.mpr ⟨exact_next, wp_next h⟩
  | back => exact ends_iff.mpr ⟨exact_nextBack, wp_nextBack h⟩

/-! ## Dropping -/

theorem keeps_reduced {s' : Frame (Drain β) T} {k : Nat} (h : (view E).Reduced s s' k) :
    Keeps (owner E) f s s' [] [] [] := by
  obtain ⟨hdeq, htail⟩ := deq_of_fixed h.fixed_eq
  have hitems : ids f (s.self.items E) = ids f (s'.self.items E) + ids f ((s.self.items E).take k) := by
    rw [show s'.self.items E = (s.self.items E).drop k from h.items_eq, add_comm, ← ids_append,
      List.take_append_drop]
  refine ⟨⟨h.ok, ?_⟩, ?_⟩
  · rw [h.world_eq, Multiset.coe_nil, add_zero]
    simp only [owner, hdeq]
    exact .destroy _ _ _
  · rw [h.world_eq]
    apply (Logged.destroy s.world _).moves
    simp only [owner, view, hdeq, htail, ids_append, ids_nil, add_zero, hitems]
    abel

theorem wp_exhaust (h : Ok E s.self) :
    wp (exhaust E (next E) s.self.iter.len) s (fun _ s' => (view E).Reduced s s' s.self.iter.len)
      (fun p s' => p = .destructor ∧ DestructorsPanic E ∧ ∃ k, (view E).Reduced s s' k) :=
  View.wp_exhaust (V := view E) (fun _ h => wp_next h) _ s h (items_length _)

theorem iter_len_reduced {s' : Frame (Drain β) T} (h : (view E).Reduced s s' s.self.iter.len) :
    s'.self.iter.len = 0 := by
  have hnil : s'.self.items E = [] := (h.all (items_length _)).1
  rw [← items_length (E := E), hnil, List.length_nil]

theorem items_eq_nil {dr : Drain β} (h : dr.iter.len = 0) : dr.items E = [] := by
  rw [items, h, Mirror.elems_zero]

/-- The tail follows the elements that stayed. -/
theorem wp_restoreTail (h : Ok E s.self) :
    wp (restoreTail E) s (fun _ s' => Effect E ⟨s.self.deq, s.world⟩ ⟨s'.self.deq, s'.world⟩
      (s.self.deq.toList E ++ s.self.tail E) [] ∧ s'.self.deq.capacity = s.self.deq.capacity) P := by
  have hlt := h.wf.cap_lt
  simp only [restoreTail, wp_bind, wp_self, wp_when]
  refine ⟨fun hpos => ?_, fun h0 => ?_⟩
  · obtain ⟨hlen, htl⟩ := h.tail_at hpos
    rw [onDeq, wp_onPart]
    simp only [wp_bind]
    refine wp_len h.wf ?_
    dsimp only
    refine wp_copySlots h.wf (by omega) (by dsimp only; omega) (by omega) (by dsimp only; omega) fun d₁ hwf hr hs => ?_
    have helems : d₁.elems = s.self.deq.elems := hr.elems_eq
    have hcap := hr.capacity_eq
    rw [asIsize_of_lt (by omega)]
    refine wp_moveTailUnchecked (n := s.self.deq.elems.len + s.self.tailLen) hwf (by rw [helems]; push_cast; rfl)
      (by dsimp only at hcap ⊢; omega) ⟨?_, hcap⟩
    refine .of_self (s := ⟨s.self.deq, s.world⟩) (hwf.withLen (by dsimp only at hcap ⊢; omega)) ?_ hr.regions_eq
    apply toList_eq_of_getElem
    · rw [List.length_append, toList_length, tail, window_length]
      rfl
    · intro i hi
      rw [List.length_append, toList_length, tail, window_length] at hi
      refine (hs i (by omega) (by dsimp only; omega)).trans ?_
      by_cases hi' : i < s.self.deq.elems.len
      · rw [if_neg (by omega), List.getElem_append_left (by rw [toList_length]; exact hi'), toList_getElem]
      · rw [if_pos (by omega), List.getElem_append_right (by rw [toList_length]; omega)]
        simp only [tail, window_getElem, toList_length]
        congr 1
        push_cast
        omega
  · have hnil : s.self.tail E = [] := List.eq_nil_of_length_eq_zero (by rw [tail, window_length]; omega)
    rw [hnil, List.append_nil]
    exact ⟨.refl (s := ⟨s.self.deq, s.world⟩) h.wf, trivial⟩

theorem exact_restoreTail (h : Ok E s.self) : Exact (restoreTail E) s := by
  have hlt := h.wf.cap_lt
  apply exact_self_bind
  apply exact_when
  intro hpos
  obtain ⟨hlen, htl⟩ := h.tail_at hpos
  apply exact_onPart
  apply exact_len_bind h.wf
  have hcopy : wp (copySlots E s.self.tailStart s.self.deq.elems.len s.self.tailLen) ⟨s.self.deq, s.world⟩
      (fun _ s' => WF E s'.self ∧ Rewritten s.self.deq s'.self) fun _ _ => False :=
    wp_copySlots h.wf (by omega) (by dsimp only; omega) (by omega) (by dsimp only; omega)
      fun d₁ hwf hr _ => ⟨hwf, hr⟩
  apply exact_seq exact_copySlots hcopy
  rintro _ s' ⟨hwf, hr⟩
  have hcap := hr.capacity_eq
  rw [asIsize_of_lt (by omega)]
  apply exact_moveTailUnchecked (n := s.self.deq.elems.len + s.self.tailLen) hwf
  · rw [hr.elems_eq]
    push_cast
    rfl
  · omega

/-- Dropping destroys the items that are left and closes the gap; a panic leaves it open. -/
theorem wp_drop (h : Ok E s.self) :
    wp (drop E) s (fun _ s' => Effect E ⟨s.self.deq, s.world⟩ ⟨s'.self.deq, s'.world⟩
        (s.self.deq.toList E ++ s.self.tail E) (s.self.items E) ∧ s'.self.deq.capacity = s.self.deq.capacity)
      (fun p s' => p = .destructor ∧ DestructorsPanic E ∧ ∃ k, (view E).Reduced s s' k) := by
  simp only [drop, wp_bind, wp_self]
  refine wp_mono (wp_exhaust h) (fun _ s₁ hr => ?_) fun _ _ => id
  refine wp_mono (wp_restoreTail (P := fun _ _ => False) hr.ok) ?_ fun _ _ => False.elim
  rintro _ s' ⟨heff, hcap⟩
  obtain ⟨hdeq, htail⟩ := deq_of_fixed hr.fixed_eq
  have hdead : Effect E ⟨s.self.deq, s.world⟩ ⟨s₁.self.deq, s₁.world⟩ (s.self.deq.toList E) (s.self.items E) := by
    have hworld : s₁.world = s.world.destroy (s.self.items E) := (hr.all (items_length _)).2
    rw [hdeq, hworld]
    exact (Change.refl h.wf).destroy _
  rw [hdeq, htail] at heff
  rw [hdeq] at hdead hcap
  have := hdead.trans heff
  rw [List.append_nil] at this
  exact ⟨this, hcap⟩

theorem exact_drop (h : Ok E s.self) : Exact (drop E) s := by
  apply exact_self_bind
  exact exact_seq (View.exact_exhaust fun _ => exact_next) (wp_exhaust h) fun _ _ hr => exact_restoreTail hr.ok

/-- What dropping a drain leaves: the deque, with everything that was not lost. -/
structure Closed (E : Env T β) (f : T → ι) (s s' : Frame (Drain β) T) (lost : List T) : Prop where
  wf : WF E s'.self.deq
  trade : Trade s.world (s.self.deq.regions E) s'.world (s'.self.deq.regions E)
  flow : Books.Moves (s.world.ids f) (ids f ((owner E).vals s.self)) (s'.world.ids f)
    (ids f (s'.self.deq.toList E) + ids f lost)

theorem closes_drop (h : Ok E s.self) :
    wp (drop E) s (fun _ s' => Closed E f s s' [])
      (fun p s' => p = .destructor ∧ DestructorsPanic E ∧ ∃ lost, Closed E f s s' lost) := by
  refine wp_mono (wp_drop h) ?_ ?_
  · rintro _ s' ⟨heff, -⟩
    refine ⟨heff.wf, heff.trade, heff.log.moves ?_⟩
    simp only [owner, heff.toList_eq, ids_append, ids_nil, add_zero]
    abel
  · rintro p s' ⟨hp, hd, k, hr⟩
    have hk : Keeps (owner E) f s s' [] [] [] := keeps_reduced hr
    have hok : Ok E s'.self := hr.ok
    have ht := hk.trade
    have hf := hk.flow
    simp only [owner, Multiset.coe_nil, ids_nil, add_zero, List.append_assoc] at ht hf
    rw [ids_append (s'.self.deq.toList E)] at hf
    exact ⟨hp, hd, _, hok.wf, ht, by simpa only [owner, List.append_assoc] using hf⟩

end Drain

namespace SliceDeque
variable {T β : Type} {E : Env T β} {s : Frame (SliceDeque β) T} {start end_ : Bound}

/-- A new drain of the range from `a` to `b`. -/
structure Drained (E : Env T β) (d : SliceDeque β) (a b : Nat) (dr : Drain β) : Prop where
  ok : Drain.Ok E dr
  deq_eq : dr.deq = d.withLen a
  kept_eq : dr.deq.toList E = (d.toList E).take a
  items_eq : dr.items E = ((d.toList E).drop a).take (b - a)
  tail_eq : dr.tail E = (d.toList E).drop b

/-- The drain starts with all elements: those that stay, the range, and the tail. -/
theorem Drained.parts {d : SliceDeque β} {a b : Nat} {dr : Drain β} (h : Drained E d a b dr) (hab : a ≤ b) :
    dr.deq.toList E ++ dr.items E ++ dr.tail E = d.toList E := by
  have hdrop : (d.toList E).drop b = ((d.toList E).drop a).drop (b - a) := by
    rw [List.drop_drop]
    congr 1
    omega
  rw [h.kept_eq, h.items_eq, h.tail_eq, hdrop, List.append_assoc, List.take_append_drop, List.take_append_drop]

theorem drained {d : SliceDeque β} {a b : Nat} (h : WF E d) (hab : a ≤ b) (hb : b ≤ d.elems.len) :
    Drained E d a b ⟨b, d.elems.len - b, ⟨if E.layout.size = 0 then d.elems.ptr + a else
      d.elems.ptr + a * E.layout.size, b - a⟩, d.withLen a⟩ := by
  have hle := h.len_le
  refine ⟨⟨h.withLen (by omega), fun _ => ⟨hb.trans hle, a, le_rfl, ?_, fun hs => ?_⟩, fun _ => ⟨hab, ?_⟩⟩, rfl,
    toList_withLen (by omega), ?_, ?_⟩
  · dsimp only
    omega
  · dsimp only
    rw [if_neg hs]
    rfl
  · show b + (d.elems.len - b) ≤ d.capacity
    omega
  · rw [toList, Mirror.elems_drop _ (by omega), Mirror.elems_take _ (by omega)]
    by_cases hs : E.layout.size = 0
    · exact Mirror.elems_congr_of_size hs _ _ _
    · simp only [Drain.items, if_neg hs]
      rfl
  · rw [toList, Mirror.elems_drop _ hb]
    rfl

theorem wp_drain (h : WF E s.self) :
    wp (drain E start end_) s
      (fun dr s' => start.low ≤ end_.high s.self.elems.len ∧ end_.high s.self.elems.len ≤ s.self.elems.len ∧
        Drained E s.self start.low (end_.high s.self.elems.len) dr ∧ s' = ⟨dr.deq, s.world⟩)
      (fun p s' => s' = s ∧ (p = .overflow ∨ p = .assert) ∧
        ¬ (start.low ≤ end_.high s.self.elems.len ∧ end_.high s.self.elems.len ≤ s.self.elems.len)) := by
  have hlt := h.len_lt
  have hbound : isizeBound < usizeBound := by decide
  simp only [drain, wp_bind]
  refine wp_len h (wp_rangeStart ?_ fun hov => ⟨rfl, .inl rfl, by omega⟩)
  refine wp_rangeEnd ?_ fun hov => ⟨rfl, .inl rfl, by omega⟩
  simp only [wp_assert, wp_self, wp_setSelf, wp_pure]
  refine ⟨fun hab => ⟨fun hb => ⟨hab, hb, drained h hab hb, trivial⟩, fun hb => ?_⟩, fun hab => ?_⟩
  · exact ⟨trivial, .inr trivial, fun hh => hb hh.2⟩
  · exact ⟨trivial, .inr trivial, fun hh => hab hh.1⟩

theorem exact_drain (h : WF E s.self) (hab : start.low ≤ end_.high s.self.elems.len)
    (hb : end_.high s.self.elems.len ≤ s.self.elems.len) : Exact (drain E start end_) s := by
  have hlt := h.len_lt
  have hbound : isizeBound < usizeBound := by decide
  apply exact_len_bind h
  apply exact_bind (exact_rangeStart (by omega))
  intro _ _
  apply exact_bind (exact_rangeEnd (by omega))
  exact fun _ _ => exact_bind exact_assert fun _ _ => exact_bind exact_assert fun _ _ =>
    exact_bind exact_self fun _ _ => exact_bind exact_setSelf fun _ _ => exact_pure

theorem ends_drain (h : WF E s.self) (hab : start.low ≤ end_.high s.self.elems.len)
    (hb : end_.high s.self.elems.len ≤ s.self.elems.len) :
    Ends (drain E start end_) s fun dr s' => Drained E s.self start.low (end_.high s.self.elems.len) dr ∧
      s' = ⟨dr.deq, s.world⟩ := by
  apply ends_iff.mpr ⟨exact_drain h hab hb, _⟩
  exact wp_mono (wp_drain h) (fun dr s' hd => ⟨hd.2.2.1, hd.2.2.2⟩) fun p s' hp => hp.2.2 ⟨hab, hb⟩

/-- A drain that was used in any way and is dropped at any point has removed exactly its range; a
leaked drain has removed all elements from the start of the range on. -/
theorem drain_removes_range (h : WF E s.self) (hab : start.low ≤ end_.high s.self.elems.len)
    (hb : end_.high s.self.elems.len ≤ s.self.elems.len) :
    Ends (drain E start end_) s fun dr s₁ => ∀ ops : List End,
      let range := ((s.self.toList E).drop start.low).take (end_.high s.self.elems.len - start.low)
      let left := specFinal End.pull ops range
      let t := final (Drain.pull E) ops ⟨dr, s₁.world⟩
      results (Drain.pull E) ops ⟨dr, s₁.world⟩ = (specResults End.pull ops range).map .ok ∧
      End.yielded .front ops (specResults End.pull ops range) ++ left ++
        (End.yielded .back ops (specResults End.pull ops range)).reverse = range ∧
      Always (Drain.pull E) (fun e t => Exact (Drain.pull E e) t) ops ⟨dr, s₁.world⟩ ∧
      t.self.sizeHint = (left.length, some left.length) ∧ t.world = s.world ∧
      t.self.deq.toList E = (s.self.toList E).take start.low ∧
      Exact (Drain.drop E) t ∧
      wp (Drain.drop E) t (fun _ t' => WF E t'.self.deq ∧
          t'.self.deq.toList E = (s.self.toList E).take start.low ++
            (s.self.toList E).drop (end_.high s.self.elems.len) ∧
          t'.self.deq.capacity = s.self.capacity ∧ t'.world.destroyed = s.world.destroyed ++ left)
        (fun p _ => p = .destructor ∧ DestructorsPanic E) := by
  apply ends_mono (ends_drain h hab hb)
  rintro dr _ ⟨hd, rfl⟩ ops
  obtain ⟨hres, hexact, ht⟩ := View.run_pull (V := Drain.view E) (s := ⟨dr, s.world⟩) Drain.ends_pull ops hd.ok
  have hok := ht.ok
  have hitems := ht.items_eq
  obtain ⟨hdeq, htail⟩ := Drain.deq_of_fixed ht.fixed_eq
  have hworld := ht.world_eq
  simp only [Drain.view, hd.items_eq] at hres hok hitems
  dsimp only at hdeq htail hworld ⊢
  refine ⟨hres, End.yielded_append _ _, hexact, ?_, hworld, ?_, Drain.exact_drop hok, ?_⟩
  · rw [Drain.sizeHint, ← Drain.items_length (E := E), hitems]
  · rw [hdeq, hd.kept_eq]
  · refine wp_mono (Drain.wp_drop hok) ?_ fun p t' hp => ⟨hp.1, hp.2.1⟩
    rintro _ t' ⟨heff, hcap⟩
    refine ⟨heff.wf, ?_, ?_, ?_⟩
    · rw [heff.toList_eq, hdeq, htail, hd.kept_eq, hd.tail_eq]
    · rw [hcap, hdeq, hd.deq_eq]
      rfl
    · rw [heff.log.destroyed_eq, hitems, hworld]

/-- The second of three elements is drained, after it was taken from the back. -/
theorem sample_drain : Ends (drain (cells false 3 (by decide)) (.included 1) (.excluded 2)) ⟨sample, .start⟩ fun dr s₁ =>
    let t := final (Drain.pull (cells false 3 (by decide))) [.back, .front] ⟨dr, s₁.world⟩
    results (Drain.pull (cells false 3 (by decide))) [.back, .front] ⟨dr, s₁.world⟩ = [.ok (some 20), .ok none] ∧
    t.self.sizeHint = (0, some 0) ∧ t.self.deq.toList (cells false 3 (by decide)) = [10] ∧
    wp (Drain.drop (cells false 3 (by decide))) t
      (fun _ t' => t'.self.deq.toList (cells false 3 (by decide)) = [10, 30]) fun p _ => p = .destructor := by
  refine ends_mono (drain_removes_range wf_sample (by decide) (by decide)) fun dr s₁ hd => ?_
  obtain ⟨hres, -, -, hsize, -, hkept, -, hdrop⟩ := hd [.back, .front]
  exact ⟨hres, hsize, hkept, wp_mono hdrop (fun _ t' ht => ht.2.1) fun _ _ hp => hp.1⟩

end SliceDeque

end Sdeq
