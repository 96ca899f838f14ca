import SliceDeque.Effects

/-!
# Operations on both ends

Pushing, popping, truncating, removing, inserting, appending, splitting and
shrinking. Values that are owned by a call are dropped when it unwinds.
-/

set_option autoImplicit false

namespace Sdeq.SliceDeque
open Exec

variable {T β X : Type} (E : Env T β)

/-- The test in front of every insertion of one element. -/
def reserveIfFull : DeqM T β (Except AllocError Unit) := do
  let full ← isFull E
  if full = true then tryReserve E 1 else pure (.ok ())

def tryPushFront (value : T) : DeqM T β (Except (T × AllocError) Unit) :=
  onPanic (do
    let r ← reserveIfFull E
    match r with
    | .error e => pure (.error (value, e))
    | .ok () => do
      moveHeadUnchecked E (-1)
      unwrapIndex 0
      writeSlot E 0 value
      pure (.ok ())) (dropValue E value)

def tryPushBack (value : T) : DeqM T β (Except (T × AllocError) Unit) :=
  onPanic (do
    let r ← reserveIfFull E
    match r with
    | .error e => pure (.error (value, e))
    | .ok () => do
      moveTailUnchecked E 1
      let len ← len E
      let i ← usizeSub E len 1
      unwrapIndex i
      writeSlot E i value
      pure (.ok ())) (dropValue E value)

/-- `panic!("{:?}", e.1)`: the rejected value is dropped by the unwinding. -/
def unwrapPush (r : Except (T × AllocError) Unit) : DeqM T β Unit :=
  match r with
  | .ok () => pure ()
  | .error (value, e) => onPanic (throw (.alloc e)) (dropValue E value)

def pushFront (value : T) : DeqM T β Unit := do
  let r ← tryPushFront E value
  unwrapPush E r

def pushBack (value : T) : DeqM T β Unit := do
  let r ← tryPushBack E value
  unwrapPush E r

def popFront : DeqM T β (Option T) := do
  let d ← self
  if 0 < d.elems.len then do
    let v ← readSlot E 0
    moveHeadUnchecked E 1
    pure (some v)
  else pure none

def popBack : DeqM T β (Option T) := do
  let len ← len E
  let d ← self
  if wrappingPred len < d.elems.len then do
    let v ← readSlot E (wrappingPred len)
    moveTailUnchecked E (-1)
    pure (some v)
  else pure none

/-- `drop_in_place` of a slice of the buffer. -/
def dropSlice (s : Slice) : DeqM T β Unit := do
  let d ← self
  let vs ← readRange E d.buf.ptr s.ptr s.len
  dropInPlace E vs

def truncateBack (n : Nat) : DeqM T β Unit := do
  let l ← len E
  if l ≤ n then pure ()
  else do
    let d ← self
    let diff := l - n
    let x ← isize E (-(asIsize diff))
    moveTail E x
    dropSlice E ⟨d.elems.ptr + n * E.layout.size, diff⟩
    let l ← len E
    debugAssert E (l = n)

def truncate (n : Nat) : DeqM T β Unit := truncateBack E n

def clear : DeqM T β Unit := truncate E 0

def truncateFront (n : Nat) : DeqM T β Unit := do
  let l ← len E
  if l ≤ n then pure ()
  else do
    let d ← self
    let diff := l - n
    moveHead E (asIsize diff)
    dropSlice E ⟨d.elems.ptr, diff⟩
    let l ← len E
    debugAssert E (l = n)

/-- `<[T]>::swap` -/
def swap (i j : Nat) : DeqM T β Unit := do
  let d ← self
  if i < d.elems.len ∧ j < d.elems.len then do
    let x ← readSlot E i
    let y ← readSlot E j
    writeSlot E i y
    writeSlot E j x
  else throw .index

def swapRemoveBack (index : Nat) : DeqM T β (Option T) := do
  let len ← len E
  let d ← self
  if d.elems.len = 0 then pure none
  else do
    let last ← usizeSub E len 1
    swap E index last
    popBack E

def swapRemoveFront (index : Nat) : DeqM T β (Option T) := do
  let d ← self
  if d.elems.len = 0 then pure none
  else do
    swap E index 0
    popFront E

def insert (index : Nat) (element : T) : DeqM T β Unit :=
  onPanic (do
    let len ← len E
    assert (index ≤ len)
    let r ← reserveIfFull E
    unwrapAlloc r
    let l ← SliceDeque.len E
    if l / 2 < index then do
      copySlots E index (index + 1) (len - index)
      moveTailUnchecked E 1
    else do
      moveHeadUnchecked E (-1)
      copySlots E index (index - 1) index
    writeSlot E index element) (dropValue E element)

def remove (index : Nat) : DeqM T β T := do
  let l ← len E
  assert (index < l)
  let ret ← readSlot E index
  let l' ← len E
  if l' / 2 < index then do
    copySlots E (index + 1) index (l - index - 1)
    moveTailUnchecked E (-1)
  else do
    copySlots E 0 1 index
    moveHeadUnchecked E 1
  pure ret

/-- `Drop for SliceDeque`, followed by the drop of its buffer. -/
def drop (d : SliceDeque β) : Method T X Unit := do
  onPanic (do
    let vs ← readRange E d.buf.ptr d.elems.ptr d.elems.len
    dropInPlace E vs) (Buffer.drop E d.buf)
  Buffer.drop E d.buf

def appendElements (src : Region β) (other : Slice) : DeqM T β Unit := do
  let count := other.len
  reserve E count
  let len ← len E
  let d ← self
  let ptr ← copyAt E d.buf.ptr (d.elems.ptr + len * E.layout.size) src other.ptr count
  setSelf { d with buf := { d.buf with ptr := ptr } }
  moveTailUnchecked E (asIsize count)

/-- `self.append(other)` for two different deques. -/
def append : Method T (SliceDeque β × SliceDeque β) Unit := do
  let p ← self
  onPart Prod.fst (fun p d => (d, p.2)) (appendElements E p.2.buf.ptr p.2.elems)
  modify fun s => { s with self := (s.self.1, ⟨⟨s.self.2.buf.ptr.mirror.base, 0⟩, s.self.2.buf⟩) }

def splitOff (at_ : Nat) : DeqM T β (SliceDeque β) := do
  let l ← len E
  assert (at_ ≤ l)
  let otherLen := l - at_
  let other ← withCapacity E otherLen
  let x ← isize E (-(asIsize otherLen))
  moveTailUnchecked E x
  let r ← onLocal other (moveTailUnchecked E (asIsize otherLen))
  let other := r.2
  let d ← self
  let ptr ← copyAt E other.buf.ptr other.elems.ptr d.buf.ptr (d.elems.ptr + at_ * E.layout.size) other.elems.len
  pure { other with buf := { other.buf with ptr := ptr } }

/-- The deque that is not kept is dropped with its elements. -/
def shrinkToFit : DeqM T β Unit := do
  let d ← self
  if d.elems.len = 0 then pure ()
  else do
    let l ← len E
    let newSdeq ← withCapacity E l
    if newSdeq.capacity < d.capacity then do
      let ptr ← copyAt E newSdeq.buf.ptr newSdeq.elems.ptr d.buf.ptr d.elems.ptr l
      setSelf ⟨⟨ptr.mirror.base, l⟩, { newSdeq.buf with ptr := ptr }⟩
      drop E d
    else drop E newSdeq

variable {E} {s : Frame (SliceDeque β) T} {P : Panic → Frame (SliceDeque β) T → Prop}

/-! ## Pushing -/

theorem wp_reserveIfFull (h : WF E s.self) :
    wp (reserveIfFull E) s
      (fun r s' => match r with
        | .ok () => Effect E s s' (s.self.toList E) [] ∧ s'.self.elems.len < s'.self.capacity ∧ Doubled s s'
        | .error e => Refused E s s' e)
      (fun p s' => s' = s ∧ SizePanic E p) := by
  have hle := h.len_le
  simp only [reserveIfFull, wp_bind]
  refine wp_isFull h ?_
  rw [wp_ite]
  refine ⟨fun hfull => wp_mono (wp_tryReserve h) ?_ (fun _ _ => id), fun hfull => wp_pure.mpr ⟨.refl h, ?_, .inl ⟨rfl, rfl⟩⟩⟩
  · rintro (e | ⟨⟩) s' hs'
    · exact hs'
    · refine ⟨hs'.effect h, ?_, hs'.doubled h (beq_iff_eq.mp hfull)⟩
      have hge := (le_growTarget s.self 1).trans hs'.cap_ge
      rw [hs'.len_eq]
      omega
  · have : s.self.elems.len ≠ s.self.capacity := by simpa using hfull
    omega

theorem wp_onPanic_dropValue {α : Type} {m : DeqM T β α} {v : T} {Q : α → Frame (SliceDeque β) T → Prop}
    (h : wp m s Q fun p s' => P p ⟨s'.self, s'.world.destroy [v]⟩) :
    wp (onPanic m (dropValue E v)) s Q P :=
  wp_onPanic h fun _ _ hp => wp_dropValue hp fun _ => hp

theorem toList_push_front {d d₁ d₂ : SliceDeque β} {v : T} (hm : HeadMoved E d (-1) d₁)
    (hr : Rewritten d₁ d₂) (hs : ∀ k : Int, 0 ≤ k → k < d₁.capacity →
      d₂.slot E k = if k = 0 then v else d₁.slot E k) (hcap : d₁.elems.len ≤ d₁.capacity) :
    d₂.toList E = v :: d.toList E := by
  have hlen := hm.len_eq
  apply toList_eq_of_getElem
  · rw [hr.elems_eq, List.length_cons, toList_length]
    omega
  · intro i hi
    rw [List.length_cons, toList_length] at hi
    rw [hs i (by omega) (by omega)]
    cases i with
    | zero => simp
    | succ i =>
      rw [if_neg (by omega), hm.slot_eq, List.getElem_cons_succ, toList_getElem]
      congr 1
      push_cast
      omega

theorem wp_tryPushFront {v : T} (h : WF E s.self) :
    wp (tryPushFront E v) s
      (fun r s' => match r with
        | .ok () => Effect E s s' (v :: s.self.toList E) [] ∧ Doubled s s'
        | .error (u, e) => u = v ∧ Refused E s s' e)
      (fun p s' => SizePanic E p ∧ s' = ⟨s.self, s.world.destroy [v]⟩) := by
  refine wp_onPanic_dropValue ?_
  simp only [wp_bind]
  refine wp_mono (wp_reserveIfFull h) ?_ ?_
  · rintro (e | ⟨⟩) s₁ hs₁
    · exact wp_pure.mpr ⟨rfl, hs₁⟩
    obtain ⟨heff, hroom, hg⟩ := hs₁
    simp only [wp_bind]
    refine wp_moveHeadUnchecked heff.wf (by omega) (by omega) fun d₁ hm => ?_
    have hlen := hm.len_eq
    have hle := hm.wf.len_le
    refine wp_unwrapIndex (by dsimp only; omega) (wp_writeSlot hm.wf le_rfl (by dsimp only; omega) ?_)
    intro d₂ hwf hr hs
    refine wp_pure.mpr ?_
    have htl := toList_push_front hm hr hs hle
    rw [heff.toList_eq] at htl
    exact ⟨heff.trans (.of_self hwf htl (by rw [hr.regions_eq, hm.regions_eq])),
      hg.with_self (hr.capacity_eq.trans hm.capacity_eq)⟩
  · rintro p s' ⟨rfl, hp⟩
    exact ⟨hp, rfl⟩

theorem toList_push_back {d d₂ : SliceDeque β} {v : T} (hroom : d.elems.len < d.capacity)
    (hr : Rewritten (d.withLen (d.elems.len + 1)) d₂) (hs : ∀ k : Int, 0 ≤ k → k < d.capacity →
      d₂.slot E k = if k = d.elems.len then v else d.slot E k) : d₂.toList E = d.toList E ++ [v] := by
  apply toList_eq_of_getElem
  · rw [hr.elems_eq, List.length_append, toList_length]
    rfl
  · intro i hi
    rw [List.length_append, toList_length, List.length_singleton] at hi
    rw [hs i (by omega) (by omega)]
    by_cases hl : i = d.elems.len
    · subst hl
      simp
    · rw [if_neg (by omega), List.getElem_append_left (by rw [toList_length]; omega), toList_getElem]

theorem wp_backSlot {v : T} {Q : Except (T × AllocError) Unit → Frame (SliceDeque β) T → Prop} (h : WF E s.self)
    (hroom : s.self.elems.len < s.self.capacity)
    (hQ : ∀ s', Effect E s s' (s.self.toList E ++ [v]) [] → s'.self.capacity = s.self.capacity → s'.world = s.world →
      Q (.ok ()) s') :
    wp (do
      moveTailUnchecked E 1
      let len ← len E
      let i ← usizeSub E len 1
      unwrapIndex i
      writeSlot E i v
      pure (.ok ())) s Q P := by
  simp only [wp_bind]
  refine wp_moveTailUnchecked (n := s.self.elems.len + 1) h (by push_cast; rfl) hroom ?_
  have hwf := h.withLen (n := s.self.elems.len + 1) hroom
  refine wp_len hwf ?_
  rw [wp_usizeSub]
  refine ⟨fun _ => ?_, fun hlt => absurd hlt (by simp [withLen])⟩
  refine wp_unwrapIndex (by simp [withLen]) (wp_writeSlot hwf (by omega) ?_ ?_)
  · simp only [withLen, capacity, Nat.add_sub_cancel] at hroom ⊢
    exact_mod_cast hroom
  intro d₂ hwf' hr hs
  exact wp_pure.mpr (hQ _ (.of_self hwf' (toList_push_back hroom hr hs) hr.regions_eq) hr.capacity_eq rfl)

theorem wp_tryPushBack {v : T} (h : WF E s.self) :
    wp (tryPushBack E v) s
      (fun r s' => match r with
        | .ok () => Effect E s s' (s.self.toList E ++ [v]) [] ∧ Doubled s s'
        | .error (u, e) => u = v ∧ Refused E s s' e)
      (fun p s' => SizePanic E p ∧ s' = ⟨s.self, s.world.destroy [v]⟩) := by
  refine wp_onPanic_dropValue ?_
  rw [wp_bind]
  refine wp_mono (wp_reserveIfFull h) ?_ ?_
  · rintro (e | ⟨⟩) s₁ hs₁
    · exact wp_pure.mpr ⟨rfl, hs₁⟩
    obtain ⟨heff, hroom, hg⟩ := hs₁
    refine wp_backSlot heff.wf hroom fun s' heff' hcap hw => ?_
    rw [heff.toList_eq] at heff'
    have hdoubled := hg.with_self hcap
    rw [← hw] at hdoubled
    exact ⟨heff.trans heff', hdoubled⟩
  · rintro p s' ⟨rfl, hp⟩
    exact ⟨hp, rfl⟩

theorem wp_unwrapPush {r : Except (T × AllocError) Unit} {Q : Unit → Frame (SliceDeque β) T → Prop}
    (hok : r = .ok () → Q () s)
    (herr : ∀ v e, r = .error (v, e) → P (.alloc e) ⟨s.self, s.world.destroy [v]⟩) :
    wp (unwrapPush E r) s Q P := by
  unfold unwrapPush
  rcases r with ⟨v, e⟩ | ⟨⟩
  · exact wp_onPanic_dropValue (wp_throw.mpr (herr v e rfl))
  · exact wp_pure.mpr (hok rfl)

theorem wp_unwrapPushed {s₁ : Frame (SliceDeque β) T} {r : Except (T × AllocError) Unit} {l : List T} {v : T}
    (hok : r = .ok () → Effect E s s₁ l []) (herr : ∀ u e, r = .error (u, e) → u = v ∧ Refused E s s₁ e) :
    wp (unwrapPush E r) s₁ (fun _ s' => Effect E s s' l []) (fun p s' => Denied E s s' [v] p) := by
  apply wp_unwrapPush hok
  intro u e he
  obtain ⟨rfl, hrefused⟩ := herr u e he
  exact ⟨.inr ⟨e, rfl⟩, hrefused.untouched.destroy [u], .inr hrefused.not_allGranted⟩

theorem wp_pushFront {v : T} (h : WF E s.self) :
    wp (pushFront E v) s (fun _ s' => Effect E s s' (v :: s.self.toList E) [])
      (fun p s' => Denied E s s' [v] p) := by
  refine wp_seq (wp_tryPushFront h) (fun r s₁ hr => ?_) fun p _ hp => ⟨.inl hp.1, .of_destroy hp.2, .inl hp.1⟩
  apply wp_unwrapPushed
  · intro hok
    subst hok
    exact hr.1
  · intro u e he
    subst he
    exact hr

theorem wp_pushBack {v : T} (h : WF E s.self) :
    wp (pushBack E v) s (fun _ s' => Effect E s s' (s.self.toList E ++ [v]) [])
      (fun p s' => Denied E s s' [v] p) := by
  refine wp_seq (wp_tryPushBack h) (fun r s₁ hr => ?_) fun p _ hp => ⟨.inl hp.1, .of_destroy hp.2, .inl hp.1⟩
  apply wp_unwrapPushed
  · intro hok
    subst hok
    exact hr.1
  · intro u e he
    subst he
    exact hr

/-- As long as there is room nothing is allocated, and `push_back` cannot fail. -/
theorem wp_pushBack_room {v : T} (h : WF E s.self) (hroom : s.self.elems.len < s.self.capacity) :
    wp (pushBack E v) s (fun _ s' => Effect E s s' (s.self.toList E ++ [v]) [] ∧
      s'.self.capacity = s.self.capacity) P := by
  have hfull : (s.self.elems.len == s.self.capacity) ≠ true := by simpa using hroom.ne
  rw [pushBack, wp_bind]
  refine wp_onPanic (P := fun _ _ => False) ?_ fun _ _ => False.elim
  simp only [reserveIfFull, wp_bind]
  refine wp_isFull h ?_
  rw [if_neg hfull, wp_pure]
  exact wp_backSlot h hroom fun s' heff hcap _ => wp_pure.mpr ⟨heff, hcap⟩

/-! ## Popping -/

theorem toList_eq_nil {d : SliceDeque β} (h : d.elems.len = 0) : d.toList E = [] :=
  List.eq_nil_of_length_eq_zero (by rw [toList_length, h])

theorem getElem?_toList {d : SliceDeque β} {i : Nat} (hi : i < d.elems.len) :
    (d.toList E)[i]? = some (d.slot E i) := by
  rw [List.getElem?_eq_getElem (by rw [toList_length]; exact hi), toList_getElem]

theorem head?_toList {d : SliceDeque β} (h : 0 < d.elems.len) : (d.toList E).head? = some (d.slot E 0) := by
  rw [List.head?_eq_getElem?, List.getElem?_eq_getElem (by rw [toList_length]; exact h), toList_getElem]
  rfl

theorem getLast?_toList {d : SliceDeque β} (h : 0 < d.elems.len) :
    (d.toList E).getLast? = some (d.slot E (d.elems.len - 1 : Nat)) := by
  rw [List.getLast?_eq_getElem?, toList_length, List.getElem?_eq_getElem (by rw [toList_length]; omega),
    toList_getElem]

theorem wp_popFront (h : WF E s.self) :
    wp (popFront E) s
      (fun r s' => r = (s.self.toList E).head? ∧ Effect E s s' (s.self.toList E).tail []) P := by
  have hle := h.len_le
  simp only [popFront, wp_bind, wp_self, wp_ite, wp_pure]
  refine ⟨fun hpos => ?_, fun hz => ?_⟩
  · refine wp_readSlot h le_rfl (by omega) (wp_moveHeadUnchecked h (by omega) (by omega) fun d' hm => ?_)
    refine ⟨(head?_toList hpos).symm, .of_self hm.wf ?_ hm.regions_eq⟩
    rw [HeadMoved.toList_eq (n := 1) hm, List.drop_one]
  · have hnil := toList_eq_nil (E := E) (show s.self.elems.len = 0 by omega)
    have := Change.refl h
    rw [hnil] at this ⊢
    exact ⟨rfl, this⟩

theorem wp_popBack (h : WF E s.self) :
    wp (popBack E) s
      (fun r s' => r = (s.self.toList E).getLast? ∧ Effect E s s' (s.self.toList E).dropLast []) P := by
  have hle := h.len_le
  have hlt := h.len_lt
  simp only [popBack, wp_bind]
  refine wp_len h ?_
  simp only [wp_self, wp_ite, wp_bind, wp_pure]
  refine ⟨fun hpos => ?_, fun hz => ?_⟩
  · have hlen : 0 < s.self.elems.len := by omega
    rw [wrappingPred_of_pos hlen]
    refine wp_readSlot h (by omega) (by omega) ?_
    refine wp_moveTailUnchecked (n := s.self.elems.len - 1) h (by omega) (by omega) ?_
    refine ⟨(getLast?_toList hlen).symm, .of_self (h.withLen (by omega)) ?_ rfl⟩
    rw [toList_withLen (by omega), List.dropLast_eq_take, toList_length]
  · have h0 : s.self.elems.len = 0 := by
      by_contra hne
      rw [wrappingPred_of_pos (by omega)] at hz
      omega
    have := Change.refl h
    rw [toList_eq_nil h0] at this ⊢
    exact ⟨rfl, this⟩

/-! ## Truncation -/

/-- A destructor panics at some point of some run. -/
def DestructorsPanic (E : Env T β) : Prop := ∃ h v, E.dropPanics h v = true

theorem wp_dropSlice {a : Int} {n : Nat} {vs : List T} {Q : Unit → Frame (SliceDeque β) T → Prop}
    (hc : s.self.buf.ptr.mirror.Covers a (n * E.layout.size))
    (hvs : s.self.buf.ptr.mirror.elems E.layout a n = vs) (hQ : Q () ⟨s.self, s.world.destroy vs⟩)
    (hP : DestructorsPanic E → P .destructor ⟨s.self, s.world.destroy vs⟩) :
    wp (dropSlice E ⟨a, n⟩) s Q P := by
  subst hvs
  simp only [dropSlice, wp_bind, wp_self]
  exact wp_readRange hc (wp_dropInPlace hQ hP)

theorem WF.covers_window {d : SliceDeque β} (h : WF E d) {i n : Nat} (hn : i + n ≤ d.elems.len) :
    d.buf.ptr.mirror.Covers (d.elems.ptr + i * E.layout.size) (n * E.layout.size) :=
  h.covers (by omega) (by have := h.len_le; omega)

theorem WF.covers_toList {d : SliceDeque β} (h : WF E d) :
    d.buf.ptr.mirror.Covers d.elems.ptr (d.elems.len * E.layout.size) := by
  have := h.covers_window (i := 0) (n := d.elems.len) (by omega)
  rwa [Nat.cast_zero, zero_mul, add_zero] at this

/-- The outcome of dropping a part of the deque: destructors may panic, all of them run. -/
abbrev Dropped (E : Env T β) (s : Frame (SliceDeque β) T) (l dead : List T) (p : Panic)
    (s' : Frame (SliceDeque β) T) : Prop :=
  p = .destructor ∧ DestructorsPanic E ∧ Effect E s s' l dead

theorem wp_truncateBack {n : Nat} (h : WF E s.self) :
    wp (truncateBack E n) s
      (fun _ s' => Effect E s s' ((s.self.toList E).take n) ((s.self.toList E).drop n))
      (Dropped E s ((s.self.toList E).take n) ((s.self.toList E).drop n)) := by
  have hle := h.len_le
  have hlt := h.len_lt
  simp only [truncateBack, wp_bind]
  refine wp_len h ?_
  simp only [wp_ite, wp_pure, wp_bind, wp_self]
  refine ⟨fun hn => ?_, fun hn => ?_⟩
  · rw [List.take_of_length_le (by rw [toList_length]; omega),
      List.drop_of_length_le (by rw [toList_length]; omega)]
    exact .refl h
  have hdiff := asIsize_of_lt (show s.self.elems.len - n < isizeBound by omega)
  rw [wp_isize, hdiff]
  refine ⟨fun _ => wp_moveTail h (fun k hk _ => ?_) (fun hf => absurd ⟨by omega, by omega⟩ hf),
    fun hf => absurd ⟨by omega, by omega⟩ hf⟩
  obtain rfl : k = n := by omega
  have hwf : WF E (s.self.withLen k) := h.withLen (by omega)
  have heff : Effect E s ⟨s.self.withLen k, s.world.destroy ((s.self.toList E).drop k)⟩
      ((s.self.toList E).take k) ((s.self.toList E).drop k) :=
    (Change.of_self hwf (toList_withLen (by omega)) rfl).destroy _
  refine wp_dropSlice (h.covers_window (by omega)) (Mirror.elems_drop _ (by omega)).symm ?_
    fun hd => ⟨rfl, hd, heff⟩
  exact wp_len hwf (wp_debugAssert rfl heff)

theorem wp_clear (h : WF E s.self) :
    wp (clear E) s (fun _ s' => Effect E s s' [] (s.self.toList E)) (Dropped E s [] (s.self.toList E)) :=
  wp_truncateBack (n := 0) h

theorem wp_truncateFront {n : Nat} (h : WF E s.self) :
    wp (truncateFront E n) s
      (fun _ s' => Effect E s s' ((s.self.toList E).drop (s.self.elems.len - n))
        ((s.self.toList E).take (s.self.elems.len - n)))
      (Dropped E s ((s.self.toList E).drop (s.self.elems.len - n))
        ((s.self.toList E).take (s.self.elems.len - n))) := by
  have hle := h.len_le
  have hlt := h.len_lt
  simp only [truncateFront, wp_bind]
  refine wp_len h ?_
  simp only [wp_ite, wp_pure, wp_bind, wp_self]
  refine ⟨fun hn => ?_, fun hn => ?_⟩
  · rw [Nat.sub_eq_zero_of_le hn]
    exact .refl h
  rw [asIsize_of_lt (show s.self.elems.len - n < isizeBound by omega)]
  refine wp_moveHead h (fun d' hm => ?_) (fun hf => absurd ⟨by omega, by omega⟩ hf)
  have heff : Effect E s ⟨d', s.world.destroy ((s.self.toList E).take (s.self.elems.len - n))⟩
      ((s.self.toList E).drop (s.self.elems.len - n)) ((s.self.toList E).take (s.self.elems.len - n)) :=
    (Change.of_self hm.wf hm.toList_eq hm.regions_eq).destroy _
  have hcov := h.covers_window (i := 0) (n := s.self.elems.len - n) (by omega)
  rw [Nat.cast_zero, zero_mul, add_zero] at hcov
  refine wp_dropSlice ?_ ?_ ?_ fun hd => ⟨rfl, hd, heff⟩
  · rw [hm.buf_eq]
    exact hcov
  · rw [hm.buf_eq]
    exact (Mirror.elems_take _ (by omega)).symm
  · refine wp_len hm.wf (wp_debugAssert ?_ heff)
    have := hm.len_eq
    dsimp only
    omega

theorem exact_dropSlice {sl : Slice} : Exact (dropSlice E sl) s :=
  exact_bind exact_self fun _ _ => exact_bind exact_readRange fun _ _ => exact_dropInPlace

theorem exact_truncateBack {n : Nat} (h : WF E s.self) : Exact (truncateBack E n) s := by
  have hle := h.len_le
  have hlt := h.len_lt
  apply exact_len_bind h
  apply exact_ite
  · exact fun _ => exact_pure
  intro hn
  apply exact_self_bind
  have hdiff := asIsize_of_lt (show s.self.elems.len - n < isizeBound by omega)
  apply exact_isize_bind (by omega)
  rw [hdiff]
  have hmove : wp (moveTail E (-((s.self.elems.len - n : Nat) : Int))) s (fun _ s' => WF E s'.self) fun _ _ => True :=
    wp_moveTail h (fun k _ hk => h.withLen hk) fun _ => trivial
  apply exact_seq (exact_moveTail h) hmove
  intro _ s₁ hwf
  apply exact_bind exact_dropSlice
  intro _ _
  exact exact_bind exact_len fun _ _ => exact_debugAssert

/-! ## Swapping, removing, inserting -/

theorem Rewritten.toList_set {d d' : SliceDeque β} {i : Nat} {v : T} (hr : Rewritten d d') (h : WF E d)
    (hs : ∀ k : Int, 0 ≤ k → k < d.capacity → d'.slot E k = if k = i then v else d.slot E k) :
    d'.toList E = (d.toList E).set i v := by
  have hle := h.len_le
  apply toList_eq_of_getElem
  · rw [hr.elems_eq, List.length_set, toList_length]
  · intro k hk
    rw [List.length_set, toList_length] at hk
    rw [hs k (by omega) (by omega), List.getElem_set]
    by_cases hki : i = k
    · subst hki
      simp
    · rw [if_neg (by omega), if_neg hki, toList_getElem]

theorem wp_swap {i j : Nat} (h : WF E s.self) (hi : i < s.self.elems.len) (hj : j < s.self.elems.len) :
    wp (swap E i j) s
      (fun _ s' => Effect E s s' (((s.self.toList E).set i (s.self.slot E j)).set j (s.self.slot E i)) []) P := by
  have hle := h.len_le
  simp only [swap, wp_bind, wp_self, if_pos (And.intro hi hj)]
  refine wp_readSlot h (by omega) (by omega) (wp_readSlot h (by omega) (by omega) ?_)
  refine wp_writeSlot h (by omega) (by omega) fun d₁ hwf₁ hr₁ hs₁ => ?_
  have hcap : d₁.capacity = s.self.capacity := hr₁.capacity_eq
  refine wp_writeSlot hwf₁ (by omega) (by dsimp only; omega) fun d₂ hwf₂ hr₂ hs₂ => ?_
  refine .of_self hwf₂ ?_ (by rw [hr₂.regions_eq, hr₁.regions_eq])
  rw [hr₂.toList_set hwf₁ hs₂, hr₁.toList_set h hs₁]

@[simp] theorem exact_swap {i j : Nat} : Exact (swap E i j) s :=
  exact_bind exact_self fun _ _ => exact_ite (fun _ => exact_bind exact_readSlot fun _ _ =>
    exact_bind exact_readSlot fun _ _ => exact_bind exact_writeSlot fun _ _ => exact_writeSlot) fun _ => exact_throw

theorem wp_swap_index {i j : Nat} {Q : Unit → Frame (SliceDeque β) T → Prop}
    (h : ¬ (i < s.self.elems.len ∧ j < s.self.elems.len)) (hP : P .index s) : wp (swap E i j) s Q P := by
  simp only [swap, wp_bind, wp_self, if_neg h]
  exact wp_throw.mpr hP

theorem dropLast_set {l : List T} {n : Nat} {v : T} (h : l.length ≤ n + 1) :
    (l.set n v).dropLast = l.dropLast := by
  rw [List.dropLast_eq_take, List.take_set_of_le (by rw [List.length_set]; omega), List.length_set,
    ← List.dropLast_eq_take]

theorem tail_set_zero (l : List T) (v : T) : (l.set 0 v).tail = l.tail := by
  cases l <;> rfl

theorem wp_swapRemoveBack {i : Nat} (h : WF E s.self) :
    wp (swapRemoveBack E i) s
      (fun r s' => (s.self.toList E = [] ∧ r = none ∧ s' = s) ∨ ∃ v last, r = some v ∧
        (s.self.toList E)[i]? = some v ∧ (s.self.toList E).getLast? = some last ∧
        Effect E s s' (((s.self.toList E).set i last).dropLast) [])
      (fun p s' => p = .index ∧ s.self.elems.len ≠ 0 ∧ s.self.elems.len ≤ i ∧ s' = s) := by
  simp only [swapRemoveBack, wp_bind]
  refine wp_len h ?_
  simp only [wp_self, wp_ite, wp_pure, wp_bind, wp_usizeSub]
  refine ⟨fun hz => .inl ⟨toList_eq_nil hz, trivial, trivial⟩, fun hne => ⟨fun _ => ?_, fun _ => by omega⟩⟩
  by_cases hi : i < s.self.elems.len
  · refine wp_mono (wp_swap (P := fun _ _ => False) h hi (show s.self.elems.len - 1 < _ by omega)) ?_
      (fun _ _ => False.elim)
    intro _ s₁ heff
    refine wp_mono (wp_popBack (P := fun _ _ => False) heff.wf) ?_ (fun _ _ => False.elim)
    rintro r s' ⟨rfl, heff'⟩
    rw [heff.toList_eq] at heff' ⊢
    refine .inr ⟨s.self.slot E i, s.self.slot E (s.self.elems.len - 1 : Nat), ?_, ?_, ?_, ?_⟩
    · rw [List.getLast?_eq_getElem?, List.length_set, List.length_set, toList_length,
        List.getElem?_set_self (by rw [List.length_set, toList_length]; omega)]
    · rw [List.getElem?_eq_getElem (by rw [toList_length]; exact hi), toList_getElem]
    · exact getLast?_toList (by omega)
    · rw [dropLast_set (by rw [List.length_set, toList_length]; omega)] at heff'
      exact heff.trans heff'
  · exact wp_swap_index (fun hh => hi hh.1) ⟨rfl, hne, by omega, rfl⟩

theorem wp_swapRemoveFront {i : Nat} (h : WF E s.self) :
    wp (swapRemoveFront E i) s
      (fun r s' => (s.self.toList E = [] ∧ r = none ∧ s' = s) ∨ ∃ v first, r = some v ∧
        (s.self.toList E)[i]? = some v ∧ (s.self.toList E).head? = some first ∧
        Effect E s s' (((s.self.toList E).set i first).tail) [])
      (fun p s' => p = .index ∧ s.self.elems.len ≠ 0 ∧ s.self.elems.len ≤ i ∧ s' = s) := by
  simp only [swapRemoveFront, wp_bind, wp_self, wp_ite, wp_pure]
  refine ⟨fun hz => .inl ⟨toList_eq_nil hz, trivial, trivial⟩, fun hne => ?_⟩
  by_cases hi : i < s.self.elems.len
  · refine wp_mono (wp_swap (P := fun _ _ => False) h hi (show 0 < _ by omega)) ?_ (fun _ _ => False.elim)
    intro _ s₁ heff
    refine wp_mono (wp_popFront (P := fun _ _ => False) heff.wf) ?_ (fun _ _ => False.elim)
    rintro r s' ⟨rfl, heff'⟩
    rw [heff.toList_eq] at heff' ⊢
    refine .inr ⟨s.self.slot E i, s.self.slot E 0, ?_, ?_, ?_, ?_⟩
    · rw [List.head?_eq_getElem?, List.getElem?_set_self (by rw [List.length_set, toList_length]; omega)]
    · rw [List.getElem?_eq_getElem (by rw [toList_length]; exact hi), toList_getElem]
    · exact head?_toList (by omega)
    · rw [tail_set_zero] at heff'
      exact heff.trans heff'
  · exact wp_swap_index (fun hh => hi hh.1) ⟨rfl, hne, by omega, rfl⟩

theorem wp_remove {i : Nat} (h : WF E s.self) :
    wp (remove E i) s
      (fun r s' => (s.self.toList E)[i]? = some r ∧ Effect E s s' ((s.self.toList E).eraseIdx i) [])
      (fun p s' => p = .assert ∧ s.self.elems.len ≤ i ∧ s' = s) := by
  have hle := h.len_le
  simp only [remove, wp_bind]
  refine wp_len h ?_
  rw [wp_assert]
  refine ⟨fun hi => ?_, fun hi => ⟨rfl, by omega, rfl⟩⟩
  refine wp_readSlot h (by omega) (by omega) (wp_len h ?_)
  have hget : (s.self.toList E)[i]? = some (s.self.slot E i) := by
    rw [List.getElem?_eq_getElem (by rw [toList_length]; exact hi), toList_getElem]
  simp only [wp_ite, wp_bind, wp_pure]
  refine ⟨fun _ => ?_, fun _ => ?_⟩
  · refine wp_copySlots h (by omega) (by omega) (by omega) (by omega) fun d₁ hwf hr hs => ?_
    have hlen : d₁.elems = s.self.elems := hr.elems_eq
    have hcap := hr.capacity_eq
    refine wp_moveTailUnchecked (n := s.self.elems.len - 1) hwf (by rw [hlen]; omega) (by dsimp only; omega) ?_
    refine ⟨hget, .of_self (hwf.withLen (by omega)) ?_ hr.regions_eq⟩
    apply toList_eq_of_getElem
    · rw [List.length_eraseIdx, toList_length, if_pos hi]
      rfl
    · intro k hk
      rw [List.length_eraseIdx, toList_length, if_pos hi] at hk
      rw [List.getElem_eraseIdx]
      refine (hs k (by omega) (by omega)).trans ?_
      by_cases hki : k < i
      · rw [if_neg (by omega), dif_pos hki, toList_getElem]
      · rw [if_pos (by omega), dif_neg hki, toList_getElem]
        congr 1
        push_cast
        omega
  · refine wp_copySlots h (by omega) (by omega) (by omega) (by omega) fun d₁ hwf hr hs => ?_
    have hlen : d₁.elems = s.self.elems := hr.elems_eq
    have hcap := hr.capacity_eq
    refine wp_moveHeadUnchecked hwf (by dsimp only; rw [hlen]; omega) (by dsimp only; rw [hlen]; omega) fun d₂ hm => ?_
    have hlen₂ := hm.len_eq
    refine ⟨hget, .of_self hm.wf ?_ (by rw [hm.regions_eq, hr.regions_eq])⟩
    apply toList_eq_of_getElem
    · rw [List.length_eraseIdx, toList_length, if_pos hi]
      dsimp only at hlen₂
      rw [hlen] at hlen₂
      omega
    · intro k hk
      rw [List.length_eraseIdx, toList_length, if_pos hi] at hk
      rw [List.getElem_eraseIdx, hm.slot_eq]
      refine (hs _ (by omega) (by omega)).trans ?_
      by_cases hki : k < i
      · rw [if_pos (by omega), dif_pos hki, toList_getElem]
        congr 1
        omega
      · rw [if_neg (by omega), dif_neg hki, toList_getElem]
        congr 1
        push_cast
        omega

theorem exact_remove {i : Nat} (h : WF E s.self) : Exact (remove E i) s := by
  apply exact_len_bind h
  apply exact_assert_bind
  intro hi
  have hle := h.len_le
  have hread : wp (readSlot E i) s (fun _ s' => s = s') fun _ _ => False :=
    wp_readSlot h (by omega) (by omega) rfl
  apply exact_seq exact_readSlot hread
  rintro _ _ rfl
  apply exact_len_bind h
  have hcopy : ∀ a b n : Nat, a + n ≤ s.self.capacity → b + n ≤ s.self.capacity → wp (copySlots E a b n) s
      (fun _ s' => WF E s'.self ∧ Rewritten s.self s'.self) fun _ _ => False := by
    intro a b n ha hb
    exact wp_copySlots h (by omega) (by omega) (by omega) (by omega) fun d' hwf hr _ => ⟨hwf, hr⟩
  apply exact_ite
  · intro _
    have hshift := hcopy (i + 1) i (s.self.elems.len - i - 1) (by omega) (by omega)
    push_cast at hshift
    apply exact_seq exact_copySlots hshift
    intro _ s₁ hs₁
    obtain ⟨hwf, hr⟩ := hs₁
    have hcap := hr.capacity_eq
    have helems := hr.elems_eq
    apply exact_bind _ fun _ _ => exact_pure
    exact exact_moveTailUnchecked (n := s.self.elems.len - 1) hwf (by rw [helems]; omega) (by omega)
  · intro _
    have hshift := hcopy 0 1 i (by omega) (by omega)
    apply exact_seq exact_copySlots hshift
    intro _ s₁ hs₁
    obtain ⟨hwf, hr⟩ := hs₁
    have hcap := hr.capacity_eq
    have helems := hr.elems_eq
    apply exact_bind _ fun _ _ => exact_pure
    exact exact_moveHeadUnchecked hwf (by rw [helems]; omega) (by rw [helems]; omega)

/-! ## Making and dropping deques -/

section Owners
variable {t : Frame X T} {Pt : Panic → Frame X T → Prop}

/-- The capacity of a deque that was asked for `n` elements. -/
def capFor (E : Env T β) (n : Nat) : Nat := Buffer.lenFor E (2 * n) / 2

/-- Why a new deque for `n` elements cannot be made. Nothing has changed then. -/
def RequestPanic (E : Env T β) (n : Nat) (t : Frame X T) (p : Panic) (t' : Frame X T) : Prop :=
  t' = t ∧ (p = .overflow ∧ ¬ (2 * n < usizeBound ∧ Buffer.Fits E (2 * n)) ∨
    p = .assert ∧ E.layout.size ≠ 0 ∧ E.granularity < E.layout.align) ∨
  ∃ e, p = .alloc e ∧ 2 * n ≠ 0 ∧ E.allocate t.world.calls (Buffer.byteSize E (2 * n)) = .error e ∧ Buffer.Refused E t t' e

theorem RequestPanic.denied {n : Nat} {p : Panic} {t' : Frame X T} (h : RequestPanic E n t p t') : Denied E t t' [] p := by
  rcases h with ⟨rfl, ⟨rfl, -⟩ | ⟨rfl, -, ha⟩⟩ | ⟨e, rfl, -, -, hr⟩
  · exact ⟨.inl (.inl rfl), .refl _, .inl (.inl rfl)⟩
  · exact ⟨.inl (.inr ⟨rfl, ha⟩), .refl _, .inl (.inr ⟨rfl, ha⟩)⟩
  · exact ⟨.inr ⟨e, rfl⟩, hr.untouched, .inr hr.not_allGranted⟩

theorem RequestPanic.untouched {n : Nat} {p : Panic} {t' : Frame X T} (h : RequestPanic E n t p t') :
    Refusal E p ∧ Untouched t t' [] := ⟨h.denied.refusal, h.denied.untouched⟩

theorem RequestPanic.strict {p : Panic} {t' : Frame X T} (h : RequestPanic E 0 t p t') :
    E.layout.size ≠ 0 ∧ E.granularity < E.layout.align := by
  rcases h with ⟨-, ⟨-, hover⟩ | ⟨-, hal⟩⟩ | ⟨e, -, h0, -⟩
  · exact absurd ⟨by decide, Buffer.fits_of_no_bytes (Nat.zero_mul _)⟩ hover
  · exact hal
  · exact absurd rfl h0

/-- A deque for fewer elements than a buffer has can be had when the allocator has memory. -/
theorem RequestPanic.elim {b : Buffer β} {n : Nat} {p : Panic} {t' : Frame X T} (hb : Buffer.Ok E b) (hn : n ≤ b.cap)
    (h0 : n ≠ 0) (hgrant : ∃ r, E.allocate t.world.calls (Buffer.byteSize E (2 * n)) = .ok r)
    (hp : RequestPanic E n t p t') : False := by
  rcases hp with ⟨-, ⟨-, hf⟩ | ⟨-, hs, ha⟩⟩ | ⟨e, -, -, he, -⟩
  · exact hf (hb.request hn)
  · exact absurd (hb.align_le hs (by omega)) (Nat.not_le.mpr ha)
  · obtain ⟨r, hr⟩ := hgrant
    rw [hr] at he
    cases he

theorem wp_withCapacity {n : Nat} :
    wp (withCapacity E n) t
      (fun d t' => Created E t t' d [] ∧ n ≤ d.capacity ∧ d.elems = ⟨d.buf.ptr.mirror.base, 0⟩ ∧
        d.capacity = capFor E n ∧ (E.layout.size ≠ 0 → E.layout.align ≤ E.granularity))
      (RequestPanic E n t) := by
  simp only [withCapacity, wp_bind, wp_usize]
  refine ⟨fun hn => ?_, fun hn _ => .inl ⟨rfl, .inl ⟨rfl, fun hh => by omega⟩⟩⟩
  refine wp_mono (Buffer.wp_uninitialized (by omega)) ?_ ?_
  · rintro (e | b) t' hb
    · exact wp_throw.mpr (.inr ⟨e, rfl, hb⟩)
    · refine wp_pure.mpr ⟨⟨wf_start hb.ok (Nat.zero_le _), rfl, hb.self_eq, ?_, fun o => ?_⟩, ?_, rfl, ?_, ?_⟩
      · rw [hb.world_eq]
        exact .of_eq rfl rfl
      · rw [hb.world_eq]
        exact .map _ o (Buffer.regions_length_le b) hb.call
      · show n ≤ b.len / 2
        by_cases hs : E.layout.size = 0
        · have := hb.ok.zst hs
          unfold Buffer.emptyLen isizeBound usizeBound at *
          rw [if_pos hs] at this
          omega
        · have := hb.len_eq.ge.trans' (Buffer.le_lenFor hs)
          omega
      · show b.len / 2 = _
        rw [hb.len_eq, capFor]
      · exact hb.align_le
  · rintro p _ ⟨rfl, ⟨rfl, hf⟩ | hp⟩
    · exact .inl ⟨rfl, .inl ⟨rfl, fun hh => hf hh.2⟩⟩
    · exact .inl ⟨rfl, .inr hp⟩

theorem wp_withCapacity_produced {n : Nat} :
    wp (withCapacity E n) t (fun _ t' => t'.world.produced = t.world.produced) fun _ _ => True := by
  rw [withCapacity, wp_bind, wp_usize]
  refine ⟨fun _ => ?_, fun _ _ => trivial⟩
  rw [wp_bind]
  apply wp_mono (Buffer.wp_uninitialized (by omega)) _ fun _ _ _ => trivial
  rintro (e | b) t' hb
  · exact wp_throw.mpr trivial
  · rw [wp_pure, hb.world_eq]
    rfl

theorem exact_withCapacity {n : Nat} (ha : Askable E n) : Exact (withCapacity E n) t := by
  have htwice : Exact (usize E (2 * n)) t := by
    rcases ha with hd | hf
    · exact exact_usize_of_debug hd
    · exact exact_usize hf.1
  have hn : wp (usize E (2 * n)) t (fun k t' => k = 2 * n ∧ t' = t) fun _ _ => True :=
    wp_usize.mpr ⟨fun _ => ⟨rfl, rfl⟩, fun _ _ => trivial⟩
  apply exact_seq htwice hn
  rintro _ _ ⟨rfl, rfl⟩
  apply exact_bind (Buffer.exact_uninitialized (ha.imp_right And.right))
  intro r _
  cases r with
  | error e => exact exact_throw
  | ok b => exact exact_pure

theorem wp_withCapacity_wraps {n : Nat} (ha : ¬ Askable E n) :
    wp (withCapacity E n) t (fun _ _ => False) fun _ _ => False := by
  obtain ⟨hd, hf⟩ := not_askable ha
  rw [withCapacity, wp_bind, wp_usize]
  refine ⟨fun hfit => ?_, fun _ hdebug => absurd hdebug (by rw [hd]; decide)⟩
  obtain ⟨hs, hal, hnot⟩ := hf hfit
  rw [wp_bind]
  exact wp_mono (Buffer.wp_uninitialized_wraps hd hs hal (by omega) hnot) (fun _ _ => False.elim) fun _ _ => id

/-- Dropping a deque destroys its values and frees its mapping, also when a destructor panics. -/
theorem wp_drop {d : SliceDeque β} (h : WF E d) :
    wp (drop E d) t (fun _ t' => Consumed t t' (d.regions E) (d.toList E))
      (fun p t' => p = .destructor ∧ DestructorsPanic E ∧ Consumed t t' (d.regions E) (d.toList E)) := by
  have hcov := h.covers_toList
  have hdone : Consumed t ⟨t.self, (t.world.destroy (d.toList E)).unmap (d.regions E)⟩ (d.regions E)
      (d.toList E) :=
    ⟨rfl, (Logged.destroy _ _).unmap, fun o => (Trade.destroy _ _ _).trans (.unmap _ o _)⟩
  simp only [drop, wp_bind]
  refine wp_onPanic (P := fun p t' => p = .destructor ∧ DestructorsPanic E ∧
    t' = ⟨t.self, t.world.destroy (d.toList E)⟩) ?_ ?_
  · exact wp_bind.mpr (wp_readRange hcov (wp_dropInPlace (Buffer.wp_drop h.buf hdone) fun hd => ⟨rfl, hd, rfl⟩))
  · rintro p _ ⟨rfl, hd, rfl⟩
    exact Buffer.wp_drop h.buf ⟨rfl, hd, hdone⟩

theorem wp_drop_empty {d : SliceDeque β} (h : WF E d) (hl : d.elems.len = 0) :
    wp (drop E d) t (fun _ t' => Consumed t t' (d.regions E) []) Pt := by
  have hcov := h.covers_toList
  have hread : wp (readRange E d.buf.ptr d.elems.ptr d.elems.len) t (fun vs t' => vs = [] ∧ t' = t) fun _ _ => False :=
    wp_readRange hcov ⟨toList_eq_nil hl, rfl⟩
  simp only [drop, wp_bind]
  refine wp_onPanic (P := fun _ _ => False) ?_ fun _ _ => False.elim
  rw [wp_bind]
  refine wp_mono hread ?_ fun _ _ => False.elim
  rintro _ _ ⟨rfl, rfl⟩
  exact wp_pure.mpr (Buffer.wp_drop h.buf ⟨rfl, .of_eq rfl rfl, fun o => .unmap _ o _⟩)

theorem exact_drop {d : SliceDeque β} (h : WF E d) : Exact (drop E d) t := by
  have hfree : ∀ t' : Frame X T, Exact (Buffer.drop E d.buf) t' := fun _ => Buffer.exact_drop h.buf
  apply exact_bind
  · apply exact_onPanic _ hfree
    exact exact_bind exact_readRange fun _ _ => exact_dropInPlace
  · exact fun _ _ => hfree _

end Owners

/-! ## Moving elements between deques -/

/-- The values behind `len` after `n` values were copied there from another mapping. -/
theorem toList_copy_back {d : SliceDeque β} (h : WF E d) {m : Mirror β} {a : Int} {n : Nat}
    (hn : d.elems.len + n ≤ d.capacity) :
    SliceDeque.toList E (⟨⟨d.elems.ptr, d.elems.len + n⟩, d.buf.withMemory (d.buf.ptr.mirror.copyFrom
      (d.elems.ptr + d.elems.len * E.layout.size) m a (n * E.layout.size))⟩ : SliceDeque β) =
      d.toList E ++ m.elems E.layout a n := by
  apply toList_eq_of_getElem
  · simp
  · intro i hi
    rw [List.length_append, toList_length, Mirror.elems_length] at hi
    refine (Mirror.slot_copyFrom (y := d.elems.len) h.cap_mul_le (by omega) (by omega) (by omega)
      (by omega)).trans ?_
    by_cases hl : i < d.elems.len
    · rw [if_neg (by omega), List.getElem_append_left (by rw [toList_length]; exact hl), toList_getElem]
      rfl
    · rw [if_pos (by omega), List.getElem_append_right (by rw [toList_length]; omega), Mirror.elems_getElem]
      congr 1
      rw [toList_length]
      omega

/-- The values are copied behind the tail, where there is room for them. -/
theorem wp_copyBack {src : Region β} {a : Int} {n : Nat} (h : WF E s.self)
    (hc : src.mirror.Covers a (n * E.layout.size)) (hroom : s.self.elems.len + n ≤ s.self.capacity) :
    wp (do
      let len ← len E
      let d ← self
      let ptr ← copyAt E d.buf.ptr (d.elems.ptr + len * E.layout.size) src a n
      setSelf { d with buf := { d.buf with ptr := ptr } }
      moveTailUnchecked E (asIsize n)) s
      (fun _ s' => Effect E s s' (s.self.toList E ++ src.mirror.elems E.layout a n) []) P := by
  have hlt := h.cap_lt
  simp only [wp_bind]
  refine wp_len h ?_
  have hcov := h.covers (i := s.self.elems.len) (n := n) (by omega) (by omega)
  simp only [wp_self, wp_setSelf]
  refine wp_copyAt hc hcov ?_
  rw [asIsize_of_lt (show n < isizeBound by omega)]
  have hwf : WF E (⟨s.self.elems, s.self.buf.withMemory (s.self.buf.ptr.mirror.copyFrom
      (s.self.elems.ptr + s.self.elems.len * E.layout.size) src.mirror a (n * E.layout.size))⟩ :
      SliceDeque β) := h.withMemory rfl rfl
  refine wp_moveTailUnchecked (n := s.self.elems.len + n) hwf (by push_cast; rfl) hroom ?_
  exact .of_self (hwf.withLen hroom) (toList_copy_back h hroom) rfl

theorem wp_appendElements {src : Region β} {a : Int} {n : Nat} (h : WF E s.self)
    (hc : src.mirror.Covers a (n * E.layout.size)) :
    wp (appendElements E src ⟨a, n⟩) s
      (fun _ s' => Effect E s s' (s.self.toList E ++ src.mirror.elems E.layout a n) [])
      (fun p s' => Denied E s s' [] p) := by
  rw [appendElements, wp_bind]
  refine wp_mono (wp_reserve h) (fun _ s₁ hg => ?_) fun p s' => ReservePanic.denied
  have hcap := (le_growTarget s.self n).trans hg.cap_ge
  refine wp_mono (wp_copyBack (P := fun _ _ => False) hg.wf hc (by rw [hg.len_eq]; exact hcap)) ?_ fun _ _ => False.elim
  intro _ s' heff
  rw [hg.toList_eq] at heff
  exact (hg.effect h).trans heff

theorem wp_appendElements_room {src : Region β} {a : Int} {n : Nat} (h : WF E s.self)
    (hc : src.mirror.Covers a (n * E.layout.size)) (hroom : s.self.elems.len + n ≤ s.self.capacity) :
    wp (appendElements E src ⟨a, n⟩) s
      (fun _ s' => Effect E s s' (s.self.toList E ++ src.mirror.elems E.layout a n) []) P := by
  rw [appendElements, wp_bind]
  exact wp_reserve_room h hroom (wp_copyBack h hc hroom)

theorem exact_copyBack {src : Region β} {a : Int} {n : Nat} (h : WF E s.self)
    (hroom : s.self.elems.len + n ≤ s.self.capacity) : Exact (do
      let len ← len E
      let d ← self
      let ptr ← copyAt E d.buf.ptr (d.elems.ptr + len * E.layout.size) src a n
      setSelf { d with buf := { d.buf with ptr := ptr } }
      moveTailUnchecked E (asIsize n)) s := by
  have hlt := h.cap_lt
  apply exact_len_bind h
  apply exact_self_bind
  apply exact_copyAt_bind
  apply exact_setSelf_bind
  have hwf : WF E (⟨s.self.elems, s.self.buf.withMemory (s.self.buf.ptr.mirror.copyFrom
      (s.self.elems.ptr + s.self.elems.len * E.layout.size) src.mirror a (n * E.layout.size))⟩ :
      SliceDeque β) := h.withMemory rfl rfl
  rw [asIsize_of_lt (show n < isizeBound by omega)]
  exact exact_moveTailUnchecked (n := s.self.elems.len + n) hwf (by push_cast; rfl) hroom

theorem exact_appendElements_room {src : Region β} {a : Int} {n : Nat} (h : WF E s.self)
    (hroom : s.self.elems.len + n ≤ s.self.capacity) : Exact (appendElements E src ⟨a, n⟩) s := by
  have hreserve : wp (reserve E n) s (fun _ s' => s' = s) fun _ _ => False := wp_reserve_room h hroom rfl
  apply exact_seq (exact_reserve_room h hroom) hreserve
  intro _ _ hs
  rw [hs]
  exact exact_copyBack h hroom

theorem ends_appendElements_room {src : Region β} {a : Int} {n : Nat} (h : WF E s.self)
    (hc : src.mirror.Covers a (n * E.layout.size)) (hroom : s.self.elems.len + n ≤ s.self.capacity) :
    Ends (appendElements E src ⟨a, n⟩) s fun _ s' => Effect E s s' (s.self.toList E ++ src.mirror.elems E.layout a n) [] :=
  ends_iff.mpr ⟨exact_appendElements_room h hroom, wp_appendElements_room h hc hroom⟩

/-- What is left of a deque whose contents were moved out. -/
def emptied (d : SliceDeque β) : SliceDeque β := ⟨⟨d.buf.ptr.mirror.base, 0⟩, d.buf⟩

theorem WF.emptied {d : SliceDeque β} (h : WF E d) : WF E d.emptied := wf_start h.buf (Nat.zero_le _)

theorem wp_append {p : Frame (SliceDeque β × SliceDeque β) T} (h : WF E p.self.1) (h' : WF E p.self.2) :
    wp (append E) p
      (fun _ p' => Effect E ⟨p.self.1, p.world⟩ ⟨p'.self.1, p'.world⟩ (p.self.1.toList E ++ p.self.2.toList E) [] ∧
        p'.self.2 = p.self.2.emptied)
      (fun e p' => Denied E p p' [] e) := by
  simp only [append, wp_bind, wp_self, wp_onPart]
  refine wp_mono (wp_appendElements (s := ⟨p.self.1, p.world⟩) h h'.covers_toList) ?_ ?_
  · intro _ s₁ heff
    exact wp_modify.mpr ⟨heff, rfl⟩
  · rintro e s₁ ⟨he, hu, hc⟩
    exact ⟨he, ⟨by rw [hu.self_eq], hu.log, hu.trade⟩, hc⟩

theorem wp_splitOff {k : Nat} (h : WF E s.self) :
    wp (splitOff E k) s
      (fun other s' => k ≤ s.self.elems.len ∧
        Created E ⟨s.self.withLen k, s.world⟩ s' other ((s.self.toList E).drop k))
      (fun p s' => Denied E s s' [] p ∨ p = .assert ∧ s.self.elems.len < k ∧ s' = s) := by
  have hle := h.len_le
  have hlt := h.len_lt
  simp only [splitOff, wp_bind]
  refine wp_len h ?_
  rw [wp_assert]
  refine ⟨fun hk => ?_, fun hk => .inr ⟨rfl, by omega, rfl⟩⟩
  have hother := asIsize_of_lt (show s.self.elems.len - k < isizeBound by omega)
  refine wp_mono wp_withCapacity ?_ fun p s' hp => .inl hp.denied
  rintro other s₁ ⟨hc, hcap, hstart, -, -⟩
  have hself := hc.self_eq
  have hlen₀ : other.elems.len = 0 := by rw [hstart]
  rw [wp_isize, hother]
  refine ⟨fun _ => ?_, fun hf => absurd ⟨by omega, by omega⟩ hf⟩
  refine wp_moveTailUnchecked (n := k) (by rw [hself]; exact h) (by rw [hself]; omega)
    (by rw [hself]; omega) ?_
  rw [wp_onLocal]
  refine wp_moveTailUnchecked (n := s.self.elems.len - k) hc.wf (by dsimp only; omega) (by dsimp only; omega) ?_
  have hwf := hc.wf.withLen hcap
  have hcov := h.covers_window (i := k) (n := s.self.elems.len - k) (by omega)
  rw [wp_self, hself]
  refine wp_copyAt hcov hwf.covers_toList (wp_pure.mpr ⟨hk, hwf.withMemory rfl rfl, ?_, rfl, hc.log, hc.trade⟩)
  have htl := toList_copy_back hc.wf (m := s.self.buf.ptr.mirror)
    (a := s.self.elems.ptr + k * E.layout.size) (n := s.self.elems.len - k) (by omega)
  rw [hc.toList_eq, List.nil_append, hlen₀] at htl
  simp only [Nat.cast_zero, zero_mul, add_zero, Nat.zero_add] at htl
  exact htl.trans (Mirror.elems_drop _ hk).symm

end Sdeq.SliceDeque
