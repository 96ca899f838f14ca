import SliceDeque.Lib.Lockstep
import SliceDeque.Bulk
import SliceDeque.Retain

/-!
# Deques that no method can tell apart

The length of the buffer is read as a capacity, as a size in bytes, and when
the buffer is freed. Two deques whose buffers agree in these are twins: every
method does the same on both and leaves twins again.
-/

set_option autoImplicit false

namespace Sdeq
open Exec

/-- Related receivers in the same world. -/
structure Framed {X T : Type} (S : X → X → Prop) (s s' : Frame X T) : Prop where
  self : S s.self s'.self
  world_eq : s'.world = s.world

/-- The method cannot tell related receivers apart, and leaves related receivers. -/
abbrev Blind {X T α : Type} (S : X → X → Prop) (m : Method T X α) : Prop := Lockstep (Framed S) Eq m m

namespace Blind
variable {T β X Y α γ δ : Type} {E : Env T β} {S : X → X → Prop} {A : γ → δ → Prop} {m : Method T X α}

protected theorem pure (a : α) : Blind S (pure a : Method T X α) := Lockstep.pure rfl

protected theorem throw (p : Panic) : Blind S (Exec.throw p : Method T X α) := Lockstep.throw p

theorem seq {f : α → Method T X γ} {f' : α → Method T X δ} (h : Blind S m) (hf : ∀ a, Lockstep (Framed S) A (f a) (f' a)) :
    Lockstep (Framed S) A (m >>= f) (m >>= f') := by
  apply Lockstep.bind h
  intro a _ ha
  rw [← ha]
  exact hf a

protected theorem bind {f : α → Method T X γ} (h : Blind S m) (hf : ∀ a, Blind S (f a)) : Blind S (m >>= f) := h.seq hf

protected theorem ite {c : Prop} [Decidable c] {m' : Method T X α} (h : c → Blind S m) (h' : ¬ c → Blind S m') :
    Blind S (if c then m else m') := Lockstep.ite h h'

protected theorem when {c : Prop} [Decidable c] {m : Method T X Unit} (h : Blind S m) : Blind S (Exec.when c m) := Lockstep.when h

protected theorem onPanic {c : Method T X Unit} (h : Blind S m) (hc : Blind S c) : Blind S (Exec.onPanic m c) := Lockstep.onPanic h hc

theorem lockstep_self : Lockstep (Framed S) S (self : Method T X X) self :=
  Lockstep.bind Lockstep.get fun _ _ hs => Lockstep.pure hs.self

theorem lockstep_setSelf {x x' : X} (h : S x x') : Lockstep (Framed S) Eq (setSelf x : Method T X Unit) (setSelf x') :=
  Lockstep.modify fun _ _ hs => ⟨h, hs.world_eq⟩

theorem view {f : X → Method T X α} (hf : ∀ x x', S x x' → f x' = f x) (h : ∀ x, Blind S (f x)) : Blind S (self >>= f) := by
  apply Lockstep.bind lockstep_self
  intro x x' hx
  rw [hf x x' hx]
  exact h x

protected theorem world : Blind S (world : Method T X (World T)) :=
  Lockstep.bind Lockstep.get fun _ _ hs => Lockstep.pure hs.world_eq.symm

protected theorem modifyWorld (g : World T → World T) : Blind S (modifyWorld g : Method T X Unit) :=
  Lockstep.modify fun _ _ hs => ⟨hs.self, congrArg g hs.world_eq⟩

/-- What happens to a local value does not depend on the receiver. -/
protected theorem onLocal (y : Y) (m : Method T Y α) : Blind S (onLocal y m) := by
  apply Lockstep.zoom (Lockstep.refl _)
  · intro s s' hs
    rw [hs.world_eq]
  · intro s s' t t' hs ht
    rw [← ht]
    exact ⟨hs.self, rfl⟩

/-- A method of a part. -/
protected theorem onPart {part : X → Y} {put : X → Y → X} {R : Y → Y → Prop} {m : Method T Y α} (h : Blind R m)
    (hpart : ∀ x x', S x x' → R (part x) (part x')) (hput : ∀ x x' y y', S x x' → R y y' → S (put x y) (put x' y')) :
    Blind S (onPart part put m) :=
  Lockstep.zoom h (fun _ _ hs => ⟨hpart _ _ hs.self, hs.world_eq⟩) fun _ _ _ _ hs ht => ⟨hput _ _ _ _ hs.self ht.self, ht.world_eq⟩

/-! ## Operations that do not look at the receiver -/

protected theorem usize {n : Nat} : Blind S (usize E n : Method T X Nat) :=
  Blind.ite (fun _ => .pure _) fun _ => .ite (fun _ => .throw _) fun _ => .bind Lockstep.wrap fun _ => .pure _

protected theorem usizeSub {a b : Nat} : Blind S (usizeSub E a b : Method T X Nat) :=
  Blind.ite (fun _ => .pure _) fun _ => .ite (fun _ => .throw _) fun _ => .bind Lockstep.wrap fun _ => .pure _

protected theorem isize {z : Int} : Blind S (isize E z : Method T X Int) :=
  Blind.ite (fun _ => .pure _) fun _ => .ite (fun _ => .throw _) fun _ => .bind Lockstep.wrap fun _ => .pure _

protected theorem assert {c : Prop} [Decidable c] : Blind S (assert c : Method T X Unit) :=
  Blind.ite (fun _ => .pure _) fun _ => .throw _

protected theorem debugAssert {c : Prop} [Decidable c] : Blind S (debugAssert E c : Method T X Unit) := Blind.when (.throw _)

protected theorem dropValue {v : T} : Blind S (dropValue E v : Method T X Unit) :=
  Blind.world.bind fun _ => (Blind.modifyWorld _).bind fun _ => .when (.throw _)

protected theorem dropInPlace (vs : List T) : Blind S (dropInPlace E vs : Method T X Unit) := by
  induction vs with
  | nil => exact .pure _
  | cons v vs ih => exact (Blind.dropValue.onPanic ih).bind fun _ => ih

protected theorem produce {make : Nat → Option T} : Blind S (produce make : Method T X T) := by
  apply Blind.world.bind
  intro w
  cases make w.produced with
  | none => exact (Blind.modifyWorld _).bind fun _ => .throw _
  | some v => exact (Blind.modifyWorld _).bind fun _ => .pure _

theorem allocateMirrored {size : Nat} : Blind S (Sdeq.allocateMirrored E size : Method T X _) := by
  apply Blind.assert.bind
  intro _
  apply Blind.assert.bind
  intro _
  apply Blind.world.bind
  intro w
  cases E.allocate w.calls size with
  | error e => exact (Blind.modifyWorld _).bind fun _ => .pure _
  | ok r => exact (Blind.modifyWorld _).bind fun _ => .pure _

theorem sizeInBytes {n : Nat} : Blind S (Buffer.sizeInBytes E n : Method T X Nat) := by
  have hround : ∀ r, Blind S (if r % 2 = 0 then pure r else usize E (r + 1) : Method T X Nat) :=
    fun r => .ite (fun _ => .pure _) fun _ => .usize
  have hunits : ∀ bytes, Blind S (Buffer.noRequiredAllocationUnits E bytes : Method T X Nat) := fun bytes =>
    Blind.usize.bind fun sum => Blind.usizeSub.bind fun top => (hround _).bind fun r =>
      (Blind.when (Blind.usize.bind fun _ => .debugAssert)).bind fun _ => Blind.debugAssert.bind fun _ => .pure _
  exact Blind.usize.bind fun _ => (hunits _).bind fun _ => Blind.usize.bind fun _ => Blind.debugAssert.bind fun _ => .pure _

theorem uninitialized {n : Nat} : Blind S (Buffer.uninitialized E n : Method T X _) := by
  apply Blind.ite
  · exact fun _ => .pure _
  intro _
  apply Blind.assert.bind
  intro _
  apply Blind.ite
  · exact fun _ => .pure _
  intro _
  apply Blind.assert.bind
  intro _
  apply Blind.sizeInBytes.bind
  intro size
  apply Blind.debugAssert.bind
  intro _
  apply Blind.debugAssert.bind
  intro _
  apply Blind.debugAssert.bind
  intro _
  apply Blind.debugAssert.bind
  intro _
  apply Blind.allocateMirrored.bind
  intro r
  cases r <;> exact .pure _

theorem dropBuffer {b : Buffer β} : Blind S (Buffer.drop E b : Method T X Unit) :=
  Blind.ite (fun _ => .debugAssert) fun _ => .ite (fun _ => .pure _) fun _ => Blind.sizeInBytes.bind fun _ =>
    Blind.assert.bind fun _ => Blind.assert.bind fun _ => Blind.assert.bind fun _ => .modifyWorld _

theorem bufferFromRawParts {ptr : Region β} {n : Nat} : Blind S (Buffer.fromRawParts E ptr n : Method T X _) :=
  Blind.assert.bind fun _ => Blind.assert.bind fun _ => (Blind.when .debugAssert).bind fun _ => .pure _

protected theorem readAt {r : Region β} {a : Int} : Blind S (readAt E r a : Method T X T) := .ite (fun _ => .pure _) fun _ => .throw _

protected theorem writeAt {r : Region β} {a : Int} {v : T} : Blind S (writeAt E r a v : Method T X (Region β)) :=
  .ite (fun _ => .pure _) fun _ => .throw _

protected theorem copyAt {r q : Region β} {a b : Int} {n : Nat} : Blind S (copyAt E r a q b n : Method T X (Region β)) :=
  .ite (fun _ => .pure _) fun _ => .throw _

protected theorem readRange {r : Region β} {a : Int} {n : Nat} : Blind S (readRange E r a n : Method T X (List T)) :=
  .ite (fun _ => .pure _) fun _ => .throw _

protected theorem withCapacity {n : Nat} : Blind S (SliceDeque.withCapacity E n : Method T X _) := by
  apply Blind.usize.bind
  intro _
  apply Blind.uninitialized.bind
  intro r
  cases r with
  | error e => exact .throw _
  | ok b => exact .pure _

protected theorem drop (d : SliceDeque β) : Blind S (SliceDeque.drop E d : Method T X Unit) :=
  (Blind.onPanic (Blind.readRange.bind .dropInPlace) .dropBuffer).bind fun _ => .dropBuffer

/-- A method that cannot tell any receivers apart leaves its receiver alone. -/
theorem wp_self_eq (h : ∀ S : X → X → Prop, Blind S m) (s : Frame X T) :
    wp m s (fun _ s' => s'.self = s.self) fun _ s' => s'.self = s.self := by
  have hs : Framed (fun x x' => x = s.self ∧ x' = s.self) s s := ⟨⟨rfl, rfl⟩, rfl⟩
  obtain ⟨-, -, hstate⟩ := (h _).run s s hs
  refine ⟨fun _ => ?_⟩
  cases (m s).result <;> exact hstate.self.1

end Blind

namespace SliceDeque
variable {T β : Type} (E : Env T β)

/-- Two lengths of a buffer that stand for the same capacity and the same mapping. -/
structure SameLen (n n' : Nat) : Prop where
  half_eq : n' / 2 = n / 2
  size_eq : (Buffer.sizeInBytes E n' : DeqM T β Nat) = Buffer.sizeInBytes E n
  drop_eq : ∀ (X : Type) (r : Region β), (Buffer.drop E ⟨r, n'⟩ : Method T X Unit) = Buffer.drop E ⟨r, n⟩

structure Twins (d d' : SliceDeque β) : Prop where
  elems_eq : d'.elems = d.elems
  ptr_eq : d'.buf.ptr = d.buf.ptr
  len : SameLen E d.buf.len d'.buf.len

variable {E} {d d' : SliceDeque β}

theorem Twins.refl (d : SliceDeque β) : Twins E d d := ⟨rfl, rfl, rfl, rfl, fun _ _ => rfl⟩

theorem Twins.capacity_eq (h : Twins E d d') : d'.capacity = d.capacity := h.len.half_eq

theorem Twins.drop_eq {X : Type} (h : Twins E d d') : (Buffer.drop E d'.buf : Method T X Unit) = Buffer.drop E d.buf := by
  have hbuf : (⟨d'.buf.ptr, d.buf.len⟩ : Buffer β) = d.buf := by rw [h.ptr_eq]
  have hdrop := h.len.drop_eq X d'.buf.ptr
  rwa [hbuf] at hdrop

theorem Twins.withElems (h : Twins E d d') (s : Slice) : Twins E { d with elems := s } { d' with elems := s } := ⟨rfl, h.ptr_eq, h.len⟩

theorem Twins.withPtr (h : Twins E d d') (r : Region β) :
    Twins E ⟨d.elems, ⟨r, d.buf.len⟩⟩ ⟨d.elems, ⟨r, d'.buf.len⟩⟩ := ⟨rfl, rfl, h.len⟩

/-! ## Primitives -/

theorem blind_len : Blind (Twins E) (len E) := by
  apply Blind.view
  · intro d d' h
    rw [h.elems_eq, h.capacity_eq]
  · exact fun d => Blind.debugAssert.bind fun _ => .pure _

theorem blind_isFull : Blind (Twins E) (isFull E) := by
  apply blind_len.bind
  intro l
  apply Blind.view
  · intro d d' h
    rw [h.capacity_eq]
  · exact fun d => .pure _

theorem blind_unwrapIndex {i : Nat} : Blind (Twins E) (unwrapIndex i : DeqM T β Unit) := by
  apply Blind.view
  · intro d d' h
    rw [h.elems_eq]
  · exact fun d => .assert

theorem blind_readSlot {i : Int} : Blind (Twins E) (readSlot E i) := by
  apply Blind.view
  · intro d d' h
    rw [h.elems_eq, h.ptr_eq]
  · exact fun d => .readAt

theorem blind_writeSlot {i : Int} {v : T} : Blind (Twins E) (writeSlot E i v) := by
  apply Lockstep.bind Blind.lockstep_self
  intro d d' h
  rw [h.elems_eq, h.ptr_eq]
  exact Blind.writeAt.seq fun r => Blind.lockstep_setSelf (h.withPtr r)

theorem blind_copySlots {i j : Int} {n : Nat} : Blind (Twins E) (copySlots E i j n) := by
  apply Lockstep.bind Blind.lockstep_self
  intro d d' h
  rw [h.elems_eq, h.ptr_eq]
  exact Blind.copyAt.seq fun r => Blind.lockstep_setSelf (h.withPtr r)

theorem blind_moveHeadUnchecked {x : Int} : Blind (Twins E) (moveHeadUnchecked E x) := by
  apply Lockstep.bind Blind.lockstep_self
  intro d d' h
  rw [h.elems_eq, h.ptr_eq, h.capacity_eq, h.len.size_eq]
  apply blind_len.seq
  intro l
  apply (Blind.when (Blind.usizeSub.bind fun _ => Blind.debugAssert.bind fun _ => .debugAssert)).seq
  intro _
  apply Blind.sizeInBytes.seq
  intro bytes
  apply Blind.debugAssert.seq
  intro _
  apply Blind.seq
  · exact .ite (fun _ => .pure _) fun _ => .ite (fun _ => Blind.debugAssert.bind fun _ => .pure _) fun _ => .pure _
  intro p
  apply Blind.debugAssert.seq
  intro _
  apply Blind.debugAssert.seq
  intro _
  apply Blind.debugAssert.seq
  intro _
  apply Blind.isize.seq
  intro n
  exact Blind.debugAssert.seq fun _ => Blind.debugAssert.seq fun _ => Blind.lockstep_setSelf (h.withElems _)

theorem blind_moveTailUnchecked {x : Int} : Blind (Twins E) (moveTailUnchecked E x) := by
  apply blind_len.bind
  intro l
  apply Lockstep.bind Blind.lockstep_self
  intro d d' h
  rw [h.elems_eq, h.capacity_eq]
  apply (Blind.when (Blind.usizeSub.bind fun _ => Blind.debugAssert.bind fun _ => .debugAssert)).seq
  intro _
  apply Blind.isize.seq
  intro n
  exact Blind.debugAssert.seq fun _ => Blind.debugAssert.seq fun _ => Blind.lockstep_setSelf (h.withElems _)

theorem blind_moveHead {x : Int} : Blind (Twins E) (moveHead E x) := by
  apply Blind.view
  · intro d d' h
    rw [h.capacity_eq]
  · exact fun d => blind_len.bind fun _ => Blind.usizeSub.bind fun _ => Blind.assert.bind fun _ => blind_moveHeadUnchecked

theorem blind_moveTail {x : Int} : Blind (Twins E) (moveTail E x) := by
  apply Blind.view
  · intro d d' h
    rw [h.capacity_eq]
  · exact fun d => blind_len.bind fun _ => Blind.usizeSub.bind fun _ => Blind.assert.bind fun _ => blind_moveTailUnchecked

theorem blind_growPolicy {n : Nat} : Blind (Twins E) (growPolicy E n) := by
  apply Blind.view
  · intro d d' h
    rw [h.capacity_eq]
  · exact fun d => blind_len.bind fun _ => .ite (fun _ => .ite (fun _ => .pure _) fun _ => .pure _) fun _ => .throw _

theorem blind_reserveCapacity {n : Nat} : Blind (Twins E) (reserveCapacity E n) := by
  apply Blind.view
  · intro d d' h
    simp only [h.capacity_eq, h.elems_eq, h.ptr_eq, h.drop_eq]
  intro d
  apply Blind.ite
  · exact fun _ => .pure _
  intro _
  apply Blind.usize.bind
  intro _
  apply Blind.uninitialized.bind
  intro r
  cases r with
  | error e => exact .pure _
  | ok b =>
    exact Blind.debugAssert.bind fun _ => blind_len.bind fun _ => Blind.copyAt.bind fun r =>
      (Blind.modifyWorld _).bind fun _ => Lockstep.bind (Blind.lockstep_setSelf (.refl _)) fun _ _ _ => Blind.dropBuffer.bind fun _ => .pure _

theorem blind_unwrapAlloc (r : Except AllocError Unit) : Blind (Twins E) (unwrapAlloc r : DeqM T β Unit) := by
  cases r with
  | error e => exact .throw _
  | ok _ => exact .pure _

theorem blind_tryReserve {n : Nat} : Blind (Twins E) (tryReserve E n) := by
  apply blind_len.bind
  intro l
  apply blind_growPolicy.bind
  intro c
  apply blind_reserveCapacity.bind
  intro r
  cases r with
  | error e => exact .pure _
  | ok _ =>
    apply Blind.view
    · intro d d' h
      rw [h.capacity_eq]
    · exact fun d => Blind.debugAssert.bind fun _ => .pure _

theorem blind_reserve {n : Nat} : Blind (Twins E) (reserve E n) := blind_tryReserve.bind blind_unwrapAlloc

theorem blind_reserveExact {n : Nat} : Blind (Twins E) (reserveExact E n) := by
  apply blind_len.bind
  intro l
  apply Blind.ite _ fun _ => .throw _
  intro _
  apply blind_reserveCapacity.bind
  intro r
  apply (blind_unwrapAlloc r).bind
  intro _
  apply Blind.view
  · intro d d' h
    rw [h.capacity_eq]
  · exact fun d => .debugAssert

theorem blind_reserveIfFull : Blind (Twins E) (reserveIfFull E) :=
  blind_isFull.bind fun _ => .ite (fun _ => blind_tryReserve) fun _ => .pure _

/-! ## Single values -/

theorem blind_tryPushFront {v : T} : Blind (Twins E) (tryPushFront E v) := by
  apply Blind.onPanic _ .dropValue
  apply blind_reserveIfFull.bind
  intro r
  cases r with
  | error e => exact .pure _
  | ok _ => exact blind_moveHeadUnchecked.bind fun _ => blind_unwrapIndex.bind fun _ => blind_writeSlot.bind fun _ => .pure _

theorem blind_tryPushBack {v : T} : Blind (Twins E) (tryPushBack E v) := by
  apply Blind.onPanic _ .dropValue
  apply blind_reserveIfFull.bind
  intro r
  cases r with
  | error e => exact .pure _
  | ok _ =>
    exact blind_moveTailUnchecked.bind fun _ => blind_len.bind fun _ => Blind.usizeSub.bind fun _ =>
      blind_unwrapIndex.bind fun _ => blind_writeSlot.bind fun _ => .pure _

theorem blind_unwrapPush (r : Except (T × AllocError) Unit) : Blind (Twins E) (unwrapPush E r) := by
  cases r with
  | error e => exact Blind.onPanic (.throw _) .dropValue
  | ok _ => exact .pure _

theorem blind_pushFront {v : T} : Blind (Twins E) (pushFront E v) := blind_tryPushFront.bind blind_unwrapPush

theorem blind_pushBack {v : T} : Blind (Twins E) (pushBack E v) := blind_tryPushBack.bind blind_unwrapPush

theorem blind_popFront : Blind (Twins E) (popFront E) := by
  apply Blind.view
  · intro d d' h
    rw [h.elems_eq]
  · exact fun d => .ite (fun _ => blind_readSlot.bind fun _ => blind_moveHeadUnchecked.bind fun _ => .pure _) fun _ => .pure _

theorem blind_popBack : Blind (Twins E) (popBack E) := by
  apply blind_len.bind
  intro l
  apply Blind.view
  · intro d d' h
    rw [h.elems_eq]
  · exact fun d => .ite (fun _ => blind_readSlot.bind fun _ => blind_moveTailUnchecked.bind fun _ => .pure _) fun _ => .pure _

theorem blind_dropSlice {p : Slice} : Blind (Twins E) (dropSlice E p) := by
  apply Blind.view
  · intro d d' h
    rw [h.ptr_eq]
  · exact fun d => Blind.readRange.bind .dropInPlace

theorem blind_truncateBack {n : Nat} : Blind (Twins E) (truncateBack E n) := by
  apply blind_len.bind
  intro l
  apply Blind.ite fun _ => .pure _
  intro _
  apply Blind.view
  · intro d d' h
    rw [h.elems_eq]
  · exact fun d => Blind.isize.bind fun _ => blind_moveTail.bind fun _ => blind_dropSlice.bind fun _ =>
      blind_len.bind fun _ => .debugAssert

theorem blind_truncateFront {n : Nat} : Blind (Twins E) (truncateFront E n) := by
  apply blind_len.bind
  intro l
  apply Blind.ite fun _ => .pure _
  intro _
  apply Blind.view
  · intro d d' h
    rw [h.elems_eq]
  · exact fun d => blind_moveHead.bind fun _ => blind_dropSlice.bind fun _ => blind_len.bind fun _ => .debugAssert

theorem blind_swap {i j : Nat} : Blind (Twins E) (swap E i j) := by
  apply Blind.view
  · intro d d' h
    rw [h.elems_eq]
  intro d
  apply Blind.ite _ fun _ => .throw _
  exact fun _ => blind_readSlot.bind fun _ => blind_readSlot.bind fun _ => blind_writeSlot.bind fun _ => blind_writeSlot

theorem blind_swapRemoveBack {i : Nat} : Blind (Twins E) (swapRemoveBack E i) := by
  apply blind_len.bind
  intro l
  apply Blind.view
  · intro d d' h
    rw [h.elems_eq]
  · exact fun d => .ite (fun _ => .pure _) fun _ => Blind.usizeSub.bind fun _ => blind_swap.bind fun _ => blind_popBack

theorem blind_swapRemoveFront {i : Nat} : Blind (Twins E) (swapRemoveFront E i) := by
  apply Blind.view
  · intro d d' h
    rw [h.elems_eq]
  · exact fun d => .ite (fun _ => .pure _) fun _ => blind_swap.bind fun _ => blind_popFront

theorem blind_insert {i : Nat} {v : T} : Blind (Twins E) (insert E i v) := by
  apply Blind.onPanic _ .dropValue
  apply blind_len.bind
  intro l
  apply Blind.assert.bind
  intro _
  apply blind_reserveIfFull.bind
  intro r
  apply (blind_unwrapAlloc r).bind
  intro _
  apply blind_len.bind
  intro l'
  apply Blind.ite
  · exact fun _ => blind_copySlots.bind fun _ => blind_moveTailUnchecked.bind fun _ => blind_writeSlot
  · exact fun _ => blind_moveHeadUnchecked.bind fun _ => blind_copySlots.bind fun _ => blind_writeSlot

theorem blind_remove {i : Nat} : Blind (Twins E) (remove E i) := by
  apply blind_len.bind
  intro l
  apply Blind.assert.bind
  intro _
  apply blind_readSlot.bind
  intro v
  apply blind_len.bind
  intro l'
  apply Blind.ite
  · exact fun _ => blind_copySlots.bind fun _ => blind_moveTailUnchecked.bind fun _ => .pure _
  · exact fun _ => blind_copySlots.bind fun _ => blind_moveHeadUnchecked.bind fun _ => .pure _

/-! ## Whole deques -/

theorem Twins.drop_whole {X : Type} (h : Twins E d d') : (drop E d' : Method T X Unit) = drop E d := by
  rw [drop, drop, h.elems_eq, h.ptr_eq, h.drop_eq]

theorem blind_dropSelf : Blind (Twins E) (dropSelf E) := Blind.view (fun _ _ h => Twins.drop_whole h) .drop

theorem blind_appendElements {r : Region β} {p : Slice} : Blind (Twins E) (appendElements E r p) := by
  apply blind_reserve.bind
  intro _
  apply blind_len.bind
  intro l
  apply Lockstep.bind Blind.lockstep_self
  intro d d' h
  rw [h.elems_eq, h.ptr_eq]
  exact Blind.copyAt.seq fun r => Lockstep.bind (Blind.lockstep_setSelf (h.withPtr r)) fun _ _ _ => blind_moveTailUnchecked

theorem blind_splitOff {n : Nat} : Blind (Twins E) (splitOff E n) := by
  apply blind_len.bind
  intro l
  apply Blind.assert.bind
  intro _
  apply Blind.withCapacity.bind
  intro other
  apply Blind.isize.bind
  intro x
  apply blind_moveTailUnchecked.bind
  intro _
  apply (Blind.onLocal _ _).bind
  intro r
  apply Blind.view
  · intro d d' h
    rw [h.elems_eq, h.ptr_eq]
  · exact fun d => Blind.copyAt.bind fun _ => .pure _

theorem blind_shrinkToFit : Blind (Twins E) (shrinkToFit E) := by
  apply Blind.view
  · intro d d' h
    simp only [h.elems_eq, h.ptr_eq, h.capacity_eq, h.drop_whole]
  intro d
  apply Blind.ite fun _ => .pure _
  intro _
  apply blind_len.bind
  intro l
  apply Blind.withCapacity.bind
  intro new
  apply Blind.ite _ fun _ => .drop _
  exact fun _ => Blind.copyAt.bind fun _ => Lockstep.bind (Blind.lockstep_setSelf (.refl _)) fun _ _ _ => Blind.drop _

theorem blind_clone : Blind (Twins E) (clone E) := by
  apply blind_len.bind
  intro l
  apply Blind.withCapacity.bind
  intro new
  apply Blind.view
  · intro d d' h
    rw [h.elems_eq, h.ptr_eq]
  · exact fun d => Blind.readRange.bind fun _ => (Blind.onLocal _ _).bind fun _ => .pure _

/-! ## Loops -/

theorem blind_retainLoop {σ : Type} {f : σ → T → Option (Bool × σ)} :
    ∀ (todo i del : Nat) (st : σ), Blind (Twins E) (retainLoop E f todo i del st) := by
  intro todo
  induction todo with
  | zero => exact fun _ _ _ => .pure _
  | succ todo ih =>
    intro i del st
    apply blind_readSlot.bind
    intro v
    rcases f st v with _ | ⟨_ | _, st'⟩
    · exact .throw _
    · exact ih _ _ _
    · exact (Blind.when blind_swap).bind fun _ => ih _ _ _

theorem blind_retain {σ : Type} {f : σ → T → Option (Bool × σ)} {st : σ} : Blind (Twins E) (retain E f st) :=
  blind_len.bind fun _ => (blind_retainLoop _ _ _ _).bind fun _ => (Blind.when blind_truncateBack).bind fun _ => .pure _

theorem blind_dedupLoop {σ : Type} {same : σ → T → T → Option (Bool × σ) × T × T} :
    ∀ (todo r w : Nat) (st : σ), Blind (Twins E) (dedupLoop E same todo r w st) := by
  intro todo
  induction todo with
  | zero => exact fun _ _ _ => .pure _
  | succ todo ih =>
    intro r w st
    apply blind_readSlot.bind
    intro a
    apply blind_readSlot.bind
    intro b
    apply blind_writeSlot.bind
    intro _
    apply blind_writeSlot.bind
    intro _
    rcases (same st a b).1 with _ | ⟨_ | _, st'⟩
    · exact .throw _
    · exact (Blind.when blind_swap).bind fun _ => ih _ _ _
    · exact ih _ _ _

theorem blind_dedupBy {σ : Type} {same : σ → T → T → Option (Bool × σ) × T × T} {st : σ} : Blind (Twins E) (dedupBy E same st) :=
  blind_len.bind fun _ => .ite (fun _ => .pure _) fun _ => (blind_dedupLoop _ _ _ _).bind fun _ => blind_truncateBack.bind fun _ => .pure _

theorem blind_extendOne {hint : Nat × Option Nat} {v : T} : Blind (Twins E) (extendOne E hint v) := by
  apply Blind.onPanic _ .dropValue
  have hcap : Blind (Twins E) (hintedCap hint : DeqM T β Nat) := .ite (fun _ => .pure _) fun _ => .throw _
  apply blind_len.bind
  intro l
  apply Blind.view
  · intro d d' h
    rw [h.capacity_eq]
  intro d
  apply (Blind.when (hcap.bind fun _ => blind_reserve)).bind
  intro _
  apply blind_len.bind
  intro l'
  apply Blind.view
  · intro d d' h
    rw [h.capacity_eq]
  · exact fun d => Blind.debugAssert.bind fun _ => blind_writeSlot.bind fun _ => blind_moveTailUnchecked

theorem blind_extendDesugared {hint : Hint} : ∀ (iter : List (Option T)) (k : Nat), Blind (Twins E) (extendDesugared E hint k iter) := by
  intro iter
  induction iter with
  | nil => exact fun _ => .pure _
  | cons next rest ih => exact fun k => Blind.produce.bind fun _ => blind_extendOne.bind fun _ => ih _

theorem blind_extendWithLoop {make : Nat → Option T} : ∀ (todo i : Nat), Blind (Twins E) (extendWithLoop E make todo i) := by
  intro todo
  induction todo with
  | zero => exact fun _ => .pure _
  | succ todo ih => exact fun i => Blind.produce.bind fun _ => blind_writeSlot.bind fun _ => blind_moveTailUnchecked.bind fun _ => ih _

theorem blind_resizeDefault {n : Nat} : Blind (Twins E) (resizeDefault E n) := by
  apply blind_len.bind
  intro l
  apply Blind.ite _ fun _ => blind_truncateBack
  exact fun _ => blind_reserve.bind fun _ => blind_len.bind fun _ => blind_extendWithLoop _ _

theorem blind_resizeLoop {n : Nat} {v : T} (todo : Nat) : Blind (Twins E) (resizeLoop E n v todo) := by
  induction todo with
  | zero => exact .pure _
  | succ todo ih => exact blind_len.bind fun _ => .when (Blind.produce.bind fun _ => blind_pushBack.bind fun _ => ih)

theorem blind_resize {n : Nat} {v : T} : Blind (Twins E) (resize E n v) := by
  apply Blind.bind _ fun _ => .dropValue
  apply Blind.onPanic _ .dropValue
  apply blind_len.bind
  intro l
  have hlen : Blind (Twins E) (do
      let l ← len E
      debugAssert E (l = n)) := blind_len.bind fun _ => .debugAssert
  apply Blind.ite
  · exact fun _ => blind_reserve.bind fun _ => (blind_resizeLoop _).bind fun _ => hlen
  · exact fun _ => blind_truncateBack.bind fun _ => hlen

theorem blind_cloneFromSlice (vs : List T) : ∀ i : Nat, Blind (Twins E) (cloneFromSlice E i vs) := by
  induction vs with
  | nil => exact fun _ => .pure _
  | cons v vs ih =>
    intro i
    have hassign : Blind (Twins E) (assignClone E i v) := Blind.produce.bind fun _ => blind_readSlot.bind fun _ =>
      (Blind.onPanic .dropValue blind_writeSlot).bind fun _ => blind_writeSlot
    exact hassign.bind fun _ => ih _

theorem blind_extendFromSlice {vs : List T} : Blind (Twins E) (extendFromSlice E vs) :=
  blind_reserve.bind fun _ => blind_len.bind fun _ => blind_moveTailUnchecked.bind fun _ => blind_cloneFromSlice _ _

theorem blind_pushClones (vs : List T) : Blind (Twins E) (pushClones E vs) := by
  induction vs with
  | nil => exact .pure _
  | cons v vs ih => exact Blind.produce.bind fun _ => blind_pushBack.bind fun _ => ih

end SliceDeque

end Sdeq
