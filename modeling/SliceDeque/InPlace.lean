import SliceDeque.Lib.Preserves
import SliceDeque.Program

/-!
# Without reallocating

The capacity is the number of elements that a deque can hold without
reallocating: no call that needs no more asks the allocator for anything, gives
a mapping back or moves the buffer. That is so for every state of the deque,
whatever user code and destructors do, and also when arithmetic wraps around.
-/

set_option autoImplicit false

namespace Sdeq
open Exec SliceDeque

namespace SliceDeque
variable {T β σ : Type} {E : Env T β}

/-- Where the buffer lies. -/
structure Seat where
  id : Nat
  size : Nat
  base : Int
  half : Nat
  len : Nat
  deriving DecidableEq

def seat (d : SliceDeque β) : Seat := ⟨d.buf.ptr.id, d.buf.ptr.size, d.buf.ptr.mirror.base, d.buf.ptr.mirror.half, d.buf.len⟩

/-- What was asked of the allocator, what it mapped and what was given back. -/
def mappings (w : World T) : Nat × List (Nat × Nat) × List (Nat × Nat) := (w.calls, w.mapped, w.unmapped)

/-- The buffer is where that of `d` lies, and the mappings are those of `w`. -/
structure Seated (d : SliceDeque β) (w : World T) (s : Frame (SliceDeque β) T) : Prop where
  seat_eq : seat s.self = seat d
  mappings_eq : mappings s.world = mappings w

theorem capacity_of_seat {d d' : SliceDeque β} (h : seat d' = seat d) : d'.capacity = d.capacity := by
  rw [capacity, capacity, Buffer.cap, Buffer.cap]
  exact congrArg (fun p => p.len / 2) h

variable {d : SliceDeque β} {w : World T} {s : Frame (SliceDeque β) T} {α : Type}

/-! ## Parts of methods -/

theorem seated_self {f : SliceDeque β → DeqM T β α} (h : ∀ d', seat d' = seat d → Preserves (Seated d w) (f d')) :
    Preserves (Seated d w) (self >>= f) :=
  fun s hs => lands_bind.mpr (lands_self.mpr (h s.self hs.seat_eq s hs))

theorem seated_read : Preserves (Seated d w) (self : DeqM T β (SliceDeque β)) := fun _ hs => lands_self.mpr hs

theorem seated_setSelf {d' : SliceDeque β} (h : seat d' = seat d) : Preserves (Seated d w) (setSelf d') :=
  fun _ hs => lands_setSelf.mpr ⟨h, hs.mappings_eq⟩

theorem seated_world : Preserves (Seated d w) (world : DeqM T β (World T)) := fun _ hs => lands_world.mpr hs

theorem seated_destroy {vs : List T} : Preserves (Seated d w) (modifyWorld fun w => w.destroy vs : DeqM T β Unit) :=
  fun _ hs => lands_modifyWorld.mpr ⟨hs.seat_eq, hs.mappings_eq⟩

theorem seated_made {vs : List T} : Preserves (Seated d w) (modifyWorld fun w => w.produce vs : DeqM T β Unit) :=
  fun _ hs => lands_modifyWorld.mpr ⟨hs.seat_eq, hs.mappings_eq⟩

section State
variable {I : σ → Prop}

theorem preserves_usizeSub {a b : Nat} : Preserves I (usizeSub E a b) :=
  preserves_ite (fun _ => preserves_pure) fun _ => preserves_ite (fun _ => preserves_throw) fun _ =>
    preserves_wrap.bind fun _ => preserves_pure

theorem preserves_isize {z : Int} : Preserves I (isize E z) :=
  preserves_ite (fun _ => preserves_pure) fun _ => preserves_ite (fun _ => preserves_throw) fun _ =>
    preserves_wrap.bind fun _ => preserves_pure

theorem preserves_usize {n : Nat} : Preserves I (usize E n) :=
  preserves_ite (fun _ => preserves_pure) fun _ => preserves_ite (fun _ => preserves_throw) fun _ =>
    preserves_wrap.bind fun _ => preserves_pure

theorem preserves_assert {c : Prop} [Decidable c] : Preserves I (assert c) :=
  preserves_ite (fun _ => preserves_pure) fun _ => preserves_throw

theorem preserves_debugAssert {c : Prop} [Decidable c] : Preserves I (debugAssert E c) :=
  preserves_when fun _ => preserves_throw

end State

theorem seated_dropValue {v : T} : Preserves (Seated d w) (dropValue E v) :=
  seated_world.bind fun _ => seated_destroy.bind fun _ => preserves_when fun _ => preserves_throw

theorem seated_dropInPlace {vs : List T} : Preserves (Seated d w) (dropInPlace E vs) := by
  induction vs with
  | nil => exact preserves_pure
  | cons v vs ih => exact (seated_dropValue.onPanic ih).bind fun _ => ih

theorem seated_produce {make : Nat → Option T} : Preserves (Seated d w) (produce make : DeqM T β T) := by
  apply seated_world.bind
  intro w'
  cases make w'.produced with
  | none => exact seated_made.bind fun _ => preserves_throw
  | some v => exact seated_made.bind fun _ => preserves_pure

theorem seated_len : Preserves (Seated d w) (len E) :=
  seated_read.bind fun _ => preserves_debugAssert.bind fun _ => preserves_pure

theorem seated_readSlot {i : Int} : Preserves (Seated d w) (readSlot E i) :=
  seated_read.bind fun _ => preserves_ite (fun _ => preserves_pure) fun _ => preserves_throw

theorem seated_writeSlot {i : Int} {v : T} : Preserves (Seated d w) (writeSlot E i v) := by
  apply seated_self
  intro d' hd'
  rw [writeAt]
  split
  · exact seated_setSelf hd'
  · exact preserves_throw

theorem seated_copySlots {i j : Int} {n : Nat} : Preserves (Seated d w) (copySlots E i j n) := by
  apply seated_self
  intro d' hd'
  rw [copyAt]
  split
  · exact seated_setSelf hd'
  · exact preserves_throw

theorem seated_unwrapIndex {i : Nat} : Preserves (Seated d w) (unwrapIndex i : DeqM T β Unit) :=
  seated_read.bind fun _ => preserves_assert

theorem seated_unwrapAlloc (r : Except AllocError Unit) : Preserves (Seated d w) (unwrapAlloc r : DeqM T β Unit) := by
  cases r with
  | error e => exact preserves_throw
  | ok _ => exact preserves_pure

theorem seated_dropSlice {sl : Slice} : Preserves (Seated d w) (dropSlice E sl) :=
  seated_read.bind fun _ => (preserves_ite (fun _ => preserves_pure) fun _ => preserves_throw).bind fun _ => seated_dropInPlace

theorem seated_moveTailUnchecked {x : Int} : Preserves (Seated d w) (moveTailUnchecked E x) := by
  apply seated_len.bind
  intro l
  apply seated_self
  intro d' hd'
  apply (preserves_when fun _ => preserves_usizeSub.bind fun _ => preserves_debugAssert.bind fun _ => preserves_debugAssert).bind
  intro _
  apply preserves_isize.bind
  intro newLen
  exact preserves_debugAssert.bind fun _ => preserves_debugAssert.bind fun _ => seated_setSelf hd'

theorem preserves_sizeInBytes {I : σ → Prop} {n : Nat} : Preserves I (Buffer.sizeInBytes E n) := by
  apply preserves_usize.bind
  intro bytes
  have hunits : Preserves I (Buffer.noRequiredAllocationUnits E bytes) := by
    refine preserves_usize.bind fun sum => preserves_usizeSub.bind fun top => ?_
    apply Preserves.bind (preserves_ite (fun _ => preserves_pure) fun _ => preserves_usize)
    intro r
    apply (preserves_when fun _ => preserves_usize.bind fun _ => preserves_debugAssert).bind
    exact fun _ => preserves_debugAssert.bind fun _ => preserves_pure
  exact hunits.bind fun _ => preserves_usize.bind fun _ => preserves_debugAssert.bind fun _ => preserves_pure

theorem seated_moveHeadUnchecked {x : Int} : Preserves (Seated d w) (moveHeadUnchecked E x) := by
  apply seated_self
  intro d' hd'
  apply seated_len.bind
  intro l
  apply (preserves_when fun _ => preserves_usizeSub.bind fun _ => preserves_debugAssert.bind fun _ => preserves_debugAssert).bind
  intro _
  apply preserves_sizeInBytes.bind
  intro bytes
  apply preserves_debugAssert.bind
  intro _
  apply Preserves.bind (preserves_ite (fun _ => preserves_pure) fun _ =>
    preserves_ite (fun _ => preserves_debugAssert.bind fun _ => preserves_pure) fun _ => preserves_pure)
  intro newBegin
  apply preserves_debugAssert.bind
  intro _
  apply preserves_debugAssert.bind
  intro _
  apply preserves_debugAssert.bind
  intro _
  apply preserves_isize.bind
  intro newLen
  exact preserves_debugAssert.bind fun _ => preserves_debugAssert.bind fun _ => seated_setSelf hd'

theorem seated_moveHead {x : Int} : Preserves (Seated d w) (moveHead E x) :=
  seated_read.bind fun _ => seated_len.bind fun _ => preserves_usizeSub.bind fun _ => preserves_assert.bind fun _ =>
    seated_moveHeadUnchecked

theorem seated_moveTail {x : Int} : Preserves (Seated d w) (moveTail E x) :=
  seated_read.bind fun _ => seated_len.bind fun _ => preserves_usizeSub.bind fun _ => preserves_assert.bind fun _ =>
    seated_moveTailUnchecked

/-! ## Methods that ask for nothing -/

theorem seated_popFront : Preserves (Seated d w) (popFront E) :=
  seated_read.bind fun _ => preserves_ite
    (fun _ => seated_readSlot.bind fun _ => seated_moveHeadUnchecked.bind fun _ => preserves_pure) fun _ => preserves_pure

theorem seated_popBack : Preserves (Seated d w) (popBack E) :=
  seated_len.bind fun _ => seated_read.bind fun _ => preserves_ite
    (fun _ => seated_readSlot.bind fun _ => seated_moveTailUnchecked.bind fun _ => preserves_pure) fun _ => preserves_pure

theorem seated_truncateBack {n : Nat} : Preserves (Seated d w) (truncateBack E n) :=
  seated_len.bind fun _ => preserves_ite (fun _ => preserves_pure) fun _ =>
    seated_read.bind fun _ => preserves_isize.bind fun _ => seated_moveTail.bind fun _ => seated_dropSlice.bind fun _ =>
      seated_len.bind fun _ => preserves_debugAssert

theorem seated_truncateFront {n : Nat} : Preserves (Seated d w) (truncateFront E n) :=
  seated_len.bind fun _ => preserves_ite (fun _ => preserves_pure) fun _ =>
    seated_read.bind fun _ => seated_moveHead.bind fun _ => seated_dropSlice.bind fun _ =>
      seated_len.bind fun _ => preserves_debugAssert

theorem seated_swap {i j : Nat} : Preserves (Seated d w) (swap E i j) :=
  seated_read.bind fun _ => preserves_ite
    (fun _ => seated_readSlot.bind fun _ => seated_readSlot.bind fun _ => seated_writeSlot.bind fun _ => seated_writeSlot)
    fun _ => preserves_throw

theorem seated_swapRemoveBack {i : Nat} : Preserves (Seated d w) (swapRemoveBack E i) :=
  seated_len.bind fun _ => seated_read.bind fun _ => preserves_ite (fun _ => preserves_pure) fun _ =>
    preserves_usizeSub.bind fun _ => seated_swap.bind fun _ => seated_popBack

theorem seated_swapRemoveFront {i : Nat} : Preserves (Seated d w) (swapRemoveFront E i) :=
  seated_read.bind fun _ => preserves_ite (fun _ => preserves_pure) fun _ => seated_swap.bind fun _ => seated_popFront

theorem seated_remove {i : Nat} : Preserves (Seated d w) (remove E i) :=
  seated_len.bind fun _ => preserves_assert.bind fun _ => seated_readSlot.bind fun _ => seated_len.bind fun _ =>
    preserves_ite (fun _ => seated_copySlots.bind fun _ => seated_moveTailUnchecked.bind fun _ => preserves_pure) fun _ =>
      seated_copySlots.bind fun _ => seated_moveHeadUnchecked.bind fun _ => preserves_pure

section Closures
variable {τ : Type}

theorem seated_retainLoop (f : τ → T → Option (Bool × τ)) (todo i del : Nat) (st : τ) :
    Preserves (Seated d w) (retainLoop E f todo i del st) := by
  induction todo generalizing i del st with
  | zero => exact preserves_pure
  | succ todo ih =>
    apply seated_readSlot.bind
    intro v
    rcases f st v with _ | ⟨_ | _, st'⟩
    · exact preserves_throw
    · exact ih _ _ _
    · exact (preserves_when fun _ => seated_swap).bind fun _ => ih _ _ _

theorem seated_retain (f : τ → T → Option (Bool × τ)) (st : τ) : Preserves (Seated d w) (retain E f st) :=
  seated_len.bind fun _ => (seated_retainLoop f _ _ _ st).bind fun _ =>
    (preserves_when fun _ => seated_truncateBack).bind fun _ => preserves_pure

theorem seated_dedupLoop (same : τ → T → T → Option (Bool × τ) × T × T) (todo r k : Nat) (st : τ) :
    Preserves (Seated d w) (dedupLoop E same todo r k st) := by
  induction todo generalizing r k st with
  | zero => exact preserves_pure
  | succ todo ih =>
    refine seated_readSlot.bind fun a => seated_readSlot.bind fun b => seated_writeSlot.bind fun _ =>
      seated_writeSlot.bind fun _ => ?_
    rcases (same st a b).1 with _ | ⟨_ | _, st'⟩
    · exact preserves_throw
    · exact (preserves_when fun _ => seated_swap).bind fun _ => ih _ _ _
    · exact ih _ _ _

theorem seated_dedupBy (same : τ → T → T → Option (Bool × τ) × T × T) (st : τ) : Preserves (Seated d w) (dedupBy E same st) :=
  seated_len.bind fun _ => preserves_ite (fun _ => preserves_pure) fun _ =>
    (seated_dedupLoop same _ _ _ st).bind fun _ => seated_truncateBack.bind fun _ => preserves_pure

end Closures

/-! ## Methods that ask for room -/

theorem lands_len : Lands (len E) s (fun l s' => l = s.self.elems.len ∧ s' = s) fun _ s' => s' = s := by
  simp only [len, lands_bind, lands_self, lands_debugAssert, lands_pure]
  exact ⟨fun _ => trivial, fun _ => ⟨trivial, trivial⟩⟩

section Room
variable {n : Nat} (hs : Seated d w s) (hcap : d.capacity < isizeBound) (hroom : s.self.elems.len + n ≤ d.capacity)
include hs hcap hroom

theorem lands_tryReserve_room : Lands (tryReserve E n) s (fun r s' => r = .ok () ∧ s' = s) fun _ s' => s' = s := by
  have hseat := capacity_of_seat hs.seat_eq
  have hbounds : 2 * isizeBound = usizeBound := rfl
  have hgrow : Lands (growPolicy E n) s (fun c s' => c = s.self.elems.len + n ∧ s' = s) fun _ s' => s' = s := by
    simp only [growPolicy, lands_bind, lands_self]
    apply lands_mono lands_len _ fun _ _ => id
    rintro _ _ ⟨rfl, rfl⟩
    rw [if_pos (by omega), if_neg (by omega)]
    exact lands_pure.mpr ⟨rfl, rfl⟩
  rw [tryReserve, lands_bind]
  apply lands_mono lands_len _ fun _ _ => id
  rintro _ _ ⟨rfl, rfl⟩
  rw [lands_bind]
  apply lands_mono hgrow _ fun _ _ => id
  rintro _ _ ⟨rfl, rfl⟩
  rw [reserveCapacity, lands_bind, lands_bind, lands_self, if_pos (by omega), lands_pure]
  simp only [lands_bind, lands_self, lands_debugAssert, lands_pure]
  exact ⟨fun _ => trivial, fun _ => ⟨trivial, trivial⟩⟩

theorem seated_tryReserve : Lands (tryReserve E n) s (fun _ => Seated d w) fun _ => Seated d w := by
  apply lands_mono (lands_tryReserve_room hs hcap hroom)
  · rintro _ _ ⟨-, rfl⟩
    exact hs
  · rintro _ _ rfl
    exact hs

theorem lands_reserve_room : Lands (reserve E n) s (fun _ s' => s' = s) fun _ s' => s' = s := by
  rw [reserve, lands_bind]
  apply lands_mono (lands_tryReserve_room hs hcap hroom) _ fun _ _ => id
  rintro _ _ ⟨rfl, rfl⟩
  exact lands_pure.mpr rfl

theorem seated_reserve : Lands (reserve E n) s (fun _ => Seated d w) fun _ => Seated d w :=
  lands_mono (lands_reserve_room hs hcap hroom) (fun _ _ h => h ▸ hs) fun _ _ h => h ▸ hs

theorem seated_reserveExact : Lands (reserveExact E n) s (fun _ => Seated d w) fun _ => Seated d w := by
  have hseat := capacity_of_seat hs.seat_eq
  have hbounds : 2 * isizeBound = usizeBound := rfl
  rw [reserveExact, lands_bind]
  apply lands_mono lands_len
  · rintro _ _ ⟨rfl, rfl⟩
    rw [if_pos (by omega), reserveCapacity, lands_bind, lands_bind, lands_self, if_pos (by omega), lands_pure]
    simp only [unwrapAlloc, lands_bind, lands_pure, lands_self, lands_debugAssert]
    exact ⟨fun _ => hs, fun _ => hs⟩
  · rintro _ _ rfl
    exact hs

end Room

section One
variable (hs : Seated d w s) (hroom : s.self.elems.len < d.capacity)
include hs hroom

theorem lands_reserveIfFull_room : Lands (reserveIfFull E) s (fun r s' => r = .ok () ∧ s' = s) fun _ s' => s' = s := by
  have hseat := capacity_of_seat hs.seat_eq
  have hfull : (s.self.elems.len == s.self.capacity) = false := beq_false_of_ne (by omega)
  simp only [reserveIfFull, isFull, lands_bind]
  apply lands_mono lands_len _ fun _ _ => id
  rintro _ _ ⟨rfl, rfl⟩
  simp only [lands_self, lands_pure, hfull, lands_ite]
  exact ⟨fun h => absurd h Bool.false_ne_true, fun _ => ⟨trivial, trivial⟩⟩

theorem seated_reserveIfFull : Lands (reserveIfFull E) s (fun _ => Seated d w) fun _ => Seated d w :=
  lands_mono (lands_reserveIfFull_room hs hroom) (fun _ _ h => h.2 ▸ hs) fun _ _ h => h ▸ hs

theorem seated_tryPushFront {v : T} : Lands (tryPushFront E v) s (fun _ => Seated d w) fun _ => Seated d w := by
  apply ((seated_reserveIfFull hs hroom).andThen _).unwound seated_dropValue
  rintro (e | _)
  · exact preserves_pure
  · exact seated_moveHeadUnchecked.bind fun _ => seated_unwrapIndex.bind fun _ => seated_writeSlot.bind fun _ => preserves_pure

theorem seated_tryPushBack {v : T} : Lands (tryPushBack E v) s (fun _ => Seated d w) fun _ => Seated d w := by
  apply ((seated_reserveIfFull hs hroom).andThen _).unwound seated_dropValue
  rintro (e | _)
  · exact preserves_pure
  · exact seated_moveTailUnchecked.bind fun _ => seated_len.bind fun _ => preserves_usizeSub.bind fun _ =>
      seated_unwrapIndex.bind fun _ => seated_writeSlot.bind fun _ => preserves_pure

omit hs hroom in
theorem seated_unwrapPush (r : Except (T × AllocError) Unit) : Preserves (Seated d w) (unwrapPush E r : DeqM T β Unit) := by
  rcases r with ⟨v, e⟩ | _
  · exact preserves_throw.onPanic seated_dropValue
  · exact preserves_pure

theorem seated_pushFront {v : T} : Lands (pushFront E v) s (fun _ => Seated d w) fun _ => Seated d w :=
  (seated_tryPushFront hs hroom).andThen seated_unwrapPush

theorem seated_pushBack {v : T} : Lands (pushBack E v) s (fun _ => Seated d w) fun _ => Seated d w :=
  (seated_tryPushBack hs hroom).andThen seated_unwrapPush

theorem seated_insert {i : Nat} {v : T} : Lands (insert E i v) s (fun _ => Seated d w) fun _ => Seated d w := by
  refine Lands.unwound ?_ seated_dropValue
  rw [lands_bind]
  apply lands_mono lands_len
  · rintro _ _ ⟨rfl, rfl⟩
    rw [lands_bind, lands_assert]
    refine ⟨fun _ => (seated_reserveIfFull hs hroom).andThen fun r => (seated_unwrapAlloc r).bind fun _ => ?_, fun _ => hs⟩
    apply seated_len.bind
    intro _
    exact preserves_ite
      (fun _ => seated_copySlots.bind fun _ => seated_moveTailUnchecked.bind fun _ => seated_writeSlot)
      fun _ => seated_moveHeadUnchecked.bind fun _ => seated_copySlots.bind fun _ => seated_writeSlot
  · rintro _ _ rfl
    exact hs

end One

/-! ## Loops that add elements -/

theorem seated_extendWithLoop {make : Nat → Option T} (todo i : Nat) : Preserves (Seated d w) (extendWithLoop E make todo i) := by
  induction todo generalizing i with
  | zero => exact preserves_pure
  | succ todo ih =>
    exact seated_produce.bind fun _ => seated_writeSlot.bind fun _ => seated_moveTailUnchecked.bind fun _ => ih (i + 1)

theorem seated_cloneFromSlice (vs : List T) (i : Nat) : Preserves (Seated d w) (cloneFromSlice E i vs) := by
  induction vs generalizing i with
  | nil => exact preserves_pure
  | cons v vs ih =>
    have hassign : Preserves (Seated d w) (assignClone E i v) :=
      seated_produce.bind fun _ => seated_readSlot.bind fun _ =>
        (seated_dropValue.onPanic seated_writeSlot).bind fun _ => seated_writeSlot
    exact hassign.bind fun _ => ih (i + 1)

/-- A call of user code does not touch the deque. -/
theorem lands_produce_self {make : Nat → Option T} :
    Lands (produce make) s (fun _ s' => s'.self = s.self) fun _ s' => s'.self = s.self := by
  simp only [produce, lands_bind, lands_world]
  cases make s.world.produced <;> simp only [lands_bind, lands_modifyWorld, lands_throw, lands_pure]

/-- Every round looks at the length first, and adds an element only if there is room for it. -/
theorem seated_resizeLoop {n : Nat} {v : T} (hn : n ≤ d.capacity) (todo : Nat) :
    Preserves (Seated d w) (resizeLoop E n v todo) := by
  induction todo with
  | zero => exact preserves_pure
  | succ todo ih =>
    intro s hs
    rw [resizeLoop, lands_bind]
    apply lands_mono lands_len
    · rintro _ _ ⟨rfl, rfl⟩
      rw [lands_when]
      refine ⟨fun hlt => ?_, fun _ => hs⟩
      rw [lands_bind]
      apply lands_mono ((seated_produce _ hs).inter lands_produce_self) _ fun _ _ hp => hp.1
      rintro c s' ⟨hs', hself⟩
      exact (seated_pushBack hs' (by rw [hself]; omega)).andThen fun _ => ih
    · rintro _ _ rfl
      exact hs

theorem lands_writeSlot_elems {i : Int} {v : T} :
    Lands (writeSlot E i v) s (fun _ s' => s'.self.elems = s.self.elems) fun _ _ => True := by
  simp only [writeSlot, writeAt, lands_bind, lands_self, lands_ite, lands_throw, lands_pure, lands_setSelf]
  exact ⟨fun _ => trivial, fun _ => trivial⟩

theorem lands_moveTailUnchecked_one (hlt : s.self.elems.len + 1 < isizeBound) :
    Lands (moveTailUnchecked E 1) s (fun _ s' => s'.self.elems.len = s.self.elems.len + 1) fun _ _ => True := by
  have hone : asIsize s.self.elems.len + 1 = (s.self.elems.len + 1 : Nat) := by
    rw [asIsize_of_lt (by omega)]
    rfl
  have hchecks : ∀ l : Nat, Preserves (fun t : Frame (SliceDeque β) T => t = s) (when (E.debug = true) do
      let free ← usizeSub E s.self.capacity l
      debugAssert E (-asIsize l ≤ 1)
      debugAssert E (1 ≤ asIsize free)) := fun _ =>
    preserves_when fun _ => preserves_usizeSub.bind fun _ => preserves_debugAssert.bind fun _ => preserves_debugAssert
  rw [moveTailUnchecked, lands_bind]
  apply lands_mono lands_len _ fun _ _ _ => trivial
  rintro _ _ ⟨rfl, rfl⟩
  rw [lands_bind, lands_self, lands_bind]
  apply lands_mono (hchecks _ _ rfl) _ fun _ _ _ => trivial
  rintro _ _ rfl
  rw [hone, lands_bind, isize, if_pos (by omega), lands_pure]
  simp only [lands_bind, lands_debugAssert, lands_setSelf]
  exact ⟨fun _ => trivial, fun _ => ⟨fun _ => trivial, fun _ => asUsize_natCast _⟩⟩

section Loops
variable {n : Nat} (hs : Seated d w s) (hcap : d.capacity < isizeBound)
include hs hcap

theorem seated_extendFromSlice {vs : List T} (hroom : s.self.elems.len + vs.length ≤ d.capacity) :
    Lands (extendFromSlice E vs) s (fun _ => Seated d w) fun _ => Seated d w :=
  (seated_reserve hs hcap hroom).andThen fun _ => seated_len.bind fun _ => seated_moveTailUnchecked.bind fun _ =>
    seated_cloneFromSlice _ _

theorem seated_resizeDefault (hn : n ≤ d.capacity) : Lands (resizeDefault E n) s (fun _ => Seated d w) fun _ => Seated d w := by
  rw [resizeDefault, lands_bind]
  apply lands_mono lands_len
  · rintro _ _ ⟨rfl, rfl⟩
    rw [lands_ite]
    refine ⟨fun hlt => ?_, fun _ => seated_truncateBack _ hs⟩
    exact (seated_reserve hs hcap (by omega)).andThen fun _ => seated_len.bind fun _ => seated_extendWithLoop _ _
  · rintro _ _ rfl
    exact hs

theorem seated_resize {v : T} (hn : n ≤ d.capacity) : Lands (resize E n v) s (fun _ => Seated d w) fun _ => Seated d w := by
  have hasserts : Preserves (Seated d w) (do
      let l ← len E
      debugAssert E (l = n)) := seated_len.bind fun _ => preserves_debugAssert
  apply Lands.andThen _ fun _ => seated_dropValue
  refine Lands.unwound ?_ seated_dropValue
  rw [lands_bind]
  apply lands_mono lands_len
  · rintro _ _ ⟨rfl, rfl⟩
    rw [lands_ite]
    refine ⟨fun hlt => ?_, fun _ => (seated_truncateBack _ hs).andThen fun _ => hasserts⟩
    exact (seated_reserve hs hcap (by omega)).andThen fun _ => (seated_resizeLoop hn _).bind fun _ => hasserts
  · rintro _ _ rfl
    exact hs

theorem lands_extendOne_room {hint : Nat × Option Nat} {v : T} (hroom : s.self.elems.len < d.capacity) :
    Lands (extendOne E hint v) s (fun _ s' => Seated d w s' ∧ s'.self.elems.len = s.self.elems.len + 1)
      fun _ => Seated d w := by
  have hseat := capacity_of_seat hs.seat_eq
  refine lands_onPanic ?_ fun _ => seated_dropValue
  rw [lands_bind]
  apply lands_mono lands_len
  · rintro _ _ ⟨rfl, rfl⟩
    rw [lands_bind, lands_self, lands_bind, lands_when]
    refine ⟨fun hfull => by omega, fun _ => ?_⟩
    rw [lands_bind]
    apply lands_mono lands_len
    · rintro _ _ ⟨rfl, rfl⟩
      rw [lands_bind, lands_self, lands_bind]
      apply lands_debugAssert_or _ hs
      rw [lands_bind]
      apply lands_mono ((seated_writeSlot _ hs).inter lands_writeSlot_elems) _ fun _ _ hp => hp.1
      rintro _ s₁ ⟨hs₁, helems⟩
      rw [← helems]
      exact lands_mono ((seated_moveTailUnchecked _ hs₁).inter (lands_moveTailUnchecked_one (by rw [helems]; omega))) (fun _ _ => id)
        fun _ _ hp => hp.1
    · rintro _ _ rfl
      exact hs
  · rintro _ _ rfl
    exact hs

/-- Every item that is stored makes the deque longer by one. -/
theorem seated_extendDesugared {hint : Hint} (iter : List (Option T)) (k : Nat)
    (hroom : s.self.elems.len + iter.length ≤ d.capacity) :
    Lands (extendDesugared E hint k iter) s (fun _ => Seated d w) fun _ => Seated d w := by
  induction iter generalizing k s with
  | nil => exact lands_pure.mpr hs
  | cons next rest ih =>
    rw [List.length_cons] at hroom
    rw [extendDesugared, lands_bind]
    apply lands_mono ((seated_produce _ hs).inter lands_produce_self) _ fun _ _ hp => hp.1
    rintro c s₁ ⟨hs₁, hself⟩
    rw [lands_bind]
    apply lands_mono (lands_extendOne_room hs₁ hcap (by rw [hself]; omega)) _ fun _ _ => id
    rintro _ s₂ ⟨hs₂, hlen⟩
    exact ih hs₂ (k + 1) (by rw [hlen, hself]; omega)

end Loops

end SliceDeque

/-! ## Runs -/

namespace Call
variable {T β : Type} {E : Env T β} {d : SliceDeque β} {w : World T} {s : Frame (SliceDeque β) T}

/-- The methods that work in the buffer of the deque; the others make a new one. -/
def inBuffer : Call T → Bool
  | splitOff _ => false
  | shrinkToFit => false
  | clone => false
  | _ => true

/-- The number of elements that a method of a deque of `n` needs room for. -/
def demand (n : Nat) : Call T → Nat
  | tryPushFront _ => n + 1
  | tryPushBack _ => n + 1
  | pushFront _ => n + 1
  | pushBack _ => n + 1
  | insert _ _ => n + 1
  | tryReserve additional => n + additional
  | reserve additional => n + additional
  | reserveExact additional => n + additional
  | extend _ iter => n + iter.length
  | resize newLen _ => newLen
  | resizeDefault newLen => newLen
  | extendFromSlice other => n + other.length
  | _ => 0

/-- The method works in the buffer and needs no more room than there is. -/
def Contained (cap : Nat) (c : Call T) (s : Frame (SliceDeque β) T) : Prop :=
  c.inBuffer = true ∧ c.demand s.self.elems.len ≤ cap

instance (cap : Nat) (c : Call T) (s : Frame (SliceDeque β) T) : Decidable (c.Contained cap s) :=
  inferInstanceAs (Decidable (_ ∧ _))

theorem seated_run {c : Call T} (hs : Seated d w s) (hcap : d.capacity < isizeBound) (hc : c.Contained d.capacity s) :
    Seated d w (c.run E s).state := by
  obtain ⟨hin, hroom⟩ := hc
  refine Lands.state ?_
  cases c with
  | tryPushFront v => exact (seated_tryPushFront hs hroom).andThen fun _ => preserves_pure
  | tryPushBack v => exact (seated_tryPushBack hs hroom).andThen fun _ => preserves_pure
  | pushFront v => exact (seated_pushFront hs hroom).andThen fun _ => preserves_pure
  | pushBack v => exact (seated_pushBack hs hroom).andThen fun _ => preserves_pure
  | insert i v => exact (seated_insert hs hroom).andThen fun _ => preserves_pure
  | tryReserve n => exact (seated_tryReserve hs hcap hroom).andThen fun _ => preserves_pure
  | reserve n => exact (seated_reserve hs hcap hroom).andThen fun _ => preserves_pure
  | reserveExact n => exact (seated_reserveExact hs hcap hroom).andThen fun _ => preserves_pure
  | extend hint iter => exact (seated_extendDesugared hs hcap iter 0 hroom).andThen fun _ => preserves_pure
  | resize n v => exact (seated_resize hs hcap hroom).andThen fun _ => preserves_pure
  | resizeDefault n => exact (seated_resizeDefault hs hcap hroom).andThen fun _ => preserves_pure
  | extendFromSlice vs => exact (seated_extendFromSlice hs hcap hroom).andThen fun _ => preserves_pure
  | popFront => exact (seated_popFront _ hs).andThen fun _ => preserves_pure
  | popBack => exact (seated_popBack _ hs).andThen fun _ => preserves_pure
  | truncateBack n => exact (seated_truncateBack _ hs).andThen fun _ => preserves_pure
  | truncate n => exact (seated_truncateBack _ hs).andThen fun _ => preserves_pure
  | clear => exact (seated_truncateBack _ hs).andThen fun _ => preserves_pure
  | truncateFront n => exact (seated_truncateFront _ hs).andThen fun _ => preserves_pure
  | remove i => exact (seated_remove _ hs).andThen fun _ => preserves_pure
  | swapRemoveBack i => exact (seated_swapRemoveBack _ hs).andThen fun _ => preserves_pure
  | swapRemoveFront i => exact (seated_swapRemoveFront _ hs).andThen fun _ => preserves_pure
  | retain f => exact (seated_retain _ _ _ hs).andThen fun _ => preserves_pure
  | dedupBy same => exact (seated_dedupBy _ _ _ hs).andThen fun _ => preserves_pure
  | moveHead x => exact (seated_moveHead _ hs).andThen fun _ => preserves_pure
  | moveTail x => exact (seated_moveTail _ hs).andThen fun _ => preserves_pure
  | _ => cases hin

/-- A deque holds as many elements as it has capacity for without reallocating. -/
theorem run_seated {calls : List (Call T)} (hcap : s.self.capacity < isizeBound)
    (hc : Always (run E) (Contained s.self.capacity) calls s) : ∀ done, done <+: calls → Seated s.self s.world (final (run E) done s) := by
  rintro done ⟨rest, rfl⟩
  rw [always_append] at hc
  exact final_invariant (fun _ _ hs hfits => seated_run hs hcap hfits) done s ⟨rfl, rfl⟩ hc.1

/-- Growing in the room that there is; the iterator and the closure panic. -/
def tenancy : List (Call Nat) :=
  [.reserve 1000, .pushFront 1, .extend (fun _ => (0, none)) [some 5, none], .retain fun _ v => if v = 20 then none else some (v < 20),
    .insert 1 9, .resize 9 7, .truncateFront 4, .dedupBy fun _ a b => (some (a = b), a, b), .popBack]

theorem tenancy_seated :
    let s : Frame (SliceDeque Nat) Nat := ⟨sample, .start⟩
    Seated sample .start (final (run (cells false 3 (by decide))) tenancy s) := by
  intro s
  have hc : Always (run (cells false 3 (by decide))) (Contained s.self.capacity) tenancy s := by decide +kernel
  exact run_seated (by decide) hc tenancy List.prefix_rfl

end Call

end Sdeq
