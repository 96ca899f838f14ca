import Mathlib.Logic.Relation
import SliceDeque.InPlace

/-!
# Memory and moves

What the methods of a deque do with memory while no more than `D` elements are
ever asked room for: they map pieces that hold at most `4 * D` elements, and
the deque moves only when it is too small, to a buffer at least twice as large.
That is so for every state of the deque, as in `InPlace`.
-/

set_option autoImplicit false

namespace Sdeq
open Exec SliceDeque

namespace SliceDeque
variable {T β X α : Type} {E : Env T β} {D n : Nat} {doubles : Bool}

/-- Room for `2 * D` elements is measured without wrapping around. -/
structure Measured (E : Env T β) (D : Nat) : Prop where
  twice : 4 * D < usizeBound
  fits : Buffer.Fits E (4 * D)

/-- A deque as the allocator sees it: where its buffer lies, and what was mapped so far. -/
structure Site where
  seat : Seat
  mapped : List (Nat × Nat)

def site (s : Frame (SliceDeque β) T) : Site := ⟨seat s.self, s.world.mapped⟩

def Seat.capacity (p : Seat) : Nat := p.len / 2

/-- What a method does with memory, one thing at a time. -/
inductive Rehoused (E : Env T β) (D : Nat) (doubles : Bool) (p : Site) : Site → Prop where
  | maps (r : Nat × Nat) (hr : r.2 ≤ Buffer.byteSize E (4 * D)) : Rehoused E D doubles p ⟨p.seat, p.mapped ++ [r]⟩
  | moves (q : Seat) (hsize : q.size ≤ Buffer.byteSize E (4 * D)) (hcap : doubles = true →
      p.seat.capacity < D ∧ 2 * p.seat.capacity ≤ q.capacity ∧ 0 < q.capacity) : Rehoused E D doubles p ⟨q, p.mapped⟩

/-- All that was done with memory since `p`. -/
def Housed (E : Env T β) (D : Nat) (doubles : Bool) (p : Site) (s : Frame (SliceDeque β) T) : Prop :=
  Relation.ReflTransGen (Rehoused E D doubles) p (site s)

/-- At most one piece was mapped. -/
def MapsOne (E : Env T β) (D : Nat) (w w' : World T) : Prop :=
  w'.mapped = w.mapped ∨ ∃ r, w'.mapped = w.mapped ++ [r] ∧ r.2 ≤ Buffer.byteSize E (4 * D)

variable {p : Site} {s s' : Frame (SliceDeque β) T}

theorem Housed.mapped (h : Housed E D doubles p s) (hw : MapsOne E D s.world s'.world) (hseat : seat s'.self = seat s.self) :
    Housed E D doubles p s' := by
  have hsite : site s' = ⟨(site s).seat, s'.world.mapped⟩ := by rw [site, hseat]; rfl
  rw [Housed, hsite]
  rcases hw with hsame | ⟨r, hnew, hr⟩
  · rw [hsame]
    exact h
  · rw [hnew]
    exact h.tail (.maps r hr)

theorem Housed.moved (h : Housed E D doubles p s) (hw : s'.world.mapped = s.world.mapped)
    (hsize : s'.self.buf.ptr.size ≤ Buffer.byteSize E (4 * D))
    (hcap : doubles = true → s.self.capacity < D ∧ 2 * s.self.capacity ≤ s'.self.capacity ∧ 0 < s'.self.capacity) :
    Housed E D doubles p s' := by
  have hsite : site s' = ⟨seat s'.self, (site s).mapped⟩ := by rw [site, hw]; rfl
  rw [Housed, hsite]
  exact h.tail (.moves _ hsize hcap)

theorem Seated.mapped_eq {d : SliceDeque β} {w : World T} (h : Seated d w s) : s.world.mapped = w.mapped :=
  congrArg (fun m => m.2.1) h.mappings_eq

theorem housed_of_seated {m : DeqM T β α} (h : ∀ d w, Preserves (Seated d w) m) : Preserves (Housed E D doubles p) m := by
  have hkeep : ∀ s s' : Frame (SliceDeque β) T, Housed E D doubles p s → Seated s.self s.world s' → Housed E D doubles p s' :=
    fun s s' hs hs' => hs.mapped (.inl hs'.mapped_eq) hs'.seat_eq
  exact fun s hs => lands_mono (h s.self s.world s ⟨rfl, rfl⟩) (fun _ s' => hkeep s s' hs) fun _ s' => hkeep s s' hs

/-! ## Requests -/

theorem lands_sizeInBytes {σ : Type} {t : σ} {Q : Nat → σ → Prop} {P : Panic → σ → Prop} (hf : Buffer.Fits E n)
    (hQ : Q (Buffer.byteSize E n) t) : Lands (Buffer.sizeInBytes E n) t Q P :=
  lands_of_exact (Buffer.exact_sizeInBytes hf) (Buffer.wp_sizeInBytes (fun _ => hQ) fun hnot => absurd hf hnot)

/-- A buffer for `n` elements, if there is one. -/
theorem lands_uninitialized {t : Frame X T} (hm : Measured E D) (hn : n ≤ 2 * D) :
    Lands (Buffer.uninitialized E (2 * n)) t
      (fun r t' => t'.self = t.self ∧ MapsOne E D t.world t'.world ∧
        ∀ b : Buffer β, r = .ok b → n ≤ b.cap ∧ b.ptr.size ≤ Buffer.byteSize E (4 * D))
      fun _ t' => t'.self = t.self ∧ MapsOne E D t.world t'.world := by
  have htwice := hm.twice
  have hbytes := Buffer.byteSize_mono (E := E) (show 2 * n ≤ 4 * D by omega)
  have hsame : t.self = t.self ∧ MapsOne E D t.world t.world := ⟨rfl, .inl rfl⟩
  rw [Buffer.uninitialized, lands_ite]
  refine ⟨fun hs => lands_pure.mpr ⟨rfl, .inl rfl, ?_⟩, fun hs => ?_⟩
  · rintro b ⟨rfl⟩
    refine ⟨?_, Nat.zero_le _⟩
    show n ≤ Buffer.emptyLen E / 2
    rw [Buffer.emptyLen, if_pos hs]
    unfold isizeBound usizeBound at *
    omega
  rw [lands_bind, lands_assert]
  refine ⟨fun _ => ?_, fun _ => hsame⟩
  rw [lands_ite]
  refine ⟨fun hzero => lands_pure.mpr ⟨rfl, .inl rfl, ?_⟩, fun hpos => ?_⟩
  · rintro b ⟨rfl⟩
    exact ⟨by omega, Nat.zero_le _⟩
  rw [lands_bind, lands_assert]
  refine ⟨fun _ => ?_, fun _ => hsame⟩
  rw [lands_bind]
  apply lands_sizeInBytes (hm.fits.mono (by omega))
  simp only [lands_bind]
  refine lands_debugAssert_or (lands_debugAssert_or (lands_debugAssert_or (lands_debugAssert_or ?_ hsame) hsame) hsame) hsame
  simp only [allocateMirrored, lands_bind, lands_assert, lands_world]
  refine ⟨fun _ => ⟨fun _ => ?_, fun _ => ⟨trivial, hsame.2⟩⟩, fun _ => ⟨trivial, hsame.2⟩⟩
  cases E.allocate t.world.calls (Buffer.byteSize E (2 * n)) with
  | error e =>
    simp only [lands_bind, lands_modifyWorld, lands_pure]
    refine ⟨trivial, .inl rfl, ?_⟩
    rintro b ⟨⟩
  | ok r =>
    simp only [lands_bind, lands_modifyWorld, lands_pure]
    refine ⟨trivial, .inr ⟨(t.world.calls, Buffer.byteSize E (2 * n)), rfl, hbytes⟩, ?_⟩
    rintro b ⟨rfl⟩
    refine ⟨?_, hbytes⟩
    have hlen : 2 * n ≤ Buffer.byteSize E (2 * n) / E.layout.size :=
      (Nat.le_div_iff_mul_le (by omega)).mpr (Buffer.le_byteSize _)
    show n ≤ Buffer.byteSize E (2 * n) / E.layout.size / 2
    omega

/-- An empty deque with room for `n` elements. -/
theorem lands_withCapacity {t : Frame X T} (hm : Measured E D) (hn : n ≤ 2 * D) :
    Lands (withCapacity E n) t
      (fun d t' => (t'.self = t.self ∧ MapsOne E D t.world t'.world) ∧
        n ≤ d.capacity ∧ d.buf.ptr.size ≤ Buffer.byteSize E (4 * D) ∧ d.elems.len = 0)
      fun _ t' => t'.self = t.self ∧ MapsOne E D t.world t'.world := by
  have htwice := hm.twice
  rw [withCapacity, lands_bind, lands_usize]
  refine ⟨fun _ => ?_, fun hover => by omega⟩
  rw [lands_bind]
  apply lands_mono (lands_uninitialized hm hn) _ fun _ _ => id
  rintro (e | b) t' ⟨hself, hmaps, hb⟩
  · exact lands_throw.mpr ⟨hself, hmaps⟩
  · obtain ⟨hcap, hsize⟩ := hb b rfl
    exact lands_pure.mpr ⟨⟨hself, hmaps⟩, hcap, hsize, rfl⟩

/-- Nothing is mapped, and the receiver stays as it is. -/
def Unmapped (t t' : Frame X T) : Prop := t'.self = t.self ∧ t'.world.mapped = t.world.mapped

theorem Housed.unmapped (h : Housed E D doubles p s) (hs : Unmapped s s') : Housed E D doubles p s' :=
  h.mapped (.inl hs.2) (congrArg seat hs.1)

theorem unmapped_bufferDrop {b : Buffer β} {t : Frame X T} : Preserves (Unmapped t) (Buffer.drop E b) := by
  refine preserves_ite (fun _ => preserves_debugAssert) fun _ => preserves_ite (fun _ => preserves_pure) fun _ => ?_
  apply preserves_sizeInBytes.bind
  intro size
  refine preserves_assert.bind fun _ => preserves_assert.bind fun _ => preserves_assert.bind fun _ => ?_
  exact fun t' ht => lands_modifyWorld.mpr ht

section Requests
variable (hm : Measured E D) (hs : Housed E D doubles p s)
include hm hs

theorem housed_reserveCapacity (hn : n ≤ 2 * D)
    (hcap : doubles = true → s.self.capacity < n → s.self.capacity < D ∧ 2 * s.self.capacity ≤ n) :
    Lands (reserveCapacity E n) s (fun _ s' => Housed E D doubles p s' ∧ s'.self.elems.len = s.self.elems.len)
      fun _ => Housed E D doubles p := by
  have htwice := hm.twice
  simp only [reserveCapacity, lands_bind, lands_self, lands_ite, lands_pure]
  refine ⟨fun _ => ⟨hs, trivial⟩, fun hgrow => ?_⟩
  rw [lands_usize]
  refine ⟨fun _ => ?_, fun hover => by omega⟩
  apply lands_mono (lands_uninitialized hm hn)
  · rintro (e | b) s₁ ⟨hself, hmaps, hb⟩
    · exact lands_pure.mpr ⟨hs.mapped hmaps (congrArg seat hself), congrArg (fun d => d.elems.len) hself⟩
    obtain ⟨hroom, hsize⟩ := hb b rfl
    have hs₁ := hs.mapped hmaps (congrArg seat hself)
    simp only [lands_bind]
    apply lands_debugAssert_or _ hs₁
    apply lands_mono lands_len
    · rintro l s₁ ⟨rfl, rfl⟩
      rw [copyAt, lands_ite]
      refine ⟨fun _ => ?_, fun _ => lands_throw.mpr hs₁⟩
      simp only [lands_pure, lands_modifyWorld, lands_setSelf]
      have hdrop : ∀ s₂ : Frame (SliceDeque β) T, seat s₂.self = ⟨b.ptr.id, b.ptr.size, b.ptr.mirror.base, b.ptr.mirror.half, b.len⟩ →
          s₂.world.mapped = s₁.world.mapped → Lands (Buffer.drop E s.self.buf) s₂
            (fun _ s' => Housed E D doubles p s' ∧ s'.self.elems.len = s₂.self.elems.len) fun _ => Housed E D doubles p := by
        intro s₂ hseat hw
        have hs₂ : Housed E D doubles p s₂ := by
          refine hs₁.moved hw ((congrArg Seat.size hseat).trans_le hsize) fun hd => ?_
          have hgrew := hcap hd (by omega)
          have hnew : s₂.self.capacity = b.cap := congrArg Seat.capacity hseat
          rw [hself, hnew]
          omega
        exact lands_mono (unmapped_bufferDrop (t := s₂) _ ⟨rfl, rfl⟩)
          (fun _ s' h => ⟨hs₂.unmapped h, congrArg (fun d => d.elems.len) h.1⟩) fun _ s' h => hs₂.unmapped h
      have hlen : s₁.self.elems.len = s.self.elems.len := congrArg (fun d => d.elems.len) hself
      rw [← hlen]
      exact hdrop _ rfl rfl
    · rintro _ _ rfl
      exact hs₁
  · rintro _ s' ⟨hself, hmaps⟩
    exact hs.mapped hmaps (congrArg seat hself)

omit hm hs in
theorem lands_growPolicy (hn : s.self.elems.len + n < usizeBound) :
    Lands (growPolicy E n) s (fun c s' => c = growTarget s.self n ∧ s' = s) fun _ s' => s' = s := by
  rw [growPolicy, lands_bind, lands_self, lands_bind]
  apply lands_mono lands_len _ fun _ _ => id
  rintro _ s ⟨rfl, rfl⟩
  rw [if_pos hn, growTarget, lands_ite]
  exact ⟨fun hgrow => lands_pure.mpr ⟨(if_pos hgrow).symm, rfl⟩, fun hroom => lands_pure.mpr ⟨(if_neg hroom).symm, rfl⟩⟩

theorem housed_tryReserve (hn : s.self.elems.len + n ≤ D) :
    Lands (tryReserve E n) s (fun _ s' => Housed E D doubles p s' ∧ s'.self.elems.len = s.self.elems.len)
      fun _ => Housed E D doubles p := by
  have htwice := hm.twice
  have htarget : growTarget s.self n ≤ 2 * D ∧ (s.self.capacity < growTarget s.self n →
      s.self.capacity < D ∧ 2 * s.self.capacity ≤ growTarget s.self n) := by
    unfold growTarget
    split <;> omega
  rw [tryReserve, lands_bind]
  apply lands_mono lands_len
  · rintro _ s ⟨rfl, rfl⟩
    rw [lands_bind]
    apply lands_mono (lands_growPolicy (by omega))
    · rintro _ s ⟨rfl, rfl⟩
      rw [lands_bind]
      apply lands_mono (housed_reserveCapacity hm hs htarget.1 fun _ => htarget.2) _ fun _ _ => id
      rintro (e | ⟨⟩) s' hs'
      · exact lands_pure.mpr hs'
      · simp only [lands_bind, lands_self]
        exact lands_debugAssert_or (lands_pure.mpr hs') hs'.1
    · rintro _ _ rfl
      exact hs
  · rintro _ _ rfl
    exact hs

theorem housed_reserve_len (hn : s.self.elems.len + n ≤ D) :
    Lands (reserve E n) s (fun _ s' => Housed E D doubles p s' ∧ s'.self.elems.len = s.self.elems.len)
      fun _ => Housed E D doubles p := by
  rw [reserve, lands_bind]
  apply lands_mono (housed_tryReserve hm hs hn) _ fun _ _ => id
  rintro (e | ⟨⟩) s' hs'
  · exact lands_throw.mpr hs'.1
  · exact lands_pure.mpr hs'

theorem housed_reserve (hn : s.self.elems.len + n ≤ D) :
    Lands (reserve E n) s (fun _ => Housed E D doubles p) fun _ => Housed E D doubles p :=
  lands_mono (housed_reserve_len hm hs hn) (fun _ _ => And.left) fun _ _ => id

/-- The exact request may leave the capacity as little larger as is asked for. -/
theorem housed_reserveExact (hd : doubles = false) (hn : s.self.elems.len + n ≤ D) :
    Lands (reserveExact E n) s (fun _ => Housed E D doubles p) fun _ => Housed E D doubles p := by
  have htwice := hm.twice
  rw [reserveExact, lands_bind]
  apply lands_mono lands_len
  · rintro _ s ⟨rfl, rfl⟩
    rw [if_pos (by omega), lands_bind]
    apply lands_mono (housed_reserveCapacity hm hs (by omega) fun h => absurd (hd.symm.trans h) Bool.false_ne_true) _ fun _ _ => id
    rintro (e | ⟨⟩) s' hs'
    · exact lands_throw.mpr hs'.1
    · simp only [unwrapAlloc, lands_bind, lands_pure, lands_self]
      exact lands_debugAssert_or hs'.1 hs'.1
  · rintro _ _ rfl
    exact hs

end Requests

/-! ## Methods that add one element -/

section One
variable (hm : Measured E D) (hs : Housed E D doubles p s) (hroom : s.self.elems.len < D)
include hm hs hroom

theorem housed_reserveIfFull_len :
    Lands (reserveIfFull E) s (fun _ s' => Housed E D doubles p s' ∧ s'.self.elems.len = s.self.elems.len)
      fun _ => Housed E D doubles p := by
  simp only [reserveIfFull, isFull, lands_bind]
  apply lands_mono lands_len
  · rintro _ s ⟨rfl, rfl⟩
    simp only [lands_self, lands_pure, lands_ite]
    exact ⟨fun _ => housed_tryReserve hm hs hroom, fun _ => ⟨hs, trivial⟩⟩
  · rintro _ _ rfl
    exact hs

theorem housed_reserveIfFull : Lands (reserveIfFull E) s (fun _ => Housed E D doubles p) fun _ => Housed E D doubles p :=
  lands_mono (housed_reserveIfFull_len hm hs hroom) (fun _ _ => And.left) fun _ _ => id

omit hm hs hroom in
theorem housed_dropValue {v : T} : Preserves (Housed E D doubles p) (dropValue E v) := housed_of_seated fun _ _ => seated_dropValue

omit hm hs hroom in
theorem housed_unwrapPush (r : Except (T × AllocError) Unit) : Preserves (Housed E D doubles p) (unwrapPush E r : DeqM T β Unit) :=
  housed_of_seated fun _ _ => seated_unwrapPush r

theorem housed_tryPushFront {v : T} : Lands (tryPushFront E v) s (fun _ => Housed E D doubles p) fun _ => Housed E D doubles p := by
  apply ((housed_reserveIfFull hm hs hroom).andThen _).unwound housed_dropValue
  rintro (e | _)
  · exact preserves_pure
  · exact housed_of_seated fun _ _ =>
      seated_moveHeadUnchecked.bind fun _ => seated_unwrapIndex.bind fun _ => seated_writeSlot.bind fun _ => preserves_pure

theorem housed_tryPushBack {v : T} : Lands (tryPushBack E v) s (fun _ => Housed E D doubles p) fun _ => Housed E D doubles p := by
  apply ((housed_reserveIfFull hm hs hroom).andThen _).unwound housed_dropValue
  rintro (e | _)
  · exact preserves_pure
  · exact housed_of_seated fun _ _ => seated_moveTailUnchecked.bind fun _ => seated_len.bind fun _ =>
      preserves_usizeSub.bind fun _ => seated_unwrapIndex.bind fun _ => seated_writeSlot.bind fun _ => preserves_pure

theorem housed_pushFront {v : T} : Lands (pushFront E v) s (fun _ => Housed E D doubles p) fun _ => Housed E D doubles p :=
  (housed_tryPushFront hm hs hroom).andThen housed_unwrapPush

theorem housed_pushBack {v : T} : Lands (pushBack E v) s (fun _ => Housed E D doubles p) fun _ => Housed E D doubles p :=
  (housed_tryPushBack hm hs hroom).andThen housed_unwrapPush

theorem housed_insert {i : Nat} {v : T} : Lands (insert E i v) s (fun _ => Housed E D doubles p) fun _ => Housed E D doubles p := by
  refine Lands.unwound ?_ housed_dropValue
  rw [lands_bind]
  apply lands_mono lands_len
  · rintro _ s ⟨rfl, rfl⟩
    rw [lands_bind, lands_assert]
    refine ⟨fun _ => (housed_reserveIfFull hm hs hroom).andThen fun r => housed_of_seated fun _ _ => ?_, fun _ => hs⟩
    exact (seated_unwrapAlloc r).bind fun _ => seated_len.bind fun _ => preserves_ite
      (fun _ => seated_copySlots.bind fun _ => seated_moveTailUnchecked.bind fun _ => seated_writeSlot)
      fun _ => seated_moveHeadUnchecked.bind fun _ => seated_copySlots.bind fun _ => seated_writeSlot
  · rintro _ _ rfl
    exact hs

end One

/-! ## Loops -/

/-- Every round looks at the length first. -/
theorem housed_resizeLoop {v : T} (hm : Measured E D) (hn : n ≤ D) (todo : Nat) :
    Preserves (Housed E D doubles p) (resizeLoop E n v todo) := by
  have hproduce : Preserves (Housed E D doubles p) (produce fun k => E.cloneOf k v) := housed_of_seated fun _ _ => seated_produce
  induction todo with
  | zero => exact preserves_pure
  | succ todo ih =>
    intro s hs
    rw [resizeLoop, lands_bind]
    apply lands_mono lands_len
    · rintro _ s ⟨rfl, rfl⟩
      rw [lands_when]
      refine ⟨fun hlt => ?_, fun _ => hs⟩
      rw [lands_bind]
      apply lands_mono ((hproduce _ hs).inter lands_produce_self) _ fun _ _ hp => hp.1
      rintro c s' ⟨hs', hself⟩
      exact (housed_pushBack hm hs' (by rw [hself]; omega)).andThen fun _ => ih
    · rintro _ _ rfl
      exact hs

section Loops
variable (hm : Measured E D) (hs : Housed E D doubles p s)
include hm hs

theorem housed_extendFromSlice {vs : List T} (hroom : s.self.elems.len + vs.length ≤ D) :
    Lands (extendFromSlice E vs) s (fun _ => Housed E D doubles p) fun _ => Housed E D doubles p :=
  (housed_reserve hm hs hroom).andThen fun _ => housed_of_seated fun _ _ =>
    seated_len.bind fun _ => seated_moveTailUnchecked.bind fun _ => seated_cloneFromSlice _ _

theorem housed_resizeDefault (hn : n ≤ D) :
    Lands (resizeDefault E n) s (fun _ => Housed E D doubles p) fun _ => Housed E D doubles p := by
  rw [resizeDefault, lands_bind]
  apply lands_mono lands_len
  · rintro _ s ⟨rfl, rfl⟩
    rw [lands_ite]
    refine ⟨fun hlt => ?_, fun _ => housed_of_seated (fun _ _ => seated_truncateBack) s hs⟩
    exact (housed_reserve hm hs (by omega)).andThen fun _ => housed_of_seated fun _ _ =>
      seated_len.bind fun _ => seated_extendWithLoop _ _
  · rintro _ _ rfl
    exact hs

theorem housed_resize {v : T} (hn : n ≤ D) :
    Lands (resize E n v) s (fun _ => Housed E D doubles p) fun _ => Housed E D doubles p := by
  have hasserts : Preserves (Housed E D doubles p) (do
      let l ← len E
      debugAssert E (l = n)) := housed_of_seated fun _ _ => seated_len.bind fun _ => preserves_debugAssert
  apply Lands.andThen _ fun _ => housed_dropValue
  refine Lands.unwound ?_ housed_dropValue
  rw [lands_bind]
  apply lands_mono lands_len
  · rintro _ s ⟨rfl, rfl⟩
    rw [lands_ite]
    refine ⟨fun hlt => ?_, fun _ => (housed_of_seated (fun _ _ => seated_truncateBack) s hs).andThen fun _ => hasserts⟩
    exact (housed_reserve hm hs (by omega)).andThen fun _ => (housed_resizeLoop hm hn _).bind fun _ => hasserts
  · rintro _ _ rfl
    exact hs

theorem housed_extendOne {hint : Nat × Option Nat} {v : T} (hroom : s.self.elems.len + (hint.2.getD hint.1 + 1) ≤ D) :
    Lands (extendOne E hint v) s (fun _ s' => Housed E D doubles p s' ∧ s'.self.elems.len = s.self.elems.len + 1)
      fun _ => Housed E D doubles p := by
  have hbounds : 2 * isizeBound = usizeBound := rfl
  have htwice := hm.twice
  refine lands_onPanic ?_ fun _ => housed_dropValue
  rw [lands_bind]
  apply lands_mono lands_len
  · rintro _ s ⟨rfl, rfl⟩
    rw [lands_bind, lands_self, lands_bind]
    have hgrow : Lands (when (s.self.elems.len = s.self.capacity) do
        let additionalCap ← hintedCap hint
        reserve E additionalCap) s (fun _ s' => Housed E D doubles p s' ∧ s'.self.elems.len = s.self.elems.len)
          fun _ => Housed E D doubles p := by
      rw [lands_when]
      refine ⟨fun _ => ?_, fun _ => ⟨hs, rfl⟩⟩
      rw [lands_bind, hintedCap, if_pos (by omega), lands_pure]
      exact housed_reserve_len hm hs hroom
    apply lands_mono hgrow _ fun _ _ => id
    rintro _ s₁ ⟨hs₁, hlen⟩
    rw [lands_bind]
    apply lands_mono lands_len
    · rintro _ s₁ ⟨rfl, rfl⟩
      rw [lands_bind, lands_self, lands_bind]
      apply lands_debugAssert_or _ hs₁
      rw [lands_bind]
      apply lands_mono ((housed_of_seated (fun _ _ => seated_writeSlot) s₁ hs₁).inter lands_writeSlot_elems) _ fun _ _ hp => hp.1
      rintro _ s₂ ⟨hs₂, helems⟩
      have hlen₂ : s₂.self.elems.len = s.self.elems.len := by rw [helems, hlen]
      rw [← hlen₂]
      exact lands_mono ((housed_of_seated (fun _ _ => seated_moveTailUnchecked) s₂ hs₂).inter
        (lands_moveTailUnchecked_one (by omega))) (fun _ _ => id) fun _ _ hp => hp.1
    · rintro _ _ rfl
      exact hs₁
  · rintro _ _ rfl
    exact hs

end Loops

/-- How far an iterator makes a deque of `n` elements reach, after `k` calls of `next`: every item
announces the ones behind it. -/
def reach (hint : Hint) : (n k : Nat) → List (Option T) → Nat
  | n, _, [] => n
  | n, k, _ :: rest => max (n + ((hint (k + 1)).2.getD (hint (k + 1)).1 + 1)) (reach hint (n + 1) (k + 1) rest)

theorem housed_extendDesugared {hint : Hint} (hm : Measured E D) (iter : List (Option T)) (k : Nat) (hs : Housed E D doubles p s)
    (hroom : reach hint s.self.elems.len k iter ≤ D) :
    Lands (extendDesugared E hint k iter) s (fun _ => Housed E D doubles p) fun _ => Housed E D doubles p := by
  induction iter generalizing k s with
  | nil => exact lands_pure.mpr hs
  | cons next rest ih =>
    rw [reach] at hroom
    rw [extendDesugared, lands_bind]
    apply lands_mono ((housed_of_seated (fun _ _ => seated_produce) s hs).inter lands_produce_self) _ fun _ _ hp => hp.1
    rintro c s₁ ⟨hs₁, hself⟩
    rw [lands_bind]
    apply lands_mono (housed_extendOne hm hs₁ (by rw [hself]; omega)) _ fun _ _ => id
    rintro _ s₂ ⟨hs₂, hlen⟩
    exact ih (k + 1) hs₂ (by rw [hlen, hself]; omega)

/-! ## Methods that make another deque -/

section Drop
variable {t : Frame X T}

theorem unmapped_dropValue {v : T} : Preserves (Unmapped t) (dropValue E v) := by
  intro t' ht
  simp only [dropValue, lands_bind, lands_world, lands_modifyWorld, lands_when, lands_throw]
  exact ⟨fun _ => ht, fun _ => ht⟩

theorem unmapped_dropInPlace {vs : List T} : Preserves (Unmapped t) (dropInPlace E vs) := by
  induction vs with
  | nil => exact preserves_pure
  | cons v vs ih => exact (unmapped_dropValue.onPanic ih).bind fun _ => ih

theorem unmapped_drop {d : SliceDeque β} : Preserves (Unmapped t) (drop E d) := by
  refine Preserves.bind (Preserves.onPanic ?_ unmapped_bufferDrop) fun _ => unmapped_bufferDrop
  exact Preserves.bind (preserves_ite (fun _ => preserves_pure) fun _ => preserves_throw) fun _ => unmapped_dropInPlace

end Drop

theorem housed_drop {d : SliceDeque β} : Preserves (Housed E D doubles p) (drop E d : DeqM T β Unit) := fun s hs =>
  lands_mono (unmapped_drop (t := s) s ⟨rfl, rfl⟩) (fun _ _ h => hs.unmapped h) fun _ _ h => hs.unmapped h

theorem housed_onLocal {y : SliceDeque β} {m : DeqM T β α} (h : ∀ d w, Preserves (Seated d w) m) :
    Preserves (Housed E D doubles p) (onLocal y m : DeqM T β (α × SliceDeque β)) := by
  intro s hs
  have hmapped : ∀ t : Frame (SliceDeque β) T, Seated y s.world t → Housed E D doubles p ⟨s.self, t.world⟩ := fun t ht =>
    hs.unmapped ⟨rfl, ht.mapped_eq⟩
  exact lands_onLocal.mpr (lands_mono (h y s.world ⟨y, s.world⟩ ⟨rfl, rfl⟩) (fun _ t => hmapped t) fun _ t => hmapped t)

section Room
variable {d : SliceDeque β} {w : World T} (hs : Seated d w s)
include hs

theorem lands_pushBack_room {v : T} (hroom : s.self.elems.len < d.capacity) (hlt : s.self.elems.len + 1 < isizeBound) :
    Lands (pushBack E v) s (fun _ s' => Seated d w s' ∧ s'.self.elems.len = s.self.elems.len + 1) fun _ => Seated d w := by
  have hpush : Lands (tryPushBack E v) s (fun r s' => r = .ok () ∧ Seated d w s' ∧ s'.self.elems.len = s.self.elems.len + 1)
      fun _ => Seated d w := by
    refine lands_onPanic ?_ fun _ => seated_dropValue
    rw [lands_bind]
    apply lands_mono (lands_reserveIfFull_room hs hroom)
    · rintro _ s ⟨rfl, rfl⟩
      rw [lands_bind]
      apply lands_mono ((seated_moveTailUnchecked _ hs).inter (lands_moveTailUnchecked_one hlt)) _ fun _ _ h => h.1
      rintro _ s₁ ⟨hs₁, hlen⟩
      rw [lands_bind]
      apply lands_mono lands_len
      · rintro _ s₁ ⟨rfl, rfl⟩
        rw [lands_bind]
        apply lands_mono (preserves_usizeSub (I := fun s' => s' = s₁) s₁ rfl)
        · rintro i s₁ rfl
          simp only [unwrapIndex, lands_bind, lands_self, lands_assert]
          refine ⟨fun _ => ?_, fun _ => hs₁⟩
          apply lands_mono ((seated_writeSlot _ hs₁).inter lands_writeSlot_elems) _ fun _ _ h => h.1
          rintro _ s₂ ⟨hs₂, helems⟩
          exact lands_pure.mpr ⟨rfl, hs₂, (congrArg Slice.len helems).trans hlen⟩
        · rintro _ _ rfl
          exact hs₁
      · rintro _ _ rfl
        exact hs₁
    · rintro _ _ rfl
      exact hs
  rw [pushBack, lands_bind]
  apply lands_mono hpush _ fun _ _ => id
  rintro _ s' ⟨rfl, hs'⟩
  exact lands_pure.mpr hs'

theorem seated_pushClones {vs : List T} (hroom : s.self.elems.len + vs.length ≤ d.capacity)
    (hlt : s.self.elems.len + vs.length < isizeBound) : Lands (pushClones E vs) s (fun _ => Seated d w) fun _ => Seated d w := by
  induction vs generalizing s with
  | nil => exact lands_pure.mpr hs
  | cons v vs ih =>
    rw [List.length_cons] at hroom hlt
    rw [pushClones, lands_bind]
    apply lands_mono ((seated_produce _ hs).inter lands_produce_self) _ fun _ _ h => h.1
    rintro c s₁ ⟨hs₁, hself⟩
    rw [lands_bind]
    apply lands_mono (lands_pushBack_room hs₁ (by rw [hself]; omega) (by rw [hself]; omega)) _ fun _ _ => id
    rintro _ s₂ ⟨hs₂, hlen⟩
    exact ih hs₂ (by rw [hlen, hself]; omega) (by rw [hlen, hself]; omega)

end Room

section Others
variable (hm : Measured E D) (hs : Housed E D doubles p s) (hlen : s.self.elems.len ≤ D)
include hm hs hlen

theorem housed_shrinkToFit (hd : doubles = false) :
    Lands (shrinkToFit E) s (fun _ => Housed E D doubles p) fun _ => Housed E D doubles p := by
  rw [shrinkToFit, lands_bind, lands_self, lands_ite]
  refine ⟨fun _ => lands_pure.mpr hs, fun _ => ?_⟩
  rw [lands_bind]
  apply lands_mono lands_len
  · rintro _ s ⟨rfl, rfl⟩
    rw [lands_bind]
    apply lands_mono (lands_withCapacity hm (by omega))
    · rintro d s₁ ⟨⟨hself, hmaps⟩, -, hsize, -⟩
      have hs₁ := hs.mapped hmaps (congrArg seat hself)
      rw [lands_ite]
      refine ⟨fun _ => ?_, fun _ => housed_drop _ hs₁⟩
      rw [lands_bind, copyAt, lands_ite]
      refine ⟨fun _ => ?_, fun _ => lands_throw.mpr hs₁⟩
      rw [lands_pure, lands_bind, lands_setSelf]
      exact housed_drop _ (hs₁.moved rfl hsize fun h => absurd (hd.symm.trans h) Bool.false_ne_true)
    · rintro _ s' ⟨hself, hmaps⟩
      exact hs.mapped hmaps (congrArg seat hself)
  · rintro _ _ rfl
    exact hs

theorem housed_splitOff {i : Nat} :
    Lands (splitOff E i) s (fun _ => Housed E D doubles p) fun _ => Housed E D doubles p := by
  rw [splitOff, lands_bind]
  apply lands_mono lands_len
  · rintro _ s ⟨rfl, rfl⟩
    rw [lands_bind, lands_assert]
    refine ⟨fun _ => ?_, fun _ => hs⟩
    rw [lands_bind]
    apply lands_mono (lands_withCapacity hm (by omega))
    · rintro d s₁ ⟨⟨hself, hmaps⟩, -⟩
      refine Lands.andThen (preserves_isize _ (hs.mapped hmaps (congrArg seat hself))) fun x => ?_
      apply Preserves.bind (housed_of_seated fun _ _ => seated_moveTailUnchecked)
      intro _
      apply (housed_onLocal fun _ _ => seated_moveTailUnchecked).bind
      intro r
      apply Preserves.bind (housed_of_seated fun _ _ => seated_read)
      intro d'
      exact Preserves.bind (preserves_ite (fun _ => preserves_pure) fun _ => preserves_throw) fun _ => preserves_pure
    · rintro _ s' ⟨hself, hmaps⟩
      exact hs.mapped hmaps (congrArg seat hself)
  · rintro _ _ rfl
    exact hs

/-- The clone is made in the memory that it starts with. -/
theorem housed_clone : Lands (clone E) s (fun _ => Housed E D doubles p) fun _ => Housed E D doubles p := by
  have hbounds : 2 * isizeBound = usizeBound := rfl
  have htwice := hm.twice
  rw [clone, lands_bind]
  apply lands_mono lands_len
  · rintro _ s ⟨rfl, rfl⟩
    rw [lands_bind]
    apply lands_mono (lands_withCapacity hm (by omega))
    · rintro d s₁ ⟨⟨hself, hmaps⟩, hcap, -, hzero⟩
      have hs₁ := hs.mapped hmaps (congrArg seat hself)
      rw [lands_bind, lands_self, lands_bind, readRange, lands_ite]
      refine ⟨fun _ => lands_pure.mpr ?_, fun _ => lands_throw.mpr hs₁⟩
      have hpush : ∀ vs : List T, vs.length = s.self.elems.len → Lands (onPanic (pushClones E vs) (dropSelf E)) ⟨d, s₁.world⟩
          (fun _ t => t.world.mapped = s₁.world.mapped) fun _ t => t.world.mapped = s₁.world.mapped := by
        intro vs hvs
        have hfill : Lands (pushClones E vs) ⟨d, s₁.world⟩ (fun _ => Seated d s₁.world) fun _ => Seated d s₁.world := by
          apply seated_pushClones ⟨rfl, rfl⟩
          · show d.elems.len + vs.length ≤ d.capacity
            omega
          · show d.elems.len + vs.length < isizeBound
            omega
        refine lands_onPanic (lands_mono hfill (fun _ _ => Seated.mapped_eq) fun _ _ => Seated.mapped_eq) fun _ t ht => ?_
        rw [dropSelf, lands_bind, lands_self]
        exact lands_mono (unmapped_drop (t := t) t ⟨rfl, rfl⟩) (fun _ _ h => h.2.trans ht) fun _ _ h => h.2.trans ht
      rw [lands_bind, lands_onLocal]
      apply lands_mono (hpush _ (by rw [hself]; exact Mirror.elems_length _ _))
      · exact fun _ t ht => lands_pure.mpr (hs₁.unmapped ⟨rfl, ht⟩)
      · exact fun _ t ht => hs₁.unmapped ⟨rfl, ht⟩
    · rintro _ s' ⟨hself, hmaps⟩
      exact hs.mapped hmaps (congrArg seat hself)
  · rintro _ _ rfl
    exact hs

end Others

end SliceDeque
end Sdeq
