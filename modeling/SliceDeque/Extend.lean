import SliceDeque.Lib.Growth
import SliceDeque.Bulk

/-!
# Extending and collecting

`extend` and `collect` take the items of an iterator of the caller. They are
meant to be the loop that pushes every item, but they reserve for as many items
as the `size_hint` of the iterator lets them expect.
-/

set_option autoImplicit false

namespace Sdeq
open Exec SliceDeque

/-- An iterator of the caller: what its calls of `next` return, how often it was called, and its
`size_hint` after so many calls. -/
structure UserIter (T : Type) where
  rest : List (Option T)
  pulled : Nat
  hint : Hint

def UserIter.next {T : Type} : Method T (UserIter T) (Option T) := do
  let it ← self
  match it.rest with
  | [] => pure none
  | x :: rest => do
    setSelf { it with rest := rest, pulled := it.pulled + 1 }
    let v ← produce fun _ => x
    pure (some v)

/-- It owns nothing that is known to the deque. -/
def UserIter.owner {T : Type} : Owner (UserIter T) T := ⟨fun _ => True, fun _ => [], fun _ => []⟩

namespace SliceDeque
variable {T β X : Type} (E : Env T β)

/-- `from_iter_default` -/
def fromIter (iter : UserIter T) : Method T X (SliceDeque β) :=
  match iter.rest with
  | [] => pure (new E)
  | x :: rest => do
    let element ← produce fun _ => x
    let lower := (iter.hint (iter.pulled + 1)).1
    let deque ← onPanic (withCapacity E (min (lower + 1) (usizeBound - 1))) (dropValue E element)
    let r ← onLocal deque (onPanic (do
      writeSlot E 0 element
      moveTailUnchecked E 1
      extendDesugared E iter.hint (iter.pulled + 1) rest) (dropSelf E))
    pure r.2

end SliceDeque

/-- The loop that `extend` is documented to be equivalent to. -/
def SliceDeque.pushLoop {T β : Type} (E : Env T β) : List (Option T) → DeqM T β Unit
  | [] => pure ()
  | next :: rest => do
    let x ← produce fun _ => next
    pushBack E x
    pushLoop E rest

/-! ## A limited allocator -/

section Limited
variable {T β : Type} (E : Env T β) (L : Nat)

/-- The allocator maps what is not larger than its limit. -/
def Limited : Prop := ∀ k n, (∃ r, E.allocate k n = .ok r) ↔ n ≤ L

/-- A buffer for `n` elements can be had. -/
def Granted (n : Nat) : Prop :=
  2 * n < usizeBound ∧ (E.layout.size ≠ 0 → E.layout.align ≤ E.granularity ∧ Buffer.byteSize E (2 * n) ≤ L)

instance (n : Nat) : Decidable (Granted E L n) := inferInstanceAs (Decidable (_ ∧ _))

variable {E L} {s s' : Frame (SliceDeque β) T} {n m a : Nat}

theorem Granted.fits (h : Granted E L n) (hlim : Limited E L) : Buffer.Fits E (2 * n) := by
  by_cases hs : E.layout.size = 0
  · exact Buffer.fits_of_no_bytes (by rw [hs, Nat.mul_zero])
  obtain ⟨⟨base, bytes⟩, ha⟩ := (hlim 0 _).mpr (h.2 hs).2
  have hge : (E.granularity : Int) ≤ base := Int.le_of_dvd (E.base_pos _ _ _ _ ha) (E.base_dvd _ _ _ _ ha)
  have hfits := E.base_fits _ _ _ _ ha
  have hle := Buffer.le_byteSize (E := E) (2 * n)
  have hpos := E.granularity_pos
  constructor <;> omega

/-- The capacity that was rounded up could have been asked for. -/
theorem Granted.of_le (h : Granted E L n) (hlim : Limited E L) (hm : m ≤ capFor E n) : Granted E L m := by
  unfold capFor Buffer.lenFor at hm
  by_cases hs : E.layout.size = 0
  · rw [if_pos hs, Buffer.emptyLen, if_pos hs] at hm
    refine ⟨?_, fun h => absurd hs h⟩
    unfold isizeBound usizeBound at *
    omega
  · obtain ⟨hal, hL⟩ := h.2 hs
    have hfits := (h.fits hlim).2
    rw [if_neg hs] at hm
    split at hm
    · obtain rfl : m = 0 := by omega
      refine ⟨by decide, fun _ => ⟨hal, ?_⟩⟩
      exact (Buffer.byteSize_mono (Nat.zero_le _)).trans hL
    · have hbytes : 2 * m * E.layout.size ≤ Buffer.byteSize E (2 * n) := by
        rw [← Nat.le_div_iff_mul_le (Nat.pos_of_ne_zero hs)]
        omega
      have hge : 2 * m ≤ 2 * m * E.layout.size := Nat.le_mul_of_pos_right _ (Nat.pos_of_ne_zero hs)
      refine ⟨by omega, fun _ => ⟨hal, ?_⟩⟩
      exact (Rounding.evenSize_le E.granularity_pos (Buffer.byteSize_dvd _) (Buffer.byteSize_pos _) hbytes).trans hL

theorem Granted.le_capFor (h : Granted E L n) : n ≤ capFor E n := by
  unfold capFor
  by_cases hs : E.layout.size = 0
  · have hlt := h.1
    rw [Buffer.lenFor, if_pos hs, Buffer.emptyLen, if_pos hs]
    unfold isizeBound usizeBound at *
    omega
  · have hle := Buffer.le_lenFor (E := E) (n := 2 * n) hs
    omega

theorem granted_of_grown (hlim : Limited E L) (hg : SliceDeque.Grown E s s' n) (hlt : s.self.capacity < n) :
    Granted E L n := by
  have hcap := hg.cap_ge
  have hmax := hg.wf.cap_lt
  have hbounds : 2 * isizeBound = usizeBound := rfl
  refine ⟨by omega, fun hs => ?_⟩
  rcases hg.moved with rfl | ⟨-, hr⟩
  · omega
  · obtain ⟨base, bytes, ha, -⟩ := hr.memory hs
    have hlen : s'.self.buf.len ≠ 0 := by
      unfold capacity Buffer.cap at hcap
      omega
    exact ⟨(hg.wf.buf.alloc hs hlen).align_le, (hlim _ _).mp ⟨_, ha⟩⟩

namespace SliceDeque

theorem ends_reserveCapacity (hlim : Limited E L) (h : WF E s.self) (hc : s.self.capacity < n) (hg : Granted E L n) :
    Ends (reserveCapacity E n) s fun r s' => r = .ok () ∧ Grown E s s' n ∧ s'.self.capacity = capFor E n :=
  ends_reserveCapacity_granted h hc hg.1 (fun _ => hg.fits hlim)
    fun hs => ⟨(hg.2 hs).1, (hlim s.world.calls _).mpr (hg.2 hs).2⟩

section Full
variable (h : WF E s.self) (hfull : s.self.elems.len = s.self.capacity) (ha : 0 < a)
include h hfull ha

theorem growTarget_full : growTarget s.self a = max (s.self.elems.len + a) (2 * s.self.capacity) := by
  have hlt := h.cap_lt
  have hbounds : 2 * isizeBound = usizeBound := rfl
  rw [growTarget, if_pos (by omega), Nat.min_eq_left (by omega)]

theorem ends_tryReserve (hlim : Limited E L) (hg : Granted E L (max (s.self.elems.len + a) (2 * s.self.capacity))) :
    Ends (tryReserve E a) s fun r s' => r = .ok () ∧ Grown E s s' (max (s.self.elems.len + a) (2 * s.self.capacity)) ∧
      s'.self.capacity = capFor E (max (s.self.elems.len + a) (2 * s.self.capacity)) := by
  have htarget := growTarget_full h hfull ha
  have hfit := hg.1
  rw [tryReserve, ends_bind, ends_len h, ends_bind]
  apply ends_mono (ends_growPolicy h (by omega))
  intro _ _ hgrow
  rw [hgrow.1, hgrow.2, htarget, ends_bind]
  apply ends_mono (ends_reserveCapacity hlim h (by omega) hg)
  intro r s' hs'
  obtain ⟨rfl, hgrown, hcap⟩ := hs'
  have hge := hgrown.cap_ge
  rw [ends_bind, ends_self, ends_bind, ends_debugAssert (by omega), ends_pure]
  exact ⟨rfl, hgrown, hcap⟩

theorem granted_of_tryReserve (hlim : Limited E L) (hends : Ends (tryReserve E a) s fun r _ => r = .ok ()) :
    Granted E L (max (s.self.elems.len + a) (2 * s.self.capacity)) := by
  obtain ⟨r, s', -, rfl, hs'⟩ := hends.unique (hends.wp (wp_tryReserve h))
  rw [← growTarget_full h hfull ha]
  apply granted_of_grown hlim hs'
  rw [growTarget_full h hfull ha]
  omega

end Full

/-! ## Storing one item -/

/-- The value was stored behind the others, and the capacity is `c` now. -/
structure Stored (E : Env T β) (s s' : Frame (SliceDeque β) T) (v : T) (c : Nat) : Prop where
  effect : Effect E s s' (s.self.toList E ++ [v]) []
  capacity_eq : s'.self.capacity = c

/-- The capacity that a full deque asks for, with so many items behind the one to store. -/
def wanted (d : SliceDeque β) (ahead : Nat) : Nat := max (d.elems.len + ahead + 1) (2 * d.capacity)

/-- A full deque can store the value exactly if the capacity it asks for is granted. -/
structure Stores (E : Env T β) (L : Nat) (store : T → DeqM T β Unit) (ahead : Nat) : Prop where
  room : ∀ s v, WF E s.self → s.self.elems.len < s.self.capacity →
    Ends (store v) s fun _ s' => Stored E s s' v s.self.capacity
  full : ∀ s v, WF E s.self → s.self.elems.len = s.self.capacity → Granted E L (wanted s.self ahead) →
    Ends (store v) s fun _ s' => Stored E s s' v (capFor E (wanted s.self ahead))
  granted : ∀ s v, WF E s.self → s.self.elems.len = s.self.capacity → Ends (store v) s (fun _ _ => True) →
    Granted E L (wanted s.self ahead)

theorem ends_writeBack {v : T} (h : WF E s.self) (hroom : s.self.elems.len < s.self.capacity) :
    Ends (do
      writeSlot E s.self.elems.len v
      moveTailUnchecked E 1) s fun _ s' => Stored E s s' v s.self.capacity := by
  apply ends_iff.mpr ⟨_, wp_mono (wp_writeBack h hroom) (fun _ s' hs' => ⟨hs'.1, hs'.2⟩) fun _ _ => id⟩
  have hwrite : wp (writeSlot E s.self.elems.len v) s (fun _ s₁ => WF E s₁.self ∧ Rewritten s.self s₁.self) fun _ _ => False :=
    wp_writeSlot h (by omega) (by omega) fun d' hwf hr _ => ⟨hwf, hr⟩
  apply exact_seq exact_writeSlot hwrite
  intro _ s₁ hs₁
  obtain ⟨hwf, hr⟩ := hs₁
  have hcap := hr.capacity_eq
  exact exact_moveTailUnchecked (n := s.self.elems.len + 1) hwf (by rw [hr.elems_eq]; push_cast; rfl) (by omega)

theorem ends_storeBack {v : T} {s₁ : Frame (SliceDeque β) T} (heff : Effect E s s₁ (s.self.toList E) [])
    (hroom : s₁.self.elems.len < s₁.self.capacity) :
    Ends (do
      let l ← len E
      let d ← self
      debugAssert E (l < d.capacity)
      writeSlot E s.self.elems.len v
      moveTailUnchecked E 1) s₁ fun _ s' => Stored E s s' v s₁.self.capacity := by
  have hlen : s₁.self.elems.len = s.self.elems.len := by rw [heff.len_eq, toList_length]
  rw [ends_bind, ends_len heff.wf, ends_bind, ends_self, ends_bind, ends_debugAssert hroom, ← hlen]
  apply ends_mono (ends_writeBack heff.wf hroom)
  intro _ s' hs'
  have heff' := hs'.effect
  rw [heff.toList_eq] at heff'
  exact ⟨heff.trans heff', hs'.capacity_eq⟩

theorem ends_hintedCap {hint : Nat × Option Nat} {Q : Nat → Frame (SliceDeque β) T → Prop} :
    Ends (hintedCap hint) s Q ↔ hint.2.getD hint.1 + 1 < usizeBound ∧ Q (hint.2.getD hint.1 + 1) s := by
  rw [hintedCap, ends_ite, ends_pure]
  constructor
  · intro h
    by_cases hlt : hint.2.getD hint.1 + 1 < usizeBound
    · exact ⟨hlt, h.1 hlt⟩
    · exact absurd (h.2 hlt) not_ends_throw
  · exact fun h => ⟨fun _ => h.2, fun hge => absurd h.1 hge⟩

theorem ends_extendOne_room {hint : Nat × Option Nat} {v : T} (h : WF E s.self) (hroom : s.self.elems.len < s.self.capacity) :
    Ends (extendOne E hint v) s fun _ s' => Stored E s s' v s.self.capacity := by
  rw [extendOne, ends_onPanic, ends_bind, ends_len h, ends_bind, ends_self, ends_bind, ends_when]
  refine ⟨fun hfull => absurd hfull hroom.ne, fun _ => ?_⟩
  exact ends_storeBack (.refl h) hroom

theorem stores_extendOne (hlim : Limited E L) (hint : Nat × Option Nat) :
    Stores E L (extendOne E hint) (hint.2.getD hint.1) := by
  constructor
  · exact fun s v h hroom => ends_extendOne_room h hroom
  · intro s v h hfull hg
    have hfit := hg.1
    unfold wanted at hfit
    rw [extendOne, ends_onPanic, ends_bind, ends_len h, ends_bind, ends_self, ends_bind, ends_when]
    refine ⟨fun _ => ?_, fun hne => absurd hfull hne⟩
    rw [ends_bind, ends_hintedCap, reserve, ends_bind]
    refine ⟨by omega, ?_⟩
    apply ends_mono (ends_tryReserve h hfull (Nat.succ_pos _) hlim hg)
    intro r s₁ hs₁
    obtain ⟨hr, hgrown, hcap⟩ := hs₁
    rw [ends_unwrapAlloc]
    refine ⟨hr, ?_⟩
    have hge := hgrown.cap_ge
    have hlen := hgrown.len_eq
    apply ends_mono (ends_storeBack (hgrown.effect h) (by omega))
    exact fun _ s' hs' => ⟨hs'.effect, hs'.capacity_eq.trans hcap⟩
  · intro s v h hfull hends
    rw [extendOne, ends_onPanic, ends_bind, ends_len h, ends_bind, ends_self, ends_bind, ends_when] at hends
    have hends := hends.1 hfull
    rw [ends_bind, ends_hintedCap, reserve, ends_bind] at hends
    apply granted_of_tryReserve h hfull (Nat.succ_pos _) hlim
    apply ends_mono hends.2
    exact fun r s₁ hs₁ => (ends_unwrapAlloc.mp hs₁).1

theorem ends_reserveIfFull {Q : Except AllocError Unit → Frame (SliceDeque β) T → Prop} (h : WF E s.self) :
    Ends (reserveIfFull E) s Q ↔ (s.self.elems.len = s.self.capacity → Ends (tryReserve E 1) s Q) ∧
      (s.self.elems.len ≠ s.self.capacity → Q (.ok ()) s) := by
  rw [reserveIfFull, isFull, ends_bind, ends_bind, ends_len h, ends_bind, ends_self, ends_pure, ends_ite, ends_pure]
  simp only [beq_iff_eq, ne_eq]

theorem ends_backSlot {v : T} (h : WF E s.self) (hroom : s.self.elems.len < s.self.capacity) :
    Ends (do
      moveTailUnchecked E 1
      let len ← len E
      let i ← usizeSub E len 1
      unwrapIndex i
      writeSlot E i v
      pure (.ok ())) s fun (r : Except (T × AllocError) Unit) s' => r = .ok () ∧ Stored E s s' v s.self.capacity := by
  apply ends_iff.mpr ⟨_, wp_backSlot h hroom fun s' heff hcap _ => ⟨rfl, heff, hcap⟩⟩
  have hmove : wp (moveTailUnchecked E 1) s (fun _ s₁ => s₁ = ⟨s.self.withLen (s.self.elems.len + 1), s.world⟩) fun _ _ => False :=
    wp_moveTailUnchecked (n := s.self.elems.len + 1) h (by push_cast; rfl) hroom rfl
  apply exact_seq (exact_moveTailUnchecked (n := s.self.elems.len + 1) h (by push_cast; rfl) hroom) hmove
  intro _ s₁ hs₁
  subst hs₁
  have hwf : WF E (s.self.withLen (s.self.elems.len + 1)) := h.withLen hroom
  apply exact_len_bind hwf
  apply exact_bind (exact_usizeSub (Nat.succ_pos _))
  intro i _
  apply exact_bind
  · exact exact_bind exact_self fun _ _ => exact_assert
  · exact fun _ _ => exact_bind exact_writeSlot fun _ _ => exact_pure

theorem ends_unwrapPush {r : Except (T × AllocError) Unit} {Q : Unit → Frame (SliceDeque β) T → Prop} :
    Ends (unwrapPush E r) s Q ↔ r = .ok () ∧ Q () s := by
  cases r with
  | error e =>
    obtain ⟨v, e⟩ := e
    rw [unwrapPush, ends_onPanic]
    exact ⟨fun h => absurd h not_ends_throw, fun h => nomatch h.1⟩
  | ok _ => simp [unwrapPush]

theorem stores_pushBack (hlim : Limited E L) : Stores E L (pushBack E) 0 := by
  constructor
  · intro s v h hroom
    rw [pushBack, tryPushBack, ends_bind, ends_onPanic, ends_bind, ends_reserveIfFull h]
    refine ⟨fun hfull => absurd hfull hroom.ne, fun _ => ?_⟩
    apply ends_mono (ends_backSlot h hroom)
    exact fun r s' hs' => ends_unwrapPush.mpr hs'
  · intro s v h hfull hg
    rw [pushBack, tryPushBack, ends_bind, ends_onPanic, ends_bind, ends_reserveIfFull h]
    refine ⟨fun _ => ?_, fun hne => absurd hfull hne⟩
    apply ends_mono (ends_tryReserve h hfull Nat.one_pos hlim hg)
    intro r s₁ hs₁
    obtain ⟨rfl, hgrown, hcap⟩ := hs₁
    have hge := hgrown.cap_ge
    have hlen := hgrown.len_eq
    have heff := hgrown.effect h
    apply ends_mono (ends_backSlot hgrown.wf (by omega))
    intro r s' hs'
    obtain ⟨hr, heff', hcap'⟩ := hs'
    rw [heff.toList_eq] at heff'
    exact ends_unwrapPush.mpr ⟨hr, heff.trans heff', hcap'.trans hcap⟩
  · intro s v h hfull hends
    rw [pushBack, tryPushBack, ends_bind, ends_onPanic, ends_bind, ends_reserveIfFull h] at hends
    apply granted_of_tryReserve h hfull Nat.one_pos hlim
    apply ends_mono (hends.1 hfull)
    intro r s₁ hs₁
    cases r with
    | error e =>
      rw [ends_pure, ends_unwrapPush] at hs₁
      exact absurd hs₁.1 (by simp)
    | ok _ => rfl

/-! ## Storing all items -/

/-- Take the items one by one; `store k` stores the one that the `k`-th call returns. -/
def storeAll (store : Nat → T → DeqM T β Unit) : (k : Nat) → List T → DeqM T β Unit
  | _, [] => pure ()
  | k, item :: rest => do
    let v ← produce fun _ => some item
    store (k + 1) v
    storeAll store (k + 1) rest

theorem extendDesugared_eq (hint : Hint) (items : List T) (k : Nat) :
    extendDesugared E hint k (items.map some) = storeAll (fun k => extendOne E (hint k)) k items := by
  induction items generalizing k with
  | nil => rfl
  | cons v rest ih =>
    rw [List.map_cons, extendDesugared, storeAll, ih]

theorem pushLoop_eq (items : List T) (k : Nat) :
    pushLoop E (items.map some) = storeAll (fun _ => pushBack E) k items := by
  induction items generalizing k with
  | nil => rfl
  | cons v rest ih =>
    rw [List.map_cons, pushLoop, storeAll, ih (k + 1)]

/-- All items are stored exactly if every capacity that is asked for on the way is granted. -/
theorem storeAll_iff {store : Nat → T → DeqM T β Unit} {ahead : Nat → Nat} (hstore : ∀ k, Stores E L (store k) (ahead k))
    {items : List T} {R : Frame (SliceDeque β) T → Prop} {k : Nat} {s : Frame (SliceDeque β) T} (h : WF E s.self)
    (hR : ∀ s', s'.self.toList E = s.self.toList E ++ items → R s') :
    Ends (storeAll store k items) s (fun _ s' => R s') ↔
      Growth.Affordable (Granted E L) (capFor E) ahead k items.length s.self.elems.len s.self.capacity := by
  induction items generalizing k s with
  | nil =>
    rw [storeAll, ends_pure]
    exact iff_of_true (hR s (List.append_nil _).symm) trivial
  | cons v rest ih =>
    rw [storeAll, ends_bind, ends_produce, List.length_cons, Growth.Affordable]
    have hrest : ∀ c s₁, Stored E ⟨s.self, s.world.produce [v]⟩ s₁ v c →
        (Ends (storeAll store (k + 1) rest) s₁ (fun _ s' => R s') ↔
          Growth.Affordable (Granted E L) (capFor E) ahead (k + 1) rest.length (s.self.elems.len + 1) c) := by
      intro c s₁ hs₁
      have heff := hs₁.effect
      have hlen := heff.len_eq
      rw [List.length_append, toList_length, List.length_singleton] at hlen
      have hih := ih (k := k + 1) heff.wf fun s' hs' => hR s' (by rw [hs', heff.toList_eq, List.append_assoc]; rfl)
      rwa [hlen, hs₁.capacity_eq] at hih
    split
    · rename_i hfull
      by_cases hg : Granted E L (wanted s.self (ahead (k + 1)))
      · rw [ends_bind_iff ((hstore (k + 1)).full ⟨s.self, s.world.produce [v]⟩ v h hfull hg) fun _ s₁ => hrest _ s₁]
        exact (and_iff_right hg).symm
      · apply iff_of_false
        · intro hends
          rw [ends_bind] at hends
          exact hg ((hstore (k + 1)).granted ⟨s.self, s.world.produce [v]⟩ v h hfull (ends_mono hends fun _ _ _ => trivial))
        · exact fun ha => hg ha.1
    · rename_i hfull
      have hroom := Nat.lt_of_le_of_ne h.len_le hfull
      exact ends_bind_iff ((hstore (k + 1)).room ⟨s.self, s.world.produce [v]⟩ v h hroom) fun _ s₁ => hrest _ s₁

/-- The number of items that a hint lets expect. -/
def expected (hint : Hint) (k : Nat) : Nat := (hint k).2.getD (hint k).1

/-- The requests of the loop of pushes are granted. -/
def Pushable (E : Env T β) (L n len cap : Nat) : Prop :=
  Growth.Affordable (Granted E L) (capFor E) (fun _ => 0) 0 n len cap

/-- The requests of `extend_desugared` are granted, after `k` calls of `next`. -/
def Extendable (E : Env T β) (L : Nat) (hint : Hint) (k n len cap : Nat) : Prop :=
  Growth.Affordable (Granted E L) (capFor E) (expected hint) k n len cap

instance (E : Env T β) (L : Nat) (hint : Hint) (k n len cap : Nat) : Decidable (Extendable E L hint k n len cap) :=
  inferInstanceAs (Decidable (Growth.Affordable (Granted E L) (capFor E) _ _ _ _ _))

section Requests
variable {items : List T} {R : Frame (SliceDeque β) T → Prop} (hlim : Limited E L) (h : WF E s.self)
  (hR : ∀ s', s'.self.toList E = s.self.toList E ++ items → R s')
include hlim h hR

theorem pushLoop_iff : Ends (pushLoop E (items.map some)) s (fun _ s' => R s') ↔
    Pushable E L items.length s.self.elems.len s.self.capacity := by
  rw [pushLoop_eq items 0]
  exact storeAll_iff (fun _ => stores_pushBack hlim) h hR

theorem extendDesugared_iff {hint : Hint} {k : Nat} :
    Ends (extendDesugared E hint k (items.map some)) s (fun _ s' => R s') ↔
      Extendable E L hint k items.length s.self.elems.len s.self.capacity := by
  rw [extendDesugared_eq]
  exact storeAll_iff (fun k => stores_extendOne hlim (hint k)) h hR

end Requests

/-! ## Collecting -/

section Collect
variable {X : Type} {t : Frame X T}

theorem ends_withCapacity (hlim : Limited E L) (hg : Granted E L n) :
    Ends (withCapacity E n) t fun d t' =>
      Created E t t' d [] ∧ d.elems = ⟨d.buf.ptr.mirror.base, 0⟩ ∧ d.capacity = capFor E n := by
  have hends : Ends (withCapacity E n) t fun _ _ => True := by
    by_cases hs : E.layout.size = 0
    · rw [withCapacity, ends_bind, ends_usize, ends_bind, Buffer.uninitialized, if_pos hs, ends_pure, ends_pure]
      exact ⟨hg.1, trivial⟩
    · apply ends_iff.mpr ⟨exact_withCapacity (.inr ⟨hg.1, fun _ _ => hg.fits hlim⟩), _⟩
      apply wp_mono wp_withCapacity fun _ _ _ => trivial
      rintro p t' (⟨-, ⟨-, hover⟩ | ⟨-, -, hal⟩⟩ | ⟨e, -, -, hr, -⟩)
      · exact hover ⟨hg.1, hg.fits hlim⟩
      · exact absurd (hg.2 hs).1 (Nat.not_le.mpr hal)
      · obtain ⟨r, hr'⟩ := (hlim t.world.calls _).mpr (hg.2 hs).2
        rw [hr'] at hr
        cases hr
  apply ends_mono (hends.wp wp_withCapacity)
  exact fun d t' hd => ⟨hd.1, hd.2.2.1, hd.2.2.2.1⟩

theorem granted_of_withCapacity (hlim : Limited E L) (hn : 0 < n) (hends : Ends (withCapacity E n) t fun _ _ => True) :
    Granted E L n := by
  rw [withCapacity, ends_bind, ends_usize, ends_bind] at hends
  refine ⟨hends.1, fun hs => ?_⟩
  obtain ⟨r, t', -, hr, hb⟩ := hends.2.unique (hends.2.wp (Buffer.wp_uninitialized (by omega)))
  cases r with
  | error e => exact absurd hr not_ends_throw
  | ok b =>
    obtain ⟨base, bytes, ha, -⟩ := hb.fresh hs (by omega)
    exact ⟨hb.align_le hs, (hlim _ _).mp ⟨_, ha⟩⟩

/-- The requests of `from_iter` are granted: that for the first item, and those of the extension by the others. -/
def Collectable (E : Env T β) (L : Nat) (hint : Hint) : Nat → Prop
  | 0 => True
  | n + 1 => Granted E L (min ((hint 1).1 + 1) (usizeBound - 1)) ∧
    Extendable E L hint 1 n 1 (capFor E (min ((hint 1).1 + 1) (usizeBound - 1)))

instance (E : Env T β) (L : Nat) (hint : Hint) : (n : Nat) → Decidable (Collectable E L hint n)
  | 0 => isTrue trivial
  | _ + 1 => inferInstanceAs (Decidable (_ ∧ _))

theorem fromIter_iff {hint : Hint} {items : List T} (hlim : Limited E L) :
    Ends (fromIter E ⟨items.map some, 0, hint⟩) t (fun d _ => d.toList E = items) ↔ Collectable E L hint items.length := by
  cases items with
  | nil => simp [fromIter, Collectable, toList_new]
  | cons v rest =>
    simp only [fromIter, List.map_cons, List.length_cons, Collectable]
    rw [ends_bind, ends_produce]
    by_cases hg : Granted E L (min ((hint 1).1 + 1) (usizeBound - 1))
    · rw [ends_bind_iff (ends_onPanic.mpr (ends_withCapacity hlim hg)), and_iff_right hg]
      intro d t₁ hd
      obtain ⟨hc, hstart, hcap⟩ := hd
      have hlen : d.elems.len = 0 := by rw [hstart]
      have hroom : d.elems.len < d.capacity := by
        have hle := hg.le_capFor
        unfold usizeBound at *
        omega
      have hstore := ends_writeBack (s := ⟨d, t₁.world⟩) (v := v) hc.wf hroom
      have hempty : d.toList E = [] := List.eq_nil_of_length_eq_zero (by rw [toList_length, hlen])
      have hstored : Ends (writeSlot E 0 v) ⟨d, t₁.world⟩ fun _ s₁ => Ends (moveTailUnchecked E 1) s₁ fun _ s₂ =>
          Stored E ⟨d, t₁.world⟩ s₂ v d.capacity := by
        have hstore := ends_writeBack (s := ⟨d, t₁.world⟩) (v := v) hc.wf hroom
        rwa [ends_bind, hlen] at hstore
      have hrest : ∀ s₂, Stored E ⟨d, t₁.world⟩ s₂ v d.capacity →
          (Ends (extendDesugared E hint 1 (rest.map some)) s₂ (fun _ s' => s'.self.toList E = v :: rest) ↔
            Extendable E L hint 1 rest.length 1 (capFor E (min ((hint 1).1 + 1) (usizeBound - 1)))) := by
        intro s₂ hs₂
        have heff := hs₂.effect
        have hlist : s₂.self.toList E = [v] := by rw [heff.toList_eq, hempty, List.nil_append]
        have hone : s₂.self.elems.len = 1 := by rw [← toList_length (E := E), hlist, List.length_singleton]
        rw [extendDesugared_iff (R := fun s' => s'.self.toList E = v :: rest) hlim heff.wf, hone, hs₂.capacity_eq, hcap]
        intro s' hs'
        rw [hs', hlist, List.singleton_append]
      simp only [ends_bind, ends_onLocal, ends_onPanic, ends_pure]
      constructor
      · intro hends
        obtain ⟨_, s₁, -, hmove, hext⟩ := hstored.unique hends
        obtain ⟨_, s₂, -, hs₂, hext⟩ := hmove.unique hext
        exact (hrest s₂ hs₂).mp hext
      · intro ha
        apply ends_mono hstored
        intro _ s₁ hmove
        apply ends_mono hmove
        exact fun _ s₂ hs₂ => (hrest s₂ hs₂).mpr ha
    · apply iff_of_false
      · intro hends
        rw [ends_bind, ends_onPanic] at hends
        exact hg (granted_of_withCapacity hlim (by unfold usizeBound; omega) (ends_mono hends fun _ _ _ => trivial))
      · exact fun hc => hg hc.1

/-! ## Extending and pushing -/

/-- Extending a deque with the items does what pushing them does. -/
def ExtendPushes (E : Env T β) (hint : Hint) (items : List T) (s : Frame (SliceDeque β) T) : Prop :=
  ∀ ys, Ends (pushLoop E (items.map some)) s (fun _ s' => s'.self.toList E = ys) →
    ys = s.self.toList E ++ items ∧ Ends (extend E hint (items.map some)) s fun _ s' => s'.self.toList E = ys

/-- Collecting the items does what pushing them to a new deque does. -/
def CollectPushes (E : Env T β) (hint : Hint) (items : List T) (t : Frame X T) : Prop :=
  ∀ ys, Ends (pushLoop E (items.map some)) ⟨new E, t.world⟩ (fun _ s' => s'.self.toList E = ys) →
    ys = items ∧ Ends (fromIter E ⟨items.map some, 0, hint⟩) t fun d _ => d.toList E = ys

theorem extendPushes_iff {hint : Hint} {items : List T} (hlim : Limited E L) (h : WF E s.self) :
    ExtendPushes E hint items s ↔ (Pushable E L items.length s.self.elems.len s.self.capacity →
      Extendable E L hint 0 items.length s.self.elems.len s.self.capacity) := by
  have hpush := pushLoop_iff (R := fun s' => s'.self.toList E = s.self.toList E ++ items) hlim h fun _ => id
  have hextend : Ends (extend E hint (items.map some)) s (fun _ s' => s'.self.toList E = s.self.toList E ++ items) ↔
      Extendable E L hint 0 items.length s.self.elems.len s.self.capacity :=
    extendDesugared_iff (R := fun s' => s'.self.toList E = s.self.toList E ++ items) hlim h fun _ => id
  constructor
  · intro hpushes hp
    exact hextend.mp (hpushes _ (hpush.mpr hp)).2
  · intro himp ys hys
    have hp : Pushable E L items.length s.self.elems.len s.self.capacity :=
      (pushLoop_iff (R := fun _ => True) hlim h fun _ _ => trivial).mp (ends_mono hys fun _ _ _ => trivial)
    obtain ⟨_, s', -, rfl, hlist⟩ := hys.unique (hpush.mpr hp)
    rw [hlist]
    exact ⟨rfl, hextend.mpr (himp hp)⟩

theorem collectPushes_iff {hint : Hint} {items : List T} (hlim : Limited E L) :
    CollectPushes E hint items t ↔ (Pushable E L items.length 0 (new E).capacity → Collectable E L hint items.length) := by
  have hpush := pushLoop_iff (s := ⟨new E, t.world⟩) (R := fun s' => s'.self.toList E = items) hlim wf_new
    fun s' hs' => by rw [hs', toList_new, List.nil_append]
  have hcollect : Ends (fromIter E ⟨items.map some, 0, hint⟩) t (fun d _ => d.toList E = items) ↔
      Collectable E L hint items.length := fromIter_iff hlim
  constructor
  · intro hpushes hp
    exact hcollect.mp (hpushes _ (hpush.mpr hp)).2
  · intro himp ys hys
    have hp : Pushable E L items.length 0 (new E).capacity :=
      (pushLoop_iff (R := fun _ => True) hlim wf_new fun _ _ => trivial).mp (ends_mono hys fun _ _ _ => trivial)
    obtain ⟨_, s', -, rfl, hlist⟩ := hys.unique (hpush.mpr hp)
    rw [hlist]
    exact ⟨rfl, hcollect.mpr (himp hp)⟩

/-- `extend` and `from_iter` are the loop of pushes exactly if what they request is granted whenever the requests of that
loop are. -/
theorem extending_pushes_iff {hint : Hint} {items : List T} (t : Frame X T) (hlim : Limited E L) (h : WF E s.self) :
    (ExtendPushes E hint items s ↔ (Pushable E L items.length s.self.elems.len s.self.capacity →
      Extendable E L hint 0 items.length s.self.elems.len s.self.capacity)) ∧
    (CollectPushes E hint items t ↔ (Pushable E L items.length 0 (new E).capacity → Collectable E L hint items.length)) :=
  ⟨extendPushes_iff hlim h, collectPushes_iff hlim⟩

/-- The bounds are right before and after each of `n` items. -/
def Lawful (hint : Hint) (n : Nat) : Prop := ∀ k ≤ n, (hint k).1 ≤ n - k ∧ ∀ u ∈ (hint k).2, n - k ≤ u

instance (hint : Hint) (n : Nat) : Decidable (Lawful hint n) := inferInstanceAs (Decidable (∀ k ≤ n, _))

/-- With upper bounds there is one request, for as many items as the bound allows when the deque is full. -/
theorem extendable_iff_once {hint : Hint} (hlaw : Lawful hint n) (hupper : ∀ k, (hint k).2.isSome) {len cap : Nat} (hle : len ≤ cap) :
    Extendable E L hint 0 n len cap ↔
      len + n ≤ cap ∨ Granted E L (max (cap + expected hint (cap - len + 1) + 1) (2 * cap)) := by
  have hahead : ∀ j, 0 < j → j ≤ n → n - j ≤ expected hint (0 + j) := by
    intro j _ hj
    obtain ⟨u, hu⟩ := Option.isSome_iff_exists.mp (hupper j)
    rw [Nat.zero_add, expected, hu]
    exact (hlaw j hj).2 u hu
  have hround : ∀ m, Granted E L m → m ≤ capFor E m := fun _ hg => hg.le_capFor
  have honce := Growth.affordable_iff_once hahead hle hround
  rwa [Nat.zero_add] at honce

theorem granted_of_pushable_new (hlim : Limited E L) (hp : Pushable E L n 0 (new E).capacity) (hn : 0 < n) : Granted E L n := by
  rcases Nat.lt_or_ge (new E).capacity n with hlt | hge
  · exact Growth.granted_of_affordable (fun m n hg => hg.of_le hlim) hp hlt (by omega) (Nat.zero_le _) fun _ hg => hg.le_capFor
  · have hcap : (new E).capacity < isizeBound := wf_new.cap_lt
    have hbounds : 2 * isizeBound = usizeBound := rfl
    refine ⟨by omega, fun hs => ?_⟩
    have hzero : (new E).capacity = 0 := Buffer.cap_new hs
    omega

/-- For iterators of a known length nothing is requested that single pushes do not need. -/
theorem exact_hint_pushes {hint : Hint} {items : List T} (t : Frame X T) (hlim : Limited E L) (h : WF E s.self)
    (hexact : ∀ k ≤ items.length, hint k = (items.length - k, some (items.length - k))) :
    ExtendPushes E hint items s ∧ CollectPushes E hint items t := by
  have hclosed : ∀ m n, Granted E L n → m ≤ capFor E n → Granted E L m := fun m n hg => hg.of_le hlim
  have hround : ∀ n, Granted E L n → n ≤ capFor E n := fun _ hg => hg.le_capFor
  have hexpected : ∀ k ≤ items.length, expected hint k = items.length - k := by
    intro k hk
    rw [expected, hexact k hk, Option.getD_some]
  rw [extendPushes_iff hlim h, collectPushes_iff hlim]
  constructor
  · intro hp
    apply Growth.affordable_of_exact hclosed _ h.len_le hround hp
    intro j _ hj
    rw [Nat.zero_add, hexpected j hj]
  · intro hp
    cases items with
    | nil => trivial
    | cons v rest =>
      rw [List.length_cons] at hp hexact hexpected ⊢
      have hg : Granted E L (rest.length + 1) := granted_of_pushable_new hlim hp (Nat.succ_pos _)
      have hlower : min ((hint 1).1 + 1) (usizeBound - 1) = rest.length + 1 := by
        have hfit := hg.1
        rw [hexact 1 (by omega), Nat.add_sub_cancel]
        omega
      rw [Collectable, hlower]
      have hle := hg.le_capFor
      exact ⟨hg, Growth.affordable_of_room (by omega)⟩

end Collect

end SliceDeque

end Limited

/-! ## A loose bound -/

/-- The machine of `cells`, but it never runs out of memory. -/
def generous (debug : Bool) (size : Nat) (hs : 0 < size) : Env Nat Nat :=
  { cells debug size hs with
    allocate := fun k n => if n < 0x100000000 then .ok (0x100000000 * (k % 0x10000 + 1), fun _ => 0) else .error .oom
    base_dvd := by
      intro k n a f h
      split at h
      · cases h
        have hdvd : ((4096 : Nat) : Int) ∣ 0x100000000 := by decide
        exact Int.dvd_mul_of_dvd_left hdvd
      · cases h
    base_pos := by
      intro k n a f h
      split at h
      · cases h
        omega
      · cases h
    base_fits := by
      intro k n a f h
      split at h
      · cases h
        unfold usizeBound
        omega
      · cases h }

theorem limited_generous {debug : Bool} {size : Nat} {hs : 0 < size} : Limited (generous debug size hs) 0xffffffff := by
  intro k n
  simp only [generous]
  constructor
  · rintro ⟨r, h⟩
    split at h
    · omega
    · cases h
  · intro hn
    rw [if_pos (by omega)]
    exact ⟨_, rfl⟩

namespace SliceDeque

/-- Three items, of which the iterator says that there may be five thousand. -/
theorem sample_extending :
    let E := generous false 3 (by decide)
    let hint : Hint := fun k => (3 - k, some 5000)
    ExtendPushes E hint [10, 20, 30] ⟨new E, .start⟩ ∧ CollectPushes E hint [10, 20, 30] (⟨(), .start⟩ : Frame Unit Nat) := by
  intro E hint
  have hrequests : Extendable E 0xffffffff hint 0 3 0 (new E).capacity ∧ Collectable E 0xffffffff hint 3 := by decide +kernel
  constructor
  · exact (extending_pushes_iff (⟨(), .start⟩ : Frame Unit Nat) limited_generous wf_new).1.mpr fun _ => hrequests.1
  · exact (extending_pushes_iff (s := ⟨new E, .start⟩) _ limited_generous wf_new).2.mpr fun _ => hrequests.2

/-- A single item, of which the iterator knows no bound but `usize::MAX`. -/
theorem extend_overflows :
    let E := cells false 1 (by decide)
    let s : Frame (SliceDeque Nat) Nat := ⟨new E, .start⟩
    let hint : Hint := fun _ => (0, some (usizeBound - 1))
    let pushed := pushLoop E [some 7] s
    Lawful hint 1 ∧ pushed.wrapped = false ∧ pushed.result = .ok () ∧ pushed.state.self.toList E = [7] ∧
      (extend E hint [some 7] s).result = .error .overflow := by
  decide +kernel

end SliceDeque

/-! ## User iterators -/

section UserIter
variable {T β X ι : Type} {E : Env T β} {O : Owner X T} {f : T → ι} {t : Frame X T}

theorem UserIter.safe_next {s : Frame (UserIter T) T} :
    wp UserIter.next s (fun _ s' => Safe UserIter.owner s s' [])
      (fun p s' => p = .user ∧ Safe UserIter.owner s s' []) := by
  have hmade : ∀ (it : UserIter T) (vs : List T), Safe UserIter.owner s ⟨it, s.world.produce vs⟩ [] :=
    fun it vs => ⟨trivial, by simpa [UserIter.owner] using Trade.produce _ _ _⟩
  simp only [UserIter.next, wp_bind, wp_self]
  split
  · exact wp_pure.mpr (.refl trivial)
  · simp only [wp_bind, wp_setSelf]
    exact wp_produce (fun v _ => wp_pure.mpr (hmade _ _)) fun _ => ⟨rfl, hmade _ _⟩

/-- Items that are not refused memory are stored in order. -/
theorem SliceDeque.wp_extendDesugared {hint : Hint} {items : List T} {k : Nat} {s : Frame (SliceDeque β) T} (h : WF E s.self) :
    wp (extendDesugared E hint k (items.map some)) s (fun _ s' => Change E s s' (s.self.toList E ++ items) [] items)
      fun p _ => Refusal E p := by
  induction items generalizing k s with
  | nil =>
    have hsame := Change.refl h
    rw [← List.append_nil (s.self.toList E)] at hsame
    exact wp_pure.mpr hsame
  | cons v rest ih =>
    rw [List.map_cons, extendDesugared, wp_bind]
    apply wp_produce _ fun hnone => absurd hnone (Option.some_ne_none v)
    intro x hx
    obtain rfl : v = x := Option.some.inj hx
    have hmade := (Change.refl h).produce [v]
    apply wp_seq (wp_extendOne (s := ⟨s.self, s.world.produce [v]⟩) h) _ fun _ _ hp => hp.1
    intro _ s₁ heff
    apply wp_mono (ih heff.wf) _ fun _ _ => id
    intro _ s' hs'
    have hall := (hmade.trans heff).trans hs'
    rwa [heff.toList_eq, List.append_assoc] at hall

/-- Items that are not refused memory are collected in order. -/
theorem SliceDeque.wp_fromIter {iter : UserIter T} {items : List T} (hi : iter.rest = items.map some) :
    wp (fromIter E iter) t (fun d t' => WF E d ∧ d.toList E = items ∧ t'.self = t.self ∧ t'.world.destroyed = t.world.destroyed)
      fun p _ => Refusal E p := by
  cases items with
  | nil =>
    rw [fromIter, hi]
    exact wp_pure.mpr ⟨wf_new, toList_new, rfl, rfl⟩
  | cons v rest =>
    simp only [fromIter, hi, List.map_cons, wp_bind]
    apply wp_produce _ fun hnone => absurd hnone (Option.some_ne_none v)
    intro x hx
    obtain rfl : v = x := Option.some.inj hx
    apply wp_onPanic (P := fun p _ => Refusal E p) _ fun p t' hp => wp_mono (wp_trivial _ _) (fun _ _ _ => hp) fun _ _ _ => hp
    apply wp_mono wp_withCapacity _ fun p t' hp => hp.untouched.1
    intro d t₁ hd
    obtain ⟨hc, hcap, hstart, -⟩ := hd
    have hlen : d.elems.len = 0 := by rw [hstart]
    have hempty : d.toList E = [] := List.eq_nil_of_length_eq_zero (by rw [toList_length, hlen])
    have hroom : d.elems.len < d.capacity := by
      unfold usizeBound at hcap
      omega
    have hdead : t₁.world.destroyed = t.world.destroyed := by
      rw [hc.log.destroyed_eq, List.append_nil]
      rfl
    rw [wp_onLocal]
    apply wp_onPanic (P := fun p _ => Refusal E p) _ fun p t' hp => wp_mono (wp_trivial _ _) (fun _ _ _ => hp) fun _ _ _ => hp
    have hwrite := wp_writeBack (s := ⟨d, t₁.world⟩) (v := v) (P := fun _ _ => False) hc.wf hroom
    simp only [hlen, Nat.cast_zero, wp_bind] at hwrite ⊢
    apply wp_mono hwrite _ fun _ _ => False.elim
    intro _ s₁ hs₁
    apply wp_mono hs₁ _ fun _ _ => False.elim
    intro _ s₂ hs₂
    apply wp_mono (wp_extendDesugared hs₂.1.wf) _ fun _ _ => id
    intro _ s' hs'
    have hall := hs₂.1.trans hs'
    rw [hs₂.1.toList_eq, hempty] at hall
    refine wp_pure.mpr ⟨hall.wf, hall.toList_eq, hc.self_eq, ?_⟩
    rw [hall.log.destroyed_eq, List.append_nil, List.append_nil]
    exact hdead

/-- Collecting makes a deque of what the iterator returns, or drops what it had so far. -/
theorem SliceDeque.conserves_fromIter {iter : UserIter T} (hok : O.ok t.self) :
    wp (fromIter E iter) t (fun d t' => WF E d ∧ t'.self = t.self ∧ Keeps O f t t' [] (d.toList E) (d.regions E))
      (Unwound E O f [] t) := by
  rw [fromIter]
  split
  · refine wp_pure.mpr ⟨wf_new, rfl, ?_⟩
    rw [toList_new, regions_new]
    exact .refl hok _
  · rename_i x rest _
    simp only [wp_bind]
    refine wp_produce (fun v _ => ?_) fun _ => .of_keeps clean_user ((Keeps.refl hok []).produce [])
    have hmade := (Keeps.refl (O := O) (f := f) hok []).produce [v]
    refine wp_onPanic (P := fun p t' => Refusal E p ∧ Untouched ⟨t.self, t.world.produce [v]⟩ t' [])
      (wp_mono wp_withCapacity ?_ fun _ _ hp => hp.untouched) ?_
    · rintro d t₁ ⟨hc, hcap, hstart, -⟩
      have hlen : d.elems.len = 0 := by rw [hstart]
      have hroom : d.elems.len < d.capacity := by
        unfold usizeBound at hcap
        omega
      have hk : Keeps O f t t₁ [] (d.toList E ++ [v]) (d.regions E) :=
        hmade.trans ((hc.keeps (f := f) (O := O) hok).frame [v])
      simp only [wp_onLocal]
      refine wp_onPanic (P := Unwound E (owner E) f [v] ⟨d, t₁.world⟩) ?_ ?_
      · have hwrite := wp_writeBack (s := ⟨d, t₁.world⟩) (v := v) (P := fun _ _ => False) hc.wf hroom
        simp only [hlen, Nat.cast_zero, wp_bind] at hwrite ⊢
        refine wp_mono hwrite (fun _ s₁ hs₁ => ?_) fun _ _ => False.elim
        refine wp_mono hs₁ (fun _ s₂ hs₂ => ?_) fun _ _ => False.elim
        have hk₂ : Keeps (owner E) f ⟨d, t₁.world⟩ s₂ [v] [] [] := hs₂.1.keeps (by simp)
        refine wp_mono (Conserves.after hk₂ (conserves_extendDesugared rest _ s₂ hk₂.ok)) (fun _ s' hs' => ?_) fun _ _ => id
        have hk' := hk.onLocal hs'
        rw [List.append_nil, List.append_nil] at hk'
        exact wp_pure.mpr ⟨hs'.ok, hc.self_eq, hk'⟩
      · rintro p t₂ ⟨hcl, lost, out, hl, ht⟩
        have hk' := hk.onLocal ht
        simp only [dropSelf, wp_bind, wp_self]
        refine wp_mono (wp_drop ht.ok) (fun _ t' hd => ⟨hcl, lost, out, hl, (hd.keeps hk' :)⟩) ?_
        exact fun _ t' hd => ⟨hcl, lost, out, hl, (hd.2.2.keeps hk' :)⟩
    · rintro p t' ⟨hr, hu⟩
      have hk := hmade.trans (hu.keeps (f := f) hok [v])
      refine wp_dropValue ?_ fun _ => ?_ <;> exact .of_keeps hr.clean hk.destroy

end UserIter

end Sdeq
