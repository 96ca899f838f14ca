import SliceDeque.Drain
import SliceDeque.Extend
import SliceDeque.IntoIter

/-!
# Splicing

`Splice` fills the range of its drain from an iterator of the caller and moves
the tail when there is more to store. Whatever user code does, the deque stays
well-formed.
-/

set_option autoImplicit false

namespace Sdeq
open Exec SliceDeque

namespace Drain
variable {T β Y : Type} (E : Env T β)

/-- Fill so many places from slot `i` on, as long as the iterator returns something. -/
def fillLoop (nextItem : Method T Y (Option T)) : (places i : Nat) → Method T (Drain β × Y) Bool
  | 0, _ => pure true
  | places + 1, i => do
    let r ← onPart Prod.snd (fun p y => (p.1, y)) nextItem
    match r with
    | none => pure false
    | some newItem => do
      onPart Prod.fst (fun p dr => (dr, p.2)) (onDeq do
        writeSlot E i newItem
        moveTailUnchecked E 1)
      fillLoop nextItem places (i + 1)

/-- `fill(replace_with)` -/
def fill (nextItem : Method T Y (Option T)) : Method T (Drain β × Y) Bool := do
  let p ← self
  fillLoop E nextItem (p.1.tailStart - p.1.deq.elems.len) p.1.deq.elems.len

/-- `move_tail_unchecked(extra_capacity)` of a drain -/
def moveTailUnchecked (extra : Nat) : Method T (Drain β) Unit := do
  let dr ← self
  let used ← usize E (dr.tailStart + dr.tailLen)
  let newCapacity ← usize E (used + extra)
  let r ← onDeq (reserveCapacity E newCapacity)
  match r with
  | .error e => throw (.alloc e)
  | .ok () => do
    let newTailStart ← usize E (dr.tailStart + extra)
    onDeq (copySlots E dr.tailStart newTailStart dr.tailLen)
    modify fun s => ⟨{ s.self with tailStart := newTailStart }, s.world⟩

end Drain

structure Splice (T β : Type) where
  drain : Drain β
  replaceWith : UserIter T

namespace Splice
variable {T β α : Type} (E : Env T β)

def onDrain (m : Method T (Drain β) α) : Method T (Splice T β) α :=
  onPart Splice.drain (fun sp dr => ⟨dr, sp.replaceWith⟩) m

def next : Method T (Splice T β) (Option T) := onDrain (Drain.next E)

def nextBack : Method T (Splice T β) (Option T) := onDrain (Drain.nextBack E)

/-- Take an item from one of the ends. -/
def pull : End → Method T (Splice T β) (Option T)
  | .front => next E
  | .back => nextBack E

/-- `size_hint` of the drain -/
def sizeHint (sp : Splice T β) : Nat × Option Nat := sp.drain.sizeHint

/-- Fill the range from `replace_with`. -/
def fill : Method T (Splice T β) Bool :=
  onPart (fun sp => (sp.drain, sp.replaceWith)) (fun _ p => ⟨p.1, p.2⟩) (Drain.fill E UserIter.next)

/-- Store collected items in front of the tail; the collection is dropped in any case. -/
def storeCollected : Method T (Drain β × IntoIter β) Unit := do
  onPanic (do
    let p ← self
    when (0 < (p.2.sizeHint E).1) do
      onPart Prod.fst (fun p dr => (dr, p.2)) (Drain.moveTailUnchecked E (p.2.sizeHint E).1)
      let filled ← Drain.fill E (IntoIter.next E)
      debugAssert E (filled = true)
      let p ← self
      debugAssert E ((p.2.sizeHint E).1 = 0))
    (onPart Prod.snd (fun p it => (p.1, it)) (IntoIter.drop E))
  onPart Prod.snd (fun p it => (p.1, it)) (IntoIter.drop E)

/-- Once the length of what is left of the iterator is known, it is stored. -/
def storeRest : Method T (Splice T β) Unit := do
  let sp ← self
  let deq ← fromIter E sp.replaceWith
  let collected ← intoIter E deq
  onDrain (withLocal collected (storeCollected E))

/-- The body of `Drop for Splice` -/
def replace : Method T (Splice T β) Unit := do
  let sp ← self
  onDrain (exhaust E (Drain.next E) sp.drain.iter.len)
  let sp ← self
  if sp.drain.tailLen = 0 then
    onDrain (Drain.onDeq
      (extendDesugared E sp.replaceWith.hint sp.replaceWith.pulled sp.replaceWith.rest))
  else do
    let filled ← fill E
    when (filled = true) do
      let sp ← self
      let lowerBound := (sp.replaceWith.hint sp.replaceWith.pulled).1
      let filled ← (if 0 < lowerBound then do
          onDrain (Drain.moveTailUnchecked E lowerBound)
          fill E
        else pure true)
      when (filled = true) (storeRest E)

/-- `Drop for Splice`, followed by the drop of its drain. -/
def drop : Method T (Splice T β) Unit := do
  onPanic (replace E) (onDrain (Drain.drop E))
  onDrain (Drain.drop E)

end Splice

/-- `splice(range, replace_with)` -/
def SliceDeque.splice {T β : Type} (E : Env T β) (start end_ : Bound) (replaceWith : UserIter T) : DeqM T β (Splice T β) := do
  let drain ← drain E start end_
  pure ⟨drain, replaceWith⟩

/-! ## Filling the gap -/

namespace Drain
variable {T β Y : Type} {E : Env T β} {O : Owner Y T}

/-- The items are gone, and the tail is to be moved back. -/
structure Gap (E : Env T β) (dr : Drain β) : Prop where
  wf : WF E dr.deq
  iter_len : dr.iter.len = 0
  tail_pos : 0 < dr.tailLen
  len_le : dr.deq.elems.len ≤ dr.tailStart
  tail_le : dr.tailStart + dr.tailLen ≤ dr.deq.capacity

def gapOwner (E : Env T β) : Owner (Drain β) T := ⟨Gap E, fun _ => [], fun dr => dr.deq.regions E⟩

theorem Gap.ok {dr : Drain β} (h : Gap E dr) : Ok E dr :=
  ⟨h.wf, fun h0 => absurd h.iter_len h0, fun _ => ⟨h.len_le, h.tail_le⟩⟩

/-- `fill` stops when the places or the items run out. `J n` says that `n` items, if any, can still
be taken without an end, and `N` that the iterator may end. -/
theorem safe_fillLoop {nextItem : Method T Y (Option T)} {J : Nat → Y → Prop} {N : Prop}
    (hnext : ∀ n t, O.ok t.self → J (n + 1) t.self →
      wp nextItem t (fun r t' => Safe O t t' [] ∧ (r = none → N) ∧ (r ≠ none → J n t'.self))
        (fun p t' => p = .user ∧ Safe O t t' [])) :
    ∀ (places i : Nat) (s : Frame (Drain β × Y) T), ((gapOwner E).prod O).ok s.self → J places s.self.2 →
      i = s.self.1.deq.elems.len → i + places = s.self.1.tailStart →
      wp (fillLoop E nextItem places i) s
        (fun r s' => Safe ((gapOwner E).prod O) s s' [] ∧ (r = false → N) ∧
          (r = true → s'.self.1.deq.elems.len = s'.self.1.tailStart ∧ J 0 s'.self.2))
        (fun p s' => p = .user ∧ Safe ((gapOwner E).prod O) s s' []) := by
  intro places
  induction places with
  | zero =>
    intro i s h hJ hi hplaces
    exact wp_pure.mpr ⟨.refl h, by simp, fun _ => ⟨by omega, hJ⟩⟩
  | succ places ih =>
    intro i s h hJ hi hplaces
    rw [fillLoop, wp_bind, wp_onPart]
    refine wp_mono (hnext places ⟨s.self.2, s.world⟩ h.2 hJ) ?_ fun p t ht => ⟨ht.1, ht.2.right h.1⟩
    rintro r t ⟨hsafe, hnone, hsome⟩
    have hs₁ : Safe ((gapOwner E).prod O) s ⟨(s.self.1, t.self), t.world⟩ [] := hsafe.right h.1
    cases r with
    | none => exact wp_pure.mpr ⟨hs₁, fun _ => hnone rfl, by simp⟩
    | some v =>
      have hgap : Gap E s.self.1 := h.1
      have htl := hgap.tail_le
      rw [wp_bind, wp_onPart, onDeq, wp_onPart, hi]
      refine wp_mono (wp_writeBack (s := ⟨s.self.1.deq, t.world⟩) (P := fun _ _ => False) hgap.wf
        (by dsimp only; have := hgap.tail_pos; omega)) ?_ fun _ _ => False.elim
      rintro _ s₂ ⟨heff, hcap⟩
      have hlen := heff.len_eq
      rw [List.length_append, toList_length, List.length_singleton] at hlen
      dsimp only at hlen hcap
      have hgap₂ : Gap E ⟨s.self.1.tailStart, s.self.1.tailLen, s.self.1.iter, s₂.self⟩ :=
        ⟨heff.wf, hgap.iter_len, hgap.tail_pos, by dsimp only; omega, by dsimp only; omega⟩
      have hs₂ : Safe (gapOwner E) ⟨s.self.1, t.world⟩
          ⟨⟨s.self.1.tailStart, s.self.1.tailLen, s.self.1.iter, s₂.self⟩, s₂.world⟩ [] :=
        ⟨hgap₂, heff.safe.trade⟩
      have hboth : Safe ((gapOwner E).prod O) _ _ [] := hs₂.left hsafe.ok
      have hsafe₂ := hs₁.trans hboth
      refine wp_mono (ih _ ⟨(⟨s.self.1.tailStart, s.self.1.tailLen, s.self.1.iter, s₂.self⟩, t.self), s₂.world⟩
        ⟨hgap₂, hsafe.ok⟩ (hsome (by simp)) (by dsimp only; omega) (by dsimp only; omega)) ?_ ?_
      · rintro r s' ⟨h', hN, hend⟩
        exact ⟨hsafe₂.trans h', hN, hend⟩
      · exact fun p s' hp => ⟨hp.1, hsafe₂.trans hp.2⟩

/-- The deque was grown to `s₁` if that was necessary, and the tail was copied behind the new places. -/
structure Moved (E : Env T β) (s s' : Frame (Drain β) T) (s₁ : Frame (SliceDeque β) T) (extra : Nat) : Prop where
  grown : Grown E ⟨s.self.deq, s.world⟩ s₁ (s.self.tailStart + s.self.tailLen + extra)
  wf : WF E s'.self.deq
  rewritten : Rewritten s₁.self s'.self.deq
  slot_eq : ∀ k : Int, 0 ≤ k → k < s₁.self.capacity → s'.self.deq.slot E k =
    if (s.self.tailStart + extra : Nat) ≤ k ∧ k < (s.self.tailStart + extra : Nat) + s.self.tailLen then
      s₁.self.slot E (s.self.tailStart + (k - (s.self.tailStart + extra : Nat))) else s₁.self.slot E k
  world_eq : s'.world = s₁.world
  start_eq : s'.self.tailStart = s.self.tailStart + extra
  tailLen_eq : s'.self.tailLen = s.self.tailLen
  iter_eq : s'.self.iter = s.self.iter

theorem Moved.len_eq {extra : Nat} {s s' : Frame (Drain β) T} {s₁ : Frame (SliceDeque β) T} (hm : Moved E s s' s₁ extra) :
    s'.self.deq.elems.len = s.self.deq.elems.len := by
  rw [hm.rewritten.elems_eq]
  exact hm.grown.len_eq

theorem Moved.gap {extra : Nat} {s s' : Frame (Drain β) T} {s₁ : Frame (SliceDeque β) T} (hm : Moved E s s' s₁ extra)
    (h : Gap E s.self) : Gap E s'.self := by
  have hle := h.len_le
  have hpos := h.tail_pos
  have hlen := hm.len_eq
  have hstart := hm.start_eq
  have htail := hm.tailLen_eq
  have hcap := hm.grown.cap_ge
  have hcap' := hm.rewritten.capacity_eq
  refine ⟨hm.wf, ?_, by omega, by omega, by omega⟩
  rw [hm.iter_eq]
  exact h.iter_len

/-- Making room moves the tail, wherever the elements went. -/
theorem wp_moveTailUnchecked {extra : Nat} {s : Frame (Drain β) T} (h : Gap E s.self) :
    wp (moveTailUnchecked E extra) s (fun _ s' => ∃ s₁, Moved E s s' s₁ extra)
      (fun p s' => Refusal E p ∧ s'.self = s.self ∧ ∀ o, Trade s.world o s'.world o) := by
  have hsame : True ∧ ∀ o, Trade s.world o s.world o := ⟨trivial, fun o => .refl _ o⟩
  simp only [moveTailUnchecked, wp_bind, wp_self, wp_usize]
  refine ⟨fun _ => ⟨fun _ => ?_, fun _ _ => ⟨.inl (.inl rfl), hsame⟩⟩, fun _ _ => ⟨.inl (.inl rfl), hsame⟩⟩
  rw [onDeq, wp_onPart]
  apply wp_mono (wp_reserveCapacity (s := ⟨s.self.deq, s.world⟩) h.wf)
  · rintro (e | ⟨⟩) s₁ hs₁
    · have hu := hs₁.untouched
      obtain ⟨d, w⟩ := s₁
      obtain rfl : d = s.self.deq := hu.self_eq
      exact wp_throw.mpr ⟨.inr ⟨e, rfl⟩, rfl, hu.trade⟩
    · have hcap := hs₁.cap_ge
      have hlt := hs₁.wf.cap_lt
      simp only [wp_bind, wp_usize]
      refine ⟨fun _ => ?_, fun hge => absurd hge (by unfold isizeBound usizeBound at *; omega)⟩
      rw [onDeq, wp_onPart]
      apply wp_copySlots hs₁.wf (by omega) (by omega) (by omega) (by omega)
      intro d₂ hwf hr hs
      exact wp_modify.mpr ⟨s₁, hs₁, hwf, hr, hs, rfl, rfl, rfl, rfl⟩
  · rintro p s₁ ⟨rfl, hp⟩
    exact ⟨.inl hp, rfl, hsame.2⟩

theorem safe_moveTailUnchecked {extra : Nat} {s : Frame (Drain β) T} (h : Gap E s.self) :
    wp (moveTailUnchecked E extra) s
      (fun _ s' => Safe (gapOwner E) s s' [] ∧ s'.self.deq.elems.len = s.self.deq.elems.len ∧
        s'.self.tailStart = s.self.tailStart + extra)
      (fun p s' => Refusal E p ∧ Safe (gapOwner E) s s' []) := by
  apply wp_mono (wp_moveTailUnchecked h)
  · intro _ s' hs'
    obtain ⟨s₁, hm⟩ := hs'
    refine ⟨⟨hm.gap h, ?_⟩, hm.len_eq, hm.start_eq⟩
    have ht := (hm.grown.effect h.wf).safe.trade
    simp only [gapOwner, hm.rewritten.regions_eq, hm.world_eq] at ht ⊢
    exact ht
  · intro p s' hs'
    obtain ⟨hp, hself, htrade⟩ := hs'
    refine ⟨hp, ?_, ?_⟩
    · rw [hself]
      exact h
    · rw [hself]
      simpa [gapOwner] using htrade (s.self.deq.regions E)

end Drain

namespace Splice
variable {T β : Type} {E : Env T β}

/-- The collection is gone; the gap is still well-formed. -/
structure Stored (E : Env T β) (s s' : Frame (Drain β × IntoIter β) T) (out : List (Nat × Nat)) : Prop where
  gap : Drain.Gap E s'.self.1
  trade : Trade s.world (((Drain.gapOwner E).prod (IntoIter.owner E)).maps s.self) s'.world
    (s'.self.1.deq.regions E + out : Multiset (Nat × Nat))

section Collected
variable {s s₁ : Frame (Drain β × IntoIter β) T}

theorem wp_dropCollected (hs : Safe ((Drain.gapOwner E).prod (IntoIter.owner E)) s s₁ []) :
    wp (onPart Prod.snd (fun p it => (p.1, it)) (IntoIter.drop E)) s₁ (fun _ s' => Stored E s s' [])
      (fun p s' => p = .destructor ∧ DestructorsPanic E ∧ ∃ out, Stored E s s' out) := by
  have ht := hs.trade
  rw [Multiset.coe_nil, add_zero] at ht
  have hgone : ∀ {t : Frame (IntoIter β) T} {lost : List T} {out : List (Nat × Nat)},
      Discarded (fun _ : T => ()) s₁.world t.world (s₁.self.2.vals E) (s₁.self.2.buffer.regions E) lost out →
      Stored E s ⟨(s₁.self.1, t.self), t.world⟩ out := by
    intro t lost out hd
    refine ⟨hs.ok.1, ht.trans ?_⟩
    have := hd.trade.frame_left (s₁.self.1.deq.regions E)
    rwa [Multiset.coe_add] at this
  rw [wp_onPart]
  refine wp_mono (IntoIter.discards_drop hs.ok.2) (fun _ t hd => hgone hd) ?_
  rintro p t ⟨hp, hpanic, lost, out, hd⟩
  exact ⟨hp, hpanic, out, hgone hd⟩

/-- As many places are made as there are items, so all of them are filled. -/
theorem safe_storeCollected (h : ((Drain.gapOwner E).prod (IntoIter.owner E)).ok s.self)
    (hfull : s.self.1.deq.elems.len = s.self.1.tailStart) :
    wp (storeCollected E) s (fun _ s' => Stored E s s' [])
      (fun p s' => Clean p ∧ ∃ out, (¬ DestructorsPanic E → out = []) ∧ Stored E s s' out) := by
  have hlast : ∀ s₁, Safe ((Drain.gapOwner E).prod (IntoIter.owner E)) s s₁ [] →
      wp (onPart Prod.snd (fun p it => (p.1, it)) (IntoIter.drop E)) s₁ (fun _ s' => Stored E s s' [])
        (fun p s' => Clean p ∧ ∃ out, (¬ DestructorsPanic E → out = []) ∧ Stored E s s' out) := by
    refine fun s₁ hs => wp_mono (wp_dropCollected hs) (fun _ _ => id) ?_
    rintro p s' ⟨rfl, hd, out, hst⟩
    exact ⟨clean_destructor, out, fun hn => absurd hd hn, hst⟩
  rw [storeCollected, wp_bind]
  refine wp_onPanic (P := fun p s₁ => Clean p ∧ Safe ((Drain.gapOwner E).prod (IntoIter.owner E)) s s₁ []) ?_ ?_
  · refine wp_mono (Q := fun _ s₁ => Safe ((Drain.gapOwner E).prod (IntoIter.owner E)) s s₁ []) ?_
      (fun _ s₁ hs => hlast s₁ hs) fun _ _ => id
    simp only [wp_bind, wp_self, wp_when]
    refine ⟨fun hpos => ?_, fun _ => .refl h⟩
    rw [wp_onPart]
    refine wp_mono (Drain.safe_moveTailUnchecked (s := ⟨s.self.1, s.world⟩) h.1) ?_
      fun p t hp => ⟨hp.1.clean, hp.2.left h.2⟩
    rintro _ t ⟨hsafe, hlen, hstart⟩
    have hs₁ : Safe ((Drain.gapOwner E).prod (IntoIter.owner E)) _ _ [] := hsafe.left h.2
    dsimp only at hlen hstart
    rw [Drain.fill, wp_bind, wp_self]
    have hcount : (s.self.2.sizeHint E).1 = s.self.2.remaining E := by rw [IntoIter.sizeHint_eq h.2]
    have hplaces : t.self.tailStart - t.self.deq.elems.len = s.self.2.remaining E := by omega
    dsimp only
    rw [hplaces]
    refine wp_mono (Drain.safe_fillLoop (O := IntoIter.owner E) (J := fun n it => it.remaining E = n) (N := False)
      ?_ _ _ ⟨(t.self, s.self.2), t.world⟩ ⟨hsafe.ok, h.2⟩ rfl rfl (by dsimp only; omega)) ?_ ?_
    · intro n u hok hn
      refine wp_mono (IntoIter.wp_next (P := fun _ _ => False) hok) ?_ fun _ _ => False.elim
      rintro r u' ⟨rfl, hu⟩
      have hlen' : (u.self.vals E).length = n + 1 := by
        rw [IntoIter.vals, Mirror.elems_length]
        exact hn
      have hlen'' : u'.self.remaining E = n := by
        have hvals : u'.self.vals E = (u.self.vals E).tail := hu.items_eq
        rw [← IntoIter.vals_length, hvals, List.length_tail, hlen', Nat.add_sub_cancel]
      have hk : Keeps (IntoIter.owner E) (fun _ : T => ()) u u' [] ((u.self.vals E).take 1) [] :=
        IntoIter.keeps_taken hu (by rw [← List.drop_one, add_comm, ← ids_append, List.take_append_drop])
      refine ⟨hk.toSafe, fun hnil => ?_, fun _ => hlen''⟩
      rw [List.head?_eq_none_iff] at hnil
      rw [hnil] at hlen'
      simp at hlen'
    · rintro r s₂ ⟨hs₂, hN, hend⟩
      have hr : r = true := by
        cases r with
        | false => exact (hN rfl).elim
        | true => rfl
      have hleft : (s₂.self.2.sizeHint E).1 = 0 := by
        rw [IntoIter.sizeHint_eq hs₂.ok.2]
        exact (hend hr).2
      exact wp_debugAssert hr (wp_debugAssert hleft (hs₁.trans hs₂))
    · rintro p s₂ ⟨rfl, hs₂⟩
      exact ⟨clean_user, hs₁.trans hs₂⟩
  · rintro p s₁ ⟨hc, hs⟩
    refine wp_mono (wp_dropCollected hs) (fun _ s' hst => ⟨hc, [], fun _ => rfl, hst⟩) ?_
    rintro q s' ⟨-, hd, out, hst⟩
    exact ⟨hc, out, fun hn => absurd hd hn, hst⟩

end Collected

/-- A splice owns what its drain owns. -/
def owner (E : Env T β) : Owner (Splice T β) T :=
  ⟨fun sp => Drain.Ok E sp.drain, fun sp => (Drain.owner E).vals sp.drain, fun sp => sp.drain.deq.regions E⟩

def gapOwner (E : Env T β) : Owner (Splice T β) T :=
  ⟨fun sp => Drain.Gap E sp.drain, fun _ => [], fun sp => sp.drain.deq.regions E⟩

variable {s s' : Frame (Splice T β) T}

theorem safe_of_gap {out : List (Nat × Nat)} (h : Safe (gapOwner E) s s' out) : Safe (owner E) s s' out :=
  ⟨Drain.Gap.ok h.ok, h.trade⟩

theorem safe_fill (h : Drain.Gap E s.self.drain) :
    wp (fill E) s (fun r s' => Safe (gapOwner E) s s' [] ∧
        (r = true → s'.self.drain.deq.elems.len = s'.self.drain.tailStart))
      (fun p s' => p = .user ∧ Safe (gapOwner E) s s' []) := by
  have hle := h.len_le
  have hback : ∀ {t : Frame (Drain β × UserIter T) T}, Safe ((Drain.gapOwner E).prod UserIter.owner)
      ⟨(s.self.drain, s.self.replaceWith), s.world⟩ t [] → Safe (gapOwner E) s ⟨⟨t.self.1, t.self.2⟩, t.world⟩ [] := by
    intro t ht
    exact ⟨ht.ok.1, by simpa [Owner.prod, Drain.gapOwner, UserIter.owner, gapOwner] using ht.trade⟩
  rw [fill, wp_onPart, Drain.fill, wp_bind, wp_self]
  refine wp_mono (Drain.safe_fillLoop (O := UserIter.owner) (J := fun _ _ => True) (N := True) ?_ _ _
    ⟨(s.self.drain, s.self.replaceWith), s.world⟩ ⟨h, trivial⟩ trivial rfl (by dsimp only; omega)) ?_ ?_
  · intro n t _ _
    exact wp_mono UserIter.safe_next (fun _ _ ht => ⟨ht, fun _ => trivial, fun _ => trivial⟩) fun _ _ => id
  · rintro r t ⟨ht, -, hend⟩
    exact ⟨hback ht, fun hr => (hend hr).1⟩
  · rintro p t ⟨hp, ht⟩
    exact ⟨hp, hback ht⟩

theorem safe_storeRest (h : Drain.Gap E s.self.drain)
    (hfull : s.self.drain.deq.elems.len = s.self.drain.tailStart) :
    wp (storeRest E) s (fun _ s' => Safe (gapOwner E) s s' []) (SafeUnwound E (gapOwner E) s) := by
  simp only [storeRest, wp_bind, wp_self]
  refine wp_mono (conserves_fromIter (O := gapOwner E) (f := fun _ : T => ()) h) ?_ fun _ _ hp => hp.safe
  rintro d s₁ ⟨hwf, hself, hk⟩
  refine wp_intoIter hwf fun it hit => ?_
  have hback : ∀ {t : Frame (Drain β × IntoIter β) T} {out : List (Nat × Nat)},
      Stored E ⟨(s₁.self.drain, it), s₁.world⟩ t out →
      Safe (gapOwner E) s ⟨⟨t.self.1, s₁.self.replaceWith⟩, t.world⟩ out := by
    intro t out ht
    refine ⟨ht.gap, hk.trade.trans ?_⟩
    have := ht.trade
    simp only [Owner.prod, Drain.gapOwner, IntoIter.owner, hit.regions_eq, ← Multiset.coe_add] at this
    exact this
  rw [onDrain, wp_onPart, wp_withLocal]
  refine wp_mono (safe_storeCollected (s := ⟨(s₁.self.drain, it), s₁.world⟩) ⟨hk.ok, hit.ok⟩ (by rw [hself]; exact hfull))
    (fun _ t ht => hback ht) ?_
  rintro p t ⟨hc, out, hl, ht⟩
  exact ⟨hc, out, hl, hback ht⟩

/-- The range is exhausted, refilled, and the iterator stored as far as it goes. -/
theorem safe_replace (h : Drain.Ok E s.self.drain) :
    wp (replace E) s (fun _ s' => Safe (owner E) s s' []) (SafeUnwound E (owner E) s) := by
  simp only [replace, wp_bind, wp_self]
  rw [onDrain, wp_onPart]
  have hback : ∀ {t : Frame (Drain β) T} {k : Nat}, (Drain.view E).Reduced ⟨s.self.drain, s.world⟩ t k →
      Safe (owner E) s ⟨⟨t.self, s.self.replaceWith⟩, t.world⟩ [] := by
    intro t k hr
    have hk : Keeps (Drain.owner E) (fun _ : T => ()) _ _ [] [] [] := Drain.keeps_reduced hr
    exact ⟨hk.ok, hk.trade⟩
  refine wp_mono (Drain.wp_exhaust (s := ⟨s.self.drain, s.world⟩) h) ?_ ?_
  · rintro _ t hr
    have hs₁ := hback hr
    have hok : Drain.Ok E t.self := hr.ok
    have h0 : t.self.iter.len = 0 := Drain.iter_len_reduced hr
    rw [wp_ite]
    refine ⟨fun htail => ?_, fun htail => ?_⟩
    · -- no tail: the deque itself is extended
      have hext : ∀ {u : Frame (SliceDeque β) T} {out : List (Nat × Nat)},
          Safe (SliceDeque.owner E) ⟨t.self.deq, t.world⟩ u out →
          Safe (owner E) s ⟨⟨⟨t.self.tailStart, t.self.tailLen, t.self.iter, u.self⟩, s.self.replaceWith⟩, u.world⟩ out := by
        intro u out hu
        have htail : t.self.tailLen = 0 := htail
        refine ⟨⟨hu.ok, fun hne => absurd h0 hne, fun hpos => ?_⟩, ?_⟩
        · dsimp only at hpos
          omega
        · have ht := hs₁.trade
          rw [Multiset.coe_nil, add_zero] at ht
          exact ht.trans hu.trade
      rw [onDrain, wp_onPart, Drain.onDeq, wp_onPart]
      refine wp_mono (conserves_extendDesugared (f := fun _ : T => ()) _ _ ⟨t.self.deq, t.world⟩ hok.wf)
        (fun _ u hu => hext hu.toSafe) fun p u hp => ?_
      obtain ⟨hc, out, hl, hu⟩ := hp.safe
      exact ⟨hc, out, hl, hext hu⟩
    · have hpos : 0 < t.self.tailLen := Nat.pos_of_ne_zero htail
      have hgap : Drain.Gap E t.self := ⟨hok.wf, h0, hpos, (hok.tail_at hpos).1, (hok.tail_at hpos).2⟩
      have huser : ∀ {p : Panic} {u : Frame (Splice T β) T}, p = .user ∧ Safe (gapOwner E)
          ⟨⟨t.self, s.self.replaceWith⟩, t.world⟩ u [] → SafeUnwound E (owner E) s p u := by
        rintro p u ⟨rfl, hu⟩
        exact .of_safe clean_user (hs₁.trans (safe_of_gap hu))
      rw [wp_bind]
      refine wp_mono (safe_fill (s := ⟨⟨t.self, s.self.replaceWith⟩, t.world⟩) hgap) ?_ fun _ _ => huser
      rintro r s₂ ⟨hs₂, hend⟩
      rw [wp_when]
      refine ⟨fun hr => ?_, fun _ => hs₁.trans (safe_of_gap hs₂)⟩
      simp only [wp_bind, wp_self]
      -- the places for the lower bound are filled as well
      refine wp_mono (Q := fun r s₃ => Safe (gapOwner E) ⟨⟨t.self, s.self.replaceWith⟩, t.world⟩ s₃ [] ∧
        (r = true → s₃.self.drain.deq.elems.len = s₃.self.drain.tailStart))
        (P := fun p s₃ => Clean p ∧ Safe (gapOwner E) ⟨⟨t.self, s.self.replaceWith⟩, t.world⟩ s₃ []) ?_ ?_ ?_
      · simp only [wp_ite, wp_bind, wp_pure]
        refine ⟨fun _ => ?_, fun _ => ⟨hs₂, fun _ => hend hr⟩⟩
        rw [onDrain, wp_onPart]
        refine wp_mono (Drain.safe_moveTailUnchecked (s := ⟨s₂.self.drain, s₂.world⟩) hs₂.ok) ?_ ?_
        · rintro _ u ⟨hu, -, -⟩
          have hu' : Safe (gapOwner E) s₂ ⟨⟨u.self, s₂.self.replaceWith⟩, u.world⟩ [] := ⟨hu.ok, hu.trade⟩
          refine wp_mono (safe_fill (s := ⟨⟨u.self, s₂.self.replaceWith⟩, u.world⟩) hu.ok) ?_ ?_
          · exact fun r s₃ h₃ => ⟨(hs₂.trans hu').trans h₃.1, h₃.2⟩
          · rintro p s₃ ⟨rfl, h₃⟩
            exact ⟨clean_user, (hs₂.trans hu').trans h₃⟩
        · rintro p u ⟨hp, hu⟩
          have hu' : Safe (gapOwner E) s₂ ⟨⟨u.self, s₂.self.replaceWith⟩, u.world⟩ [] := ⟨hu.ok, hu.trade⟩
          exact ⟨hp.clean, hs₂.trans hu'⟩
      · rintro r s₃ ⟨hs₃, hend₃⟩
        have hs := hs₁.trans (safe_of_gap hs₃)
        rw [wp_when]
        refine ⟨fun hr => ?_, fun _ => hs⟩
        refine wp_mono (safe_storeRest hs₃.ok (hend₃ hr)) (fun _ s' h' => hs.trans (safe_of_gap h')) ?_
        rintro p s' ⟨hc, out, hl, h'⟩
        exact .after hs ⟨hc, out, hl, safe_of_gap h'⟩
      · rintro p s₃ ⟨hc, hs₃⟩
        exact .of_safe hc (hs₁.trans (safe_of_gap hs₃))
  · rintro p t ⟨rfl, -, k, hr⟩
    exact .of_safe clean_destructor (hback hr)

theorem safe_drop (h : Drain.Ok E s.self.drain) :
    wp (drop E) s
      (fun _ s' => WF E s'.self.drain.deq ∧
        Trade s.world (s.self.drain.deq.regions E) s'.world (s'.self.drain.deq.regions E))
      (fun p s' => Clean p ∧ WF E s'.self.drain.deq ∧ ∃ out : List (Nat × Nat), (¬ DestructorsPanic E → out = []) ∧
        Trade s.world (s.self.drain.deq.regions E) s'.world
          (s'.self.drain.deq.regions E + out : Multiset (Nat × Nat))) := by
  have hclose : ∀ {s₁ : Frame (Splice T β) T} {t : Frame (Drain β) T} {lost : List T} {out : List (Nat × Nat)},
      Safe (owner E) s s₁ out → Drain.Closed E (fun _ : T => ()) ⟨s₁.self.drain, s₁.world⟩ t lost →
      WF E t.self.deq ∧ Trade s.world (s.self.drain.deq.regions E) t.world
        (t.self.deq.regions E + out : Multiset (Nat × Nat)) :=
    fun hs hc => ⟨hc.wf, hs.trade.trans (hc.trade.frame _)⟩
  rw [drop, wp_bind]
  refine wp_onPanic (P := SafeUnwound E (owner E) s)
    (wp_mono (safe_replace h) (fun _ s₁ hs => ?_) fun _ _ => id) fun p s₁ hp => ?_
  · rw [onDrain, wp_onPart]
    refine wp_mono (Drain.closes_drop (f := fun _ : T => ()) (s := ⟨s₁.self.drain, s₁.world⟩) hs.ok) ?_ ?_
    · intro _ t ht
      have := hclose hs ht
      rwa [Multiset.coe_nil, add_zero] at this
    · rintro p t ⟨rfl, hd, lost, ht⟩
      exact ⟨clean_destructor, (hclose hs ht).1, [], fun _ => rfl, (hclose hs ht).2⟩
  · obtain ⟨hc, out, hl, hs⟩ := hp
    rw [onDrain, wp_onPart]
    refine wp_mono (Drain.closes_drop (f := fun _ : T => ()) (s := ⟨s₁.self.drain, s₁.world⟩) hs.ok) ?_ ?_
    · exact fun _ t ht => ⟨hc, (hclose hs ht).1, out, hl, (hclose hs ht).2⟩
    · rintro q t ⟨-, -, lost, ht⟩
      exact ⟨hc, (hclose hs ht).1, out, hl, (hclose hs ht).2⟩

end Splice

end Sdeq
