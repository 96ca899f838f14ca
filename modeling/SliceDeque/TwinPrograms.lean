import SliceDeque.Program
import SliceDeque.Twins

/-!
# Programs that hold twins

An iterator over a twin is a twin of the iterator, and a program with twins in
its variables runs in the same way.
-/

set_option autoImplicit false

namespace Sdeq
open Exec SliceDeque

namespace Blind
variable {T β X Y α : Type} {E : Env T β} {S : X → X → Prop} {R : Y → Y → Prop}

/-- Related pairs. -/
structure Both (S : X → X → Prop) (R : Y → Y → Prop) (p p' : X × Y) : Prop where
  fst : S p.1 p'.1
  snd : R p.2 p'.2

theorem same (m : Method T X α) : Blind Eq m := by
  refine ⟨fun s s' hs => ?_⟩
  have heq : s = s' := by
    obtain ⟨x, w⟩ := s
    obtain ⟨x', w'⟩ := s'
    rw [show x = x' from hs.self, show w' = w from hs.world_eq]
  obtain ⟨hw, hr, hstate⟩ := (Lockstep.refl m).run s s' heq
  rw [← hstate]
  exact ⟨hw, hr, rfl, rfl⟩

theorem onFst {m : Method T X α} (h : Blind S m) : Blind (Both S R) (onPart Prod.fst (fun p x => (x, p.2)) m) :=
  .onPart h (fun _ _ hp => hp.fst) fun _ _ _ _ hp hx => ⟨hx, hp.snd⟩

theorem onSnd {m : Method T Y α} (h : Blind R m) : Blind (Both S R) (onPart Prod.snd (fun p y => (p.1, y)) m) :=
  .onPart h (fun _ _ hp => hp.snd) fun _ _ _ _ hp hy => ⟨hp.fst, hy⟩

protected theorem withLocal {y : Y} {m : Method T (X × Y) α} (h : Blind (Both S Eq) m) : Blind S (withLocal y m) :=
  Lockstep.zoom h (fun _ _ hs => ⟨⟨hs.self, rfl⟩, hs.world_eq⟩) fun _ _ _ _ _ ht => ⟨ht.self.fst, ht.world_eq⟩

theorem lockstep_within {γ δ : Type} {A : γ → δ → Prop} {y y' : Y} {put put' : Y → X} {m : Method T Y γ} {m' : Method T Y δ}
    (hm : Lockstep (Framed R) A m m') (hy : R y y') (hput : ∀ z z', R z z' → S (put z) (put' z')) :
    Lockstep (Framed S) A (within y put m) (within y' put' m') :=
  Lockstep.zoom hm (fun _ _ hs => ⟨hy, hs.world_eq⟩) fun _ _ _ _ _ ht => ⟨hput _ _ ht.self, ht.world_eq⟩

theorem exhaust {next : Method T X (Option T)} (h : Blind S next) (n : Nat) : Blind S (exhaust E next n) := by
  induction n with
  | zero => exact .pure _
  | succ n ih =>
    apply h.bind
    intro r
    cases r with
    | none => exact .pure _
    | some v => exact Blind.dropValue.bind fun _ => ih

theorem fromIter {iter : UserIter T} : Blind S (SliceDeque.fromIter E iter : Method T X _) := by
  obtain ⟨items, pulled, hint⟩ := iter
  cases items with
  | nil => exact .pure _
  | cons next rest =>
    exact Blind.produce.bind fun _ => (Blind.onPanic .withCapacity .dropValue).bind fun _ => (Blind.onLocal _ _).bind fun _ => .pure _

theorem intoIter (d : SliceDeque β) : Blind S (SliceDeque.intoIter E d : Method T X _) :=
  Blind.assert.bind fun _ => Blind.debugAssert.bind fun _ => .pure _

theorem rangeStart (b : Bound) : Blind S (rangeStart E b : Method T X Nat) := by
  cases b with
  | included n => exact .pure _
  | excluded n => exact .usize
  | unbounded => exact .pure _

theorem rangeEnd (l : Nat) (b : Bound) : Blind S (rangeEnd E l b : Method T X Nat) := by
  cases b with
  | included n => exact .usize
  | excluded n => exact .pure _
  | unbounded => exact .pure _

end Blind

/-! ## Draining -/

namespace Drain
variable {T β X α : Type} {E : Env T β}

structure Twins (E : Env T β) (dr dr' : Drain β) : Prop where
  tailStart_eq : dr'.tailStart = dr.tailStart
  tailLen_eq : dr'.tailLen = dr.tailLen
  iter_eq : dr'.iter = dr.iter
  deq : SliceDeque.Twins E dr.deq dr'.deq

variable {dr dr' : Drain β}

theorem Twins.withIter (h : Twins E dr dr') (p : Slice) : Twins E { dr with iter := p } { dr' with iter := p } :=
  ⟨h.tailStart_eq, h.tailLen_eq, rfl, h.deq⟩

theorem lockstep_drain {a b : Bound} : Lockstep (Framed (SliceDeque.Twins E)) (Twins E) (SliceDeque.drain E a b) (SliceDeque.drain E a b) := by
  apply blind_len.seq
  intro l
  apply (Blind.rangeStart a).seq
  intro i
  apply (Blind.rangeEnd l b).seq
  intro j
  apply Blind.assert.seq
  intro _
  apply Blind.assert.seq
  intro _
  apply Lockstep.bind Blind.lockstep_self
  intro d d' h
  have hcut : SliceDeque.Twins E (d.withLen i) (d'.withLen i) := by
    rw [withLen, withLen, h.elems_eq]
    exact h.withElems _
  rw [h.elems_eq]
  exact Lockstep.bind (Blind.lockstep_setSelf hcut) fun _ _ _ => Lockstep.pure ⟨rfl, rfl, rfl, hcut⟩

theorem blind_onDeq {m : DeqM T β α} (h : Blind (SliceDeque.Twins E) m) : Blind (Twins E) (onDeq m) := by
  apply Blind.onPart h
  · exact fun _ _ hdr => hdr.deq
  · exact fun _ _ _ _ hdr hd => ⟨hdr.tailStart_eq, hdr.tailLen_eq, hdr.iter_eq, hd⟩

theorem blind_next : Blind (Twins E) (next E) := by
  apply Lockstep.bind Blind.lockstep_self
  intro dr dr' h
  rw [h.iter_eq, h.deq.ptr_eq]
  apply Lockstep.ite
  · exact fun _ => .pure rfl
  · exact fun _ => Lockstep.bind (Blind.lockstep_setSelf (h.withIter _)) fun _ _ _ => Blind.readAt.bind fun _ => .pure _

theorem blind_nextBack : Blind (Twins E) (nextBack E) := by
  apply Lockstep.bind Blind.lockstep_self
  intro dr dr' h
  rw [h.iter_eq, h.deq.ptr_eq]
  apply Lockstep.ite
  · exact fun _ => .pure rfl
  · exact fun _ => Lockstep.bind (Blind.lockstep_setSelf (h.withIter _)) fun _ _ _ => Blind.readAt.bind fun _ => .pure _

theorem blind_drop : Blind (Twins E) (drop E) := by
  have hrestore : Blind (Twins E) (restoreTail E) := by
    apply Blind.view
    · intro dr dr' h
      rw [h.tailStart_eq, h.tailLen_eq]
    · exact fun dr => .when (blind_onDeq (blind_len.bind fun _ => blind_copySlots.bind fun _ => blind_moveTailUnchecked))
  apply Blind.view
  · intro dr dr' h
    rw [h.iter_eq]
  · exact fun dr => (Blind.exhaust blind_next _).bind fun _ => hrestore

theorem blind_moveTailUnchecked {n : Nat} : Blind (Twins E) (moveTailUnchecked E n) := by
  apply Blind.view
  · intro dr dr' h
    rw [h.tailStart_eq, h.tailLen_eq]
  intro dr
  apply Blind.usize.bind
  intro used
  apply Blind.usize.bind
  intro c
  apply (blind_onDeq blind_reserveCapacity).bind
  intro r
  cases r with
  | error e => exact .throw _
  | ok _ =>
    apply Blind.usize.bind
    intro start
    apply (blind_onDeq blind_copySlots).bind
    intro _
    exact Lockstep.modify fun _ _ hs => ⟨⟨rfl, hs.self.tailLen_eq, hs.self.iter_eq, hs.self.deq⟩, hs.world_eq⟩

theorem blind_fill {nextItem : Method T X (Option T)} : Blind (Blind.Both (Twins E) Eq) (fill E nextItem) := by
  have hloop : ∀ places i, Blind (Blind.Both (Twins E) Eq) (fillLoop E nextItem places i) := by
    intro places
    induction places with
    | zero => exact fun _ => .pure _
    | succ places ih =>
      intro i
      apply (Blind.onSnd (Blind.same nextItem)).bind
      intro r
      cases r with
      | none => exact .pure _
      | some v =>
        exact (Blind.onFst (blind_onDeq (blind_writeSlot.bind fun _ => SliceDeque.blind_moveTailUnchecked))).bind fun _ => ih _
  apply Blind.view
  · intro p p' h
    rw [h.fst.tailStart_eq, h.fst.deq.elems_eq]
  · exact fun p => hloop _ _

end Drain

/-! ## Filtering -/

namespace DrainFilter
variable {T β α : Type} {E : Env T β} {pred : List T → T → Option Bool × T}

structure Twins (E : Env T β) (df df' : DrainFilter T β) : Prop where
  idx_eq : df'.idx = df.idx
  del_eq : df'.del = df.del
  oldLen_eq : df'.oldLen = df.oldLen
  seen_eq : df'.seen = df.seen
  deq : SliceDeque.Twins E df.deq df'.deq

theorem lockstep_drainFilter :
    Lockstep (Framed (SliceDeque.Twins E)) (Twins E) (SliceDeque.drainFilter E) (SliceDeque.drainFilter E) := by
  apply blind_len.seq
  intro l
  apply Blind.isize.seq
  intro x
  apply SliceDeque.blind_moveTailUnchecked.seq
  intro _
  exact Lockstep.bind Blind.lockstep_self fun d d' h => Lockstep.pure ⟨rfl, rfl, rfl, rfl, h⟩

theorem blind_onDeq {m : DeqM T β α} (h : Blind (SliceDeque.Twins E) m) : Blind (Twins E) (onDeq m) := by
  apply Blind.onPart h
  · exact fun _ _ hdf => hdf.deq
  · exact fun _ _ _ _ hdf hd => ⟨hdf.idx_eq, hdf.del_eq, hdf.oldLen_eq, hdf.seen_eq, hd⟩

theorem blind_nextLoop (todo : Nat) : Blind (Twins E) (nextLoop E pred todo) := by
  induction todo with
  | zero => exact .pure _
  | succ todo ih =>
    apply Lockstep.bind Blind.lockstep_self
    intro df df' h
    rw [h.idx_eq, h.del_eq, h.seen_eq]
    apply (blind_onDeq blind_readSlot).seq
    intro v
    have hseen : Twins E ⟨df.deq, df.idx + 1, df.del, df.oldLen, df.seen ++ [v]⟩
        ⟨df'.deq, df.idx + 1, df.del, df'.oldLen, df.seen ++ [v]⟩ := ⟨rfl, rfl, h.oldLen_eq, rfl, h.deq⟩
    apply Lockstep.bind (Blind.lockstep_setSelf hseen)
    intro _ _ _
    apply (blind_onDeq blind_writeSlot).bind
    intro _
    rcases (pred df.seen v).1 with _ | ⟨_ | _⟩
    · exact .throw _
    · exact (Blind.when (Blind.usizeSub.bind fun _ => blind_onDeq blind_copySlots)).bind fun _ => ih
    · apply Lockstep.bind
      · exact Lockstep.modify fun _ _ hs => ⟨⟨hs.self.idx_eq, congrArg (· + 1) hs.self.del_eq, hs.self.oldLen_eq, hs.self.seen_eq,
          hs.self.deq⟩, hs.world_eq⟩
      · exact fun _ _ _ => (blind_onDeq blind_readSlot).bind fun _ => .pure _

theorem blind_next : Blind (Twins E) (next E pred) := by
  apply Blind.view
  · intro df df' h
    rw [h.oldLen_eq, h.idx_eq]
  · exact fun df => blind_nextLoop _

theorem blind_drop : Blind (Twins E) (drop E pred) := by
  apply Blind.view
  · intro df df' h
    rw [h.oldLen_eq, h.idx_eq]
  intro df
  apply (Blind.exhaust blind_next _).bind
  intro _
  apply Blind.view
  · intro df df' h
    rw [h.oldLen_eq, h.del_eq]
  · exact fun df => Blind.usizeSub.bind fun _ => blind_onDeq SliceDeque.blind_moveTailUnchecked

end DrainFilter

/-! ## Splicing -/

namespace Splice
variable {T β α : Type} {E : Env T β}

structure Twins (E : Env T β) (sp sp' : Splice T β) : Prop where
  drain : Drain.Twins E sp.drain sp'.drain
  replaceWith_eq : sp'.replaceWith = sp.replaceWith

theorem lockstep_splice {a b : Bound} {iter : UserIter T} :
    Lockstep (Framed (SliceDeque.Twins E)) (Twins E) (SliceDeque.splice E a b iter) (SliceDeque.splice E a b iter) :=
  Lockstep.bind Drain.lockstep_drain fun _ _ h => Lockstep.pure ⟨h, rfl⟩

theorem blind_onDrain {m : Method T (Drain β) α} (h : Blind (Drain.Twins E) m) : Blind (Twins E) (onDrain m) := by
  apply Blind.onPart h
  · exact fun _ _ hsp => hsp.drain
  · exact fun _ _ _ _ hsp hdr => ⟨hdr, hsp.replaceWith_eq⟩

theorem blind_fill : Blind (Twins E) (fill E) := by
  apply Blind.onPart Drain.blind_fill
  · exact fun _ _ hsp => ⟨hsp.drain, hsp.replaceWith_eq.symm⟩
  · exact fun _ _ _ _ _ hp => ⟨hp.fst, hp.snd.symm⟩

theorem blind_storeCollected : Blind (Blind.Both (Drain.Twins E) Eq) (storeCollected E) := by
  have hdrop : Blind (Blind.Both (Drain.Twins E) Eq) (onPart Prod.snd (fun p it => (p.1, it)) (IntoIter.drop E) :
      Method T (Drain β × IntoIter β) Unit) := .onSnd (.same _)
  have hstore : ∀ n, Blind (Blind.Both (Drain.Twins E) Eq) (do
      onPart Prod.fst (fun p dr => (dr, p.2)) (Drain.moveTailUnchecked E n)
      let filled ← Drain.fill E (IntoIter.next E)
      debugAssert E (filled = true)
      let p ← self
      debugAssert E ((p.2.sizeHint E).1 = 0) : Method T (Drain β × IntoIter β) Unit) := by
    intro n
    apply (Blind.onFst Drain.blind_moveTailUnchecked).bind
    intro _
    apply Drain.blind_fill.bind
    intro filled
    apply Blind.debugAssert.bind
    intro _
    apply Blind.view
    · intro p p' h
      rw [h.snd]
    · exact fun p => .debugAssert
  apply Blind.bind _ fun _ => hdrop
  apply Blind.onPanic _ hdrop
  apply Blind.view
  · intro p p' h
    rw [h.snd]
  · exact fun p => .when (hstore _)

theorem blind_storeRest : Blind (Twins E) (storeRest E) := by
  apply Blind.view
  · intro sp sp' h
    rw [h.replaceWith_eq]
  · exact fun sp => Blind.fromIter.bind fun _ => (Blind.intoIter _).bind fun _ => blind_onDrain (.withLocal blind_storeCollected)

theorem blind_replace : Blind (Twins E) (replace E) := by
  apply Blind.view
  · intro sp sp' h
    rw [h.drain.iter_eq]
  intro sp
  apply (blind_onDrain (Blind.exhaust Drain.blind_next _)).bind
  intro _
  apply Blind.view
  · intro sp sp' h
    rw [h.drain.tailLen_eq, h.replaceWith_eq]
  intro sp
  apply Blind.ite
  · exact fun _ => blind_onDrain (Drain.blind_onDeq (blind_extendDesugared _ _))
  intro _
  apply blind_fill.bind
  intro filled
  apply Blind.when
  apply Blind.view
  · intro sp sp' h
    rw [h.replaceWith_eq]
  intro sp
  apply Blind.bind _ fun _ => .when blind_storeRest
  exact .ite (fun _ => (blind_onDrain Drain.blind_moveTailUnchecked).bind fun _ => blind_fill) fun _ => .pure _

theorem blind_drop : Blind (Twins E) (drop E) :=
  (Blind.onPanic blind_replace (blind_onDrain Drain.blind_drop)).bind fun _ => blind_onDrain Drain.blind_drop

end Splice

/-! ## Variables -/

theorem Call.blind_run {T β : Type} {E : Env T β} (c : Call T) : Blind (SliceDeque.Twins E) (c.run E) := by
  have hunit : ∀ {m : DeqM T β Unit}, Blind (SliceDeque.Twins E) m → Blind (SliceDeque.Twins E) (do
      m
      pure (.unit : Out T (SliceDeque β))) := fun hm => hm.bind fun _ => .pure _
  cases c with
  | tryPushFront v => exact blind_tryPushFront.bind fun _ => .pure _
  | tryPushBack v => exact blind_tryPushBack.bind fun _ => .pure _
  | pushFront v => exact hunit blind_pushFront
  | pushBack v => exact hunit blind_pushBack
  | popFront => exact blind_popFront.bind fun _ => .pure _
  | popBack => exact blind_popBack.bind fun _ => .pure _
  | tryReserve n => exact blind_tryReserve.bind fun _ => .pure _
  | reserve n => exact hunit blind_reserve
  | reserveExact n => exact hunit blind_reserveExact
  | truncateBack n => exact hunit blind_truncateBack
  | truncate n => exact hunit blind_truncateBack
  | truncateFront n => exact hunit blind_truncateFront
  | clear => exact hunit blind_truncateBack
  | remove i => exact blind_remove.bind fun _ => .pure _
  | swapRemoveBack i => exact blind_swapRemoveBack.bind fun _ => .pure _
  | swapRemoveFront i => exact blind_swapRemoveFront.bind fun _ => .pure _
  | splitOff k => exact blind_splitOff.bind fun _ => .pure _
  | retain f => exact blind_retain.bind fun _ => .pure _
  | dedupBy same => exact blind_dedupBy.bind fun _ => .pure _
  | extend hint iter => exact hunit (blind_extendDesugared _ _)
  | resize n v => exact hunit blind_resize
  | resizeDefault n => exact hunit blind_resizeDefault
  | extendFromSlice vs => exact hunit blind_extendFromSlice
  | insert i v => exact hunit blind_insert
  | shrinkToFit => exact hunit blind_shrinkToFit
  | moveHead x => exact hunit blind_moveHead
  | moveTail x => exact hunit blind_moveTail
  | clone => exact blind_clone.bind fun _ => .pure _

namespace Var
variable {T β X : Type} {E : Env T β}

inductive Twins (E : Env T β) : Var T β → Var T β → Prop
  | gone : Twins E gone gone
  | deque {d d' : SliceDeque β} (h : SliceDeque.Twins E d d') : Twins E (deque d) (deque d')
  | drain {dr dr' : Drain β} (h : Drain.Twins E dr dr') : Twins E (drain dr) (drain dr')
  | splice {sp sp' : Splice T β} (h : Splice.Twins E sp sp') : Twins E (splice sp) (splice sp')
  | drainFilter {df df' : DrainFilter T β} (h : DrainFilter.Twins E df df') (pred : List T → T → Option Bool × T) :
      Twins E (drainFilter df pred) (drainFilter df' pred)
  | intoIter (it : IntoIter β) : Twins E (intoIter it) (intoIter it)

variable {v v' : Var T β}

theorem Twins.refl (v : Var T β) : Twins E v v := by
  cases v with
  | gone => exact .gone
  | deque d => exact .deque (.refl d)
  | drain dr => exact .drain ⟨rfl, rfl, rfl, .refl _⟩
  | splice sp => exact .splice ⟨⟨rfl, rfl, rfl, .refl _⟩, rfl⟩
  | drainFilter df pred => exact .drainFilter ⟨rfl, rfl, rfl, rfl, .refl _⟩ pred
  | intoIter it => exact .intoIter it

theorem lockstep_borrow {R : X → X → Prop} {wrap : X → Var T β} {make : DeqM T β X}
    (hmake : Lockstep (Framed (SliceDeque.Twins E)) R make make) (hwrap : ∀ x x', R x x' → Twins E (wrap x) (wrap x'))
    (h : Twins E v v') : Lockstep (Framed (Twins E)) Eq (borrow wrap make v) (borrow wrap make v') := by
  cases h with
  | deque hd =>
    apply Lockstep.bind (Blind.lockstep_within hmake hd fun _ _ => .deque)
    exact fun x x' hx => Lockstep.bind (Blind.lockstep_setSelf (hwrap x x' hx)) fun _ _ _ => Lockstep.pure rfl
  | _ => exact .pure rfl

theorem lockstep_consume {wrap : X → Var T β} {make : SliceDeque β → Method T (Var T β) X}
    (heq : ∀ d d', SliceDeque.Twins E d d' → make d' = make d) (hmake : ∀ d, Blind (Twins E) (make d)) (h : Twins E v v') :
    Lockstep (Framed (Twins E)) Eq (consume wrap make v) (consume wrap make v') := by
  cases h with
  | @deque d d' hd =>
    rw [consume, consume, heq _ _ hd]
    exact Lockstep.bind (Blind.lockstep_setSelf .gone) fun _ _ _ => (hmake d).bind fun x =>
      Lockstep.bind (Blind.lockstep_setSelf (.refl _)) fun _ _ _ => Lockstep.pure rfl
  | _ => exact .pure rfl

theorem lockstep_rebuild (h : Twins E v v') : Lockstep (Framed (Twins E)) Eq (rebuild E v) (rebuild E v') := by
  cases h with
  | @deque d d' hd =>
    have hr : Rebuildable E d' ↔ Rebuildable E d := by rw [Rebuildable, Rebuildable, hd.elems_eq, hd.ptr_eq, hd.capacity_eq]
    have hmake : ∀ d : SliceDeque β, Blind (Twins E) (SliceDeque.fromRawParts E d.buf.ptr d.capacity d.elems : Method T (Var T β) (SliceDeque β)) := fun d =>
      Blind.debugAssert.bind fun _ => Blind.debugAssert.bind fun _ => Blind.usize.bind fun _ =>
        Blind.bufferFromRawParts.bind fun _ => .pure _
    rw [rebuild, rebuild]
    by_cases hd' : Rebuildable E d
    · rw [if_pos hd', if_pos (hr.mpr hd')]
      apply lockstep_consume _ hmake (.deque hd)
      intro d d' h
      rw [h.elems_eq, h.ptr_eq, h.capacity_eq]
    · rw [if_neg hd', if_neg (mt hr.mp hd')]
      exact .pure rfl
  | _ => exact .pure rfl

theorem blind_yield {R : X → X → Prop} {m : Method T X (Option T)} (h : Blind R m) :
    Blind R (yield m : Method T X (Out T (SliceDeque β))) := h.bind fun _ => .pure _

theorem blind_dropped {R : X → X → Prop} {m : Method T X Unit} (h : Blind R m) :
    Blind R (dropped m : Method T X (Out T (SliceDeque β))) := h.bind fun _ => .pure _

theorem lockstep_next (h : Twins E v v') : Lockstep (Framed (Twins E)) Eq (next E v) (next E v') := by
  cases h with
  | drain h =>
    apply Blind.lockstep_within (blind_yield Drain.blind_next) h
    exact fun _ _ => .drain
  | splice h =>
    apply Blind.lockstep_within (blind_yield (Splice.blind_onDrain Drain.blind_next)) h
    exact fun _ _ => .splice
  | drainFilter h pred =>
    rw [next, next]
    apply Blind.lockstep_within (blind_yield DrainFilter.blind_next) h
    exact fun _ _ hdf => .drainFilter hdf pred
  | intoIter it =>
    apply Blind.lockstep_within (Blind.same _) rfl
    exact fun it _ hit => hit ▸ .intoIter it
  | _ => exact .pure rfl

theorem lockstep_nextBack (h : Twins E v v') : Lockstep (Framed (Twins E)) Eq (nextBack E v) (nextBack E v') := by
  cases h with
  | drain h =>
    apply Blind.lockstep_within (blind_yield Drain.blind_nextBack) h
    exact fun _ _ => .drain
  | splice h =>
    apply Blind.lockstep_within (blind_yield (Splice.blind_onDrain Drain.blind_nextBack)) h
    exact fun _ _ => .splice
  | intoIter it =>
    apply Blind.lockstep_within (Blind.same _) rfl
    exact fun it _ hit => hit ▸ .intoIter it
  | _ => exact .pure rfl

theorem lockstep_drop (h : Twins E v v') : Lockstep (Framed (Twins E)) Eq (drop E v) (drop E v') := by
  cases h with
  | gone => exact .pure rfl
  | deque h =>
    rw [drop, drop]
    apply Blind.lockstep_within (blind_dropped blind_dropSelf) h
    exact fun _ _ _ => .gone
  | drain h =>
    rw [drop, drop]
    apply Blind.lockstep_within (blind_dropped Drain.blind_drop) h
    exact fun _ _ hdr => .deque hdr.deq
  | splice h =>
    rw [drop, drop]
    apply Blind.lockstep_within (blind_dropped Splice.blind_drop) h
    exact fun _ _ hsp => .deque hsp.drain.deq
  | drainFilter h pred =>
    rw [drop, drop]
    apply Blind.lockstep_within (blind_dropped DrainFilter.blind_drop) h
    exact fun _ _ hdf => .deque hdf.deq
  | intoIter it =>
    rw [drop]
    apply Blind.lockstep_within (Blind.same _) rfl
    exact fun _ _ _ => .gone

theorem Twins.leak (h : Twins E v v') : Twins E v.leak v'.leak := by
  cases h with
  | gone => exact .gone
  | deque h => exact .gone
  | drain h => exact .deque h.deq
  | splice h => exact .deque h.drain.deq
  | drainFilter h pred => exact .deque h.deq
  | intoIter it => exact .gone

end Var

theorem Turn.lockstep_run {T β : Type} {E : Env T β} {v v' : Var T β} (t : Turn T) (h : Var.Twins E v v') :
    Lockstep (Framed (Var.Twins E)) Eq (t.run E v) (t.run E v') := by
  cases t with
  | drain a b => exact Var.lockstep_borrow Drain.lockstep_drain (fun _ _ => .drain) h
  | splice a b iter => exact Var.lockstep_borrow Splice.lockstep_splice (fun _ _ => .splice) h
  | drainFilter pred => exact Var.lockstep_borrow DrainFilter.lockstep_drainFilter (fun _ _ hdf => .drainFilter hdf pred) h
  | intoIter =>
    apply Var.lockstep_consume _ Blind.intoIter h
    intro d d' hd
    rw [SliceDeque.intoIter, SliceDeque.intoIter, hd.elems_eq, hd.ptr_eq, hd.capacity_eq]
  | rebuild => exact Var.lockstep_rebuild h
  | next => exact Var.lockstep_next h
  | nextBack => exact Var.lockstep_nextBack h
  | drop => exact Var.lockstep_drop h
  | leak => exact Lockstep.bind (Blind.lockstep_setSelf h.leak) fun _ _ _ => Lockstep.pure rfl

/-! ## Programs -/

section Lists
variable {γ δ : Type} {R : γ → δ → Prop} {xs : List γ} {ys : List δ} {i : Nat}

theorem forall₂_getElem? (h : List.Forall₂ R xs ys) (i : Nat) :
    xs[i]? = none ∧ ys[i]? = none ∨ ∃ x y, xs[i]? = some x ∧ ys[i]? = some y ∧ R x y := by
  induction h generalizing i with
  | nil => exact .inl ⟨rfl, rfl⟩
  | cons hxy _ ih =>
    cases i with
    | zero => exact .inr ⟨_, _, rfl, rfl, hxy⟩
    | succ i => exact ih i

theorem forall₂_set {x : γ} {y : δ} (h : List.Forall₂ R xs ys) (hxy : R x y) (i : Nat) : List.Forall₂ R (xs.set i x) (ys.set i y) := by
  induction h generalizing i with
  | nil => exact .nil
  | cons h₁ hrest ih =>
    cases i with
    | zero => exact .cons hxy hrest
    | succ i => exact .cons h₁ (ih i)

theorem forall₂_set_right {R : γ → γ → Prop} (hrefl : ∀ x, R x x) {x y : γ} (hx : xs[i]? = some x) (hxy : R x y) :
    List.Forall₂ R xs (xs.set i y) := by
  obtain ⟨hi, rfl⟩ := List.getElem?_eq_some_iff.mp hx
  have h := forall₂_set (List.forall₂_same.mpr fun x (_ : x ∈ xs) => hrefl x) hxy i
  rwa [List.set_getElem_self] at h

end Lists

namespace Program
variable {T β : Type} {E : Env T β}

structure Twins (E : Env T β) (p p' : Program T β) : Prop where
  vars : List.Forall₂ (Var.Twins E) p.vars p'.vars
  given_eq : p'.given = p.given
  handed_eq : p'.handed = p.handed

variable {p p' : Program T β} {v v' : Var T β}

theorem Twins.put (h : Twins E p p') (hv : Var.Twins E v v') (i : Nat) : Twins E (p.put i v) (p'.put i v') :=
  ⟨forall₂_set h.vars hv i, h.given_eq, h.handed_eq⟩

theorem Twins.give (h : Twins E p p') (vs : List T) : Twins E (p.give vs) (p'.give vs) :=
  ⟨h.vars, congrArg (· ++ vs) h.given_eq, h.handed_eq⟩

theorem Twins.accept (h : Twins E p p') (r : Out T (SliceDeque β)) : Twins E (p.accept r) (p'.accept r) :=
  ⟨List.rel_append h.vars (List.forall₂_same.mpr fun v _ => .refl v), h.given_eq, congrArg (· ++ r.taken) h.handed_eq⟩

theorem twins_put {d d' : SliceDeque β} {i : Nat} (hd : SliceDeque.Twins E d d') (hi : p.vars[i]? = some (.deque d)) :
    Twins E p (p.put i (.deque d')) := ⟨forall₂_set_right .refl hi (.deque hd), rfl, rfl⟩

theorem blind_append : Blind (Blind.Both (SliceDeque.Twins E) (SliceDeque.Twins E)) (SliceDeque.append E) := by
  apply Blind.view
  · intro q q' h
    rw [h.snd.elems_eq, h.snd.ptr_eq]
  intro q
  apply (Blind.onFst blind_appendElements).bind
  intro _
  apply Lockstep.modify
  intro s s' hs
  have hd := hs.self.snd.withElems ⟨s.self.2.buf.ptr.mirror.base, 0⟩
  rw [hs.self.snd.ptr_eq]
  exact ⟨⟨hs.self.fst, hd⟩, hs.world_eq⟩

theorem blind_cloneFrom {d : SliceDeque β} : Blind (SliceDeque.Twins E) (SliceDeque.cloneFrom E d) :=
  blind_truncateBack.bind fun _ => Blind.readRange.bind fun _ => blind_pushClones _

theorem cloneFrom_eq {d d' : SliceDeque β} (h : SliceDeque.Twins E d d') : SliceDeque.cloneFrom E d' = SliceDeque.cloneFrom E d := by
  rw [SliceDeque.cloneFrom, SliceDeque.cloneFrom, h.elems_eq, h.ptr_eq]

theorem blind_perform (op : Op T) : Blind (Twins E) (perform E op) := by
  cases op with
  | new => exact .pure _
  | withCapacity n => exact Blind.withCapacity.bind fun _ => .pure _
  | fromIter iter => exact Blind.fromIter.bind fun _ => .pure _
  | call i c =>
    apply Lockstep.bind Blind.lockstep_self
    intro p p' h
    rcases forall₂_getElem? h.vars i with ⟨hv, hv'⟩ | ⟨v, v', hv, hv', hvv⟩
    · rw [hv, hv']
      exact .pure rfl
    rw [hv, hv']
    cases hvv with
    | deque hd =>
      apply Blind.lockstep_within (Call.blind_run c) hd
      exact fun _ _ hz => (h.put (.deque hz) i).give _
    | _ => exact .pure rfl
  | turn i t =>
    apply Lockstep.bind Blind.lockstep_self
    intro p p' h
    rcases forall₂_getElem? h.vars i with ⟨hv, hv'⟩ | ⟨v, v', hv, hv', hvv⟩
    · rw [hv, hv']
      exact .pure rfl
    rw [hv, hv']
    apply Blind.lockstep_within (t.lockstep_run hvv) hvv
    exact fun _ _ hz => h.put hz i
  | append i j =>
    apply Lockstep.bind Blind.lockstep_self
    intro p p' h
    rcases forall₂_getElem? h.vars i with ⟨hv, hv'⟩ | ⟨v, v', hv, hv', hvv⟩
    · rw [hv, hv']
      exact .pure rfl
    rcases forall₂_getElem? h.vars j with ⟨hu, hu'⟩ | ⟨u, u', hu, hu', huu⟩
    · rw [hv, hv', hu, hu']
      cases hvv <;> exact .pure rfl
    rw [hv, hv', hu, hu']
    cases hvv with
    | deque hd =>
      cases huu with
      | deque hd' =>
        apply Lockstep.ite fun _ => .pure rfl
        intro _
        apply Blind.lockstep_within (blind_append.bind fun _ => .pure _) ⟨hd, hd'⟩
        exact fun _ _ hz => (h.put (.deque hz.fst) i).put (.deque hz.snd) j
      | _ => exact .pure rfl
    | _ => exact .pure rfl
  | cloneFrom i j =>
    apply Lockstep.bind Blind.lockstep_self
    intro p p' h
    rcases forall₂_getElem? h.vars i with ⟨hv, hv'⟩ | ⟨v, v', hv, hv', hvv⟩
    · rw [hv, hv']
      exact .pure rfl
    rcases forall₂_getElem? h.vars j with ⟨hu, hu'⟩ | ⟨u, u', hu, hu', huu⟩
    · rw [hv, hv', hu, hu']
      cases hvv <;> exact .pure rfl
    rw [hv, hv', hu, hu']
    cases hvv with
    | deque hd =>
      cases huu with
      | deque hd' =>
        dsimp only
        rw [cloneFrom_eq hd']
        apply Lockstep.ite fun _ => .pure rfl
        intro _
        apply Blind.lockstep_within (blind_cloneFrom.bind fun _ => .pure _) hd
        exact fun _ _ hz => h.put (.deque hz) i
      | _ => exact .pure rfl
    | _ => exact .pure rfl

theorem blind_step (op : Op T) : Blind (Twins E) (step E op) := by
  apply (blind_perform op).bind
  intro r
  apply Lockstep.bind Blind.lockstep_self
  intro p p' h
  rw [h.vars.length_eq]
  exact Lockstep.bind (Blind.lockstep_setSelf (h.accept r)) fun _ _ _ => Lockstep.pure rfl

end Program

end Sdeq
