import SliceDeque.Program

/-!
# What a program owns

The variables of a program own values and mappings. Every operation keeps the
variables well-formed and the mappings accounted for; the operations that the
crate has for moving values keep every value accounted for as well.
-/

set_option autoImplicit false

namespace Sdeq
open Exec SliceDeque

section Lift
variable {X Y T ι γ : Type} {O : Owner X T} {O' : Owner Y T} {f : T → ι} {x : X} {t : Frame X T} {y y' : Y} {w : World T}
variable {given taken : List T} {out : List (Nat × Nat)}

/-- Exchanging one of several objects. -/
theorem flatMap_set_perm (g : X → List γ) {xs : List X} {i : Nat} (h : xs[i]? = some x) (x' : X) :
    ((xs.set i x').flatMap g ++ g x).Perm (xs.flatMap g ++ g x') := by
  induction xs generalizing i with
  | nil => cases h
  | cons a xs ih =>
    cases i with
    | zero =>
      cases h
      simp only [List.set_cons_zero, List.flatMap_cons]
      rw [List.append_assoc]
      exact List.perm_append_comm.trans (List.perm_append_comm.append_right _)
    | succ i =>
      simp only [List.set_cons_succ, List.flatMap_cons, List.append_assoc]
      exact (ih h).append_left _

/-- An object is a part of a larger one, which changes in the same way. -/
theorem Safe.lift (h : Safe O ⟨x, w⟩ t out) (hok : O'.ok y') (hm : (O'.maps y' ++ O.maps x).Perm (O'.maps y ++ O.maps t.self)) :
    Safe O' ⟨y, w⟩ ⟨y', t.world⟩ out := by
  refine ⟨hok, h.trade.books.replace ?_, h.trade.fresh⟩
  have hc : (O'.maps y' : Multiset (Nat × Nat)) + O.maps x = O'.maps y + O.maps t.self := Multiset.coe_eq_coe.mpr hm
  rw [add_right_comm, hc, add_assoc]

theorem Keeps.lift (h : Keeps O f ⟨x, w⟩ t given taken out) (hok : O'.ok y')
    (hm : (O'.maps y' ++ O.maps x).Perm (O'.maps y ++ O.maps t.self))
    (hv : (O'.vals y' ++ O.vals x).Perm (O'.vals y ++ O.vals t.self)) : Keeps O' f ⟨y, w⟩ ⟨y', t.world⟩ given taken out := by
  refine ⟨h.toSafe.lift hok hm, h.flow.replace ?_⟩
  have hc := ids_perm (f := f) hv
  rw [ids_append, ids_append] at hc
  calc ids f (O'.vals y') + ids f taken + (ids f (O.vals x) + ids f given)
      = ids f (O'.vals y') + ids f (O.vals x) + (ids f given + ids f taken) := by abel
    _ = ids f (O'.vals y) + ids f given + (ids f (O.vals t.self) + ids f taken) := by rw [hc]; abel

end Lift

namespace Var
variable {T β : Type} (E : Env T β)

/-- A variable owns what its deque or iterator owns. -/
def owner : Owner (Var T β) T where
  ok
    | gone => True
    | deque d => WF E d
    | drain dr => Drain.Ok E dr
    | splice sp => (Splice.owner E).ok sp
    | drainFilter df _ => DrainFilter.Ok E df
    | intoIter it => IntoIter.Ok E it
  vals
    | gone => []
    | deque d => d.toList E
    | drain dr => (Drain.owner E).vals dr
    | splice sp => (Splice.owner E).vals sp
    | drainFilter df _ => (DrainFilter.owner E).vals df
    | intoIter it => it.vals E
  maps
    | gone => []
    | deque d => d.regions E
    | drain dr => dr.deq.regions E
    | splice sp => sp.drain.deq.regions E
    | drainFilter df _ => df.deq.regions E
    | intoIter it => it.buffer.regions E

/-- Not an iterator that moves values around while it runs. -/
def Plain : Var T β → Prop
  | splice _ => False
  | drainFilter _ _ => False
  | _ => True

variable {E} {ι X : Type} {f : T → ι} {w : World T} {given taken : List T} {out : List (Nat × Nat)}

theorem keeps_wrap {O : Owner X T} {wrap : X → Var T β} (hok : ∀ x, O.ok x → (owner E).ok (wrap x))
    (hm : ∀ x, (owner E).maps (wrap x) = O.maps x) (hv : ∀ x, (owner E).vals (wrap x) = O.vals x) {x : X} {t : Frame X T}
    (h : Keeps O f ⟨x, w⟩ t given taken out) : Keeps (owner E) f ⟨wrap x, w⟩ ⟨wrap t.self, t.world⟩ given taken out :=
  h.lift (hok _ h.ok) (by rw [hm, hm]; exact List.perm_append_comm) (by rw [hv, hv]; exact List.perm_append_comm)

end Var

namespace Call
variable {T β ι : Type} {E : Env T β} {f : T → ι} {s : Frame (SliceDeque β) T} {c : Call T}

/-- The methods that neither lose nor duplicate a value. -/
def Keeping (f : T → ι) : Call T → Prop
  | dedupBy same => Parted.KeepsIds f (recordedPair same)
  | extendFromSlice _ => False
  | insert _ _ => False
  | shrinkToFit => False
  | moveHead _ => False
  | moveTail _ => False
  | _ => True

/-- What a method leaves, when it returned `r`: new deques are handed out. -/
structure Yields (E : Env T β) (s s' : Frame (SliceDeque β) T) (r : Out T (SliceDeque β)) : Prop where
  wf : ∀ d ∈ r.deques, WF E d
  safe : Safe (SliceDeque.owner E) s s' (r.deques.flatMap (SliceDeque.regions E))

structure YieldsAll (E : Env T β) (f : T → ι) (given : List T) (s s' : Frame (SliceDeque β) T) (r : Out T (SliceDeque β)) :
    Prop where
  wf : ∀ d ∈ r.deques, WF E d
  keeps : Keeps (SliceDeque.owner E) f s s' given (r.deques.flatMap (SliceDeque.toList E) ++ r.taken)
    (r.deques.flatMap (SliceDeque.regions E))

theorem YieldsAll.yields {given : List T} {s' : Frame (SliceDeque β) T} {r : Out T (SliceDeque β)}
    (h : YieldsAll E f given s s' r) : Yields E s s' r := ⟨h.wf, h.keeps.toSafe⟩

theorem YieldsAll.of_keeps {given taken : List T} {s' : Frame (SliceDeque β) T} {r : Out T (SliceDeque β)}
    (h : Keeps (SliceDeque.owner E) f s s' given taken []) (hd : r.deques = []) (ht : r.taken = taken) :
    YieldsAll E f given s s' r := by
  constructor
  · simp [hd]
  · simpa [hd, ht] using h

theorem YieldsAll.of_deque {given : List T} {s' : Frame (SliceDeque β) T} {d : SliceDeque β}
    (h : WF E d ∧ Keeps (SliceDeque.owner E) f s s' given (d.toList E) (d.regions E)) :
    YieldsAll E f given s s' (.deque d) := by
  constructor
  · simpa [Out.deques] using h.1
  · simpa [Out.deques, Out.taken] using h.2

theorem wp_return {α : Type} {m : DeqM T β α} {given : List T} {taken : α → List T} {out : α → Out T (SliceDeque β)}
    (h : Conserves E (SliceDeque.owner E) f m given taken s) (hd : ∀ a, (out a).deques = []) (ht : ∀ a, (out a).taken = taken a) :
    wp (do
      let a ← m
      pure (out a)) s (fun r s' => YieldsAll E f given s s' r) (Unwound E (SliceDeque.owner E) f given s) :=
  wp_seq h (fun a _ hk => wp_pure.mpr (.of_keeps hk (hd a) (ht a))) fun _ _ hp => hp

theorem wp_return_deque {m : DeqM T β (SliceDeque β)}
    (h : wp m s (fun d s' => WF E d ∧ Keeps (SliceDeque.owner E) f s s' [] (d.toList E) (d.regions E))
      (Unwound E (SliceDeque.owner E) f [] s)) :
    wp (do
      let d ← m
      pure (.deque d)) s (fun r s' => YieldsAll E f [] s s' r) (Unwound E (SliceDeque.owner E) f [] s) :=
  wp_seq h (fun _ _ hd => wp_pure.mpr (.of_deque hd)) fun _ _ hp => hp

theorem deques_ofPush (r : Except (T × AllocError) Unit) : (Out.ofPush r : Out T (SliceDeque β)).deques = [] := by
  cases r <;> rfl

theorem taken_ofPush (r : Except (T × AllocError) Unit) : (Out.ofPush r : Out T (SliceDeque β)).taken = rejected r := by
  cases r <;> rfl

theorem deques_ofReserve (r : Except AllocError Unit) : (Out.ofReserve r : Out T (SliceDeque β)).deques = [] := by
  cases r <;> rfl

theorem taken_ofReserve (r : Except AllocError Unit) : (Out.ofReserve r : Out T (SliceDeque β)).taken = [] := by
  cases r <;> rfl

theorem conserves_bulk {m : DeqM T β Unit} {given : List T}
    (h : wp m s (fun _ s' => Keeps (SliceDeque.owner E) f s s' given [] []) (BulkPanic E f given s)) :
    Conserves E (SliceDeque.owner E) f m given (fun _ => []) s := wp_mono h (fun _ _ hk => hk) fun _ _ hp => hp.1

theorem conserves_tryReserve {n : Nat} (h : WF E s.self) :
    Conserves E (SliceDeque.owner E) f (SliceDeque.tryReserve E n) [] (fun _ => []) s := by
  refine wp_mono (wp_tryReserve h) ?_ ?_
  · intro r s' hr
    rcases r with e | ⟨⟩
    · exact hr.untouched.keeps h []
    · exact (hr.effect h).keeps (by simp)
  · rintro p s' ⟨rfl, hp⟩
    exact .of_keeps hp.clean (.refl h [])

theorem conserves_grown {m : DeqM T β Unit} {n : Nat} (h : WF E s.self)
    (hm : wp m s (fun _ s' => Grown E s s' n) (ReservePanic E s)) :
    Conserves E (SliceDeque.owner E) f m [] (fun _ => []) s :=
  wp_mono hm (fun _ _ hg => (hg.effect h).keeps (by simp)) fun _ _ hp => unwound_of_untouched h hp.untouched.1.clean hp.untouched.2

/-- Every value is accounted for. -/
theorem keeps_run (h : WF E s.self) (hc : c.Keeping f) :
    wp (c.run E) s (fun r s' => YieldsAll E f c.given s s' r) (Unwound E (SliceDeque.owner E) f c.given s) := by
  cases c with
  | tryPushFront v => exact wp_return (conserves_tryPushFront h) deques_ofPush taken_ofPush
  | tryPushBack v => exact wp_return (conserves_tryPushBack h) deques_ofPush taken_ofPush
  | pushFront v => exact wp_return (conserves_pushFront h) (fun _ => rfl) fun _ => rfl
  | pushBack v => exact wp_return (conserves_pushBack h) (fun _ => rfl) fun _ => rfl
  | popFront => exact wp_return (conserves_popFront h) (fun _ => rfl) fun _ => rfl
  | popBack => exact wp_return (conserves_popBack h) (fun _ => rfl) fun _ => rfl
  | tryReserve n => exact wp_return (conserves_tryReserve h) deques_ofReserve taken_ofReserve
  | reserve n => exact wp_return (conserves_grown h (wp_reserve h)) (fun _ => rfl) fun _ => rfl
  | reserveExact n => exact wp_return (conserves_grown h (wp_reserveExact h)) (fun _ => rfl) fun _ => rfl
  | truncateBack n => exact wp_return (conserves_truncateBack h) (fun _ => rfl) fun _ => rfl
  | truncate n => exact wp_return (conserves_truncateBack h) (fun _ => rfl) fun _ => rfl
  | truncateFront n => exact wp_return (conserves_truncateFront h) (fun _ => rfl) fun _ => rfl
  | clear => exact wp_return (conserves_truncateBack h) (fun _ => rfl) fun _ => rfl
  | remove i => exact wp_return (conserves_remove h) (fun _ => rfl) fun _ => rfl
  | swapRemoveBack i => exact wp_return (conserves_swapRemoveBack h) (fun _ => rfl) fun _ => rfl
  | swapRemoveFront i => exact wp_return (conserves_swapRemoveFront h) (fun _ => rfl) fun _ => rfl
  | splitOff k => exact wp_return_deque (conserves_splitOff h)
  | retain g => exact wp_return (conserves_retain h) (fun _ => rfl) fun _ => rfl
  | dedupBy same => exact wp_return (conserves_dedupBy hc h) (fun _ => rfl) fun _ => rfl
  | extend hint iter => exact wp_return (conserves_extend h) (fun _ => rfl) fun _ => rfl
  | resize n v => exact wp_return (conserves_bulk (wp_resize h)) (fun _ => rfl) fun _ => rfl
  | resizeDefault n => exact wp_return (conserves_bulk (wp_resizeDefault h)) (fun _ => rfl) fun _ => rfl
  | extendFromSlice vs => exact hc.elim
  | insert i v => exact hc.elim
  | shrinkToFit => exact hc.elim
  | moveHead x => exact hc.elim
  | moveTail x => exact hc.elim
  | clone => exact wp_return_deque (conserves_clone h)

theorem wp_return_safe {m : DeqM T β Unit}
    (h : wp m s (fun _ s' => Safe (SliceDeque.owner E) s s' []) (SafeUnwound E (SliceDeque.owner E) s)) :
    wp (do
      m
      pure .unit) s (fun r s' => Yields E s s' r) (SafeUnwound E (SliceDeque.owner E) s) := by
  refine wp_seq h (fun _ _ hs => wp_pure.mpr ⟨?_, hs⟩) fun _ _ hp => hp
  simp [Out.deques]

theorem safeUnwound_of_refusal {p : Panic} {s' : Frame (SliceDeque β) T} {dead : List T} (h : WF E s.self) (hc : Clean p)
    (hu : Untouched s s' dead) : SafeUnwound E (SliceDeque.owner E) s p s' :=
  .of_safe hc (Change.of_untouched h hu).safe

theorem safe_insert {i : Nat} {v : T} (h : WF E s.self) :
    wp (SliceDeque.insert E i v) s (fun _ s' => Safe (SliceDeque.owner E) s s' []) (SafeUnwound E (SliceDeque.owner E) s) := by
  refine wp_mono (wp_insert h) (fun _ _ heff => heff.safe) ?_
  rintro p s' ⟨hp, hu⟩
  refine safeUnwound_of_refusal h ?_ hu
  rcases hp with hp | ⟨rfl, -⟩
  · exact hp.clean
  · exact ⟨by simp, by simp⟩

theorem safe_shrinkToFit (h : WF E s.self) :
    wp (SliceDeque.shrinkToFit E) s (fun _ s' => Safe (SliceDeque.owner E) s s' []) (SafeUnwound E (SliceDeque.owner E) s) := by
  refine wp_mono (wp_shrinkToFit h) ?_ ?_
  · rintro _ s' ⟨hshrinks, hstays⟩
    by_cases hs : Shrinks E s.self
    · exact (hshrinks hs).safe
    · exact (hstays hs).safe
  · rintro p s' (⟨-, hp⟩ | ⟨-, rfl, -, heff⟩)
    · exact safeUnwound_of_refusal h hp.untouched.1.clean hp.untouched.2
    · exact .of_safe clean_destructor heff.safe

theorem safe_moveHead {x : Int} (h : WF E s.self) :
    wp (SliceDeque.moveHead E x) s (fun _ s' => Safe (SliceDeque.owner E) s s' []) (SafeUnwound E (SliceDeque.owner E) s) := by
  refine wp_moveHead h (fun d' hm => ?_) fun _ => .of_safe ⟨by simp, by simp⟩ (.refl h)
  exact (Change.of_self hm.wf rfl hm.regions_eq).safe

theorem safe_moveTail {x : Int} (h : WF E s.self) :
    wp (SliceDeque.moveTail E x) s (fun _ s' => Safe (SliceDeque.owner E) s s' []) (SafeUnwound E (SliceDeque.owner E) s) := by
  refine wp_moveTail h (fun n _ hn => ?_) fun _ => .of_safe ⟨by simp, by simp⟩ (.refl h)
  exact (Change.of_self (h.withLen hn) rfl rfl).safe

theorem safe_run (h : WF E s.self) :
    wp (c.run E) s (fun r s' => Yields E s s' r) (SafeUnwound E (SliceDeque.owner E) s) := by
  by_cases hc : c.Keeping fun _ : T => ()
  · exact wp_mono (keeps_run h hc) (fun _ _ hy => hy.yields) fun _ _ hp => hp.safe
  cases c with
  | extendFromSlice vs =>
    exact wp_return_safe (wp_mono (safe_extendFromSlice h) (fun _ _ hs => hs) fun _ _ hp => .of_safe hp.1 hp.2.1)
  | insert i v => exact wp_return_safe (safe_insert h)
  | shrinkToFit => exact wp_return_safe (safe_shrinkToFit h)
  | moveHead x => exact wp_return_safe (safe_moveHead h)
  | moveTail x => exact wp_return_safe (safe_moveTail h)
  | dedupBy same => exact absurd (fun _ _ _ => .refl _) hc
  | _ => exact absurd trivial hc

end Call

/-! ## Iterators that are made, advanced and dropped -/

theorem SliceDeque.wp_fromRawParts {T β X : Type} {E : Env T β} {d : SliceDeque β} {t : Frame X T}
    {Q : SliceDeque β → Frame X T → Prop} {P : Panic → Frame X T → Prop} (h : WF E d) (hr : Rebuildable E d)
    (hQ : Q ⟨d.elems, ⟨d.buf.ptr, 2 * d.buf.cap⟩⟩ t) : wp (fromRawParts E d.buf.ptr d.capacity d.elems) t Q P := by
  obtain ⟨hok, -⟩ := h.buf.recap
  have hlt := h.cap_lt
  simp only [fromRawParts, wp_bind, debugAssert, wp_when, wp_throw, wp_usize, wp_pure]
  refine ⟨fun hb => absurd (hr hb.1).1 hb.2, fun _ => ⟨fun hb => absurd (hr hb.1).2 hb.2, fun _ => ⟨fun _ => ?_, fun hov => ?_⟩⟩⟩
  · rw [Nat.mul_comm]
    exact Buffer.wp_fromRawParts hok (Nat.mul_mod_right _ _) hQ
  · unfold usizeBound isizeBound at *
    omega

theorem SliceDeque.WF.recap {T β : Type} {E : Env T β} {d : SliceDeque β} (h : WF E d) :
    WF E (⟨d.elems, ⟨d.buf.ptr, 2 * d.buf.cap⟩⟩ : SliceDeque β) := by
  obtain ⟨hok, -⟩ := h.buf.recap
  have hcap : (⟨d.buf.ptr, 2 * d.buf.cap⟩ : Buffer β).cap = d.buf.cap := by simp [Buffer.cap]
  refine ⟨hok, ?_, h.begin_ge, ?_, h.aligned⟩
  · rw [capacity, hcap]
    exact h.len_le
  · have hlt := h.begin_lt
    by_cases hs : E.layout.size = 0
    · simpa [Buffer.regionSize, Buffer.byteSize, hs] using hlt
    by_cases hl : d.buf.len = 0
    · simpa [Buffer.regionSize, Buffer.byteSize, Buffer.cap, hl] using hlt
    have ha := h.buf.alloc hs hl
    rwa [Buffer.regionSize, ha.byteSize_len, ha.size_eq] at hlt

namespace Turn
variable {T β ι X : Type} {E : Env T β} {f : T → ι} {v v' : Var T β} {w : World T} {t : Turn T}
variable {taken lost : List T} {out : List (Nat × Nat)}

/-- Not the start of an iterator that moves values around. -/
def Keeping : Turn T → Prop
  | splice _ _ _ => False
  | drainFilter _ => False
  | _ => True

/-- The variable was exchanged, without a trace outside. -/
theorem keeps_exchange (hok : (Var.owner E).ok v') (hv : (Var.owner E).vals v = (Var.owner E).vals v' ++ lost)
    (hm : (Var.owner E).maps v = (Var.owner E).maps v' ++ out) : Keeps (Var.owner E) f ⟨v, w⟩ ⟨v', w⟩ [] lost out := by
  refine ⟨⟨hok, ?_⟩, ?_⟩
  · rw [hm, ← Multiset.coe_add]
    exact .refl _ _
  · rw [hv, ids_append, ids_nil, add_zero]
    exact .refl _ _

/-- The owner of the variable is gone. -/
theorem keeps_discarded {t : World T} (h : Discarded f w t ((Var.owner E).vals v) ((Var.owner E).maps v) lost out) :
    Keeps (Var.owner E) f ⟨v, w⟩ ⟨.gone, t⟩ [] lost out := by
  refine ⟨⟨trivial, ?_⟩, ?_⟩
  · have := h.trade
    rwa [← List.nil_append out] at this
  · rw [ids_nil, add_zero]
    simpa [Var.owner] using h.flow

/-- A drain gave the deque back. -/
theorem keeps_closed {dr : Drain β} {t : Frame (Drain β) T} (h : Drain.Closed E f ⟨dr, w⟩ t lost) :
    Keeps (Var.owner E) f ⟨.drain dr, w⟩ ⟨.deque t.self.deq, t.world⟩ [] lost [] := by
  refine ⟨⟨h.wf, ?_⟩, ?_⟩
  · rw [Multiset.coe_nil, add_zero]
    exact h.trade
  · rw [ids_nil, add_zero]
    exact h.flow

/-- What an operation on a variable that returned `r` leaves; nothing but the values in `lost` and the
mappings in `out` is lost. -/
structure Turned (E : Env T β) (f : T → ι) (s s' : Frame (Var T β) T) (r : Out T (SliceDeque β)) (lost : List T)
    (out : List (Nat × Nat)) : Prop where
  deques_eq : r.deques = []
  plain : s'.self.Plain
  keeps : Keeps (Var.owner E) f s s' [] (r.taken ++ lost) out

/-- `Turned` for an operation that may be a leak. -/
def Settles (E : Env T β) (f : T → ι) (t : Turn T) (s : Frame (Var T β) T) (r : Out T (SliceDeque β)) (s' : Frame (Var T β) T) :
    Prop :=
  ∃ lost out, (t ≠ .leak → lost = [] ∧ out = []) ∧ Turned E f s s' r lost out

/-- An operation that panicked. -/
def Breaks (E : Env T β) (f : T → ι) (s : Frame (Var T β) T) (p : Panic) (s' : Frame (Var T β) T) : Prop :=
  Unwound E (Var.owner E) f [] s p s' ∧ s'.self.Plain

theorem settles_unit {s s' : Frame (Var T β) T} (hp : s'.self.Plain) (hk : Keeps (Var.owner E) f s s' [] [] []) :
    Settles E f t s .unit s' := ⟨[], [], fun _ => ⟨rfl, rfl⟩, rfl, hp, hk⟩

theorem settles_same {s : Frame (Var T β) T} (h : (Var.owner E).ok s.self) (hp : s.self.Plain) : Settles E f t s .unit s :=
  settles_unit hp (.refl h [])

theorem settles_next (wrap : X → Var T β) {O : Owner X T} {m : Method T X (Option T)} {x : X}
    (hok : ∀ x, O.ok x → (Var.owner E).ok (wrap x)) (hm : ∀ x, (Var.owner E).maps (wrap x) = O.maps x)
    (hv : ∀ x, (Var.owner E).vals (wrap x) = O.vals x) (hplain : ∀ x, (wrap x).Plain)
    (h : Conserves E O f m [] Option.toList ⟨x, w⟩) :
    wp (within x wrap (Var.yield m)) (⟨wrap x, w⟩ : Frame (Var T β) T) (Settles E f t ⟨wrap x, w⟩) (Breaks E f ⟨wrap x, w⟩) := by
  rw [wp_within]
  refine wp_seq h (fun r s' hk => wp_pure.mpr ?_) ?_
  · refine ⟨[], [], fun _ => ⟨rfl, rfl⟩, rfl, hplain _, ?_⟩
    rw [List.append_nil]
    exact Var.keeps_wrap hok hm hv hk
  · rintro p s' ⟨hc, lost, out, hl, hk⟩
    exact ⟨⟨hc, lost, out, hl, Var.keeps_wrap hok hm hv hk⟩, hplain _⟩

theorem wp_borrow {make : DeqM T β X} {wrap : X → Var T β} {Q : Out T (SliceDeque β) → Frame (Var T β) T → Prop}
    {P : Panic → Frame (Var T β) T → Prop} (hsame : Q .unit ⟨v, w⟩)
    (hmake : ∀ d, v = .deque d → wp make ⟨d, w⟩ (fun x s' => Q .unit ⟨wrap x, s'.world⟩)
      fun p s' => P p ⟨.deque s'.self, s'.world⟩) : wp (Var.borrow wrap make v) ⟨v, w⟩ Q P := by
  cases v with
  | deque d =>
    simp only [Var.borrow, wp_bind, wp_within, wp_setSelf, wp_pure]
    exact hmake d rfl
  | _ => exact wp_pure.mpr hsame

theorem wp_consume {make : SliceDeque β → Method T (Var T β) X} {wrap : X → Var T β} {d : SliceDeque β}
    {Q : Out T (SliceDeque β) → Frame (Var T β) T → Prop} {P : Panic → Frame (Var T β) T → Prop}
    (hmake : wp (make d) ⟨.gone, w⟩ (fun x s' => Q .unit ⟨wrap x, s'.world⟩) P) :
    wp (Var.consume wrap make (.deque d)) ⟨.deque d, w⟩ Q P := by
  simp only [Var.consume, wp_bind, wp_setSelf, wp_pure]
  exact hmake

theorem settles_drain {start end_ : Bound} (h : (Var.owner E).ok v) (hp : v.Plain) :
    wp (Var.borrow .drain (SliceDeque.drain E start end_) v) ⟨v, w⟩ (Settles E f t ⟨v, w⟩) (Breaks E f ⟨v, w⟩) := by
  apply wp_borrow (settles_same h hp)
  rintro d rfl
  refine wp_mono (wp_drain h) ?_ ?_
  · rintro dr s' ⟨hab, hb, hd, rfl⟩
    refine settles_unit trivial (keeps_exchange hd.ok ?_ ?_)
    · rw [List.append_nil]
      exact (hd.parts hab).symm
    · rw [List.append_nil]
      simp only [Var.owner, hd.deq_eq]
      rfl
  · rintro p s' ⟨rfl, hp, -⟩
    refine ⟨.of_keeps ?_ (.refl h []), trivial⟩
    rcases hp with rfl | rfl <;> exact ⟨by simp, by simp⟩

theorem settles_intoIter (h : (Var.owner E).ok v) (hp : v.Plain) :
    wp (Var.consume .intoIter (SliceDeque.intoIter E) v) ⟨v, w⟩ (Settles E f t ⟨v, w⟩) (Breaks E f ⟨v, w⟩) := by
  cases v with
  | deque d =>
    apply wp_consume
    refine SliceDeque.wp_intoIter h fun it hit => settles_unit trivial (keeps_exchange hit.ok ?_ ?_)
    · rw [List.append_nil]
      exact hit.vals_eq.symm
    · rw [List.append_nil]
      exact hit.regions_eq.symm
  | _ => exact wp_pure.mpr (settles_same h hp)

theorem settles_rebuild (h : (Var.owner E).ok v) (hp : v.Plain) :
    wp (Var.rebuild E v) ⟨v, w⟩ (Settles E f t ⟨v, w⟩) (Breaks E f ⟨v, w⟩) := by
  cases v with
  | deque d =>
    simp only [Var.rebuild, wp_ite]
    refine ⟨fun hr => ?_, fun _ => wp_pure.mpr (settles_same h hp)⟩
    have hwf : WF E d := h
    apply wp_consume
    refine SliceDeque.wp_fromRawParts hwf hr (settles_unit trivial (keeps_exchange hwf.recap ?_ ?_))
    · rw [List.append_nil]
      rfl
    · rw [List.append_nil]
      exact hwf.buf.recap.2.symm
  | _ => exact wp_pure.mpr (settles_same h hp)

/-- The iterator gives the deque back, or is gone. -/
theorem settles_dropped {x : X} {put : X → Var T β} {m : Method T X Unit}
    (h : wp m ⟨x, w⟩ (fun _ s' => Keeps (Var.owner E) f ⟨v, w⟩ ⟨put s'.self, s'.world⟩ [] [] [])
      fun p s' => p = .destructor ∧ DestructorsPanic E ∧ ∃ lost out,
        Keeps (Var.owner E) f ⟨v, w⟩ ⟨put s'.self, s'.world⟩ [] lost out) (hplain : ∀ x, (put x).Plain) :
    wp (within x put (Var.dropped m)) (⟨v, w⟩ : Frame (Var T β) T) (Settles E f t ⟨v, w⟩) (Breaks E f ⟨v, w⟩) := by
  rw [wp_within]
  refine wp_seq h (fun _ s' hk => wp_pure.mpr (settles_unit (hplain _) hk)) ?_
  rintro p s' ⟨rfl, hd, lost, out, hk⟩
  exact ⟨⟨clean_destructor, lost, out, fun hn => absurd hd hn, hk⟩, hplain _⟩

theorem keeps_consumed {d : SliceDeque β} {s' : Frame (SliceDeque β) T}
    (h : Consumed ⟨d, w⟩ s' (d.regions E) (d.toList E)) : Keeps (Var.owner E) f ⟨.deque d, w⟩ ⟨.gone, s'.world⟩ [] [] [] := by
  refine keeps_discarded ⟨?_, h.log.moves ?_⟩
  · have := h.trade 0
    rwa [zero_add] at this
  · rw [ids_nil, add_zero, zero_add]
    rfl

theorem settles_drop (h : (Var.owner E).ok v) (hp : v.Plain) :
    wp (Var.drop E v) ⟨v, w⟩ (Settles E f t ⟨v, w⟩) (Breaks E f ⟨v, w⟩) := by
  cases v with
  | gone => exact wp_pure.mpr (settles_same h hp)
  | deque d =>
    rw [Var.drop]
    apply settles_dropped
    · simp only [dropSelf, wp_bind, wp_self]
      refine wp_mono (SliceDeque.wp_drop h) (fun _ _ hc => keeps_consumed hc) ?_
      rintro p s' ⟨hp, hd, hc⟩
      exact ⟨hp, hd, [], [], keeps_consumed hc⟩
    · exact fun _ => trivial
  | drain dr =>
    rw [Var.drop]
    apply settles_dropped
    · refine wp_mono (Drain.closes_drop h) (fun _ _ hc => keeps_closed hc) ?_
      rintro p s' ⟨hp, hd, lost, hc⟩
      exact ⟨hp, hd, lost, [], keeps_closed hc⟩
    · exact fun _ => trivial
  | intoIter it =>
    rw [Var.drop]
    apply settles_dropped
    · refine wp_mono (IntoIter.discards_drop h) (fun _ _ hc => keeps_discarded hc) ?_
      rintro p s' ⟨hp, hd, lost, out, hc⟩
      exact ⟨hp, hd, lost, out, keeps_discarded hc⟩
    · exact fun _ => trivial
  | splice sp => exact hp.elim
  | drainFilter df pred => exact hp.elim

theorem settles_leak (h : (Var.owner E).ok v) (hp : v.Plain) :
    wp (Var.dropped (setSelf v.leak)) ⟨v, w⟩ (Settles E f .leak ⟨v, w⟩) (Breaks E f ⟨v, w⟩) := by
  simp only [Var.dropped, wp_bind, wp_setSelf, wp_pure]
  have hleak : ∀ lost out, Keeps (Var.owner E) f ⟨v, w⟩ ⟨v.leak, w⟩ [] lost out → v.leak.Plain →
      Settles E f .leak ⟨v, w⟩ .unit ⟨v.leak, w⟩ :=
    fun lost out hk hplain => ⟨lost, out, fun hne => absurd rfl hne, rfl, hplain, hk⟩
  cases v with
  | gone => exact hleak [] [] (.refl h []) trivial
  | deque d => exact hleak _ _ (keeps_exchange trivial rfl rfl) trivial
  | drain dr =>
    have hok : Drain.Ok E dr := h
    refine hleak (dr.items E ++ dr.tail E) [] (keeps_exchange hok.wf ?_ ?_) trivial
    · exact List.append_assoc _ _ _
    · rw [List.append_nil]
      rfl
  | intoIter it => exact hleak _ _ (keeps_exchange trivial rfl rfl) trivial
  | splice sp => exact hp.elim
  | drainFilter df pred => exact hp.elim

theorem settles_yield (h : (Var.owner E).ok v) (hp : v.Plain) :
    wp (Var.next E v) ⟨v, w⟩ (Settles E f t ⟨v, w⟩) (Breaks E f ⟨v, w⟩) ∧
      wp (Var.nextBack E v) ⟨v, w⟩ (Settles E f t ⟨v, w⟩) (Breaks E f ⟨v, w⟩) := by
  cases v with
  | drain dr =>
    have hnext := fun {m : Method T (Drain β) (Option T)} => settles_next .drain (t := t) (f := f) (E := E) (w := w) (m := m)
      (x := dr) (O := Drain.owner E) (fun _ h => h) (fun _ => rfl) (fun _ => rfl) fun _ => trivial
    exact ⟨hnext (Drain.conserves_next h), hnext (Drain.conserves_nextBack h)⟩
  | intoIter it =>
    have hnext := fun {m : Method T (IntoIter β) (Option T)} => settles_next .intoIter (t := t) (f := f) (E := E) (w := w) (m := m)
      (x := it) (O := IntoIter.owner E) (fun _ h => h) (fun _ => rfl) (fun _ => rfl) fun _ => trivial
    exact ⟨hnext (IntoIter.conserves_next h), hnext (IntoIter.conserves_nextBack h)⟩
  | gone => exact ⟨wp_pure.mpr (settles_same h hp), wp_pure.mpr (settles_same h hp)⟩
  | deque d => exact ⟨wp_pure.mpr (settles_same h hp), wp_pure.mpr (settles_same h hp)⟩
  | splice sp => exact hp.elim
  | drainFilter df pred => exact hp.elim

/-- Every value and every mapping is accounted for. -/
theorem keeps_run (h : (Var.owner E).ok v) (hp : v.Plain) (ht : t.Keeping) :
    wp (t.run E v) ⟨v, w⟩ (Settles E f t ⟨v, w⟩) (Breaks E f ⟨v, w⟩) := by
  cases t with
  | drain start end_ => exact settles_drain h hp
  | splice start end_ iter => exact ht.elim
  | drainFilter pred => exact ht.elim
  | intoIter => exact settles_intoIter h hp
  | rebuild => exact settles_rebuild h hp
  | next => exact (settles_yield h hp).1
  | nextBack => exact (settles_yield h hp).2
  | drop => exact settles_drop h hp
  | leak => exact settles_leak h hp

/-- The same without the values. -/
structure Leaves (E : Env T β) (t : Turn T) (s : Frame (Var T β) T) (r : Out T (SliceDeque β)) (s' : Frame (Var T β) T) : Prop where
  deques_eq : r.deques = []
  safe : ∃ out, (t ≠ .leak → out = []) ∧ Safe (Var.owner E) s s' out

theorem Leaves.of_safe {s s' : Frame (Var T β) T} {r : Out T (SliceDeque β)} (hr : r.deques = [])
    (h : Safe (Var.owner E) s s' []) : Leaves E t s r s' := ⟨hr, [], fun _ => rfl, h⟩

theorem leaves_same {s : Frame (Var T β) T} (h : (Var.owner E).ok s.self) : Leaves E t s .unit s := .of_safe rfl (.refl h)

theorem safe_splice {start end_ : Bound} {iter : UserIter T} (h : (Var.owner E).ok v) :
    wp (Var.borrow .splice (SliceDeque.splice E start end_ iter) v) ⟨v, w⟩ (Leaves E t ⟨v, w⟩) (SafeUnwound E (Var.owner E) ⟨v, w⟩) := by
  apply wp_borrow (leaves_same h)
  rintro d rfl
  refine wp_seq (wp_drain h) ?_ ?_
  · rintro dr s' ⟨-, -, hd, rfl⟩
    refine wp_pure.mpr (.of_safe rfl ⟨hd.ok, ?_⟩)
    simp only [Var.owner, hd.deq_eq, Multiset.coe_nil, add_zero]
    exact .refl _ _
  · rintro p s' ⟨rfl, hp, -⟩
    refine .of_safe ?_ (.refl h)
    rcases hp with rfl | rfl <;> exact ⟨by simp, by simp⟩

theorem safe_drainFilter {pred : List T → T → Option Bool × T} (h : (Var.owner E).ok v) :
    wp (Var.borrow (.drainFilter · pred) (SliceDeque.drainFilter E) v) ⟨v, w⟩ (Leaves E t ⟨v, w⟩)
      (SafeUnwound E (Var.owner E) ⟨v, w⟩) := by
  apply wp_borrow (leaves_same h)
  rintro d rfl
  refine wp_mono (wp_drainFilter (P := fun _ _ => False) h) ?_ fun _ _ => False.elim
  rintro df s' ⟨hshows, rfl, hreg⟩
  refine .of_safe rfl ⟨hshows.ok, ?_⟩
  simp only [Var.owner, hreg, Multiset.coe_nil, add_zero]
  exact .refl _ _

theorem safe_onDrain {sp : Splice T β} {m : Method T (Drain β) (Option T)}
    (h : Conserves E (Drain.owner E) (fun _ => ()) m [] Option.toList ⟨sp.drain, w⟩) :
    wp (within sp .splice (Var.yield (Splice.onDrain m))) (⟨.splice sp, w⟩ : Frame (Var T β) T)
      (Leaves E t ⟨.splice sp, w⟩) (SafeUnwound E (Var.owner E) ⟨.splice sp, w⟩) := by
  simp only [Var.yield, Splice.onDrain, wp_within, wp_bind, wp_onPart, wp_pure]
  refine wp_mono h (fun _ _ hk => .of_safe rfl ⟨hk.ok, hk.trade⟩) fun p s' hp => ?_
  obtain ⟨hc, out, hl, hs⟩ := hp.safe
  exact ⟨hc, out, hl, hs.ok, hs.trade⟩

theorem leaves_leak (hok : (Var.owner E).ok v.leak) (hm : (Var.owner E).maps v.leak = (Var.owner E).maps v) :
    wp (Var.dropped (setSelf v.leak)) ⟨v, w⟩ (Leaves E t ⟨v, w⟩) (SafeUnwound E (Var.owner E) ⟨v, w⟩) := by
  simp only [Var.dropped, wp_bind, wp_setSelf, wp_pure]
  refine .of_safe rfl ⟨hok, ?_⟩
  rw [hm, Multiset.coe_nil, add_zero]
  exact .refl _ _

theorem safe_splice_turn {sp : Splice T β} (h : Drain.Ok E sp.drain) (ht : t.Keeping) :
    wp (t.run E (.splice sp)) ⟨.splice sp, w⟩ (Leaves E t ⟨.splice sp, w⟩) (SafeUnwound E (Var.owner E) ⟨.splice sp, w⟩) := by
  have hok : (Var.owner E).ok (.splice sp) := h
  cases t with
  | next => exact safe_onDrain (Drain.conserves_next h)
  | nextBack => exact safe_onDrain (Drain.conserves_nextBack h)
  | drop =>
    simp only [run, Var.drop, Var.dropped, wp_within, wp_bind, wp_pure]
    refine wp_mono (Splice.safe_drop h) (fun _ s' hs => .of_safe rfl ⟨hs.1, ?_⟩) ?_
    · rw [Multiset.coe_nil, add_zero]
      exact hs.2
    · rintro p s' ⟨hc, hwf, out, hl, ht⟩
      exact ⟨hc, out, hl, hwf, ht⟩
  | leak => exact leaves_leak (v := .splice sp) h.wf rfl
  | splice start end_ iter => exact ht.elim
  | drainFilter pred => exact ht.elim
  | _ => exact wp_pure.mpr (leaves_same hok)

theorem safe_drainFilter_turn {df : DrainFilter T β} {pred : List T → T → Option Bool × T} (h : DrainFilter.Ok E df)
    (ht : t.Keeping) : wp (t.run E (.drainFilter df pred)) ⟨.drainFilter df pred, w⟩ (Leaves E t ⟨.drainFilter df pred, w⟩)
      (SafeUnwound E (Var.owner E) ⟨.drainFilter df pred, w⟩) := by
  have hok : (Var.owner E).ok (.drainFilter df pred) := h
  cases t with
  | next =>
    simp only [run, Var.next, Var.yield, wp_within, wp_bind, wp_pure]
    refine wp_mono (DrainFilter.safe_next h) (fun _ _ hs => .of_safe rfl ⟨hs.ok, hs.trade⟩) ?_
    rintro p s' ⟨rfl, hs⟩
    exact .of_safe clean_user ⟨hs.ok, hs.trade⟩
  | drop =>
    simp only [run, Var.drop, Var.dropped, wp_within, wp_bind, wp_pure]
    have hsafe : ∀ {d : SliceDeque β} {w' : World T}, WF E d → Trade w (df.deq.regions E) w' (d.regions E) →
        Safe (Var.owner E) ⟨.drainFilter df pred, w⟩ ⟨.deque d, w'⟩ [] := by
      refine fun hwf htr => ⟨hwf, ?_⟩
      rw [Multiset.coe_nil, add_zero]
      exact htr
    refine wp_mono (DrainFilter.safe_drop h) (fun _ _ hs => .of_safe rfl (hsafe hs.1 hs.2)) ?_
    exact fun p s' hp => .of_safe hp.1 (hsafe hp.2.1 hp.2.2)
  | leak => exact leaves_leak (v := .drainFilter df pred) h.wf rfl
  | splice start end_ iter => exact ht.elim
  | drainFilter pred' => exact ht.elim
  | _ => exact wp_pure.mpr (leaves_same hok)

theorem safe_run (h : (Var.owner E).ok v) :
    wp (t.run E v) ⟨v, w⟩ (Leaves E t ⟨v, w⟩) (SafeUnwound E (Var.owner E) ⟨v, w⟩) := by
  by_cases ht : t.Keeping
  · by_cases hp : v.Plain
    · refine wp_mono (keeps_run (f := fun _ : T => ()) h hp ht) ?_ fun _ _ hb => hb.1.safe
      rintro r s' ⟨lost, out, hl, hturn⟩
      exact ⟨hturn.deques_eq, out, fun hne => (hl hne).2, hturn.keeps.toSafe⟩
    · cases v with
      | splice sp => exact safe_splice_turn h ht
      | drainFilter df pred => exact safe_drainFilter_turn h ht
      | _ => exact absurd trivial hp
  · cases t with
    | splice start end_ iter => exact safe_splice h
    | drainFilter pred => exact safe_drainFilter h
    | _ => exact absurd trivial ht

end Turn

end Sdeq
