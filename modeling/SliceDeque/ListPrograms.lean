import SliceDeque.ProgramRuns

/-!
# Programs on lists

What a program does to deques, it does to lists. The contents of every deque are
those of its list as long as the allocator grants what is asked for, no size
overflows and indices are in range.
-/

set_option autoImplicit false

namespace Sdeq
open Exec SliceDeque

namespace Call
variable {T β : Type}

/-- The methods that have a counterpart for lists. -/
def listed : Call T → Bool
  | tryPushFront _ => true
  | tryPushBack _ => true
  | pushFront _ => true
  | pushBack _ => true
  | popFront => true
  | popBack => true
  | tryReserve _ => true
  | reserve _ => true
  | reserveExact _ => true
  | truncateBack _ => true
  | truncate _ => true
  | truncateFront _ => true
  | clear => true
  | remove _ => true
  | swapRemoveBack _ => true
  | swapRemoveFront _ => true
  | splitOff _ => true
  | _ => false

/-- The index is one of a list of `n` values; `swap_remove` looks at it only if there are any. -/
def inRange (n : Nat) : Call T → Bool
  | remove i => i < n
  | swapRemoveBack i => n = 0 ∨ i < n
  | swapRemoveFront i => n = 0 ∨ i < n
  | splitOff k => k ≤ n
  | _ => true

/-- What the counterpart returns, and the list that it leaves. -/
def onList : Call T → List T → Out T (List T) × List T
  | tryPushFront v, l => (.unit, v :: l)
  | tryPushBack v, l => (.unit, l ++ [v])
  | pushFront v, l => (.unit, v :: l)
  | pushBack v, l => (.unit, l ++ [v])
  | popFront, l => (.value l.head?, l.tail)
  | popBack, l => (.value l.getLast?, l.dropLast)
  | truncateBack n, l => (.unit, l.take n)
  | truncate n, l => (.unit, l.take n)
  | truncateFront n, l => (.unit, l.drop (l.length - n))
  | clear, _ => (.unit, [])
  | remove i, l => (.value l[i]?, l.eraseIdx i)
  | swapRemoveBack i, l => (.value l[i]?, (l.getLast?.elim l (l.set i)).dropLast)
  | swapRemoveFront i, l => (.value l[i]?, (l.head?.elim l (l.set i)).tail)
  | splitOff k, l => (.deque (l.drop k), l.take k)
  | _, l => (.unit, l)

variable {E : Env T β} {s : Frame (SliceDeque β) T} {c : Call T}

/-- The counterpart returned `r` and left what the deque holds now. -/
def Matches (E : Env T β) (c : Call T) (l : List T) (r : Out T (SliceDeque β)) (d : SliceDeque β) : Prop :=
  c.onList l = (r.map (toList E), d.toList E)

/-- A panic that is not the fault of a destructor has to do with memory. -/
def Excused (E : Env T β) (c : Call T) (s : Frame (SliceDeque β) T) (p : Panic) (s' : Frame (SliceDeque β) T) : Prop :=
  p = .destructor ∧ Matches E c (s.self.toList E) .unit s'.self ∨ SizePanic E p ∨ ¬ s.world.AllGranted s'.world

variable {s' : Frame (SliceDeque β) T} {l dead made : List T} {p : Panic}

theorem Matches.of_change {r : Out T (SliceDeque β)} (h : Change E s s' l dead made)
    (hc : c.onList (s.self.toList E) = (r.map (toList E), l)) : Matches E c (s.self.toList E) r s'.self := by
  rw [Matches, hc, h.toList_eq]

theorem Matches.of_grown {n : Nat} (h : Grown E s s' n) (hc : c.onList (s.self.toList E) = (.unit, s.self.toList E)) :
    Matches E c (s.self.toList E) .unit s'.self := by
  rw [Matches, hc, h.toList_eq]
  rfl

theorem Excused.of_dropped (h : Dropped E s l dead p s') (hc : c.onList (s.self.toList E) = (.unit, l)) :
    Excused E c s p s' := .inl ⟨h.1, .of_change h.2.2 hc⟩

theorem matches_bind {α : Type} {m : DeqM T β α} {f : α → Out T (SliceDeque β)} {Q : α → Frame (SliceDeque β) T → Prop}
    {P : Panic → Frame (SliceDeque β) T → Prop} (h : wp m s Q P)
    (hQ : ∀ a s', Q a s' → s.world.AllGranted s'.world → Matches E c (s.self.toList E) (f a) s'.self)
    (hP : ∀ p s', P p s' → Excused E c s p s') :
    wp (m >>= fun a => pure (f a)) s
      (fun r s' => s.world.AllGranted s'.world → Matches E c (s.self.toList E) r s'.self) (Excused E c s) :=
  wp_seq h (fun a s' ha => wp_pure.mpr (hQ a s' ha)) hP

theorem matches_run (h : WF E s.self) (hc : c.listed = true) (hi : c.inRange s.self.elems.len = true) :
    wp (c.run E) s (fun r s' => s.world.AllGranted s'.world → Matches E c (s.self.toList E) r s'.self) (Excused E c s) := by
  cases c with
  | tryPushFront v =>
    refine matches_bind (wp_tryPushFront h) ?_ fun p s' hp => .inr (.inl hp.1)
    rintro (⟨u, e⟩ | ⟨⟩) s' hs' hg
    · exact absurd hg hs'.2.not_allGranted
    · exact .of_change hs'.1 rfl
  | tryPushBack v =>
    refine matches_bind (wp_tryPushBack h) ?_ fun p s' hp => .inr (.inl hp.1)
    rintro (⟨u, e⟩ | ⟨⟩) s' hs' hg
    · exact absurd hg hs'.2.not_allGranted
    · exact .of_change hs'.1 rfl
  | pushFront v => exact matches_bind (wp_pushFront h) (fun _ _ heff _ => .of_change heff rfl) fun _ _ hp => .inr hp.cause
  | pushBack v => exact matches_bind (wp_pushBack h) (fun _ _ heff _ => .of_change heff rfl) fun _ _ hp => .inr hp.cause
  | popFront =>
    refine matches_bind (wp_popFront (P := fun _ _ => False) h) ?_ fun _ _ => False.elim
    rintro _ s' ⟨rfl, heff⟩ -
    exact .of_change heff rfl
  | popBack =>
    refine matches_bind (wp_popBack (P := fun _ _ => False) h) ?_ fun _ _ => False.elim
    rintro _ s' ⟨rfl, heff⟩ -
    exact .of_change heff rfl
  | tryReserve n =>
    refine matches_bind (wp_tryReserve h) ?_ fun p s' hp => .inr (.inl hp.2)
    rintro (e | ⟨⟩) s' hs' hg
    · exact absurd hg hs'.not_allGranted
    · exact .of_grown hs' rfl
  | reserve n => exact matches_bind (wp_reserve h) (fun _ _ hg _ => .of_grown hg rfl) fun _ _ hp => .inr hp.denied.cause
  | reserveExact n =>
    exact matches_bind (wp_reserveExact h) (fun _ _ hg _ => .of_grown hg rfl) fun _ _ hp => .inr hp.denied.cause
  | truncateBack n =>
    exact matches_bind (wp_truncateBack h) (fun _ _ heff _ => .of_change heff rfl) fun _ _ hp => .of_dropped hp rfl
  | truncate n =>
    exact matches_bind (wp_truncateBack h) (fun _ _ heff _ => .of_change heff rfl) fun _ _ hp => .of_dropped hp rfl
  | clear => exact matches_bind (wp_clear h) (fun _ _ heff _ => .of_change heff rfl) fun _ _ hp => .of_dropped hp rfl
  | truncateFront n =>
    have htruncate := wp_truncateFront (n := n) h
    rw [← toList_length (E := E)] at htruncate
    exact matches_bind htruncate (fun _ _ heff _ => .of_change heff rfl) fun _ _ hp => .of_dropped hp rfl
  | remove i =>
    have hlt : i < s.self.elems.len := of_decide_eq_true hi
    refine matches_bind (wp_remove h) ?_ fun p s' hp => absurd hlt (Nat.not_lt.mpr hp.2.1)
    rintro v s' ⟨hv, heff⟩ -
    exact .of_change heff (by rw [onList, hv, Out.map])
  | swapRemoveBack i =>
    have hlt : s.self.elems.len = 0 ∨ i < s.self.elems.len := of_decide_eq_true hi
    refine matches_bind (wp_swapRemoveBack h) ?_ fun p s' hp => absurd hlt (by omega)
    rintro r s' (⟨hnil, rfl, rfl⟩ | ⟨v, last, rfl, hv, hlast, heff⟩) -
    · exact .of_change (.refl h) (by rw [onList, hnil]; rfl)
    · exact .of_change heff (by rw [onList, hv, hlast]; rfl)
  | swapRemoveFront i =>
    have hlt : s.self.elems.len = 0 ∨ i < s.self.elems.len := of_decide_eq_true hi
    refine matches_bind (wp_swapRemoveFront h) ?_ fun p s' hp => absurd hlt (by omega)
    rintro r s' (⟨hnil, rfl, rfl⟩ | ⟨v, first, rfl, hv, hfirst, heff⟩) -
    · exact .of_change (.refl h) (by rw [onList, hnil]; rfl)
    · exact .of_change heff (by rw [onList, hv, hfirst]; rfl)
  | splitOff k =>
    have hle : k ≤ s.self.elems.len := of_decide_eq_true hi
    refine matches_bind (wp_splitOff h) ?_ ?_
    · rintro other s' ⟨hk, hmade⟩ -
      rw [Matches, onList, Out.map, hmade.toList_eq, hmade.self_eq, toList_withLen hk]
    · rintro p s' (hp | ⟨-, hlt, -⟩)
      · exact .inr hp.cause
      · omega
  | _ => cases hc

end Call

/-- What `as_slice` shows of a variable that holds a deque. -/
def Var.slice? {T β : Type} (E : Env T β) : Var T β → Option (List T)
  | .deque d => some (d.toList E)
  | _ => none

namespace Op
variable {T β : Type}

/-- The operations that have a counterpart for lists. -/
def listed : Op T → Bool
  | new => true
  | withCapacity _ => true
  | call _ c => c.listed
  | append _ _ => true
  | _ => false

def inRange (p : Program T β) : Op T → Bool
  | call i c =>
    match p.vars[i]? with
    | some (.deque d) => c.inRange d.elems.len
    | _ => true
  | _ => true

/-- The counterpart of `perform` for variables that hold lists. -/
def onLists : Op T → List (List T) → Out T (List T) × List (List T)
  | new, ls => (.deque [], ls)
  | withCapacity _, ls => (.deque [], ls)
  | call i c, ls =>
    match ls[i]? with
    | some l => ((c.onList l).1, ls.set i (c.onList l).2)
    | none => (.unit, ls)
  | append i j, ls =>
    match ls[i]?, ls[j]? with
    | some l, some l' => if i = j then (.unit, ls) else (.unit, (ls.set i (l ++ l')).set j [])
    | _, _ => (.unit, ls)
  | _, ls => (.unit, ls)

end Op

namespace Program
variable {T β : Type} (E : Env T β)

def slices (p : Program T β) : List (Option (List T)) := p.vars.map (Var.slice? E)

/-- The counterpart of `step`: a list that is returned gets a variable. -/
def listStep (op : Op T) (ls : List (List T)) : Out T Nat × List (List T) :=
  ((op.onLists ls).1.map fun _ => (op.onLists ls).2.length, (op.onLists ls).2 ++ (op.onLists ls).1.deques)

/-- The result is not due to a size that overflows, nor to elements that are aligned more strictly than pages. -/
def Sized {α : Type} : Except Panic α → Prop
  | .ok _ => True
  | .error p => ¬ SizePanic E p

/-- An operation on lists, with indices in range, that gets the memory it asks for. No size overflows. -/
structure Smooth (op : Op T) (s : Frame (Program T β) T) : Prop where
  listed : op.listed = true
  inRange : op.inRange s.self = true
  exact : Exact (step E op) s
  sized : Sized E (step E op s).result
  granted : s.world.AllGranted (step E op s).state.world

/-- Destructors may panic, but only after everything else was done. -/
def Agrees (r : Except Panic (Out T Nat)) (b : Out T Nat) : Prop := r = .ok b ∨ r = .error .destructor ∧ b = .unit

variable {E} {p : Program T β} {s : Frame (Program T β) T} {op : Op T} {ls : List (List T)} {l : List T} {i : Nat}

instance {α : Type} : ∀ r : Except Panic α, Decidable (Sized E r)
  | .ok _ => isTrue trivial
  | .error p => inferInstanceAs (Decidable (¬ (p = .overflow ∨ p = .assert ∧ E.granularity < E.layout.align)))

instance : Decidable (Smooth E op s) :=
  have : Decidable (s.world.AllGranted (step E op s).state.world) := inferInstanceAs (Decidable (_ = _))
  decidable_of_iff (op.listed = true ∧ op.inRange s.self = true ∧ Exact (step E op) s ∧ Sized E (step E op s).result ∧
    s.world.AllGranted (step E op s).state.world)
    ⟨fun h => ⟨h.1, h.2.1, h.2.2.1, h.2.2.2.1, h.2.2.2.2⟩, fun h => ⟨h.listed, h.inRange, h.exact, h.sized, h.granted⟩⟩

theorem slices_put (v : Var T β) : (p.put i v).slices E = (p.slices E).set i (v.slice? E) := List.map_set

theorem slices_accept (r : Out T (SliceDeque β)) :
    (p.accept r).slices E = p.slices E ++ (r.deques.map (toList E)).map some := by
  simp only [slices, accept, List.map_append, List.map_map]
  rfl

section Lists
variable (hls : p.slices E = ls.map some)
include hls

theorem deque_of_list (hl : ls[i]? = some l) : ∃ d, p.vars[i]? = some (.deque d) ∧ d.toList E = l := by
  have hslice : (p.slices E)[i]? = some (some l) := by
    rw [hls, List.getElem?_map, hl]
    rfl
  rw [slices, List.getElem?_map, Option.map_eq_some_iff] at hslice
  obtain ⟨v, hv, hshown⟩ := hslice
  cases v with
  | deque d =>
    cases hshown
    exact ⟨d, hv, rfl⟩
  | _ => cases hshown

theorem gone_of_list (hl : ls[i]? = none) : p.vars[i]? = none := by
  have hslice : (p.slices E)[i]? = none := by
    rw [hls, List.getElem?_map, hl]
    rfl
  rwa [slices, List.getElem?_map, Option.map_eq_none_iff] at hslice

theorem vars_length : p.vars.length = ls.length := by
  have := congrArg List.length hls
  rwa [slices, List.length_map, List.length_map] at this

end Lists

/-! ## Operations -/

/-- The counterpart returned `r` and left what the variables hold now. -/
def Follows (E : Env T β) (op : Op T) (ls : List (List T)) (r : Out T (SliceDeque β)) (p : Program T β) : Prop :=
  ∃ ls', op.onLists ls = (r.map (toList E), ls') ∧ p.slices E = ls'.map some

/-- A panic that is not the fault of a destructor has to do with memory. -/
def Excused (E : Env T β) (op : Op T) (ls : List (List T)) (s : Frame (Program T β) T) (e : Panic) (s' : Frame (Program T β) T) :
    Prop :=
  e = .destructor ∧ Follows E op ls .unit s'.self ∨ SizePanic E e ∨ ¬ s.world.AllGranted s'.world

theorem follows_call {c : Call T} {d d' : SliceDeque β} {r : Out T (SliceDeque β)} (hls : p.slices E = ls.map some)
    (hl : ls[i]? = some (d.toList E)) (hm : Call.Matches E c (d.toList E) r d') :
    Follows E (.call i c) ls r ((p.put i (.deque d')).give c.given) := by
  refine ⟨ls.set i (d'.toList E), ?_, ?_⟩
  · simp only [Op.onLists, hl]
    rw [hm]
  · change (p.put i (.deque d')).slices E = _
    rw [slices_put, hls, List.map_set]
    rfl

theorem follows_perform (h : (owner E).ok s.self) (hls : s.self.slices E = ls.map some) (hop : op.listed = true)
    (hin : op.inRange s.self = true) :
    wp (perform E op) s (fun r s' => s.world.AllGranted s'.world → Follows E op ls r s'.self) (Excused E op ls s) := by
  obtain ⟨p, w⟩ := s
  cases op with
  | new => exact wp_pure.mpr fun _ => ⟨ls, rfl, hls⟩
  | withCapacity n =>
    refine wp_seq wp_withCapacity ?_ fun e s' hp => .inr hp.denied.cause
    rintro d s' ⟨hd, -⟩
    refine wp_pure.mpr fun _ => ⟨ls, ?_, ?_⟩
    · rw [Op.onLists, Out.map, hd.toList_eq]
    · rw [hd.self_eq]
      exact hls
  | call i c =>
    simp only [perform, wp_bind, wp_self]
    cases hl : ls[i]? with
    | none =>
      rw [gone_of_list hls hl]
      exact wp_pure.mpr fun _ => ⟨ls, by simp only [Op.onLists, hl]; rfl, hls⟩
    | some l =>
      obtain ⟨d, hi, rfl⟩ := deque_of_list hls hl
      simp only [Op.inRange, hi] at hin
      rw [hi]
      refine wp_within.mpr (wp_mono (Call.matches_run (ok_var hi h) hop hin) ?_ ?_)
      · exact fun r t hm hg => follows_call hls hl (hm hg)
      · rintro e t (⟨he, hm⟩ | hp)
        · exact .inl ⟨he, follows_call hls hl hm⟩
        · exact .inr hp
  | append i j =>
    simp only [perform, wp_bind, wp_self]
    cases hl : ls[i]? with
    | none =>
      rw [gone_of_list hls hl]
      exact wp_pure.mpr fun _ => ⟨ls, by simp only [Op.onLists, hl]; rfl, hls⟩
    | some l =>
      obtain ⟨d, hi, rfl⟩ := deque_of_list hls hl
      cases hl' : ls[j]? with
      | none =>
        rw [hi, gone_of_list hls hl']
        exact wp_pure.mpr fun _ => ⟨ls, by simp only [Op.onLists, hl, hl']; rfl, hls⟩
      | some l' =>
        obtain ⟨d', hj, rfl⟩ := deque_of_list hls hl'
        simp only [hi, hj, wp_ite]
        refine ⟨fun hij => wp_pure.mpr fun _ => ⟨ls, by simp only [Op.onLists, hl, hl', if_pos hij]; rfl, hls⟩, fun hij => ?_⟩
        refine wp_within.mpr (wp_seq (wp_append (p := ⟨(d, d'), w⟩) (ok_var hi h) (ok_var hj h)) ?_ ?_)
        · rintro _ t ⟨heff, hsnd⟩
          refine wp_pure.mpr fun _ => ⟨(ls.set i (d.toList E ++ d'.toList E)).set j [], ?_, ?_⟩
          · simp only [Op.onLists, hl, hl', if_neg hij]
            rfl
          · rw [slices_put, slices_put, hls, hsnd, List.map_set, List.map_set, Var.slice?, heff.toList_eq]
            rfl
        · exact fun e t hd => .inr hd.cause
  | _ => cases hop

/-! ## Steps and runs -/

theorem listStep_of_follows {r : Out T (SliceDeque β)} (h : Follows E op ls r p) :
    (listStep op ls).1 = r.map (fun _ => p.vars.length) ∧ (p.accept r).slices E = (listStep op ls).2.map some := by
  obtain ⟨ls', hop, hls'⟩ := h
  rw [listStep, hop]
  constructor
  · rw [vars_length hls']
    cases r <;> rfl
  · rw [slices_accept, hls', List.map_append]
    cases r <;> rfl

/-- What a step returns is what its counterpart returns, and so is what it leaves. -/
theorem listStep_step (h : (owner E).ok s.self) (hls : s.self.slices E = ls.map some) (hs : Smooth E op s) :
    Agrees (step E op s).result (listStep op ls).1 ∧ (step E op s).state.self.slices E = (listStep op ls).2.map some := by
  have hstep : wp (step E op) s
      (fun b s' => s.world.AllGranted s'.world → (listStep op ls).1 = b ∧ s'.self.slices E = (listStep op ls).2.map some)
      (Excused E op ls s) :=
    wp_finish (wp_mono (follows_perform h hls hs.listed hs.inRange) (fun r s' hf hg => listStep_of_follows (hf hg)) fun _ _ => id)
  have hends := hstep.ends hs.exact
  have hsized := hs.sized
  revert hends hsized
  cases (step E op s).result with
  | ok b =>
    intro hends _
    obtain ⟨rfl, hslices⟩ := hends hs.granted
    exact ⟨.inl rfl, hslices⟩
  | error e =>
    rintro (⟨rfl, hf⟩ | hsize | hrefused) hsized
    · obtain ⟨hunit, hslices⟩ := listStep_of_follows hf
      rw [accept_unit] at hslices
      exact ⟨.inr ⟨rfl, hunit⟩, hslices⟩
    · exact absurd hsize hsized
    · exact absurd hs.granted hrefused

/-- In every state that is reached each deque shows its list, and every operation returned what it returns for lists. -/
theorem reached_slices {ops : List (Op T)} (h : Always (step E) (Smooth E) ops boot) :
    List.Forall₂ Agrees (results (step E) ops boot) (specResults listStep ops []) ∧
      (reached E ops).self.slices E = (specFinal listStep ops []).map some := by
  have hstep : ∀ op s ls, (owner E).ok s.self ∧ s.self.slices E = ls.map some → Smooth E op s →
      Agrees (step E op s).result (listStep op ls).1 ∧
        ((owner E).ok (step E op s).state.self ∧ (step E op s).state.self.slices E = (listStep op ls).2.map some) := by
    intro op s ls hR hs
    obtain ⟨hagrees, hslices⟩ := listStep_step hR.1 hR.2 hs
    exact ⟨hagrees, ok_step hR.1 hs.exact, hslices⟩
  obtain ⟨hresults, -, hslices⟩ := simulation hstep ops boot [] ⟨ok_boot, rfl⟩ h
  exact ⟨hresults, hslices⟩

/-- Elements of three bytes on pages of 4096, which end in the middle of an element. -/
def mixture : List (Op Nat) :=
  [.new, .withCapacity 1, .call 0 (.pushFront 1), .call 0 (.tryPushFront 2), .call 0 (.pushBack 3), .call 0 (.tryPushBack 4),
    .call 1 (.pushBack 5), .append 0 1, .call 0 (.splitOff 1), .call 0 .popFront, .call 2 .popBack, .call 2 (.reserve 5000),
    .call 2 (.pushFront 6), .call 2 (.pushBack 7), .call 2 (.remove 1), .call 2 (.swapRemoveBack 0),
    .call 2 (.swapRemoveFront 2), .call 0 (.pushFront 8), .call 2 (.truncateFront 1), .call 1 .clear]

theorem mixture_slices : List.Forall₂ Agrees (results (step (cells false 3 (by decide))) mixture boot)
      (specResults listStep mixture []) ∧
    (reached (cells false 3 (by decide)) mixture).self.slices (cells false 3 (by decide)) =
      (specFinal listStep mixture []).map some := reached_slices (by decide +kernel)

end Program

end Sdeq
