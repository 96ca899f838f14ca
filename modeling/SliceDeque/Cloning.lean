import SliceDeque.IntoIter

/-!
# Copies of iterators and slices

`IntoIter::clone` and `extend_from_slice` should both make clones. The first
one copies the bytes of the items instead; the second one makes the clones but
drops what the bytes of the spare slots showed before.
-/

set_option autoImplicit false

namespace Sdeq
open Exec

/-- The clones that user code makes of the values before it panics. -/
def clonesFrom {T β : Type} (E : Env T β) : (k : Nat) → List T → List T
  | _, [] => []
  | k, v :: vs => match E.cloneOf k v with
    | none => []
    | some c => c :: clonesFrom E (k + 1) vs

namespace IntoIter
variable {T β X ι : Type} (E : Env T β)

/-- `Clone for IntoIter` -/
def clone : Method T (IntoIter β) (IntoIter β) := do
  let it ← self
  let deq ← SliceDeque.withCapacity E (sizeHint E it).1
  let r ← onLocal deq
    (onPanic (SliceDeque.appendElements E it.buf ⟨it.ptr, (sizeHint E it).1⟩) (SliceDeque.dropSelf E))
  SliceDeque.intoIter E r.2

/-- The new iterator is over one clone of each item, the old one is what it was, and every value
belongs to one of them. -/
structure Cloned (E : Env T β) (s : Frame (IntoIter β) T) (it : IntoIter β) (s' : Frame (IntoIter β) T) : Prop where
  ok : Ok E it
  vals_eq : it.vals E = clonesFrom E s.world.produced (s.self.vals E)
  remaining_eq : it.remaining E = s.self.remaining E
  made_eq : s'.world.made = s.world.made ++ it.vals E
  self_eq : s'.self = s.self
  once : ∀ (ι : Type) (f : T → ι), Books.Moves (s.world.ids f) (ids f (s.self.vals E))
    (s'.world.ids f) (ids f (s'.self.vals E) + ids f (it.vals E))

variable {E} {s : Frame (IntoIter β) T}

/-- The bytes of the items fit into a deque that was made for them. -/
theorem wp_appendItems {it : IntoIter β} {d : SliceDeque β} {w : World T} (h : Ok E it) (hd : SliceDeque.WF E d)
    (hroom : d.elems.len + it.remaining E ≤ d.capacity) :
    wp (SliceDeque.appendElements E it.buf ⟨it.ptr, it.remaining E⟩) (⟨d, w⟩ : Frame (SliceDeque β) T)
      (fun _ t => SliceDeque.Effect E ⟨d, w⟩ t (d.toList E ++ it.vals E) []) fun _ _ => False :=
  SliceDeque.wp_appendElements_room hd h.covers hroom

theorem wp_clone (h : Ok E s.self) :
    wp (clone E) s
      (fun it s' => Ok E it ∧ it.vals E = s.self.vals E ∧ s'.self = s.self ∧ Logged s.world s'.world [] [] ∧
        (E.layout.size ≠ 0 → E.layout.align ≤ E.granularity))
      (SliceDeque.RequestPanic E (s.self.remaining E) s) := by
  simp only [clone, wp_bind, wp_self, sizeHint_eq h]
  apply wp_mono SliceDeque.wp_withCapacity _ fun _ _ => id
  intro deq s₁ hdeq
  obtain ⟨hc, hcap, hstart, -, halign⟩ := hdeq
  have hlen : deq.elems.len = 0 := by rw [hstart]
  rw [wp_onLocal]
  apply wp_onPanic _ fun _ _ => False.elim
  apply wp_mono (wp_appendItems h hc.wf (by omega)) _ fun _ _ => False.elim
  intro _ t heff
  apply SliceDeque.wp_intoIter heff.wf
  intro it hit
  have hvals : it.vals E = s.self.vals E := by
    rw [hit.vals_eq, heff.toList_eq, hc.toList_eq, List.nil_append]
  exact ⟨hit.ok, hvals, hc.self_eq, hc.log.trans heff.log, halign⟩

theorem exact_clone (h : Ok E s.self) : Exact (clone E) s := by
  have hcap : s.self.buffer.cap = s.self.cap := by simp [buffer, Buffer.cap]
  have hlt := h.buf.cap_lt
  have hle := h.remaining_le
  have hbound : 2 * isizeBound = usizeBound := by decide
  have hfits : Buffer.Fits E (2 * s.self.remaining E) :=
    h.buf.fits.mono (by simp only [buffer]; omega)
  apply exact_self_bind
  rw [sizeHint_eq h]
  dsimp only
  apply exact_seq (SliceDeque.exact_withCapacity (.inr ⟨by omega, fun _ _ => hfits⟩)) SliceDeque.wp_withCapacity
  intro deq s₁ hdeq
  obtain ⟨hc, hcap', hstart, -⟩ := hdeq
  have hlen : deq.elems.len = 0 := by rw [hstart]
  apply exact_bind _ fun _ _ => SliceDeque.exact_intoIter
  apply exact_onLocal
  apply exact_unwind (SliceDeque.exact_appendElements_room hc.wf _) (wp_appendItems h hc.wf _) fun _ _ => False.elim
  · dsimp only
    omega
  · omega

theorem clone_iff (h : Ok E s.self) :
    Ends (clone E) s (Cloned E s) ↔ s.self.vals E = [] ∧ (E.layout.size ≠ 0 → E.layout.align ≤ E.granularity) := by
  have hexact := exact_clone h
  have hlen := vals_length (E := E) s.self
  constructor
  · intro hends
    obtain ⟨it, s', hrun, hc⟩ := hends
    have hcode := (wp_clone h).ends hexact
    rw [hrun] at hcode
    obtain ⟨-, hvals, -, hlog, halign⟩ := hcode
    have hmade := hc.made_eq
    rw [hlog.made_eq, List.append_nil, hvals, List.self_eq_append_right] at hmade
    exact ⟨hmade, halign⟩
  · intro hcond
    obtain ⟨hnil, halign⟩ := hcond
    have hrem : s.self.remaining E = 0 := by rw [← hlen, hnil, List.length_nil]
    apply ends_iff.mpr ⟨hexact, wp_mono (wp_clone h) _ _⟩
    · intro it s' hcode
      obtain ⟨hok, hvals, hself, hlog, -⟩ := hcode
      have hempty : it.vals E = [] := hvals.trans hnil
      have hnone : it.remaining E = 0 := by rw [← vals_length, hempty, List.length_nil]
      apply Cloned.mk hok
      · rw [hempty, hnil, clonesFrom]
      · rw [hnone, hrem]
      · rw [hlog.made_eq, hempty]
      · exact hself
      · intro ι f
        apply hlog.moves
        rw [hself, hempty, ids_nil, add_zero, add_zero]
    · intro p s' hp
      rw [hrem] at hp
      obtain ⟨hs, hlt⟩ := hp.strict
      exact absurd (halign hs) (by omega)

end IntoIter

namespace SliceDeque
variable {T β X : Type} {E : Env T β} {d : SliceDeque β} {t : Frame X T}

/-- After any use of the iterator, cloning it calls `clone` for each item that is left exactly if no
item is left; a mapping for stricter alignments than that of pages is never made. -/
theorem intoIter_clone_iff (h : WF E d) : Ends (intoIter E d) t fun it t₁ => ∀ ops : List End,
    let u := final (IntoIter.pull E) ops ⟨it, t₁.world⟩
    Ends (IntoIter.clone E) u (IntoIter.Cloned E u) ↔
      specFinal End.pull ops (d.toList E) = [] ∧ (E.layout.size ≠ 0 → E.layout.align ≤ E.granularity) := by
  apply ends_mono (ends_intoIter_used h)
  intro it t₁ hused ops u
  obtain ⟨hok, hvals⟩ := hused ops
  rw [← hvals]
  exact IntoIter.clone_iff hok

/-- A used up iterator is cloned correctly. -/
theorem sample_intoIter_clone : Ends (intoIter (cells false 3 (by decide)) sample) (⟨(), .start⟩ : Frame Unit Nat) fun it t₁ =>
    let u := final (IntoIter.pull (cells false 3 (by decide))) [.front, .back, .front] ⟨it, t₁.world⟩
    Ends (IntoIter.clone (cells false 3 (by decide))) u (IntoIter.Cloned (cells false 3 (by decide)) u) := by
  apply ends_mono (intoIter_clone_iff wf_sample)
  intro it t₁ hops
  exact (hops [.front, .back, .front]).mpr ⟨by decide, fun _ => by decide⟩

/-- Both iterators destroy the same three elements; no clone was made. -/
theorem clone_destroys_twice :
    let E := cells false 3 (by decide)
    let o := (do
      let it ← intoIter E sample
      let c ← onLocal it (IntoIter.clone E)
      let _ ← onLocal c.1 (IntoIter.drop E)
      onLocal it (IntoIter.drop E)) (⟨(), .start⟩ : Frame Unit Nat)
    o.state.world.destroyed = [10, 20, 30, 10, 20, 30] ∧ o.state.world.made = [] := by
  decide +kernel

/-! ## Slices -/

variable {s s' s₁ : Frame (SliceDeque β) T} {a olds cs : List T}

/-- Behind `a` the values `cs` were stored over the first ones of `olds`, which were destroyed. -/
structure Assigned (E : Env T β) (s s' : Frame (SliceDeque β) T) (a olds cs : List T) : Prop where
  wf : WF E s'.self
  toList_eq : s'.self.toList E = a ++ (cs ++ olds.drop cs.length)
  destroyed_eq : s'.world.destroyed = s.world.destroyed ++ olds.take cs.length

theorem Assigned.cons {c o : T} (h : Assigned E s s₁ a (o :: olds) [c]) (h' : Assigned E s₁ s' (a ++ [c]) olds cs) :
    Assigned E s s' a (o :: olds) (c :: cs) := by
  apply Assigned.mk h'.wf
  · rw [h'.toList_eq]
    simp
  · rw [h'.destroyed_eq, h.destroyed_eq]
    simp

theorem wp_assignClone {o v : T} (h : WF E s.self) (hl : s.self.toList E = a ++ o :: olds) :
    wp (assignClone E a.length v) s
      (fun _ s' => ∃ c, E.cloneOf s.world.produced v = some c ∧ Assigned E s s' a (o :: olds) [c] ∧
        s'.world.produced = s.world.produced + 1)
      (fun _ s' => E.cloneOf s.world.produced v = none ∧ Assigned E s s' a (o :: olds) [] ∨
        ∃ c, E.cloneOf s.world.produced v = some c ∧ Assigned E s s' a (o :: olds) [c]) := by
  have hle := h.len_le
  have hlen : s.self.elems.len = a.length + (olds.length + 1) := by
    rw [← toList_length (E := E) s.self, hl, List.length_append, List.length_cons]
  have hslot : s.self.slot E a.length = o := by
    have hget := getElem?_toList (E := E) (d := s.self) (i := a.length) (by omega)
    rw [hl, List.getElem?_append_right le_rfl, Nat.sub_self] at hget
    exact (Option.some.inj hget).symm
  have hstore : ∀ c (w : World T) {Q : Unit → Frame (SliceDeque β) T → Prop} {P : Panic → Frame (SliceDeque β) T → Prop},
      w.destroyed = s.world.destroyed ++ [o] → (∀ d', Assigned E s ⟨d', w⟩ a (o :: olds) [c] → Q () ⟨d', w⟩) →
      wp (writeSlot E a.length c) ⟨s.self, w⟩ Q P := by
    intro c w Q P hw hQ
    apply wp_writeSlot (s := ⟨s.self, w⟩) h (by omega) (by dsimp only; omega)
    intro d' hwf hr hs
    apply hQ
    apply Assigned.mk hwf _ hw
    rw [hr.toList_set h hs, hl, List.set_append_right _ _ le_rfl, Nat.sub_self]
    rfl
  simp only [assignClone, wp_bind]
  apply wp_produce
  · intro c hc
    apply wp_readSlot (s := ⟨s.self, s.world.produce [c]⟩) h (by omega) (by dsimp only; omega)
    rw [hslot]
    apply wp_onPanic (P := fun _ s' => s' = ⟨s.self, (s.world.produce [c]).destroy [o]⟩)
    · apply wp_dropValue _ fun _ => rfl
      exact hstore c _ rfl fun d' ha => ⟨c, hc, ha, rfl⟩
    · rintro p _ rfl
      exact hstore c _ rfl fun d' ha => .inr ⟨c, hc, ha⟩
  · intro hc
    apply Or.inl
    exact ⟨hc, h, hl, (List.append_nil _).symm⟩

/-- The old values of as many slots as clones were stored are destroyed. -/
theorem wp_cloneFromSlice : ∀ (vs a olds : List T) (s : Frame (SliceDeque β) T), WF E s.self →
    s.self.toList E = a ++ olds → olds.length = vs.length →
    wp (cloneFromSlice E a.length vs) s
      (fun _ s' => Assigned E s s' a olds (clonesFrom E s.world.produced vs) ∧
        (clonesFrom E s.world.produced vs).length = vs.length)
      (fun _ s' => ∃ cs, cs <+: clonesFrom E s.world.produced vs ∧ Assigned E s s' a olds cs ∧
        (cs = [] → clonesFrom E s.world.produced vs = [])) := by
  intro vs
  induction vs with
  | nil =>
    intro a olds s h hl hn
    have hnil : olds = [] := List.eq_nil_of_length_eq_zero hn
    rw [cloneFromSlice, wp_pure]
    exact ⟨⟨h, by simp [clonesFrom, hl], by simp [clonesFrom]⟩, rfl⟩
  | cons v vs ih =>
    intro a olds s h hl hn
    cases olds with
    | nil => simp at hn
    | cons o olds =>
      rw [cloneFromSlice, wp_bind]
      apply wp_mono (wp_assignClone h hl)
      · intro _ s₁ hstep
        obtain ⟨c, hc, ha, hk⟩ := hstep
        have hl₁ : s₁.self.toList E = (a ++ [c]) ++ olds := by
          rw [ha.toList_eq]
          simp
        have hrest := ih (a ++ [c]) olds s₁ ha.wf hl₁ (by simpa using hn)
        rw [hk, List.length_append, List.length_singleton] at hrest
        rw [clonesFrom, hc]
        apply wp_mono hrest
        · intro _ s' hs'
          exact ⟨ha.cons hs'.1, by simpa using hs'.2⟩
        · intro _ s' hs'
          obtain ⟨cs, hpre, hs', -⟩ := hs'
          exact ⟨c :: cs, List.cons_prefix_cons.mpr ⟨rfl, hpre⟩, ha.cons hs', by simp⟩
      · intro _ s' hs'
        rcases hs' with ⟨hc, hs'⟩ | ⟨c, hc, hs'⟩
        · exact ⟨[], List.nil_prefix, hs', fun _ => by rw [clonesFrom, hc]⟩
        · refine ⟨[c], ?_, hs', by simp⟩
          rw [clonesFrom, hc]
          exact List.cons_prefix_cons.mpr ⟨rfl, List.nil_prefix⟩

theorem exact_assignClone {i : Nat} {v : T} : Exact (assignClone E i v) s := by
  have hwrite : ∀ (c : T) (t : Frame (SliceDeque β) T), Exact (writeSlot E i c) t := fun c t => exact_writeSlot
  apply exact_bind exact_produce
  intro c _
  apply exact_bind exact_readSlot
  intro old _
  apply exact_bind
  · exact exact_onPanic exact_dropValue fun t => hwrite c t
  · exact fun _ t => hwrite c t

theorem exact_cloneFromSlice (vs : List T) (i : Nat) (s : Frame (SliceDeque β) T) : Exact (cloneFromSlice E i vs) s := by
  induction vs generalizing i s with
  | nil => exact exact_pure
  | cons v vs ih => exact exact_bind exact_assignClone fun _ t => ih (i + 1) t

/-- The spare slots behind the deque, as many as there are values to clone, become part of it first. -/
theorem wp_extendFromSlice {ys : List T} (h : WF E s.self)
    (hres : Ends (reserve E ys.length) s fun _ _ => True) :
    wp (extendFromSlice E ys) s
      (fun _ s' => ∃ olds, olds.length = ys.length ∧
        Assigned E s s' (s.self.toList E) olds (clonesFrom E s.world.produced ys) ∧
        (clonesFrom E s.world.produced ys).length = ys.length)
      (fun _ s' => ∃ olds cs, olds.length = ys.length ∧ cs <+: clonesFrom E s.world.produced ys ∧
        Assigned E s s' (s.self.toList E) olds cs ∧ (cs = [] → clonesFrom E s.world.produced ys = [])) := by
  rw [extendFromSlice, wp_bind]
  apply wp_mono (ends_iff.mp (hres.wp (wp_reserve h))).2 _ fun _ _ => False.elim
  intro _ s₁ hg
  have hcap := (le_growTarget _ _).trans hg.cap_ge
  have hlen := hg.len_eq
  have hlt := hg.wf.cap_lt
  have heff := hg.effect h
  have hdead := heff.log.destroyed_eq
  have hwf : WF E (s₁.self.withLen (s₁.self.elems.len + ys.length)) := hg.wf.withLen (by omega)
  have htake : s₁.self.toList E = ((s₁.self.withLen (s₁.self.elems.len + ys.length)).toList E).take s₁.self.elems.len :=
    toList_withLen (d := s₁.self.withLen (s₁.self.elems.len + ys.length)) (n := s₁.self.elems.len) (Nat.le_add_right _ _)
  have hsplit := List.take_append_drop s₁.self.elems.len ((s₁.self.withLen (s₁.self.elems.len + ys.length)).toList E)
  rw [← htake, hg.toList_eq] at hsplit
  rw [wp_bind]
  apply wp_len hg.wf
  rw [wp_bind, asIsize_of_lt (show ys.length < isizeBound by omega)]
  apply wp_moveTailUnchecked (n := s₁.self.elems.len + ys.length) hg.wf (by push_cast; rfl) (by omega)
  have hstale : (((s₁.self.withLen (s₁.self.elems.len + ys.length)).toList E).drop s₁.self.elems.len).length = ys.length := by
    rw [List.length_drop, toList_length]
    exact Nat.add_sub_cancel_left _ _
  have hclone := wp_cloneFromSlice ys (s.self.toList E) _ ⟨_, s₁.world⟩ hwf hsplit.symm hstale
  rw [toList_length, ← hlen] at hclone
  simp only [hg.produced_eq] at hclone
  rw [List.append_nil] at hdead
  apply wp_mono hclone
  · intro _ s' hs'
    exact ⟨_, hstale, ⟨hs'.1.wf, hs'.1.toList_eq, by rw [hs'.1.destroyed_eq, hdead]⟩, hs'.2⟩
  · intro _ s' hs'
    obtain ⟨cs, hpre, hs', hnil⟩ := hs'
    exact ⟨_, cs, hstale, hpre, ⟨hs'.wf, hs'.toList_eq, by rw [hs'.destroyed_eq, hdead]⟩, hnil⟩

theorem exact_extendFromSlice {ys : List T} (h : WF E s.self) (hres : Ends (reserve E ys.length) s fun _ _ => True) :
    Exact (extendFromSlice E ys) s := by
  have hgrown := hres.wp (wp_reserve h)
  obtain ⟨hexact, hwp⟩ := ends_iff.mp hgrown
  apply exact_seq hexact hwp
  intro _ s₁ hg
  have hcap := (le_growTarget _ _).trans hg.cap_ge
  have hlen := hg.len_eq
  have hlt := hg.wf.cap_lt
  apply exact_len_bind hg.wf
  apply exact_bind _ fun _ t => exact_cloneFromSlice _ _ t
  rw [asIsize_of_lt (show ys.length < isizeBound by omega)]
  exact exact_moveTailUnchecked (n := s₁.self.elems.len + ys.length) hg.wf (by push_cast; rfl) (by omega)

/-- Clones are added and nothing is destroyed; after a panic the clones that were made are there. -/
def OnlyCreates (E : Env T β) (ys : List T) (s : Frame (SliceDeque β) T) : Prop :=
  wp (extendFromSlice E ys) s
    (fun _ s' => s'.self.toList E = s.self.toList E ++ clonesFrom E s.world.produced ys ∧
      (clonesFrom E s.world.produced ys).length = ys.length ∧ s'.world.destroyed = s.world.destroyed)
    (fun _ s' => ∃ cs, cs <+: clonesFrom E s.world.produced ys ∧ s'.self.toList E = s.self.toList E ++ cs ∧
      s'.world.destroyed = s.world.destroyed)

theorem extendFromSlice_creates (h : WF E s.self) {ys : List T}
    (hys : ys = [] ∨ ¬ Ends (reserve E ys.length) s fun _ _ => True) : OnlyCreates E ys s := by
  rcases hys with rfl | hres
  · have hroom : s.self.elems.len + ([] : List T).length ≤ s.self.capacity := h.len_le
    have hres : Ends (reserve E ([] : List T).length) s fun _ _ => True :=
      ends_iff.mpr ⟨exact_reserve_room h hroom, wp_reserve_room h hroom trivial⟩
    apply wp_mono (wp_extendFromSlice h hres)
    · intro _ s' hs'
      obtain ⟨olds, hlen, ha, -⟩ := hs'
      have hnil : olds = [] := List.eq_nil_of_length_eq_zero hlen
      subst hnil
      exact ⟨ha.toList_eq, rfl, by simpa using ha.destroyed_eq⟩
    · intro _ s' hs'
      obtain ⟨olds, cs, hlen, hpre, ha, -⟩ := hs'
      have hnil : olds = [] := List.eq_nil_of_length_eq_zero hlen
      subst hnil
      exact ⟨cs, hpre, by simpa using ha.toList_eq, by simpa using ha.destroyed_eq⟩
  · rw [OnlyCreates, extendFromSlice, wp_bind]
    apply wp_mono (wp_of_not_ends hres (wp_reserve h)) fun _ _ => id
    intro p s' hp
    obtain ⟨-, hu⟩ := hp.untouched
    exact ⟨[], List.nil_prefix, by rw [hu.self_eq, List.append_nil], by simpa using hu.log.destroyed_eq⟩

end SliceDeque

end Sdeq
