import SliceDeque.Bulk

/-!
# Shrinking

`shrink_to_fit` copies the elements into a smaller buffer and exchanges the two
deques. The deque that goes out of scope is the old one, and it still owns its
elements: their destructors run although the new deque holds them.
-/

set_option autoImplicit false

namespace Sdeq.SliceDeque
open Exec

variable {T β : Type} {E : Env T β} {s : Frame (SliceDeque β) T}

/-- A buffer for the elements would be smaller than the one that is there. -/
def Shrinks (E : Env T β) (d : SliceDeque β) : Prop := d.elems.len ≠ 0 ∧ capFor E d.elems.len < d.capacity

/-- The old deque is dropped after its elements were copied to the new one. -/
theorem wp_shrinkInto {other : SliceDeque β} {s₁ : Frame (SliceDeque β) T} (h : WF E s.self)
    (hc : Created E s s₁ other []) (hcap : s.self.elems.len ≤ other.capacity)
    (hstart : other.elems = ⟨other.buf.ptr.mirror.base, 0⟩) :
    wp (do
      let ptr ← copyAt E other.buf.ptr other.elems.ptr s.self.buf.ptr s.self.elems.ptr s.self.elems.len
      setSelf ⟨⟨ptr.mirror.base, s.self.elems.len⟩, { other.buf with ptr := ptr }⟩
      drop E s.self) s₁
      (fun _ s' => Effect E s s' (s.self.toList E) (s.self.toList E) ∧ s'.self.capacity = other.capacity)
      (fun p s' => Dropped E s (s.self.toList E) (s.self.toList E) p s' ∧ s'.self.capacity = other.capacity) := by
  have hwf : WF E (⟨⟨other.buf.ptr.mirror.base, s.self.elems.len⟩, other.buf⟩ : SliceDeque β) :=
    wf_start hc.wf.buf hcap
  have htl := toList_copy_back hc.wf (m := s.self.buf.ptr.mirror) (a := s.self.elems.ptr)
    (n := s.self.elems.len) (by rw [hstart]; simpa using hcap)
  rw [hc.toList_eq, List.nil_append, hstart] at htl
  simp only [Nat.cast_zero, zero_mul, add_zero, Nat.zero_add] at htl
  -- what is left once the old deque is gone
  have heff : ∀ s', Consumed ⟨⟨⟨other.buf.ptr.mirror.base, s.self.elems.len⟩, other.buf.withMemory
      (other.buf.ptr.mirror.copyFrom other.buf.ptr.mirror.base s.self.buf.ptr.mirror s.self.elems.ptr
        (s.self.elems.len * E.layout.size))⟩, s₁.world⟩ s' (s.self.regions E) (s.self.toList E) →
      Effect E s s' (s.self.toList E) (s.self.toList E) := by
    intro s' hd
    refine ⟨?_, ?_, hc.log.trans hd.log, ?_⟩
    · rw [hd.self_eq]
      exact hwf.withMemory rfl rfl
    · rw [hd.self_eq]
      exact htl
    · rw [hd.self_eq]
      have hnew := hc.trade (s.self.regions E)
      rw [add_comm] at hnew
      exact hnew.trans (hd.trade _)
  rw [wp_bind]
  apply wp_copyAt h.covers_toList
  · rw [hstart]
    exact hwf.covers_toList
  rw [hstart, wp_bind, wp_setSelf]
  refine wp_mono (wp_drop h) (fun _ s' hd => ⟨heff s' hd, by rw [hd.self_eq]; rfl⟩) ?_
  rintro p s' ⟨hp, hpanic, hd⟩
  exact ⟨⟨hp, hpanic, heff s' hd⟩, by rw [hd.self_eq]; rfl⟩

/-- `shrink_to_fit` keeps the contents; when it moves them it also destroys them. -/
theorem wp_shrinkToFit_capacity (h : WF E s.self) :
    wp (shrinkToFit E) s
      (fun _ s' => (Shrinks E s.self → Effect E s s' (s.self.toList E) (s.self.toList E) ∧
          s'.self.capacity = capFor E s.self.elems.len) ∧
        (¬ Shrinks E s.self → Effect E s s' (s.self.toList E) [] ∧ s'.self.capacity = s.self.capacity))
      (fun p s' => s.self.elems.len ≠ 0 ∧ RequestPanic E s.self.elems.len s p s' ∨
        Shrinks E s.self ∧ Dropped E s (s.self.toList E) (s.self.toList E) p s' ∧
          s'.self.capacity = capFor E s.self.elems.len) := by
  rw [shrinkToFit, wp_bind, wp_self, wp_ite]
  refine ⟨fun h0 => wp_pure.mpr ⟨fun hs => absurd h0 hs.1, fun _ => ⟨.refl h, rfl⟩⟩, fun h0 => ?_⟩
  rw [wp_bind]
  apply wp_len h
  rw [wp_bind]
  refine wp_mono wp_withCapacity ?_ fun p s' hp => .inl ⟨h0, hp⟩
  rintro other s₁ ⟨hc, hcap, hstart, hcapFor, -⟩
  rw [wp_ite]
  refine ⟨fun hlt => ?_, fun hge => ?_⟩
  · have hs : Shrinks E s.self := ⟨h0, by omega⟩
    rw [← hcapFor]
    exact wp_mono (wp_shrinkInto h hc hcap hstart) (fun _ s' heff => ⟨fun _ => heff, fun hn => absurd hs hn⟩) fun p s' hp => .inr ⟨hs, hp⟩
  · have hs : ¬ Shrinks E s.self := fun hs => hge (by have := hs.2; omega)
    have hdrop : wp (drop E other) s₁ (fun _ t' => Consumed s₁ t' (other.regions E) []) fun _ _ => False :=
      wp_drop_empty hc.wf (by rw [hstart])
    refine wp_mono hdrop ?_ fun _ _ => False.elim
    exact fun _ s' hd => ⟨fun hs' => absurd hs' hs, fun _ =>
      ⟨.of_untouched h (hc.consumed hd), by rw [(hc.consumed hd).self_eq]⟩⟩

theorem wp_shrinkToFit (h : WF E s.self) :
    wp (shrinkToFit E) s
      (fun _ s' => (Shrinks E s.self → Effect E s s' (s.self.toList E) (s.self.toList E)) ∧
        (¬ Shrinks E s.self → Effect E s s' (s.self.toList E) []))
      (fun p s' => s.self.elems.len ≠ 0 ∧ RequestPanic E s.self.elems.len s p s' ∨
        Shrinks E s.self ∧ Dropped E s (s.self.toList E) (s.self.toList E) p s') :=
  wp_mono (wp_shrinkToFit_capacity h) (fun _ _ hq => ⟨fun hs => (hq.1 hs).1, fun hs => (hq.2 hs).1⟩)
    fun _ _ hp => hp.imp_right fun hp => ⟨hp.1, hp.2.1⟩

/-- No size that `shrink_to_fit` computes leaves the range of `usize`. -/
theorem exact_shrinkToFit (h : WF E s.self) : Exact (shrinkToFit E) s := by
  have hle := h.len_le
  have hlt := h.cap_lt
  have hbound : 2 * isizeBound = usizeBound := by decide
  apply exact_self_bind
  apply exact_ite
  · exact fun _ => exact_pure
  intro _
  apply exact_len_bind h
  apply exact_seq (exact_withCapacity (.inr ⟨by omega, fun _ _ => h.fits hle⟩)) wp_withCapacity
  rintro other s₁ ⟨hc, -⟩
  apply exact_ite
  · exact fun _ => exact_bind exact_copyAt fun _ _ => exact_bind exact_setSelf fun _ _ => exact_drop h
  · exact fun _ => exact_drop hc.wf

/-- The elements are where they were, no destructor ran, and dropping the deque later runs the
destructor of every element once. -/
structure Preserved (E : Env T β) (s : Frame (SliceDeque β) T) (o : Outcome Panic (Frame (SliceDeque β) T) Unit) :
    Prop where
  returns : o.result = .ok ()
  toList_eq : o.state.self.toList E = s.self.toList E
  destroyed_eq : o.state.world.destroyed = s.world.destroyed
  exact_drop : Exact (dropSelf E) o.state
  dropped_once : wp (dropSelf E) o.state (fun _ t => t.world.destroyed = s.world.destroyed ++ s.self.toList E)
    (fun _ t => t.world.destroyed = s.world.destroyed ++ s.self.toList E)

theorem Change.preserved {s' : Frame (SliceDeque β) T} (h : Effect E s s' (s.self.toList E) []) :
    Preserved E s ⟨false, .ok (), s'⟩ := by
  have hdead := h.log.destroyed_eq
  rw [List.append_nil] at hdead
  have hdrop : ∀ t, Consumed s' t (s'.self.regions E) (s'.self.toList E) →
      t.world.destroyed = s.world.destroyed ++ s.self.toList E := by
    intro t hd
    rw [hd.log.destroyed_eq, hdead, h.toList_eq]
  refine ⟨rfl, h.toList_eq, hdead, exact_self_bind (SliceDeque.exact_drop h.wf), ?_⟩
  simp only [dropSelf, wp_bind, wp_self]
  exact wp_mono (wp_drop h.wf) (fun _ t hd => hdrop t hd) fun p t hp => hdrop t hp.2.2

/-- With memory for the new buffer, `shrink_to_fit` preserves the elements exactly if there is
nothing to shrink. -/
theorem shrinkToFit_preserved_iff (h : WF E s.self)
    (hgrant : ∃ r, E.allocate s.world.calls (Buffer.byteSize E (2 * s.self.elems.len)) = .ok r) :
    Preserved E s (shrinkToFit E s) ↔ s.self.elems.len = 0 ∨ s.self.capacity ≤ capFor E s.self.elems.len := by
  have hshrinks : Shrinks E s.self ↔ ¬ (s.self.elems.len = 0 ∨ s.self.capacity ≤ capFor E s.self.elems.len) := by
    unfold Shrinks
    omega
  have hwp := wp_shrinkToFit h
  constructor
  · intro hp
    by_contra hs
    rw [← hshrinks] at hs
    have hends := hwp.ends (exact_shrinkToFit h)
    rw [hp.returns] at hends
    have hdead := (hends.1 hs).log.destroyed_eq
    rw [hp.destroyed_eq] at hdead
    have hnil : s.self.toList E = [] := by simpa using hdead
    have hlen := congrArg List.length hnil
    rw [toList_length] at hlen
    exact hs.1 hlen
  · intro hkeep
    have hs : ¬ Shrinks E s.self := fun hs => hshrinks.mp hs hkeep
    have hends : Ends (shrinkToFit E) s fun _ s' => Effect E s s' (s.self.toList E) [] := by
      refine ends_iff.mpr ⟨exact_shrinkToFit h, wp_mono hwp (fun _ s' hq => hq.2 hs) ?_⟩
      rintro p s' (⟨h0, hp⟩ | hp)
      · exact hp.elim h.buf h.len_le h0 hgrant
      · exact hs hp.1
    obtain ⟨⟨⟩, s', hrun, heff⟩ := hends
    rw [hrun]
    exact heff.preserved

/-- A deque with room for more than a page of elements that holds one. -/
def roomy : Frame (SliceDeque Nat) Nat :=
  ((do
    reserve (cells false 1 (by decide)) 5000
    pushBack (cells false 1 (by decide)) 7) ⟨new (cells false 1 (by decide)), .start⟩).state

/-- The element that the deque still holds was destroyed. -/
theorem shrinkToFit_destroys :
    (shrinkToFit (cells false 1 (by decide)) roomy).state.self.toList (cells false 1 (by decide)) = [7] ∧
    (shrinkToFit (cells false 1 (by decide)) roomy).state.world.destroyed = [7] ∧
    ¬ Preserved (cells false 1 (by decide)) roomy (shrinkToFit (cells false 1 (by decide)) roomy) := by
  refine ⟨by decide, by decide, fun h => ?_⟩
  exact absurd h.destroyed_eq (by decide)

/-- Three elements in a buffer of one page stay. -/
theorem sample_shrinkToFit : Preserved (cells false 3 (by decide)) ⟨sample, .start⟩
    (shrinkToFit (cells false 3 (by decide)) ⟨sample, .start⟩) :=
  (shrinkToFit_preserved_iff wf_sample ⟨_, rfl⟩).mpr (.inr (by decide))

/-! ## The capacity afterwards -/

/-- Rounding up to pages is monotone, so no deque with room for `n` elements has less capacity. -/
theorem capFor_least {d : SliceDeque β} {n : Nat} (h : WF E d) (hs : E.layout.size ≠ 0) (hn : n ≤ d.capacity) :
    capFor E n ≤ d.capacity := by
  rw [capFor, Buffer.lenFor, if_neg hs]
  by_cases h0 : 2 * n = 0
  · rw [if_pos h0]
    exact Nat.zero_le _
  have ha := h.buf.alloc hs (by unfold capacity Buffer.cap at hn; omega)
  have hcap : d.capacity = d.buf.ptr.size / E.layout.size / 2 := by
    rw [Rounding.half_div, ← ha.half_eq, ← ha.cap_eq]
    rfl
  rw [if_neg h0, hcap, ha.size_eq]
  exact Nat.div_le_div_right (Nat.div_le_div_right (Buffer.byteSize_mono (Nat.mul_le_mul_left _ hn)))

/-- The deque has the capacity of a new one for its elements, and that is the least one with room
for them. -/
structure Shrunk (E : Env T β) (s : Frame (SliceDeque β) T) (o : Outcome Panic (Frame (SliceDeque β) T) Unit) :
    Prop where
  exact : o.wrapped = false
  returns : o.result = .ok () ∨ o.result = .error .destructor ∧ DestructorsPanic E
  len_eq : o.state.self.elems.len = s.self.elems.len
  fresh : ∀ t : Frame Unit T, wp (withCapacity E s.self.elems.len) t
    (fun d _ => o.state.self.capacity = d.capacity) fun _ _ => True
  least : ∀ d : SliceDeque β, WF E d → s.self.elems.len ≤ d.capacity → o.state.self.capacity ≤ d.capacity

/-- Where nothing is to be done the capacity is the least one. -/
theorem capFor_eq_of_not_shrinks (h : WF E s.self) (hs : E.layout.size ≠ 0) (hn : ¬ Shrinks E s.self)
    (hc : s.self.elems.len ≠ 0 ∨ s.self.capacity = 0) : s.self.capacity = capFor E s.self.elems.len := by
  have hleast := capFor_least h hs h.len_le
  unfold Shrinks at hn
  omega

theorem Shrunk.of_capacity {o : Outcome Panic (Frame (SliceDeque β) T) Unit} {dead : List T} (hs : E.layout.size ≠ 0)
    (hend : o.wrapped = false) (hret : o.result = .ok () ∨ o.result = .error .destructor ∧ DestructorsPanic E)
    (heff : Effect E s o.state (s.self.toList E) dead) (hcap : o.state.self.capacity = capFor E s.self.elems.len) :
    Shrunk E s o := by
  refine ⟨hend, hret, ?_, fun t => wp_mono wp_withCapacity (fun d _ hd => ?_) fun _ _ _ => trivial, fun d hd hn => ?_⟩
  · rw [heff.len_eq, toList_length]
  · rw [hcap, hd.2.2.2.1]
  · rw [hcap]
    exact capFor_least hd hs hn

/-- With memory for the new buffer, `shrink_to_fit` reaches the least capacity unless an empty deque
has a buffer: it keeps it. -/
theorem shrinkToFit_shrunk_iff (h : WF E s.self) (hs : E.layout.size ≠ 0)
    (hgrant : s.self.elems.len ≠ 0 →
      ∃ r, E.allocate s.world.calls (Buffer.byteSize E (2 * s.self.elems.len)) = .ok r) :
    Shrunk E s (shrinkToFit E s) ↔ s.self.elems.len ≠ 0 ∨ s.self.capacity = 0 := by
  have hend : (shrinkToFit E s).wrapped = false := exact_shrinkToFit h
  have hwp := (wp_shrinkToFit_capacity h).ends hend
  constructor
  · intro hshrunk
    by_contra hempty
    push Not at hempty
    obtain ⟨h0, hcap⟩ := hempty
    have hn : ¬ Shrinks E s.self := fun hn => hn.1 h0
    have hleast := hshrunk.least (new E) wf_new (by rw [h0]; exact Nat.zero_le _)
    rw [show (new E : SliceDeque β).capacity = 0 from Buffer.cap_new hs] at hleast
    rcases hshrunk.returns with hret | ⟨hret, -⟩ <;> rw [hret] at hwp
    · have hsame := (hwp.2 hn).2
      omega
    · rcases hwp with hp | hp
      · exact hp.1 h0
      · exact hn hp.1
  · intro hc
    revert hwp
    cases hret : (shrinkToFit E s).result with
    | ok r =>
      intro hwp
      by_cases hn : Shrinks E s.self
      · exact .of_capacity hs hend (.inl hret) (hwp.1 hn).1 (hwp.1 hn).2
      · refine .of_capacity hs hend (.inl hret) (hwp.2 hn).1 ?_
        rw [(hwp.2 hn).2, capFor_eq_of_not_shrinks h hs hn hc]
    | error p =>
      intro hwp
      rcases hwp with ⟨h0, hp⟩ | ⟨-, ⟨rfl, hd, heff⟩, hcap⟩
      · exact (hp.elim h.buf h.len_le h0 (hgrant h0)).elim
      · exact .of_capacity hs hend (.inr ⟨hret, hd⟩) heff hcap

/-- A deque that had an element. -/
def vacant : Frame (SliceDeque Nat) Nat :=
  ((do
    pushBack (cells false 1 (by decide)) 7
    let _ ← popBack (cells false 1 (by decide))
    pure ()) ⟨new (cells false 1 (by decide)), .start⟩).state

/-- It keeps its page, and a deque without elements needs none. -/
theorem shrinkToFit_keeps_buffer :
    (shrinkToFit (cells false 1 (by decide)) vacant).state.self.elems.len = 0 ∧
    (shrinkToFit (cells false 1 (by decide)) vacant).state.self.capacity = 4096 ∧
    ¬ Shrunk (cells false 1 (by decide)) vacant (shrinkToFit (cells false 1 (by decide)) vacant) := by
  refine ⟨by decide, by decide, fun h => ?_⟩
  exact absurd (h.least (new _) wf_new (by decide)) (by decide)

theorem sample_shrunk : Shrunk (cells false 3 (by decide)) ⟨sample, .start⟩
    (shrinkToFit (cells false 3 (by decide)) ⟨sample, .start⟩) :=
  (shrinkToFit_shrunk_iff wf_sample (by decide) fun _ => ⟨_, rfl⟩).mpr (.inl (by decide))

end Sdeq.SliceDeque
