import SliceDeque.Extend
import SliceDeque.ProgramRuns

/-!
# Requests for capacity

A request for capacity is honoured or refused, but without overflow checks its
sizes can wrap around. They do not exactly if the request is `Askable`.
-/

set_option autoImplicit false

namespace Sdeq.SliceDeque
open Exec

variable {T β X : Type} {E : Env T β} {s s' : Frame (SliceDeque β) T} {n : Nat} {v : T}

theorem withCapacity_iff {t : Frame X T} :
    Does (withCapacity E n) t (fun d _ => n ≤ d.capacity) (fun _ _ => True) ↔ Askable E n :=
  does_iff exact_withCapacity (wp_mono wp_withCapacity (fun _ _ h => h.2.1) fun _ _ _ => trivial) wp_withCapacity_wraps

/-! ## Reservations -/

/-- There is room for `n` elements more than there were, which are still there. -/
structure Reserved (E : Env T β) (s s' : Frame (SliceDeque β) T) (n : Nat) : Prop where
  room : s.self.elems.len + n ≤ s'.self.capacity
  toList_eq : s'.self.toList E = s.self.toList E
  len_le : s'.self.elems.len ≤ s'.self.capacity

theorem Grown.reserved {c : Nat} (hg : Grown E s s' c) (hc : s.self.elems.len + n ≤ c) : Reserved E s s' n :=
  ⟨hc.trans hg.cap_ge, hg.toList_eq, hg.wf.len_le⟩

/-- Growing for `n` more elements asks for a capacity `c` that does not wrap around. -/
def Fitting (E : Env T β) (d : SliceDeque β) (n c : Nat) : Prop :=
  d.capacity < d.elems.len + n → d.elems.len + n < usizeBound → Askable E c

theorem not_fitting {d : SliceDeque β} {c : Nat} (h : ¬ Fitting E d n c) :
    d.capacity < d.elems.len + n ∧ d.elems.len + n < usizeBound ∧ ¬ Askable E c := by
  simpa [Fitting] using h

theorem tryReserve_iff (h : WF E s.self) :
    Does (tryReserve E n) s (fun r s' => (r = .ok () → Reserved E s s' n) ∧ ∀ e, r = .error e → s'.self = s.self)
      (fun _ _ => True) ↔ Fitting E s.self n (growTarget s.self n) := by
  apply does_iff (exact_tryReserve h)
  · refine wp_mono (wp_tryReserve h) ?_ fun _ _ _ => trivial
    rintro (e | ⟨⟩) s' hs'
    · exact ⟨by simp, fun _ _ => hs'.self_eq⟩
    · exact ⟨fun _ => hs'.reserved (le_growTarget s.self n), by simp⟩
  · intro hf
    obtain ⟨hc, hn, ha⟩ := not_fitting hf
    exact wp_tryReserve_wraps h hn hc ha

theorem reserve_iff (h : WF E s.self) :
    Does (reserve E n) s (fun _ s' => Reserved E s s' n) (fun _ _ => True) ↔ Fitting E s.self n (growTarget s.self n) := by
  apply does_iff
  · exact fun hf => exact_bind (exact_tryReserve h hf) fun _ _ => exact_unwrapAlloc
  · exact wp_mono (wp_reserve h) (fun _ _ hg => hg.reserved (le_growTarget s.self n)) fun _ _ _ => trivial
  · intro hf
    obtain ⟨hc, hn, ha⟩ := not_fitting hf
    exact wp_reserve_wraps h hn hc ha

theorem exact_reserveExact (h : WF E s.self) (hf : Fitting E s.self n (s.self.elems.len + n)) : Exact (reserveExact E n) s := by
  apply exact_len_bind h
  apply exact_ite
  · intro hn
    apply exact_bind (exact_reserveCapacity h fun hc => hf hc hn)
    intro _ _
    apply exact_bind exact_unwrapAlloc
    exact fun _ _ => exact_bind exact_self fun _ _ => exact_debugAssert
  · exact fun _ => exact_throw

theorem reserveExact_iff (h : WF E s.self) :
    Does (reserveExact E n) s (fun _ s' => Reserved E s s' n) (fun _ _ => True) ↔
      Fitting E s.self n (s.self.elems.len + n) := by
  apply does_iff (exact_reserveExact h)
  · exact wp_mono (wp_reserveExact h) (fun _ _ hg => hg.reserved le_rfl) fun _ _ _ => trivial
  · intro hf
    obtain ⟨hc, hn, ha⟩ := not_fitting hf
    rw [reserveExact, wp_bind]
    apply wp_len h
    rw [if_pos hn, wp_bind]
    exact wp_mono (wp_reserveCapacity_wraps hc ha) (fun _ _ => False.elim) fun _ _ => id

/-! ## Pushing -/

/-- The capacity that a push asks for when the deque is full. -/
def PushFits (E : Env T β) (d : SliceDeque β) : Prop := Fitting E d 1 (growTarget d 1)

theorem exact_reserveIfFull (h : WF E s.self) (hf : PushFits E s.self) : Exact (reserveIfFull E) s := by
  have hfull : wp (isFull E) s (fun _ s' => s' = s) fun _ _ => False := wp_isFull h rfl
  apply exact_seq _ hfull
  · intro full s' hs'
    subst hs'
    exact exact_ite (fun _ => exact_tryReserve h hf) fun _ => exact_pure
  · exact exact_bind exact_len fun _ _ => exact_bind exact_self fun _ _ => exact_pure

theorem wp_reserveIfFull_wraps (h : WF E s.self) (hf : ¬ PushFits E s.self) :
    wp (reserveIfFull E) s (fun _ _ => False) fun _ _ => False := by
  obtain ⟨hc, hn, ha⟩ := not_fitting hf
  have hle := h.len_le
  rw [reserveIfFull, wp_bind]
  apply wp_isFull h
  rw [if_pos (beq_iff_eq.mpr (show s.self.elems.len = s.self.capacity by omega))]
  exact wp_tryReserve_wraps h hn hc ha

theorem exact_tryPush {α : Type} {rest : Except AllocError Unit → DeqM T β α} (h : WF E s.self) (hf : PushFits E s.self)
    (herr : ∀ e s₁, Exact (rest (.error e)) s₁)
    (hok : ∀ s₁, WF E s₁.self → s₁.self.elems.len < s₁.self.capacity → Exact (rest (.ok ())) s₁) :
    Exact (onPanic (do
      let r ← reserveIfFull E
      rest r) (dropValue E v)) s := by
  apply exact_onPanic _ fun _ => exact_dropValue
  apply exact_seq (exact_reserveIfFull h hf) (wp_reserveIfFull h)
  rintro (e | ⟨⟩) s₁ hs₁
  · exact herr e s₁
  · exact hok s₁ hs₁.1.wf hs₁.2.1

theorem exact_tryPushFront (h : WF E s.self) (hf : PushFits E s.self) : Exact (tryPushFront E v) s := by
  refine exact_tryPush h hf (fun _ _ => exact_pure) fun s₁ hwf hroom => ?_
  apply exact_bind (exact_moveHeadUnchecked hwf (by omega) (by omega))
  intro _ _
  apply exact_bind (exact_bind exact_self fun _ _ => exact_assert)
  exact fun _ _ => exact_bind exact_writeSlot fun _ _ => exact_pure

theorem exact_tryPushBack (h : WF E s.self) (hf : PushFits E s.self) : Exact (tryPushBack E v) s := by
  exact exact_tryPush h hf (fun _ _ => exact_pure) fun s₁ hwf hroom => (ends_iff.mp (ends_backSlot hwf hroom)).1

theorem wp_tryPush_wraps {α : Type} {rest : Except AllocError Unit → DeqM T β α} (h : WF E s.self) (hf : ¬ PushFits E s.self) :
    wp (onPanic (do
      let r ← reserveIfFull E
      rest r) (dropValue E v)) s (fun _ _ => False) fun _ _ => False := by
  refine wp_onPanic (P := fun _ _ => False) ?_ fun _ _ => False.elim
  exact wp_seq (wp_reserveIfFull_wraps h hf) (fun _ _ => False.elim) fun _ _ => id

theorem tryPushFront_iff (h : WF E s.self) :
    Does (tryPushFront E v) s (fun r s' => r = .ok () → s'.self.elems.len ≤ s'.self.capacity) (fun _ _ => True) ↔
      PushFits E s.self := by
  apply does_iff (exact_tryPushFront h) _ (wp_tryPush_wraps h)
  refine wp_mono (wp_tryPushFront h) ?_ fun _ _ _ => trivial
  rintro (e | ⟨⟩) s' hs'
  · simp
  · exact fun _ => hs'.1.wf.len_le

theorem tryPushBack_iff (h : WF E s.self) :
    Does (tryPushBack E v) s (fun r s' => r = .ok () → s'.self.elems.len ≤ s'.self.capacity) (fun _ _ => True) ↔
      PushFits E s.self := by
  apply does_iff (exact_tryPushBack h) _ (wp_tryPush_wraps h)
  refine wp_mono (wp_tryPushBack h) ?_ fun _ _ _ => trivial
  rintro (e | ⟨⟩) s' hs'
  · simp
  · exact fun _ => hs'.1.wf.len_le

theorem exact_unwrapPush {r : Except (T × AllocError) Unit} : Exact (unwrapPush E r) s := by
  rcases r with ⟨u, e⟩ | ⟨⟩
  · exact exact_onPanic exact_throw fun _ => exact_dropValue
  · exact exact_pure

theorem pushFront_iff (h : WF E s.self) :
    Does (pushFront E v) s (fun _ s' => s'.self.elems.len ≤ s'.self.capacity) (fun _ _ => True) ↔ PushFits E s.self := by
  apply does_iff
  · exact fun hf => exact_bind (exact_tryPushFront h hf) fun _ _ => exact_unwrapPush
  · exact wp_mono (wp_pushFront h) (fun _ _ heff => heff.wf.len_le) fun _ _ _ => trivial
  · exact fun hf => wp_seq (wp_tryPush_wraps h hf) (fun _ _ => False.elim) fun _ _ => id

theorem pushBack_iff (h : WF E s.self) :
    Does (pushBack E v) s (fun _ s' => s'.self.elems.len ≤ s'.self.capacity) (fun _ _ => True) ↔ PushFits E s.self := by
  apply does_iff
  · exact fun hf => exact_bind (exact_tryPushBack h hf) fun _ _ => exact_unwrapPush
  · exact wp_mono (wp_pushBack h) (fun _ _ heff => heff.wf.len_le) fun _ _ _ => trivial
  · exact fun hf => wp_seq (wp_tryPush_wraps h hf) (fun _ _ => False.elim) fun _ _ => id

/-- A deque of a program and the world around it, after steps that did not wrap around. -/
def Met (E : Env T β) (s : Frame (SliceDeque β) T) : Prop :=
  ∃ ops, Program.ExactRun E ops ∧ .deque s.self ∈ (Program.reached E ops).self.vars ∧ s.world = (Program.reached E ops).world

theorem Met.wf (h : Met E s) : WF E s.self := by
  obtain ⟨ops, hx, hv, -⟩ := h
  exact Program.ok_reached hx _ hv

/-- A request is honoured or refused, and nothing wraps around, exactly if the sizes that it asks for fit. -/
theorem requests_honoured_iff (h : Met E s) :
    (∀ n, Does (withCapacity E n) s (fun d _ => n ≤ d.capacity) (fun _ _ => True) ↔ Askable E n) ∧
      (∀ n, Does (tryReserve E n) s
          (fun r s' => (r = .ok () → Reserved E s s' n) ∧ ∀ e, r = .error e → s'.self = s.self) (fun _ _ => True) ↔
        Fitting E s.self n (growTarget s.self n)) ∧
      (∀ n, Does (reserve E n) s (fun _ s' => Reserved E s s' n) (fun _ _ => True) ↔
        Fitting E s.self n (growTarget s.self n)) ∧
      (∀ n, Does (reserveExact E n) s (fun _ s' => Reserved E s s' n) (fun _ _ => True) ↔
        Fitting E s.self n (s.self.elems.len + n)) ∧
      (∀ v, Does (tryPushFront E v) s (fun r s' => r = .ok () → s'.self.elems.len ≤ s'.self.capacity) (fun _ _ => True) ↔
        PushFits E s.self) ∧
      (∀ v, Does (tryPushBack E v) s (fun r s' => r = .ok () → s'.self.elems.len ≤ s'.self.capacity) (fun _ _ => True) ↔
        PushFits E s.self) ∧
      (∀ v, Does (pushFront E v) s (fun _ s' => s'.self.elems.len ≤ s'.self.capacity) (fun _ _ => True) ↔ PushFits E s.self) ∧
      ∀ v, Does (pushBack E v) s (fun _ s' => s'.self.elems.len ≤ s'.self.capacity) (fun _ _ => True) ↔ PushFits E s.self :=
  ⟨fun _ => withCapacity_iff, fun _ => tryReserve_iff h.wf, fun _ => reserve_iff h.wf, fun _ => reserveExact_iff h.wf,
    fun _ => tryPushFront_iff h.wf, fun _ => tryPushBack_iff h.wf, fun _ => pushFront_iff h.wf, fun _ => pushBack_iff h.wf⟩

/-- Twice `2 ^ 63` wraps around to 0, for which nothing is allocated. -/
theorem withCapacity_wraps : ∃ d t, withCapacity (cells false 1 (by decide)) isizeBound (⟨(), .start⟩ : Frame Unit Nat) =
    ⟨true, .ok d, t⟩ ∧ d.capacity = 0 := ⟨_, _, rfl, rfl⟩

theorem met_new : Met (cells false 3 (by decide)) ⟨new (cells false 3 (by decide)), .start⟩ :=
  ⟨[.new], by decide, List.mem_singleton_self _, rfl⟩

theorem new_honoured : Does (reserve (cells false 3 (by decide)) 1000) ⟨new (cells false 3 (by decide)), .start⟩
    (fun _ s' => Reserved (cells false 3 (by decide)) ⟨new (cells false 3 (by decide)), .start⟩ s' 1000) fun _ _ => True :=
  ((requests_honoured_iff met_new).2.2.1 1000).mpr fun _ _ => .inr ⟨by decide, fun _ _ => ⟨by decide, by decide⟩⟩

end Sdeq.SliceDeque
