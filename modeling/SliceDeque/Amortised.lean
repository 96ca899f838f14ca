import SliceDeque.Program

/-!
# Amortised growth

A deque that is only pushed to and popped from is full when it grows, and its
capacity doubles. All growth together has moved at most as many elements as the
deque can hold, and two for each push.
-/

set_option autoImplicit false

namespace Sdeq
open Exec SliceDeque

namespace Call
variable {T : Type}

/-- The methods that change a deque at one of its ends. -/
def atEnds : Call T → Bool
  | pushFront _ => true
  | pushBack _ => true
  | popFront => true
  | popBack => true
  | _ => false

def isPush : Call T → Bool
  | pushFront _ => true
  | pushBack _ => true
  | _ => false

end Call

namespace SliceDeque
variable {T β : Type} {E : Env T β} {s s' : Frame (SliceDeque β) T} {k n : Nat} {v : T}

/-- The pushes of a run that did not panic. -/
def pushes (E : Env T β) (calls : List (Call T)) (s : Frame (SliceDeque β) T) : Nat :=
  (calls.zip (results (Call.run E) calls s)).countP fun p => p.1.isPush && p.2.isOk

/-- A step that obtained another buffer made the capacity at least twice as large. -/
def Regrown (s s' : Frame (SliceDeque β) T) : Prop :=
  s'.world.mapped ≠ s.world.mapped → 2 * s.self.capacity ≤ s'.self.capacity

theorem Doubled.regrown (h : Doubled s s') : Regrown s s' := by
  intro hne
  rcases h with ⟨hw, -⟩ | ⟨-, hcap, -⟩
  · exact absurd (congrArg World.mapped hw) hne
  · exact hcap

/-- After `k` pushes the elements that were moved are paid for, by the pushes and by the capacity. -/
structure Paid (E : Env T β) (s : Frame (SliceDeque β) T) (k : Nat) : Prop where
  wf : WF E s.self
  len_le : s.self.elems.len ≤ k
  copied_le : s.world.copied ≤ 2 * k
  copied_le_cap : s.world.copied ≤ s.self.capacity

theorem paid_new : Paid E (⟨new E, .start⟩ : Frame (SliceDeque β) T) 0 := ⟨wf_new, le_rfl, le_rfl, Nat.zero_le _⟩

/-- When the contents move the deque is full, so that they are no more than its capacity and than the pushes. -/
theorem Paid.doubled (h : Paid E s k) (hd : Doubled s s') (hwf : WF E s'.self) (hk : k ≤ n) (hlen : s'.self.elems.len ≤ n) :
    Paid E s' n := by
  obtain ⟨-, hle, hcopied, hcap⟩ := h
  rcases hd with ⟨hw, hsame⟩ | ⟨hfull, hdouble, hmoved, -⟩
  · refine ⟨hwf, hlen, ?_, ?_⟩
    · rw [hw]
      omega
    · rwa [hw, hsame]
  · exact ⟨hwf, hlen, by omega, by omega⟩

/-- A step that left the deque and its growth alone. -/
structure Idle (s s' : Frame (SliceDeque β) T) : Prop where
  self_eq : s'.self = s.self
  copied_eq : s'.world.copied = s.world.copied
  mapped_eq : s'.world.mapped = s.world.mapped

theorem Paid.idle (h : Paid E s k) (hi : Idle s s') : Paid E s' k := by
  refine ⟨hi.self_eq ▸ h.wf, ?_, ?_, ?_⟩
  · rw [hi.self_eq]
    exact h.len_le
  · rw [hi.copied_eq]
    exact h.copied_le
  · rw [hi.copied_eq, hi.self_eq]
    exact h.copied_le_cap

theorem Refused.idle {e : AllocError} (h : Refused E s s' e) (vs : List T) : Idle s ⟨s'.self, s'.world.destroy vs⟩ := by
  refine ⟨h.self_eq, ?_, ?_⟩ <;> rw [h.world_eq] <;> rfl

/-! ## Steps -/

theorem wp_push_doubled {m : DeqM T β (Except (T × AllocError) Unit)} {l : List T} (hl : l.length = s.self.elems.len + 1)
    (h : wp m s
      (fun r s' => match r with
        | .ok () => Effect E s s' l [] ∧ Doubled s s'
        | .error (u, e) => u = v ∧ Refused E s s' e)
      fun p s' => SizePanic E p ∧ s' = ⟨s.self, s.world.destroy [v]⟩) :
    wp (m >>= unwrapPush E) s (fun _ s' => WF E s'.self ∧ s'.self.elems.len = s.self.elems.len + 1 ∧ Doubled s s')
      fun _ s' => Idle s s' := by
  refine wp_seq h ?_ ?_
  · intro r s₁ hr
    refine wp_unwrapPush (fun hok => ?_) fun u e he => ?_
    · subst hok
      exact ⟨hr.1.wf, hr.1.len_eq.trans hl, hr.2⟩
    · subst he
      exact hr.2.idle [u]
  · rintro p s' ⟨-, rfl⟩
    exact ⟨rfl, rfl, rfl⟩

theorem wp_popFront_doubled (h : WF E s.self) :
    wp (popFront E) s (fun _ s' => WF E s'.self ∧ s'.self.elems.len ≤ s.self.elems.len ∧ Doubled s s') fun _ _ => False := by
  have hle := h.len_le
  simp only [popFront, wp_bind, wp_self, wp_ite, wp_pure]
  refine ⟨fun hpos => ?_, fun _ => ⟨h, le_rfl, .inl ⟨rfl, rfl⟩⟩⟩
  refine wp_readSlot h le_rfl (by omega) (wp_moveHeadUnchecked h (by omega) (by omega) fun d hm => ?_)
  have hlen := hm.len_eq
  exact ⟨hm.wf, by dsimp only; omega, .inl ⟨rfl, hm.capacity_eq⟩⟩

theorem wp_popBack_doubled (h : WF E s.self) :
    wp (popBack E) s (fun _ s' => WF E s'.self ∧ s'.self.elems.len ≤ s.self.elems.len ∧ Doubled s s') fun _ _ => False := by
  have hle := h.len_le
  have hlt := h.len_lt
  simp only [popBack, wp_bind]
  refine wp_len h ?_
  simp only [wp_self, wp_ite, wp_bind, wp_pure]
  refine ⟨fun hpred => ?_, fun _ => ⟨h, le_rfl, .inl ⟨rfl, rfl⟩⟩⟩
  have hpos : 0 < s.self.elems.len := by omega
  rw [wrappingPred_of_pos hpos]
  refine wp_readSlot h (by omega) (by omega) ?_
  refine wp_moveTailUnchecked (n := s.self.elems.len - 1) h (by omega) (by omega) ?_
  exact ⟨h.withLen (by omega), Nat.sub_le _ _, .inl ⟨rfl, rfl⟩⟩

/-- A step of a run: a push that does not panic pays for two elements. -/
theorem wp_run_paid {c : Call T} (hc : c.atEnds = true) (h : Paid E s k) :
    wp (c.run E) s (fun _ s' => Paid E s' (k + if c.isPush = true then 1 else 0) ∧ Regrown s s')
      fun _ s' => Paid E s' k ∧ Regrown s s' := by
  have hlen := h.len_le
  have hidle : ∀ (p : Panic) s', Idle s s' → Paid E s' k ∧ Regrown s s' := fun _ _ hi =>
    ⟨h.idle hi, fun hne => absurd hi.mapped_eq hne⟩
  cases c with
  | pushFront v =>
    have hl : (v :: s.self.toList E).length = s.self.elems.len + 1 := by rw [List.length_cons, toList_length]
    refine wp_seq (wp_push_doubled hl (wp_tryPushFront h.wf)) ?_ hidle
    exact fun _ s' hs' => wp_pure.mpr ⟨h.doubled hs'.2.2 hs'.1 (Nat.le_succ k) (hs'.2.1.trans_le (Nat.succ_le_succ hlen)), hs'.2.2.regrown⟩
  | pushBack v =>
    have hl : (s.self.toList E ++ [v]).length = s.self.elems.len + 1 := by
      rw [List.length_append, toList_length, List.length_singleton]
    refine wp_seq (wp_push_doubled hl (wp_tryPushBack h.wf)) ?_ hidle
    exact fun _ s' hs' => wp_pure.mpr ⟨h.doubled hs'.2.2 hs'.1 (Nat.le_succ k) (hs'.2.1.trans_le (Nat.succ_le_succ hlen)), hs'.2.2.regrown⟩
  | popFront =>
    refine wp_seq (wp_popFront_doubled h.wf) ?_ fun _ _ => False.elim
    exact fun _ s' hs' => wp_pure.mpr ⟨h.doubled hs'.2.2 hs'.1 le_rfl (by omega), hs'.2.2.regrown⟩
  | popBack =>
    refine wp_seq (wp_popBack_doubled h.wf) ?_ fun _ _ => False.elim
    exact fun _ s' hs' => wp_pure.mpr ⟨h.doubled hs'.2.2 hs'.1 le_rfl (by omega), hs'.2.2.regrown⟩
  | _ => cases hc

/-! ## Runs -/

theorem pushes_cons (c : Call T) (calls : List (Call T)) :
    pushes E (c :: calls) s =
      (if (c.isPush && (c.run E s).result.isOk) = true then 1 else 0) + pushes E calls (c.run E s).state := by
  rw [pushes, results, List.zip_cons_cons, List.countP_cons, add_comm]
  rfl

theorem paid_run {calls : List (Call T)} (hc : ∀ c ∈ calls, c.atEnds = true) (h : Paid E s k)
    (hx : Always (Call.run E) (fun c s => Exact (c.run E) s) calls s) :
    Always (Call.run E) (fun c s => Regrown s (c.run E s).state) calls s ∧
      Paid E (final (Call.run E) calls s) (k + pushes E calls s) := by
  induction calls generalizing s k with
  | nil => exact ⟨trivial, h⟩
  | cons c calls ih =>
    have hends := (wp_run_paid (hc c List.mem_cons_self) h).ends hx.1
    have hrest : ∀ c ∈ calls, c.atEnds = true := fun c hmem => hc c (List.mem_cons_of_mem _ hmem)
    have hstep : Paid E (c.run E s).state (k + if (c.isPush && (c.run E s).result.isOk) = true then 1 else 0) ∧
        Regrown s (c.run E s).state := by
      revert hends
      cases (c.run E s).result with
      | ok r => simp [Except.isOk, Except.toBool]
      | error p => simp [Except.isOk, Except.toBool]
    obtain ⟨hgrown, hpaid⟩ := ih hrest hstep.1 hx.2
    rw [pushes_cons, ← add_assoc]
    exact ⟨⟨hstep.2, hgrown⟩, hpaid⟩

/-- Every reallocation at least doubles the capacity, and growth moves at most two elements for each push. -/
theorem growth_amortised {calls : List (Call T)} (hc : ∀ c ∈ calls, c.atEnds = true)
    (hx : Always (Call.run E) (fun c s => Exact (c.run E) s) calls ⟨new E, .start⟩) :
    Always (Call.run E) (fun c s => Regrown s (c.run E s).state) calls ⟨new E, .start⟩ ∧
      (final (Call.run E) calls ⟨new E, .start⟩).world.copied ≤ 2 * pushes E calls ⟨new E, .start⟩ := by
  obtain ⟨hgrown, hpaid⟩ := paid_run hc paid_new hx
  rw [Nat.zero_add] at hpaid
  exact ⟨hgrown, hpaid.copied_le⟩

/-- Elements of 3000 bytes on pages of 4096: the capacities are 1, 2, 4 and 8. -/
def climb : List (Call Nat) :=
  [.pushBack 0, .pushFront 1, .popBack, .pushBack 2, .pushBack 3, .pushFront 4, .popFront, .pushBack 5, .pushFront 6, .pushBack 7]

theorem climb_amortised :
    Always (Call.run (cells false 3000 (by decide))) (fun c s => Regrown s (c.run (cells false 3000 (by decide)) s).state) climb
        ⟨new (cells false 3000 (by decide)), .start⟩ ∧
      (final (Call.run (cells false 3000 (by decide))) climb ⟨new (cells false 3000 (by decide)), .start⟩).world.copied ≤
        2 * pushes (cells false 3000 (by decide)) climb ⟨new (cells false 3000 (by decide)), .start⟩ :=
  growth_amortised (by decide +kernel) (by decide +kernel)

end SliceDeque

end Sdeq
