import SliceDeque.Ops

/-!
# Insertion

`insert` shifts the shorter side by one slot. Towards the back this makes room
at the index; towards the front the elements from the index on are shifted
instead of those before it, so that the slot in front of the old head, which
is the new first slot, keeps what it showed.
-/

set_option autoImplicit false

namespace Sdeq.SliceDeque
open Exec

variable {T β : Type} (E : Env T β)

/-- What the slot before the head shows when the elements are shifted. The contents of a full deque
are in a new buffer then, with the bytes that the allocator left there. -/
def before (s : Frame (SliceDeque β) T) : T :=
  if s.self.elems.len = s.self.capacity then
    match E.allocate s.world.calls (Buffer.byteSize E (2 * growTarget s.self 1)) with
    | .ok (a, f) => (⟨a, Buffer.byteSize E (2 * growTarget s.self 1) / 2, f⟩ : Mirror β).slot E.layout a (-1)
    | .error _ => s.self.slot E (-1)
  else s.self.slot E (-1)

/-- The slots as they are shifted: those of the deque and the one before its head. -/
def shown (s : Frame (SliceDeque β) T) (k : Int) : T := if k < 0 then before E s else s.self.slot E k

/-- The contents after `insert`, from what the slots show. -/
def inserted (f : Int → T) (n i : Nat) (v : T) : List T :=
  (List.range (n + 1)).map fun k : Nat =>
    if k = i then v
    else if n / 2 < i then (if k < i then f k else f (k - 1))
    else if i ≤ k + 1 ∧ k + 1 < 2 * i then f k
    else f (k - 1)

variable {E} {s s' : Frame (SliceDeque β) T} {P : Panic → Frame (SliceDeque β) T → Prop}

/-- There is one more slot, to be written at `i`; the other slots show what `g` says. -/
structure Opened (E : Env T β) (d d' : SliceDeque β) (i : Nat) (g : Nat → T) : Prop where
  wf : WF E d'
  regions_eq : d'.regions E = d.regions E
  len_eq : d'.elems.len = d.elems.len + 1
  slot_eq : ∀ k : Nat, k ≤ d.elems.len → k ≠ i → d'.slot E k = g k

theorem wp_openBack {i : Nat} {Q : Unit → Frame (SliceDeque β) T → Prop} (h : WF E s.self)
    (hroom : s.self.elems.len < s.self.capacity) (hi : i ≤ s.self.elems.len)
    (hQ : ∀ d', Opened E s.self d' i (fun k : Nat => if k < i then s.self.slot E k else s.self.slot E (k - 1)) →
      Q () ⟨d', s.world⟩) :
    wp (copySlots E i (i + 1) (s.self.elems.len - i)) s (fun _ s₁ => wp (moveTailUnchecked E 1) s₁ Q P) P := by
  apply wp_copySlots h (by omega) (by omega) (by omega) (by omega)
  intro d₁ hwf hr hs
  have helems := hr.elems_eq
  have hcap := hr.capacity_eq
  apply wp_moveTailUnchecked (n := s.self.elems.len + 1) hwf (by rw [helems]; push_cast; rfl) (by dsimp only; omega)
  apply hQ
  refine ⟨hwf.withLen (by omega), hr.regions_eq, rfl, ?_⟩
  intro k hk hki
  apply (hs k (by omega) (by omega)).trans
  by_cases hlt : k < i
  · rw [if_neg (by omega), if_pos hlt]
  · rw [if_pos (by omega), if_neg hlt]
    congr 1
    omega

/-- The elements from `i` on are shifted, as many as there are before `i`. -/
theorem wp_openFront {i : Nat} {Q : Unit → Frame (SliceDeque β) T → Prop} (h : WF E s.self)
    (hroom : s.self.elems.len < s.self.capacity) (hi : i ≤ s.self.elems.len / 2)
    (hQ : ∀ d', Opened E s.self d' i (fun k : Nat => if i ≤ k + 1 ∧ k + 1 < 2 * i then s.self.slot E k
      else s.self.slot E (k - 1)) → Q () ⟨d', s.world⟩) :
    wp (moveHeadUnchecked E (-1)) s (fun _ s₁ => wp (copySlots E i (i - 1) i) s₁ Q P) P := by
  apply wp_moveHeadUnchecked h (by omega) (by omega)
  intro d₁ hm
  have hlen := hm.len_eq
  have hcap := hm.capacity_eq
  have hle := hm.wf.len_le
  have hslot : ∀ k : Nat, d₁.slot E k = s.self.slot E (k - 1) := by
    intro k
    rw [hm.slot_eq, sub_eq_neg_add]
  rcases Nat.eq_zero_or_pos i with rfl | hpos
  · apply wp_copySlots_zero
    apply hQ
    apply Opened.mk hm.wf hm.regions_eq (by omega)
    intro k _ _
    rw [if_neg (by omega)]
    exact hslot k
  · apply wp_copySlots hm.wf (by omega) (by dsimp only; omega) (by omega) (by dsimp only; omega)
    intro d₂ hwf hr hs
    have helems : d₂.elems = d₁.elems := hr.elems_eq
    apply hQ
    apply Opened.mk hwf (hr.regions_eq.trans hm.regions_eq) (by rw [helems]; omega)
    intro k hk _
    apply (hs k (by omega) (by dsimp only; omega)).trans
    by_cases hmid : i ≤ k + 1 ∧ k + 1 < 2 * i
    · rw [if_pos (by omega), if_pos hmid, hm.slot_eq]
      congr 1
      omega
    · rw [if_neg (by omega), if_neg hmid]
      exact hslot k

theorem wp_fillOpened {d : SliceDeque β} {i : Nat} {v : T} {g : Nat → T} (ho : Opened E s.self d i g)
    (hi : i ≤ s.self.elems.len) :
    wp (writeSlot E i v) ⟨d, s.world⟩
      (fun _ s' => Effect E s s' ((List.range (s.self.elems.len + 1)).map fun k => if k = i then v else g k) []) P := by
  have hlen := ho.len_eq
  have hle := ho.wf.len_le
  apply wp_writeSlot ho.wf (by omega) (by dsimp only; omega)
  intro d' hwf hr hs
  apply Change.of_self hwf _ (hr.regions_eq.trans ho.regions_eq)
  apply toList_eq_of_getElem
  · rw [hr.elems_eq, List.length_map, List.length_range, ho.len_eq]
  · intro k hk
    rw [List.length_map, List.length_range] at hk
    rw [List.getElem_map, List.getElem_range]
    apply (hs k (by omega) (by dsimp only; omega)).trans
    by_cases hki : k = i
    · rw [if_pos (by omega), if_pos hki]
    · rw [if_neg (by omega), if_neg hki]
      exact ho.slot_eq k (by omega) hki

/-- A full deque is moved, and the slot before its head is one of the new memory. -/
theorem shown_of_grown {k : Int} (h : WF E s.self) (hfull : s.self.elems.len = s.self.capacity)
    (hg : Grown E s s' (growTarget s.self 1)) (hk : -1 ≤ k) (hkl : k < s.self.elems.len) :
    s'.self.slot E k = shown E s k := by
  by_cases h0 : 0 ≤ k
  · obtain ⟨j, rfl⟩ := Int.eq_ofNat_of_zero_le h0
    rw [shown, if_neg (by omega)]
    exact hg.slot_eq j (by omega)
  · have hneg : k = -1 := by omega
    subst hneg
    rw [shown, if_pos (by omega), before, if_pos hfull]
    have hge := (le_growTarget s.self 1).trans hg.cap_ge
    rcases hg.moved with rfl | ⟨-, hr⟩
    · omega
    by_cases hs : E.layout.size = 0
    · cases E.allocate s.world.calls (Buffer.byteSize E (2 * growTarget s.self 1)) with
      | ok r => exact Mirror.slot_congr fun j hj => by omega
      | error e => exact Mirror.slot_congr fun j hj => by omega
    · obtain ⟨a, f, ha, hm⟩ := hr.memory hs
      have hcap := hg.wf.cap_mul_le
      have hbase : s'.self.elems.ptr = a := by
        rw [hr.begin_eq, hm]
        rfl
      rw [hm] at hcap
      rw [ha, slot, hm, hbase]
      exact Mirror.slot_copyFrom_before hcap (by omega) (by omega)

theorem wp_reserveIfFull_shown (h : WF E s.self) :
    wp (reserveIfFull E) s
      (fun r s' => match r with
        | .ok () => Effect E s s' (s.self.toList E) [] ∧ s'.self.elems.len < s'.self.capacity ∧
          ∀ k : Int, -1 ≤ k → k < s.self.elems.len → s'.self.slot E k = shown E s k
        | .error _ => Untouched s s' [])
      (fun p s' => s' = s ∧ SizePanic E p) := by
  have hle := h.len_le
  simp only [reserveIfFull, wp_bind]
  apply wp_isFull h
  rw [wp_ite]
  constructor
  · intro hfull
    apply wp_mono (wp_tryReserve h) _ fun _ _ => id
    rintro (e | ⟨⟩) s' hs'
    · exact hs'.untouched
    · have hge := (le_growTarget s.self 1).trans hs'.cap_ge
      refine ⟨hs'.effect h, by rw [hs'.len_eq]; omega, fun k hk hkl => ?_⟩
      exact shown_of_grown h (by simpa using hfull) hs' hk hkl
  · intro hfull
    have hne : s.self.elems.len ≠ s.self.capacity := by simpa using hfull
    apply wp_pure.mpr
    refine ⟨.refl h, by omega, fun k _ _ => ?_⟩
    unfold shown before
    rw [if_neg hne]
    split
    · congr 1
      omega
    · rfl

/-- Only the slots of the deque and the one before its head are looked at. -/
theorem inserted_congr {f g : Int → T} {n i : Nat} {v : T} (hi : i ≤ n) (h : ∀ k : Int, -1 ≤ k → k < n → f k = g k) :
    inserted f n i v = inserted g n i v := by
  apply List.map_congr_left
  intro k hk
  have hlt := List.mem_range.mp hk
  have hhere : k < i ∨ k + 1 < 2 * i ∧ i ≤ n / 2 → f k = g k := fun hc => h k (by omega) (by omega)
  have hprev : f (k - 1) = g (k - 1) := h (k - 1) (by omega) (by omega)
  split_ifs with hki hback hlow hmid
  · rfl
  · exact hhere (.inl hlow)
  · exact hprev
  · exact hhere (.inr ⟨hmid.2, by omega⟩)
  · exact hprev

/-- With room for one more element, both ways of shifting end with a slot to overwrite. -/
theorem wp_insertRoom {i : Nat} {v : T} (h : WF E s.self) (hroom : s.self.elems.len < s.self.capacity)
    (hi : i ≤ s.self.elems.len) :
    wp (do
      let l ← len E
      if l / 2 < i then do
        copySlots E i (i + 1) (s.self.elems.len - i)
        moveTailUnchecked E 1
      else do
        moveHeadUnchecked E (-1)
        copySlots E i (i - 1) i
      writeSlot E i v) s
      (fun _ s' => Effect E s s' (inserted (s.self.slot E) s.self.elems.len i v) []) P := by
  unfold inserted
  rw [wp_bind]
  apply wp_len h
  rw [wp_ite]
  constructor
  · intro hback
    simp only [wp_bind, if_pos hback]
    apply wp_openBack h hroom hi
    exact fun d' ho => wp_fillOpened ho hi
  · intro hfront
    simp only [wp_bind, if_neg hfront]
    apply wp_openFront h hroom (by omega)
    exact fun d' ho => wp_fillOpened ho hi

/-- `insert` computes `inserted`, unless the reservation fails. -/
theorem wp_insert_reserved {i : Nat} {v : T} {P : Panic → Frame (SliceDeque β) T → Prop} (h : WF E s.self)
    (hi : i ≤ s.self.elems.len)
    (hres : wp (reserveIfFull E) s
      (fun r s' => match r with
        | .ok () => Effect E s s' (s.self.toList E) [] ∧ s'.self.elems.len < s'.self.capacity ∧
          ∀ k : Int, -1 ≤ k → k < s.self.elems.len → s'.self.slot E k = shown E s k
        | .error e => P (.alloc e) ⟨s'.self, s'.world.destroy [v]⟩)
      fun p s' => P p ⟨s'.self, s'.world.destroy [v]⟩) :
    wp (insert E i v) s (fun _ s' => Effect E s s' (inserted (shown E s) s.self.elems.len i v) []) P := by
  apply wp_onPanic_dropValue
  rw [wp_bind]
  apply wp_len h
  rw [wp_bind, wp_assert]
  constructor
  · intro _
    rw [wp_bind]
    apply wp_mono hres _ fun _ _ => id
    rintro (e | ⟨⟩) s₁ hs₁
    · rw [wp_bind]
      exact wp_throw.mpr hs₁
    · obtain ⟨heff, hroom, hshown⟩ := hs₁
      have hlen : s₁.self.elems.len = s.self.elems.len := by rw [heff.len_eq, toList_length]
      have hinsert := wp_insertRoom (v := v) (P := fun _ _ => False) heff.wf hroom (hi.trans hlen.ge)
      rw [hlen] at hinsert
      rw [wp_bind, unwrapAlloc, wp_pure]
      apply wp_mono hinsert _ fun _ _ => False.elim
      intro _ s' heff'
      rw [inserted_congr hi hshown] at heff'
      exact heff.trans heff'
  · exact fun hgt => absurd hi hgt

theorem wp_insert {i : Nat} {v : T} (h : WF E s.self) :
    wp (insert E i v) s
      (fun _ s' => Effect E s s' (inserted (shown E s) s.self.elems.len i v) [])
      (fun p s' => (Refusal E p ∨ p = .assert ∧ s.self.elems.len < i) ∧ Untouched s s' [v]) := by
  by_cases hi : i ≤ s.self.elems.len
  · apply wp_insert_reserved h hi
    apply wp_mono (wp_reserveIfFull_shown h)
    · rintro (e | ⟨⟩) s₁ hs₁
      · exact ⟨.inl (.inr ⟨e, rfl⟩), hs₁.destroy [v]⟩
      · exact hs₁
    · intro p s₁ hp
      obtain ⟨rfl, hp⟩ := hp
      exact ⟨.inl (.inl hp), (Untouched.refl s₁).destroy [v]⟩
  · apply wp_onPanic_dropValue
    rw [wp_bind]
    apply wp_len h
    rw [wp_bind, wp_assert]
    exact ⟨fun hle => absurd hle hi, fun _ => ⟨.inr ⟨rfl, by omega⟩, (Untouched.refl s).destroy [v]⟩⟩

/-! ## When the contents are right -/

/-- The shift towards the front goes unnoticed: the values that should have moved and those that
should have stayed are equal to their predecessors. -/
def Masked (f : Int → T) (i : Nat) : Prop :=
  (∀ k : Nat, k + 1 < i → f k = f (k - 1)) ∧ ∀ k : Nat, i < k → k + 1 < 2 * i → f k = f (k - 1)

theorem insertIdx_map_range (f : Int → T) {n i : Nat} (v : T) (hi : i ≤ n) :
    ((List.range n).map fun k : Nat => f k).insertIdx i v =
      (List.range (n + 1)).map fun k : Nat => if k < i then f k else if k = i then v else f (k - 1) := by
  apply List.ext_getElem
  · rw [List.length_insertIdx_of_le_length (by simpa using hi)]
    simp
  · intro k hk hk'
    rw [List.length_map, List.length_range] at hk'
    rw [List.getElem_insertIdx, List.getElem_map, List.getElem_range]
    split_ifs with hlt heq
    · rw [List.getElem_map, List.getElem_range]
    · rfl
    · rw [List.getElem_map, List.getElem_range, Nat.cast_sub (by omega), Nat.cast_one]

theorem inserted_eq_iff {f : Int → T} {n i : Nat} {v : T} (hi : i ≤ n) :
    inserted f n i v = ((List.range n).map fun k : Nat => f k).insertIdx i v ↔ i ≤ 1 ∨ n / 2 < i ∨ Masked f i := by
  rw [insertIdx_map_range f v hi, inserted, List.map_inj_left]
  constructor
  · intro h
    by_cases hback : n / 2 < i
    · exact .inr (.inl hback)
    · right
      right
      constructor
      · intro k hk
        have hkn := h k (List.mem_range.mpr (by omega))
        rw [if_neg (by omega), if_neg hback, if_neg (by omega), if_pos (by omega)] at hkn
        exact hkn.symm
      · intro k hik hk
        have hkn := h k (List.mem_range.mpr (by omega))
        rw [if_neg (by omega), if_neg hback, if_pos (by omega), if_neg (by omega), if_neg (by omega)] at hkn
        exact hkn
  · intro h k hk
    by_cases hki : k = i
    · rw [if_pos hki, if_neg (by omega), if_pos hki]
    rw [if_neg hki]
    by_cases hback : n / 2 < i
    · rw [if_pos hback, if_neg hki]
    · rw [if_neg hback, if_neg hki]
      have hm : Masked f i := by
        rcases h with h | h | h
        · exact ⟨fun k hk => by omega, fun k hik hk => by omega⟩
        · exact absurd h hback
        · exact h
      split_ifs with hmid hlow hlow
      · rfl
      · exact hm.2 k (by omega) hmid.2
      · exact (hm.1 k (by omega)).symm
      · rfl

/-- Where memory can be had, no operation of `insert` wraps around. -/
theorem exact_insert {i : Nat} {v : T} (h : WF E s.self) (hres : Ends (reserveIfFull E) s fun r _ => r = .ok ()) :
    Exact (insert E i v) s := by
  apply exact_onPanic _ fun _ => exact_dropValue
  apply exact_len_bind h
  apply exact_assert_bind
  intro hi
  obtain ⟨hexact, hwp⟩ := ends_iff.mp (hres.unique (hres.wp (wp_reserveIfFull h)))
  apply exact_seq hexact hwp
  rintro _ s₁ ⟨rfl, heff, hroom, -⟩
  have hlen : s₁.self.elems.len = s.self.elems.len := by rw [heff.len_eq, toList_length]
  apply exact_pure_bind
  apply exact_len_bind heff.wf
  apply exact_ite
  · intro _
    have hcopy : wp (copySlots E i (i + 1) (s.self.elems.len - i)) s₁
        (fun _ s' => WF E s'.self ∧ Rewritten s₁.self s'.self) fun _ _ => False :=
      wp_copySlots heff.wf (by omega) (by omega) (by omega) (by omega) fun d' hwf hr _ => ⟨hwf, hr⟩
    apply exact_seq exact_copySlots hcopy
    intro _ s₂ hs₂
    obtain ⟨hwf, hr⟩ := hs₂
    have hcap := hr.capacity_eq
    have helems := hr.elems_eq
    apply exact_bind _ fun _ _ => exact_writeSlot
    exact exact_moveTailUnchecked (n := s₁.self.elems.len + 1) hwf (by rw [helems]; push_cast; rfl) (by omega)
  · intro _
    apply exact_bind
    · exact exact_moveHeadUnchecked heff.wf (by omega) (by omega)
    · exact fun _ _ => exact_bind exact_copySlots fun _ _ => exact_writeSlot

theorem ends_insert {i : Nat} {v : T} (h : WF E s.self) (hi : i ≤ s.self.elems.len)
    (hres : Ends (reserveIfFull E) s fun r _ => r = .ok ()) :
    Ends (insert E i v) s fun _ s' => s'.self.toList E = inserted (shown E s) s.self.elems.len i v := by
  obtain ⟨-, hwp⟩ := ends_iff.mp (hres.unique (hres.wp (wp_reserveIfFull_shown h)))
  apply ends_iff.mpr ⟨exact_insert h hres, _⟩
  apply wp_mono (wp_insert_reserved (P := fun _ _ => False) h hi _) (fun _ s' heff => heff.toList_eq) fun _ _ => id
  apply wp_mono hwp _ fun _ _ => id
  rintro _ s₁ ⟨rfl, hs₁⟩
  exact hs₁

/-- Where memory can be had, `insert` is list insertion exactly if the index is 0 or 1 or in the back
half, or the values that show the wrong shift are equal. -/
theorem insert_inserts_iff {i : Nat} {v : T} (h : WF E s.self) (hi : i ≤ s.self.elems.len)
    (hres : Ends (reserveIfFull E) s fun r _ => r = .ok ()) :
    Ends (insert E i v) s (fun _ s' => s'.self.toList E = (s.self.toList E).insertIdx i v) ↔
      i ≤ 1 ∨ s.self.elems.len / 2 < i ∨ Masked (shown E s) i := by
  have hl : s.self.toList E = (List.range s.self.elems.len).map fun k : Nat => shown E s k := by
    apply List.map_congr_left
    intro k _
    rw [shown, if_neg (by omega)]
    rfl
  have hends := ends_insert (v := v) h hi hres
  rw [hl, ← inserted_eq_iff hi]
  constructor
  · intro hinsert
    obtain ⟨_, s', -, hcode, hclaim⟩ := hends.unique hinsert
    exact hcode.symm.trans hclaim
  · intro heq
    apply ends_mono hends
    intro _ s' hcode
    rw [hcode, heq]

/-- An insertion in the back half. -/
theorem sample_insert : Ends (insert (cells true 3 (by decide)) 2 40) ⟨sample, .start⟩ fun _ s' =>
    s'.self.toList (cells true 3 (by decide)) = [10, 20, 40, 30] := by
  have hres : Ends (reserveIfFull (cells true 3 (by decide))) (⟨sample, .start⟩ : Frame (SliceDeque Nat) Nat)
      fun r _ => r = .ok () := ⟨.ok (), _, rfl, rfl⟩
  exact (insert_inserts_iff wf_sample (by decide) hres).mpr (.inr (.inl (by decide)))

/-- Four elements, the third place: the new first slot shows 0. -/
theorem insert_shifts_wrongly :
    let E := cells true 1 (by decide)
    let o := (do
      pushBack E 1
      pushBack E 2
      pushBack E 3
      pushBack E 4
      insert E 2 9) (⟨new E, .start⟩ : Frame (SliceDeque Nat) Nat)
    o.result = .ok () ∧ o.state.self.toList E = [0, 2, 9, 3, 4] := by
  decide +kernel

end Sdeq.SliceDeque
