import SliceDeque.Amortised
import SliceDeque.Resize
import SliceDeque.Rotation

/-!
# The deque as a ring

As long as the deque has room, pushing and popping at its ends happens in
place: nothing is allocated, moved or destroyed, and no call fails. An element
lies where it was written until it is popped, whatever the addresses of the
head and the tail do.
-/

set_option autoImplicit false

namespace Sdeq
open Exec SliceDeque

namespace Call
variable {T : Type}

/-- The length after the call. -/
def resized : Call T → Nat → Nat
  | pushFront _, n => n + 1
  | pushBack _, n => n + 1
  | popFront, n => n - 1
  | popBack, n => n - 1
  | _, n => n

/-- Starting with `n` elements, the deque never has more than `c`. -/
def FitIn (c : Nat) : List (Call T) → Nat → Prop
  | [], _ => True
  | call :: calls, n => call.resized n ≤ c ∧ FitIn c calls (call.resized n)

instance (c : Nat) : ∀ (calls : List (Call T)) (n : Nat), Decidable (FitIn c calls n)
  | [], _ => isTrue trivial
  | call :: calls, n =>
    have : Decidable (FitIn c calls (call.resized n)) := instDecidableFitIn c calls _
    inferInstanceAs (Decidable (_ ∧ _))

end Call

namespace SliceDeque
variable {T β : Type} (E : Env T β)

/-- Where slot `i` lies in physical memory. -/
def place (d : SliceDeque β) (i : Int) : Int := d.buf.ptr.mirror.phys (d.elems.ptr + i * E.layout.size)

/-- The elements with their places. -/
def spots (d : SliceDeque β) : List (T × Int) :=
  (List.range d.elems.len).map fun i : Nat => (d.slot E i, d.place E i)

/-- The deque with the value in front of the others. -/
def unshifted (d : SliceDeque β) (v : T) : SliceDeque β :=
  ⟨(d.headed E (-1)).elems, d.buf.withMemory (d.buf.ptr.mirror.write E.layout (d.headed E (-1)).elems.ptr v)⟩

/-- Values at two places of a mirror share no byte. -/
def Disjoint (half : Nat) (p q : Int) : Prop :=
  ∀ j k, j < E.layout.size → k < E.layout.size → (p + j) % (half : Int) ≠ (q + k) % half

/-- What a ring does: values are put at places that are free and stay there. -/
inductive Turns (half : Nat) :
    Call T → List (T × Int) → Except Panic (Out T (SliceDeque β)) → List (T × Int) → Prop where
  | pushFront {v : T} {p : Int} {cs : List (T × Int)} : (∀ c ∈ cs, Disjoint E half p c.2) →
      Turns half (.pushFront v) cs (.ok .unit) ((v, p) :: cs)
  | pushBack {v : T} {p : Int} {cs : List (T × Int)} : (∀ c ∈ cs, Disjoint E half p c.2) →
      Turns half (.pushBack v) cs (.ok .unit) (cs ++ [(v, p)])
  | popFront {cs : List (T × Int)} : Turns half .popFront cs (.ok (.value (cs.head?.map Prod.fst))) cs.tail
  | popBack {cs : List (T × Int)} : Turns half .popBack cs (.ok (.value (cs.getLast?.map Prod.fst))) cs.dropLast

/-- The same buffer in the same world. -/
structure InPlace (s s' : Frame (SliceDeque β) T) : Prop where
  wf : WF E s'.self
  world_eq : s'.world = s.world
  base_eq : s'.self.buf.ptr.mirror.base = s.self.buf.ptr.mirror.base
  half_eq : s'.self.buf.ptr.mirror.half = s.self.buf.ptr.mirror.half
  capacity_eq : s'.self.capacity = s.self.capacity

variable {E} {s s' s₁ : Frame (SliceDeque β) T} {d d' : SliceDeque β} {v : T} {n : Nat} {i k : Int}

/-! ## Spots -/

@[simp] theorem spots_length (d : SliceDeque β) : (d.spots E).length = d.elems.len := by
  simp [spots]

theorem spots_getElem (d : SliceDeque β) (i : Nat) (h : i < (d.spots E).length) :
    (d.spots E)[i] = (d.slot E i, d.place E i) := by
  simp [spots]

theorem spots_map_fst (d : SliceDeque β) : (d.spots E).map Prod.fst = d.toList E := by
  rw [spots, List.map_map]
  rfl

theorem spots_eq {cs : List (T × Int)} (hl : d.elems.len = cs.length)
    (h : ∀ (i : Nat) (hi : i < cs.length), cs[i] = (d.slot E i, d.place E i)) : d.spots E = cs := by
  apply List.ext_getElem
  · rw [spots_length, hl]
  · intro i hi hi'
    rw [spots_getElem, h i hi']

theorem mem_spots {c : T × Int} (h : c ∈ d.spots E) : ∃ i : Nat, i < d.elems.len ∧ c.2 = d.place E i := by
  obtain ⟨i, hi, rfl⟩ := List.mem_map.mp h
  exact ⟨i, List.mem_range.mp hi, rfl⟩

/-- Different slots lie at different places. -/
theorem WF.disjoint (h : WF E d) (hne : i ≠ k) (hik : i - k < d.capacity) (hki : k - i < d.capacity) :
    Disjoint E d.buf.ptr.mirror.half (d.place E i) (d.place E k) := by
  intro j l hj hl he
  simp only [place, Mirror.phys, Int.emod_add_emod] at he
  refine hne (Mirror.phys_injective (m := d.buf.ptr.mirror) (b := d.elems.ptr) h.cap_mul_le hik hki hj hl ?_).1
  simp only [Mirror.phys]
  rw [show d.elems.ptr + i * E.layout.size + j - d.buf.ptr.mirror.base =
      d.elems.ptr + i * E.layout.size - d.buf.ptr.mirror.base + j by ring, he]
  congr 1
  ring

theorem WF.place_headed (h : WF E d) (hx : HeadRange d i) (k : Int) : (d.headed E i).place E k = d.place E (k + i) := by
  have := h.phys_headed hx k 0
  rwa [add_zero, add_zero] at this

/-! ## Steps -/

theorem ends_popFront (h : WF E s.self) : Ends (popFront E) s fun r s' => r = (s.self.toList E).head? ∧
    s' = ⟨s.self.headed E (if 0 < s.self.elems.len then 1 else 0), s.world⟩ := by
  have hle := h.len_le
  refine ends_iff.mpr ⟨?_, ?_⟩
  · refine exact_self_bind (exact_ite (fun hpos => ?_) fun _ => exact_pure)
    have hread : wp (readSlot E 0) s (fun _ s' => s' = s) fun _ _ => False := wp_readSlot h le_rfl (by omega) rfl
    refine exact_seq exact_readSlot hread ?_
    rintro _ _ rfl
    exact exact_bind (exact_moveHeadUnchecked h (by omega) (by omega)) fun _ _ => exact_pure
  · simp only [popFront, wp_bind, wp_self, wp_ite, wp_pure]
    refine ⟨fun hpos => ?_, fun hzero => ⟨?_, ?_⟩⟩
    · refine wp_readSlot h le_rfl (by omega) (wp_moveHeadUnchecked_headed h (by omega) (by omega) fun _ => ⟨?_, by rw [if_pos hpos]⟩)
      rw [List.head?_eq_getElem?, List.getElem?_eq_getElem (by simpa using hpos), toList_getElem]
      rfl
    · rw [List.head?_eq_none_iff.mpr (List.length_eq_zero_iff.mp (by simpa using hzero))]
    · rw [if_neg hzero, h.headed_zero]

theorem ends_popBack (h : WF E s.self) : Ends (popBack E) s fun r s' => r = (s.self.toList E).getLast? ∧
    s' = ⟨s.self.withLen (s.self.elems.len - 1), s.world⟩ := by
  have hle := h.len_le
  have hlt := h.len_lt
  refine ends_iff.mpr ⟨?_, ?_⟩
  · refine exact_len_bind h (exact_self_bind (exact_ite (fun hpred => ?_) fun _ => exact_pure))
    have hpos : 0 < s.self.elems.len := by omega
    rw [wrappingPred_of_pos hpos] at hpred ⊢
    have hread : wp (readSlot E ((s.self.elems.len - 1 : Nat) : Int)) s (fun _ s' => s' = s) fun _ _ => False :=
      wp_readSlot h (by omega) (by omega) rfl
    refine exact_seq exact_readSlot hread ?_
    intro _ s' hs'
    rw [hs']
    exact exact_bind (exact_moveTailUnchecked (n := s.self.elems.len - 1) h (by omega) (by omega)) fun _ _ => exact_pure
  · simp only [popBack, wp_bind]
    refine wp_len h ?_
    simp only [wp_self, wp_ite, wp_bind, wp_pure]
    refine ⟨fun hpred => ?_, fun hpred => ?_⟩
    · have hpos : 0 < s.self.elems.len := by omega
      rw [wrappingPred_of_pos hpos]
      refine wp_readSlot h (by omega) (by omega) (wp_moveTailUnchecked (n := s.self.elems.len - 1) h (by omega) (by omega) ⟨?_, rfl⟩)
      rw [List.getLast?_eq_getElem?, toList_length, List.getElem?_eq_getElem (by simpa using hpos), toList_getElem]
    · have hzero : s.self.elems.len = 0 := by
        by_contra hne
        rw [wrappingPred_of_pos (by omega)] at hpred
        omega
      refine ⟨?_, ?_⟩
      · rw [List.getLast?_eq_none_iff.mpr (List.length_eq_zero_iff.mp (by simpa using hzero))]
      · rw [hzero]
        show s = ⟨⟨⟨s.self.elems.ptr, 0⟩, s.self.buf⟩, s.world⟩
        rw [← hzero]

theorem ends_pushFront (h : WF E s.self) (hroom : s.self.elems.len < s.self.capacity) :
    Ends (pushFront E v) s fun _ s' => s' = ⟨unshifted E s.self v, s.world⟩ := by
  have hle := h.len_le
  rw [pushFront, tryPushFront, ends_bind, ends_onPanic, ends_bind, ends_reserveIfFull h]
  refine ⟨fun hfull => absurd hfull hroom.ne, fun _ => ?_⟩
  refine ends_mono (ends_iff.mpr ⟨?_, ?_⟩) fun r s' hs' => ends_unwrapPush.mpr hs'
  · exact exact_bind (exact_moveHeadUnchecked h (by omega) (by omega)) fun _ _ =>
      exact_bind (exact_bind exact_self fun _ _ => exact_assert) fun _ _ => exact_bind exact_writeSlot fun _ _ => exact_pure
  · simp only [wp_bind]
    refine wp_moveHeadUnchecked_headed h (by omega) (by omega) fun hm => ?_
    have hlen := hm.len_eq
    have hcov := hm.wf.covers_slot (i := 0) le_rfl (by rw [hm.capacity_eq]; omega)
    refine wp_unwrapIndex (by dsimp only; omega) ?_
    simp only [writeSlot, writeAt, wp_bind, wp_self, if_pos hcov, wp_pure, wp_setSelf]
    rw [zero_mul, add_zero]
    exact ⟨trivial, rfl⟩

theorem WF.unshifted (h : WF E d) (hroom : d.elems.len < d.capacity) : WF E (unshifted E d v) ∧
    (unshifted E d v).spots E = (v, d.place E (-1)) :: d.spots E := by
  have hle := h.len_le
  have hx : HeadRange d (-1) := ⟨by omega, by omega⟩
  have hm := h.headed hx
  have hlen := hm.len_eq
  have hcap := hm.capacity_eq
  refine ⟨hm.wf.withMemory rfl rfl, spots_eq ?_ fun i hi => ?_⟩
  · rw [List.length_cons, spots_length]
    show (d.headed E (-1)).elems.len = _
    omega
  · rw [List.length_cons, spots_length] at hi
    -- the written slot is the first one of the deque with the new head
    have hslot : (SliceDeque.unshifted E d v).slot E i = if (i : Int) = 0 then v else (d.headed E (-1)).slot E i := by
      have := Mirror.slot_write (m := d.buf.ptr.mirror) (L := E.layout) (b := (d.headed E (-1)).elems.ptr) (i := i) (k := 0)
        (v := v) h.cap_mul_le (by omega) (by omega)
      rwa [zero_mul, add_zero] at this
    have hplace : (SliceDeque.unshifted E d v).place E i = d.place E (i + -1) := h.place_headed hx i
    rw [hslot, hplace]
    cases i with
    | zero => simp
    | succ i =>
      rw [if_neg (by omega), hm.slot_eq, List.getElem_cons_succ, spots_getElem]
      push_cast
      rw [show (-1 : Int) + (i + 1) = i by ring, show (i : Int) + 1 + -1 = i by ring]

theorem WF.pushed (h : WF E d) (hroom : d.elems.len < d.capacity) : WF E (pushed E d v) ∧
    (pushed E d v).spots E = d.spots E ++ [(v, d.place E d.elems.len)] := by
  refine ⟨(h.withLen (n := d.elems.len + 1) hroom).withMemory rfl rfl, spots_eq (by simp [SliceDeque.pushed]) fun i hi => ?_⟩
  rw [List.length_append, spots_length, List.length_singleton] at hi
  have hslot : (SliceDeque.pushed E d v).slot E i = if (i : Int) = d.elems.len then v else d.slot E i :=
    Mirror.slot_write h.cap_mul_le (by omega) (by omega)
  have hplace : (SliceDeque.pushed E d v).place E i = d.place E i := rfl
  rw [hslot, hplace]
  by_cases hl : i = d.elems.len
  · subst hl
    simp
  · rw [if_neg (by omega), List.getElem_append_left (by rw [spots_length]; omega), spots_getElem]

theorem WF.spots_headed (h : WF E d) (hpos : 0 < d.elems.len) : (d.headed E 1).spots E = (d.spots E).tail := by
  have hle := h.len_le
  have hx : HeadRange d 1 := ⟨by omega, by omega⟩
  have hlen := (h.headed hx).len_eq
  refine spots_eq ?_ fun i hi => ?_
  · rw [List.length_tail, spots_length]
    omega
  · rw [List.getElem_tail, spots_getElem, (h.headed hx).slot_eq, h.place_headed hx]
    push_cast
    rw [add_comm]

theorem spots_withLen {n : Nat} (hn : n ≤ d.elems.len) : (d.withLen n).spots E = (d.spots E).take n := by
  refine spots_eq ?_ fun i hi => ?_
  · rw [List.length_take, spots_length, Nat.min_eq_left hn]
    rfl
  · rw [List.getElem_take, spots_getElem]
    rfl

/-- One call, with room for it. -/
theorem ends_turn {c : Call T} (hc : c.atEnds = true) (h : WF E s.self) (hroom : c.resized s.self.elems.len ≤ s.self.capacity) :
    Ends (c.run E) s fun r s' => InPlace E s s' ∧ s'.self.elems.len = c.resized s.self.elems.len ∧
      Turns E s.self.buf.ptr.mirror.half c (s.self.spots E) (.ok r) (s'.self.spots E) := by
  have hle := h.len_le
  have hfst := spots_map_fst (E := E) s.self
  cases c with
  | pushFront v =>
    refine ends_bind.mpr (ends_mono (ends_pushFront h hroom) ?_)
    rintro _ _ rfl
    obtain ⟨hwf, hspots⟩ := h.unshifted (v := v) hroom
    refine ends_pure.mpr ⟨⟨hwf, rfl, rfl, rfl, rfl⟩, ?_, ?_⟩
    · rw [← spots_length (E := E), hspots, List.length_cons, spots_length]
      rfl
    · rw [hspots]
      refine .pushFront fun c hc => ?_
      obtain ⟨i, hi, hp⟩ := mem_spots hc
      rw [hp]
      exact h.disjoint (by omega) (by omega) (by simp only [Call.resized] at hroom; omega)
  | pushBack v =>
    refine ends_bind.mpr (ends_mono (ends_pushBack_pushed h hroom) ?_)
    rintro _ _ rfl
    obtain ⟨hwf, hspots⟩ := h.pushed (v := v) hroom
    refine ends_pure.mpr ⟨⟨hwf, rfl, rfl, rfl, rfl⟩, rfl, ?_⟩
    rw [hspots]
    refine .pushBack fun c hc => ?_
    obtain ⟨i, hi, hp⟩ := mem_spots hc
    rw [hp]
    exact h.disjoint (by omega) (by simp only [Call.resized] at hroom; omega) (by omega)
  | popFront =>
    refine ends_bind.mpr (ends_mono (ends_popFront h) ?_)
    rintro _ _ ⟨rfl, rfl⟩
    refine ends_pure.mpr ?_
    rw [← hfst, List.head?_map]
    by_cases hpos : 0 < s.self.elems.len
    · have hx : HeadRange s.self 1 := ⟨by omega, by omega⟩
      have hlen := (h.headed hx).len_eq
      rw [if_pos hpos]
      refine ⟨⟨(h.headed hx).wf, rfl, rfl, rfl, rfl⟩, ?_, ?_⟩
      · simp only [Call.resized]
        omega
      · rw [h.spots_headed hpos]
        exact .popFront
    · rw [if_neg hpos, h.headed_zero]
      have hnil : s.self.spots E = [] := List.length_eq_zero_iff.mp (by rw [spots_length]; omega)
      refine ⟨⟨h, rfl, rfl, rfl, rfl⟩, by simp only [Call.resized]; omega, ?_⟩
      have hturn : Turns E s.self.buf.ptr.mirror.half .popFront (s.self.spots E)
        (.ok (.value ((s.self.spots E).head?.map Prod.fst))) (s.self.spots E).tail := .popFront
      rwa [hnil, List.tail_nil, ← hnil] at hturn
  | popBack =>
    refine ends_bind.mpr (ends_mono (ends_popBack h) ?_)
    rintro _ _ ⟨rfl, rfl⟩
    refine ends_pure.mpr ⟨⟨h.withLen (by omega), rfl, rfl, rfl, rfl⟩, rfl, ?_⟩
    rw [← hfst, List.getLast?_map, spots_withLen (Nat.sub_le _ _), ← spots_length (E := E), ← List.dropLast_eq_take]
    exact .popBack
  | _ => cases hc

/-! ## Runs -/

/-- As long as the deque never has more elements than it has room for, a run at its ends is a run of a
ring: every call returns what the ring returns, values lie where they were put until they are popped,
and neither the buffer nor the world outside changes. -/
theorem ring_run {calls : List (Call T)} (h : WF E s.self) (hc : ∀ c ∈ calls, c.atEnds = true)
    (hfit : Call.FitIn s.self.capacity calls s.self.elems.len) :
    Path (Turns E s.self.buf.ptr.mirror.half) calls (s.self.spots E) (results (Call.run E) calls s)
        ((final (Call.run E) calls s).self.spots E) ∧
      InPlace E s (final (Call.run E) calls s) := by
  induction calls generalizing s with
  | nil => exact ⟨.nil _, h, rfl, rfl, rfl, rfl⟩
  | cons c calls ih =>
    obtain ⟨r, s₁, he, hin, hlen, hturn⟩ := ends_turn (hc c List.mem_cons_self) h hfit.1
    have hrest : Call.FitIn s₁.self.capacity calls s₁.self.elems.len := by
      rw [hin.capacity_eq, hlen]
      exact hfit.2
    obtain ⟨hpath, hin'⟩ := ih hin.wf (fun c hmem => hc c (List.mem_cons_of_mem _ hmem)) hrest
    rw [hin.half_eq] at hpath
    simp only [results, final, he]
    exact ⟨.cons hturn hpath, hin'.wf, hin'.world_eq.trans hin.world_eq, hin'.base_eq.trans hin.base_eq,
      hin'.half_eq.trans hin.half_eq, hin'.capacity_eq.trans hin.capacity_eq⟩

/-- The head crosses the end of the mapping, there and back. -/
def carousel : List (Call Nat) := [.popFront, .pushBack 40, .pushFront 5, .pushFront 6, .popBack]

theorem carousel_ring :
    let E := cells true 3 (by decide)
    Path (Turns E 4096) carousel (sample.spots E) (results (Call.run E) carousel ⟨sample, .start⟩)
        ((final (Call.run E) carousel ⟨sample, .start⟩).self.spots E) ∧
      InPlace E ⟨sample, .start⟩ (final (Call.run E) carousel ⟨sample, .start⟩) :=
  ring_run (s := ⟨sample, .start⟩) wf_sample (by decide) (by decide)

end SliceDeque

end Sdeq
