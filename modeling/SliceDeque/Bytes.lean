import SliceDeque.Ops

/-!
# Writing through chunks

`BufMut` hands out the slots behind the tail as one chunk; what was written to
its front becomes part of the deque by `advance_mut`. In the source elements
are bytes, which nothing here depends on.
-/

set_option autoImplicit false

namespace Sdeq
open Exec

namespace SliceDeque
variable {T β X : Type} (E : Env T β)

def remainingMut : DeqM T β Nat := do
  let l ← len E
  usizeSub E (usizeBound - 1) l

/-- A chunk is never empty: a full deque grows first. -/
def bytesMut : DeqM T β Slice := do
  let d ← self
  let l ← len E
  when (d.capacity = l) (reserve E 64)
  let d ← self
  let l ← len E
  if l ≤ d.capacity then pure (tailHeadSlice E ⟨⟨d.elems.ptr, l⟩, d.buf⟩) else throw .index

def advanceMut (cnt : Nat) : DeqM T β Unit := do
  let l ← len E
  let d ← self
  let remaining ← usizeSub E d.capacity l
  when (remaining < cnt) (reserve E cnt)
  moveTailUnchecked E (asIsize cnt)

/-- Values are written to a chunk one after the other, from its place `i` on. -/
def store (chunk : Slice) : (i : Nat) → List T → DeqM T β Unit
  | _, [] => pure ()
  | i, v :: vs => do
    let d ← self
    let r ← writeAt E d.buf.ptr (chunk.ptr + i * E.layout.size) v
    setSelf { d with buf := { d.buf with ptr := r } }
    store chunk (i + 1) vs

end SliceDeque

/-- A client of `BufMut`. It decides what to write when it sees how long the chunk is. -/
inductive Writer (T : Type) where
  | done
  | remaining (next : Nat → Writer T)
  | chunk (bytes : (n : Nat) → {vs : List T // vs.length ≤ n}) (next : Nat → Writer T)

namespace Writer
variable {T β X : Type} (E : Env T β)

def run : Writer T → DeqM T β Unit
  | done => pure ()
  | remaining next => do
    let n ← SliceDeque.remainingMut E
    (next n).run
  | chunk bytes next => do
    let c ← SliceDeque.bytesMut E
    SliceDeque.store E c 0 (bytes c.len).val
    SliceDeque.advanceMut E (bytes c.len).val.length
    (next c.len).run

/-- What a client writes behind `n` elements, until it is done (`true`) or denied a chunk. -/
inductive Wrote : Writer T → Nat → List T → Bool → Prop where
  | done {n : Nat} : Wrote .done n [] true
  | denied {n : Nat} {bytes : (n : Nat) → {vs : List T // vs.length ≤ n}} {next : Nat → Writer T} :
      Wrote (.chunk bytes next) n [] false
  | remaining {n : Nat} {next : Nat → Writer T} {vs : List T} {finished : Bool} :
      Wrote (next (usizeBound - 1 - n)) n vs finished → Wrote (.remaining next) n vs finished
  | chunk {n c : Nat} {bytes : (n : Nat) → {vs : List T // vs.length ≤ n}} {next : Nat → Writer T} {vs : List T}
      {finished : Bool} : 0 < c → Wrote (next c) (n + (bytes c).val.length) vs finished →
      Wrote (.chunk bytes next) n ((bytes c).val ++ vs) finished

/-- The client writes at most `n` values, and asks for a chunk only if it has one to write. -/
def Within : Writer T → Nat → Prop
  | done, _ => True
  | remaining next, n => ∀ k, (next k).Within n
  | chunk bytes next, n => 0 < n ∧ ∀ c, (bytes c).val.length ≤ n ∧ (next c).Within (n - (bytes c).val.length)

end Writer

namespace SliceDeque
variable {T β X : Type} (E : Env T β)

/-- `from_buf`: `put` is the client that `BufMut::put` is for a buffer of so many bytes. -/
def fromBuf (remaining : Nat) (put : Writer T) : Method T X (SliceDeque β) := do
  let new ← withCapacity E remaining
  let r ← onLocal new (onPanic (put.run E) (do
    let d ← self
    drop E d))
  pure r.2

variable {E} {s s₁ : Frame (SliceDeque β) T} {P : Panic → Frame (SliceDeque β) T → Prop} {vs : List T} {v : T}

/-- The values in `vs` were written behind the tail, which is where it was. -/
structure Spare (E : Env T β) (s s' : Frame (SliceDeque β) T) (vs : List T) : Prop where
  wf : WF E s'.self
  rewritten : Rewritten s.self s'.self
  world_eq : s'.world = s.world
  toList_eq : (s'.self.withLen (s.self.elems.len + vs.length)).toList E = s.self.toList E ++ vs

theorem Spare.refl (h : WF E s.self) : Spare E s s [] := ⟨h, .refl _, rfl, (List.append_nil _).symm⟩

theorem ends_store : ∀ (us vs : List T) (s₁ : Frame (SliceDeque β) T), Spare E s s₁ vs →
    s.self.elems.len + vs.length + us.length ≤ s.self.capacity →
    Ends (store E (tailHeadSlice E s.self) vs.length us) s₁ fun _ s' => Spare E s s' (vs ++ us) := by
  intro us
  induction us with
  | nil =>
    intro vs s₁ hs _
    rw [List.append_nil]
    exact ends_pure.mpr hs
  | cons u us ih =>
    intro vs s₁ hs hroom
    have hcap := hs.rewritten.capacity_eq
    rw [List.length_cons] at hroom
    -- the slot behind the values that were written so far
    have hwrite : Ends (writeSlot E ((s.self.elems.len + vs.length : Nat) : Int) u) s₁ fun _ s' => Spare E s s' (vs ++ [u]) := by
      refine ends_iff.mpr ⟨exact_writeSlot, wp_writeSlot hs.wf (by omega) (by omega) fun d' hwf hr hslots => ?_⟩
      refine ⟨hwf, hs.rewritten.trans hr, hs.world_eq, ?_⟩
      rw [List.length_append, List.length_singleton, ← Nat.add_assoc, ← List.append_assoc, ← hs.toList_eq]
      refine toList_push_back (d := s₁.self.withLen (s.self.elems.len + vs.length)) ?_ ?_ hslots
      · exact (show s.self.elems.len + vs.length < s₁.self.capacity by omega)
      · exact ⟨by simp only [withLen, hr.elems_eq], hr.len_eq, hr.id_eq, hr.size_eq⟩
    have hptr : (tailHeadSlice E s.self).ptr + vs.length * E.layout.size =
        s₁.self.elems.ptr + ((s.self.elems.len + vs.length : Nat) : Int) * E.layout.size := by
      rw [hs.rewritten.elems_eq, tailHeadSlice]
      push_cast
      ring
    have hnext := ends_mono hwrite fun _ s₂ hs₂ => ih (vs ++ [u]) s₂ hs₂ (by simp only [List.length_append, List.length_singleton]; omega)
    rw [List.length_append, List.length_singleton, List.append_assoc, List.singleton_append] at hnext
    simp only [writeSlot, ends_bind, ends_self] at hnext
    simpa only [store, ends_bind, ends_self, hptr] using hnext

theorem ends_advanceMut (h : Spare E s s₁ vs) (hroom : s.self.elems.len + vs.length ≤ s.self.capacity) :
    Ends (advanceMut E vs.length) s₁ fun _ s' => Effect E s s' (s.self.toList E ++ vs) [] ∧
      s'.self.capacity = s.self.capacity ∧ s'.world = s.world := by
  have hle := h.wf.len_le
  have hcap := h.rewritten.capacity_eq
  have helems := h.rewritten.elems_eq
  have hlt := h.wf.cap_lt
  rw [advanceMut, ends_bind, ends_len h.wf, ends_bind, ends_self, ends_bind, ends_usizeSub]
  refine ⟨hle, ?_⟩
  rw [ends_bind, ends_when]
  refine ⟨fun hover => by rw [helems] at hover; omega, fun _ => ?_⟩
  rw [asIsize_of_lt (by omega)]
  refine ends_iff.mpr ⟨exact_moveTailUnchecked (n := s.self.elems.len + vs.length) h.wf (by rw [helems]; push_cast; rfl) (by omega),
    wp_moveTailUnchecked (n := s.self.elems.len + vs.length) h.wf (by rw [helems]; push_cast; rfl) (by omega) ?_⟩
  refine ⟨?_, hcap, h.world_eq⟩
  rw [h.world_eq]
  exact .of_self (h.wf.withLen (by omega)) h.toList_eq h.rewritten.regions_eq

theorem wp_bytesMut (h : WF E s.self) :
    wp (bytesMut E) s (fun c s' => Effect E s s' (s.self.toList E) [] ∧ c = tailHeadSlice E s'.self ∧ 0 < c.len)
      (fun p s' => Refusal E p ∧ Untouched s s' []) := by
  have hle := h.len_le
  -- what follows the reservation
  have hchunk : ∀ s₁ : Frame (SliceDeque β) T, Effect E s s₁ (s.self.toList E) [] → s₁.self.elems.len < s₁.self.capacity →
      wp (do
        let d ← self
        let l ← len E
        if l ≤ d.capacity then pure (tailHeadSlice E ⟨⟨d.elems.ptr, l⟩, d.buf⟩) else throw .index) s₁
        (fun c s' => Effect E s s' (s.self.toList E) [] ∧ c = tailHeadSlice E s'.self ∧ 0 < c.len)
        (fun p s' => Refusal E p ∧ Untouched s s' []) := by
    intro s₁ heff hroom
    simp only [wp_bind, wp_self]
    refine wp_len heff.wf ?_
    rw [if_pos hroom.le]
    exact wp_pure.mpr ⟨heff, rfl, Nat.sub_pos_of_lt hroom⟩
  simp only [wp_bind, wp_self] at hchunk
  simp only [bytesMut, wp_bind, wp_self, wp_when]
  refine wp_len h ⟨fun hfull => ?_, fun hroom => hchunk s (.refl h) (by omega)⟩
  refine wp_mono (wp_reserve h) (fun _ s₁ hg => ?_) fun p s' => ReservePanic.untouched
  have hcap := (le_growTarget _ _).trans hg.cap_ge
  have hlen := hg.len_eq
  exact hchunk s₁ (hg.effect h) (by omega)

theorem ends_bytesMut_room (h : WF E s.self) (hroom : s.self.elems.len < s.self.capacity) :
    Ends (bytesMut E) s fun c s' => c = tailHeadSlice E s.self ∧ s' = s := by
  rw [bytesMut, ends_bind, ends_self, ends_bind, ends_len h, ends_bind, ends_when]
  refine ⟨fun hfull => absurd hfull hroom.ne', fun _ => ?_⟩
  rw [ends_bind, ends_self, ends_bind, ends_len h, if_pos hroom.le]
  exact ends_pure.mpr ⟨rfl, rfl⟩

end SliceDeque

namespace Writer
open SliceDeque
variable {T β X : Type} {E : Env T β} {s : Frame (SliceDeque β) T}

/-- One round of a client: the values it writes are pushed. -/
theorem ends_round (vs : List T) (h : WF E s.self) (hroom : s.self.elems.len + vs.length ≤ s.self.capacity) :
    Ends (do
      store E (tailHeadSlice E s.self) 0 vs
      advanceMut E vs.length) s fun _ s' => Effect E s s' (s.self.toList E ++ vs) [] ∧
        s'.self.capacity = s.self.capacity ∧ s'.world = s.world := by
  rw [ends_bind]
  have hstore := ends_store vs [] s (.refl h) (by simpa using hroom)
  rw [List.nil_append, List.length_nil] at hstore
  exact ends_mono hstore fun _ s₁ hs => ends_advanceMut hs hroom

/-- Whatever a client of `BufMut` writes, chunk by chunk, is behind the elements afterwards, and nothing
else changed. No chunk is empty. A client that is denied a chunk has lost nothing that it wrote. -/
theorem chunks_append (w : Writer T) (h : WF E s.self) :
    wp (w.run E) s
      (fun _ s' => ∃ vs, w.Wrote s.self.elems.len vs true ∧ Effect E s s' (s.self.toList E ++ vs) [])
      (fun p s' => Refusal E p ∧ ∃ vs, w.Wrote s.self.elems.len vs false ∧ Effect E s s' (s.self.toList E ++ vs) []) := by
  induction w generalizing s with
  | done => exact wp_pure.mpr ⟨[], .done, by simpa using Change.refl h⟩
  | remaining next ih =>
    simp only [run, remainingMut, wp_bind]
    have hlt := h.len_lt
    have hbound : isizeBound < usizeBound := by decide
    refine wp_len h ?_
    rw [wp_usizeSub]
    refine ⟨fun _ => ?_, fun hover => by omega⟩
    refine wp_mono (ih _ h) ?_ ?_
    · rintro _ s' ⟨vs, hw, heff⟩
      exact ⟨vs, .remaining hw, heff⟩
    · rintro p s' ⟨hp, vs, hw, heff⟩
      exact ⟨hp, vs, .remaining hw, heff⟩
  | chunk bytes next ih =>
    rw [run, wp_bind]
    refine wp_mono (wp_bytesMut h) ?_ fun p s' hp => ⟨hp.1, [], .denied, ?_⟩
    · rintro c s₁ ⟨heff, hc, hpos⟩
      have hlen := heff.len_eq
      rw [toList_length] at hlen
      have hfit := (bytes c.len).property
      have hle := heff.wf.len_le
      have hround := (ends_iff.mp (ends_round (bytes c.len).val heff.wf (by
        rw [hc] at hfit ⊢
        simp only [tailHeadSlice] at hfit ⊢
        omega))).2
      rw [← hc] at hround
      simp only [wp_bind] at hround ⊢
      refine wp_mono hround (fun _ s₂ hs₂ => wp_mono hs₂ (fun _ s₃ hs₃ => ?_) fun _ _ => False.elim) fun _ _ => False.elim
      have heff₃ := hs₃.1
      rw [heff.toList_eq] at heff₃
      have hlen₃ := heff₃.len_eq
      rw [List.length_append, toList_length] at hlen₃
      have hnext := ih c.len heff₃.wf
      rw [hlen₃, heff₃.toList_eq] at hnext
      refine wp_mono hnext ?_ ?_
      · rintro _ s' ⟨vs, hw, heff'⟩
        rw [List.append_assoc] at heff'
        exact ⟨_, .chunk hpos hw, (heff.trans heff₃).trans heff'⟩
      · rintro p s' ⟨hp, vs, hw, heff'⟩
        rw [List.append_assoc] at heff'
        exact ⟨hp, _, .chunk hpos hw, (heff.trans heff₃).trans heff'⟩
    · rw [List.append_nil]
      exact .of_untouched h hp.2

/-- A client that looks at the length of its chunk and asks how much may be written. -/
def hesitant : Writer Nat :=
  .chunk (fun n => ⟨[40, 50].take n, List.length_take_le _ _⟩) fun n => .remaining fun k =>
    .chunk (fun m => ⟨[n, k % 7].take m, List.length_take_le _ _⟩) fun _ => .done

theorem hesitant_appends :
    let E := cells true 3 (by decide)
    wp (hesitant.run E) ⟨sample, .start⟩
      (fun _ s' => ∃ vs, hesitant.Wrote 3 vs true ∧ Effect E ⟨sample, .start⟩ s' (sample.toList E ++ vs) [])
      (fun p s' => Refusal E p ∧ ∃ vs, hesitant.Wrote 3 vs false ∧
        Effect E ⟨sample, .start⟩ s' (sample.toList E ++ vs) []) :=
  chunks_append (s := ⟨sample, .start⟩) hesitant wf_sample

/-- A client for which there is room runs without any request for memory. -/
theorem ends_run_within {n : Nat} (w : Writer T) (hw : w.Within n) (h : WF E s.self)
    (hroom : s.self.elems.len + n ≤ s.self.capacity) :
    Ends (w.run E) s fun _ s' => ∃ vs, w.Wrote s.self.elems.len vs true ∧ Effect E s s' (s.self.toList E ++ vs) [] ∧
      s'.self.capacity = s.self.capacity ∧ s'.world = s.world := by
  induction w generalizing s n with
  | done => exact ends_pure.mpr ⟨[], .done, by simpa using Change.refl h, rfl, rfl⟩
  | remaining next ih =>
    have hlt := h.len_lt
    have hbound : isizeBound < usizeBound := by decide
    rw [run, ends_bind, remainingMut, ends_bind, ends_len h, ends_usizeSub]
    refine ⟨by omega, ends_mono (ih _ (hw _) h hroom) ?_⟩
    rintro _ s' ⟨vs, hvs, hs'⟩
    exact ⟨vs, .remaining hvs, hs'⟩
  | chunk bytes next ih =>
    obtain ⟨hpos, hchunk⟩ := hw
    rw [run, ends_bind]
    refine ends_mono (ends_bytesMut_room h (by omega)) ?_
    rintro c _ ⟨hc, rfl⟩
    obtain ⟨hfit, hnext⟩ := hchunk c.len
    have hround := ends_round (bytes c.len).val h (by omega)
    rw [← hc] at hround
    simp only [ends_bind] at hround ⊢
    refine ends_mono hround fun _ s₂ hs₂ => ends_mono hs₂ ?_
    rintro _ s₃ ⟨heff, hcap, hworld⟩
    have hlen := heff.len_eq
    rw [List.length_append, toList_length] at hlen
    refine ends_mono (ih c.len hnext heff.wf (by omega)) ?_
    rintro _ s' ⟨vs, hvs, heff', hcap', hworld'⟩
    rw [hlen] at hvs
    rw [heff.toList_eq, List.append_assoc] at heff'
    have hlong : 0 < c.len := by
      simp only [hc, tailHeadSlice]
      omega
    exact ⟨_, .chunk hlong hvs, heff.trans heff', hcap'.trans hcap, hworld'.trans hworld⟩

end Writer

namespace SliceDeque
variable {T β X : Type} {E : Env T β} {t t₁ : Frame X T} {d₀ : SliceDeque β} {n : Nat} {put : Writer T}

/-- `from_buf` asks for memory once, before anything is written. If it gets it nothing can fail, and
the deque holds what was put, in the memory of `with_capacity`. -/
theorem fromBuf_collects (hput : put.Within n) (h : Ends (withCapacity E n) t fun d t' => d = d₀ ∧ t' = t₁) :
    Ends (fromBuf E n put) t fun d t' =>
      t' = t₁ ∧ WF E d ∧ d.capacity = d₀.capacity ∧ put.Wrote 0 (d.toList E) true := by
  rw [fromBuf, ends_bind]
  refine ends_mono (h.unique (h.wp wp_withCapacity)) ?_
  rintro d t' ⟨⟨hd, ht⟩, hc, hcap, helems, -⟩
  rw [hd] at hc hcap helems
  have hlen : d₀.elems.len = 0 := by rw [helems]
  have hnil : d₀.toList E = [] := List.eq_nil_of_length_eq_zero (by rw [toList_length, hlen])
  rw [hd, ends_bind, ends_onLocal, ends_onPanic]
  refine ends_mono (put.ends_run_within (s := ⟨d₀, t'.world⟩) hput hc.wf (by dsimp only; omega)) ?_
  rintro _ s' ⟨vs, hvs, heff, hcap', hworld⟩
  rw [hlen] at hvs
  rw [hnil, List.nil_append] at heff
  refine ends_pure.mpr ⟨?_, heff.wf, hcap', ?_⟩
  · rw [hworld, ← ht]
  · rw [heff.toList_eq]
    exact hvs

theorem hesitant_collected :
    let E := cells true 3 (by decide)
    Ends (fromBuf E 5 .hesitant) (⟨(), .start⟩ : Frame Unit Nat) fun d t' =>
      t' = ⟨(), ⟨1, [(0, 8192)], [], [], 0, [], 0⟩⟩ ∧ WF E d ∧ d.capacity = 1365 ∧ Writer.hesitant.Wrote 0 (d.toList E) true := by
  have hput : Writer.hesitant.Within 5 := by
    refine ⟨by decide, fun c => ⟨(List.length_take_le' _ _).trans (by decide), fun _ => ?_⟩⟩
    have hle : ([40, 50].take c).length ≤ 2 := List.length_take_le' _ _
    dsimp only
    exact ⟨by omega, fun m => ⟨by simp only [List.length_take, List.length_cons, List.length_nil] at hle ⊢; omega, trivial⟩⟩
  have hcap : Ends (withCapacity (cells true 3 (by decide)) 5) (⟨(), .start⟩ : Frame Unit Nat) fun d t' =>
      d = ⟨⟨0x100000000, 0⟩, ⟨⟨0, 8192, ⟨0x100000000, 4096, fun _ => 0⟩⟩, 2730⟩⟩ ∧
        t' = ⟨(), ⟨1, [(0, 8192)], [], [], 0, [], 0⟩⟩ := ⟨_, _, rfl, rfl, rfl⟩
  exact fromBuf_collects hput hcap

end SliceDeque

end Sdeq
