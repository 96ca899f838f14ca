import SliceDeque.Accounts
import SliceDeque.TwinPrograms

/-!
# Taking a deque apart

`from_raw_parts` gets the parts of a deque back. The length of the buffer is
rounded down to an even number on the way, so that the new deque is a twin of
the old one: no program can tell them apart.
-/

set_option autoImplicit false

namespace Sdeq
open Exec

namespace SliceDeque
variable {T β X : Type} {E : Env T β} {d : SliceDeque β} {t : Frame X T}

/-- The deque with a buffer whose length is twice the capacity. -/
def recapped (d : SliceDeque β) : SliceDeque β := ⟨d.elems, ⟨d.buf.ptr, 2 * d.buf.cap⟩⟩

/-- Rounding the length of the buffer down changes neither the capacity nor what is freed. -/
theorem sameLen_recap {b : Buffer β} (h : Buffer.Ok E b) : SameLen E b.len (2 * b.cap) := by
  by_cases heven : 2 * b.cap = b.len
  · rw [heven]
    exact ⟨rfl, rfl, fun _ _ => rfl⟩
  have hs : E.layout.size ≠ 0 := by
    intro hs
    have hcap := h.cap_zst hs
    have hlen := h.zst hs
    rw [Buffer.emptyLen, if_pos hs] at hlen
    omega
  have hl : b.len ≠ 0 := by
    intro hl
    rw [Buffer.cap, hl] at heven
    exact heven rfl
  have ha := h.alloc hs hl
  have hpos := ha.cap_pos
  have hsize : ∀ {σ : Type}, (Buffer.sizeInBytes E (2 * b.cap) : Exec Panic σ Nat) = Buffer.sizeInBytes E b.len := by
    intro σ
    have hle : 2 * b.cap ≤ b.len := Nat.mul_div_le b.len 2
    exact Buffer.sizeInBytes_congr h.fits (h.fits.mono hle) (ha.size_eq.symm.trans ha.byteSize_len.symm)
  refine ⟨Nat.mul_div_cancel_left _ Nat.two_pos, hsize, fun X r => ?_⟩
  rw [Buffer.drop, Buffer.drop, if_neg hs, if_neg hs, if_neg hl, if_neg (show ¬ 2 * b.cap = 0 by omega), hsize]

theorem twins_recapped (h : WF E d) : Twins E d d.recapped := ⟨rfl, rfl, sameLen_recap h.buf⟩

/-- `from_raw_parts` runs without a panic exactly if its debug assertions hold, and makes the twin. -/
theorem ends_fromRawParts {Q : SliceDeque β → Frame X T → Prop} (h : WF E d) :
    Ends (fromRawParts E d.buf.ptr d.capacity d.elems) t Q ↔ Rebuildable E d ∧ Q d.recapped t := by
  obtain ⟨hok, -⟩ := h.buf.recap
  have hlt : d.capacity < isizeBound := h.cap_lt
  have hfit : d.capacity * 2 < usizeBound := by
    unfold usizeBound isizeBound at *
    omega
  have hbuf : Ends (Buffer.fromRawParts E d.buf.ptr (d.capacity * 2)) t fun b t' => b = d.recapped.buf ∧ t' = t := by
    rw [Nat.mul_comm]
    exact ends_iff.mpr ⟨Buffer.exact_fromRawParts, Buffer.wp_fromRawParts hok (Nat.mul_mod_right _ _) ⟨rfl, rfl⟩⟩
  rw [fromRawParts, ends_bind, ends_debugAssert_iff, ends_bind, ends_debugAssert_iff, ends_bind, ends_usize, ← and_assoc]
  have hparts : Ends (Buffer.fromRawParts E d.buf.ptr (d.capacity * 2) >>= fun buf => pure ⟨d.elems, buf⟩) t Q ↔ Q d.recapped t := by
    apply ends_bind_iff hbuf
    intro b t' hb
    rw [hb.1, hb.2, ends_pure]
    exact Iff.rfl
  rw [hparts]
  exact and_congr ⟨fun hr hd => ⟨hr.1 hd, hr.2 hd⟩, fun hr => ⟨fun hd => (hr hd).1, fun hd => (hr hd).2⟩⟩ (and_iff_right hfit)

/-- The new deque has the same begin, contents, capacity and mapping, and every program runs on it as on the old one. -/
structure Rebuilt (E : Env T β) (d : SliceDeque β) (t : Frame X T) (d' : SliceDeque β) (t' : Frame X T) : Prop where
  frame_eq : t' = t
  wf : WF E d'
  begin_eq : d'.elems.ptr = d.elems.ptr
  toList_eq : d'.toList E = d.toList E
  capacity_eq : d'.capacity = d.capacity
  regions_eq : d'.regions E = d.regions E
  later : ∀ (p : Program T β) (i : Nat) (w : World T), p.vars[i]? = some (.deque d) → ∀ ops : List (Op T),
    results (Program.step E) ops ⟨p, w⟩ = results (Program.step E) ops ⟨p.put i (.deque d'), w⟩ ∧
      Framed (Program.Twins E) (final (Program.step E) ops ⟨p, w⟩) (final (Program.step E) ops ⟨p.put i (.deque d'), w⟩)

theorem rebuilt_recapped (h : WF E d) : Rebuilt E d t d.recapped t := by
  obtain ⟨hok, hregions⟩ := h.buf.recap
  refine ⟨rfl, h.recap, rfl, rfl, (twins_recapped h).capacity_eq, hregions, fun p i w hi => ?_⟩
  exact fun ops => Lockstep.runs Program.blind_step ops _ _ ⟨Program.twins_put (twins_recapped h) hi, rfl⟩

/-- The parts of a deque are accepted. -/
theorem fromRawParts_iff (h : WF E d) :
    Ends (fromRawParts E d.buf.ptr d.capacity d.elems) t (Rebuilt E d t) ↔ Rebuildable E d := by
  rw [ends_fromRawParts h]
  exact and_iff_left (rebuilt_recapped h)

/-- The head of the sample lies in the last bytes of the region. -/
theorem sample_fromRawParts : Ends (fromRawParts (cells true 3 (by decide)) sample.buf.ptr sample.capacity sample.elems)
    (⟨(), .start⟩ : Frame Unit Nat) (Rebuilt (cells true 3 (by decide)) sample ⟨(), .start⟩) :=
  (fromRawParts_iff wf_sample).mpr (by decide)

/-- The parts of a full deque fail an assertion of a debug build. -/
theorem fromRawParts_asserts :
    let E := cells true 4096 (by decide)
    let full : Method Nat Unit (SliceDeque Nat) := do
      let d ← withCapacity E 1
      let r ← onLocal d (pushBack E 7)
      pure r.2
    let o := full ⟨(), .start⟩
    let o' := (do
      let d ← full
      fromRawParts E d.buf.ptr d.capacity d.elems) ⟨(), .start⟩
    o.result.map (toList E) = .ok [7] ∧ o'.result.map (toList E) = .error .debugAssert := by
  decide +kernel

end SliceDeque

end Sdeq
