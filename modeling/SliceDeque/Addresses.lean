import SliceDeque.ProgramRuns

/-!
# Where elements are

The elements of a deque begin in the first copy of its memory and do not leave
the second one. A deque that is borrowed by an iterator is no exception, nor is
one whose iterator was leaked.
-/

set_option autoImplicit false

namespace Sdeq
open Exec

/-- The deque that a variable holds, or that its iterator borrows. -/
def Var.deque? {T β : Type} : Var T β → Option (SliceDeque β)
  | .deque d => some d
  | .drain dr => some dr.deq
  | .splice sp => some sp.drain.deq
  | .drainFilter df _ => some df.deq
  | _ => none

namespace SliceDeque
variable {T β : Type} {E : Env T β} {d : SliceDeque β}

/-- The physical byte that shows byte `j` of element `i` of a slice. -/
def physByte (E : Env T β) (d : SliceDeque β) (s : Slice) (i j : Nat) : Int := d.buf.ptr.mirror.phys (s.ptr + i * E.layout.size + j)

structure Placed (E : Env T β) (d : SliceDeque β) : Prop where
  begin_ge : d.buf.ptr.mirror.base ≤ d.elems.ptr
  begin_lt : d.elems.ptr < d.buf.ptr.mirror.base + d.buf.ptr.mirror.half
  aligned : (E.layout.align : Int) ∣ d.elems.ptr
  len_le : d.elems.len ≤ d.capacity
  cap_le : d.capacity * E.layout.size ≤ d.buf.ptr.mirror.half
  window_le : d.elems.ptr + d.capacity * E.layout.size ≤ d.buf.ptr.mirror.base + 2 * d.buf.ptr.mirror.half
  live_injective : ∀ i k j l : Nat, i < d.elems.len → k < d.elems.len → j < E.layout.size → l < E.layout.size →
    physByte E d d.elems i j = physByte E d d.elems k l → i = k ∧ j = l
  tail_apart : ∀ i k j l : Nat, i < d.elems.len → k < (tailHeadSlice E d).len → j < E.layout.size → l < E.layout.size →
    physByte E d d.elems i j ≠ physByte E d (tailHeadSlice E d) k l

theorem physByte_tail (k l : Nat) : physByte E d (tailHeadSlice E d) k l = physByte E d d.elems (d.elems.len + k) l := by
  unfold physByte tailHeadSlice
  congr 1
  push_cast
  ring

/-- Slots below the capacity share no byte. -/
theorem WF.physByte_injective (h : WF E d) {i k j l : Nat} (hi : i < d.capacity) (hk : k < d.capacity) (hj : j < E.layout.size)
    (hl : l < E.layout.size) (he : physByte E d d.elems i j = physByte E d d.elems k l) : i = k ∧ j = l := by
  have hphys := Mirror.phys_injective (L := E.layout) (i := i) (k := k) h.cap_mul_le (by omega) (by omega) hj hl he
  exact ⟨Nat.cast_injective hphys.1, hphys.2⟩

theorem WF.placed (h : WF E d) (hs : E.layout.size ≠ 0) (hl : d.buf.len ≠ 0) (hd : E.layout.align ∣ E.granularity) :
    Placed E d := by
  have ha := h.buf.alloc hs hl
  have hlt := h.begin_lt
  rw [ha.regionSize_eq] at hlt
  have hcap := h.cap_mul_le
  have hlen := h.len_le
  refine ⟨h.begin_ge, hlt, h.aligned hd, hlen, hcap, ?_, ?_, ?_⟩
  · have : ((d.capacity * E.layout.size : Nat) : Int) ≤ d.buf.ptr.mirror.half := by exact_mod_cast hcap
    push_cast at this
    omega
  · intro i k j l hi hk hj hl he
    exact h.physByte_injective (by omega) (by omega) hj hl he
  · intro i k j l hi hk hj hl he
    have hk' : k < d.capacity - d.elems.len := hk
    rw [physByte_tail] at he
    have hsame := (h.physByte_injective (by omega) (by omega) hj hl he).1
    omega

end SliceDeque

namespace Program
open SliceDeque
variable {T β : Type} {E : Env T β}

theorem ok_deque? {v : Var T β} {d : SliceDeque β} (h : (Var.owner E).ok v) (hd : v.deque? = some d) : WF E d := by
  cases v with
  | deque d' =>
    cases hd
    exact h
  | drain dr =>
    cases hd
    exact Drain.Ok.wf h
  | splice sp =>
    cases hd
    exact Drain.Ok.wf h
  | drainFilter df pred =>
    cases hd
    exact DrainFilter.Ok.wf h
  | _ => cases hd

/-- Every deque of a program keeps its place, and no debug assertion fails. -/
theorem reached_placed {ops : List (Op T)} (hs : E.layout.size ≠ 0) (hd : E.layout.align ∣ E.granularity) (hx : ExactRun E ops) :
    (∀ v ∈ (reached E ops).self.vars, ∀ d, v.deque? = some d → d.buf.len ≠ 0 → Placed E d) ∧
      .error .debugAssert ∉ results (step E) ops boot := by
  constructor
  · intro v hv d hvd hl
    exact (ok_deque? (ok_reached hx v hv) hvd).placed hs hl hd
  · intro he
    exact (clean_results hx he).1 rfl

/-- Elements of three bytes on pages of 4096; the second one is pushed across the end of the first copy. -/
def tour : List (Op Nat) :=
  [.withCapacity 1, .call 0 (.pushBack 1), .call 0 (.pushFront 2), .turn 0 (.drain .unbounded (.excluded 1)), .turn 0 .leak,
    .call 0 (.insert 0 3), .call 0 .shrinkToFit]

theorem tour_placed : ExactRun (cells true 3 (by decide)) tour ∧
    (∀ v ∈ (reached (cells true 3 (by decide)) tour).self.vars, ∀ d, v.deque? = some d → d.buf.len ≠ 0 →
      Placed (cells true 3 (by decide)) d) ∧ .error .debugAssert ∉ results (step (cells true 3 (by decide))) tour boot :=
  ⟨by decide +kernel, reached_placed (by decide) (one_dvd _) (by decide +kernel)⟩

end Program

end Sdeq
