import SliceDeque.Moves

/-!
# Moving the head is a group action

In its range `move_head` is a turn on the circle of the first mapping, and
turns add up, whether or not the size of an element divides the mapping.
-/

set_option autoImplicit false

namespace Sdeq.SliceDeque
open Exec

variable {T β : Type} {E : Env T β} {s : Frame (SliceDeque β) T} {d : SliceDeque β} {x y z : Int}

/-- The range assertion of `move_head`. -/
def HeadRange (d : SliceDeque β) (x : Int) : Prop := -(d.capacity - d.elems.len : Int) ≤ x ∧ x ≤ d.elems.len

/-- The range assertion of `move_tail`. -/
def TailRange (d : SliceDeque β) (x : Int) : Prop := -(d.elems.len : Int) ≤ x ∧ x ≤ (d.capacity - d.elems.len : Int)

instance (d : SliceDeque β) (x : Int) : Decidable (HeadRange d x) := inferInstanceAs (Decidable (_ ∧ _))

theorem exact_moveHead (h : WF E s.self) : Exact (moveHead E x) s := by
  have hle := h.len_le
  have hcap := h.cap_lt
  apply exact_self_bind
  apply exact_len_bind h
  apply exact_usizeSub_bind hle
  apply exact_assert_bind
  intro hx
  rw [asIsize_of_lt h.len_lt, asIsize_of_lt (by omega)] at hx
  exact exact_moveHeadUnchecked h (by omega) (by omega)

theorem ends_moveHead {Q : Unit → Frame (SliceDeque β) T → Prop} (h : WF E s.self) :
    Ends (moveHead E x) s Q ↔ HeadRange s.self x ∧ Q () ⟨s.self.headed E x, s.world⟩ := by
  have hle := h.len_le
  have hcap := h.cap_lt
  have hfree := asIsize_of_lt (show s.self.capacity - s.self.elems.len < isizeBound by omega)
  have hspec : wp (moveHead E x) s
      (fun u s' => HeadRange s.self x ∧ u = () ∧ s' = ⟨s.self.headed E x, s.world⟩) (fun _ _ => ¬ HeadRange s.self x) := by
    simp only [moveHead, wp_bind, wp_self]
    apply wp_len h
    rw [wp_usizeSub, wp_assert, hfree, asIsize_of_lt h.len_lt, Nat.cast_sub hle]
    exact ⟨fun _ => ⟨fun hx => wp_moveHeadUnchecked_headed h hx.1 hx.2 fun _ => ⟨hx, trivial, rfl⟩, id⟩, fun _ => by omega⟩
  exact ends_iff_of_wp (exact_moveHead h) hspec

theorem ends_moveTail {Q : Unit → Frame (SliceDeque β) T → Prop} (h : WF E s.self) :
    Ends (moveTail E x) s Q ↔ TailRange s.self x ∧ Q () ⟨s.self.withLen (s.self.elems.len + x).toNat, s.world⟩ := by
  have hspec : wp (moveTail E x) s
      (fun u s' => TailRange s.self x ∧ u = () ∧ s' = ⟨s.self.withLen (s.self.elems.len + x).toNat, s.world⟩)
      (fun _ _ => ¬ TailRange s.self x) := by
    refine wp_moveTail h (fun n hn hcap => ⟨⟨by omega, by omega⟩, rfl, ?_⟩) id
    rw [← hn, Int.toNat_natCast]
  exact ends_iff_of_wp (exact_moveTail h) hspec

/-! ## Turned deques -/

theorem WF.headed (h : WF E d) (hx : HeadRange d x) : HeadMoved E d x (d.headed E x) := by
  have hmoved : Ends (moveHead E x) (⟨d, .start⟩ : Frame (SliceDeque β) T) fun _ s' => HeadMoved E d x s'.self :=
    ends_iff.mpr ⟨exact_moveHead h, wp_moveHead h (fun _ hm => hm) fun hf => hf hx⟩
  exact ((ends_moveHead (s := ⟨d, .start⟩) h).mp hmoved).2

theorem headed_headed (hx : HeadRange d x) : (d.headed E x).headed E y = d.headed E (x + y) := by
  have hlen : ((d.elems.len - x).toNat - y).toNat = (d.elems.len - (x + y)).toNat := by
    have := hx.2
    omega
  simp only [SliceDeque.headed, Mirror.turn_turn, ← add_mul, hlen]

theorem WF.headed_zero (h : WF E d) : d.headed E 0 = d := by
  simp only [SliceDeque.headed, zero_mul, Mirror.turn_zero h.begin_ge h.begin_lt, sub_zero, Int.toNat_natCast]

theorem HeadRange.add (h : WF E d) (hx : HeadRange d x) (hy : HeadRange (d.headed E x) y) : HeadRange d (x + y) := by
  have hlen := (h.headed hx).len_eq
  have hcap := (h.headed hx).capacity_eq
  unfold HeadRange at *
  rw [hcap] at hy
  omega

theorem HeadRange.neg (h : WF E d) (hx : HeadRange d x) : HeadRange (d.headed E x) (-x) := by
  have hlen := (h.headed hx).len_eq
  have hcap := (h.headed hx).capacity_eq
  have hle := h.len_le
  unfold HeadRange at *
  rw [hcap]
  omega

/-- Slot `i` of the turned deque lies where slot `i + x` was. -/
theorem WF.phys_headed (h : WF E d) (hx : HeadRange d x) (i k : Int) :
    d.buf.ptr.mirror.phys ((d.headed E x).elems.ptr + i * E.layout.size + k) =
      d.buf.ptr.mirror.phys (d.elems.ptr + (i + x) * E.layout.size + k) := by
  have hle := h.len_le
  by_cases hz : d.capacity * E.layout.size = 0
  · have hstill : x * E.layout.size = 0 := by
      rcases Nat.mul_eq_zero.mp hz with hz | hz
      · rw [show x = 0 by unfold HeadRange at hx; omega, zero_mul]
      · rw [hz, Nat.cast_zero, mul_zero]
    simp only [SliceDeque.headed, hstill, Mirror.turn_zero h.begin_ge h.begin_lt, add_mul, add_zero]
  · simp only [SliceDeque.headed, h.buf.regionSize_eq hz]
    rw [show ∀ a : Int, a + i * E.layout.size + k = a + (i * E.layout.size + k) from fun a => add_assoc _ _ _,
      Mirror.phys_turn]
    congr 1
    ring

/-- Two moves of the head that pass their range assertions are one move by the sum: the state is the
same to the address. A move back restores the state, and moves of the tail commute with it. The slots
are renumbered, and every byte stays where it is. -/
theorem moveHead_acts (h : WF E s.self)
    (hxy : Ends (do
      moveHead E x
      moveHead E y) s fun _ _ => True) :
    Ends (moveHead E (x + y)) s (fun _ _ => True) ∧
    (do
      moveHead E x
      moveHead E y) s = moveHead E (x + y) s ∧
    (do
      moveHead E x
      moveHead E (-x)) s = ⟨false, .ok (), s⟩ ∧
    (∀ z,
      Ends (do
        moveHead E x
        moveTail E z) s (fun _ _ => True) →
      Ends (do
        moveTail E z
        moveHead E x) s (fun _ _ => True) →
      (do
        moveHead E x
        moveTail E z) s =
      (do
        moveTail E z
        moveHead E x) s) ∧
    Ends (moveHead E x) s fun _ s' => s'.self.buf = s.self.buf ∧ ∀ i k : Int,
      s.self.buf.ptr.mirror.phys (s'.self.elems.ptr + i * E.layout.size + k) =
        s.self.buf.ptr.mirror.phys (s.self.elems.ptr + (i + x) * E.layout.size + k) := by
  rw [ends_bind, ends_moveHead h] at hxy
  obtain ⟨hx, hy⟩ := hxy
  have hwf := (h.headed hx).wf
  rw [ends_moveHead (s := ⟨s.self.headed E x, s.world⟩) hwf] at hy
  have hsum := hx.add h hy.1
  refine ⟨(ends_moveHead h).mpr ⟨hsum, trivial⟩, ?_, ?_, fun z htail htail' => ?_, ?_⟩
  · rw [ends_eq_iff.mp ((ends_moveHead h).mpr ⟨hsum, rfl⟩), ← ends_eq_iff, ends_bind, ends_moveHead h]
    refine ⟨hx, (ends_moveHead (s := ⟨s.self.headed E x, s.world⟩) hwf).mpr ⟨hy.1, ?_⟩⟩
    rw [headed_headed hx]
  · rw [← ends_eq_iff, ends_bind, ends_moveHead h]
    refine ⟨hx, (ends_moveHead (s := ⟨s.self.headed E x, s.world⟩) hwf).mpr ⟨hx.neg h, ?_⟩⟩
    rw [headed_headed hx, add_neg_cancel, h.headed_zero]
  · rw [ends_bind, ends_moveHead h, ends_moveTail (s := ⟨s.self.headed E x, s.world⟩) hwf] at htail
    rw [ends_bind, ends_moveTail h] at htail'
    obtain ⟨htz, htx⟩ := htail'
    have hlen := (h.headed hx).len_eq
    have hcut : WF E (s.self.withLen (s.self.elems.len + z).toNat) := h.withLen (by have := htz.2; omega)
    rw [ends_moveHead (s := ⟨s.self.withLen (s.self.elems.len + z).toNat, s.world⟩) hcut] at htx
    have hright : (do
        moveTail E z
        moveHead E x) s = ⟨false, .ok (), ⟨(s.self.withLen (s.self.elems.len + z).toNat).headed E x, s.world⟩⟩ := by
      rw [← ends_eq_iff, ends_bind, ends_moveTail h]
      exact ⟨htz, (ends_moveHead (s := ⟨s.self.withLen (s.self.elems.len + z).toNat, s.world⟩) hcut).mpr ⟨htx.1, rfl⟩⟩
    rw [hright, ← ends_eq_iff, ends_bind, ends_moveHead h]
    refine ⟨hx, (ends_moveTail (s := ⟨s.self.headed E x, s.world⟩) hwf).mpr ⟨htail.2.1, ?_⟩⟩
    have hsame : ((s.self.headed E x).elems.len + z).toNat = ((s.self.elems.len + z).toNat - x).toNat := by
      have := htz.1
      omega
    dsimp only
    rw [hsame]
    rfl
  · exact (ends_moveHead h).mpr ⟨hx, rfl, h.phys_headed hx⟩

/-- The head of the sample crosses the end of the mapping and comes back. -/
theorem sample_moveHead :
    let E := cells true 3 (by decide)
    (do
      moveHead E 1
      moveHead E (-4)) ⟨sample, .start⟩ = moveHead E (-3) ⟨sample, .start⟩ := by
  intro E
  have h : WF E sample := wf_sample
  have hrange : Ends (do
      moveHead E 1
      moveHead E (-4)) (⟨sample, .start⟩ : Frame (SliceDeque Nat) Nat) fun _ _ => True := by
    have hx : HeadRange sample 1 := by decide
    rw [ends_bind, ends_moveHead (s := ⟨sample, .start⟩) h]
    refine ⟨hx, (ends_moveHead (s := ⟨sample.headed E 1, .start⟩) (h.headed hx).wf).mpr ⟨?_, trivial⟩⟩
    decide
  exact (moveHead_acts (s := ⟨sample, .start⟩) h hrange).2.1

end Sdeq.SliceDeque
