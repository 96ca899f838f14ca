import SliceDeque.Splice

/-!
# The range checks of `drain` and `splice` without overflow checks

The bounds are made half-open by an unchecked `+ 1`. A bound at the end of
`usize` wraps around to zero, and then the two assertions may pass.
-/

set_option autoImplicit false

namespace Sdeq
open Exec SliceDeque

/-- The index in a bound is a `usize`. -/
def Bound.Valid : Bound → Prop
  | included n => n < usizeBound
  | excluded n => n < usizeBound
  | unbounded => True

instance : (b : Bound) → Decidable b.Valid
  | .included _ => inferInstanceAs (Decidable (_ < _))
  | .excluded _ => inferInstanceAs (Decidable (_ < _))
  | .unbounded => inferInstanceAs (Decidable True)

/-- A bound wraps around, and the assertions accept what it becomes. -/
def WrapsAccepted (n : Nat) (start end_ : Bound) : Prop :=
  start = .excluded (usizeBound - 1) ∧ end_.high n % usizeBound ≤ n ∨
    end_ = .included (usizeBound - 1) ∧ start.low % usizeBound = 0

section Bounds
variable {T β σ : Type} {E : Env T β} {t : σ} {b start end_ : Bound} {n : Nat}
variable {Q : Nat → σ → Prop} {P : Panic → σ → Prop}

theorem Bound.Valid.low_wraps (h : b.Valid) : usizeBound ≤ b.low ↔ b = .excluded (usizeBound - 1) := by
  have hpos : 0 < usizeBound := by decide
  cases b with
  | included n =>
    simp only [low, reduceCtorEq, iff_false, not_le]
    exact h
  | excluded n =>
    have h : n < usizeBound := h
    simp only [low, excluded.injEq]
    omega
  | unbounded =>
    simp only [low, reduceCtorEq, iff_false, not_le]
    exact hpos

theorem Bound.Valid.high_wraps (h : b.Valid) (hn : n < usizeBound) :
    usizeBound ≤ b.high n ↔ b = .included (usizeBound - 1) := by
  cases b with
  | included k =>
    have h : k < usizeBound := h
    simp only [high, included.injEq]
    omega
  | excluded k =>
    simp only [high, reduceCtorEq, iff_false, not_le]
    exact h
  | unbounded => simp [high, hn]

theorem Bound.Valid.low_le (h : b.Valid) : b.low ≤ usizeBound := by
  cases b with
  | included n => exact Nat.le_of_lt h
  | excluded n => exact h
  | unbounded => exact Nat.zero_le _

theorem Bound.Valid.high_le (h : b.Valid) (hn : n < usizeBound) : b.high n ≤ usizeBound := by
  cases b with
  | included k => exact h
  | excluded k => exact Nat.le_of_lt h
  | unbounded => exact hn.le

theorem lands_rangeStart (hd : E.debug = false) (hb : b.Valid) (hQ : Q (b.low % usizeBound) t) :
    Lands (rangeStart E b) t Q P := by
  cases b with
  | included n =>
    rw [Bound.low, Nat.mod_eq_of_lt hb] at hQ
    exact lands_pure.mpr hQ
  | excluded n =>
    rw [rangeStart, lands_usize]
    refine ⟨fun h => ?_, fun _ => ⟨by simp [hd], fun _ => hQ⟩⟩
    rwa [Bound.low, Nat.mod_eq_of_lt h] at hQ
  | unbounded => exact lands_pure.mpr hQ

theorem lands_rangeEnd (hd : E.debug = false) (hb : b.Valid) (hn : n < usizeBound)
    (hQ : Q (b.high n % usizeBound) t) : Lands (rangeEnd E n b) t Q P := by
  cases b with
  | included k =>
    rw [rangeEnd, lands_usize]
    refine ⟨fun h => ?_, fun _ => ⟨by simp [hd], fun _ => hQ⟩⟩
    rwa [Bound.high, Nat.mod_eq_of_lt h] at hQ
  | excluded k =>
    rw [Bound.high, Nat.mod_eq_of_lt hb] at hQ
    exact lands_pure.mpr hQ
  | unbounded =>
    rw [Bound.high, Nat.mod_eq_of_lt hn] at hQ
    exact lands_pure.mpr hQ

end Bounds

namespace SliceDeque
variable {T β : Type} {E : Env T β} {s : Frame (SliceDeque β) T} {start end_ : Bound} {iter : UserIter T}

/-- The two assertions look at the wrapped bounds, and so does the drain. -/
theorem lands_drain (hd : E.debug = false) (h : WF E s.self) (hstart : start.Valid) (hend : end_.Valid) :
    Lands (drain E start end_) s
      (fun dr s' => (start.low % usizeBound ≤ end_.high s.self.elems.len % usizeBound ∧
          end_.high s.self.elems.len % usizeBound ≤ s.self.elems.len) ∧
        Drained E s.self (start.low % usizeBound) (end_.high s.self.elems.len % usizeBound) dr ∧ s' = ⟨dr.deq, s.world⟩)
      (fun _ s' => ¬ (start.low % usizeBound ≤ end_.high s.self.elems.len % usizeBound ∧
          end_.high s.self.elems.len % usizeBound ≤ s.self.elems.len) ∧ s' = s) := by
  have hlt : s.self.elems.len < usizeBound := h.len_lt.trans (by decide)
  simp only [drain, lands_bind]
  refine lands_of_exact exact_len (wp_len h (lands_rangeStart hd hstart (lands_rangeEnd hd hend hlt ?_)))
  simp only [lands_assert, lands_self, lands_setSelf, lands_pure]
  refine ⟨fun hab => ⟨fun hb => ⟨⟨hab, hb⟩, drained h hab hb, trivial⟩, fun hb => ⟨fun hh => hb hh.2, trivial⟩⟩,
    fun hab => ⟨fun hh => hab hh.1, trivial⟩⟩

/-- The range checks are those of the half-open range between the bounds as numbers: outside of the
deque it is refused and nothing has changed, and inside it is exactly what is drained. -/
def DrainChecked (E : Env T β) (s : Frame (SliceDeque β) T) (start end_ : Bound) : Prop :=
  Lands (drain E start end_) s
    (fun dr s' => start.low ≤ end_.high s.self.elems.len ∧ end_.high s.self.elems.len ≤ s.self.elems.len ∧
      Drained E s.self start.low (end_.high s.self.elems.len) dr ∧ s' = ⟨dr.deq, s.world⟩)
    (fun _ s' => (end_.high s.self.elems.len < start.low ∨ s.self.elems.len < end_.high s.self.elems.len) ∧ s' = s)

def SpliceChecked (E : Env T β) (s : Frame (SliceDeque β) T) (start end_ : Bound) (iter : UserIter T) : Prop :=
  Lands (splice E start end_ iter) s
    (fun sp s' => start.low ≤ end_.high s.self.elems.len ∧ end_.high s.self.elems.len ≤ s.self.elems.len ∧
      Drained E s.self start.low (end_.high s.self.elems.len) sp.drain ∧ s' = ⟨sp.drain.deq, s.world⟩)
    (fun _ s' => (end_.high s.self.elems.len < start.low ∨ s.self.elems.len < end_.high s.self.elems.len) ∧ s' = s)

theorem spliceChecked_iff : SpliceChecked E s start end_ iter ↔ DrainChecked E s start end_ := by
  simp only [SpliceChecked, DrainChecked, splice, lands_bind, lands_pure]

/-- Wrapped bounds that are accepted are bounds of a range that is not in the deque. -/
theorem outside_of_wrapsAccepted {n : Nat} (h : WrapsAccepted n start end_) (hstart : start.Valid) (hend : end_.Valid)
    (hn : n < usizeBound) :
    (start.low % usizeBound ≤ end_.high n % usizeBound ∧ end_.high n % usizeBound ≤ n) ∧
      (end_.high n < start.low ∨ n < end_.high n) := by
  have hhigh := hend.high_le hn
  rcases h with ⟨hs, hle⟩ | ⟨he, hzero⟩
  · have hlow := hstart.low_wraps.mpr hs
    have hmax := hstart.low_le
    rw [show start.low = usizeBound by omega, Nat.mod_self]
    exact ⟨⟨Nat.zero_le _, hle⟩, by omega⟩
  · have hwraps := (hend.high_wraps hn).mpr he
    rw [hzero, show end_.high n = usizeBound by omega, Nat.mod_self]
    exact ⟨⟨le_rfl, Nat.zero_le _⟩, .inr hn⟩

theorem not_wraps {n : Nat} (h : ¬ WrapsAccepted n start end_) (hstart : start.Valid) (hend : end_.Valid)
    (hn : n < usizeBound)
    (hp : start.low % usizeBound ≤ end_.high n % usizeBound ∧ end_.high n % usizeBound ≤ n) :
    start.low < usizeBound ∧ end_.high n < usizeBound := by
  have hhigh := hend.high_le hn
  constructor
  · by_contra hlow
    exact h (.inl ⟨hstart.low_wraps.mp (not_lt.mp hlow), hp.2⟩)
  · by_contra hwraps
    have he : end_.high n = usizeBound := by omega
    rw [he, Nat.mod_self] at hp
    exact h (.inr ⟨(hend.high_wraps hn).mp (not_lt.mp hwraps), Nat.le_zero.mp hp.1⟩)

theorem drainChecked_iff (hd : E.debug = false) (h : WF E s.self) (hstart : start.Valid) (hend : end_.Valid) :
    DrainChecked E s start end_ ↔ ¬ WrapsAccepted s.self.elems.len start end_ := by
  have hlt : s.self.elems.len < usizeBound := h.len_lt.trans (by decide)
  have hdrain := lands_drain hd h hstart hend
  constructor
  · intro hc hw
    obtain ⟨hp, hout⟩ := outside_of_wrapsAccepted hw hstart hend hlt
    refine Lands.of_false (lands_mono (hc.inter hdrain) (fun dr s' hq => ?_) fun p s' hq => hq.2.1 hp)
    have hab := hq.1.1
    have hb := hq.1.2.1
    omega
  · intro hw
    refine lands_mono hdrain ?_ ?_
    · rintro dr s' ⟨hp, hdr, hs'⟩
      obtain ⟨hlow, hhigh⟩ := not_wraps hw hstart hend hlt hp
      rw [Nat.mod_eq_of_lt hlow, Nat.mod_eq_of_lt hhigh] at hp hdr
      exact ⟨hp.1, hp.2, hdr, hs'⟩
    · rintro p s' ⟨hp, hs'⟩
      refine ⟨?_, hs'⟩
      by_contra hin
      push Not at hin
      rw [Nat.mod_eq_of_lt (by omega), Nat.mod_eq_of_lt (by omega)] at hp
      exact hp hin

/-- Without overflow checks the range checks of `drain` and `splice` are exact, unless a bound at the
end of `usize` wraps around and the assertions accept it. -/
theorem ranges_checked_iff (hd : E.debug = false) (h : WF E s.self) (hstart : start.Valid) (hend : end_.Valid) :
    (DrainChecked E s start end_ ↔ ¬ WrapsAccepted s.self.elems.len start end_) ∧
    (SpliceChecked E s start end_ iter ↔ ¬ WrapsAccepted s.self.elems.len start end_) :=
  ⟨drainChecked_iff hd h hstart hend, spliceChecked_iff.trans (drainChecked_iff hd h hstart hend)⟩

/-- A range that starts behind the last index is not refused: the whole deque is drained. -/
theorem drain_accepts_wrapped :
    (drain (cells false 3 (by decide)) (.excluded (usizeBound - 1)) .unbounded ⟨sample, .start⟩).state.self.elems.len = 0 ∧
    ¬ DrainChecked (cells false 3 (by decide)) ⟨sample, .start⟩ (.excluded (usizeBound - 1)) .unbounded := by
  have h : WF (cells false 3 (by decide)) sample := wf_sample
  refine ⟨by decide, fun hc => ?_⟩
  exact (drainChecked_iff rfl h (by decide) (by decide)).mp hc (.inl ⟨rfl, by decide⟩)

/-- An inclusive end at the last index is refused as long as the range does not start at the first. -/
theorem sample_checked :
    DrainChecked (cells false 3 (by decide)) ⟨sample, .start⟩ (.included 1) (.included (usizeBound - 1)) ∧
    SpliceChecked (cells false 3 (by decide)) ⟨sample, .start⟩ (.included 1) (.included (usizeBound - 1))
      ⟨[], 0, fun _ => (0, none)⟩ := by
  have h : WF (cells false 3 (by decide)) sample := wf_sample
  have hiff := @ranges_checked_iff Nat Nat _ ⟨sample, .start⟩ _ _ ⟨[], 0, fun _ => (0, none)⟩ rfl h
    (show (Bound.included 1).Valid by decide) (show (Bound.included (usizeBound - 1)).Valid by decide)
  have hnot : ¬ WrapsAccepted sample.elems.len (.included 1) (.included (usizeBound - 1)) := by
    rintro (⟨h1, -⟩ | ⟨-, h1⟩)
    · cases h1
    · exact absurd h1 (by decide)
  exact ⟨hiff.1.mpr hnot, hiff.2.mpr hnot⟩

end SliceDeque

end Sdeq
