import Mathlib.Tactic.Linarith
import Mathlib.Tactic.Ring
import Mathlib.Order.Basic
import Mathlib.Data.Nat.Init

/-!
# Rounding up to an even number of units

`evenUnits g n` units of size `g` are the least positive even number of units
that hold `n`. Rounding is idempotent on everything between the request and
the rounded size, so the rounded size can be recovered from a floor of it.
-/

set_option autoImplicit false

namespace Rounding

def evenUnits (g n : Nat) : Nat :=
  let r := max ((n + g - 1) / g) 1
  if r % 2 = 0 then r else r + 1

def evenSize (g n : Nat) : Nat := evenUnits g n * g

variable {g n m : Nat}

theorem evenUnits_even (g n : Nat) : evenUnits g n % 2 = 0 := by
  unfold evenUnits
  dsimp only
  split <;> omega

theorem evenUnits_pos (g n : Nat) : 2 ≤ evenUnits g n := by
  unfold evenUnits
  dsimp only
  split <;> omega

theorem le_ceil_mul (hg : 0 < g) (n : Nat) : n ≤ (n + g - 1) / g * g := by
  have h := Nat.div_add_mod (n + g - 1) g
  have hm := Nat.mod_lt (n + g - 1) hg
  rw [Nat.mul_comm] at h
  omega

theorem le_evenSize (hg : 0 < g) (n : Nat) : n ≤ evenSize g n := by
  have h := le_ceil_mul hg n
  have hu : (n + g - 1) / g ≤ evenUnits g n := by
    unfold evenUnits
    dsimp only
    split <;> omega
  exact h.trans (Nat.mul_le_mul_right g hu)

theorem evenSize_dvd (g n : Nat) : 2 * g ∣ evenSize g n := by
  obtain ⟨k, hk⟩ := Nat.dvd_of_mod_eq_zero (evenUnits_even g n)
  exact ⟨k, by rw [evenSize, hk]; ring⟩

theorem evenSize_pos (hg : 0 < g) (n : Nat) : 0 < evenSize g n :=
  Nat.mul_pos (by have := evenUnits_pos g n; omega) hg

/-- Every positive multiple of two units that holds `n` is at least the rounded size. -/
theorem evenSize_le (hg : 0 < g) {a : Nat} (ha : 2 * g ∣ a) (hpos : 0 < a) (hn : n ≤ a) :
    evenSize g n ≤ a := by
  obtain ⟨k, rfl⟩ := ha
  have hk : 0 < k := Nat.pos_of_ne_zero (by rintro rfl; simp at hpos)
  have hceil : (n + g - 1) / g ≤ 2 * k := by
    have hlt : n + g - 1 < g * (2 * k + 1) := by
      have : g * (2 * k + 1) = 2 * g * k + g := by ring
      omega
    exact Nat.lt_succ_iff.mp (Nat.div_lt_of_lt_mul hlt)
  have hu : evenUnits g n ≤ 2 * k := by
    unfold evenUnits
    dsimp only
    split <;> omega
  calc evenSize g n ≤ 2 * k * g := Nat.mul_le_mul_right g hu
    _ = 2 * g * k := by ring

theorem evenSize_mono (hg : 0 < g) (h : n ≤ m) : evenSize g n ≤ evenSize g m :=
  evenSize_le hg (evenSize_dvd g m) (evenSize_pos hg m) (h.trans (le_evenSize hg m))

/-- The round trip: a size between the request and its rounding rounds to the same size. -/
theorem evenSize_sandwich (hg : 0 < g) (h : n ≤ m) (hm : m ≤ evenSize g n) :
    evenSize g m = evenSize g n :=
  le_antisymm (evenSize_le hg (evenSize_dvd g n) (evenSize_pos hg n) hm) (evenSize_mono hg h)

theorem evenSize_lt (hg : 0 < g) (n : Nat) : evenSize g n < n + 2 * g ∨ evenSize g n = 2 * g := by
  by_cases hn : n = 0
  · subst hn
    right
    have := evenSize_le (n := 0) hg (dvd_refl (2 * g)) (by omega) (by omega)
    have := Nat.le_of_dvd (evenSize_pos hg 0) (evenSize_dvd g 0)
    omega
  · left
    have hd : 2 * g ∣ 2 * g * ((n + 2 * g - 1) / (2 * g)) := Dvd.intro _ rfl
    have hmod := Nat.div_add_mod (n + 2 * g - 1) (2 * g)
    have hlt := Nat.mod_lt (n + 2 * g - 1) (show 0 < 2 * g by omega)
    have := evenSize_le (n := n) hg hd (by omega) (by omega)
    omega

/-- Half of an even size, counted in elements: the two floors commute. -/
theorem half_div (a s : Nat) : a / s / 2 = a / 2 / s := by
  rw [Nat.div_div_eq_div_mul, Nat.div_div_eq_div_mul, Nat.mul_comm]

end Rounding
