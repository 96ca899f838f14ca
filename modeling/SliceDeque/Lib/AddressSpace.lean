import Mathlib.Data.Int.ModEq
import Mathlib.Tactic.Ring

/-!
# Address spaces

Which byte of which object an address shows. Ranges are placed and cleared;
clearing what was placed into a free range gives the old address space back.
-/

set_option autoImplicit false

def AddressSpace (κ : Type) : Type := Int → Option κ

namespace AddressSpace
variable {κ : Type} (m : AddressSpace κ)

/-- Show the bytes `f` in `[a, a + n)`. -/
def place (a : Int) (n : Nat) (f : Nat → κ) : AddressSpace κ := fun b =>
  if a ≤ b ∧ b < a + n then some (f (b - a).toNat) else m b

def clear (a : Int) (n : Nat) : AddressSpace κ := fun b =>
  if a ≤ b ∧ b < a + n then none else m b

def Free (a : Int) (n : Nat) : Prop := ∀ b, a ≤ b → b < a + n → m b = none

variable {m} {a b : Int} {n : Nat} {f : Nat → κ}

theorem place_inside (k : Nat) (h : k < n) : m.place a n f (a + k) = some (f k) := by
  rw [place, if_pos ⟨by omega, by omega⟩, add_sub_cancel_left, Int.toNat_natCast]

theorem place_outside (h : b < a ∨ a + n ≤ b) : m.place a n f b = m b :=
  if_neg (by omega)

theorem clear_place (h : m.Free a n) : (m.place a n f).clear a n = m := by
  funext b
  by_cases hb : a ≤ b ∧ b < a + n
  · rw [clear, if_pos hb, h b hb.1 hb.2]
  · rw [clear, if_neg hb, place, if_neg hb]

/-- A placement over a part of a range leaves no trace once the whole range is cleared. -/
theorem clear_place_part {a' : Int} {n' : Nat} {f' : Nat → κ} (h : m.Free a n) (ha : a ≤ a')
    (hn : a' + n' ≤ a + n) : ((m.place a n f).place a' n' f').clear a n = m := by
  funext b
  by_cases hb : a ≤ b ∧ b < a + n
  · rw [clear, if_pos hb, h b hb.1 hb.2]
  · rw [clear, if_neg hb, place_outside (by omega), place, if_neg hb]

end AddressSpace
