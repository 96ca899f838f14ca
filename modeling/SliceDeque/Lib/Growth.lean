import Mathlib.Tactic.Common

/-!
# Growing an array

Items are stored one by one. Whenever the array is full it grows at least
twofold, and for the items that are said to lie ahead. A request for a capacity
is granted or not, and is rounded up when it is granted.
-/

set_option autoImplicit false

namespace Growth
variable (granted : Nat → Prop) (round : Nat → Nat)

/-- Every request on the way is granted; `ahead k` items are said to lie behind the `k`-th one. -/
def Affordable (ahead : Nat → Nat) : (k items len cap : Nat) → Prop
  | _, 0, _, _ => True
  | k, items + 1, len, cap =>
    if len = cap then
      granted (max (len + ahead (k + 1) + 1) (2 * cap)) ∧
        Affordable ahead (k + 1) items (len + 1) (round (max (len + ahead (k + 1) + 1) (2 * cap)))
    else Affordable ahead (k + 1) items (len + 1) cap

instance instDecidableAffordable [DecidablePred granted] (ahead : Nat → Nat) :
    ∀ k items len cap, Decidable (Affordable granted round ahead k items len cap)
  | _, 0, _, _ => isTrue trivial
  | k, items + 1, len, cap =>
    have := instDecidableAffordable ahead (k + 1) items (len + 1)
    inferInstanceAs (Decidable (if len = cap then _ ∧ _ else _))

variable {granted round} {ahead : Nat → Nat} {k items len cap : Nat}

theorem affordable_of_room (h : len + items ≤ cap) : Affordable granted round ahead k items len cap := by
  induction items generalizing k len with
  | zero => trivial
  | succ items ih =>
    rw [Affordable, if_neg (by omega)]
    exact ih (by omega)

/-- If no more items follow than are said to lie ahead, the array grows at most once. -/
theorem affordable_iff_once (hahead : ∀ j, 0 < j → j ≤ items → items - j ≤ ahead (k + j)) (hle : len ≤ cap)
    (hround : ∀ n, granted n → n ≤ round n) :
    Affordable granted round ahead k items len cap ↔
      len + items ≤ cap ∨ granted (max (cap + ahead (k + (cap - len) + 1) + 1) (2 * cap)) := by
  induction items generalizing k len with
  | zero => exact iff_of_true trivial (.inl hle)
  | succ items ih =>
    rw [Affordable]
    split
    · rename_i hfull
      subst hfull
      rw [Nat.sub_self, Nat.add_zero]
      constructor
      · exact fun h => .inr h.1
      · intro h
        rcases h with h | h
        · omega
        · have hnew := hround _ h
          have hfirst := hahead 1 Nat.one_pos (by omega)
          exact ⟨h, affordable_of_room (by omega)⟩
    · rename_i hroom
      have hrest : ∀ j, 0 < j → j ≤ items → items - j ≤ ahead (k + 1 + j) := by
        intro j hj hji
        have hj' := hahead (j + 1) (Nat.succ_pos _) (by omega)
        rw [Nat.add_assoc, Nat.add_comm 1 j]
        omega
      have hcalls : k + 1 + (cap - (len + 1)) = k + (cap - len) := by omega
      rw [ih hrest (by omega), hcalls, Nat.add_assoc, Nat.add_comm 1 items]

section Closed
variable (hclosed : ∀ m n, granted n → m ≤ round n → granted m)
include hclosed

/-- On the way every capacity up to the last length is granted. -/
theorem granted_of_affordable (h : Affordable granted round ahead k items len cap) {m : Nat} (hm : cap < m)
    (hlast : m ≤ len + items) (hle : len ≤ cap) (hround : ∀ n, granted n → n ≤ round n) : granted m := by
  induction items generalizing k len cap with
  | zero => omega
  | succ items ih =>
    rw [Affordable] at h
    split at h
    · obtain ⟨hgranted, hrest⟩ := h
      have hnew := hround _ hgranted
      rcases Nat.lt_or_ge (round (max (len + ahead (k + 1) + 1) (2 * cap))) m with hlt | hge
      · exact ih hrest hlt (by omega) (by omega)
      · exact hclosed m _ hgranted hge
    · exact ih h hm (by omega) (by omega)

/-- Single steps ask for twice the capacity first. -/
theorem granted_twice (h : Affordable granted round (fun _ => 0) k items len cap) (hlt : cap < len + items) (hle : len ≤ cap)
    (hround : ∀ n, granted n → n ≤ round n) : granted (2 * cap) := by
  induction items generalizing k len with
  | zero => omega
  | succ items ih =>
    rw [Affordable] at h
    split at h
    · exact hclosed _ _ h.1 (Nat.le_trans (Nat.le_max_right _ _) (hround _ h.1))
    · exact ih h (by omega) (by omega)

/-- If the number of items ahead is told exactly, what single steps need is enough. -/
theorem affordable_of_exact (hexact : ∀ j, 0 < j → j ≤ items → ahead (k + j) = items - j) (hle : len ≤ cap)
    (hround : ∀ n, granted n → n ≤ round n) (h : Affordable granted round (fun _ => 0) k items len cap) :
    Affordable granted round ahead k items len cap := by
  rw [affordable_iff_once (fun j hj hji => Nat.le_of_eq (hexact j hj hji).symm) hle hround]
  rcases Nat.lt_or_ge cap (len + items) with hlt | hge
  · right
    have hlast : cap + ahead (k + (cap - len) + 1) + 1 = len + items := by
      have hnext := hexact (cap - len + 1) (Nat.succ_pos _) (by omega)
      rw [Nat.add_assoc k, hnext]
      omega
    have hgranted := granted_of_affordable hclosed h hlt (Nat.le_refl _) hle hround
    rw [hlast]
    rcases Nat.le_total (len + items) (2 * cap) with hmax | hmax
    · rw [Nat.max_eq_right hmax]
      exact granted_twice hclosed h hlt hle hround
    · rwa [Nat.max_eq_left hmax]
  · exact .inl hge

end Closed

end Growth
