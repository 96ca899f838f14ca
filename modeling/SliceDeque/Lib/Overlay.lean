import Mathlib.Data.List.GetD
import Mathlib.Tactic.Common

/-!
# Pieces that are written over each other

Every piece is written at the start of a blank row. What the row shows then is
compared with the pieces one behind the other.
-/

set_option autoImplicit false

namespace Overlay
variable {α : Type} {z : α} {f g : Nat → α} {p q : List α} {ps : List (List α)} {i j : Nat}

/-- What a row that showed `f` shows after a piece was written at its start. -/
def cover (z : α) (p : List α) (f : Nat → α) (j : Nat) : α := if j < p.length then p.getD j z else f j

/-- The same after all pieces, the first one first. -/
def overlay (z : α) (f : Nat → α) : List (List α) → Nat → α
  | [] => f
  | p :: ps => overlay z (cover z p f) ps

/-- A piece behind `p` shows nothing new: it is blank, and so is what it covers of `p`, unless `p` is empty. -/
def Silent (z : α) (p q : List α) : Prop := p = [] ∨ (∀ a ∈ q, a = z) ∧ ∀ j < q.length, p.getD j z = z

theorem cover_blank (p : List α) : cover z p (fun _ => z) = fun j => p.getD j z := by
  funext j
  rw [cover]
  split
  · rfl
  · rw [List.getD_eq_default _ _ (by omega)]

theorem getD_blank (h : ∀ a ∈ p, a = z) : p.getD j z = z := by
  rcases Nat.lt_or_ge j p.length with hj | hj
  · rw [List.getD_eq_getElem _ _ hj]
    exact h _ (List.getElem_mem hj)
  · exact List.getD_eq_default _ _ hj

/-- Either some piece covers the place, and the place shows a piece, or none does. -/
theorem overlay_cases (ps : List (List α)) (f : Nat → α) (j : Nat) :
    (∃ q ∈ ps, j < q.length ∧ overlay z f ps j = q.getD j z) ∨ (∀ q ∈ ps, q.length ≤ j) ∧ overlay z f ps j = f j := by
  induction ps generalizing f with
  | nil => exact .inr ⟨fun _ h => absurd h List.not_mem_nil, rfl⟩
  | cons p ps ih =>
    rcases ih (cover z p f) with ⟨q, hq, hj, heq⟩ | ⟨hps, heq⟩
    · exact .inl ⟨q, List.mem_cons_of_mem _ hq, hj, heq⟩
    · rw [overlay, heq, cover]
      by_cases hj : j < p.length
      · exact .inl ⟨p, List.mem_cons_self, hj, if_pos hj⟩
      · refine .inr ⟨?_, if_neg hj⟩
        intro q hq
        rcases List.mem_cons.mp hq with rfl | hq
        · omega
        · exact hps q hq

/-- What is in a piece is further back among the pieces one behind the other. -/
theorem exists_in_flatten (hq : q ∈ ps) (hj : j < q.length) : ∃ i, j ≤ i ∧ i < ps.flatten.length ∧ ps.flatten.getD i z = q.getD j z := by
  induction ps with
  | nil => exact absurd hq List.not_mem_nil
  | cons p ps ih =>
    rw [List.flatten_cons, List.length_append]
    rcases List.mem_cons.mp hq with rfl | hq
    · exact ⟨j, Nat.le_refl j, by omega, List.getD_append _ _ _ _ hj⟩
    · obtain ⟨i, hji, hi, heq⟩ := ih hq
      refine ⟨p.length + i, by omega, by omega, ?_⟩
      rw [List.getD_append_right _ _ _ _ (by omega), Nat.add_sub_cancel_left, heq]

section Shows
variable (h : ∀ j, overlay z (fun j => p.getD j z) ps j = (p ++ ps.flatten).getD j z)
include h

/-- A place behind `p` that is not blank would be repeated further back, over and over. -/
theorem blank_of_shows (n : Nat) (hj : p.length ≤ j) (hp : p ≠ []) (hn : (p ++ ps.flatten).length ≤ j + n) :
    (p ++ ps.flatten).getD j z = z := by
  induction n generalizing j with
  | zero => exact List.getD_eq_default _ _ hn
  | succ n ih =>
    by_contra hne
    rcases overlay_cases (z := z) ps (fun j => p.getD j z) j with ⟨q, hq, hjq, heq⟩ | ⟨-, heq⟩
    · obtain ⟨i, hji, -, hi⟩ := exists_in_flatten (z := z) hq hjq
      have hpos : 0 < p.length := List.length_pos_iff.mpr hp
      have hback : (p ++ ps.flatten).getD (p.length + i) z = (p ++ ps.flatten).getD j z := by
        rw [List.getD_append_right _ _ _ _ (by omega), Nat.add_sub_cancel_left, hi, ← h j, heq]
      exact hne (hback ▸ ih (by omega) (by omega))
    · rw [h j, List.getD_eq_default p z hj] at heq
      exact hne heq

theorem silent_of_shows (hp : p ≠ []) : ∀ q ∈ ps, (∀ a ∈ q, a = z) ∧ ∀ j < q.length, p.getD j z = z := by
  have hblank : ∀ q ∈ ps, ∀ j < q.length, q.getD j z = z := by
    intro q hq j hj
    obtain ⟨i, -, -, hi⟩ := exists_in_flatten (z := z) hq hj
    have hbehind := blank_of_shows h (p ++ ps.flatten).length (Nat.le_add_right p.length i) hp (by omega)
    rwa [List.getD_append_right _ _ _ _ (by omega), Nat.add_sub_cancel_left, hi] at hbehind
  intro q hq
  refine ⟨fun a ha => ?_, fun j hj => ?_⟩
  · obtain ⟨j, hj, rfl⟩ := List.getElem_of_mem ha
    rw [← List.getD_eq_getElem q z hj]
    exact hblank q hq j hj
  · rcases Nat.lt_or_ge j p.length with hjp | hjp
    · rcases overlay_cases (z := z) ps (fun j => p.getD j z) j with ⟨r, hr, hjr, heq⟩ | ⟨hnone, -⟩
      · rw [h j, List.getD_append _ _ _ _ hjp, hblank r hr j hjr] at heq
        exact heq
      · exact absurd (hnone q hq) (by omega)
    · exact List.getD_eq_default _ _ hjp

end Shows

/-- The row shows the pieces one behind the other exactly if all behind the first that is not empty are silent. -/
theorem overlay_eq_flatten_iff :
    (∀ j, overlay z (fun _ => z) ps j = ps.flatten.getD j z) ↔ ps.Pairwise (Silent z) := by
  induction ps with
  | nil => simp [overlay]
  | cons p ps ih =>
    rw [List.pairwise_cons, overlay, cover_blank, List.flatten_cons]
    constructor
    · intro h
      by_cases hp : p = []
      · subst hp
        exact ⟨fun q _ => .inl rfl, ih.mp h⟩
      · have hsilent := silent_of_shows h hp
        refine ⟨fun q hq => .inr (hsilent q hq), ?_⟩
        refine List.pairwise_of_forall_mem_list fun q hq r hr => .inr ⟨(hsilent r hr).1, fun j _ => ?_⟩
        exact getD_blank (hsilent q hq).1
    · rintro ⟨hp, hps⟩ j
      by_cases hnil : p = []
      · subst hnil
        exact ih.mpr hps j
      · have hsilent : ∀ q ∈ ps, (∀ a ∈ q, a = z) ∧ ∀ j < q.length, p.getD j z = z := fun q hq => (hp q hq).resolve_left hnil
        have hflat : ∀ a ∈ ps.flatten, a = z := by
          intro a ha
          obtain ⟨q, hq, ha⟩ := List.mem_flatten.mp ha
          exact (hsilent q hq).1 a ha
        have hshown : (p ++ ps.flatten).getD j z = p.getD j z := by
          rcases Nat.lt_or_ge j p.length with hj | hj
          · exact List.getD_append _ _ _ _ hj
          · rw [List.getD_append_right _ _ _ _ hj, getD_blank hflat, List.getD_eq_default _ _ hj]
        rw [hshown]
        rcases overlay_cases (z := z) ps (fun j => p.getD j z) j with ⟨q, hq, hj, heq⟩ | ⟨-, heq⟩
        · rw [heq, getD_blank (hsilent q hq).1, (hsilent q hq).2 j hj]
        · exact heq

end Overlay
