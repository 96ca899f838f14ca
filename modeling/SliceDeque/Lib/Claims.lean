import Mathlib.Data.List.Basic

/-!
# Claims on a table

A claim owns some keys of a table and says what they show. A table holds
claims over a ground when every claim shows what it says, no key has two
owners, and every other key is as the ground has it.
-/

set_option autoImplicit false

structure Claim (ι κ : Type) where
  owns : ι → Prop
  shows : ι → κ

namespace Claim
variable {ι κ : Type}

/-- `c` owns what `d` does not. -/
def Apart (c d : Claim ι κ) : Prop := ∀ i, c.owns i → ¬ d.owns i

/-- The table is `ground` under the claims. -/
structure Holds (ground table : ι → Option κ) (cs : List (Claim ι κ)) : Prop where
  shown : ∀ c ∈ cs, ∀ i, c.owns i → table i = some (c.shows i)
  rest : ∀ i, (∀ c ∈ cs, ¬ c.owns i) → table i = ground i
  fresh : ∀ c ∈ cs, ∀ i, c.owns i → ground i = none
  apart : cs.Pairwise Apart

/-- Exactly the keys of `c` are new in `table'`. -/
structure Added (c : Claim ι κ) (table table' : ι → Option κ) : Prop where
  free : ∀ i, c.owns i → table i = none
  inside : ∀ i, c.owns i → table' i = some (c.shows i)
  outside : ∀ i, ¬ c.owns i → table' i = table i

/-- Exactly the keys of `c` are gone in `table'`. -/
structure Cleared (c : Claim ι κ) (table table' : ι → Option κ) : Prop where
  inside : ∀ i, c.owns i → table' i = none
  outside : ∀ i, ¬ c.owns i → table' i = table i

variable {ground table table' : ι → Option κ} {c : Claim ι κ} {cs ls rs : List (Claim ι κ)}

theorem Holds.nil : Holds ground ground [] :=
  ⟨fun _ h => absurd h List.not_mem_nil, fun _ _ => rfl, fun _ h => absurd h List.not_mem_nil, .nil⟩

theorem Holds.not_owned (h : Holds ground table cs) {i : ι} (hi : table i = none) : ∀ d ∈ cs, ¬ d.owns i := by
  intro d hd ho
  rw [h.shown d hd i ho] at hi
  cases hi

/-- What a granted allocation leaves. -/
theorem Holds.push (h : Holds ground table cs) (ha : Added c table table') : Holds ground table' (cs ++ [c]) := by
  have hapart : ∀ d ∈ cs, Apart d c := fun d hd i ho hc => h.not_owned (ha.free i hc) d hd ho
  refine ⟨fun d hd i ho => ?_, fun i hn => ?_, fun d hd i ho => ?_, ?_⟩
  · rcases List.mem_append.mp hd with hd | hd
    · rw [ha.outside i (hapart d hd i ho), h.shown d hd i ho]
    · obtain rfl := List.mem_singleton.mp hd
      exact ha.inside i ho
  · have hc : ¬ c.owns i := hn c (List.mem_append_right _ (List.mem_singleton_self c))
    rw [ha.outside i hc, h.rest i fun d hd => hn d (List.mem_append_left _ hd)]
  · rcases List.mem_append.mp hd with hd | hd
    · exact h.fresh d hd i ho
    · obtain rfl := List.mem_singleton.mp hd
      rw [← h.rest i (h.not_owned (ha.free i ho)), ha.free i ho]
  · refine List.pairwise_append.mpr ⟨h.apart, List.pairwise_singleton _ _, fun d hd e he => ?_⟩
    obtain rfl := List.mem_singleton.mp he
    exact hapart d hd

/-- What giving back one of the claims leaves. -/
theorem Holds.remove (h : Holds ground table (ls ++ c :: rs)) (hc : Cleared c table table') :
    Holds ground table' (ls ++ rs) := by
  have hmem : ∀ d ∈ ls ++ rs, d ∈ ls ++ c :: rs := fun d hd => by
    rcases List.mem_append.mp hd with hd | hd
    · exact List.mem_append_left _ hd
    · exact List.mem_append_right _ (List.mem_cons_of_mem _ hd)
  obtain ⟨hl, hcr, hlr⟩ := List.pairwise_append.mp h.apart
  obtain ⟨hc', hr⟩ := List.pairwise_cons.mp hcr
  have hapart : ∀ d ∈ ls ++ rs, ∀ i, d.owns i → ¬ c.owns i := fun d hd i ho => by
    rcases List.mem_append.mp hd with hd | hd
    · exact hlr d hd c List.mem_cons_self i ho
    · exact fun ho' => hc' d hd i ho' ho
  refine ⟨fun d hd i ho => ?_, fun i hn => ?_, fun d hd i ho => h.fresh d (hmem d hd) i ho, ?_⟩
  · rw [hc.outside i (hapart d hd i ho), h.shown d (hmem d hd) i ho]
  · by_cases ho : c.owns i
    · rw [hc.inside i ho, h.fresh c (List.mem_append_right _ List.mem_cons_self) i ho]
    · refine (hc.outside i ho).trans (h.rest i fun d hd => ?_)
      rcases List.mem_append.mp hd with hd | hd
      · exact hn d (List.mem_append_left _ hd)
      · rcases List.mem_cons.mp hd with rfl | hd
        · exact ho
        · exact hn d (List.mem_append_right _ hd)
  · exact List.pairwise_append.mpr ⟨hl, hr, fun d hd e he => hlr d hd e (List.mem_cons_of_mem _ he)⟩

/-- A list around one of its elements. -/
theorem exists_around {α : Type} {as : List α} {k : Nat} {a : α} (h : as[k]? = some a) :
    ∃ ls rs, as = ls ++ a :: rs ∧ as.eraseIdx k = ls ++ rs := by
  obtain ⟨hk, rfl⟩ := List.getElem?_eq_some_iff.mp h
  refine ⟨as.take k, as.drop (k + 1), ?_, List.eraseIdx_eq_take_drop_succ _ _⟩
  rw [← List.drop_eq_getElem_cons hk, List.take_append_drop]

end Claim
