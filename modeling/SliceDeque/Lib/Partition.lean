import Mathlib.Data.List.Destutter
import Mathlib.Tactic.Common

/-!
# Partitions of a list

A closure with a state looks at the elements of a list in order, accepts or
rejects each of them, and may panic. `sift` asks about the elements one by
one; `dedup` compares every element with the last accepted one, and there the
closure may change both.
-/

set_option autoImplicit false

/-- The accepted elements in order, the others, and the state of the closure (`none` after a panic). -/
structure Parted (α σ : Type) where
  kept : List α
  rest : List α
  state : Option σ

namespace Parted
variable {α σ ι : Type}

def keep (a : α) (p : Parted α σ) : Parted α σ := ⟨a :: p.kept, p.rest, p.state⟩

def pass (a : α) (p : Parted α σ) : Parted α σ := ⟨p.kept, a :: p.rest, p.state⟩

/-- Only whether the closure panicked is left of its state. -/
def forget (p : Parted α σ) : Parted α Unit := ⟨p.kept, p.rest, p.state.map fun _ => ()⟩

/-- Accept or reject every element. -/
def sift (f : σ → α → Option (Bool × σ)) : σ → List α → Parted α σ
  | st, [] => ⟨[], [], some st⟩
  | st, a :: as =>
    match f st a with
    | none => ⟨[], a :: as, none⟩
    | some (true, st') => (sift f st' as).keep a
    | some (false, st') => (sift f st' as).pass a

/-- Compare every element `a` with `b`, the last accepted one: `same st a b` is the answer and the two
elements as the closure leaves them. -/
def dedup (same : σ → α → α → Option (Bool × σ) × α × α) : σ → α → List α → Parted α σ
  | st, b, [] => ⟨[b], [], some st⟩
  | st, b, a :: as =>
    match same st a b with
    | (none, a', b') => ⟨[b'], a' :: as, none⟩
    | (some (true, st'), a', b') => (dedup same st' b' as).pass a'
    | (some (false, st'), a', b') => (dedup same st' a' as).keep b'

/-- The first element is accepted. -/
def dedupAll (same : σ → α → α → Option (Bool × σ) × α × α) (st : σ) : List α → Parted α σ
  | [] => ⟨[], [], some st⟩
  | b :: as => dedup same st b as

section Sift
variable {f : σ → α → Option (Bool × σ)}

theorem sift_perm (st : σ) (as : List α) : ((sift f st as).kept ++ (sift f st as).rest).Perm as := by
  induction as generalizing st with
  | nil => exact .refl _
  | cons a as ih =>
    rw [sift]
    rcases f st a with _ | ⟨_ | _, st'⟩
    · exact .refl _
    · exact List.perm_middle.trans ((ih st').cons a)
    · exact (ih st').cons a

theorem sift_kept_sublist (st : σ) (as : List α) : (sift f st as).kept.Sublist as := by
  induction as generalizing st with
  | nil => exact .refl _
  | cons a as ih =>
    rw [sift]
    rcases f st a with _ | ⟨_ | _, st'⟩
    · exact List.nil_sublist _
    · exact (ih st').cons a
    · exact (ih st').cons_cons a

theorem sift_filter (p : α → Bool) (st : σ) (as : List α) :
    sift (fun st a => some (p a, st)) st as = ⟨as.filter p, as.filter (!p ·), some st⟩ := by
  induction as with
  | nil => rfl
  | cons a as ih =>
    simp only [sift]
    cases hp : p a <;> simp [hp, ih, keep, pass]

end Sift

/-- The closure may change the elements it is shown, and exchange them, but as far as `f` tells
them apart it makes and destroys none. -/
def KeepsIds (f : α → ι) (same : σ → α → α → Option (Bool × σ) × α × α) : Prop :=
  ∀ st a b, [f (same st a b).2.1, f (same st a b).2.2].Perm [f a, f b]

section Dedup
variable {same : σ → α → α → Option (Bool × σ) × α × α} {f : α → ι}

theorem perm_of_pair {x y x' y' : ι} (h : [x', y'].Perm [x, y]) (l : List ι) : (x' :: y' :: l).Perm (y :: x :: l) :=
  (h.append_right l).trans (.swap _ _ _)

theorem dedup_ids (h : KeepsIds f same) (st : σ) (b : α) (as : List α) :
    (((dedup same st b as).kept ++ (dedup same st b as).rest).map f).Perm ((b :: as).map f) := by
  induction as generalizing st b with
  | nil => exact .refl _
  | cons a as ih =>
    have hab := h st a b
    rw [dedup]
    rcases hs : same st a b with ⟨_ | ⟨_ | _, st'⟩, a', b'⟩ <;> rw [hs] at hab
    · exact (List.Perm.swap _ _ _).trans (perm_of_pair hab (as.map f))
    · have hmove := ((ih st' a').cons (f b')).trans (.swap _ _ _)
      exact hmove.trans (perm_of_pair hab (as.map f))
    · simp only [pass, List.map_append, List.map_cons] at ih ⊢
      exact List.perm_middle.trans (((ih st' b').cons (f a')).trans (perm_of_pair hab (as.map f)))

theorem dedupAll_ids (h : KeepsIds f same) (st : σ) (as : List α) :
    (((dedupAll same st as).kept ++ (dedupAll same st as).rest).map f).Perm (as.map f) := by
  cases as with
  | nil => exact .refl _
  | cons b as => exact dedup_ids h st b as

end Dedup

section Compare
variable {p : α → α → Bool} {s : σ}

/-- A comparison that neither changes what it is shown nor panics. -/
theorem dedup_compare (b : α) (as : List α) :
    (dedup (fun st a b => (some (p a b, st), a, b)) s b as).kept = as.destutter' (fun b a => p a b = false) b ∧
      (dedup (fun st a b => (some (p a b, st), a, b)) s b as).state = some s := by
  induction as generalizing b with
  | nil => exact ⟨rfl, rfl⟩
  | cons a as ih =>
    rw [dedup, List.destutter'_cons]
    cases hp : p a b with
    | false => exact ⟨by simp [keep, ih a], (ih a).2⟩
    | true => exact ⟨by simp [pass, ih b], (ih b).2⟩

theorem dedupAll_compare (as : List α) :
    (dedupAll (fun st a b => (some (p a b, st), a, b)) s as).kept = as.destutter (fun b a => p a b = false) ∧
      (dedupAll (fun st a b => (some (p a b, st), a, b)) s as).state = some s := by
  cases as with
  | nil => exact ⟨rfl, rfl⟩
  | cons b as => exact dedup_compare b as

variable {κ : Type} [PartialOrder κ] [DecidableEq κ] {key : α → κ}

/-- In a sorted list equal keys are neighbours. -/
theorem destutter_sorted {as : List α} (h : as.Pairwise fun a b => key a ≤ key b) :
    as.destutter (fun b a => decide (key a = key b) = false) = as.eraseDupsBy fun a b => key a = key b := by
  have hfrom : ∀ (as : List α) (b : α), (b :: as).Pairwise (fun a b => key a ≤ key b) →
      as.destutter' (fun b a => decide (key a = key b) = false) b = (b :: as).eraseDupsBy fun a b => key a = key b := by
    intro as
    induction as with
    | nil => exact fun b _ => by simp [List.eraseDupsBy_cons]
    | cons a as ih =>
      intro b hb
      obtain ⟨hle, ha⟩ := List.pairwise_cons.mp hb
      rw [List.eraseDupsBy_cons, List.destutter'_cons]
      by_cases he : key a = key b
      · have hskip := ih b (List.pairwise_cons.mpr ⟨fun c hc => hle c (List.mem_cons_of_mem _ hc), (List.pairwise_cons.mp ha).2⟩)
        rw [List.eraseDupsBy_cons] at hskip
        simpa [he] using hskip
      · -- the keys from `a` on are all greater than that of `b`
        have hne : ∀ c ∈ a :: as, ¬ key c = key b := fun c hc hcb => by
          have hac : key a ≤ key c := by
            rcases List.mem_cons.mp hc with rfl | hc
            · exact le_rfl
            · exact (List.pairwise_cons.mp ha).1 c hc
          exact he (le_antisymm (hac.trans hcb.le) (hle a List.mem_cons_self))
        have hall : (a :: as).filter (fun c => decide (decide (key c = key b) = false)) = a :: as :=
          List.filter_eq_self.mpr fun c hc => by simpa using hne c hc
        rw [hall, ← ih a ha]
        simp [he]
  cases as with
  | nil => rfl
  | cons b as => exact hfrom as b h

end Compare

/-- Exchanging the first of the rejected elements with the next one to look at. -/
theorem exchange (K J R : List α) (j x : α) :
    ((K ++ j :: (J ++ x :: R)).set K.length x).set (K.length + (J.length + 1)) j = K ++ x :: (J ++ j :: R) := by
  simp

end Parted
