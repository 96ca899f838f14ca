import SliceDeque.Lib.DoubleEnded
import SliceDeque.Bulk

/-!
# What the iterators have in common

An iterator shows a list of items and takes them from its ends one by one. The
loop `for _ in iter {}`, with which iterators are dropped, destroys them in
order and stops at the first destructor that panics.
-/

set_option autoImplicit false

namespace Sdeq
open Exec SliceDeque

/-- The items an iterator still holds, and what its calls never change. -/
structure View (X T ρ : Type) where
  ok : X → Prop
  items : X → List T
  fixed : X → ρ

section
variable {X T β : Type} (E : Env T β) (next : Method T X (Option T))

/-- `for _ in iter {}`, with at most so many items to go -/
def exhaust : Nat → Method T X Unit
  | 0 => pure ()
  | todo + 1 => do
    let r ← next
    match r with
    | none => pure ()
    | some v => do
      dropValue E v
      exhaust todo

end

namespace View
variable {X T β ρ : Type} {E : Env T β} {V : View X T ρ} {s s' s₁ : Frame X T} {l : List T} {k : Nat}

/-- Items were taken, and those in `l` are left. -/
structure Taken (V : View X T ρ) (s s' : Frame X T) (l : List T) : Prop where
  ok : V.ok s'.self
  items_eq : V.items s'.self = l
  fixed_eq : V.fixed s'.self = V.fixed s.self
  world_eq : s'.world = s.world

/-- The first `k` items were destroyed. -/
structure Reduced (V : View X T ρ) (s s' : Frame X T) (k : Nat) : Prop where
  ok : V.ok s'.self
  items_eq : V.items s'.self = (V.items s.self).drop k
  fixed_eq : V.fixed s'.self = V.fixed s.self
  world_eq : s'.world = s.world.destroy ((V.items s.self).take k)

theorem Reduced.refl (h : V.ok s.self) : V.Reduced s s 0 := ⟨h, rfl, rfl, by simp⟩

theorem Reduced.all (h : V.Reduced s s' k) (hk : (V.items s.self).length = k) :
    V.items s'.self = [] ∧ s'.world = s.world.destroy (V.items s.self) := by
  rw [h.items_eq, h.world_eq, List.drop_of_length_le hk.le, List.take_of_length_le hk.le]
  exact ⟨rfl, rfl⟩

theorem Taken.reduced {v : T} (hl : V.items s.self = v :: l) (ht : V.Taken s s₁ l)
    (h : V.Reduced ⟨s₁.self, s₁.world.destroy [v]⟩ s' k) : V.Reduced s s' (k + 1) := by
  refine ⟨h.ok, ?_, h.fixed_eq.trans ht.fixed_eq, ?_⟩
  · rw [h.items_eq, hl, List.drop_succ_cons]
    exact congrArg _ ht.items_eq
  · rw [h.world_eq, World.destroy_cons, ht.world_eq, hl, List.take_succ_cons]
    exact congrArg (fun l => s.world.destroy (v :: List.take k l)) ht.items_eq

section Next
variable {next : Method T X (Option T)}

theorem exact_exhaust (hnext : ∀ s, Exact next s) {n : Nat} : Exact (exhaust E next n) s := by
  induction n generalizing s with
  | zero => exact exact_pure
  | succ n ih =>
    apply exact_bind (hnext s)
    intro r s'
    cases r with
    | none => exact exact_pure
    | some v => exact exact_bind exact_dropValue fun _ _ => ih

/-- The loop destroys the items in order; a panic keeps those behind the last one. -/
theorem wp_exhaust (hnext : ∀ s, V.ok s.self → wp next s (fun r s' => r = (V.items s.self).head? ∧
      V.Taken s s' (V.items s.self).tail) fun _ _ => False) :
    ∀ (n : Nat) (s : Frame X T), V.ok s.self → (V.items s.self).length = n →
    wp (exhaust E next n) s (fun _ s' => V.Reduced s s' n)
      (fun p s' => p = .destructor ∧ DestructorsPanic E ∧ ∃ k, V.Reduced s s' k) := by
  intro n
  induction n with
  | zero => exact fun s h _ => wp_pure.mpr (.refl h)
  | succ n ih =>
    intro s h hn
    rw [exhaust, wp_bind]
    refine wp_mono (hnext s h) ?_ fun _ _ => False.elim
    rintro r s₁ ⟨hr, ht⟩
    cases hl : V.items s.self with
    | nil => simp [hl] at hn
    | cons v rest =>
      rw [hl] at hr ht hn
      subst hr
      have hn₁ : (V.items s₁.self).length = n := by
        rw [ht.items_eq]
        exact Nat.succ.inj hn
      rw [List.head?_cons]
      refine wp_bind.mpr (wp_dropValue ?_ fun hp => ⟨rfl, ⟨_, _, hp⟩, 1, ht.reduced hl (.refl ht.ok)⟩)
      refine wp_mono (ih ⟨s₁.self, s₁.world.destroy [v]⟩ ht.ok hn₁) (fun _ s' h' => ht.reduced hl h') ?_
      rintro p s' ⟨hp, hd, k, h'⟩
      exact ⟨hp, hd, k + 1, ht.reduced hl h'⟩

end Next

/-- Taking items from the ends, in any order, is taking them from the ends of the list. -/
theorem run_pull {pull : End → Method T X (Option T)}
    (hpull : ∀ e s, V.ok s.self → Ends (pull e) s fun r s' =>
      r = (e.pull (V.items s.self)).1 ∧ V.Taken s s' (e.pull (V.items s.self)).2) (ops : List End) (h : V.ok s.self) :
    results pull ops s = (specResults End.pull ops (V.items s.self)).map .ok ∧
    Always pull (fun e s => Exact (pull e) s) ops s ∧
    V.Taken s (final pull ops s) (specFinal End.pull ops (V.items s.self)) := by
  have hstep : ∀ e t, (V.ok t.self ∧ V.fixed t.self = V.fixed s.self ∧ t.world = s.world) →
      Ends (pull e) t fun r t' => r = (e.pull (V.items t.self)).1 ∧
        (V.ok t'.self ∧ V.fixed t'.self = V.fixed s.self ∧ t'.world = s.world) ∧
        V.items t'.self = (e.pull (V.items t.self)).2 := by
    rintro e t ⟨hok, hfixed, hworld⟩
    refine ends_mono (hpull e t hok) ?_
    rintro r t' ⟨hr, ht⟩
    exact ⟨hr, ⟨ht.ok, ht.fixed_eq.trans hfixed, ht.world_eq.trans hworld⟩, ht.items_eq⟩
  obtain ⟨hres, hexact, ⟨hok, hfixed, hworld⟩, hitems⟩ := End.run_pull hstep ops s ⟨h, rfl, rfl⟩
  exact ⟨hres, hexact, hok, hitems, hfixed, hworld⟩

end View

end Sdeq
