import Mathlib.Algebra.Order.Group.Multiset
import Mathlib.Tactic.Abel

/-!
# Books of a resource

Every unit that was gained is spent or owned. A step moves the books when what
it gained and what was owned before is what it spent and what is owned
afterwards, so steps compose and leave owners they do not mention alone.
-/

set_option autoImplicit false

/-- What was gained and what was spent so far. -/
structure Books (ι : Type) where
  gained : Multiset ι
  spent : Multiset ι

namespace Books
variable {ι : Type} {a b c : Books ι} {o o' o'' x : Multiset ι}

/-- The books balance when `o` is what is owned. -/
def Balanced (a : Books ι) (o : Multiset ι) : Prop := a.gained = a.spent + o

/-- A step from books `a` with property `o` to books `b` with property `o'`: what was gained on the
way and what was owned is what was spent on the way and what is owned. -/
def Moves (a : Books ι) (o : Multiset ι) (b : Books ι) (o' : Multiset ι) : Prop :=
  b.gained + a.spent + o = a.gained + b.spent + o'

theorem Moves.refl (a : Books ι) (o : Multiset ι) : Moves a o a o := rfl

theorem Moves.trans (h : Moves a o b o') (h' : Moves b o' c o'') : Moves a o c o'' := by
  unfold Moves at *
  refine add_right_cancel (b := b.gained + b.spent + o') ?_
  calc c.gained + a.spent + o + (b.gained + b.spent + o')
      = (b.gained + a.spent + o) + (c.gained + b.spent + o') := by abel
    _ = (a.gained + b.spent + o') + (b.gained + c.spent + o'') := by rw [h, h']
    _ = a.gained + c.spent + o'' + (b.gained + b.spent + o') := by abel

theorem Moves.frame (h : Moves a o b o') (x : Multiset ι) : Moves a (o + x) b (o' + x) := by
  unfold Moves at *
  rw [← add_assoc, h, add_assoc]

theorem Moves.frame_left (h : Moves a o b o') (x : Multiset ι) : Moves a (x + o) b (x + o') := by
  simpa only [add_comm x] using h.frame x

/-- A larger property in which the owned part was exchanged. -/
theorem Moves.replace {t t' : Multiset ι} (h : Moves a o b o') (ht : t' + o = t + o') : Moves a t b t' := by
  unfold Moves at *
  refine add_right_cancel (b := o) ?_
  calc b.gained + a.spent + t + o = b.gained + a.spent + o + t := add_right_comm _ _ _
    _ = a.gained + b.spent + (t + o') := by rw [h, add_assoc, add_comm o']
    _ = a.gained + b.spent + t' + o := by rw [← ht, ← add_assoc]

theorem Moves.balanced (h : Moves a o b o') (ha : a.Balanced o) : b.Balanced o' := by
  unfold Moves Balanced at *
  rw [ha] at h
  refine add_right_cancel (b := a.spent + o) ?_
  calc b.gained + (a.spent + o) = b.gained + a.spent + o := by abel
    _ = a.spent + o + b.spent + o' := h
    _ = b.spent + o' + (a.spent + o) := by abel

theorem Moves.gain (a : Books ι) (o x : Multiset ι) : Moves a o ⟨a.gained + x, a.spent⟩ (o + x) := by
  simp only [Moves]
  abel

theorem Moves.spend (a : Books ι) (o x : Multiset ι) : Moves a (o + x) ⟨a.gained, a.spent + x⟩ o := by
  simp only [Moves]
  abel

/-- In balanced books no unit is spent more often than it was gained. -/
theorem Balanced.spent_le (h : a.Balanced o) : a.spent ≤ a.gained := by
  rw [h]
  exact Multiset.le_add_right _ _

theorem Balanced.settled (h : a.Balanced 0) : a.spent = a.gained := by
  simpa [Balanced] using h.symm

end Books
