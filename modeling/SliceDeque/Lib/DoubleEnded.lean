import Mathlib.Data.List.Basic
import SliceDeque.Lib.Runs

/-!
# Double-ended iterators

An iterator shows the list of the items it still holds and yields them from
both ends. `pull` is the step of the list; a program whose steps agree with
`pull` agrees with it over every interleaving of its two ends.
-/

set_option autoImplicit false

inductive End where
  | front
  | back
  deriving DecidableEq, Repr

namespace End
variable {α ε σ : Type}

/-- Take one item from an end of a list. -/
def pull : End → List α → Option α × List α
  | front, l => (l.head?, l.tail)
  | back, l => (l.getLast?, l.dropLast)

/-- The items that the calls at one of the ends returned. -/
def yielded (e : End) : List End → List (Option α) → List α
  | op :: ops, r :: rs => if op = e then r.toList ++ yielded e ops rs else yielded e ops rs
  | _, _ => []

theorem pull_front (l : List α) : (pull front l).1.toList ++ (pull front l).2 = l := by
  cases l <;> rfl

theorem pull_back (l : List α) : (pull back l).2 ++ (pull back l).1.toList = l := by
  cases h : l.getLast? with
  | none => simp [pull, List.getLast?_eq_none_iff.mp h]
  | some a => simpa [pull, h] using List.dropLast_append_getLast? a h

/-- What was taken from the front, what remains, and what was taken from the back in the order of
the list make up the list. -/
theorem yielded_append (ops : List End) (l : List α) :
    yielded front ops (Exec.specResults pull ops l) ++ Exec.specFinal pull ops l ++
      (yielded back ops (Exec.specResults pull ops l)).reverse = l := by
  induction ops generalizing l with
  | nil => simp [yielded, Exec.specFinal]
  | cons op ops ih =>
    have ih := ih (pull op l).2
    cases op with
    | front =>
      have hl := pull_front l
      simp only [yielded, Exec.specResults, Exec.specFinal, if_true, reduceCtorEq, if_false, List.append_assoc] at ih ⊢
      rw [ih, hl]
    | back =>
      have hl := pull_back l
      have hrev : (pull back l).1.toList.reverse = (pull back l).1.toList := by
        cases (pull back l).1 <;> rfl
      simp only [yielded, Exec.specResults, Exec.specFinal, if_true, reduceCtorEq, if_false, List.reverse_append,
        hrev, ← List.append_assoc] at ih ⊢
      rw [ih, hl]

variable {step : End → Exec ε σ (Option α)} {I : σ → Prop} {vals : σ → List α}

/-- A program whose steps take items from the ends of a list does so in every run. -/
theorem run_pull (hstep : ∀ e s, I s → Exec.Ends (step e) s fun r s' =>
      r = (pull e (vals s)).1 ∧ I s' ∧ vals s' = (pull e (vals s)).2) (ops : List End) (s : σ) (h : I s) :
    Exec.results step ops s = (Exec.specResults pull ops (vals s)).map .ok ∧
    Exec.Always step (fun e s => Exec.Exact (step e) s) ops s ∧
    I (Exec.final step ops s) ∧ vals (Exec.final step ops s) = Exec.specFinal pull ops (vals s) := by
  have hall : Exec.Always step (fun _ _ => True) ops s := Exec.always_of_forall (fun _ _ => trivial) ops s
  have hsim : List.Forall₂ (fun r b => r = .ok b) (Exec.results step ops s) (Exec.specResults pull ops (vals s)) ∧
      I (Exec.final step ops s) ∧ vals (Exec.final step ops s) = Exec.specFinal pull ops (vals s) := by
    apply Exec.simulation (R := fun s l => I s ∧ vals s = l) (P := fun _ _ => True) _ ops s (vals s) ⟨h, rfl⟩ hall
    rintro e s _ ⟨h, rfl⟩ _
    obtain ⟨a, s', hs, rfl, hI, hv⟩ := hstep e s h
    rw [hs]
    exact ⟨rfl, hI, hv⟩
  obtain ⟨hres, hI, hvals⟩ := hsim
  refine ⟨Exec.results_eq_map hres, Exec.always_of_invariant (I := I) (P := fun _ _ => True) ?_ ?_ ops s h hall, hI, hvals⟩
  · intro e s h _
    obtain ⟨a, s', hs, -, hI, -⟩ := hstep e s h
    rwa [hs]
  · exact fun e s h _ => (Exec.ends_iff.mp (hstep e s h)).1

end End
