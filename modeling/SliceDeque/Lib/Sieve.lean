import Mathlib.Data.List.Basic
import Mathlib.Data.Multiset.Basic
import Mathlib.Tactic.Common

/-!
# Sieving a list in place

A predicate looks at the elements of a list in order. It may answer from all
it has seen before, change the element it is shown, and panic. The accepted
elements are handed out one by one, the rejected ones are moved together at
the front. Between the two parts there are slots whose values were moved.
-/

set_option autoImplicit false

/-- The state of a sieve: the rejected elements, the vacated slots, the elements to go, and what the
predicate was shown. -/
structure Sieve (T : Type) where
  kept : List T
  junk : List T
  rest : List T
  seen : List T

namespace Sieve
variable {T ι : Type} (pred : List T → T → Option Bool × T)

/-- The elements that the predicate accepts, as it leaves them. -/
def accepted : (seen rest : List T) → List T
  | _, [] => []
  | seen, v :: rest =>
    if (pred seen v).1 = some true then (pred seen v).2 :: accepted (seen ++ [v]) rest
    else accepted (seen ++ [v]) rest

def rejected : (seen rest : List T) → List T
  | _, [] => []
  | seen, v :: rest =>
    if (pred seen v).1 = some true then rejected (seen ++ [v]) rest
    else (pred seen v).2 :: rejected (seen ++ [v]) rest

/-- The predicate does not panic. -/
def Calm : (seen rest : List T) → Prop
  | _, [] => True
  | seen, v :: rest => (pred seen v).1 ≠ none ∧ Calm (seen ++ [v]) rest

instance decidableCalm : ∀ seen rest : List T, Decidable (Calm pred seen rest)
  | _, [] => isTrue trivial
  | seen, v :: rest =>
    have : Decidable (Calm pred (seen ++ [v]) rest) := decidableCalm (seen ++ [v]) rest
    inferInstanceAs (Decidable ((pred seen v).1 ≠ none ∧ Calm pred (seen ++ [v]) rest))

/-- An element that stays where the next kept one belongs, and the slots behind it. -/
def stay (kept junk : List T) (v : T) (rest seen : List T) : Sieve T :=
  ⟨kept ++ (junk ++ [v]).take 1, (junk ++ [v]).drop 1, rest, seen⟩

/-- Look for the next accepted element; `none` is a panic. -/
def nextFrom : (kept junk seen rest : List T) → Option (Option T) × Sieve T
  | kept, junk, seen, [] => (some none, ⟨kept, junk, [], seen⟩)
  | kept, junk, seen, v :: rest =>
    let answer := pred seen v
    match answer.1 with
    | none => (none, stay kept junk answer.2 rest (seen ++ [v]))
    | some true => (some (some answer.2), ⟨kept, junk ++ [answer.2], rest, seen ++ [v]⟩)
    | some false => nextFrom (kept ++ [answer.2]) ((junk ++ [answer.2]).drop 1) (seen ++ [v]) rest

def next (S : Sieve T) : Option (Option T) × Sieve T := nextFrom pred S.kept S.junk S.seen S.rest

/-- Ask so many times; the answer tells whether there was no panic. -/
def take : Nat → List T → Sieve T → Bool × List T × Sieve T
  | 0, out, S => (true, out, S)
  | k + 1, out, S =>
    match (next pred S).1 with
    | none => (false, out, (next pred S).2)
    | some r => take k (out ++ r.toList) (next pred S).2

variable {pred}

theorem accepted_append (seen A B : List T) :
    accepted pred seen (A ++ B) = accepted pred seen A ++ accepted pred (seen ++ A) B := by
  induction A generalizing seen with
  | nil => simp [accepted]
  | cons v A ih =>
    rw [List.cons_append, accepted, accepted, ih]
    split <;> simp

theorem length_accepted_le (seen rest : List T) : (accepted pred seen rest).length ≤ rest.length := by
  induction rest generalizing seen with
  | nil => exact le_rfl
  | cons v rest ih =>
    rw [accepted]
    split
    · exact Nat.succ_le_succ (ih _)
    · exact Nat.le_succ_of_le (ih _)

theorem rejected_append (seen A B : List T) :
    rejected pred seen (A ++ B) = rejected pred seen A ++ rejected pred (seen ++ A) B := by
  induction A generalizing seen with
  | nil => simp [rejected]
  | cons v A ih =>
    rw [List.cons_append, rejected, rejected, ih]
    split <;> simp

theorem Calm.of_forall (h : ∀ seen v, (pred seen v).1 ≠ none) (seen rest : List T) : Calm pred seen rest := by
  induction rest generalizing seen with
  | nil => trivial
  | cons v rest ih => exact ⟨h seen v, ih _⟩

theorem calm_append {seen A B : List T} :
    Calm pred seen (A ++ B) ↔ Calm pred seen A ∧ Calm pred (seen ++ A) B := by
  induction A generalizing seen with
  | nil => simp [Calm]
  | cons v A ih => simp [Calm, ih, and_assoc]

/-! ## One call -/

section Cases
variable {kept junk rest seen : List T} {v v' : T}

theorem next_panic (h : pred seen v = (none, v')) :
    next pred ⟨kept, junk, v :: rest, seen⟩ = (none, stay kept junk v' rest (seen ++ [v])) := by
  simp only [next, nextFrom, h]

theorem next_accept (h : pred seen v = (some true, v')) :
    next pred ⟨kept, junk, v :: rest, seen⟩ = (some (some v'), ⟨kept, junk ++ [v'], rest, seen ++ [v]⟩) := by
  simp only [next, nextFrom, h]

theorem next_reject (h : pred seen v = (some false, v')) :
    next pred ⟨kept, junk, v :: rest, seen⟩ = next pred ⟨kept ++ [v'], (junk ++ [v']).drop 1, rest, seen ++ [v]⟩ := by
  simp only [next, nextFrom, h]

end Cases

/-- One call looks at some elements that are rejected, and then it ends, or accepts an element, or
panics at one. -/
inductive Looked (pred : List T → T → Option Bool × T) (kept seen rest : List T) (S : Sieve T) : Option (Option T) → Prop
  | ended (hc : Calm pred seen rest) (ha : accepted pred seen rest = []) (hk : S.kept = kept ++ rejected pred seen rest)
      (hr : S.rest = []) (hseen : S.seen = seen ++ rest) : Looked pred kept seen rest S (some none)
  | found {A : List T} {v x : T} (hs : rest = A ++ v :: S.rest) (hc : Calm pred seen A) (ha : accepted pred seen A = [])
      (hv : pred (seen ++ A) v = (some true, x)) (hk : S.kept = kept ++ rejected pred seen A)
      (hseen : S.seen = seen ++ A ++ [v]) : Looked pred kept seen rest S (some (some x))
  | panicked {A : List T} {v : T} (hs : rest = A ++ v :: S.rest) (hc : Calm pred seen A) (ha : accepted pred seen A = [])
      (hv : (pred (seen ++ A) v).1 = none) (hseen : S.seen = seen ++ A ++ [v]) : Looked pred kept seen rest S none

theorem nextFrom_looked (kept junk seen rest : List T) :
    Looked pred kept seen rest (nextFrom pred kept junk seen rest).2 (nextFrom pred kept junk seen rest).1 := by
  induction rest generalizing kept junk seen with
  | nil => exact .ended trivial rfl (List.append_nil _).symm rfl (List.append_nil _).symm
  | cons v rest ih =>
    rw [nextFrom]
    rcases hp : pred seen v with ⟨_ | _ | _, v'⟩
    · exact .panicked (A := []) rfl trivial rfl (by simp [hp]) (by simp [stay])
    · have hih := ih (kept ++ [v']) ((junk ++ [v']).drop 1) (seen ++ [v])
      have hne : (pred seen v).1 ≠ none := by simp [hp]
      have hskip : ∀ A, accepted pred (seen ++ [v]) A = [] → accepted pred seen (v :: A) = [] := by
        intro A hA
        rw [accepted, if_neg (by simp [hp]), hA]
      have hkeep : ∀ A, rejected pred seen (v :: A) = v' :: rejected pred (seen ++ [v]) A := by
        intro A
        rw [rejected, if_neg (by simp [hp]), hp]
      generalize nextFrom pred (kept ++ [v']) ((junk ++ [v']).drop 1) (seen ++ [v]) rest = o at hih
      obtain ⟨r, S⟩ := o
      cases hih with
      | ended hc ha hk hr hseen =>
        exact .ended ⟨hne, hc⟩ (hskip rest ha) (by simpa [hkeep] using hk) hr (by simpa using hseen)
      | @found A w x hs hc ha hv hk hseen =>
        have hs : rest = A ++ w :: S.rest := hs
        exact .found (A := v :: A) (by rw [hs]; rfl) ⟨hne, hc⟩ (hskip A ha) (by simpa using hv)
          (by simpa [hkeep] using hk) (by simpa using hseen)
      | @panicked A w hs hc ha hv hseen =>
        have hs : rest = A ++ w :: S.rest := hs
        exact .panicked (A := v :: A) (by rw [hs]; rfl) ⟨hne, hc⟩ (hskip A ha) (by simpa using hv) (by simpa using hseen)
    · exact .found (A := []) rfl trivial rfl (by simp [hp]) (List.append_nil _).symm (by simp)

theorem next_looked {S S' : Sieve T} {r : Option (Option T)} (h : next pred S = (r, S')) :
    Looked pred S.kept S.seen S.rest S' r := by
  have hl : Looked pred S.kept S.seen S.rest (next pred S).2 (next pred S).1 :=
    nextFrom_looked S.kept S.junk S.seen S.rest
  rw [h] at hl
  exact hl

section Found
variable {seen A : List T} {v x : T} (hv : pred (seen ++ A) v = (some true, x))
include hv

theorem accepted_found (ha : accepted pred seen A = []) (B : List T) :
    accepted pred seen (A ++ v :: B) = x :: accepted pred (seen ++ A ++ [v]) B := by
  rw [accepted_append, ha, accepted, if_pos (by rw [hv]), hv, List.nil_append]

theorem rejected_found (B : List T) :
    rejected pred seen (A ++ v :: B) = rejected pred seen A ++ rejected pred (seen ++ A ++ [v]) B := by
  rw [rejected_append, rejected, if_pos (by rw [hv])]

theorem calm_found {B : List T} (hc : Calm pred seen A) :
    Calm pred seen (A ++ v :: B) ↔ Calm pred (seen ++ A ++ [v]) B := by
  rw [calm_append, Calm, hv]
  simp [hc]

end Found

/-- What is to come behind an accepted element. -/
structure Found (pred : List T → T → Option Bool × T) (S S' : Sieve T) (x : T) : Prop where
  accepted_eq : accepted pred S.seen S.rest = x :: accepted pred S'.seen S'.rest
  kept_eq : S'.kept ++ rejected pred S'.seen S'.rest = S.kept ++ rejected pred S.seen S.rest
  calm_iff : Calm pred S.seen S.rest ↔ Calm pred S'.seen S'.rest
  seen_eq : S'.seen ++ S'.rest = S.seen ++ S.rest
  lt : S'.rest.length < S.rest.length

theorem found_of_next {S S' : Sieve T} {x : T} (h : next pred S = (some (some x), S')) : Found pred S S' x := by
  cases next_looked h with
  | @found A v x hs hc ha hv hk hseen =>
    have hitems := accepted_found hv ha S'.rest
    have hkeep := rejected_found hv S'.rest
    have hcalm := calm_found (B := S'.rest) hv hc
    rw [← hs, ← hseen] at hitems hkeep hcalm
    refine ⟨hitems, ?_, hcalm, ?_, ?_⟩
    · rw [hkeep, hk, List.append_assoc]
    · rw [hseen, hs]
      simp
    · rw [hs, List.length_append, List.length_cons]
      omega

theorem not_calm_of_next {S S' : Sieve T} (h : next pred S = (none, S')) : ¬ Calm pred S.seen S.rest := by
  cases next_looked h with
  | panicked hs hc ha hv hseen =>
    rw [hs, calm_append]
    exact fun hc => hc.2.1 hv

/-! ## Without a panic -/

theorem next_calm {S : Sieve T} (hc : Calm pred S.seen S.rest) :
    let o := next pred S
    o.1 = some (accepted pred S.seen S.rest).head? ∧ Calm pred o.2.seen o.2.rest ∧
    accepted pred o.2.seen o.2.rest = (accepted pred S.seen S.rest).tail ∧
    o.2.kept ++ rejected pred o.2.seen o.2.rest = S.kept ++ rejected pred S.seen S.rest ∧
    o.2.seen ++ o.2.rest = S.seen ++ S.rest := by
  intro o
  rcases hn : next pred S with ⟨_ | _ | x, S'⟩ <;> have ho : o = _ := hn <;> rw [ho]
  · exact absurd hc (not_calm_of_next hn)
  · cases next_looked hn with
    | ended hc' ha hk hr hseen => simp [hr, ha, hk, hseen, Calm, accepted, rejected]
  · have hf := found_of_next hn
    rw [hf.accepted_eq]
    exact ⟨rfl, hf.calm_iff.mp hc, rfl, hf.kept_eq, hf.seen_eq⟩

/-- The items come in order, and nothing else changes what is still to come. -/
theorem take_calm (k : Nat) (out : List T) (S : Sieve T) (hc : Calm pred S.seen S.rest) :
    let o := take pred k out S
    o.1 = true ∧ o.2.1 = out ++ (accepted pred S.seen S.rest).take k ∧ Calm pred o.2.2.seen o.2.2.rest ∧
    accepted pred o.2.2.seen o.2.2.rest = (accepted pred S.seen S.rest).drop k ∧
    o.2.2.kept ++ rejected pred o.2.2.seen o.2.2.rest = S.kept ++ rejected pred S.seen S.rest ∧
    o.2.2.seen ++ o.2.2.rest = S.seen ++ S.rest := by
  induction k generalizing out S with
  | zero => exact ⟨rfl, by simp [take], hc, rfl, rfl, rfl⟩
  | succ k ih =>
    obtain ⟨hr, hc', ha, hk, hs⟩ := next_calm hc
    rw [take, hr]
    obtain ⟨h1, h2, h3, h4, h5, h6⟩ := ih (out ++ (accepted pred S.seen S.rest).head?.toList) (next pred S).2 hc'
    refine ⟨h1, ?_, h3, ?_, h5.trans hk, h6.trans hs⟩
    · rw [h2, ha]
      cases accepted pred S.seen S.rest <;> simp
    · rw [h4, ha, List.drop_tail]

/-! ## The first panic -/

/-- The first panic is at `v`, behind the elements `A`. -/
structure PanicsAt (pred : List T → T → Option Bool × T) (seen rest A : List T) (v : T) (R : List T) : Prop where
  split : rest = A ++ v :: R
  calm : Calm pred seen A
  panic : (pred (seen ++ A) v).1 = none

/-- It is behind every part without a panic. -/
theorem PanicsAt.skip {seen rest A R : List T} {v : T} (B : List T) (hp : PanicsAt pred seen (B ++ rest) A v R)
    (hc : Calm pred seen B) : ∃ A', A = B ++ A' ∧ PanicsAt pred (seen ++ B) rest A' v R := by
  induction B generalizing seen A with
  | nil => exact ⟨A, rfl, by simpa using hp⟩
  | cons b B ih =>
    obtain ⟨hs, hcalm, hv⟩ := hp
    cases A with
    | nil =>
      obtain ⟨rfl, -⟩ := List.cons.inj hs
      rw [List.append_nil] at hv
      exact absurd hv hc.1
    | cons a A =>
      obtain ⟨rfl, htail⟩ := List.cons.inj hs
      obtain ⟨A', rfl, hp'⟩ := ih (A := A) ⟨htail, hcalm.2, by simpa using hv⟩ hc.2
      exact ⟨A', rfl, by simpa using hp'⟩

theorem PanicsAt.not_calm {seen rest A R : List T} {v : T} (hp : PanicsAt pred seen rest A v R) : ¬ Calm pred seen rest := by
  intro hc
  have hp' : PanicsAt pred seen (rest ++ []) A v R := by rwa [List.append_nil]
  obtain ⟨A', -, hs, -⟩ := hp'.skip rest hc
  simp at hs

theorem PanicsAt.unique {seen rest A A' R R' : List T} {v v' : T} (h : PanicsAt pred seen rest A v R)
    (h' : PanicsAt pred seen rest A' v' R') : A = A' ∧ v = v' ∧ R = R' := by
  have hp := h'
  rw [h.split] at hp
  obtain ⟨B, hB, hsplit, hcalm, -⟩ := hp.skip A h.calm
  cases B with
  | nil =>
    obtain ⟨hv, hR⟩ := List.cons.inj hsplit
    exact ⟨by rw [hB, List.append_nil], hv, hR⟩
  | cons b B =>
    obtain ⟨rfl, -⟩ := List.cons.inj hsplit
    exact absurd h.panic hcalm.1

theorem le_of_take (k : Nat) (out : List T) (S : Sieve T) (h : (take pred k out S).1 = true) {A R : List T} {v : T}
    (hp : PanicsAt pred S.seen S.rest A v R) : k ≤ (accepted pred S.seen A).length := by
  induction k generalizing out S A with
  | zero => exact Nat.zero_le _
  | succ k ih =>
    rcases hn : next pred S with ⟨r, S'⟩
    rw [take, hn] at h
    cases next_looked hn with
    | ended hc ha hk hr hseen => exact absurd hc hp.not_calm
    | @found B w x hs hc ha hv hk hseen =>
      have hone : Calm pred S.seen (B ++ [w]) := (calm_found hv hc).mpr trivial
      rw [hs, List.append_cons] at hp
      obtain ⟨A', rfl, hp'⟩ := hp.skip _ hone
      have hle := ih _ S' h (A := A') (by rw [hseen]; simpa using hp')
      rw [← List.append_cons, accepted_found hv ha, ← hseen, List.length_cons]
      exact Nat.succ_le_succ hle
    | panicked hs hc ha hv hseen => cases h

/-- A panic ends the asking at the first panic, with the elements accepted before it. -/
theorem panicsAt_of_take (k : Nat) (out : List T) (S : Sieve T) (h : (take pred k out S).1 = false) :
    ∃ A v, PanicsAt pred S.seen S.rest A v (take pred k out S).2.2.rest ∧ (accepted pred S.seen A).length < k ∧
      (take pred k out S).2.1 = out ++ accepted pred S.seen A ∧ (take pred k out S).2.2.seen = S.seen ++ A ++ [v] := by
  induction k generalizing out S with
  | zero => cases h
  | succ k ih =>
    rcases hn : next pred S with ⟨r, S'⟩
    rw [take, hn] at h ⊢
    cases next_looked hn with
    | ended hc ha hk hr hseen =>
      obtain ⟨A, v, hp, -⟩ := ih _ S' h
      rw [hr] at hp
      have hs := hp.split
      simp at hs
    | @found B w x hs hc ha hv hk hseen =>
      obtain ⟨A, v, hp, hlt, hout, hend⟩ := ih _ S' h
      have hall := accepted_found hv ha A
      rw [← hseen] at hall
      rw [hseen] at hp hend
      refine ⟨B ++ w :: A, v, ⟨?_, (calm_found hv hc).mpr hp.calm, ?_⟩, ?_, ?_, ?_⟩
      · rw [hs, hp.split]
        simp
      · simpa using hp.panic
      · rw [hall, List.length_cons]
        exact Nat.succ_lt_succ hlt
      · rw [hout, hall]
        simp
      · simpa using hend
    | @panicked B w hs hc ha hv hseen =>
      refine ⟨B, w, ⟨hs, hc, hv⟩, ?_, ?_, hseen⟩
      · rw [ha]
        exact Nat.succ_pos k
      · rw [ha, List.append_nil]

/-! ## Identities

The predicate may change an element, but not what `f` tells about it. -/

variable {f : T → ι} {l : List ι} {out : List T} {S : Sieve T}

/-- Every element was handed out or kept, or is to come. The vacated slots show elements that are somewhere else. -/
structure Whole (f : T → ι) (l : List ι) (out : List T) (S : Sieve T) : Prop where
  perm : ((out ++ S.kept ++ S.rest).map f).Perm l
  junk_len : S.junk.length = out.length
  stale : ∀ j ∈ S.junk, f j ∈ (out ++ S.kept).map f

/-- After a panic an element is lost or doubled if one was handed out before. -/
def Torn (f : T → ι) (l : List ι) (out : List T) (S : Sieve T) : Prop :=
  (out = [] → Whole f l out S) ∧ (out ≠ [] → ¬ ((out ++ S.kept).map f).Nodup)

section Steps
variable {kept junk rest seen seen' : List T} {v v' : T} (hw : Whole f l out ⟨kept, junk, v :: rest, seen⟩) (hv : f v' = f v)
include hw hv

theorem Whole.keep : Whole f l out ⟨kept ++ [v'], (junk ++ [v']).drop 1, rest, seen'⟩ := by
  obtain ⟨hp, hj, hs⟩ := hw
  apply Whole.mk
  · simpa [hv] using hp
  · simpa using hj
  · intro j hmem
    rcases List.mem_append.mp (List.mem_of_mem_drop hmem) with h | h
    · have hold := hs j h
      simp only [List.map_append, List.mem_append] at hold ⊢
      tauto
    · rw [List.mem_singleton.mp h]
      simp

theorem Whole.handOut : Whole f l (out ++ [v']) ⟨kept, junk ++ [v'], rest, seen'⟩ := by
  obtain ⟨hp, hj, hs⟩ := hw
  apply Whole.mk
  · have hmove : (out ++ [v'] ++ kept ++ rest).Perm (out ++ kept ++ v' :: rest) := by
      rw [List.append_assoc, List.append_assoc, List.append_assoc, List.singleton_append]
      exact List.perm_middle.symm.append_left out
    have hsame : (out ++ kept ++ v' :: rest).map f = (out ++ kept ++ v :: rest).map f := by simp [hv]
    rw [← hsame] at hp
    exact (hmove.map f).trans hp
  · simpa using hj
  · intro j hmem
    rcases List.mem_append.mp hmem with h | h
    · have hold := hs j h
      simp only [List.map_append, List.mem_append] at hold ⊢
      tauto
    · rw [List.mem_singleton.mp h]
      simp

theorem Whole.torn : Torn f l out (stay kept junk v' rest seen') := by
  apply And.intro
  · intro hout
    have hj := hw.junk_len
    rw [hout] at hj
    have hnil : junk = [] := List.eq_nil_of_length_eq_zero hj
    have hkeep : Whole f l out ⟨kept ++ [v'], (junk ++ [v']).drop 1, rest, seen'⟩ := hw.keep hv
    rw [hnil] at hkeep
    rw [stay, hnil]
    exact hkeep
  · intro hout hnodup
    obtain ⟨-, hj, hs⟩ := hw
    cases junk with
    | nil => exact hout (List.eq_nil_of_length_eq_zero hj.symm)
    | cons j junk =>
      have hstale := hs j (List.mem_cons_self ..)
      rw [stay, ← List.append_assoc, List.map_append, List.nodup_append] at hnodup
      exact hnodup.2.2 _ hstale _ (List.mem_cons_self ..) rfl

end Steps

variable (hf : ∀ seen v, f (pred seen v).2 = f v)
include hf

theorem nextFrom_whole {kept junk seen rest : List T} (hw : Whole f l out ⟨kept, junk, rest, seen⟩) :
    let o := nextFrom pred kept junk seen rest
    (∀ r, o.1 = some r → Whole f l (out ++ r.toList) o.2) ∧ (o.1 = none → Torn f l out o.2) := by
  induction rest generalizing kept junk seen with
  | nil =>
    apply And.intro
    · rintro r ⟨⟩
      rw [Option.toList_none, List.append_nil]
      exact hw
    · rintro ⟨⟩
  | cons v rest ih =>
    have hv := hf seen v
    rw [nextFrom]
    rcases hp : pred seen v with ⟨_ | _ | _, v'⟩
    · rw [hp] at hv
      exact ⟨fun r hr => (nomatch hr), fun _ => hw.torn hv⟩
    · rw [hp] at hv
      exact ih (hw.keep hv)
    · rw [hp] at hv
      apply And.intro
      · rintro r ⟨⟩
        exact hw.handOut hv
      · rintro ⟨⟩

/-- Asking keeps all elements, unless the predicate panics after it has accepted one. -/
theorem take_whole (k : Nat) (hw : Whole f l out S) :
    let o := take pred k out S
    (o.1 = true → Whole f l o.2.1 o.2.2) ∧ (o.1 = false → Torn f l o.2.1 o.2.2) := by
  induction k generalizing out S with
  | zero => exact ⟨fun _ => hw, fun h => nomatch h⟩
  | succ k ih =>
    have hnext : (∀ r, (next pred S).1 = some r → Whole f l (out ++ r.toList) (next pred S).2) ∧
        ((next pred S).1 = none → Torn f l out (next pred S).2) := nextFrom_whole hf hw
    obtain ⟨hsome, hnone⟩ := hnext
    rw [take]
    rcases hn : (next pred S).1 with _ | r
    · exact ⟨fun h => (nomatch h), fun _ => hnone hn⟩
    · exact ih (hsome r hn)

theorem accepted_sublist (seen rest : List T) : ((accepted pred seen rest).map f).Sublist (rest.map f) := by
  induction rest generalizing seen with
  | nil => exact .refl _
  | cons v rest ih =>
    rw [accepted]
    split
    · simpa [hf] using ih (seen ++ [v])
    · exact (ih (seen ++ [v])).cons _

theorem take_sublist (k : Nat) (out : List T) (S : Sieve T) :
    (((take pred k out S).2.1 ++ (take pred k out S).2.2.rest).map f).Sublist ((out ++ S.rest).map f) := by
  induction k generalizing out S with
  | zero => exact .refl _
  | succ k ih =>
    rcases hn : next pred S with ⟨r, S'⟩
    rw [take, hn]
    cases next_looked hn with
    | ended hc ha hk hr hseen =>
      have hih := ih out S'
      rw [hr, List.append_nil] at hih
      apply List.Sublist.trans _ (hih.trans _)
      · simp
      · simp
    | @found A v x hs hc ha hv hk hseen =>
      apply (ih (out ++ [x]) S').trans
      have hx : f x = f v := by rw [← hf (S.seen ++ A) v, hv]
      rw [hs]
      simp [hx]
    | panicked hs hc ha hv hseen =>
      rw [hs]
      simp

theorem accepted_rejected_perm (seen rest : List T) :
    ((accepted pred seen rest ++ rejected pred seen rest).map f).Perm (rest.map f) := by
  induction rest generalizing seen with
  | nil => exact .refl _
  | cons v rest ih =>
    have hih := (ih (seen ++ [v])).cons (f v)
    rw [accepted, rejected]
    split
    · simpa [hf] using hih
    · apply List.Perm.trans _ hih
      rw [← hf seen v, ← List.map_cons]
      exact List.perm_middle.map f

end Sieve
