import SliceDeque.Lib.Partition
import SliceDeque.Owners

/-!
# `retain` and `dedup_by`

Both loops move the accepted elements to the front by swaps, and truncate the
deque when every element was looked at. A closure is a function of its state;
it answers `none` when it panics.
-/

set_option autoImplicit false

namespace Sdeq.SliceDeque
open Exec Parted

section Model
variable {T β σ : Type} (E : Env T β)

/-- The loop of `retain`, with `todo` elements to go: returns the number of deletions. -/
def retainLoop (f : σ → T → Option (Bool × σ)) : (todo i del : Nat) → σ → DeqM T β (Nat × σ)
  | 0, _, del, st => pure (del, st)
  | todo + 1, i, del, st => do
    let v ← readSlot E i
    match f st v with
    | none => throw .user
    | some (false, st') => retainLoop f todo (i + 1) (del + 1) st'
    | some (true, st') => do
      when (0 < del) (swap E (i - del) i)
      retainLoop f todo (i + 1) del st'

/-- Returns the state that the closure is left in. -/
def retain (f : σ → T → Option (Bool × σ)) (st : σ) : DeqM T β σ := do
  let len ← len E
  let (del, st') ← retainLoop E f len 0 0 st
  when (0 < del) (truncate E (len - del))
  pure st'

/-- The loop of `dedup_by`: returns the next write position. `same st a b` is the answer and the two
values as the closure leaves them. -/
def dedupLoop (same : σ → T → T → Option (Bool × σ) × T × T) : (todo r w : Nat) → σ → DeqM T β (Nat × σ)
  | 0, _, w, st => pure (w, st)
  | todo + 1, r, w, st => do
    let a ← readSlot E r
    let b ← readSlot E (w - 1 : Nat)
    let answer := same st a b
    writeSlot E r answer.2.1
    writeSlot E (w - 1 : Nat) answer.2.2
    match answer.1 with
    | none => throw .user
    | some (true, st') => dedupLoop same todo (r + 1) w st'
    | some (false, st') => do
      when (r ≠ w) (swap E r w)
      dedupLoop same todo (r + 1) (w + 1) st'

/-- Returns the state that the closure is left in. -/
def dedupBy (same : σ → T → T → Option (Bool × σ) × T × T) (st : σ) : DeqM T β σ := do
  let ln ← len E
  if ln ≤ 1 then pure st
  else do
    let (w, st') ← dedupLoop E same (ln - 1) 1 1 st
    truncate E w
    pure st'

end Model

variable {T β σ ι : Type} {E : Env T β} {s : Frame (SliceDeque β) T} {P : Panic → Frame (SliceDeque β) T → Prop}

section Contents
variable {A B K J R : List T} {a b x j : T} {i k : Nat}

theorem slot_of_toList {d : SliceDeque β} (hl : d.toList E = A ++ x :: B) (hi : i = A.length) :
    i < d.elems.len ∧ d.slot E i = x := by
  have hlen := congrArg List.length hl
  rw [toList_length, List.length_append, List.length_cons] at hlen
  have hlt : i < d.elems.len := by omega
  have hget := getElem?_toList (E := E) hlt
  rw [hl, hi, List.getElem?_append_right le_rfl, Nat.sub_self, List.getElem?_cons_zero] at hget
  exact ⟨hlt, hi ▸ (Option.some.inj hget).symm⟩

theorem wp_readAtPlace {Q : T → Frame (SliceDeque β) T → Prop} (h : WF E s.self)
    (hl : s.self.toList E = A ++ x :: B) (hi : i = A.length) (hQ : Q x s) : wp (readSlot E i) s Q P := by
  obtain ⟨hlt, hslot⟩ := slot_of_toList hl hi
  have hle := h.len_le
  apply wp_readSlot h (by omega) (by omega)
  rwa [hslot]

theorem wp_writeAtPlace {Q : Unit → Frame (SliceDeque β) T → Prop} (h : WF E s.self)
    (hl : s.self.toList E = A ++ a :: B) (hi : i = A.length)
    (hQ : ∀ s', Effect E s s' (A ++ x :: B) [] → Q () s') : wp (writeSlot E i x) s Q P := by
  obtain ⟨hlt, -⟩ := slot_of_toList hl hi
  have hle := h.len_le
  apply wp_writeSlot h (by omega) (by omega)
  intro d' hwf hr hs
  refine hQ _ (.of_self hwf ?_ hr.regions_eq)
  rw [hr.toList_set h hs, hl, hi]
  simp

/-- The swap of both loops: the next element changes places with the first of the rejected ones. -/
theorem wp_exchange {Q : Unit → Frame (SliceDeque β) T → Prop} (h : WF E s.self)
    (hl : s.self.toList E = K ++ j :: (J ++ x :: R)) (hi : i = K.length) (hk : k = K.length + (J.length + 1))
    (hQ : ∀ s', Effect E s s' (K ++ x :: (J ++ j :: R)) [] → Q () s') :
    wp (swap E i k) s Q P ∧ wp (swap E k i) s Q P := by
  have hl' : s.self.toList E = (K ++ j :: J) ++ x :: R := by rw [hl, List.append_assoc, List.cons_append]
  obtain ⟨hlt, hslot⟩ := slot_of_toList hl hi
  obtain ⟨hlt', hslot'⟩ := slot_of_toList hl' (i := k) (by rw [List.length_append, List.length_cons, hk])
  constructor
  · refine wp_mono (wp_swap (P := fun _ _ => False) h hlt hlt') (fun _ s' heff => hQ s' ?_) fun _ _ => False.elim
    rwa [hslot, hslot', hl, hi, hk, exchange] at heff
  · refine wp_mono (wp_swap (P := fun _ _ => False) h hlt' hlt) (fun _ s' heff => hQ s' ?_) fun _ _ => False.elim
    rwa [hslot, hslot', hl, hi, hk, List.set_comm _ _ (by omega), exchange] at heff

end Contents

/-! ## The loops -/

/-- Behind the elements `K` there are the accepted ones in order, then the others and those of `J`. -/
def Arranged (E : Env T β) (s s' : Frame (SliceDeque β) T) (K J : List T) (p : Parted T σ) : Prop :=
  ∃ L, L.Perm (J ++ p.rest) ∧ Effect E s s' (K ++ p.kept ++ L) []

namespace Arranged
variable {s₁ s' : Frame (SliceDeque β) T} {K J J' l : List T} {p : Parted T σ} {x : T}

theorem after (h : Effect E s s₁ l []) (h' : Arranged E s₁ s' K J p) : Arranged E s s' K J p := by
  obtain ⟨L, hL, heff⟩ := h'
  exact ⟨L, hL, h.trans heff⟩

theorem perm (h : Arranged E s s' K J p) (hJ : J.Perm J') : Arranged E s s' K J' p := by
  obtain ⟨L, hL, heff⟩ := h
  exact ⟨L, hL.trans (hJ.append_right _), heff⟩

theorem keep (h : Arranged E s s' (K ++ [x]) J p) : Arranged E s s' K J (p.keep x) := by
  obtain ⟨L, hL, heff⟩ := h
  rw [List.append_assoc K, List.singleton_append] at heff
  exact ⟨L, hL, heff⟩

theorem pass (h : Arranged E s s' K (J ++ [x]) p) : Arranged E s s' K J (p.pass x) := by
  obtain ⟨L, hL, heff⟩ := h
  rw [List.append_assoc, List.singleton_append] at hL
  exact ⟨L, hL, heff⟩

end Arranged

/-- How a loop ends: every element was looked at, or the closure panicked. -/
def Looped (E : Env T β) (s : Frame (SliceDeque β) T) (K J : List T) (p : Parted T σ) (st : σ)
    (s' : Frame (SliceDeque β) T) : Prop := p.state = some st ∧ Arranged E s s' K J p

def Broken (E : Env T β) (s : Frame (SliceDeque β) T) (K J : List T) (p : Parted T σ) (e : Panic)
    (s' : Frame (SliceDeque β) T) : Prop := e = .user ∧ p.state = none ∧ Arranged E s s' K J p

/-- The elements in `K` were accepted and those in `J` rejected; `R` is to go. -/
theorem wp_retainLoop {f : σ → T → Option (Bool × σ)} : ∀ (R K J : List T) (i del : Nat) (st : σ)
    (s : Frame (SliceDeque β) T), WF E s.self → s.self.toList E = K ++ (J ++ R) → i = K.length + J.length →
    del = J.length →
    wp (retainLoop E f R.length i del st) s
      (fun r s' => r.1 = J.length + (sift f st R).rest.length ∧ Looped E s K J (sift f st R) r.2 s')
      (Broken E s K J (sift f st R)) := by
  intro R
  induction R with
  | nil =>
    intro K J i del st s h hl _ hdel
    refine wp_pure.mpr ⟨hdel, rfl, J, ?_, ?_⟩
    · rw [sift, List.append_nil]
    · rw [List.append_nil] at hl
      rw [sift, List.append_nil, ← hl]
      exact .refl h
  | cons x R ih =>
    intro K J i del st s h hl hi hdel
    have hplace : s.self.toList E = (K ++ J) ++ x :: R := by rw [hl, List.append_assoc]
    rw [List.length_cons, retainLoop, wp_bind]
    apply wp_readAtPlace h hplace (by rw [hi, List.length_append])
    rw [sift]
    rcases f st x with _ | ⟨_ | _, st'⟩
    · refine wp_throw.mpr ⟨rfl, rfl, J ++ x :: R, .refl _, ?_⟩
      rw [List.append_nil, ← hl]
      exact .refl h
    · dsimp only
      have hnext := ih K (J ++ [x]) (i + 1) (del + 1) st' s h
        (by rw [hl, List.append_assoc J, List.singleton_append]) (by rw [hi, List.length_append]; rfl)
        (by rw [hdel, List.length_append]; rfl)
      refine wp_mono hnext (fun r s' hr => ⟨?_, hr.2.1, hr.2.2.pass⟩) fun _ _ hp => ⟨hp.1, hp.2.1, hp.2.2.pass⟩
      simp only [hr.1, Parted.pass, List.length_append, List.length_cons, List.length_nil]
      omega
    · rw [wp_bind, wp_when]
      rcases J with _ | ⟨j, J⟩
      · refine ⟨fun hpos => absurd hpos (by rw [hdel]; simp), fun _ => ?_⟩
        have hnext := ih (K ++ [x]) [] (i + 1) del st' s h (by rw [hl]; simp) (by rw [hi]; simp) hdel
        exact wp_mono hnext (fun r s' hr => ⟨hr.1, hr.2.1, hr.2.2.keep⟩) fun _ _ hp => ⟨hp.1, hp.2.1, hp.2.2.keep⟩
      · refine ⟨fun _ => ?_, fun hpos => absurd (by rw [hdel]; simp) hpos⟩
        rw [List.length_cons] at hi hdel
        refine (wp_exchange (K := K) (J := J) (i := i - del) (k := i) h (by rw [hl, List.cons_append]) (by omega) (by omega) ?_).1
        intro s₁ heff
        have hnext := ih (K ++ [x]) (J ++ [j]) (i + 1) del st' s₁ heff.wf (by rw [heff.toList_eq]; simp)
          (by simp only [List.length_append, List.length_singleton]; omega) (by simp only [hdel, List.length_append, List.length_singleton])
        have hrot : (J ++ [j]).Perm (j :: J) := List.perm_append_singleton j J
        refine wp_mono hnext (fun r s' hr => ⟨?_, hr.2.1, ((hr.2.2.perm hrot).keep).after heff⟩) fun _ _ hp =>
          ⟨hp.1, hp.2.1, ((hp.2.2.perm hrot).keep).after heff⟩
        rw [hr.1, hrot.length_eq]
        rfl

/-- The elements in `K` and then `b` were accepted, those in `J` were rejected, and `R` is to go. -/
theorem wp_dedupLoop (same : σ → T → T → Option (Bool × σ) × T × T) : ∀ (R K J : List T) (b : T) (r w : Nat)
    (st : σ) (s : Frame (SliceDeque β) T), WF E s.self → s.self.toList E = K ++ b :: (J ++ R) →
    w = K.length + 1 → r = w + J.length →
    wp (dedupLoop E same R.length r w st) s
      (fun a s' => a.1 = K.length + (dedup same st b R).kept.length ∧ Looped E s K J (dedup same st b R) a.2 s')
      (Broken E s K J (dedup same st b R)) := by
  intro R
  induction R with
  | nil =>
    intro K J b r w st s h hl hw _
    refine wp_pure.mpr ⟨hw, rfl, J, ?_, ?_⟩
    · rw [dedup, List.append_nil]
    · rw [List.append_nil] at hl
      rw [dedup, List.append_assoc, List.singleton_append, ← hl]
      exact .refl h
  | cons a R ih =>
    intro K J b r w st s h hl hw hr
    have hplace : s.self.toList E = (K ++ b :: J) ++ a :: R := by rw [hl, List.append_assoc, List.cons_append]
    have hlen : r = (K ++ b :: J).length := by rw [hr, hw, List.length_append, List.length_cons]; omega
    simp only [List.length_cons, dedupLoop, wp_bind]
    refine wp_readAtPlace h hplace hlen (wp_readAtPlace h hl (by omega) ?_)
    rw [dedup]
    rcases same st a b with ⟨answer, a', b'⟩
    refine wp_writeAtPlace h hplace hlen fun s₁ heff₁ => ?_
    have hl₁ : s₁.self.toList E = K ++ b :: (J ++ a' :: R) := by rw [heff₁.toList_eq, List.append_assoc, List.cons_append]
    refine wp_writeAtPlace heff₁.wf hl₁ (by omega) fun s₂ heff₂ => ?_
    have heff := heff₁.trans heff₂
    have hl₂ := heff₂.toList_eq
    rcases answer with _ | ⟨_ | _, st'⟩
    · refine wp_throw.mpr ⟨rfl, rfl, J ++ a' :: R, .refl _, ?_⟩
      rw [List.append_assoc, List.singleton_append]
      exact heff
    · have hwf := heff.wf
      dsimp only
      rw [wp_bind, wp_when]
      rcases J with _ | ⟨j, J⟩
      · rw [List.length_nil, Nat.add_zero] at hr
        refine ⟨fun hne => absurd hr hne, fun _ => ?_⟩
        have hnext := ih (K ++ [b']) [] a' (r + 1) (w + 1) st' s₂ hwf (by rw [hl₂]; simp)
          (by rw [hw, List.length_append]; rfl) (by rw [hr]; rfl)
        refine wp_mono hnext (fun c s' hc => ⟨?_, hc.2.1, (hc.2.2.keep).after heff⟩) fun _ _ hp =>
          ⟨hp.1, hp.2.1, (hp.2.2.keep).after heff⟩
        simp only [hc.1, Parted.keep, List.length_append, List.length_cons, List.length_nil]
        omega
      · rw [List.length_cons] at hr
        refine ⟨fun _ => ?_, fun heq => absurd (show r ≠ w by omega) heq⟩
        refine (wp_exchange (K := K ++ [b']) (J := J) (R := R) (j := j) (x := a') (i := w) (k := r) hwf (by rw [hl₂]; simp)
          (by rw [hw, List.length_append]; rfl) (by rw [hr, hw, List.length_append, List.length_singleton]) ?_).2
        intro s₃ heff₃
        have hnext := ih (K ++ [b']) (J ++ [j]) a' (r + 1) (w + 1) st' s₃ heff₃.wf (by rw [heff₃.toList_eq]; simp)
          (by rw [hw, List.length_append]; rfl) (by rw [hr, List.length_append, List.length_singleton]; omega)
        have hrot : (J ++ [j]).Perm (j :: J) := List.perm_append_singleton j J
        refine wp_mono hnext (fun c s' hc => ⟨?_, hc.2.1, ((hc.2.2.perm hrot).keep).after (heff.trans heff₃)⟩) fun _ _ hp =>
          ⟨hp.1, hp.2.1, ((hp.2.2.perm hrot).keep).after (heff.trans heff₃)⟩
        simp only [hc.1, Parted.keep, List.length_append, List.length_cons, List.length_nil]
        omega
    · have hnext := ih K (J ++ [a']) b' (r + 1) w st' s₂ heff.wf (by rw [hl₂]; simp) hw
        (by rw [hr, List.length_append]; rfl)
      exact wp_mono hnext (fun c s' hc => ⟨hc.1, hc.2.1, (hc.2.2.pass).after heff⟩) fun _ _ hp =>
        ⟨hp.1, hp.2.1, (hp.2.2.pass).after heff⟩

theorem exact_retainLoop {f : σ → T → Option (Bool × σ)} (todo i del : Nat) (st : σ) : Exact (retainLoop E f todo i del st) s := by
  induction todo generalizing i del st s with
  | zero => exact exact_pure
  | succ todo ih =>
    apply exact_bind exact_readSlot
    intro v _
    rcases f st v with _ | ⟨_ | _, st'⟩
    · exact exact_throw
    · exact ih _ _ _
    · exact exact_bind (exact_when fun _ => exact_swap) fun _ _ => ih _ _ _

theorem exact_dedupLoop {same : σ → T → T → Option (Bool × σ) × T × T} (todo r w : Nat) (st : σ) :
    Exact (dedupLoop E same todo r w st) s := by
  induction todo generalizing r w st s with
  | zero => exact exact_pure
  | succ todo ih =>
    apply exact_bind exact_readSlot
    intro a _
    apply exact_bind exact_readSlot
    intro b _
    apply exact_bind exact_writeSlot
    intro _ _
    apply exact_bind exact_writeSlot
    intro _ _
    rcases same st a b with ⟨_ | ⟨_ | _, st'⟩, _⟩
    · exact exact_throw
    · exact exact_bind (exact_when fun _ => exact_swap) fun _ _ => ih _ _ _
    · exact ih _ _ _

/-! ## The operations -/

/-- The deque was cut to the accepted elements, and the others were destroyed. -/
def Cut (E : Env T β) (s : Frame (SliceDeque β) T) (p : Parted T σ) (s' : Frame (SliceDeque β) T) : Prop :=
  ∃ dead, dead.Perm p.rest ∧ Effect E s s' p.kept dead

/-- The panics of `retain` and `dedup_by`. After one of the closure nothing was destroyed and all
elements are in the deque, the accepted ones at the front; a destructor panics after the cut. -/
def CutPanic (E : Env T β) (s : Frame (SliceDeque β) T) (p : Parted T σ) (e : Panic) (s' : Frame (SliceDeque β) T) : Prop :=
  e = .user ∧ p.state = none ∧ (∃ L, L.Perm p.rest ∧ Effect E s s' (p.kept ++ L) []) ∨
    e = .destructor ∧ DestructorsPanic E ∧ p.state ≠ none ∧ Cut E s p s'

theorem Broken.cutPanic {p : Parted T σ} {e : Panic} {s' : Frame (SliceDeque β) T} (h : Broken E s [] [] p e s') :
    CutPanic E s p e s' := .inl h

theorem wp_cut {p : Parted T σ} {st : σ} {n : Nat} {s₁ : Frame (SliceDeque β) T} (h : Looped E s [] [] p st s₁)
    (hn : n = p.kept.length) :
    wp (truncateBack E n) s₁ (fun _ s' => p.state = some st ∧ Cut E s p s') (CutPanic E s p) := by
  obtain ⟨hst, L, hL, heff⟩ := h
  rw [List.nil_append] at heff hL
  have htrunc := wp_truncateBack (n := n) heff.wf
  rw [heff.toList_eq, hn, List.take_left, List.drop_left] at htrunc
  rw [hn]
  refine wp_mono htrunc (fun _ s' hs' => ⟨hst, L, hL, heff.trans hs'⟩) ?_
  rintro e s' ⟨rfl, hd, hs'⟩
  exact .inr ⟨rfl, hd, by simp [hst], L, hL, heff.trans hs'⟩

theorem wp_retain (f : σ → T → Option (Bool × σ)) (st : σ) (h : WF E s.self) :
    wp (retain E f st) s
      (fun st' s' => (sift f st (s.self.toList E)).state = some st' ∧ Cut E s (sift f st (s.self.toList E)) s')
      (CutPanic E s (sift f st (s.self.toList E))) := by
  have hloop := wp_retainLoop (f := f) (s.self.toList E) [] [] 0 0 st s h rfl rfl rfl
  rw [toList_length] at hloop
  simp only [retain, wp_bind]
  refine wp_len h (wp_mono hloop ?_ fun _ _ => Broken.cutPanic)
  rintro ⟨del, st'⟩ s₁ ⟨hdel, hl⟩
  have hlen := (sift_perm (f := f) st (s.self.toList E)).length_eq
  rw [List.length_append, toList_length] at hlen
  dsimp only at hdel
  rw [List.length_nil, Nat.zero_add] at hdel
  simp only [wp_when, wp_pure]
  refine ⟨fun _ => wp_cut hl (by omega), fun hpos => ?_⟩
  obtain ⟨hst, L, hL, heff⟩ := hl
  have hnil : L = [] := List.length_eq_zero_iff.mp (by rw [hL.length_eq, List.nil_append]; omega)
  rw [hnil] at hL heff
  rw [List.append_nil] at heff
  exact ⟨hst, [], hL, heff⟩

theorem exact_retain (f : σ → T → Option (Bool × σ)) (st : σ) (h : WF E s.self) : Exact (retain E f st) s := by
  have hloop := wp_retainLoop (f := f) (s.self.toList E) [] [] 0 0 st s h rfl rfl rfl
  rw [toList_length] at hloop
  apply exact_len_bind h
  apply exact_seq (exact_retainLoop _ _ _ _) hloop
  rintro ⟨del, st'⟩ s₁ ⟨-, -, L, -, heff⟩
  exact exact_bind (exact_when fun _ => exact_truncateBack heff.wf) fun _ _ => exact_pure

theorem dedup_short {same : σ → T → T → Option (Bool × σ) × T × T} {st : σ} {l : List T} (h : l.length ≤ 1) :
    dedupAll same st l = ⟨l, [], some st⟩ := by
  rcases l with _ | ⟨b, _ | ⟨a, l⟩⟩
  · rfl
  · rfl
  · simp at h

theorem toList_cons {d : SliceDeque β} (h : 0 < d.elems.len) : ∃ b R, d.toList E = b :: R ∧ d.elems.len = R.length + 1 := by
  obtain ⟨b, R, hl⟩ := List.exists_cons_of_length_pos (h.trans_eq (toList_length (E := E) d).symm)
  refine ⟨b, R, hl, ?_⟩
  rw [← toList_length (E := E), hl, List.length_cons]

theorem wp_dedupBy (same : σ → T → T → Option (Bool × σ) × T × T) (st : σ) (h : WF E s.self) :
    wp (dedupBy E same st) s
      (fun st' s' => (dedupAll same st (s.self.toList E)).state = some st' ∧
        Cut E s (dedupAll same st (s.self.toList E)) s')
      (CutPanic E s (dedupAll same st (s.self.toList E))) := by
  simp only [dedupBy, wp_bind]
  refine wp_len h ?_
  rw [wp_ite]
  refine ⟨fun hn => ?_, fun hn => ?_⟩
  · rw [dedup_short (by rwa [toList_length]), wp_pure]
    exact ⟨rfl, [], .refl _, .refl h⟩
  · obtain ⟨b, R, hl, hlen⟩ := toList_cons (E := E) (d := s.self) (by omega)
    have hloop := wp_dedupLoop same R [] [] b 1 1 st s h hl rfl rfl
    rw [hl, dedupAll, hlen, Nat.add_sub_cancel, wp_bind]
    refine wp_mono hloop ?_ fun _ _ => Broken.cutPanic
    rintro ⟨w, st'⟩ s₁ ⟨hw, hend⟩
    simp only [wp_bind, wp_pure]
    exact wp_cut hend (by rw [List.length_nil, Nat.zero_add] at hw; exact hw)

theorem exact_dedupBy (same : σ → T → T → Option (Bool × σ) × T × T) (st : σ) (h : WF E s.self) :
    Exact (dedupBy E same st) s := by
  apply exact_len_bind h
  apply exact_ite
  · exact fun _ => exact_pure
  intro hn
  obtain ⟨b, R, hl, hlen⟩ := toList_cons (E := E) (d := s.self) (by omega)
  have hloop := wp_dedupLoop same R [] [] b 1 1 st s h hl rfl rfl
  rw [hlen, Nat.add_sub_cancel]
  apply exact_seq (exact_dedupLoop _ _ _ _) hloop
  rintro ⟨w, st'⟩ s₁ ⟨-, -, L, -, heff⟩
  exact exact_bind (exact_truncateBack heff.wf) fun _ _ => exact_pure

/-- `retain` keeps the accepted elements in their order and destroys the others once each. When the
predicate panics the deque still holds all elements, and none was destroyed. -/
theorem retain_filters (f : σ → T → Option (Bool × σ)) (st : σ) (h : WF E s.self) :
    Exact (retain E f st) s ∧
    (sift f st (s.self.toList E)).kept.Sublist (s.self.toList E) ∧
    wp (retain E f st) s
      (fun st' s' => (sift f st (s.self.toList E)).state = some st' ∧
        ∃ dead, dead.Perm (sift f st (s.self.toList E)).rest ∧ Effect E s s' (sift f st (s.self.toList E)).kept dead)
      (fun e s' =>
        e = .user ∧ (sift f st (s.self.toList E)).state = none ∧
          (∃ l, l.Perm (s.self.toList E) ∧ Effect E s s' l []) ∨
        e = .destructor ∧ DestructorsPanic E ∧ (sift f st (s.self.toList E)).state ≠ none ∧
          ∃ dead, dead.Perm (sift f st (s.self.toList E)).rest ∧
            Effect E s s' (sift f st (s.self.toList E)).kept dead) := by
  refine ⟨exact_retain f st h, sift_kept_sublist _ _, wp_mono (wp_retain _ _ h) (fun _ _ => id) ?_⟩
  rintro e s' (⟨he, hst, L, hL, heff⟩ | hcut)
  · exact .inl ⟨he, hst, _, (hL.append_left _).trans (sift_perm _ _), heff⟩
  · exact .inr hcut

/-- Every other element is kept; the predicate counts its calls. -/
theorem sample_retain :
    let E := cells true 3 (by decide)
    Ends (retain E (fun k _ => some (k % 2 == 0, k + 1)) 0) ⟨sample, .start⟩ fun k s' =>
      k = 3 ∧ s'.self.toList E = [10, 30] ∧ s'.world.destroyed = [20] := by
  intro E
  have h : WF E sample := wf_sample
  have hspec := retain_filters (s := ⟨sample, .start⟩) (fun k (_ : Nat) => some (k % 2 == 0, k + 1)) 0 h
  dsimp only at hspec
  rw [show sample.toList E = [10, 20, 30] by decide] at hspec
  refine ends_iff.mpr ⟨hspec.1, wp_mono hspec.2.2 ?_ ?_⟩
  · rintro k s' ⟨hk, dead, hdead, heff⟩
    refine ⟨(Option.some.inj hk).symm, heff.toList_eq, ?_⟩
    rw [heff.log.destroyed_eq, List.perm_singleton.mp hdead]
    rfl
  · rintro e s' (⟨-, hst, -⟩ | ⟨-, ⟨_, _, hd⟩, -⟩)
    · cases hst
    · cases hd

theorem wp_retain_filter {q : T → Bool} (h : WF E s.self) :
    wp (retain E (fun st v => some (q v, st)) ()) s
      (fun _ s' => ∃ dead, dead.Perm ((s.self.toList E).filter (!q ·)) ∧
        Effect E s s' ((s.self.toList E).filter q) dead)
      (fun e s' => e = .destructor ∧ DestructorsPanic E ∧ ∃ dead, dead.Perm ((s.self.toList E).filter (!q ·)) ∧
        Effect E s s' ((s.self.toList E).filter q) dead) := by
  have hspec := wp_retain (fun st v => some (q v, st)) () h
  rw [sift_filter] at hspec
  refine wp_mono hspec (fun _ _ hs => hs.2) ?_
  rintro e s' (⟨-, hst, -⟩ | ⟨he, hd, -, hcut⟩)
  · cases hst
  · exact ⟨he, hd, hcut⟩

/-- `dedup_by` is the fold over the contents, whatever the closure makes of the elements it is shown.
When it panics the deque still holds every element: none was destroyed, the accepted ones are at the
front, and a closure that keeps identities leaves the same identities behind. -/
theorem dedupBy_folds (same : σ → T → T → Option (Bool × σ) × T × T) (st : σ) (h : WF E s.self) :
    Exact (dedupBy E same st) s ∧
    wp (dedupBy E same st) s
      (fun st' s' => (dedupAll same st (s.self.toList E)).state = some st' ∧
        ∃ dead, dead.Perm (dedupAll same st (s.self.toList E)).rest ∧
          Effect E s s' (dedupAll same st (s.self.toList E)).kept dead)
      (fun e s' =>
        e = .user ∧ (dedupAll same st (s.self.toList E)).state = none ∧
          (∃ l, l.Perm (dedupAll same st (s.self.toList E)).rest ∧
            Effect E s s' ((dedupAll same st (s.self.toList E)).kept ++ l) [] ∧
            ∀ (ι : Type) (f : T → ι), KeepsIds f same →
              (((dedupAll same st (s.self.toList E)).kept ++ l).map f).Perm ((s.self.toList E).map f)) ∨
        e = .destructor ∧ DestructorsPanic E ∧ (dedupAll same st (s.self.toList E)).state ≠ none ∧
          ∃ dead, dead.Perm (dedupAll same st (s.self.toList E)).rest ∧
            Effect E s s' (dedupAll same st (s.self.toList E)).kept dead) := by
  refine ⟨exact_dedupBy same st h, wp_mono (wp_dedupBy _ _ h) (fun _ _ => id) ?_⟩
  rintro e s' (⟨he, hst, L, hL, heff⟩ | hcut)
  · exact .inl ⟨he, hst, L, hL, heff, fun ι f hf => ((hL.append_left _).map f).trans (dedupAll_ids hf _ _)⟩
  · exact .inr hcut

/-- Neighbours in the same twenty are merged. The closure counts its calls and marks what it compares with. -/
theorem sample_dedupBy :
    let E := cells true 3 (by decide)
    Ends (dedupBy E (fun k a b => (some (a / 20 == b / 20, k + 1), a, b + 1)) 0) ⟨sample, .start⟩ fun k s' =>
      k = 2 ∧ s'.self.toList E = [11, 21] ∧ s'.world.destroyed = [30] := by
  intro E
  have h : WF E sample := wf_sample
  have hspec := dedupBy_folds (s := ⟨sample, .start⟩) (fun k (a b : Nat) => (some (a / 20 == b / 20, k + 1), a, b + 1)) 0 h
  dsimp only at hspec
  rw [show sample.toList E = [10, 20, 30] by decide] at hspec
  refine ends_iff.mpr ⟨hspec.1, wp_mono hspec.2 ?_ ?_⟩
  · rintro k s' ⟨hk, dead, hdead, heff⟩
    refine ⟨(Option.some.inj hk).symm, heff.toList_eq, ?_⟩
    rw [heff.log.destroyed_eq, List.perm_singleton.mp hdead]
    rfl
  · rintro e s' (⟨-, hst, -⟩ | ⟨-, ⟨_, _, hd⟩, -⟩)
    · cases hst
    · cases hd

/-! ## Conservation -/

section Conservation
variable {f : T → ι} {p : Parted T σ} {s' : Frame (SliceDeque β) T}

theorem Cut.keeps (h : Cut E s p s') (hp : ids f (p.kept ++ p.rest) = ids f (s.self.toList E)) :
    Keeps (owner E) f s s' [] [] [] := by
  obtain ⟨dead, hdead, heff⟩ := h
  rw [ids_append, ← ids_perm hdead] at hp
  exact heff.keeps (by simpa using hp.symm)

theorem CutPanic.unwound {e : Panic} (h : CutPanic E s p e s') (hp : ids f (p.kept ++ p.rest) = ids f (s.self.toList E)) :
    Unwound E (owner E) f [] s e s' := by
  rcases h with ⟨rfl, -, L, hL, heff⟩ | ⟨rfl, -, -, hcut⟩
  · rw [ids_append, ← ids_perm hL, ← ids_append] at hp
    exact heff.unwound clean_user (by simpa using hp.symm)
  · exact .of_keeps clean_destructor (hcut.keeps hp)

theorem conserves_retain {g : σ → T → Option (Bool × σ)} {st : σ} (h : WF E s.self) :
    Conserves E (owner E) f (retain E g st) [] (fun _ => []) s :=
  wp_mono (wp_retain _ _ h) (fun _ _ hs => hs.2.keeps (ids_perm (sift_perm _ _))) fun _ _ hp =>
    hp.unwound (ids_perm (sift_perm _ _))

theorem conserves_dedupBy {same : σ → T → T → Option (Bool × σ) × T × T} {st : σ} (hsame : KeepsIds f same)
    (h : WF E s.self) : Conserves E (owner E) f (dedupBy E same st) [] (fun _ => []) s := by
  have hids : ids f ((dedupAll same st (s.self.toList E)).kept ++ (dedupAll same st (s.self.toList E)).rest) =
      ids f (s.self.toList E) := Multiset.coe_eq_coe.mpr (dedupAll_ids hsame _ _)
  exact wp_mono (wp_dedupBy _ _ h) (fun _ _ hs => hs.2.keeps hids) fun _ _ hp => hp.unwound hids

end Conservation

end Sdeq.SliceDeque
