import SliceDeque.Owners

/-!
# Operations that run user code

Closures, iterators, `clone` and `default` may panic at every call. A closure
is a function of the number of the call; an iterator is the list of what its
calls of `next` return (`none` is a panic) with an arbitrary `size_hint`.
The library is modelled without the feature `unstable`.
-/

set_option autoImplicit false

namespace Sdeq.SliceDeque
open Exec

variable {T β X : Type} (E : Env T β)

/-- `size_hint` after so many calls of `next`. -/
abbrev Hint : Type := Nat → Nat × Option Nat

/-- The number of elements to reserve for: `checked_add(1).expect("overflow")`. -/
def hintedCap (hint : Nat × Option Nat) : DeqM T β Nat :=
  if hint.2.getD hint.1 + 1 < usizeBound then pure (hint.2.getD hint.1 + 1) else throw .overflow

/-- The body of the loop of `extend_desugared`. -/
def extendOne (hint : Nat × Option Nat) (element : T) : DeqM T β Unit :=
  onPanic (do
    let len ← len E
    let d ← self
    when (len = d.capacity) do
      let additionalCap ← hintedCap hint
      reserve E additionalCap
    let l ← SliceDeque.len E
    let d ← self
    debugAssert E (l < d.capacity)
    writeSlot E len element
    moveTailUnchecked E 1) (dropValue E element)

/-- `extend_desugared`, after `k` calls of `next`. -/
def extendDesugared (hint : Hint) : (k : Nat) → List (Option T) → DeqM T β Unit
  | _, [] => pure ()
  | k, next :: rest => do
    let element ← produce fun _ => next
    extendOne E (hint (k + 1)) element
    extendDesugared hint (k + 1) rest

def extend (hint : Hint) (iter : List (Option T)) : DeqM T β Unit := extendDesugared E hint 0 iter

/-- The writes of `extend_with`: slot `i` is the next one. -/
def extendWithLoop (make : Nat → Option T) : (todo i : Nat) → DeqM T β Unit
  | 0, _ => pure ()
  | todo + 1, i => do
    let v ← produce make
    writeSlot E i v
    moveTailUnchecked E 1
    extendWithLoop make todo (i + 1)

def extendWith (n : Nat) (make : Nat → Option T) : DeqM T β Unit := do
  reserve E n
  let l ← len E
  extendWithLoop E make n l

def resizeDefault (newLen : Nat) : DeqM T β Unit := do
  let l ← len E
  if l < newLen then extendWith E (newLen - l) E.defaultOf
  else truncate E newLen

/-- `while self.len() < new_len`: every iteration adds one element. -/
def resizeLoop (newLen : Nat) (value : T) : (todo : Nat) → DeqM T β Unit
  | 0 => pure ()
  | todo + 1 => do
    let l ← len E
    when (l < newLen) do
      let v ← produce fun k => E.cloneOf k value
      pushBack E v
      resizeLoop newLen value todo

def resize (newLen : Nat) (value : T) : DeqM T β Unit := do
  onPanic (do
    let l ← len E
    if l < newLen then do
      reserve E (newLen - l)
      resizeLoop E newLen value (newLen - l)
    else truncate E newLen
    let l ← len E
    debugAssert E (l = newLen)) (dropValue E value)
  dropValue E value

/-- `self[i].clone_from(src)`: the old value is dropped, the clone is stored in any case. -/
def assignClone (i : Nat) (src : T) : DeqM T β Unit := do
  let v ← produce fun k => E.cloneOf k src
  let old ← readSlot E i
  onPanic (dropValue E old) (writeSlot E i v)
  writeSlot E i v

def cloneFromSlice (i : Nat) : List T → DeqM T β Unit
  | [] => pure ()
  | src :: rest => do
    assignClone E i src
    cloneFromSlice (i + 1) rest

def extendFromSlice (other : List T) : DeqM T β Unit := do
  reserve E other.length
  let l ← len E
  moveTailUnchecked E (asIsize other.length)
  cloneFromSlice E l other

/-- `for i in other { self.push_back(i.clone()) }` -/
def pushClones : List T → DeqM T β Unit
  | [] => pure ()
  | v :: vs => do
    let c ← produce fun k => E.cloneOf k v
    pushBack E c
    pushClones vs

def dropSelf : DeqM T β Unit := do
  let d ← self
  drop E d

/-- `Clone::clone`: an unfinished clone is dropped by the unwinding. -/
def clone : DeqM T β (SliceDeque β) := do
  let l ← len E
  let new ← withCapacity E l
  let d ← self
  let vs ← readRange E d.buf.ptr d.elems.ptr d.elems.len
  let r ← onLocal new (onPanic (pushClones E vs) (dropSelf E))
  pure r.2

def cloneFrom (other : SliceDeque β) : DeqM T β Unit := do
  clear E
  let vs ← readRange E other.buf.ptr other.elems.ptr other.elems.len
  pushClones E vs

variable {E} {ι : Type} {f : T → ι} {s : Frame (SliceDeque β) T} {P : Panic → Frame (SliceDeque β) T → Prop}

/-! ## Adding elements -/

/-- Write the slot behind the tail, then move the tail over it. No slot behind it changes. -/
theorem wp_writeBack_slots {v : T} (h : WF E s.self) (hroom : s.self.elems.len < s.self.capacity) :
    wp (do
      writeSlot E s.self.elems.len v
      moveTailUnchecked E 1) s
      (fun _ s' => (Effect E s s' (s.self.toList E ++ [v]) [] ∧ s'.self.capacity = s.self.capacity) ∧
        ∀ k : Int, s.self.elems.len < k → k < s.self.capacity → s'.self.slot E k = s.self.slot E k) P := by
  rw [wp_bind]
  refine wp_writeSlot h (by omega) (by omega) fun d₁ hwf hr hs => ?_
  have helems : d₁.elems = s.self.elems := hr.elems_eq
  have hcap := hr.capacity_eq
  refine wp_moveTailUnchecked (n := s.self.elems.len + 1) hwf (by rw [helems]; push_cast; rfl) (by dsimp only; omega) ?_
  have hr' : Rewritten (s.self.withLen (s.self.elems.len + 1)) (d₁.withLen (s.self.elems.len + 1)) :=
    ⟨by simp only [withLen, helems], hr.len_eq, hr.id_eq, hr.size_eq⟩
  refine ⟨⟨.of_self (hwf.withLen (by omega)) (toList_push_back hroom hr' hs) hr.regions_eq, hcap⟩, fun k hk hkc => ?_⟩
  exact (hs k (by omega) hkc).trans (if_neg (by omega))

theorem wp_writeBack {v : T} (h : WF E s.self) (hroom : s.self.elems.len < s.self.capacity) :
    wp (do
      writeSlot E s.self.elems.len v
      moveTailUnchecked E 1) s
      (fun _ s' => Effect E s s' (s.self.toList E ++ [v]) [] ∧ s'.self.capacity = s.self.capacity) P :=
  wp_mono (wp_writeBack_slots h hroom) (fun _ _ hs => hs.1) fun _ _ => id

theorem wp_extendOne {hint : Nat × Option Nat} {v : T} (h : WF E s.self) :
    wp (extendOne E hint v) s (fun _ s' => Effect E s s' (s.self.toList E ++ [v]) [])
      (fun p s' => Refusal E p ∧ Untouched s s' [v]) := by
  have hle := h.len_le
  refine wp_onPanic_dropValue (wp_mono (P := fun p s' => Refusal E p ∧ Untouched s s' []) ?_ (fun _ _ => id)
    fun p s' hp => ⟨hp.1, hp.2.destroy [v]⟩)
  -- what follows the reservation
  have hstore : ∀ s₁, Effect E s s₁ (s.self.toList E) [] → s₁.self.elems.len < s₁.self.capacity →
      wp (do
        let l ← len E
        let d ← self
        debugAssert E (l < d.capacity)
        writeSlot E s.self.elems.len v
        moveTailUnchecked E 1) s₁ (fun _ s' => Effect E s s' (s.self.toList E ++ [v]) [])
        (fun p s' => Refusal E p ∧ Untouched s s' []) := by
    intro s₁ heff hroom
    have hlen : s₁.self.elems.len = s.self.elems.len := by rw [heff.len_eq, toList_length]
    simp only [wp_bind, wp_self]
    refine wp_len heff.wf (wp_debugAssert hroom ?_)
    rw [← wp_bind, ← hlen]
    refine wp_mono (wp_writeBack (v := v) (P := fun _ _ => False) heff.wf hroom) ?_ fun _ _ => False.elim
    rintro _ s₂ ⟨heff₂, -⟩
    rw [heff.toList_eq] at heff₂
    exact heff.trans heff₂
  simp only [wp_bind, wp_self, wp_when] at hstore ⊢
  refine wp_len h ⟨fun hfull => ?_, fun hroom => hstore s (.refl h) (by omega)⟩
  rw [hintedCap, wp_ite]
  refine ⟨fun _ => wp_pure.mpr ?_, fun _ => wp_throw.mpr ⟨.inl (.inl rfl), .refl _⟩⟩
  refine wp_mono (wp_reserve h) (fun _ s₁ hg => ?_) fun p s' => ReservePanic.untouched
  have hcap := (le_growTarget _ _).trans hg.cap_ge
  have hlen := hg.len_eq
  exact hstore s₁ (hg.effect h) (by omega)

theorem keeps_produced {s₁ : Frame (SliceDeque β) T} {v : T} (h : WF E s.self)
    (heff : Effect E ⟨s.self, s.world.produce [v]⟩ s₁ (s.self.toList E ++ [v]) []) :
    Keeps (owner E) f s s₁ [] [] [] ∧ s₁.self.elems.len = s.self.elems.len + 1 := by
  have hmade := (Keeps.refl (O := owner E) (f := f) h []).produce [v]
  refine ⟨hmade.trans (heff.keeps (by simp)), ?_⟩
  rw [heff.len_eq, List.length_append, toList_length, List.length_singleton]

/-- `extend` takes what the iterator makes, as far as it gets. -/
theorem conserves_extendDesugared {hint : Hint} : ∀ (iter : List (Option T)) (k : Nat)
    (s : Frame (SliceDeque β) T), WF E s.self →
    Conserves E (owner E) f (extendDesugared E hint k iter) [] (fun _ => []) s := by
  intro iter
  induction iter with
  | nil =>
    intro k s h
    exact wp_pure.mpr (.refl h _)
  | cons next rest ih =>
    intro k s h
    simp only [Conserves, extendDesugared, wp_bind]
    refine wp_produce (fun v _ => ?_) fun _ => .of_keeps clean_user ((Keeps.refl h []).produce [])
    refine wp_mono (wp_extendOne (s := ⟨s.self, s.world.produce [v]⟩) h) (fun _ s₁ heff => ?_) fun p s' hp => ?_
    · obtain ⟨hk, -⟩ := keeps_produced (f := f) h heff
      exact Conserves.after hk (ih (k + 1) s₁ hk.ok)
    · exact .of_keeps hp.1.clean (((Keeps.refl h []).produce [v]).trans (hp.2.keeps h []))

theorem conserves_extend {hint : Hint} {iter : List (Option T)} (h : WF E s.self) :
    Conserves E (owner E) f (extend E hint iter) [] (fun _ => []) s :=
  conserves_extendDesugared iter 0 s h

/-- After the reservation user code alone can panic. -/
theorem wp_extendWithLoop {make : Nat → Option T} : ∀ (todo i : Nat) (s : Frame (SliceDeque β) T),
    WF E s.self → i = s.self.elems.len → i + todo ≤ s.self.capacity →
    wp (extendWithLoop E make todo i) s (fun _ s' => Keeps (owner E) f s s' [] [] [])
      (fun p s' => p = .user ∧ Keeps (owner E) f s s' [] [] []) := by
  intro todo
  induction todo with
  | zero =>
    intro i s h _ _
    exact wp_pure.mpr (.refl h _)
  | succ todo ih =>
    rintro i s h rfl hcap
    simp only [extendWithLoop, wp_bind]
    refine wp_produce (fun v _ => ?_) fun _ => ⟨rfl, (Keeps.refl h []).produce []⟩
    rw [← wp_bind]
    refine wp_mono (wp_writeBack (s := ⟨s.self, s.world.produce [v]⟩) (v := v) (P := fun _ _ => False) h
      (by dsimp only; omega)) ?_ fun _ _ => False.elim
    rintro _ s₁ ⟨heff, hcap₁⟩
    obtain ⟨hk, hlen⟩ := keeps_produced (f := f) h heff
    dsimp only at hcap₁
    refine wp_mono (ih _ s₁ heff.wf hlen.symm (by omega)) (fun _ _ h' => hk.trans h') ?_
    exact fun p _ hp => ⟨hp.1, hk.trans hp.2⟩

/-- A panic that leaves the deque alone when it comes from the allocator. -/
def BulkPanic (E : Env T β) (f : T → ι) (given : List T) (s : Frame (SliceDeque β) T) (p : Panic)
    (s' : Frame (SliceDeque β) T) : Prop :=
  Unwound E (owner E) f given s p s' ∧ ∀ e, p = .alloc e → Untouched s s' given

theorem bulkPanic_of_reserve (h : WF E s.self) {p : Panic} {s' : Frame (SliceDeque β) T}
    (hp : ReservePanic E s p s') : BulkPanic E f [] s p s' :=
  ⟨unwound_of_untouched h hp.untouched.1.clean hp.untouched.2, fun _ _ => hp.untouched.2⟩

theorem BulkPanic.of_user {given : List T} {p : Panic} {s' : Frame (SliceDeque β) T}
    (hp : p = .user ∨ p = .destructor) (hk : Keeps (owner E) f s s' given [] []) : BulkPanic E f given s p s' := by
  rcases hp with rfl | rfl
  · exact ⟨.of_keeps clean_user hk, by simp⟩
  · exact ⟨.of_keeps clean_destructor hk, by simp⟩

theorem wp_truncate_bulk {n : Nat} (h : WF E s.self) :
    wp (truncate E n) s (fun _ s' => Keeps (owner E) f s s' [] [] [] ∧ s'.self.elems.len = min n s.self.elems.len)
      (fun p s' => p = .destructor ∧ Keeps (owner E) f s s' [] [] []) := by
  have hl : ids f (s.self.toList E) = ids f ((s.self.toList E).take n) + ids f ((s.self.toList E).drop n) := by
    rw [← ids_append, List.take_append_drop]
  refine wp_mono (wp_truncateBack h) (fun _ s' heff => ⟨heff.keeps (by simpa using hl), ?_⟩) ?_
  · rw [heff.len_eq, List.length_take, toList_length]
  · rintro p s' ⟨rfl, -, heff⟩
    exact ⟨rfl, heff.keeps (by simpa using hl)⟩

theorem wp_extendWith {n : Nat} {make : Nat → Option T} (h : WF E s.self) :
    wp (extendWith E n make) s (fun _ s' => Keeps (owner E) f s s' [] [] []) (BulkPanic E f [] s) := by
  simp only [extendWith, wp_bind]
  refine wp_mono (wp_reserve h) (fun _ s₁ hg => ?_) fun p s' => bulkPanic_of_reserve h
  have hk : Keeps (owner E) f s s₁ [] [] [] := (hg.effect h).keeps (by simp)
  have hcap := (le_growTarget _ _).trans hg.cap_ge
  have hlen := hg.len_eq
  refine wp_len hg.wf (wp_mono (wp_extendWithLoop n _ s₁ hg.wf rfl (by omega)) (fun _ _ h' => hk.trans h') ?_)
  exact fun p _ hp => .of_user (.inl hp.1) (hk.trans hp.2)

theorem wp_resizeDefault {n : Nat} (h : WF E s.self) :
    wp (resizeDefault E n) s (fun _ s' => Keeps (owner E) f s s' [] [] []) (BulkPanic E f [] s) := by
  simp only [resizeDefault, wp_bind]
  refine wp_len h ?_
  rw [wp_ite]
  refine ⟨fun _ => wp_extendWith h, fun _ => wp_mono (wp_truncate_bulk h) (fun _ _ h' => h'.1) ?_⟩
  exact fun p _ hp => .of_user (.inr hp.1) hp.2

/-- The clones of `resize` fit into the reserved slots. -/
theorem wp_resizeLoop {n : Nat} {v : T} : ∀ (todo : Nat) (s : Frame (SliceDeque β) T), WF E s.self →
    s.self.elems.len + todo = n → n ≤ s.self.capacity →
    wp (resizeLoop E n v todo) s (fun _ s' => Keeps (owner E) f s s' [] [] [] ∧ s'.self.elems.len = n)
      (fun p s' => p = .user ∧ Keeps (owner E) f s s' [] [] []) := by
  intro todo
  induction todo with
  | zero =>
    intro s h hn _
    exact wp_pure.mpr ⟨.refl h _, hn⟩
  | succ todo ih =>
    intro s h hn hcap
    simp only [resizeLoop, wp_bind]
    refine wp_len h ?_
    simp only [wp_when, wp_bind]
    refine ⟨fun _ => ?_, fun hge => absurd (show s.self.elems.len < n by omega) hge⟩
    refine wp_produce (fun c _ => ?_) fun _ => ⟨rfl, (Keeps.refl h []).produce []⟩
    refine wp_mono (wp_pushBack_room (s := ⟨s.self, s.world.produce [c]⟩) (P := fun _ _ => False) h
      (by dsimp only; omega)) ?_ fun _ _ => False.elim
    rintro _ s₁ ⟨heff, hcap₁⟩
    obtain ⟨hk, hlen⟩ := keeps_produced (f := f) h heff
    dsimp only at hcap₁
    refine wp_mono (ih s₁ heff.wf (by omega) (by omega)) (fun _ _ h' => ⟨hk.trans h'.1, h'.2⟩) ?_
    exact fun p _ hp => ⟨hp.1, hk.trans hp.2⟩

theorem wp_resize {n : Nat} {v : T} (h : WF E s.self) :
    wp (resize E n v) s (fun _ s' => Keeps (owner E) f s s' [v] [] []) (BulkPanic E f [v] s) := by
  simp only [resize, wp_bind]
  have hdrop : ∀ s₁, Keeps (owner E) f s s₁ [] [] [] → Keeps (owner E) f s ⟨s₁.self, s₁.world.destroy [v]⟩ [v] [] [] :=
    fun s₁ hk => (hk.frame [v]).destroy
  refine wp_onPanic_dropValue (wp_mono (Q := fun _ s₁ => Keeps (owner E) f s s₁ [] [] [])
    (P := BulkPanic E f [] s) ?_ (fun _ s₁ hk => wp_dropValue (hdrop s₁ hk) fun _ => .of_user (.inr rfl) (hdrop s₁ hk)) ?_)
  · simp only [wp_bind]
    refine wp_len h ?_
    have hend : ∀ s₁, Keeps (owner E) f s s₁ [] [] [] → s₁.self.elems.len = n →
        wp (len E) s₁ (fun l s₂ => wp (debugAssert E (l = n)) s₂ (fun _ s₃ => Keeps (owner E) f s s₃ [] [] [])
          (BulkPanic E f [] s)) (BulkPanic E f [] s) :=
      fun s₁ hk hlen => wp_len hk.ok (wp_debugAssert hlen hk)
    simp only [wp_ite, wp_bind]
    refine ⟨fun hlt => ?_, fun hge => ?_⟩
    · refine wp_mono (wp_reserve h) (fun _ s₁ hg => ?_) fun p s' => bulkPanic_of_reserve h
      have hk : Keeps (owner E) f s s₁ [] [] [] := (hg.effect h).keeps (by simp)
      have hcap := (le_growTarget _ _).trans hg.cap_ge
      have hlen := hg.len_eq
      refine wp_mono (wp_resizeLoop _ s₁ hg.wf (by omega) (by omega))
        (fun _ s₂ h₂ => hend s₂ (hk.trans h₂.1) h₂.2) fun p _ hp => .of_user (.inl hp.1) (hk.trans hp.2)
    · refine wp_mono (wp_truncate_bulk h) (fun _ s₁ h₁ => hend s₁ h₁.1 (by rw [h₁.2]; omega))
        fun p _ hp => .of_user (.inr hp.1) hp.2
  · rintro p s₁ ⟨⟨hc, lost, out, hl, hk⟩, hu⟩
    refine ⟨⟨hc, lost, out, hl, ?_⟩, fun e he => ?_⟩
    · exact (hk.frame [v]).destroy
    · have := (hu e he).destroy [v]
      rwa [List.nil_append] at this

/-! ## Copying by `clone` -/

/-- The slot that is assigned to may hold anything: its old value is dropped. -/
theorem safe_assignClone {i : Nat} {v : T} (h : WF E s.self) (hi : i < s.self.elems.len) :
    wp (assignClone E i v) s (fun _ s' => Safe (owner E) s s' [] ∧ s'.self.elems = s.self.elems)
      (fun p s' => (p = .user ∨ p = .destructor) ∧ Safe (owner E) s s' []) := by
  have hle := h.len_le
  have hmade : ∀ vs : List T, Trade s.world (s.self.regions E : Multiset (Nat × Nat)) (s.world.produce vs)
      (s.self.regions E : Multiset (Nat × Nat)) := fun vs => .produce _ _ vs
  simp only [assignClone, wp_bind]
  refine wp_produce (fun c _ => ?_) fun _ => ⟨.inl rfl, ⟨h, ?_⟩⟩
  · refine wp_readSlot (s := ⟨s.self, s.world.produce [c]⟩) h (by omega) (by dsimp only; omega) ?_
    have hstore : ∀ (w : World T) (Q : Unit → Frame (SliceDeque β) T → Prop) (P : Panic → Frame (SliceDeque β) T → Prop),
        (∀ d', WF E d' → Rewritten s.self d' → Q () ⟨d', w⟩) → wp (writeSlot E i c) ⟨s.self, w⟩ Q P :=
      fun w Q P hQ => wp_writeSlot h (by omega) (by dsimp only; omega) fun d' hwf hr _ => hQ d' hwf hr
    have hsafe : ∀ d', WF E d' → Rewritten s.self d' → ∀ u : T,
        Safe (owner E) s ⟨d', (s.world.produce [c]).destroy [u]⟩ [] := by
      intro d' hwf hr u
      refine ⟨hwf, ?_⟩
      simp only [owner, hr.regions_eq, Multiset.coe_nil, add_zero]
      exact (hmade [c]).trans (.destroy _ _ _)
    refine wp_onPanic (P := fun p s' => p = .destructor ∧
      s' = ⟨s.self, (s.world.produce [c]).destroy [s.self.slot E i]⟩) ?_ ?_
    · refine wp_dropValue ?_ fun _ => ⟨rfl, rfl⟩
      exact hstore _ _ _ fun d' hwf hr => ⟨hsafe d' hwf hr _, hr.elems_eq⟩
    · rintro p _ ⟨rfl, rfl⟩
      exact hstore _ _ _ fun d' hwf hr => ⟨.inr rfl, hsafe d' hwf hr _⟩
  · simp only [owner, Multiset.coe_nil, add_zero]
    exact hmade []

theorem safe_cloneFromSlice : ∀ (vs : List T) (i : Nat) (s : Frame (SliceDeque β) T), WF E s.self →
    i + vs.length = s.self.elems.len →
    wp (cloneFromSlice E i vs) s (fun _ s' => Safe (owner E) s s' [])
      (fun p s' => (p = .user ∨ p = .destructor) ∧ Safe (owner E) s s' []) := by
  intro vs
  induction vs with
  | nil =>
    intro i s h _
    exact wp_pure.mpr (.refl h)
  | cons v vs ih =>
    intro i s h hi
    rw [List.length_cons] at hi
    rw [cloneFromSlice, wp_bind]
    refine wp_mono (safe_assignClone h (by omega)) ?_ fun _ _ => id
    rintro _ s₁ ⟨hs, helems⟩
    refine wp_mono (ih (i + 1) s₁ hs.ok (by rw [helems]; omega)) (fun _ _ h' => hs.trans h') ?_
    exact fun p _ hp => ⟨hp.1, hs.trans hp.2⟩

/-- `extend_from_slice` first makes the new slots part of the deque. -/
theorem safe_extendFromSlice {vs : List T} (h : WF E s.self) :
    wp (extendFromSlice E vs) s (fun _ s' => Safe (owner E) s s' [])
      (fun p s' => Clean p ∧ Safe (owner E) s s' [] ∧ ∀ e, p = .alloc e → Untouched s s' []) := by
  simp only [extendFromSlice, wp_bind]
  refine wp_mono (wp_reserve h) (fun _ s₁ hg => ?_) fun p s' hp => ?_
  · have hs : Safe (owner E) s s₁ [] := (hg.effect h).safe
    have hcap := (le_growTarget _ _).trans hg.cap_ge
    have hlen := hg.len_eq
    have hlt := hg.wf.cap_lt
    refine wp_len hg.wf ?_
    rw [asIsize_of_lt (show vs.length < isizeBound by omega)]
    refine wp_moveTailUnchecked (n := s₁.self.elems.len + vs.length) hg.wf (by push_cast; rfl) (by omega) ?_
    have hwf : WF E (s₁.self.withLen (s₁.self.elems.len + vs.length)) := hg.wf.withLen (by omega)
    have hs₂ : Safe (owner E) s ⟨s₁.self.withLen (s₁.self.elems.len + vs.length), s₁.world⟩ [] := ⟨hwf, hs.trade⟩
    refine wp_mono (safe_cloneFromSlice vs _ _ hwf rfl) (fun _ _ h' => hs₂.trans h') ?_
    rintro p s' ⟨rfl | rfl, h'⟩
    · exact ⟨clean_user, hs₂.trans h', by simp⟩
    · exact ⟨clean_destructor, hs₂.trans h', by simp⟩
  · obtain ⟨hr, hu⟩ := hp.untouched
    exact ⟨hr.clean, (Change.of_untouched h hu).safe, fun _ _ => hu⟩

theorem conserves_pushClones : ∀ (vs : List T) (s : Frame (SliceDeque β) T), WF E s.self →
    Conserves E (owner E) f (pushClones E vs) [] (fun _ => []) s := by
  intro vs
  induction vs with
  | nil =>
    intro s h
    exact wp_pure.mpr (.refl h _)
  | cons v vs ih =>
    intro s h
    simp only [Conserves, pushClones, wp_bind]
    refine wp_produce (fun c _ => ?_) fun _ => .of_keeps clean_user ((Keeps.refl h []).produce [])
    have hmade := (Keeps.refl (O := owner E) (f := f) h []).produce [c]
    refine wp_mono (conserves_pushBack (f := f) (s := ⟨s.self, s.world.produce [c]⟩) h) (fun _ s₁ hk => ?_) fun p s' hp => hp.after hmade
    exact Conserves.after (hmade.trans hk) (ih s₁ hk.ok)

theorem conserves_cloneFrom {other : SliceDeque β} (h : WF E s.self) (ho : WF E other) :
    Conserves E (owner E) f (cloneFrom E other) [] (fun _ => []) s := by
  simp only [Conserves, cloneFrom, wp_bind]
  refine wp_mono (conserves_truncateBack h) (fun _ s₁ hk => ?_) fun _ _ => id
  exact wp_readRange ho.covers_toList (Conserves.after hk (conserves_pushClones _ s₁ hk.ok))

theorem conserves_clone (h : WF E s.self) :
    wp (clone E) s (fun d s' => WF E d ∧ Keeps (owner E) f s s' [] (d.toList E) (d.regions E))
      (Unwound E (owner E) f [] s) := by
  simp only [clone, wp_bind]
  refine wp_len h (wp_mono (conserves_withCapacity h) ?_ fun _ _ => id)
  rintro new s₁ ⟨hwf, hk⟩
  rw [← List.append_nil (new.toList E)] at hk
  rw [wp_self]
  refine wp_readRange (WF.covers_toList hk.ok) ?_
  rw [wp_onLocal]
  refine wp_onPanic (P := Unwound E (owner E) f [] ⟨new, s₁.world⟩) ?_ ?_
  · refine wp_mono (conserves_pushClones _ ⟨new, s₁.world⟩ hwf) (fun _ t ht => wp_pure.mpr ⟨ht.ok, ?_⟩) fun _ _ => id
    have hk' := hk.onLocal ht
    rwa [List.append_nil, List.append_nil] at hk'
  · rintro p t ⟨hc, lost, out, hl, ht⟩
    have hk' := hk.onLocal ht
    simp only [dropSelf, wp_bind, wp_self]
    refine wp_mono (wp_drop ht.ok) (fun _ t' hd => ⟨hc, lost, out, hl, (hd.keeps hk' :)⟩) ?_
    exact fun _ t' hd => ⟨hc, lost, out, hl, (hd.2.2.keeps hk' :)⟩

end Sdeq.SliceDeque
