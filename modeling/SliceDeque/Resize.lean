import SliceDeque.Extend

/-!
# Growing by clones and default values

`resize` pushes clones one by one, `resize_default` and `from_elem` write
behind the tail and move it over every value. After a panic of user code the
deque holds what it held before and the values that were made.
-/

set_option autoImplicit false

namespace Sdeq
open Exec

/-- The values that user code makes in `n` calls, the first of which is the `k`-th one, before it panics. -/
def madeFrom {T : Type} (make : Nat → Option T) : (k n : Nat) → List T
  | _, 0 => []
  | k, n + 1 => match make k with
    | none => []
    | some v => v :: madeFrom make (k + 1) n

namespace SliceDeque
variable {T β X : Type} (E : Env T β)

/-- `extend_with` for `ExtendElement`: the last value is the element itself. -/
def extendWithElement (n : Nat) (value : T) : DeqM T β Unit :=
  if n = 0 then do
    onPanic (reserve E n) (dropValue E value)
    dropValue E value
  else do
    let l ← onPanic (do
      reserve E n
      let l ← len E
      extendWithLoop E (fun k => E.cloneOf k value) (n - 1) l
      pure l) (dropValue E value)
    writeSlot E (l + (n - 1) : Nat) value
    moveTailUnchecked E 1

/-- `from_elem` -/
def fromElem (elem : T) (n : Nat) : Method T X (SliceDeque β) := do
  let v ← onPanic (withCapacity E n) (dropValue E elem)
  let r ← onLocal v (onPanic (extendWithElement E n elem) (dropSelf E))
  pure r.2

variable {E} {s s' s₁ : Frame (SliceDeque β) T} {d : SliceDeque β} {v : T} {n : Nat}

/-! ## One value -/

/-- The deque with the value behind the others. -/
def pushed (E : Env T β) (d : SliceDeque β) (v : T) : SliceDeque β :=
  ⟨⟨d.elems.ptr, d.elems.len + 1⟩,
    d.buf.withMemory (d.buf.ptr.mirror.write E.layout (d.elems.ptr + d.elems.len * E.layout.size) v)⟩

/-- The values `vs` are behind the others; the buffer and the head are where they were. -/
structure Filled (E : Env T β) (s s' : Frame (SliceDeque β) T) (vs : List T) : Prop where
  change : Change E s s' (s.self.toList E ++ vs) [] vs
  begin_eq : s'.self.elems.ptr = s.self.elems.ptr
  base_eq : s'.self.buf.ptr.mirror.base = s.self.buf.ptr.mirror.base
  capacity_eq : s'.self.capacity = s.self.capacity

theorem ends_writeBack_pushed (h : WF E s.self) (hroom : s.self.elems.len < s.self.capacity) :
    Ends (do
      writeSlot E s.self.elems.len v
      moveTailUnchecked E 1) s fun _ s' => s' = ⟨pushed E s.self v, s.world⟩ := by
  apply (ends_writeBack h hroom).wp (P := fun _ _ => True)
  have hcov := h.covers_slot (i := s.self.elems.len) (by omega) (by omega)
  simp only [writeSlot, writeAt, wp_bind, wp_self, if_pos hcov, wp_pure, wp_setSelf]
  exact wp_moveTailUnchecked (n := s.self.elems.len + 1) (h.withMemory rfl rfl) (by push_cast; rfl) hroom rfl

theorem ends_pushBack_pushed (h : WF E s.self) (hroom : s.self.elems.len < s.self.capacity) :
    Ends (pushBack E v) s fun _ s' => s' = ⟨pushed E s.self v, s.world⟩ := by
  rw [pushBack, tryPushBack, ends_bind, ends_onPanic, ends_bind, ends_reserveIfFull h]
  refine ⟨fun hfull => absurd hfull hroom.ne, fun _ => ?_⟩
  apply ends_mono _ fun r s' hs' => ends_unwrapPush.mpr hs'
  apply (ends_backSlot h hroom).wp (P := fun _ _ => True)
  have hwf : WF E (s.self.withLen (s.self.elems.len + 1)) := h.withLen hroom
  have hcov := hwf.covers_slot (i := s.self.elems.len) (by omega) (by exact_mod_cast hroom)
  simp only [wp_bind]
  apply wp_moveTailUnchecked (n := s.self.elems.len + 1) h (by push_cast; rfl) hroom
  apply wp_len hwf
  rw [wp_usizeSub]
  refine ⟨fun _ => ?_, fun hlt => absurd hlt (Nat.not_lt.mpr (Nat.succ_pos _))⟩
  rw [show (s.self.withLen (s.self.elems.len + 1)).elems.len - 1 = s.self.elems.len from rfl]
  apply wp_unwrapIndex (Nat.lt_succ_self _)
  simp only [writeSlot, writeAt, wp_bind, wp_self, if_pos hcov, wp_pure, wp_setSelf]
  exact ⟨trivial, rfl⟩

theorem filled_pushed (h : WF E s.self) (hroom : s.self.elems.len < s.self.capacity) :
    Filled E s ⟨pushed E s.self v, s.world.produce [v]⟩ [v] := by
  have hends := (ends_writeBack (s := ⟨s.self, s.world.produce [v]⟩) (v := v) h hroom).unique
    (ends_writeBack_pushed (s := ⟨s.self, s.world.produce [v]⟩) h hroom)
  obtain ⟨_, _, -, hstored, rfl⟩ := hends
  exact ⟨((Change.refl h).produce [v]).trans hstored.effect, rfl, rfl, hstored.capacity_eq⟩

theorem Filled.refl (h : WF E s.self) : Filled E s s [] := by
  refine ⟨?_, rfl, rfl, rfl⟩
  rw [List.append_nil]
  exact .refl h

theorem Filled.cons {vs : List T} (h : Filled E s s₁ [v]) (h' : Filled E s₁ s' vs) : Filled E s s' (v :: vs) := by
  refine ⟨?_, h'.begin_eq.trans h.begin_eq, h'.base_eq.trans h.base_eq, h'.capacity_eq.trans h.capacity_eq⟩
  have hchange := h.change.trans h'.change
  rwa [h.change.toList_eq, List.append_assoc] at hchange

/-! ## The loops -/

/-- The deque is filled with the values of `n` calls of user code, or of those before a panic. -/
def Fills (E : Env T β) (make : Nat → Option T) (n : Nat) (m : DeqM T β Unit) (s : Frame (SliceDeque β) T) : Prop :=
  Does m s
    (fun _ s' => Filled E s s' (madeFrom make s.world.produced n) ∧ (madeFrom make s.world.produced n).length = n)
    (fun p s' => p = .user ∧ Filled E s s' (madeFrom make s.world.produced n) ∧
      (madeFrom make s.world.produced n).length < n)

/-- One round of a loop: a value is made, and stored behind the others. -/
theorem Fills.round {make : Nat → Option T} {store : T → DeqM T β Unit} {rest : DeqM T β Unit} (h : WF E s.self)
    (hroom : s.self.elems.len < s.self.capacity)
    (hstore : ∀ v w, Ends (store v) ⟨s.self, w⟩ fun _ s₁ => s₁ = ⟨pushed E s.self v, w⟩)
    (hrest : ∀ v s₁, Filled E s s₁ [v] → Fills E make n rest s₁) :
    Fills E make (n + 1) (do
      let v ← produce make
      store v
      rest) s := by
  rw [Fills, madeFrom]
  cases hm : make s.world.produced with
  | none =>
    have hpanic : Does (produce make) s (fun _ _ => False) fun p s' => p = .user ∧ s' = ⟨s.self, s.world.produce []⟩ :=
      does_produce (fun v hv => absurd (hm.symm.trans hv) (by simp)) fun _ => ⟨rfl, rfl⟩
    apply does_bind (hpanic.mono (fun _ _ => id) _) fun _ _ => False.elim
    rintro p _ ⟨rfl, rfl⟩
    refine ⟨rfl, ⟨?_, rfl, rfl, rfl⟩, Nat.succ_pos _⟩
    rw [List.append_nil]
    exact (Change.refl h).produce []
  | some v =>
    have hmade : Does (produce make) s (fun u s₁ => u = v ∧ s₁ = ⟨s.self, s.world.produce [v]⟩) fun _ _ => False :=
      does_produce (fun u hu => by rw [hm] at hu; cases hu; exact ⟨rfl, rfl⟩) fun h0 => absurd (hm.symm.trans h0) (by simp)
    apply does_bind (hmade.mono (fun _ _ => id) fun _ _ => False.elim)
    intro u s₁ hu
    rw [hu.1, hu.2]
    apply does_bind (hstore v _).does
    intro _ s₂ hs₂
    rw [hs₂]
    have hfilled := filled_pushed (v := v) h hroom
    apply (hrest v _ hfilled).mono
    · exact fun _ s' hs' => ⟨hfilled.cons hs'.1, congrArg Nat.succ hs'.2⟩
    · exact fun p s' hp => ⟨hp.1, hfilled.cons hp.2.1, Nat.succ_lt_succ hp.2.2⟩

theorem fills_nothing {make : Nat → Option T} (h : WF E s.self) : Fills E make 0 (pure ()) s :=
  does_pure ⟨.refl h, rfl⟩

theorem Filled.next {v : T} (h : Filled E s s₁ [v]) : s₁.self.elems.len = s.self.elems.len + 1 := by
  rw [h.change.len_eq, List.length_append, toList_length, List.length_singleton]

theorem fills_extendWithLoop {make : Nat → Option T} : ∀ (todo i : Nat) (s : Frame (SliceDeque β) T), WF E s.self →
    i = s.self.elems.len → i + todo ≤ s.self.capacity → Fills E make todo (extendWithLoop E make todo i) s := by
  intro todo
  induction todo with
  | zero => exact fun i s h _ _ => fills_nothing h
  | succ todo ih =>
    intro i s h hi hcap
    have hroom : s.self.elems.len < s.self.capacity := by omega
    -- the write and the move of the tail are one store
    have hround : Fills E make (todo + 1) (do
        let v ← produce make
        (do
          writeSlot E s.self.elems.len v
          moveTailUnchecked E 1)
        extendWithLoop E make todo (i + 1)) s := by
      apply Fills.round h hroom
      · exact fun v w => ends_writeBack_pushed (s := ⟨s.self, w⟩) h hroom
      · intro v s₁ hs₁
        have hlen := hs₁.next
        have hcap₁ := hs₁.capacity_eq
        exact ih (i + 1) s₁ hs₁.change.wf (by omega) (by omega)
    simp only [bind_bind, ← hi] at hround
    exact hround

theorem does_len_bind {α : Type} {f : Nat → DeqM T β α} {Q : α → Frame (SliceDeque β) T → Prop}
    {P : Panic → Frame (SliceDeque β) T → Prop} (h : WF E s.self) (hf : Does (f s.self.elems.len) s Q P) :
    Does (len E >>= f) s Q P := by
  have hlen : Ends (len E) s fun l s' => l = s.self.elems.len ∧ s' = s := by
    rw [ends_len h]
    exact ⟨rfl, rfl⟩
  apply does_bind hlen.does
  intro l s' hl
  rwa [hl.1, hl.2]

theorem fills_resizeLoop : ∀ (todo : Nat) (s : Frame (SliceDeque β) T), WF E s.self → s.self.elems.len + todo = n →
    n ≤ s.self.capacity → Fills E (fun k => E.cloneOf k v) todo (resizeLoop E n v todo) s := by
  intro todo
  induction todo with
  | zero => exact fun s h _ _ => fills_nothing h
  | succ todo ih =>
    intro s h hn hcap
    have hroom : s.self.elems.len < s.self.capacity := by omega
    apply does_len_bind h
    rw [when, if_pos (by omega)]
    apply Fills.round h hroom
    · exact fun v w => ends_pushBack_pushed (s := ⟨s.self, w⟩) h hroom
    · intro v s₁ hs₁
      have hlen := hs₁.next
      have hcap₁ := hs₁.capacity_eq
      exact ih s₁ hs₁.change.wf (by omega) (by omega)

/-! ## The operations -/

/-- The deque was cut to `n` values, or filled up in the slots that were reserved for that, without
being moved after the reservation. -/
structure Resized (E : Env T β) (s s' : Frame (SliceDeque β) T) (n : Nat) (vs arg : List T) : Prop where
  change : Change E s s' ((s.self.toList E).take n ++ vs) ((s.self.toList E).drop n ++ arg) vs
  stays : s.self.elems.len < n → ∃ s₁, reserve E (n - s.self.elems.len) s = ⟨false, .ok (), s₁⟩ ∧
    s'.self.elems.ptr = s₁.self.elems.ptr ∧ s'.self.buf.ptr.mirror.base = s₁.self.buf.ptr.mirror.base

/-- What growing to `n` values made by user code should do. A panic comes from user code, with the
values that were made in the deque, from a destructor, or from a reservation that did nothing. -/
def Resizes (E : Env T β) (op : DeqM T β Unit) (s : Frame (SliceDeque β) T) (n : Nat) (make : Nat → Option T)
    (arg : List T) : Prop :=
  Does op s
    (fun _ s' => (madeFrom make s.world.produced (n - s.self.elems.len)).length = n - s.self.elems.len ∧
      Resized E s s' n (madeFrom make s.world.produced (n - s.self.elems.len)) arg)
    (fun p s' =>
      p = .user ∧ (madeFrom make s.world.produced (n - s.self.elems.len)).length < n - s.self.elems.len ∧
        Resized E s s' n (madeFrom make s.world.produced (n - s.self.elems.len)) arg ∨
      p = .destructor ∧ DestructorsPanic E ∧ (madeFrom make s.world.produced (n - s.self.elems.len)).length = n - s.self.elems.len ∧
        Resized E s s' n (madeFrom make s.world.produced (n - s.self.elems.len)) arg ∨
      Refusal E p ∧ Untouched s s' arg)

theorem Resized.destroy {vs arg : List T} (h : Resized E s s' n vs arg) (v : T) :
    Resized E s ⟨s'.self, s'.world.destroy [v]⟩ n vs (arg ++ [v]) := by
  refine ⟨?_, h.stays⟩
  rw [← List.append_assoc]
  exact h.change.destroy [v]

theorem resized_of_filled {vs : List T} (h : WF E s.self) (hlt : s.self.elems.len < n) {c : Nat}
    (hs₁ : reserve E (n - s.self.elems.len) s = ⟨false, .ok (), s₁⟩) (hg : Grown E s s₁ c) (hf : Filled E s₁ s' vs) :
    Resized E s s' n vs [] := by
  have hlen := toList_length (E := E) s.self
  refine ⟨?_, fun _ => ⟨s₁, hs₁, hf.begin_eq, hf.base_eq⟩⟩
  rw [List.take_of_length_le (by omega), List.drop_of_length_le (by omega)]
  have hchange := (hg.effect h).trans hf.change
  rwa [hg.toList_eq] at hchange

theorem resizes_grow {make : Nat → Option T} {fill : DeqM T β Unit} (h : WF E s.self) (hlt : s.self.elems.len < n)
    (ha : s.self.capacity < n → Askable E (growTarget s.self (n - s.self.elems.len)))
    (hfill : ∀ s₁, WF E s₁.self → s₁.self.elems.len = s.self.elems.len → n ≤ s₁.self.capacity →
      s₁.world.produced = s.world.produced → Fills E make (n - s.self.elems.len) fill s₁) :
    Resizes E (do
      reserve E (n - s.self.elems.len)
      fill) s n make [] := by
  have hreserve := (does_reserve h (n := n - s.self.elems.len) fun hc => ha (by omega)).outcome
  apply does_bind (hreserve.mono (fun _ _ => id) fun p s' hp => .inr (.inr hp.2.untouched))
  intro _ s₁ hs₁
  obtain ⟨hs₁, hg⟩ := hs₁
  have hge := (le_growTarget _ _).trans hg.cap_ge
  have hproduced := hg.produced_eq
  have hdoes := hfill s₁ hg.wf hg.len_eq (by omega) hproduced
  rw [Fills, hproduced] at hdoes
  apply hdoes.mono
  · exact fun _ s' hs' => ⟨hs'.2, resized_of_filled h hlt hs₁ hg hs'.1⟩
  · exact fun p s' hp => .inl ⟨hp.1, hp.2.2, resized_of_filled h hlt hs₁ hg hp.2.1⟩

theorem resizes_truncate {make : Nat → Option T} (h : WF E s.self) (hge : n ≤ s.self.elems.len) :
    Resizes E (truncate E n) s n make [] := by
  have hz : n - s.self.elems.len = 0 := by omega
  have hresized : ∀ s', Effect E s s' ((s.self.toList E).take n) ((s.self.toList E).drop n) → Resized E s s' n [] [] := by
    intro s' heff
    refine ⟨?_, fun hlt => by omega⟩
    rwa [List.append_nil, List.append_nil]
  rw [Resizes, hz]
  refine ⟨exact_truncateBack h, wp_mono (wp_truncateBack h) (fun _ s' heff => ⟨rfl, hresized s' heff⟩) ?_⟩
  rintro p s' ⟨hp, hd, heff⟩
  exact .inr (.inl ⟨hp, hd, rfl, hresized s' heff⟩)

theorem resizes_resizeDefault (h : WF E s.self)
    (ha : s.self.capacity < n → Askable E (growTarget s.self (n - s.self.elems.len))) :
    Resizes E (resizeDefault E n) s n E.defaultOf [] := by
  apply does_len_bind h
  apply does_ite
  · intro hlt
    apply resizes_grow h hlt ha
    intro s₁ hwf hlen hcap hproduced
    exact does_len_bind hwf (fills_extendWithLoop _ _ s₁ hwf rfl (by omega))
  · exact fun hge => resizes_truncate h (by omega)

/-- The assertion at the end of `resize` holds. -/
theorem Resizes.asserts {make : Nat → Option T} {op : DeqM T β Unit} {arg : List T} (h : Resizes E op s n make arg) :
    Resizes E (do
      op
      let l ← len E
      debugAssert E (l = n)) s n make arg := by
  apply does_bind h
  intro _ s' hs'
  obtain ⟨hmade, hr⟩ := hs'
  have hlen := hr.change.len_eq
  rw [List.length_append, List.length_take, toList_length, hmade] at hlen
  apply does_len_bind hr.change.wf
  apply Ends.does
  rw [ends_debugAssert (by omega)]
  exact ⟨hmade, hr⟩

theorem resizes_resize (h : WF E s.self)
    (ha : s.self.capacity < n → Askable E (growTarget s.self (n - s.self.elems.len))) :
    Resizes E (resize E n v) s n (fun k => E.cloneOf k v) [v] := by
  have hbody : Resizes E (do
      let l ← len E
      if l < n then do
        reserve E (n - l)
        resizeLoop E n v (n - l)
      else truncate E n
      let l ← len E
      debugAssert E (l = n)) s n (fun k => E.cloneOf k v) [] := by
    apply does_len_bind h
    apply does_ite
    · intro hlt
      have hgrow : Resizes E (do
          reserve E (n - s.self.elems.len)
          resizeLoop E n v (n - s.self.elems.len)) s n (fun k => E.cloneOf k v) [] :=
        resizes_grow h hlt ha fun s₁ hwf hlen hcap hproduced => fills_resizeLoop _ s₁ hwf (by omega) hcap
      have hasserts := hgrow.asserts
      rwa [bind_bind] at hasserts
    · exact fun hge => (resizes_truncate h (by omega)).asserts
  apply does_bind (does_onPanic hbody _)
  · intro _ s' hs'
    obtain ⟨hmade, hr⟩ := hs'
    exact does_dropValue (fun _ => ⟨hmade, hr.destroy v⟩) fun hd => .inr (.inl ⟨rfl, ⟨_, _, hd⟩, hmade, hr.destroy v⟩)
  · intro p s' hp
    have hdrop : ∀ {R : Panic → Frame (SliceDeque β) T → Prop}, R p ⟨s'.self, s'.world.destroy [v]⟩ →
        Does (dropValue E v) s' (fun _ => R p) fun _ => R p := fun hR => does_dropValue (fun _ => hR) fun _ => hR
    apply hdrop
    rcases hp with ⟨hp, hmade, hr⟩ | ⟨hp, hd, hmade, hr⟩ | ⟨hp, hu⟩
    · exact .inl ⟨hp, hmade, hr.destroy v⟩
    · exact .inr (.inl ⟨hp, hd, hmade, hr.destroy v⟩)
    · exact .inr (.inr ⟨hp, hu.destroy [v]⟩)

/-- A reservation whose size wraps around is noticed in every operation that makes one. -/
theorem not_exact_grow {α : Type} {f : Unit → DeqM T β α} (h : WF E s.self) (hn : n < usizeBound) (hc : s.self.capacity < n)
    (ha : ¬ Askable E (growTarget s.self (n - s.self.elems.len))) :
    wp (reserve E (n - s.self.elems.len) >>= f) s (fun _ _ => False) fun _ _ => False := by
  have hle := h.len_le
  rw [wp_bind]
  exact wp_mono (wp_reserve_wraps h (by omega) (by omega) ha) (fun _ _ => False.elim) fun _ _ => id

theorem resizes_iff (h : WF E s.self) (hn : n < usizeBound) :
    (Resizes E (resize E n v) s n (fun k => E.cloneOf k v) [v] ↔
      (s.self.capacity < n → Askable E (growTarget s.self (n - s.self.elems.len)))) ∧
    (Resizes E (resizeDefault E n) s n E.defaultOf [] ↔
      (s.self.capacity < n → Askable E (growTarget s.self (n - s.self.elems.len)))) := by
  have hle := h.len_le
  refine ⟨⟨fun hr hc => by_contra fun ha => ?_, resizes_resize h⟩, ⟨fun hr hc => by_contra fun ha => ?_, resizes_resizeDefault h⟩⟩
  · refine not_exact_of_wp ?_ hr.exact
    rw [resize, wp_bind]
    apply wp_onPanic (P := fun _ _ => False) _ fun _ _ => False.elim
    rw [wp_bind]
    apply wp_len h
    rw [if_pos (by omega)]
    exact wp_mono (not_exact_grow h hn hc ha) (fun _ _ => False.elim) fun _ _ => id
  · refine not_exact_of_wp ?_ hr.exact
    rw [resizeDefault, wp_bind]
    apply wp_len h
    rw [if_pos (by omega), extendWith]
    exact not_exact_grow h hn hc ha

/-! ## A deque of copies -/

section Copies
variable {t : Frame X T}

/-- What `extend_with` leaves of the element: it is the last value, or it is destroyed if nothing was
asked for. -/
def kept (n : Nat) (v : T) : List T := if n = 0 then [] else [v]

def unused (n : Nat) (v : T) : List T := if n = 0 then [v] else []

/-- `extend_with` for an element where there is room: after a panic of `clone` the deque holds the
clones that were made. -/
theorem does_extendWithElement (h : WF E s.self) (hroom : s.self.elems.len + n ≤ s.self.capacity) :
    Does (extendWithElement E n v) s
      (fun _ s' => (madeFrom (fun k => E.cloneOf k v) s.world.produced (n - 1)).length = n - 1 ∧
        Change E s s' (s.self.toList E ++ (madeFrom (fun k => E.cloneOf k v) s.world.produced (n - 1) ++ kept n v)) (unused n v)
          (madeFrom (fun k => E.cloneOf k v) s.world.produced (n - 1)))
      (fun p s' => p = .user ∧ (madeFrom (fun k => E.cloneOf k v) s.world.produced (n - 1)).length < n - 1 ∧
          Change E s s' (s.self.toList E ++ madeFrom (fun k => E.cloneOf k v) s.world.produced (n - 1)) [v]
            (madeFrom (fun k => E.cloneOf k v) s.world.produced (n - 1)) ∨
        p = .destructor ∧ DestructorsPanic E ∧ n = 0 ∧ Change E s s' (s.self.toList E) [v] []) := by
  have hreserve : Ends (reserve E n) s fun _ s' => s' = s :=
    ends_iff.mpr ⟨exact_reserve_room h hroom, wp_reserve_room h hroom rfl⟩
  by_cases hn : n = 0
  · have hdrop : Change E s ⟨s.self, s.world.destroy [v]⟩ (s.self.toList E) [v] [] := (Change.refl h).destroy [v]
    rw [extendWithElement, if_pos hn]
    apply does_bind (ends_onPanic.mpr hreserve).does
    intro _ s' hs'
    rw [hs']
    apply does_dropValue
    · intro _
      rw [kept, unused, if_pos hn, if_pos hn, show n - 1 = 0 by omega, madeFrom, List.append_nil, List.append_nil]
      exact ⟨rfl, hdrop⟩
    · exact fun hd => .inr ⟨rfl, ⟨_, _, hd⟩, hn, hdrop⟩
  · rw [extendWithElement, if_neg hn]
    have hloop : Fills E (fun k => E.cloneOf k v) (n - 1) (extendWithLoop E (fun k => E.cloneOf k v) (n - 1) s.self.elems.len) s :=
      fills_extendWithLoop (n - 1) _ s h rfl (by omega)
    have hbody : Does (do
        reserve E n
        let l ← len E
        extendWithLoop E (fun k => E.cloneOf k v) (n - 1) l
        pure l) s
        (fun l s' => l = s.self.elems.len ∧ (madeFrom (fun k => E.cloneOf k v) s.world.produced (n - 1)).length = n - 1 ∧
          Filled E s s' (madeFrom (fun k => E.cloneOf k v) s.world.produced (n - 1)))
        (fun p s' => p = .user ∧ (madeFrom (fun k => E.cloneOf k v) s.world.produced (n - 1)).length < n - 1 ∧
          Filled E s s' (madeFrom (fun k => E.cloneOf k v) s.world.produced (n - 1))) := by
      apply does_bind hreserve.does
      intro _ s' hs'
      rw [hs']
      apply does_len_bind h
      apply does_bind (hloop.mono (fun _ _ => id) fun p s' hp => ⟨hp.1, hp.2.2, hp.2.1⟩)
      exact fun _ s' hs' => does_pure ⟨rfl, hs'.2, hs'.1⟩
    apply does_bind (does_onPanic hbody _)
    · intro l s' hs'
      obtain ⟨rfl, hmade, hf⟩ := hs'
      have hlen := hf.change.len_eq
      have hcap := hf.capacity_eq
      rw [List.length_append, toList_length, hmade] at hlen
      rw [← hlen]
      apply (ends_writeBack hf.change.wf (by omega)).does.mono _ fun _ _ => id
      intro _ s'' hs''
      refine ⟨hmade, ?_⟩
      rw [kept, unused, if_neg hn, if_neg hn]
      have hchange := hf.change.trans hs''.effect
      rwa [hf.change.toList_eq, List.append_assoc, List.append_nil, List.append_nil] at hchange
    · rintro p s' ⟨hp, hmade, hf⟩
      have hdrop := hf.change.destroy [v]
      exact does_dropValue (fun _ => .inl ⟨hp, hmade, hdrop⟩) fun _ => .inl ⟨hp, hmade, hdrop⟩

/-- What `from_elem` should do: `n - 1` clones are made, and the element is the last value. When user code
panics, what was made is destroyed with the deque. -/
def Copies (E : Env T β) (v : T) (n : Nat) (t : Frame X T) : Prop :=
  Does (fromElem E v n) t
    (fun d t' => (madeFrom (fun k => E.cloneOf k v) t.world.produced (n - 1)).length = n - 1 ∧ WF E d ∧
      d.toList E = madeFrom (fun k => E.cloneOf k v) t.world.produced (n - 1) ++ kept n v ∧ t'.self = t.self ∧
      Logged t.world t'.world (unused n v) (madeFrom (fun k => E.cloneOf k v) t.world.produced (n - 1)) ∧
      ∀ o, Trade t.world o t'.world (o + d.regions E))
    (fun p t' => t'.self = t.self ∧ (∀ o, Trade t.world o t'.world o) ∧
      (p = .user ∧ (madeFrom (fun k => E.cloneOf k v) t.world.produced (n - 1)).length < n - 1 ∧
          Logged t.world t'.world (v :: madeFrom (fun k => E.cloneOf k v) t.world.produced (n - 1))
            (madeFrom (fun k => E.cloneOf k v) t.world.produced (n - 1)) ∨
        p = .destructor ∧ DestructorsPanic E ∧ n = 0 ∧ Logged t.world t'.world [v] [] ∨
        Refusal E p ∧ Logged t.world t'.world [v] []))

theorem copies_fromElem (ha : Askable E n) : Copies E v n t := by
  have hnew : Does (withCapacity E n) t
      (fun d t' => (Created E t t' d [] ∧ n ≤ d.capacity ∧ d.elems.len = 0) ∧ t'.world.produced = t.world.produced)
      (fun p t' => Refusal E p ∧ Untouched t t' []) := by
    refine ⟨exact_withCapacity ha, wp_mono (wp_and wp_withCapacity wp_withCapacity_produced) ?_ ?_⟩
    · exact fun d t' hd => ⟨⟨hd.1.1, hd.1.2.1, by rw [hd.1.2.2.1]⟩, hd.2⟩
    · exact fun p t' hp => hp.1.untouched
  have hrequest : Does (onPanic (withCapacity E n) (dropValue E v)) t
      (fun d t' => (Created E t t' d [] ∧ n ≤ d.capacity ∧ d.elems.len = 0) ∧ t'.world.produced = t.world.produced)
      (fun p t' => Refusal E p ∧ Untouched t t' [v]) := by
    apply does_onPanic hnew
    intro p t' hp
    exact does_dropValue (fun _ => ⟨hp.1, hp.2.destroy [v]⟩) fun _ => ⟨hp.1, hp.2.destroy [v]⟩
  apply does_bind (hrequest.mono (fun _ _ => id) fun p t' hp => ⟨hp.2.self_eq, hp.2.trade, .inr (.inr ⟨hp.1, hp.2.log⟩)⟩)
  intro d t' hd
  obtain ⟨⟨hc, hcap, hlen⟩, hproduced⟩ := hd
  have hfill := does_extendWithElement (s := ⟨d, t'.world⟩) (v := v) (n := n) hc.wf (by dsimp only; omega)
  dsimp only at hfill
  rw [hproduced, hc.toList_eq, List.nil_append, List.nil_append] at hfill
  have hbody : Does (onPanic (extendWithElement E n v) (dropSelf E)) ⟨d, t'.world⟩
      (fun _ s' => (madeFrom (fun k => E.cloneOf k v) t.world.produced (n - 1)).length = n - 1 ∧
        Change E ⟨d, t'.world⟩ s' (madeFrom (fun k => E.cloneOf k v) t.world.produced (n - 1) ++ kept n v) (unused n v)
          (madeFrom (fun k => E.cloneOf k v) t.world.produced (n - 1)))
      (fun p s' => ∃ made dead, (p = .user ∧ (madeFrom (fun k => E.cloneOf k v) t.world.produced (n - 1)).length < n - 1 ∧
            made = madeFrom (fun k => E.cloneOf k v) t.world.produced (n - 1) ∧ dead = v :: made ∨
          p = .destructor ∧ DestructorsPanic E ∧ n = 0 ∧ made = [] ∧ dead = [v]) ∧
        Logged t'.world s'.world dead made ∧ ∀ o, Trade t'.world (o + d.regions E) s'.world o) := by
    apply does_onPanic hfill
    -- the deque is dropped with what it holds
    have hdrop : ∀ (s' : Frame (SliceDeque β) T) (l made : List T), Change E ⟨d, t'.world⟩ s' l [v] made →
        ∀ {R : Frame (SliceDeque β) T → Prop}, (∀ s'', Logged t'.world s''.world (v :: l) made →
          (∀ o, Trade t'.world (o + d.regions E) s''.world o) → R s'') →
        Does (dropSelf E) s' (fun _ s'' => R s'') fun _ s'' => R s'' := by
      intro s' l made hchange R hR
      have hdone : ∀ s'', Consumed s' s'' (s'.self.regions E) (s'.self.toList E) → R s'' := by
        intro s'' hs''
        have hlog := hchange.log.trans hs''.log
        rw [hchange.toList_eq, List.append_nil] at hlog
        exact hR s'' hlog fun o => (hchange.trade.frame_left o).trans (hs''.trade o)
      refine ⟨exact_self_bind (SliceDeque.exact_drop hchange.wf), ?_⟩
      rw [dropSelf, wp_bind, wp_self]
      exact wp_mono (wp_drop hchange.wf) (fun _ s'' hs'' => hdone s'' hs'') fun _ s'' hs'' => hdone s'' hs''.2.2
    rintro p s' (⟨hp, hmade, hchange⟩ | ⟨hp, hd, hn, hchange⟩)
    · exact hdrop s' _ _ hchange fun s'' hlog htrade => ⟨_, _, .inl ⟨hp, hmade, rfl, rfl⟩, hlog, htrade⟩
    · exact hdrop s' _ _ hchange fun s'' hlog htrade => ⟨_, _, .inr ⟨hp, hd, hn, rfl, rfl⟩, hlog, htrade⟩
  apply does_bind (does_onLocal (Q := fun r t'' => t''.self = t'.self ∧
    (madeFrom (fun k => E.cloneOf k v) t.world.produced (n - 1)).length = n - 1 ∧
    Change E ⟨d, t'.world⟩ ⟨r.2, t''.world⟩ (madeFrom (fun k => E.cloneOf k v) t.world.produced (n - 1) ++ kept n v)
      (unused n v) (madeFrom (fun k => E.cloneOf k v) t.world.produced (n - 1))) (hbody.mono ?_ ?_))
  · rintro r t'' ⟨hself, hmade, hchange⟩
    have hlog := hc.log.trans hchange.log
    exact does_pure ⟨hmade, hchange.wf, hchange.toList_eq, hself.trans hc.self_eq, hlog,
      fun o => (hc.trade o).trans (hchange.trade.frame_left o)⟩
  · exact fun _ s' hs' => ⟨rfl, hs'⟩
  · rintro p s' ⟨made, dead, hcase, hlog, htrade⟩
    have hlog := hc.log.trans hlog
    refine ⟨hc.self_eq, fun o => (hc.trade o).trans (htrade o), ?_⟩
    rcases hcase with ⟨hp, hmade, rfl, rfl⟩ | ⟨hp, hd, hn, rfl, rfl⟩
    · exact .inl ⟨hp, hmade, hlog⟩
    · exact .inr (.inl ⟨hp, hd, hn, hlog⟩)

theorem copies_iff : Copies E v n t ↔ Askable E n := by
  refine ⟨fun hr => by_contra fun ha => not_exact_of_wp ?_ hr.exact, copies_fromElem⟩
  rw [fromElem, wp_bind]
  exact wp_mono (wp_onPanic (wp_withCapacity_wraps ha) fun _ _ => False.elim) (fun _ _ => False.elim) fun _ _ => id

end Copies

end SliceDeque

end Sdeq
