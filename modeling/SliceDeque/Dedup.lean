import SliceDeque.Slices

/-!
# Operations that compare elements

`dedup` and `dedup_by_key` are `dedup_by` with closures of their own, and
`remove_item` searches the slice before it removes. Keys and comparisons are
code of the user: they may panic.
-/

set_option autoImplicit false

namespace Sdeq
open Exec Parted

section Model
variable {T β σ κ : Type} (E : Env T β)

/-- `|a, b| key(a) == key(b)`. The closure `key` may change what it looks at. -/
def sameKey (key : σ → T → Option (κ × σ) × T) (eq : κ → κ → Option Bool) (st : σ) (a b : T) :
    Option (Bool × σ) × T × T :=
  match key st a with
  | (none, a') => (none, a', b)
  | (some (ka, st₁), a') =>
    match key st₁ b with
    | (none, b') => (none, a', b')
    | (some (kb, st₂), b') => ((eq ka kb).map fun c => (c, st₂), a', b')

/-- Returns the state that the closure is left in. -/
def SliceDeque.dedupByKey (key : σ → T → Option (κ × σ) × T) (eq : κ → κ → Option Bool) (st : σ) : DeqM T β σ :=
  dedupBy E (sameKey key eq) st

def SliceDeque.dedup (eq : T → T → Option Bool) : DeqM T β Unit :=
  dedupBy E (fun st a b => ((eq a b).map fun c => (c, st), a, b)) ()

/-- `position(|x| *x == *item)` of the last `todo` elements, `i` being the first of them. -/
def OnSlice.position (eq : T → T → Option Bool) (item : T) : (todo i : Nat) → OnSlice T (Option Nat)
  | 0, _ => .done none
  | todo + 1, i => .look i fun x =>
    match eq x item with
    | none => .panic
    | some true => .done (some i)
    | some false => position eq item todo (i + 1)

def SliceDeque.removeItem (eq : T → T → Option Bool) (item : T) : DeqM T β (Option T) := do
  let pos ← (OnSlice.len fun n => .position eq item n 0).run E
  match pos with
  | none => pure none
  | some x => do
    let r ← remove E x
    pure (some r)

end Model

/-- The index of the first value that is equal to `item`, if no comparison before panics. -/
def found {T : Type} (eq : T → T → Option Bool) (item : T) : List T → Except Panic (Option Nat)
  | [] => .ok none
  | x :: l =>
    match eq x item with
    | none => .error .user
    | some true => .ok (some 0)
    | some false => (found eq item l).map (Option.map (· + 1))

/-- The list without the value at that index, which is returned. -/
def withoutItem {T : Type} (eq : T → T → Option Bool) (item : T) (l : List T) : Except Panic (Option T) × List T :=
  match found eq item l with
  | .error e => (.error e, l)
  | .ok none => (.ok none, l)
  | .ok (some i) => (.ok l[i]?, l.eraseIdx i)

/-- `remove_item` when comparing never panics. -/
def erased {T : Type} [BEq T] (item : T) (l : List T) : Option T × List T := (l.find? (· == item), l.erase item)

variable {T β κ : Type} {E : Env T β} {s : Frame (SliceDeque β) T} {eq : T → T → Option Bool} {item : T}

/-! ## Searching -/

theorem position_onList (eq : T → T → Option Bool) (item : T) : ∀ (R K : List T), (OnSlice.position eq item R.length K.length).onList (K ++ R) =
    ((found eq item R).map (Option.map (· + K.length)), K ++ R) := by
  intro R
  induction R with
  | nil => exact fun _ => rfl
  | cons x R ih =>
    intro K
    have hget : (K ++ x :: R)[K.length]? = some x := by simp
    have hnext := ih (K ++ [x])
    rw [List.length_append, List.length_singleton, List.append_assoc, List.singleton_append] at hnext
    simp only [List.length_cons, OnSlice.position, OnSlice.onList, hget, found]
    rcases eq x item with _ | _ | _
    · rfl
    · simp only [hnext, Prod.mk.injEq, and_true]
      rcases found eq item R with _ | _ | i
      · rfl
      · rfl
      · simp [Except.map, Nat.add_assoc, Nat.add_comm 1]
    · simp [OnSlice.onList, Except.map]

theorem does_position (h : SliceDeque.WF E s.self) :
    Does ((OnSlice.len fun n => .position eq item n 0).run E) s
      (fun r s' => found eq item (s.self.toList E) = .ok r ∧ SliceDeque.Edited E s s' (s.self.toList E))
      fun e s' => found eq item (s.self.toList E) = .error e ∧ SliceDeque.Edited E s s' (s.self.toList E) := by
  have hrun := (OnSlice.len fun n => .position eq item n 0).run_done h
  have hlist := position_onList eq item (s.self.toList E) []
  rw [List.length_nil, List.nil_append] at hlist
  have hid : (found eq item (s.self.toList E)).map (Option.map (· + 0)) = found eq item (s.self.toList E) := by
    rcases found eq item (s.self.toList E) with _ | _ | i <;> rfl
  rwa [OnSlice.onList, hlist, hid] at hrun

theorem found_getElem? {l : List T} {i : Nat} (h : found eq item l = .ok (some i)) : ∃ x, l[i]? = some x := by
  induction l generalizing i with
  | nil => cases h
  | cons x l ih =>
    rw [found] at h
    rcases heq : eq x item with _ | _ | _ <;> rw [heq] at h
    · cases h
    · rcases hl : found eq item l with _ | _ | k
      · simp [hl, Except.map] at h
      · simp [hl, Except.map] at h
      · simp only [hl, Except.map, Option.map_some, Except.ok.injEq, Option.some.injEq] at h
        obtain ⟨y, hy⟩ := ih hl
        exact ⟨y, by rw [← h, List.getElem?_cons_succ, hy]⟩
    · cases h
      exact ⟨x, rfl⟩

namespace SliceDeque

theorem Edited.effect {s' : Frame (SliceDeque β) T} {l : List T} (h : Edited E s s' l) : Effect E s s' l [] := by
  have heff : Effect E s ⟨s'.self, s.world⟩ l [] := .of_self h.wf h.toList_eq h.rewritten.regions_eq
  rwa [← h.world_eq] at heff

theorem does_removeItem (eq : T → T → Option Bool) (item : T) (h : WF E s.self) :
    Does (removeItem E eq item) s
      (fun r s' => (withoutItem eq item (s.self.toList E)).1 = .ok r ∧
        Effect E s s' (withoutItem eq item (s.self.toList E)).2 [])
      fun e s' => (withoutItem eq item (s.self.toList E)).1 = .error e ∧
        Effect E s s' (withoutItem eq item (s.self.toList E)).2 [] := by
  refine does_bind ((does_position h).mono (fun _ _ => id) fun e s' hs' => ?_) fun pos s₁ hs₁ => ?_
  · rw [withoutItem, hs'.1]
    exact ⟨rfl, hs'.2.effect⟩
  · obtain ⟨hpos, hedit⟩ := hs₁
    have heff := hedit.effect
    rw [withoutItem, hpos]
    cases pos with
    | none => exact does_pure ⟨rfl, heff⟩
    | some i =>
      obtain ⟨x, hx⟩ := found_getElem? hpos
      have hremove := wp_remove (i := i) hedit.wf
      rw [hedit.toList_eq] at hremove
      refine does_bind (Q := fun r s' => (s.self.toList E)[i]? = some r ∧ Effect E s s' ((s.self.toList E).eraseIdx i) [])
        ⟨exact_remove hedit.wf, wp_mono hremove (fun r s' hs' => ⟨hs'.1, heff.trans hs'.2⟩) fun p s' hp => ?_⟩ ?_
      · have hlt := (List.getElem?_eq_some_iff.mp hx).1
        rw [← hedit.toList_eq, toList_length] at hlt
        exact absurd hlt (Nat.not_lt.mpr hp.2.1)
      · exact fun r s' hs' => does_pure ⟨by simp only [hs'.1], hs'.2⟩

/-! ## Runs of `remove_item` -/

theorem withoutItem_beq [BEq T] (l : List T) :
    withoutItem (fun a b => some (a == b)) item l = (.ok (erased item l).1, (erased item l).2) := by
  induction l with
  | nil => rfl
  | cons x l ih =>
    rw [withoutItem] at ih ⊢
    rw [found, erased, List.find?_cons, List.erase_cons]
    cases hx : x == item with
    | true => rfl
    | false =>
      rcases hl : found (fun a b => some (a == b)) item l with _ | _ | i <;> rw [hl] at ih
      · cases (Prod.mk.inj ih).1
      · simpa [Except.map, erased] using ih
      · simpa [Except.map, erased] using ih

/-- Any number of items, removed one after the other: every call returns the first value that is equal
to its item, the other values keep their order, and none is destroyed. -/
theorem removeItems_erase [BEq T] (items : List T) (h : WF E s.self) :
    results (removeItem E fun a b => some (a == b)) items s = (specResults erased items (s.self.toList E)).map .ok ∧
      Effect E s (final (removeItem E fun a b => some (a == b)) items s) (items.foldl List.erase (s.self.toList E)) [] := by
  have hstep : ∀ (x : T) (t : Frame (SliceDeque β) T) (l : List T), Effect E s t l [] → True →
      (removeItem E (fun a b => some (a == b)) x t).result = .ok (erased x l).1 ∧
        Effect E s (removeItem E (fun a b => some (a == b)) x t).state (erased x l).2 [] := by
    intro x t l ht _
    have hdoes := does_removeItem (fun a b => some (a == b)) x ht.wf
    simp only [withoutItem_beq, ht.toList_eq] at hdoes
    exact (hdoes.mono (fun _ _ hr => ⟨hr.1, ht.trans hr.2⟩) fun _ _ hr => ⟨hr.1, ht.trans hr.2⟩).result_eq
  obtain ⟨hresults, heff⟩ := simulation (R := fun t l => Effect E s t l []) (M := fun r b => r = .ok b) (P := fun _ _ => True)
    hstep items s (s.self.toList E) (.refl h) (always_of_forall (fun _ _ => trivial) items s)
  have hfold : ∀ (items l : List T), specFinal erased items l = items.foldl List.erase l := by
    intro items
    induction items with
    | nil => exact fun _ => rfl
    | cons x items ih => exact fun l => ih _
  rw [hfold] at heff
  exact ⟨results_eq_map hresults, heff⟩

/-- The head crosses the end of the mapping while the first and then the last element are removed. -/
theorem sample_removeItems :
    results (removeItem (cells true 3 (by decide)) fun a b => some (a == b)) [10, 40, 30] ⟨sample, .start⟩ =
        (specResults erased [10, 40, 30] (sample.toList (cells true 3 (by decide)))).map .ok ∧
      Effect (cells true 3 (by decide)) ⟨sample, .start⟩
        (final (removeItem (cells true 3 (by decide)) fun a b => some (a == b)) [10, 40, 30] ⟨sample, .start⟩)
        ([10, 40, 30].foldl List.erase (sample.toList (cells true 3 (by decide)))) [] :=
  removeItems_erase (s := ⟨sample, .start⟩) [10, 40, 30] wf_sample

/-! ## Comparing keys -/

/-- The elements are those of `l`, and the others were destroyed. -/
def Deduped (E : Env T β) (s : Frame (SliceDeque β) T) (l : List T) (s' : Frame (SliceDeque β) T) : Prop :=
  ∃ dead, (l ++ dead).Perm (s.self.toList E) ∧ Effect E s s' l dead

theorem Cut.deduped {σ : Type} {same : σ → T → T → Option (Bool × σ) × T × T} {st : σ} {s' : Frame (SliceDeque β) T}
    (hsame : KeepsIds id same) (h : Cut E s (dedupAll same st (s.self.toList E)) s') :
    Deduped E s (dedupAll same st (s.self.toList E)).kept s' := by
  obtain ⟨dead, hdead, heff⟩ := h
  have hids := dedupAll_ids hsame st (s.self.toList E)
  rw [List.map_id, List.map_id] at hids
  exact ⟨dead, (hdead.append_left _).trans hids, heff⟩

/-- A comparison `p` of neighbours that never panics. -/
theorem does_dedupBy_compare {p : T → T → Bool} (h : WF E s.self) :
    Does (dedupBy E (fun st a b => (some (p a b, st), a, b)) ()) s
      (fun _ s' => Deduped E s ((s.self.toList E).destutter fun b a => p a b = false) s')
      fun e s' => e = .destructor ∧ DestructorsPanic E ∧
        Deduped E s ((s.self.toList E).destutter fun b a => p a b = false) s' := by
  have hsame : KeepsIds id fun (st : Unit) a b => (some (p a b, st), a, b) := fun _ _ _ => .refl _
  obtain ⟨hkept, hstate⟩ := dedupAll_compare (p := p) (s := ()) (s.self.toList E)
  refine ⟨exact_dedupBy _ _ h, wp_mono (wp_dedupBy _ _ h) (fun _ s' hs' => ?_) fun e s' hp => ?_⟩
  · rw [← hkept]
    exact hs'.2.deduped hsame
  · rcases hp with ⟨-, hnone, -⟩ | ⟨he, hd, -, hcut⟩
    · rw [hstate] at hnone
      cases hnone
    · rw [← hkept]
      exact ⟨he, hd, hcut.deduped hsame⟩

/-- `dedup` compares the elements as their own keys. -/
theorem dedup_eq (eq : T → T → Option Bool) :
    dedup E eq = (dedupByKey E (fun st v => (some (v, st), v)) eq () : DeqM T β Unit) := rfl

end SliceDeque

end Sdeq
