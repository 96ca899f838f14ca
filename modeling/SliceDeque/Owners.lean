import SliceDeque.Ops

/-!
# Owners of values and mappings

A deque, an iterator or a whole program owns values and mappings. `Keeps` is
the common form of all specifications that count: what was owned before and
what the caller gave is owned afterwards, taken by the caller, or destroyed.
Values are counted by an identity that user code cannot change.
-/

set_option autoImplicit false

namespace Sdeq
open Exec

/-- What a kind of object owns, as long as it is well-formed. -/
structure Owner (X T : Type) where
  ok : X → Prop
  vals : X → List T
  maps : X → List (Nat × Nat)

/-- Two objects together. -/
def Owner.prod {X Y T : Type} (O : Owner X T) (O' : Owner Y T) : Owner (X × Y) T where
  ok p := O.ok p.1 ∧ O'.ok p.2
  vals p := O.vals p.1 ++ O'.vals p.2
  maps p := O.maps p.1 ++ O'.maps p.2

section Ids
variable {T ι : Type} {f : T → ι} {w w' : World T} {o o' : Multiset ι} {dead made : List T}

def ids (f : T → ι) (l : List T) : Multiset ι := (l.map f : List ι)

@[simp] theorem ids_nil : ids f [] = 0 := rfl

@[simp] theorem ids_append (l l' : List T) : ids f (l ++ l') = ids f l + ids f l' := by
  simp [ids]

theorem ids_cons (v : T) (l : List T) : ids f (v :: l) = ids f l + ids f [v] := by
  rw [add_comm, ← ids_append]
  rfl

theorem ids_perm {l l' : List T} (h : l.Perm l') : ids f l = ids f l' :=
  Multiset.coe_eq_coe.mpr (h.map f)

theorem ids_head {l : List T} {a : T} (h : l.head? = some a) : ids f l = ids f l.tail + ids f [a] := by
  rw [← ids_cons, List.cons_head?_tail h]

theorem ids_getLast {l : List T} {a : T} (h : l.getLast? = some a) :
    ids f l = ids f l.dropLast + ids f [a] := by
  rw [← ids_append, List.dropLast_append_getLast? a h]

theorem ids_set {l : List T} {i : Nat} {a b : T} (h : l[i]? = some a) :
    ids f (l.set i b) + ids f [a] = ids f l + ids f [b] := by
  obtain ⟨hi, rfl⟩ := List.getElem?_eq_some_iff.mp h
  have hl : l = l.take i ++ l[i] :: l.drop (i + 1) := by simp
  rw [List.set_eq_take_append_cons_drop, if_pos hi]
  conv_rhs => rw [hl]
  rw [ids_append, ids_append, ids_cons b (l.drop _), ids_cons l[i] (l.drop _)]
  abel

theorem getElem?_set_same {l : List T} {i j : Nat} {b : T} (h : l[j]? = some b) :
    (l.set i b)[j]? = some b := by
  obtain ⟨hj, rfl⟩ := List.getElem?_eq_some_iff.mp h
  by_cases hij : i = j
  · rw [hij, List.getElem?_set_self hj]
  · rw [List.getElem?_set_ne hij, h]

/-- A value is taken out and `b`, which comes from another place of `l`, takes its place. -/
theorem ids_replace {l l' : List T} {i : Nat} {a b : T} (ha : l[i]? = some a)
    (hb : ids f (l.set i b) = ids f l' + ids f [b]) : ids f l = ids f l' + ids f [a] := by
  have h := ids_set (f := f) (b := b) ha
  rw [hb, add_right_comm] at h
  exact (add_right_cancel h).symm

theorem ids_eraseIdx {l : List T} {i : Nat} {a : T} (h : l[i]? = some a) :
    ids f l = ids f (l.eraseIdx i) + ids f [a] := by
  obtain ⟨hi, rfl⟩ := List.getElem?_eq_some_iff.mp h
  rw [← ids_cons]
  exact (ids_perm (List.getElem_cons_eraseIdx_perm hi)).symm

/-- The values that were made by user code and those that were destroyed. -/
def World.ids (f : T → ι) (w : World T) : Books ι := ⟨Sdeq.ids f w.made, Sdeq.ids f w.destroyed⟩

theorem Logged.moves (h : Logged w w' dead made) (ho : o + ids f made = o' + ids f dead) :
    Books.Moves (w.ids f) o (w'.ids f) o' := by
  simp only [Books.Moves, World.ids, h.made_eq, h.destroyed_eq, ids_append]
  calc ids f w.made + ids f made + ids f w.destroyed + o
      = ids f w.made + ids f w.destroyed + (o + ids f made) := by abel
    _ = ids f w.made + (ids f w.destroyed + ids f dead) + o' := by rw [ho]; abel

end Ids

section Keeps
variable {X T β ι : Type} {O : Owner X T} {f : T → ι} {s s' s₁ s₂ : Frame X T}
variable {given taken mid dead : List T} {out out₁ : List (Nat × Nat)}

/-- The object stays well-formed, and its mappings are accounted for; those in `out` are left behind. -/
structure Safe (O : Owner X T) (s s' : Frame X T) (out : List (Nat × Nat)) : Prop where
  ok : O.ok s'.self
  trade : Trade s.world (O.maps s.self) s'.world (O.maps s'.self + out : Multiset (Nat × Nat))

/-- Moreover every value is accounted for: the caller gave `given` and took `taken`. -/
structure Keeps (O : Owner X T) (f : T → ι) (s s' : Frame X T) (given taken : List T)
    (out : List (Nat × Nat)) : Prop extends Safe O s s' out where
  flow : Books.Moves (s.world.ids f) (ids f (O.vals s.self) + ids f given)
    (s'.world.ids f) (ids f (O.vals s'.self) + ids f taken)

theorem Safe.refl (h : O.ok s.self) : Safe O s s [] :=
  ⟨h, by rw [Multiset.coe_nil, add_zero]; exact .refl _ _⟩

theorem Safe.trans (h : Safe O s s₁ out) (h' : Safe O s₁ s₂ out₁) : Safe O s s₂ (out₁ ++ out) := by
  refine ⟨h'.ok, h.trade.trans ?_⟩
  rw [← Multiset.coe_add, ← add_assoc]
  exact h'.trade.frame _

theorem Safe.left {Y : Type} {O' : Owner Y T} {x : X} {y : Y} {w : World T} {t : Frame X T}
    (h : Safe O ⟨x, w⟩ t out) (hy : O'.ok y) : Safe (O.prod O') ⟨(x, y), w⟩ ⟨(t.self, y), t.world⟩ out := by
  refine ⟨⟨h.ok, hy⟩, ?_⟩
  have := h.trade.frame (O'.maps y)
  rwa [add_right_comm, Multiset.coe_add, Multiset.coe_add] at this

theorem Safe.right {Y : Type} {O' : Owner Y T} {x : X} {y : Y} {w : World T} {t : Frame Y T}
    (h : Safe O' ⟨y, w⟩ t out) (hx : O.ok x) : Safe (O.prod O') ⟨(x, y), w⟩ ⟨(x, t.self), t.world⟩ out := by
  refine ⟨⟨hx, h.ok⟩, ?_⟩
  have := h.trade.frame_left (O.maps x)
  rwa [← add_assoc, Multiset.coe_add, Multiset.coe_add] at this

namespace Keeps

theorem refl (h : O.ok s.self) (given : List T) : Keeps O f s s given given [] := ⟨.refl h, .refl _ _⟩

theorem trans (h : Keeps O f s s₁ given mid []) (h' : Keeps O f s₁ s₂ mid taken out) :
    Keeps O f s s₂ given taken out :=
  ⟨by simpa using h.toSafe.trans h'.toSafe, h.flow.trans h'.flow⟩

theorem frame (h : Keeps O f s s' given taken out) (x : List T) :
    Keeps O f s s' (given ++ x) (taken ++ x) out := by
  refine ⟨h.toSafe, ?_⟩
  rw [ids_append, ids_append, ← add_assoc, ← add_assoc]
  exact h.flow.frame _

theorem destroy (h : Keeps O f s s' given (taken ++ dead) out) :
    Keeps O f s ⟨s'.self, s'.world.destroy dead⟩ given taken out := by
  refine ⟨⟨h.ok, h.trade.trans (.destroy _ _ _)⟩, h.flow.trans ((Logged.destroy _ dead).moves ?_)⟩
  rw [ids_append, ids_nil, add_zero, add_assoc]

theorem produce (h : Keeps O f s s' given taken out) (vs : List T) :
    Keeps O f s ⟨s'.self, s'.world.produce vs⟩ given (taken ++ vs) out := by
  refine ⟨⟨h.ok, h.trade.trans (.produce _ _ _)⟩, h.flow.trans ((Logged.produce _ vs).moves ?_)⟩
  rw [ids_append, ids_nil, add_zero, add_assoc]

/-- A local object was made from what was handed out, and worked on. -/
theorem onLocal {Y : Type} {O' : Owner Y T} {x : Y} {t : Frame Y T} {lost : List T}
    (h : Keeps O f s s₁ given (O'.vals x ++ mid) (O'.maps x)) (h' : Keeps O' f ⟨x, s₁.world⟩ t mid lost out) :
    Keeps O f s ⟨s₁.self, t.world⟩ given (O'.vals t.self ++ lost) (O'.maps t.self ++ out) := by
  refine ⟨⟨h.ok, h.trade.trans ?_⟩, h.flow.trans ?_⟩
  · have := h'.trade.frame_left (O.maps s₁.self)
    rwa [Multiset.coe_add] at this
  · have := h'.flow.frame_left (ids f (O.vals s₁.self))
    rwa [ids_append, ids_append]

end Keeps

theorem Untouched.keeps (h : Untouched s s' dead) (hok : O.ok s.self) (taken : List T) :
    Keeps O f s s' (taken ++ dead) taken [] := by
  refine ⟨⟨h.self_eq ▸ hok, ?_⟩, h.log.moves ?_⟩
  · rw [h.self_eq, Multiset.coe_nil, add_zero]
    exact h.trade _
  · rw [h.self_eq, ids_append, ids_nil, add_zero, add_assoc]

end Keeps

/-- No assertion of the library fails and no unmapped memory is accessed. -/
def Clean (p : Panic) : Prop := p ≠ .debugAssert ∧ p ≠ .fault

/-- The outcome of a panic: only destructors that panic can make values or mappings get lost. -/
def Unwound {X T β ι : Type} (E : Env T β) (O : Owner X T) (f : T → ι) (given : List T) (s : Frame X T)
    (p : Panic) (s' : Frame X T) : Prop :=
  Clean p ∧ ∃ lost out, (¬ SliceDeque.DestructorsPanic E → lost = [] ∧ out = []) ∧ Keeps O f s s' given lost out

/-- The same for an operation that does not account for values. -/
def SafeUnwound {X T β : Type} (E : Env T β) (O : Owner X T) (s : Frame X T) (p : Panic) (s' : Frame X T) : Prop :=
  Clean p ∧ ∃ out, (¬ SliceDeque.DestructorsPanic E → out = []) ∧ Safe O s s' out

theorem Unwound.safe {X T β ι : Type} {E : Env T β} {O : Owner X T} {f : T → ι} {given : List T} {s s' : Frame X T}
    {p : Panic} (h : Unwound E O f given s p s') : SafeUnwound E O s p s' := by
  obtain ⟨hc, _, out, hl, hk⟩ := h
  exact ⟨hc, out, fun hd => (hl hd).2, hk.toSafe⟩

theorem SafeUnwound.of_safe {X T β : Type} {E : Env T β} {O : Owner X T} {s s' : Frame X T} {p : Panic}
    (hc : Clean p) (h : Safe O s s' []) : SafeUnwound E O s p s' := ⟨hc, [], fun _ => rfl, h⟩

theorem SafeUnwound.after {X T β : Type} {E : Env T β} {O : Owner X T} {s s₁ s' : Frame X T} {p : Panic}
    (h : Safe O s s₁ []) (h' : SafeUnwound E O s₁ p s') : SafeUnwound E O s p s' := by
  obtain ⟨hc, out, hl, hs⟩ := h'
  exact ⟨hc, out, hl, by simpa using h.trans hs⟩

/-- The owner of `vals` and `maps` is gone: all is destroyed but `lost`, and freed but `out`. -/
structure Discarded {T ι : Type} (f : T → ι) (w w' : World T) (vals : List T) (maps : List (Nat × Nat))
    (lost : List T) (out : List (Nat × Nat)) : Prop where
  trade : Trade w maps w' out
  flow : Books.Moves (w.ids f) (ids f vals) (w'.ids f) (ids f lost)

section Conserves
variable {X T β ι α : Type} {E : Env T β} {O : Owner X T} {f : T → ι} {s s' s₁ : Frame X T}
variable {given mid dead : List T} {p : Panic}

theorem Unwound.of_keeps (hc : Clean p) (h : Keeps O f s s' given [] []) : Unwound E O f given s p s' :=
  ⟨hc, [], [], fun _ => ⟨rfl, rfl⟩, h⟩

theorem Unwound.after (h : Keeps O f s s₁ given mid []) (h' : Unwound E O f mid s₁ p s') :
    Unwound E O f given s p s' := by
  obtain ⟨hc, lost, out, hl, hk⟩ := h'
  exact ⟨hc, lost, out, hl, h.trans hk⟩

/-- The operation neither loses nor duplicates a value: it is given `given` and hands out `taken`. -/
abbrev Conserves (E : Env T β) (O : Owner X T) (f : T → ι) (m : Method T X α) (given : List T)
    (taken : α → List T) (s : Frame X T) : Prop :=
  wp m s (fun a s' => Keeps O f s s' given (taken a) []) (Unwound E O f given s)

theorem Conserves.after {m : Method T X α} {taken : α → List T} (h : Keeps O f s s₁ given mid [])
    (hm : Conserves E O f m mid taken s₁) :
    wp m s₁ (fun a s' => Keeps O f s s' given (taken a) []) (Unwound E O f given s) :=
  wp_mono hm (fun _ _ h' => h.trans h') fun _ _ h' => h'.after h

end Conserves

namespace SliceDeque
variable {T β ι : Type} {E : Env T β} {f : T → ι} {s s' : Frame (SliceDeque β) T}
variable {given taken dead made l : List T} {p : Panic}

/-- A deque owns its elements and the mapping of its buffer. -/
def owner (E : Env T β) : Owner (SliceDeque β) T := ⟨WF E, toList E, regions E⟩

theorem Change.safe (h : Change E s s' l dead made) : Safe (owner E) s s' [] :=
  ⟨h.wf, by rw [Multiset.coe_nil, add_zero]; exact h.trade⟩

theorem Change.keeps (h : Change E s s' l dead made)
    (hp : ids f (s.self.toList E) + ids f given + ids f made = ids f l + ids f taken + ids f dead) :
    Keeps (owner E) f s s' given taken [] := by
  refine ⟨h.safe, h.log.moves ?_⟩
  simpa only [owner, h.toList_eq] using hp

theorem Change.unwound (h : Change E s s' l dead made) (hc : Clean p)
    (hp : ids f (s.self.toList E) + ids f given + ids f made = ids f l + ids f dead) :
    Unwound E (owner E) f given s p s' :=
  .of_keeps hc (h.keeps (by simpa using hp))

theorem clean_user : Clean .user := ⟨by simp, by simp⟩

theorem clean_destructor : Clean .destructor := ⟨by simp, by simp⟩

theorem SizePanic.clean (h : SizePanic E p) : Clean p := by
  rcases h with rfl | ⟨rfl, -⟩ <;> exact ⟨by simp, by simp⟩

theorem Refusal.clean (h : Refusal E p) : Clean p := by
  rcases h with h | ⟨e, rfl⟩
  · exact h.clean
  · exact ⟨by simp, by simp⟩

/-! ## The operations on both ends conserve values -/

/-- The value that a `try_push` hands back. -/
def rejected : Except (T × AllocError) Unit → List T
  | .ok () => []
  | .error (v, _) => [v]

section Ops
variable {v : T} {i n : Nat} (h : WF E s.self)
include h

/-- A refused operation that dropped its argument. -/
theorem unwound_of_untouched (hc : Clean p) (hu : Untouched s s' dead) : Unwound E (owner E) f dead s p s' :=
  .of_keeps hc (hu.keeps h [])

theorem conserves_tryPushFront : Conserves E (owner E) f (tryPushFront E v) [v] rejected s := by
  refine wp_mono (wp_tryPushFront h) ?_ fun p s' hp => unwound_of_untouched h hp.1.clean (.of_destroy hp.2)
  rintro (⟨u, e⟩ | ⟨⟩) s' hs'
  · obtain ⟨rfl, hrefused⟩ := hs'
    exact hrefused.untouched.keeps h [u]
  · exact hs'.1.keeps (by simp [rejected, ids_cons v (s.self.toList E)])

theorem conserves_tryPushBack : Conserves E (owner E) f (tryPushBack E v) [v] rejected s := by
  refine wp_mono (wp_tryPushBack h) ?_ fun p s' hp => unwound_of_untouched h hp.1.clean (.of_destroy hp.2)
  rintro (⟨u, e⟩ | ⟨⟩) s' hs'
  · obtain ⟨rfl, hrefused⟩ := hs'
    exact hrefused.untouched.keeps h [u]
  · exact hs'.1.keeps (by simp [rejected])

theorem conserves_pushFront : Conserves E (owner E) f (pushFront E v) [v] (fun _ => []) s :=
  wp_mono (wp_pushFront h) (fun _ _ hs' => hs'.keeps (by simp [ids_cons v (s.self.toList E)])) fun _ _ hp =>
    unwound_of_untouched h hp.refusal.clean hp.untouched

theorem conserves_pushBack : Conserves E (owner E) f (pushBack E v) [v] (fun _ => []) s :=
  wp_mono (wp_pushBack h) (fun _ _ hs' => hs'.keeps (by simp)) fun _ _ hp =>
    unwound_of_untouched h hp.refusal.clean hp.untouched

theorem conserves_popFront : Conserves E (owner E) f (popFront E) [] Option.toList s := by
  refine wp_mono (wp_popFront h) ?_ fun _ _ => False.elim
  rintro _ s' ⟨rfl, heff⟩
  refine heff.keeps ?_
  cases hl : (s.self.toList E).head? with
  | none => simp [List.head?_eq_none_iff.mp hl]
  | some a => simp [ids_head hl]

theorem conserves_popBack : Conserves E (owner E) f (popBack E) [] Option.toList s := by
  refine wp_mono (wp_popBack h) ?_ fun _ _ => False.elim
  rintro _ s' ⟨rfl, heff⟩
  refine heff.keeps ?_
  cases hl : (s.self.toList E).getLast? with
  | none => simp [List.getLast?_eq_none_iff.mp hl]
  | some a => simp [ids_getLast hl]

theorem conserves_truncateBack : Conserves E (owner E) f (truncateBack E n) [] (fun _ => []) s := by
  have hl : ids f (s.self.toList E) = ids f ((s.self.toList E).take n) + ids f ((s.self.toList E).drop n) := by
    rw [← ids_append, List.take_append_drop]
  refine wp_mono (wp_truncateBack h) (fun _ s' heff => heff.keeps (by simpa using hl)) ?_
  rintro p s' ⟨rfl, -, heff⟩
  exact heff.unwound ⟨by simp, by simp⟩ (by simpa using hl)

theorem conserves_truncateFront : Conserves E (owner E) f (truncateFront E n) [] (fun _ => []) s := by
  have hl : ids f (s.self.toList E) = ids f ((s.self.toList E).drop (s.self.elems.len - n)) +
      ids f ((s.self.toList E).take (s.self.elems.len - n)) := by
    rw [add_comm, ← ids_append, List.take_append_drop]
  refine wp_mono (wp_truncateFront h) (fun _ s' heff => heff.keeps (by simpa using hl)) ?_
  rintro p s' ⟨rfl, -, heff⟩
  exact heff.unwound ⟨by simp, by simp⟩ (by simpa using hl)

theorem conserves_remove : Conserves E (owner E) f (remove E i) [] (fun r => [r]) s := by
  refine wp_mono (wp_remove h) ?_ ?_
  · rintro r s' ⟨hr, heff⟩
    exact heff.keeps (by simpa using ids_eraseIdx hr)
  · rintro p s' ⟨rfl, -, rfl⟩
    exact .of_keeps ⟨by simp, by simp⟩ (.refl h _)

theorem conserves_swapRemoveBack : Conserves E (owner E) f (swapRemoveBack E i) [] Option.toList s := by
  refine wp_mono (wp_swapRemoveBack h) ?_ ?_
  · rintro r s' (⟨hnil, rfl, rfl⟩ | ⟨v, last, rfl, hv, hlast, heff⟩)
    · exact .refl h _
    · refine heff.keeps ?_
      rw [List.getLast?_eq_getElem?] at hlast
      have hset := ids_getLast (f := f) (l := (s.self.toList E).set i last) (a := last) (by
        rw [List.getLast?_eq_getElem?, List.length_set, getElem?_set_same hlast])
      simpa using ids_replace hv hset
  · rintro p s' ⟨rfl, -, -, rfl⟩
    exact .of_keeps ⟨by simp, by simp⟩ (.refl h _)

theorem conserves_swapRemoveFront : Conserves E (owner E) f (swapRemoveFront E i) [] Option.toList s := by
  refine wp_mono (wp_swapRemoveFront h) ?_ ?_
  · rintro r s' (⟨hnil, rfl, rfl⟩ | ⟨v, first, rfl, hv, hfirst, heff⟩)
    · exact .refl h _
    · refine heff.keeps ?_
      rw [List.head?_eq_getElem?] at hfirst
      have hset := ids_head (f := f) (l := (s.self.toList E).set i first) (a := first) (by
        rw [List.head?_eq_getElem?, getElem?_set_same hfirst])
      simpa using ids_replace hv hset
  · rintro p s' ⟨rfl, -, -, rfl⟩
    exact .of_keeps ⟨by simp, by simp⟩ (.refl h _)

end Ops

/-! ## Operations with two deques -/

/-- Two deques that are borrowed together. -/
abbrev pairOwner (E : Env T β) : Owner (SliceDeque β × SliceDeque β) T := (owner E).prod (owner E)

theorem conserves_append {s : Frame (SliceDeque β × SliceDeque β) T} (h : (pairOwner E).ok s.self) :
    Conserves E (pairOwner E) f (append E) [] (fun _ => []) s := by
  refine wp_mono (wp_append h.1 h.2) ?_ fun p s' hp =>
    .of_keeps hp.refusal.clean (hp.untouched.keeps h [])
  rintro _ s' ⟨heff, hsnd⟩
  have hnil : s'.self.2.toList E = [] := by rw [hsnd]; rfl
  have hreg : s'.self.2.regions E = s.self.2.regions E := by rw [hsnd]; rfl
  refine ⟨⟨⟨heff.wf, hsnd ▸ h.2.emptied⟩, ?_⟩, heff.log.moves ?_⟩
  · have := heff.trade.frame (s.self.2.regions E)
    simpa only [Owner.prod, owner, hreg, ← Multiset.coe_add, Multiset.coe_nil, add_zero] using this
  · simp [Owner.prod, owner, heff.toList_eq, hnil]

theorem conserves_splitOff {k : Nat} (h : WF E s.self) :
    wp (splitOff E k) s
      (fun other s' => WF E other ∧ Keeps (owner E) f s s' [] (other.toList E) (other.regions E))
      (Unwound E (owner E) f [] s) := by
  refine wp_mono (wp_splitOff h) ?_ ?_
  · rintro other s' ⟨hk, hc⟩
    have hself := hc.self_eq
    refine ⟨hc.wf, ⟨hself ▸ h.withLen (hk.trans h.len_le), ?_⟩, hc.log.moves ?_⟩
    · simp only [owner, hself]
      exact hc.trade (s.self.regions E)
    · simp only [owner, hself, toList_withLen hk, hc.toList_eq, ids_nil, add_zero]
      rw [← ids_append, List.take_append_drop]
  · rintro p s' (hp | ⟨rfl, -, rfl⟩)
    · exact unwound_of_untouched h hp.refusal.clean hp.untouched
    · exact unwound_of_untouched h ⟨by simp, by simp⟩ (.refl _)

section New
variable {X : Type} {O : Owner X T} {t t' : Frame X T}

theorem Created.keeps {d : SliceDeque β} (h : Created E t t' d []) (hok : O.ok t.self) :
    Keeps O f t t' [] (d.toList E) (d.regions E) := by
  refine ⟨⟨h.self_eq ▸ hok, ?_⟩, h.log.moves ?_⟩
  · rw [h.self_eq]
    exact h.trade _
  · rw [h.self_eq, h.toList_eq]

theorem Consumed.keeps {Y : Type} {x : Y} {t₁ : Frame X T} {t₂ : Frame Y T} {rs out : List (Nat × Nat)} {lost : List T}
    (h : Keeps O f t t₁ given (dead ++ lost) (rs ++ out)) (hc : Consumed ⟨x, t₁.world⟩ t₂ rs dead) :
    Keeps O f t ⟨t₁.self, t₂.world⟩ given lost out := by
  refine ⟨⟨h.ok, h.trade.trans ?_⟩, h.flow.trans (hc.log.moves ?_)⟩
  · have := hc.trade (O.maps t₁.self + out)
    rwa [add_assoc, add_comm (out : Multiset (Nat × Nat)), Multiset.coe_add] at this
  · rw [ids_append, ids_nil, add_zero]
    abel

theorem conserves_withCapacity {n : Nat} (hok : O.ok t.self) :
    wp (withCapacity E n) t (fun d t' => WF E d ∧ Keeps O f t t' [] (d.toList E) (d.regions E))
      (Unwound E O f [] t) :=
  wp_mono wp_withCapacity (fun _ _ h => ⟨h.1.wf, h.1.keeps hok⟩) fun _ _ hp =>
    .of_keeps hp.untouched.1.clean (hp.untouched.2.keeps hok [])

end New

end SliceDeque

end Sdeq
