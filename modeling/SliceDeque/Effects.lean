import SliceDeque.Moves

/-!
# What an operation does to a deque and to the world

`Effect` is the vocabulary of all specifications: the new contents, the values
that were destroyed, and the books of the mappings. `Untouched` is what a
refused allocation leaves.
-/

set_option autoImplicit false

namespace Sdeq
open Exec

namespace World
variable {T : Type}

/-- The mappings that were obtained and given back. -/
def books (w : World T) : Books (Nat × Nat) := ⟨w.mapped, w.unmapped⟩

/-- Since `w` no call of the allocator was refused. -/
def AllGranted (w w' : World T) : Prop := w'.calls + w.mapped.length = w.calls + w'.mapped.length

/-- Every mapping was obtained by a call of its own. -/
structure Fresh (w : World T) : Prop where
  nodup : (w.mapped.map Prod.fst).Nodup
  lt : ∀ r ∈ w.mapped, r.1 < w.calls

end World

/-- From `w` to `w'` the owner of the mappings `o` became the owner of `o'`. -/
structure Trade {T : Type} (w : World T) (o : Multiset (Nat × Nat)) (w' : World T)
    (o' : Multiset (Nat × Nat)) : Prop where
  books : Books.Moves w.books o w'.books o'
  fresh : w.Fresh → w'.Fresh

namespace Trade
variable {T : Type} {w w₁ w₂ : World T} {o o₁ o₂ : Multiset (Nat × Nat)}

theorem refl (w : World T) (o : Multiset (Nat × Nat)) : Trade w o w o := ⟨.refl _ _, id⟩

theorem trans (h : Trade w o w₁ o₁) (h' : Trade w₁ o₁ w₂ o₂) : Trade w o w₂ o₂ :=
  ⟨h.books.trans h'.books, fun hw => h'.fresh (h.fresh hw)⟩

theorem frame (h : Trade w o w₁ o₁) (x : Multiset (Nat × Nat)) : Trade w (o + x) w₁ (o₁ + x) :=
  ⟨h.books.frame x, h.fresh⟩

theorem frame_left (h : Trade w o w₁ o₁) (x : Multiset (Nat × Nat)) : Trade w (x + o) w₁ (x + o₁) :=
  ⟨h.books.frame_left x, h.fresh⟩

theorem destroy (w : World T) (o : Multiset (Nat × Nat)) (vs : List T) : Trade w o (w.destroy vs) o :=
  ⟨.refl _ _, fun h => ⟨h.nodup, h.lt⟩⟩

theorem copy (w : World T) (o : Multiset (Nat × Nat)) (n : Nat) : Trade w o (w.copy n) o :=
  ⟨.refl _ _, fun h => ⟨h.nodup, h.lt⟩⟩

theorem produce (w : World T) (o : Multiset (Nat × Nat)) (vs : List T) : Trade w o (w.produce vs) o :=
  ⟨.refl _ _, fun h => ⟨h.nodup, h.lt⟩⟩

theorem refuse (w : World T) (o : Multiset (Nat × Nat)) : Trade w o w.refuse o :=
  ⟨.refl _ _, fun h => ⟨h.nodup, fun r hr => Nat.lt_succ_of_lt (h.lt r hr)⟩⟩

theorem unmap (w : World T) (o : Multiset (Nat × Nat)) (rs : List (Nat × Nat)) :
    Trade w (o + rs) (w.unmap rs) o := by
  refine ⟨?_, fun h => ⟨h.nodup, h.lt⟩⟩
  have := Books.Moves.spend w.books o rs
  rwa [show (⟨w.books.gained, w.books.spent + rs⟩ : Books (Nat × Nat)) = (w.unmap rs).books by
    simp [World.books, World.unmap]] at this

theorem map (w : World T) (o : Multiset (Nat × Nat)) {rs : List (Nat × Nat)} (hl : rs.length ≤ 1)
    (hc : ∀ r ∈ rs, r.1 = w.calls) : Trade w o (w.map rs) (o + rs) := by
  refine ⟨?_, fun h => ⟨?_, ?_⟩⟩
  · have := Books.Moves.gain w.books o rs
    rwa [show (⟨w.books.gained + rs, w.books.spent⟩ : Books (Nat × Nat)) = (w.map rs).books by
      simp [World.books, World.map]] at this
  · rcases rs with _ | ⟨r, _ | ⟨r', rs⟩⟩
    · simpa [World.map] using h.nodup
    · have hr := hc r (by simp)
      simp only [World.map, List.map_append, List.nodup_append, h.nodup, true_and, List.map_cons, List.map_nil,
        List.nodup_singleton, List.mem_singleton, forall_eq]
      rintro k hk rfl
      obtain ⟨q, hq, heq⟩ := List.mem_map.mp hk
      have := h.lt q hq
      omega
    · simp at hl
  · intro r hr
    simp only [World.map, List.mem_append] at hr ⊢
    rcases hr with hr | hr
    · have := h.lt r hr
      omega
    · have := hc r hr
      have := List.length_pos_of_mem hr
      omega

end Trade

/-- From `w` to `w'` the values in `dead` were destroyed and those in `made` were made by user code. -/
structure Logged {T : Type} (w w' : World T) (dead made : List T) : Prop where
  destroyed_eq : w'.destroyed = w.destroyed ++ dead
  made_eq : w'.made = w.made ++ made

namespace Logged
variable {T : Type} {w w₁ w₂ : World T} {dead dead₁ made made₁ : List T}

theorem refl (w : World T) : Logged w w [] [] := ⟨by simp, by simp⟩

theorem trans (h : Logged w w₁ dead made) (h' : Logged w₁ w₂ dead₁ made₁) :
    Logged w w₂ (dead ++ dead₁) (made ++ made₁) :=
  ⟨by rw [h'.destroyed_eq, h.destroyed_eq, List.append_assoc],
    by rw [h'.made_eq, h.made_eq, List.append_assoc]⟩

theorem destroy (w : World T) (vs : List T) : Logged w (w.destroy vs) vs [] := ⟨rfl, by simp [World.destroy]⟩

theorem produce (w : World T) (vs : List T) : Logged w (w.produce vs) [] vs := ⟨by simp [World.produce], rfl⟩

theorem unmap {rs : List (Nat × Nat)} (h : Logged w w₁ dead made) : Logged w (w₁.unmap rs) dead made :=
  ⟨h.destroyed_eq, h.made_eq⟩

theorem of_eq (hd : w₁.destroyed = w.destroyed) (hm : w₁.made = w.made) : Logged w w₁ [] [] :=
  ⟨by rw [hd, List.append_nil], by rw [hm, List.append_nil]⟩

end Logged

theorem Buffer.regions_length_le {T β : Type} {E : Env T β} (b : Buffer β) : (b.regions E).length ≤ 1 := by
  unfold Buffer.regions
  split <;> simp

namespace SliceDeque
variable {T β : Type} {E : Env T β} {s s' s₁ s₂ : Frame (SliceDeque β) T} {l l₁ l₂ dead dead₁ dead₂ : List T}

/-- The deque holds `l'` now; the values in `dead` were destroyed and user code made those in `made`. -/
structure Change (E : Env T β) (s s' : Frame (SliceDeque β) T) (l' dead made : List T) : Prop where
  wf : WF E s'.self
  toList_eq : s'.self.toList E = l'
  log : Logged s.world s'.world dead made
  trade : Trade s.world (s.self.regions E) s'.world (s'.self.regions E)

/-- A change without user code. -/
abbrev Effect (E : Env T β) (s s' : Frame (SliceDeque β) T) (l' dead : List T) : Prop :=
  Change E s s' l' dead []

end SliceDeque

/-- The receiver is what it was before; the values in `dead` were destroyed. -/
structure Untouched {X T : Type} (s s' : Frame X T) (dead : List T) : Prop where
  self_eq : s'.self = s.self
  log : Logged s.world s'.world dead []
  trade : ∀ o, Trade s.world o s'.world o

theorem Untouched.refl {X T : Type} (s : Frame X T) : Untouched s s [] :=
  ⟨rfl, .refl _, fun _ => .refl _ _⟩

theorem Untouched.trans {X T : Type} {s s₁ s₂ : Frame X T} {dead dead₁ : List T} (h : Untouched s s₁ dead)
    (h' : Untouched s₁ s₂ dead₁) : Untouched s s₂ (dead ++ dead₁) :=
  ⟨h'.self_eq.trans h.self_eq, h.log.trans h'.log, fun o => (h.trade o).trans (h'.trade o)⟩

theorem Untouched.destroy {X T : Type} {s s' : Frame X T} {dead : List T} (h : Untouched s s' dead)
    (vs : List T) : Untouched s ⟨s'.self, s'.world.destroy vs⟩ (dead ++ vs) :=
  h.trans ⟨rfl, .destroy _ vs, fun o => .destroy _ o vs⟩

theorem Untouched.of_destroy {X T : Type} {s s' : Frame X T} {vs : List T} (h : s' = ⟨s.self, s.world.destroy vs⟩) :
    Untouched s s' vs := by
  subst h
  exact (Untouched.refl s).destroy vs

theorem Buffer.Refused.not_allGranted {X T β : Type} {E : Env T β} {s s' : Frame X T} {e : AllocError}
    (h : Buffer.Refused E s s' e) : ¬ s.world.AllGranted s'.world := by
  rw [World.AllGranted, h.world_eq]
  simp only [World.refuse]
  omega

theorem Buffer.Refused.untouched {X T β : Type} {E : Env T β} {s s' : Frame X T} {e : AllocError}
    (h : Buffer.Refused E s s' e) : Untouched s s' [] := by
  refine ⟨h.self_eq, ?_, fun o => ?_⟩ <;> rw [h.world_eq]
  · exact .of_eq rfl rfl
  · exact .refuse _ o

namespace SliceDeque
variable {T β : Type} {E : Env T β} {s s' s₁ s₂ : Frame (SliceDeque β) T} {l l₁ l₂ dead dead₁ dead₂ : List T}

/-- A request for memory that is not granted. -/
def Refusal (E : Env T β) (p : Panic) : Prop := SizePanic E p ∨ ∃ e, p = .alloc e

/-- What a request for memory that is not granted leaves; the values in `dead` were destroyed. -/
structure Denied {X : Type} (E : Env T β) (t t' : Frame X T) (dead : List T) (p : Panic) : Prop where
  refusal : Refusal E p
  untouched : Untouched t t' dead
  cause : SizePanic E p ∨ ¬ t.world.AllGranted t'.world

namespace Change
variable {made made₁ : List T}

theorem refl (h : WF E s.self) : Effect E s s (s.self.toList E) [] := ⟨h, rfl, .refl _, .refl _ _⟩

theorem trans (h : Change E s s₁ l₁ dead₁ made) (h' : Change E s₁ s₂ l₂ dead₂ made₁) :
    Change E s s₂ l₂ (dead₁ ++ dead₂) (made ++ made₁) :=
  ⟨h'.wf, h'.toList_eq, h.log.trans h'.log, h.trade.trans h'.trade⟩

theorem of_untouched (h : WF E s.self) (hu : Untouched s s' dead) : Effect E s s' (s.self.toList E) dead := by
  refine ⟨hu.self_eq ▸ h, by rw [hu.self_eq], hu.log, ?_⟩
  rw [hu.self_eq]
  exact hu.trade _

theorem of_self {d' : SliceDeque β} (hwf : WF E d') (hl : d'.toList E = l)
    (hr : d'.regions E = s.self.regions E) : Effect E s ⟨d', s.world⟩ l [] := by
  refine ⟨hwf, hl, .refl _, ?_⟩
  rw [hr]
  exact .refl _ _

theorem destroy (h : Change E s s' l dead made) (vs : List T) :
    Change E s ⟨s'.self, s'.world.destroy vs⟩ l (dead ++ vs) made := by
  have hstep : Effect E s' ⟨s'.self, s'.world.destroy vs⟩ l vs :=
    ⟨h.wf, h.toList_eq, .destroy _ vs, .destroy _ _ vs⟩
  have := h.trans hstep
  rwa [List.append_nil] at this

theorem produce (h : Change E s s' l dead made) (vs : List T) :
    Change E s ⟨s'.self, s'.world.produce vs⟩ l dead (made ++ vs) := by
  have hstep : Change E s' ⟨s'.self, s'.world.produce vs⟩ l [] vs :=
    ⟨h.wf, h.toList_eq, .produce _ vs, .produce _ _ vs⟩
  have := h.trans hstep
  rwa [List.append_nil] at this

theorem len_eq (h : Change E s s' l dead made) : s'.self.elems.len = l.length := by
  rw [← h.toList_eq, toList_length]

end Change

theorem Relocated.trade {c : Nat} (h : Relocated E s s' c) :
    Trade s.world (s.self.regions E) s'.world (s'.self.regions E) := by
  rw [h.world_eq]
  have hmap : Trade s.world (s.self.regions E) (s.world.map (s'.self.regions E))
      (s'.self.regions E + s.self.regions E : Multiset (Nat × Nat)) := by
    rw [add_comm]
    exact .map _ _ (Buffer.regions_length_le _) h.call
  exact hmap.trans ((Trade.copy _ _ s.self.elems.len).trans (.unmap _ _ _))

theorem Grown.effect {c : Nat} (h : WF E s.self) (hg : Grown E s s' c) :
    Effect E s s' (s.self.toList E) [] := by
  rcases hg.moved with rfl | ⟨-, hr⟩
  · exact .refl h
  · refine ⟨hg.wf, hg.toList_eq, ?_, hr.trade⟩
    rw [hr.world_eq]
    exact .of_eq rfl rfl

theorem Grown.allGranted {c : Nat} (hg : Grown E s s' c) : s.world.AllGranted s'.world := by
  rcases hg.moved with rfl | ⟨-, hr⟩
  · rfl
  · rw [World.AllGranted, hr.world_eq]
    simp only [World.map, World.copy, World.unmap, List.length_append]
    omega

/-- Nothing happened outside of the deque, or its contents moved to a buffer of at least twice the capacity. -/
def Doubled (s s' : Frame (SliceDeque β) T) : Prop :=
  s'.world = s.world ∧ s'.self.capacity = s.self.capacity ∨
    s.self.elems.len = s.self.capacity ∧ 2 * s.self.capacity ≤ s'.self.capacity ∧
      s'.world.copied = s.world.copied + s.self.elems.len ∧ s.world.AllGranted s'.world

theorem Doubled.allGranted (h : Doubled s s') : s.world.AllGranted s'.world := by
  rcases h with ⟨hw, -⟩ | ⟨-, -, -, hg⟩
  · rw [hw]
    rfl
  · exact hg

theorem Doubled.with_self (h : Doubled s s') {d : SliceDeque β} (hd : d.capacity = s'.self.capacity) :
    Doubled s ⟨d, s'.world⟩ := by
  unfold Doubled at *
  rwa [hd]

/-- A full deque that grows for one element doubles its capacity. -/
theorem Grown.doubled (h : WF E s.self) (hfull : s.self.elems.len = s.self.capacity) (hg : Grown E s s' (growTarget s.self 1)) :
    Doubled s s' := by
  have hcap : s.self.capacity < isizeBound := h.cap_lt
  have hbounds : usizeBound = 2 * isizeBound := rfl
  have htarget : 2 * s.self.capacity ≤ growTarget s.self 1 := by
    rw [growTarget, if_pos (by omega)]
    omega
  rcases hg.moved with rfl | ⟨-, hr⟩
  · exact .inl ⟨rfl, rfl⟩
  · refine .inr ⟨hfull, htarget.trans hg.cap_ge, ?_, hg.allGranted⟩
    rw [hr.world_eq]
    rfl

theorem ReservePanic.denied {p : Panic} (h : ReservePanic E s p s') : Denied E s s' [] p := by
  rcases h with ⟨rfl, hp⟩ | ⟨e, rfl, hr⟩
  · exact ⟨.inl hp, .refl _, .inl hp⟩
  · exact ⟨.inr ⟨e, rfl⟩, hr.untouched, .inr hr.not_allGranted⟩

theorem ReservePanic.untouched {p : Panic} (h : ReservePanic E s p s') : Refusal E p ∧ Untouched s s' [] :=
  ⟨h.denied.refusal, h.denied.untouched⟩

section Owners
variable {X : Type} {t t' t₁ : Frame X T} {d : SliceDeque β}

/-- A new deque with contents `l` was made; the receiver is what it was. -/
structure Created (E : Env T β) (t t' : Frame X T) (d : SliceDeque β) (l : List T) : Prop where
  wf : WF E d
  toList_eq : d.toList E = l
  self_eq : t'.self = t.self
  log : Logged t.world t'.world [] []
  trade : ∀ o, Trade t.world o t'.world (o + d.regions E)

/-- The owner of the mappings `rs` is gone, with the values in `dead`. -/
structure Consumed (t t' : Frame X T) (rs : List (Nat × Nat)) (dead : List T) : Prop where
  self_eq : t'.self = t.self
  log : Logged t.world t'.world dead []
  trade : ∀ o, Trade t.world (o + rs) t'.world o

/-- A new deque that is dropped again leaves the receiver untouched. -/
theorem Created.consumed {dead : List T} (h : Created E t t₁ d l) (h' : Consumed t₁ t' (d.regions E) dead) :
    Untouched t t' dead :=
  ⟨h'.self_eq.trans h.self_eq, h.log.trans h'.log, fun o => (h.trade o).trans (h'.trade o)⟩

end Owners

/-! ## Contents after the moves -/

theorem toList_eq_of_getElem {d : SliceDeque β} (hl : d.elems.len = l.length)
    (h : ∀ (i : Nat) (hi : i < l.length), d.slot E i = l[i]) : d.toList E = l := by
  apply List.ext_getElem
  · rw [toList_length, hl]
  · intro i h1 h2
    rw [toList_getElem, h i h2]

theorem toList_withLen {d : SliceDeque β} {n : Nat} (h : n ≤ d.elems.len) :
    (d.withLen n).toList E = (d.toList E).take n := (Mirror.elems_take _ h).symm

theorem HeadMoved.toList_eq {d d' : SliceDeque β} {n : Nat} (h : HeadMoved E d n d') :
    d'.toList E = (d.toList E).drop n := by
  have hlen := h.len_eq
  apply toList_eq_of_getElem
  · rw [List.length_drop, toList_length]
    omega
  · intro i hi
    rw [List.getElem_drop, toList_getElem, h.slot_eq]
    push_cast
    rfl

theorem Rewritten.toList_eq {d d' : SliceDeque β} (h : Rewritten d d')
    (hs : ∀ i : Nat, i < d.elems.len → d'.slot E i = d.slot E i) : d'.toList E = d.toList E :=
  toList_eq_of_slots (by rw [h.elems_eq]) hs

end SliceDeque

end Sdeq
