import SliceDeque.Splice

/-!
# What a splice puts in the place of its range

The replacement is stored in the gap that the range leaves. If it is longer
than the gap, the tail has to move, and the deque may have to grow: the deque
was shortened, so growing it copies the elements before the gap only.
-/

set_option autoImplicit false

namespace Sdeq
open Exec SliceDeque

/-! ## Fresh memory -/

section Fresh
variable {T β : Type} {E : Env T β} {k n : Nat} {a : Int} {f : Int → β} {bytes : Int → β}

theorem answer_of_map {r : Except AllocError (Int × (Int → β))} (h : r.map (fun r => (r.1, bytes)) = .ok (a, f)) :
    ∃ g, r = .ok (a, g) ∧ f = bytes := by
  cases r with
  | error e => cases h
  | ok r =>
    obtain ⟨base, g⟩ := r
    cases h
    exact ⟨g, rfl, rfl⟩

/-- The machine on which the `k`-th mapping shows the given bytes when it is new. -/
def Env.showing (E : Env T β) (bytes : Nat → Int → β) : Env T β :=
  { E with
    allocate := fun k n => (E.allocate k n).map fun r => (r.1, bytes k)
    base_dvd := by
      intro k n a f h
      obtain ⟨g, hr, -⟩ := answer_of_map h
      exact E.base_dvd k n a g hr
    base_pos := by
      intro k n a f h
      obtain ⟨g, hr, -⟩ := answer_of_map h
      exact E.base_pos k n a g hr
    base_fits := by
      intro k n a f h
      obtain ⟨g, hr, -⟩ := answer_of_map h
      exact E.base_fits k n a g hr }

theorem Buffer.ok_showing {b : Buffer β} {bytes : Nat → Int → β} (h : Buffer.Ok E b) : Buffer.Ok (E.showing bytes) b := by
  refine ⟨h.base_pos, h.base_dvd, h.zst, fun hs hl => ?_⟩
  have ha := h.alloc hs hl
  exact ⟨ha.align_le, ha.half_eq, ha.size_eq, ha.bytes_le, ha.cap_eq, ha.cap_pos, ha.base_dvd, ha.base_fits⟩

theorem SliceDeque.wf_showing {d : SliceDeque β} {bytes : Nat → Int → β} (h : WF E d) : WF (E.showing bytes) d :=
  ⟨Buffer.ok_showing h.buf, h.len_le, h.begin_ge, h.begin_lt, h.aligned⟩

theorem Drain.ok_showing {dr : Drain β} {bytes : Nat → Int → β} (h : Drain.Ok E dr) : Drain.Ok (E.showing bytes) dr :=
  ⟨wf_showing h.wf, h.items_at, h.tail_at⟩

/-- New memory shows the value wherever an element can be. -/
def Shows (E : Env T β) (v : T) : Prop :=
  ∀ k n a f, E.allocate k n = .ok (a, f) → ∀ i : Nat, E.layout.decode (fun j => f (i * E.layout.size + j)) = v

/-- Bytes that show the value in every slot. -/
def pattern (L : Layout T β) (v : T) (x : Int) : β := L.encode v (x % L.size).toNat

theorem shows_pattern (E : Env T β) (v : T) : Shows (E.showing fun _ => pattern E.layout v) v := by
  intro k n a f h i
  obtain ⟨g, -, rfl⟩ := answer_of_map h
  rw [← E.layout.decode_encode v]
  apply E.layout.decode_congr
  intro j hj
  have hmod : ((i : Int) * E.layout.size + j) % E.layout.size = j := by
    rw [Int.add_comm, Int.add_mul_emod_self_right]
    exact Int.emod_eq_of_lt (by omega) (by omega)
  rw [E.layout.decode_encode]
  exact congrArg (E.layout.encode v) ((congrArg Int.toNat hmod).trans (Int.toNat_natCast j))

end Fresh

namespace Drain
variable {T β : Type} {E : Env T β}

/-! ## Moving the tail -/

/-- The tail is where it was, or where it was moved to. If the capacity has to grow for `needed`
elements, it shows what the new memory showed. -/
structure Shifted (E : Env T β) (dr dr' : Drain β) (needed : Nat) : Prop where
  tailLen_eq : dr'.tailLen = dr.tailLen
  same : needed ≤ dr.deq.capacity → dr'.tail E = dr.tail E ∧ dr'.deq.capacity = dr.deq.capacity
  lost : dr.deq.capacity < needed → ∀ v, Shows E v → dr'.tail E = List.replicate dr.tailLen v

theorem Shifted.refl (dr : Drain β) : Shifted E dr dr 0 :=
  ⟨rfl, fun _ => ⟨rfl, rfl⟩, fun h => absurd h (Nat.not_lt_zero _)⟩

theorem Shifted.trans {dr dr₁ dr₂ : Drain β} {n m : Nat} (h : Shifted E dr dr₁ n) (h' : Shifted E dr₁ dr₂ m) :
    Shifted E dr dr₂ (max n m) := by
  refine ⟨h'.tailLen_eq.trans h.tailLen_eq, fun hfits => ?_, fun hgrow v hv => ?_⟩
  · obtain ⟨htail, hcap⟩ := h.same (by omega)
    obtain ⟨htail', hcap'⟩ := h'.same (by omega)
    exact ⟨htail'.trans htail, hcap'.trans hcap⟩
  · rcases Nat.lt_or_ge dr₁.deq.capacity m with hm | hm
    · rw [h'.lost hm v hv, h.tailLen_eq]
    · rw [(h'.same hm).1]
      rcases Nat.lt_or_ge dr.deq.capacity n with hn | hn
      · exact h.lost hn v hv
      · have hcap := (h.same hn).2
        omega

/-- What is needed does not matter as long as it fits. -/
theorem Shifted.of_fits {dr dr' : Drain β} {n m : Nat} (h : Shifted E dr dr' n) (hn : n ≤ dr.deq.capacity)
    (hm : m ≤ dr.deq.capacity) : Shifted E dr dr' m :=
  ⟨h.tailLen_eq, fun _ => h.same hn, fun hlt => absurd hm (Nat.not_le.mpr hlt)⟩

theorem tail_length (dr : Drain β) : (dr.tail E).length = dr.tailLen := by
  rw [tail, window_length]

theorem tail_eq_nil {dr : Drain β} (h : dr.tailLen = 0) : dr.tail E = [] :=
  List.eq_nil_of_length_eq_zero ((tail_length dr).trans h)

/-- Items were stored in the gap, and the tail was moved if there was no place for them. -/
structure Stored (E : Env T β) (s s' : Frame (Drain β) T) (added : List T) (needed : Nat) : Prop where
  gap : Gap E s'.self
  kept_eq : s'.self.deq.toList E = s.self.deq.toList E ++ added
  shifted : Shifted E s.self s'.self needed
  destroyed_eq : s'.world.destroyed = s.world.destroyed

theorem Stored.trans {s s₁ s₂ : Frame (Drain β) T} {l m : List T} {n k : Nat} (h : Stored E s s₁ l n) (h' : Stored E s₁ s₂ m k) :
    Stored E s s₂ (l ++ m) (max n k) := by
  refine ⟨h'.gap, ?_, h.shifted.trans h'.shifted, h'.destroyed_eq.trans h.destroyed_eq⟩
  rw [h'.kept_eq, h.kept_eq, List.append_assoc]

theorem slot_of_shows {k n : Nat} {a : Int} {f : Int → β} {v : T} (hv : Shows E v) (ha : E.allocate k n = .ok (a, f)) {half i : Nat}
    (hi : (i + 1) * E.layout.size ≤ half) : (⟨a, half, f⟩ : Mirror β).slot E.layout a i = v := by
  rw [← hv k n a f ha i]
  apply E.layout.decode_congr
  intro j hj
  have hpos : (0 : Int) ≤ i * E.layout.size := by positivity
  have hlt : (i : Int) * E.layout.size + j < half := by
    rw [Nat.add_mul, Nat.one_mul] at hi
    have hi' : ((i * E.layout.size + E.layout.size : Nat) : Int) ≤ half := by exact_mod_cast hi
    push_cast at hi'
    omega
  have hphys : (⟨a, half, f⟩ : Mirror β).phys (a + i * E.layout.size + j) = i * E.layout.size + j := by
    rw [Mirror.phys, add_assoc, add_sub_cancel_left]
    exact Int.emod_eq_of_lt (by omega) hlt
  exact congrArg f hphys

/-- Growing a deque loses what lies behind its elements. -/
theorem window_grown {s s' : Frame (SliceDeque β) T} {c i n : Nat} {v : T} (h : WF E s.self) (hg : SliceDeque.Grown E s s' c)
    (hc : s.self.capacity < c) (hi : s.self.elems.len ≤ i) (hn : i + n ≤ c) (hv : Shows E v) :
    s'.self.window E i n = List.replicate n v := by
  have hcap := hg.cap_ge
  rcases hg.moved with rfl | ⟨-, hr⟩
  · omega
  have hs : E.layout.size ≠ 0 := by
    intro hs
    have hz : s.self.capacity = isizeBound - 1 := h.buf.cap_zst hs
    have hz' : s'.self.capacity = isizeBound - 1 := hg.wf.buf.cap_zst hs
    omega
  obtain ⟨a, f, ha, hm⟩ := hr.memory hs
  have hbase : s'.self.elems.ptr = a := by rw [hr.begin_eq, hm, Mirror.copyFrom_base]
  have hmul := hg.wf.cap_mul_le
  rw [hm, Mirror.copyFrom_half] at hmul
  apply List.ext_getElem
  · rw [window_length, List.length_replicate]
  · intro k hk _
    rw [window_length] at hk
    rw [window_getElem, List.getElem_replicate, slot, hm, hbase]
    have hcopy := Mirror.slot_copyFrom (m := ⟨a, Buffer.byteSize E (2 * c) / 2, f⟩) (r := s.self.buf.ptr.mirror) (b := a)
      (a := s.self.elems.ptr) (i := (i + k : Nat)) (y := 0) (n := s.self.elems.len) hmul (by omega) (by omega) le_rfl (by omega)
    rw [zero_mul, add_zero, if_neg (by omega)] at hcopy
    rw [hcopy]
    exact slot_of_shows hv ha ((Nat.mul_le_mul_right _ (by omega)).trans hmul)

theorem Moved.stored {s s' : Frame (Drain β) T} {s₁ : Frame (SliceDeque β) T} {extra : Nat} (hm : Moved E s s' s₁ extra)
    (h : Gap E s.self) : Stored E s s' [] (s.self.tailStart + s.self.tailLen + extra) := by
  have hle := h.len_le
  have hcap := hm.grown.cap_ge
  have heff := hm.grown.effect h.wf
  have hkept : s'.self.deq.toList E = s₁.self.toList E := by
    apply hm.rewritten.toList_eq
    intro i hi
    have hlen := hm.grown.len_eq
    dsimp only at hlen
    rw [hm.slot_eq i (by omega) (by omega), if_neg (by omega)]
  have htail : s'.self.tail E = s₁.self.window E s.self.tailStart s.self.tailLen := by
    apply List.ext_getElem
    · rw [tail, window_length, window_length, hm.tailLen_eq]
    · intro k hk _
      rw [tail, window_length, hm.tailLen_eq] at hk
      simp only [tail, window_getElem, hm.start_eq]
      rw [hm.slot_eq _ (by omega) (by omega), if_pos (by omega)]
      congr 1
      push_cast
      omega
  refine ⟨hm.gap h, ?_, ⟨hm.tailLen_eq, fun hfits => ?_, fun hgrow v hv => ?_⟩, ?_⟩
  · rw [hkept, heff.toList_eq, List.append_nil]
  · rcases hm.grown.moved with rfl | ⟨hlt, -⟩
    · exact ⟨htail, hm.rewritten.capacity_eq⟩
    · exact absurd hfits (Nat.not_le.mpr hlt)
  · rw [htail]
    exact window_grown h.wf hm.grown hgrow hle (by omega) hv
  · rw [hm.world_eq, heff.log.destroyed_eq, List.append_nil]

/-! ## Filling the gap -/

/-- The calls of an iterator return its items in order, and destroy nothing. -/
def Feeds {Y : Type} (nextItem : Method T Y (Option T)) (ok : Y → Prop) (items : Y → List T) : Prop :=
  ∀ t, ok t.self → wp nextItem t (fun r t' => r = (items t.self).head? ∧ items t'.self = (items t.self).tail ∧ ok t'.self ∧
    t'.world.destroyed = t.world.destroyed) fun _ _ => False

theorem wp_storeItem {s : Frame (Drain β) T} {v : T} {P : Panic → Frame (Drain β) T → Prop} (h : Gap E s.self)
    (hroom : s.self.deq.elems.len < s.self.tailStart) :
    wp (onDeq do
      writeSlot E s.self.deq.elems.len v
      SliceDeque.moveTailUnchecked E 1) s (fun _ s' => Stored E s s' [v] 0 ∧ s'.self.tailStart = s.self.tailStart) P := by
  have hpos := h.tail_pos
  have htl := h.tail_le
  rw [onDeq, wp_onPart]
  apply wp_mono (wp_writeBack_slots (s := ⟨s.self.deq, s.world⟩) (P := fun _ _ => False) h.wf (by dsimp only; omega)) _ fun _ _ => False.elim
  intro _ s₁ hs₁
  obtain ⟨⟨heff, hcap⟩, hslots⟩ := hs₁
  dsimp only at hcap hslots
  have hlen := heff.len_eq
  rw [List.length_append, toList_length, List.length_singleton] at hlen
  dsimp only at hlen
  refine ⟨⟨⟨heff.wf, h.iter_len, hpos, ?_, ?_⟩, heff.toList_eq, ⟨rfl, fun _ => ⟨?_, hcap⟩, fun hlt => absurd hlt (Nat.not_lt_zero _)⟩, ?_⟩, rfl⟩
  · dsimp only
    omega
  · dsimp only
    omega
  · apply List.ext_getElem
    · rw [tail, tail, window_length, window_length]
    · intro k hk _
      rw [tail, window_length] at hk
      simp only [tail, window_getElem]
      exact hslots _ (by omega) (by dsimp only at hk; omega)
  · rw [heff.log.destroyed_eq, List.append_nil]

section Fill
variable {Y : Type} {nextItem : Method T Y (Option T)} {ok : Y → Prop} {items : Y → List T}

/-- What filling so many places leaves. -/
structure Filled (E : Env T β) (ok : Y → Prop) (items : Y → List T) (s s' : Frame (Drain β × Y) T) (places : Nat) : Prop where
  stored : Stored E ⟨s.self.1, s.world⟩ ⟨s'.self.1, s'.world⟩ ((items s.self.2).take places) 0
  start_eq : s'.self.1.tailStart = s.self.1.tailStart
  items_eq : items s'.self.2 = (items s.self.2).drop places
  ok : ok s'.self.2

theorem wp_fillLoop (hfeeds : Feeds nextItem ok items) {places i : Nat} {s : Frame (Drain β × Y) T} {P : Panic → Frame (Drain β × Y) T → Prop}
    (h : Gap E s.self.1) (hok : ok s.self.2) (hi : i = s.self.1.deq.elems.len) (hplaces : i + places = s.self.1.tailStart) :
    wp (fillLoop E nextItem places i) s
      (fun r s' => Filled E ok items s s' places ∧ (r = true ↔ places ≤ (items s.self.2).length)) P := by
  induction places generalizing i s with
  | zero =>
    refine wp_pure.mpr ⟨⟨⟨h, (List.append_nil _).symm, .refl _, rfl⟩, rfl, rfl, hok⟩, ?_⟩
    exact iff_of_true rfl (Nat.zero_le _)
  | succ places ih =>
    rw [fillLoop, wp_bind, wp_onPart]
    apply wp_mono (hfeeds ⟨s.self.2, s.world⟩ hok) _ fun _ _ => False.elim
    intro r t ht
    obtain ⟨hr, hitems, hok₁, hdead⟩ := ht
    dsimp only at hr hitems hdead
    cases hl : items s.self.2 with
    | nil =>
      rw [hl] at hr hitems
      rw [hr]
      refine wp_pure.mpr ⟨⟨⟨h, ?_, .refl _, hdead⟩, rfl, ?_, hok₁⟩, ?_⟩
      · rw [hl, List.take_nil, List.append_nil]
      · rw [hl, List.drop_nil]
        exact hitems
      · simp
    | cons v rest =>
      rw [hl] at hr hitems
      rw [hr, List.head?_cons, wp_bind, wp_onPart, hi]
      apply wp_mono (wp_storeItem (s := ⟨s.self.1, t.world⟩) (P := fun _ _ => False) h (by dsimp only; omega)) _ fun _ _ => False.elim
      intro _ s₁ hs₁
      obtain ⟨hst, hstart⟩ := hs₁
      have hone : Stored E ⟨s.self.1, s.world⟩ s₁ [v] 0 :=
        ⟨hst.gap, hst.kept_eq, hst.shifted, hst.destroyed_eq.trans hdead⟩
      have hlen : s₁.self.deq.elems.len = s.self.1.deq.elems.len + 1 := by
        have hkept := congrArg List.length hst.kept_eq
        rwa [List.length_append, toList_length, toList_length, List.length_singleton] at hkept
      dsimp only at hstart
      apply wp_mono (ih (s := ⟨(s₁.self, t.self), s₁.world⟩) hst.gap hok₁ (by dsimp only; omega) (by dsimp only; omega)) _ fun _ _ => id
      intro r' s' hs'
      obtain ⟨hf, hr'⟩ := hs'
      have hall := hone.trans hf.stored
      dsimp only at hall hr'
      rw [hitems, List.tail_cons] at hall hr'
      refine ⟨⟨?_, hf.start_eq.trans hstart, ?_, hf.ok⟩, ?_⟩
      · rw [hl, List.take_succ_cons]
        exact hall
      · rw [hf.items_eq, hl, List.drop_succ_cons]
        exact congrArg (List.drop places) hitems
      · rw [hr', List.length_cons, Nat.succ_le_succ_iff]

theorem wp_fill (hfeeds : Feeds nextItem ok items) {s : Frame (Drain β × Y) T} {P : Panic → Frame (Drain β × Y) T → Prop}
    (h : Gap E s.self.1) (hok : ok s.self.2) :
    wp (fill E nextItem) s (fun r s' => Filled E ok items s s' (s.self.1.tailStart - s.self.1.deq.elems.len) ∧
      (r = true ↔ s.self.1.tailStart - s.self.1.deq.elems.len ≤ (items s.self.2).length)) P := by
  have hle := h.len_le
  rw [fill, wp_bind, wp_self]
  exact wp_fillLoop hfeeds h hok rfl (by omega)

end Fill

end Drain

/-- The items that an iterator of the caller still has. -/
def UserIter.items {T : Type} (it : UserIter T) : List T := it.rest.filterMap id

theorem UserIter.items_map {T : Type} (l : List T) (k : Nat) (hint : Hint) : UserIter.items ⟨l.map some, k, hint⟩ = l := by
  simp [items]

/-- The iterator never panics, and had `n` items and this hint in the beginning. -/
structure UserIter.Steady {T : Type} (hint : Hint) (n : Nat) (it : UserIter T) : Prop where
  rest_eq : it.rest = it.items.map some
  hint_eq : it.hint = hint
  count_eq : it.pulled + it.items.length = n

theorem UserIter.feeds {T : Type} {hint : Hint} {n : Nat} : Drain.Feeds UserIter.next (UserIter.Steady (T := T) hint n) UserIter.items := by
  intro t h
  have hrest := h.rest_eq
  have hcount := h.count_eq
  simp only [next, wp_bind, wp_self]
  cases hl : t.self.items with
  | nil =>
    rw [hl, List.map_nil] at hrest
    rw [hrest]
    exact wp_pure.mpr ⟨rfl, hl, h, rfl⟩
  | cons v rest =>
    rw [hl, List.map_cons] at hrest
    rw [hrest, wp_bind, wp_setSelf, wp_bind]
    apply wp_produce _ fun hnone => absurd hnone (Option.some_ne_none v)
    intro x hx
    obtain rfl : v = x := Option.some.inj hx
    have hitems := UserIter.items_map rest (t.self.pulled + 1) t.self.hint
    refine wp_pure.mpr ⟨rfl, hitems, ⟨?_, h.hint_eq, ?_⟩, ?_⟩
    · rw [hitems]
    · rw [hitems]
      rw [hl, List.length_cons] at hcount
      dsimp only
      omega
    · simp [World.produce]

theorem IntoIter.feeds {T β : Type} {E : Env T β} : Drain.Feeds (IntoIter.next E) (IntoIter.Ok E) (IntoIter.vals E) := by
  intro t h
  apply wp_mono (IntoIter.wp_next h) _ fun _ _ => id
  intro r t' ht
  obtain ⟨hr, htaken⟩ := ht
  refine ⟨hr, htaken.items_eq, htaken.ok, ?_⟩
  rw [htaken.world_eq]

namespace Splice
variable {T β : Type} {E : Env T β}

/-! ## The phases of the drop -/

/-- The panics of a drop. -/
def DropPanic (E : Env T β) (p : Panic) : Prop := p = .destructor ∧ DestructorsPanic E ∨ Refusal E p

/-- Whatever cleans up, the panic is the one that was under way. -/
theorem wp_cleanup {X : Type} {c : Method T X Unit} {s : Frame X T} {p : Panic} (h : DropPanic E p) :
    wp c s (fun _ _ => DropPanic E p) fun _ _ => DropPanic E p :=
  wp_mono (wp_trivial _ _) (fun _ _ _ => h) fun _ _ _ => h

/-- As many places are made as there are items, so all of them are stored. -/
theorem wp_storeCollected {s : Frame (Drain β × IntoIter β) T} (h : Drain.Gap E s.self.1) (hok : IntoIter.Ok E s.self.2)
    (hfull : s.self.1.deq.elems.len = s.self.1.tailStart) :
    wp (storeCollected E) s (fun _ s' => Drain.Stored E ⟨s.self.1, s.world⟩ ⟨s'.self.1, s'.world⟩ (s.self.2.vals E)
      (s.self.1.tailStart + s.self.1.tailLen + (s.self.2.vals E).length)) fun p _ => DropPanic E p := by
  have hlen := IntoIter.vals_length (E := E) s.self.2
  -- the collection is empty in the end
  have hlast : ∀ s₁ : Frame (Drain β × IntoIter β) T, IntoIter.Ok E s₁.self.2 → s₁.self.2.vals E = [] →
      Drain.Stored E ⟨s.self.1, s.world⟩ ⟨s₁.self.1, s₁.world⟩ (s.self.2.vals E)
        (s.self.1.tailStart + s.self.1.tailLen + (s.self.2.vals E).length) →
      wp (onPart Prod.snd (fun p it => (p.1, it)) (IntoIter.drop E)) s₁
        (fun _ s' => Drain.Stored E ⟨s.self.1, s.world⟩ ⟨s'.self.1, s'.world⟩ (s.self.2.vals E)
          (s.self.1.tailStart + s.self.1.tailLen + (s.self.2.vals E).length)) fun p _ => DropPanic E p := by
    intro s₁ hok₁ hnil hst
    rw [wp_onPart]
    apply wp_mono (IntoIter.wp_drop hok₁) _ fun p _ hp => .inl ⟨hp.1, hp.2.1⟩
    intro _ t ht
    refine ⟨hst.gap, hst.kept_eq, hst.shifted, ?_⟩
    rw [ht, hnil, World.destroy_nil]
    exact hst.destroyed_eq
  rw [storeCollected, wp_bind]
  apply wp_onPanic (P := fun p _ => DropPanic E p) _ fun p s₁ hp => wp_cleanup hp
  simp only [wp_bind, wp_self, wp_when, IntoIter.sizeHint_eq hok]
  constructor
  · intro hpos
    rw [wp_onPart]
    apply wp_mono (Drain.wp_moveTailUnchecked (s := ⟨s.self.1, s.world⟩) h) _ fun p _ hp => .inr hp.1
    intro _ t ht
    obtain ⟨d₁, hm⟩ := ht
    have hmoved := hm.stored h
    have hstart := hm.start_eq
    have hkept := hm.len_eq
    dsimp only at hstart hkept hmoved
    have hplaces : t.self.tailStart - t.self.deq.elems.len = (s.self.2.vals E).length := by omega
    apply wp_mono (Drain.wp_fill IntoIter.feeds (s := ⟨(t.self, s.self.2), t.world⟩) (P := fun _ _ => False) hmoved.gap hok) _
      fun _ _ => False.elim
    intro r s₂ hs₂
    obtain ⟨hf, hr⟩ := hs₂
    have hst := hmoved.trans hf.stored
    have hnil := hf.items_eq
    dsimp only at hr hst hnil
    rw [hplaces] at hr hst hnil
    rw [List.nil_append, List.take_length, Nat.max_eq_left (Nat.zero_le _), ← hlen] at hst
    rw [List.drop_length] at hnil
    have hleft : (s₂.self.2.sizeHint E).1 = 0 := by
      rw [IntoIter.sizeHint_eq hf.ok, ← IntoIter.vals_length, hnil, List.length_nil]
    exact wp_debugAssert (hr.mpr le_rfl) (wp_debugAssert hleft (hlast s₂ hf.ok hnil hst))
  · intro hzero
    have hnil : s.self.2.vals E = [] := List.eq_nil_of_length_eq_zero (by omega)
    apply hlast s hok hnil
    rw [hnil]
    have hle := h.tail_le
    exact ⟨h, (List.append_nil _).symm, (Drain.Shifted.refl _).of_fits (Nat.zero_le _) hle, rfl⟩

section Phases
variable {s : Frame (Splice T β) T} {hint : Hint} {n : Nat}

/-- What the splice has done so far: items of the replacement were stored, and the others are left. -/
structure Progress (E : Env T β) (hint : Hint) (n : Nat) (s s' : Frame (Splice T β) T) (k needed : Nat) : Prop where
  stored : Drain.Stored E ⟨s.self.drain, s.world⟩ ⟨s'.self.drain, s'.world⟩ (s.self.replaceWith.items.take k) needed
  items_eq : s'.self.replaceWith.items = s.self.replaceWith.items.drop k
  steady : UserIter.Steady hint n s'.self.replaceWith

theorem wp_fill {P : Panic → Frame (Splice T β) T → Prop} (h : Drain.Gap E s.self.drain) (hst : UserIter.Steady hint n s.self.replaceWith) :
    wp (fill E) s
      (fun r s' => Progress E hint n s s' (s.self.drain.tailStart - s.self.drain.deq.elems.len) 0 ∧
        s'.self.drain.tailStart = s.self.drain.tailStart ∧
        (r = true ↔ s.self.drain.tailStart - s.self.drain.deq.elems.len ≤ s.self.replaceWith.items.length)) P := by
  rw [fill, wp_onPart]
  apply wp_mono (Drain.wp_fill UserIter.feeds (s := ⟨(s.self.drain, s.self.replaceWith), s.world⟩) (P := fun _ _ => False) h hst) _
    fun _ _ => False.elim
  intro r t ht
  obtain ⟨hf, hr⟩ := ht
  exact ⟨⟨hf.stored, hf.items_eq, hf.ok⟩, hf.start_eq, hr⟩

theorem wp_storeRest (h : Drain.Gap E s.self.drain) (hst : UserIter.Steady hint n s.self.replaceWith)
    (hfull : s.self.drain.deq.elems.len = s.self.drain.tailStart) :
    wp (storeRest E) s (fun _ s' => Drain.Stored E ⟨s.self.drain, s.world⟩ ⟨s'.self.drain, s'.world⟩ s.self.replaceWith.items
      (s.self.drain.tailStart + s.self.drain.tailLen + s.self.replaceWith.items.length)) fun p _ => DropPanic E p := by
  simp only [storeRest, wp_bind, wp_self]
  apply wp_mono (wp_fromIter hst.rest_eq) _ fun p _ hp => .inr hp
  intro d s₁ hs₁
  obtain ⟨hwf, hlist, hself, hdead⟩ := hs₁
  apply wp_intoIter hwf
  intro it hit
  rw [onDrain, wp_onPart, wp_withLocal]
  rw [hself]
  apply wp_mono (wp_storeCollected (s := ⟨(s.self.drain, it), s₁.world⟩) h hit.ok hfull) _ fun _ _ => id
  intro _ t ht
  dsimp only at ht
  rw [hit.vals_eq, hlist] at ht
  exact ⟨ht.gap, ht.kept_eq, ht.shifted, ht.destroyed_eq.trans hdead⟩

theorem Progress.len_eq {s' : Frame (Splice T β) T} {k needed : Nat} (hp : Progress E hint n s s' k needed)
    (hk : k ≤ s.self.replaceWith.items.length) : s'.self.drain.deq.elems.len = s.self.drain.deq.elems.len + k := by
  have hkept := congrArg List.length hp.stored.kept_eq
  rwa [List.length_append, toList_length, toList_length, List.length_take, Nat.min_eq_left hk] at hkept

/-- The gap is full: what is left is stored behind the places for the lower bound. -/
theorem wp_storeBeyond (h : Drain.Gap E s.self.drain) (hst : UserIter.Steady hint n s.self.replaceWith) (hlaw : Lawful hint n)
    (hfull : s.self.drain.deq.elems.len = s.self.drain.tailStart) :
    wp (do
      let sp ← self
      let lowerBound := (sp.replaceWith.hint sp.replaceWith.pulled).1
      let filled ← (if 0 < lowerBound then do
          onDrain (Drain.moveTailUnchecked E lowerBound)
          fill E
        else pure true)
      when (filled = true) (storeRest E)) s
      (fun _ s' => Drain.Stored E ⟨s.self.drain, s.world⟩ ⟨s'.self.drain, s'.world⟩ s.self.replaceWith.items
        (s.self.drain.tailStart + s.self.drain.tailLen + s.self.replaceWith.items.length)) fun p _ => DropPanic E p := by
  have hcount := hst.count_eq
  have hlower : (hint s.self.replaceWith.pulled).1 ≤ s.self.replaceWith.items.length := by
    have hbound := (hlaw s.self.replaceWith.pulled (by omega)).1
    omega
  rw [wp_bind, wp_self, hst.hint_eq, wp_bind]
  by_cases hpos : 0 < (hint s.self.replaceWith.pulled).1
  · rw [if_pos hpos, wp_bind, onDrain, wp_onPart]
    apply wp_mono (Drain.wp_moveTailUnchecked (s := ⟨s.self.drain, s.world⟩) h) _ fun p _ hp => .inr hp.1
    intro _ t ht
    obtain ⟨d₁, hm⟩ := ht
    have hmoved := hm.stored h
    have hstart := hm.start_eq
    have hlen := hm.len_eq
    have htail := hm.tailLen_eq
    dsimp only at hmoved hstart hlen htail
    apply wp_mono (wp_fill (s := ⟨⟨t.self, s.self.replaceWith⟩, t.world⟩) (P := fun _ _ => False) hmoved.gap hst) _
      fun _ _ => False.elim
    intro r s₂ hs₂
    obtain ⟨hp, hstart₂, hr⟩ := hs₂
    have hplaces : t.self.tailStart - t.self.deq.elems.len = (hint s.self.replaceWith.pulled).1 := by omega
    dsimp only at hp hstart₂ hr
    rw [hplaces] at hp hr
    have hlen₂ := hp.len_eq hlower
    have hitems := hp.items_eq
    have htail₂ := hp.stored.shifted.tailLen_eq
    have hboth := hmoved.trans hp.stored
    dsimp only at hlen₂ hitems htail₂ hboth
    rw [wp_when]
    refine ⟨fun _ => ?_, fun hnot => absurd (hr.mpr hlower) hnot⟩
    apply wp_mono (wp_storeRest hp.stored.gap hp.steady (by omega)) _ fun _ _ => id
    intro _ s' hs'
    have hall := hboth.trans hs'
    rw [hitems, List.nil_append, List.take_append_drop, List.length_drop] at hall
    have hneeded : max (max (s.self.drain.tailStart + s.self.drain.tailLen + (hint s.self.replaceWith.pulled).1) 0)
        (s₂.self.drain.tailStart + s₂.self.drain.tailLen +
          (s.self.replaceWith.items.length - (hint s.self.replaceWith.pulled).1)) =
        s.self.drain.tailStart + s.self.drain.tailLen + s.self.replaceWith.items.length := by omega
    rwa [hneeded] at hall
  · rw [if_neg hpos, wp_pure, wp_when]
    exact ⟨fun _ => wp_storeRest h hst hfull, fun hnot => absurd rfl hnot⟩

/-- The gap is filled, then the places for the lower bound, then those for the items that are left. -/
theorem wp_replaceGap (h : Drain.Gap E s.self.drain) (hst : UserIter.Steady hint n s.self.replaceWith) (hlaw : Lawful hint n) :
    wp (do
      let filled ← fill E
      when (filled = true) do
        let sp ← self
        let lowerBound := (sp.replaceWith.hint sp.replaceWith.pulled).1
        let filled ← (if 0 < lowerBound then do
            onDrain (Drain.moveTailUnchecked E lowerBound)
            fill E
          else pure true)
        when (filled = true) (storeRest E)) s
      (fun _ s' => Drain.Stored E ⟨s.self.drain, s.world⟩ ⟨s'.self.drain, s'.world⟩ s.self.replaceWith.items
        (s.self.drain.deq.elems.len + s.self.replaceWith.items.length + s.self.drain.tailLen)) fun p _ => DropPanic E p := by
  have hle := h.len_le
  have htl := h.tail_le
  rw [wp_bind]
  apply wp_mono (wp_fill (P := fun _ _ => False) h hst) _ fun _ _ => False.elim
  intro r s₁ hs₁
  obtain ⟨hp, hstart, hr⟩ := hs₁
  rw [wp_when]
  constructor
  · intro hfilled
    have hplaces := hr.mp hfilled
    have hlen := hp.len_eq hplaces
    have hitems := hp.items_eq
    have htail := hp.stored.shifted.tailLen_eq
    dsimp only at htail
    apply wp_mono (wp_storeBeyond hp.stored.gap hp.steady hlaw (by omega)) _ fun _ _ => id
    intro _ s' hs'
    have hall := hp.stored.trans hs'
    rw [hitems, List.take_append_drop, List.length_drop] at hall
    have hneeded : max 0 (s₁.self.drain.tailStart + s₁.self.drain.tailLen + (s.self.replaceWith.items.length -
        (s.self.drain.tailStart - s.self.drain.deq.elems.len))) =
        s.self.drain.deq.elems.len + s.self.replaceWith.items.length + s.self.drain.tailLen := by omega
    rwa [hneeded] at hall
  · intro hshort
    -- all items found a place in the gap
    have hall : s.self.replaceWith.items.length ≤ s.self.drain.tailStart - s.self.drain.deq.elems.len := by
      rw [hr] at hshort
      omega
    have hstored := hp.stored
    rw [List.take_of_length_le hall] at hstored
    exact ⟨hstored.gap, hstored.kept_eq, hstored.shifted.of_fits (Nat.zero_le _) (by dsimp only; omega), hstored.destroyed_eq⟩

/-- The range is gone, and the replacement is stored; the tail may be lost. -/
structure Replaced (E : Env T β) (s s' : Frame (Splice T β) T) : Prop where
  ok : Drain.Ok E s'.self.drain
  iter_len : s'.self.drain.iter.len = 0
  kept_eq : s'.self.drain.deq.toList E = s.self.drain.deq.toList E ++ s.self.replaceWith.items
  tailLen_eq : s'.self.drain.tailLen = s.self.drain.tailLen
  same : s.self.drain.deq.elems.len + s.self.replaceWith.items.length + s.self.drain.tailLen ≤ s.self.drain.deq.capacity →
    s'.self.drain.tail E = s.self.drain.tail E
  lost : s.self.drain.deq.capacity < s.self.drain.deq.elems.len + s.self.replaceWith.items.length + s.self.drain.tailLen →
    ∀ v, Shows E v → s'.self.drain.tail E = List.replicate s.self.drain.tailLen v
  destroyed_eq : s'.world.destroyed = s.world.destroyed ++ s.self.drain.items E

theorem wp_replace (h : Drain.Ok E s.self.drain) (hst : UserIter.Steady hint n s.self.replaceWith) (hlaw : Lawful hint n) :
    wp (replace E) s (fun _ s' => Replaced E s s') fun p _ => DropPanic E p := by
  rw [replace, wp_bind, wp_self, wp_bind, onDrain, wp_onPart]
  apply wp_mono (Drain.wp_exhaust (s := ⟨s.self.drain, s.world⟩) h) _ fun p _ hp => .inl ⟨hp.1, hp.2.1⟩
  intro _ t ht
  have hok : Drain.Ok E t.self := ht.ok
  have hzero : t.self.iter.len = 0 := Drain.iter_len_reduced ht
  have hworld : t.world = s.world.destroy (s.self.drain.items E) := (ht.all (Drain.items_length _)).2
  have hdead : t.world.destroyed = s.world.destroyed ++ s.self.drain.items E := by
    rw [hworld]
    rfl
  have hfixed := ht.fixed_eq
  simp only [Drain.view, Prod.mk.injEq] at hfixed
  obtain ⟨hdeq, hstart, hlen⟩ := hfixed
  have htail : t.self.tail E = s.self.drain.tail E := (Drain.deq_of_fixed ht.fixed_eq).2
  rw [wp_bind, wp_self, wp_ite]
  constructor
  · intro hnone
    rw [onDrain, wp_onPart, Drain.onDeq, wp_onPart, hst.rest_eq]
    apply wp_mono (wp_extendDesugared (s := ⟨t.self.deq, t.world⟩) hok.wf) _ fun p _ hp => .inr hp
    intro _ u hu
    have hkept := hu.toList_eq
    dsimp only at hkept
    rw [hdeq] at hkept
    have hs0 : s.self.drain.tailLen = 0 := hlen.symm.trans hnone
    refine ⟨⟨hu.wf, fun hne => absurd hzero hne, fun hpos => absurd hnone hpos.ne'⟩, hzero, hkept, hlen, fun _ => ?_,
      fun _ v _ => ?_, ?_⟩
    · rw [Drain.tail_eq_nil hs0]
      exact Drain.tail_eq_nil hnone
    · rw [hs0, List.replicate_zero]
      exact Drain.tail_eq_nil hnone
    · rw [hu.log.destroyed_eq, List.append_nil]
      exact hdead
  · intro hsome
    have hgap : Drain.Gap E t.self :=
      have hpos := Nat.pos_of_ne_zero hsome
      ⟨hok.wf, hzero, hpos, (hok.tail_at hpos).1, (hok.tail_at hpos).2⟩
    apply wp_mono (wp_replaceGap (s := ⟨⟨t.self, s.self.replaceWith⟩, t.world⟩) hgap hst hlaw) _ fun _ _ => id
    intro _ s' hs'
    have hkept := hs'.kept_eq
    have hshift := hs'.shifted
    have hdestroyed := hs'.destroyed_eq
    have htailLen := hshift.tailLen_eq
    dsimp only at hkept hshift hdestroyed htailLen
    refine ⟨hs'.gap.ok, hs'.gap.iter_len, ?_, htailLen.trans hlen, fun hfits => ?_, fun hgrow v hv => ?_, hdestroyed.trans hdead⟩
    · rw [hkept, hdeq]
    · rw [← htail]
      exact (hshift.same (by rwa [hdeq, hlen])).1
    · rw [← hlen]
      exact hshift.lost (by rwa [hdeq, hlen]) v hv

theorem wp_drop (h : Drain.Ok E s.self.drain) (hst : UserIter.Steady hint n s.self.replaceWith) (hlaw : Lawful hint n) :
    wp (drop E) s (fun _ s' => ∃ s₁, Replaced E s s₁ ∧ s'.self.drain.deq.toList E =
        s.self.drain.deq.toList E ++ s.self.replaceWith.items ++ s₁.self.drain.tail E ∧
        s'.world.destroyed = s.world.destroyed ++ s.self.drain.items E) fun p _ => DropPanic E p := by
  rw [drop, wp_bind]
  apply wp_onPanic (P := fun p _ => DropPanic E p) _ fun p s₁ hp => wp_cleanup hp
  apply wp_mono (wp_replace h hst hlaw) _ fun _ _ => id
  intro _ s₁ hs₁
  rw [onDrain, wp_onPart]
  apply wp_mono (Drain.wp_drop (s := ⟨s₁.self.drain, s₁.world⟩) hs₁.ok) _ fun p _ hp => .inl ⟨hp.1, hp.2.1⟩
  intro _ t ht
  refine ⟨s₁, hs₁, ?_, ?_⟩
  · rw [ht.1.toList_eq, hs₁.kept_eq]
  · rw [ht.1.log.destroyed_eq, Drain.items_eq_nil hs₁.iter_len, List.append_nil]
    exact hs₁.destroyed_eq

end Phases

/-! ## Replacing the range -/

/-- Unless memory is refused or a destructor panics, the drop leaves these contents and has destroyed these values. -/
def Replaces (E : Env T β) (s : Frame (Splice T β) T) (contents dead : List T) : Prop :=
  wp (drop E) s (fun _ s' => s'.self.drain.deq.toList E = contents ∧ s'.world.destroyed = s.world.destroyed ++ dead)
    fun p _ => DropPanic E p

section Drop
variable {s : Frame (Splice T β) T} {hint : Hint} {n : Nat} (h : Drain.Ok E s.self.drain)
  (hst : UserIter.Steady hint n s.self.replaceWith) (hlaw : Lawful hint n)
include h hst hlaw

/-- Whatever new memory shows, the tail is there again if it did not have to move to a new buffer. -/
theorem replaces_of_fits (hfits : s.self.drain.tailLen = 0 ∨ s.self.drain.deq.elems.len + s.self.replaceWith.items.length +
      s.self.drain.tailLen ≤ s.self.drain.deq.capacity ∨ Subsingleton T) (bytes : Nat → Int → β) :
    Replaces (E.showing bytes) s (s.self.drain.deq.toList E ++ s.self.replaceWith.items ++ s.self.drain.tail E)
      (s.self.drain.items E) := by
  apply wp_mono (wp_drop (Drain.ok_showing h) hst hlaw) _ fun _ _ => id
  intro _ s' hs'
  obtain ⟨s₁, hr, hl, hdead⟩ := hs'
  have hsame : s₁.self.drain.tail E = s.self.drain.tail E := by
    rcases hfits with h0 | hfits | hone
    · rw [Drain.tail_eq_nil h0, Drain.tail_eq_nil (hr.tailLen_eq.trans h0)]
    · exact hr.same hfits
    · apply List.ext_getElem
      · rw [Drain.tail_length, Drain.tail_length, hr.tailLen_eq]
      · exact fun i _ _ => Subsingleton.elim _ _
  refine ⟨?_, hdead⟩
  rw [← hsame]
  exact hl

/-- If the tail has to move, new memory can show another value in its place. -/
theorem fits_of_replaces (hrun : ∀ bytes, Ends (drop (E.showing bytes)) s fun _ _ => True)
    (hall : ∀ bytes, Replaces (E.showing bytes) s
      (s.self.drain.deq.toList E ++ s.self.replaceWith.items ++ s.self.drain.tail E) (s.self.drain.items E)) :
    s.self.drain.tailLen = 0 ∨ s.self.drain.deq.elems.len + s.self.replaceWith.items.length +
      s.self.drain.tailLen ≤ s.self.drain.deq.capacity ∨ Subsingleton T := by
  by_contra hcond
  obtain ⟨hpos, hcond⟩ := not_or.mp hcond
  obtain ⟨hgrow, hmany⟩ := not_or.mp hcond
  have := not_subsingleton_iff_nontrivial.mp hmany
  obtain ⟨x, hx⟩ := List.exists_mem_of_length_pos (l := s.self.drain.tail E) (by rw [Drain.tail_length]; omega)
  obtain ⟨v, hv⟩ := exists_ne x
  have hcode := (hrun fun _ => pattern E.layout v).wp (wp_drop (Drain.ok_showing h) hst hlaw)
  have hclaim := (hrun fun _ => pattern E.layout v).wp (hall fun _ => pattern E.layout v)
  obtain ⟨_, s', -, ⟨s₁, hr, hl, -⟩, hl', -⟩ := hcode.unique hclaim
  have hlost := hr.lost (Nat.lt_of_not_le hgrow) v (shows_pattern E v)
  rw [hl] at hl'
  have hsame : s₁.self.drain.tail E = s.self.drain.tail E := List.append_cancel_left hl'
  rw [← hsame] at hx
  have hmem : x ∈ List.replicate s.self.drain.tailLen v := hlost ▸ hx
  exact hv (List.eq_of_mem_replicate hmem).symm

end Drop

/-- Neither the deque nor the replacement change while items are taken. -/
def view (E : Env T β) : View (Splice T β) T (SliceDeque β × Nat × Nat × UserIter T) :=
  ⟨fun sp => Drain.Ok E sp.drain, fun sp => sp.drain.items E,
    fun sp => (sp.drain.deq, sp.drain.tailStart, sp.drain.tailLen, sp.replaceWith)⟩

theorem ends_pull (e : End) (s : Frame (Splice T β) T) (h : (view E).ok s.self) : Ends (pull E e) s fun r s' =>
    r = (e.pull ((view E).items s.self)).1 ∧ (view E).Taken s s' (e.pull ((view E).items s.self)).2 := by
  have hdrain := Drain.ends_pull e ⟨s.self.drain, s.world⟩ h
  have hpull : pull E e = onDrain (Drain.pull E e) := by cases e <;> rfl
  rw [hpull, onDrain, onPart, ends_zoom]
  apply ends_mono hdrain
  intro r t ht
  obtain ⟨hr, hok, hitems, hfixed, hworld⟩ := ht
  simp only [Drain.view, Prod.mk.injEq] at hfixed
  obtain ⟨hdeq, hstart, hlen⟩ := hfixed
  refine ⟨hr, hok, hitems, ?_, hworld⟩
  simp only [view, hdeq, hstart, hlen]

end Splice

namespace SliceDeque
open Splice
variable {T β : Type} {E : Env T β} {s : Frame (SliceDeque β) T} {start end_ : Bound}

end SliceDeque

end Sdeq
