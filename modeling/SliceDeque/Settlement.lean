import SliceDeque.Addresses

/-!
# What a program leaves behind

Where nothing is leaked and no destructor panics, a program that has dropped
all its variables has freed every mapping with the size it was obtained with,
and destroyed or handed out every value. In any case nothing is freed, destroyed
or handed out twice.
-/

set_option autoImplicit false

namespace Sdeq.Program
open Exec SliceDeque
variable {T β ι : Type} {E : Env T β} {f : T → ι} {s : Frame (Program T β) T} {ops : List (Op T)} {op : Op T}

/-- Nothing gets lost on purpose, nor because a destructor panics. -/
def Orderly (E : Env T β) (ops : List (Op T)) : Prop := ¬ DestructorsPanic E ∧ ∀ op ∈ ops, ¬ op.Leaks

/-! ## Mappings -/

/-- Every mapping that was obtained is freed, owned, or left behind. -/
def Mapped (E : Env T β) (s : Frame (Program T β) T) (out : List (Nat × Nat)) : Prop :=
  Trade .start 0 s.world ((owner E).maps s.self + out : Multiset (Nat × Nat))

theorem mapped_boot : Mapped E (boot : Frame (Program T β) T) [] := .refl _ _

theorem Mapped.step {c : Prop} (h : (owner E).ok s.self) (hm : ∃ out, (c → out = []) ∧ Mapped E s out)
    (hx : Exact (step E op) s) (hc : c → ¬ DestructorsPanic E ∧ ¬ op.Leaks) :
    ∃ out, (c → out = []) ∧ Mapped E (step E op s).state out := by
  obtain ⟨out, hout, hm⟩ := hm
  have hjoin : ∀ {s'} {out'}, (c → out' = []) → Safe (owner E) s s' out' → ∃ out, (c → out = []) ∧ Mapped E s' out := by
    intro s' out' hout' hs
    refine ⟨out' ++ out, fun hh => by rw [hout hh, hout' hh, List.append_nil], hm.trans ?_⟩
    rw [← Multiset.coe_add, ← add_assoc]
    exact hs.trade.frame _
  refine wp_state (R := fun s' => ∃ out, (c → out = []) ∧ Mapped E s' out) hx (wp_mono (safe_step h) ?_ ?_)
  · rintro _ s' ⟨out', hl, hs⟩
    exact hjoin (fun hh => hl (hc hh).2) hs
  · rintro _ s' ⟨-, out', hl, hs⟩
    exact hjoin (fun hh => hl (hc hh).1) hs

theorem mapped_reached (hx : ExactRun E ops) : ∃ out, (Orderly E ops → out = []) ∧ Mapped E (reached E ops) out := by
  have hrun := always_and_of_mem (R := fun op => Orderly E ops → ¬ op.Leaks) hx fun op hop ho => ho.2 op hop
  have hstart : (owner E).ok (boot : Frame (Program T β) T).self ∧ ∃ out, (Orderly E ops → out = []) ∧
      Mapped E (boot : Frame (Program T β) T) out := ⟨ok_boot, [], fun _ => rfl, mapped_boot⟩
  refine (final_invariant (I := fun s => (owner E).ok s.self ∧ ∃ out, (Orderly E ops → out = []) ∧ Mapped E s out)
    ?_ ops boot hstart hrun).2
  rintro op s ⟨h, hm⟩ ⟨hexact, hl⟩
  exact ⟨ok_step h hexact, Mapped.step h hm hexact fun ho => ⟨ho.1, hl ho⟩⟩

theorem Mapped.balanced {out : List (Nat × Nat)} (h : Mapped E s out) :
    s.world.books.Balanced ((owner E).maps s.self + out : Multiset (Nat × Nat)) := h.books.balanced rfl

theorem Mapped.fresh {out : List (Nat × Nat)} (h : Mapped E s out) : s.world.Fresh :=
  Trade.fresh h ⟨List.nodup_nil, fun _ hr => absurd hr List.not_mem_nil⟩

theorem maps_gone (h : ∀ v ∈ s.self.vars, v = .gone) : (owner E).maps s.self = [] := by
  refine List.flatMap_eq_nil_iff.mpr fun v hv => ?_
  rw [h v hv]
  rfl

theorem vals_gone (h : ∀ v ∈ s.self.vars, v = .gone) : (owner E).vals s.self = [] := by
  refine List.flatMap_eq_nil_iff.mpr fun v hv => ?_
  rw [h v hv]
  rfl

theorem mem_maps {v : Var T β} {d : SliceDeque β} (hv : v ∈ s.self.vars) (hd : v.deque? = some d) {r : Nat × Nat}
    (hr : r ∈ d.regions E) : r ∈ (owner E).maps s.self := by
  refine List.mem_flatMap.mpr ⟨v, hv, ?_⟩
  cases v with
  | gone => cases hd
  | intoIter it => cases hd
  | _ =>
    cases hd
    exact hr

/-- Every mapping is freed once, with the size it was obtained with. -/
theorem reached_freed (hs : E.layout.size ≠ 0) (ho : Orderly E ops) (hx : ExactRun E ops) :
    ((reached E ops).world.mapped.map Prod.fst).Nodup ∧
      (reached E ops).world.mapped.Perm ((reached E ops).world.unmapped ++ (owner E).maps (reached E ops).self) ∧
      ((∀ v ∈ (reached E ops).self.vars, v = .gone) → (reached E ops).world.unmapped.Perm (reached E ops).world.mapped) ∧
      ∀ v ∈ (reached E ops).self.vars, ∀ d, v.deque? = some d → d.buf.len ≠ 0 →
        (d.buf.ptr.id, 2 * d.buf.regionSize E) ∈ (reached E ops).world.mapped := by
  obtain ⟨out, hout, hm⟩ := mapped_reached hx
  have hbal := hm.balanced
  rw [hout ho, Multiset.coe_nil, add_zero] at hbal
  have hperm : (reached E ops).world.mapped.Perm ((reached E ops).world.unmapped ++ (owner E).maps (reached E ops).self) :=
    Multiset.coe_eq_coe.mp hbal
  refine ⟨hm.fresh.nodup, hperm, fun hgone => ?_, fun v hv d hd hl => ?_⟩
  · rw [maps_gone hgone, List.append_nil] at hperm
    exact hperm.symm
  · have ha := (ok_deque? (ok_reached hx v hv) hd).buf.alloc hs hl
    have hregion : (d.buf.ptr.id, d.buf.ptr.size) ∈ d.regions E := by
      rw [SliceDeque.regions, Buffer.regions, if_neg (by rintro (h | h) <;> [exact hs h; exact hl h])]
      exact List.mem_singleton_self _
    rw [Buffer.regionSize, Buffer.two_mul_half_byteSize, ha.byteSize_len]
    exact hperm.mem_iff.mpr (List.mem_append_right _ (mem_maps hv hd hregion))

instance {T β : Type} : (v : Var T β) → Decidable (v = .gone)
  | .gone => isTrue rfl
  | .deque _ => isFalse fun h => by cases h
  | .drain _ => isFalse fun h => by cases h
  | .splice _ => isFalse fun h => by cases h
  | .drainFilter _ _ => isFalse fun h => by cases h
  | .intoIter _ => isFalse fun h => by cases h

/-- Elements of three bytes on pages of 4096. One buffer is left behind by growth and one goes through an iterator. -/
def tidy : List (Op Nat) :=
  [.new, .call 0 (.pushBack 1), .call 0 (.pushBack 2), .call 0 (.reserve 2000), .call 0 (.splitOff 1), .turn 0 .rebuild,
    .turn 1 .intoIter, .turn 1 .next, .turn 0 .drop, .turn 1 .drop]

theorem orderly_tidy : Orderly (cells true 3 (by decide)) tidy := by
  constructor
  · rintro ⟨_, _, h⟩
    cases h
  · simp [tidy, Op.Leaks]

theorem tidy_freed : (reached (cells true 3 (by decide)) tidy).world.unmapped.Perm
    (reached (cells true 3 (by decide)) tidy).world.mapped :=
  (reached_freed (by decide) orderly_tidy (by decide +kernel)).2.2.1 (by decide +kernel)

/-! ## Values -/

/-- Every value that came in is destroyed, handed out, owned, or lost. -/
def Counted (E : Env T β) (f : T → ι) (s : Frame (Program T β) T) (lost : List T) : Prop :=
  (books f s).Balanced (ids f ((owner E).vals s.self) + ids f lost)

theorem counted_boot : Counted E f (boot : Frame (Program T β) T) [] := rfl

theorem Counted.step {c : Prop} (h : (owner E).ok s.self) (hk : op.Keeping f) (hp : s.self.Plain)
    (hm : ∃ lost, (c → lost = []) ∧ Counted E f s lost) (hx : Exact (step E op) s) (hc : c → ¬ DestructorsPanic E ∧ ¬ op.Leaks) :
    (step E op s).state.self.Plain ∧ ∃ lost, (c → lost = []) ∧ Counted E f (step E op s).state lost := by
  obtain ⟨lost, hlost, hm⟩ := hm
  have hjoin : ∀ {s'} {lost'} {out}, (c → lost' = []) → Tracks E f s s' lost' out →
      s'.self.Plain ∧ ∃ lost, (c → lost = []) ∧ Counted E f s' lost := by
    intro s' lost' out hlost' ht
    refine ⟨ht.plain hp, lost' ++ lost, fun hh => by rw [hlost hh, hlost' hh, List.append_nil], ?_⟩
    rw [Counted, ids_append, ← add_assoc]
    exact (ht.flow.frame (ids f lost)).balanced hm
  refine wp_state (R := fun s' => s'.self.Plain ∧ ∃ lost, (c → lost = []) ∧ Counted E f s' lost) hx
    (wp_mono (tracks_step h hk hp) ?_ ?_)
  · rintro _ s' ⟨lost', out, hl, ht⟩
    exact hjoin (fun hh => (hl (hc hh).2).1) ht
  · rintro _ s' ⟨lost', out, hl, ht⟩
    exact hjoin (fun hh => (hl (hc hh).1).1) ht

theorem counted_reached (hk : ∀ op ∈ ops, op.Keeping f) (hx : ExactRun E ops) :
    ∃ lost, (Orderly E ops → lost = []) ∧ Counted E f (reached E ops) lost := by
  have hrun := always_and_of_mem (R := fun op => op.Keeping f ∧ (Orderly E ops → ¬ op.Leaks)) hx
    fun op hop => ⟨hk op hop, fun ho => ho.2 op hop⟩
  have hstart : (owner E).ok (boot : Frame (Program T β) T).self ∧ (boot : Frame (Program T β) T).self.Plain ∧
      ∃ lost, (Orderly E ops → lost = []) ∧ Counted E f (boot : Frame (Program T β) T) lost :=
    ⟨ok_boot, fun _ hv => absurd hv List.not_mem_nil, [], fun _ => rfl, counted_boot⟩
  refine (final_invariant (I := fun s => (owner E).ok s.self ∧ s.self.Plain ∧
    ∃ lost, (Orderly E ops → lost = []) ∧ Counted E f s lost) ?_ ops boot hstart hrun).2.2
  rintro op s ⟨h, hp, hm⟩ ⟨hexact, hkeep, hl⟩
  exact ⟨ok_step h hexact, Counted.step h hkeep hp hm hexact fun ho => ⟨ho.1, hl ho⟩⟩

/-- No value is destroyed or handed out twice, and in the end every value is. -/
theorem reached_once (hk : ∀ op ∈ ops, op.Keeping f) (hx : ExactRun E ops) :
    ((((reached E ops).world.made ++ (reached E ops).self.given).map f).Nodup →
      (((reached E ops).world.destroyed ++ (reached E ops).self.handed).map f).Nodup) ∧
      (Orderly E ops → (∀ v ∈ (reached E ops).self.vars, v = .gone) →
        (((reached E ops).world.destroyed ++ (reached E ops).self.handed).map f).Perm
          (((reached E ops).world.made ++ (reached E ops).self.given).map f)) := by
  obtain ⟨lost, hlost, hm⟩ := counted_reached hk hx
  have hin : (books f (reached E ops)).gained = (((reached E ops).world.made ++ (reached E ops).self.given).map f : List ι) :=
    (ids_append _ _).symm
  have hout : (books f (reached E ops)).spent = (((reached E ops).world.destroyed ++ (reached E ops).self.handed).map f : List ι) :=
    (ids_append _ _).symm
  constructor
  · intro hnodup
    rw [← Multiset.coe_nodup, ← hin] at hnodup
    rw [← Multiset.coe_nodup, ← hout]
    exact Multiset.nodup_of_le hm.spent_le hnodup
  · intro ho hgone
    rw [Counted, hlost ho, vals_gone hgone] at hm
    rw [← Multiset.coe_eq_coe, ← hin, ← hout]
    exact Books.Balanced.settled hm

/-- Pages hold one element. After the item 5 the iterator, which has `2 ^ 63 - 1` items left, panics. -/
def overdone : List (Op Nat) :=
  [.new, .call 0 (.pushBack 7), .call 0 (.extend (fun k => (isizeBound - k, some (isizeBound - k))) [some 5, none]), .turn 0 .drop]

/-- The size of the buffer that `extend` asks for wraps around: 5 is stored over 7 and destroyed twice. -/
theorem overdone_twice : (∀ op ∈ overdone, op.Keeping id) ∧
    (((reached (cells false 4096 (by decide)) overdone).world.made ++
      (reached (cells false 4096 (by decide)) overdone).self.given).map id).Nodup ∧
    ¬ (((reached (cells false 4096 (by decide)) overdone).world.destroyed ++
      (reached (cells false 4096 (by decide)) overdone).self.handed).map id).Nodup := by
  refine ⟨?_, by decide +kernel, by decide +kernel⟩
  simp [overdone, Op.Keeping, Call.Keeping, Turn.Keeping]

theorem tidy_once : (((reached (cells true 3 (by decide)) tidy).world.destroyed ++
      (reached (cells true 3 (by decide)) tidy).self.handed).map id).Perm
    (((reached (cells true 3 (by decide)) tidy).world.made ++ (reached (cells true 3 (by decide)) tidy).self.given).map id) :=
  (reached_once (by simp [tidy, Op.Keeping, Call.Keeping, Turn.Keeping]) (by decide +kernel)).2 orderly_tidy (by decide +kernel)

end Sdeq.Program
