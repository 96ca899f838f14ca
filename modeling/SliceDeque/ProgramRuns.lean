import SliceDeque.Accounts
import SliceDeque.TwinPrograms

/-!
# Runs of programs

One step of a program keeps all its variables well-formed and all mappings
accounted for, and so does a run. Without iterators that move values around
every value is accounted for too.
-/

set_option autoImplicit false

namespace Sdeq
open Exec SliceDeque

namespace Op
variable {T ι : Type}

/-- Something is forgotten without being dropped. -/
def Leaks : Op T → Prop
  | turn _ .leak => True
  | _ => False

/-- The operation accounts for every value. -/
def Keeping (f : T → ι) : Op T → Prop
  | call _ c => c.Keeping f
  | turn _ t => t.Keeping
  | _ => True

end Op

namespace Program
variable {T β ι : Type} (E : Env T β) (f : T → ι)

/-- A program owns what its variables own. -/
def owner : Owner (Program T β) T where
  ok p := ∀ v ∈ p.vars, (Var.owner E).ok v
  vals p := p.vars.flatMap (Var.owner E).vals
  maps p := p.vars.flatMap (Var.owner E).maps

/-- Values come from the caller and from user code; they end with the caller, or destroyed. -/
def books (s : Frame (Program T β) T) : Books ι :=
  ⟨ids f s.world.made + ids f s.self.given, ids f s.world.destroyed + ids f s.self.handed⟩

def Plain (p : Program T β) : Prop := ∀ v ∈ p.vars, v.Plain

variable {E f} {p : Program T β} {v v' : Var T β} {i j : Nat} {w : World T} {s s' : Frame (Program T β) T} {op : Op T}
variable {given taken lost : List T} {out : List (Nat × Nat)}

section Put
variable (hi : p.vars[i]? = some v)
include hi

theorem ok_var (h : (owner E).ok p) : (Var.owner E).ok v := h v (List.mem_of_getElem? hi)

theorem Plain.var (h : p.Plain) : v.Plain := h v (List.mem_of_getElem? hi)

theorem safe_put {t : Frame (Var T β) T} (h : (owner E).ok p) (hs : Safe (Var.owner E) ⟨v, w⟩ t out) :
    Safe (owner E) ⟨p, w⟩ ⟨p.put i t.self, t.world⟩ out := by
  refine hs.lift (fun u hu => ?_) (flatMap_set_perm _ hi _)
  rcases List.mem_or_eq_of_mem_set hu with hu | rfl
  · exact h u hu
  · exact hs.ok

theorem keeps_put {t : Frame (Var T β) T} (h : (owner E).ok p) (hk : Keeps (Var.owner E) f ⟨v, w⟩ t given taken out) :
    Keeps (owner E) f ⟨p, w⟩ ⟨p.put i t.self, t.world⟩ given taken out :=
  hk.lift (safe_put hi h hk.toSafe).ok (flatMap_set_perm _ hi _) (flatMap_set_perm _ hi _)

end Put

theorem Plain.put (h : p.Plain) (hv : v'.Plain) : (p.put i v').Plain := by
  intro u hu
  rcases List.mem_or_eq_of_mem_set hu with hu | rfl
  · exact h u hu
  · exact hv

theorem getElem?_put_ne (hij : i ≠ j) : (p.put i v').vars[j]? = p.vars[j]? := List.getElem?_set_ne hij

/-! ## What an operation returns becomes the caller's -/

theorem wp_finish {m : Method T (Program T β) (Out T (SliceDeque β))} {Q : Out T Nat → Frame (Program T β) T → Prop}
    {P : Panic → Frame (Program T β) T → Prop}
    (h : wp m s (fun r s' => Q (r.map fun _ => s'.self.vars.length) ⟨s'.self.accept r, s'.world⟩) P) :
    wp (finish m) s Q P := by
  simp only [finish, wp_bind, wp_self, wp_setSelf, wp_pure]
  exact h

/-- An operation that returned `r` left everything well-formed, but for the mappings in `out`. -/
structure Performed (E : Env T β) (s s' : Frame (Program T β) T) (r : Out T (SliceDeque β)) (out : List (Nat × Nat)) : Prop where
  wf : ∀ d ∈ r.deques, WF E d
  safe : Safe (owner E) s s' (r.deques.flatMap (SliceDeque.regions E) ++ out)

/-- Moreover it lost no values but those in `lost`. -/
structure PerformedAll (E : Env T β) (f : T → ι) (given : List T) (s s' : Frame (Program T β) T) (r : Out T (SliceDeque β))
    (lost : List T) (out : List (Nat × Nat)) : Prop where
  wf : ∀ d ∈ r.deques, WF E d
  keeps : Keeps (owner E) f s s' given (r.deques.flatMap (SliceDeque.toList E) ++ (r.taken ++ lost))
    (r.deques.flatMap (SliceDeque.regions E) ++ out)
  given_eq : s'.self.given = s.self.given ++ given
  handed_eq : s'.self.handed = s.self.handed
  plain : s.self.Plain → s'.self.Plain

/-- Every value is accounted for, but for those in `lost`. -/
structure Tracks (E : Env T β) (f : T → ι) (s s' : Frame (Program T β) T) (lost : List T) (out : List (Nat × Nat)) : Prop where
  safe : Safe (owner E) s s' out
  flow : Books.Moves (books f s) (ids f ((owner E).vals s.self)) (books f s') (ids f ((owner E).vals s'.self) + ids f lost)
  plain : s.self.Plain → s'.self.Plain

theorem maps_accept (p : Program T β) (r : Out T (SliceDeque β)) :
    (owner E).maps (p.accept r) = (owner E).maps p ++ r.deques.flatMap (SliceDeque.regions E) := by
  simp [owner, accept, List.flatMap_map, Var.owner]

theorem vals_accept (p : Program T β) (r : Out T (SliceDeque β)) :
    (owner E).vals (p.accept r) = (owner E).vals p ++ r.deques.flatMap (SliceDeque.toList E) := by
  simp [owner, accept, List.flatMap_map, Var.owner]

theorem Performed.accept {r : Out T (SliceDeque β)} (h : Performed E s s' r out) :
    Safe (owner E) s ⟨s'.self.accept r, s'.world⟩ out := by
  refine ⟨fun v hv => ?_, ?_⟩
  · simp only [Program.accept, List.mem_append, List.mem_map] at hv
    rcases hv with hv | ⟨d, hd, rfl⟩
    · exact h.safe.ok v hv
    · exact h.wf d hd
  · have := h.safe.trade
    rwa [← Multiset.coe_add, ← add_assoc, Multiset.coe_add, ← maps_accept] at this

theorem PerformedAll.accept {r : Out T (SliceDeque β)} (h : PerformedAll E f given s s' r lost out) :
    Tracks E f s ⟨s'.self.accept r, s'.world⟩ lost out := by
  refine ⟨Performed.accept ⟨h.wf, h.keeps.toSafe⟩, ?_, fun hp v hv => ?_⟩
  · have hflow := h.keeps.flow
    simp only [Books.Moves, World.ids, books, vals_accept, ids_append] at hflow ⊢
    simp only [Program.accept, h.given_eq, h.handed_eq, ids_append]
    calc ids f s'.world.made + (ids f s.self.given + ids f given) + (ids f s.world.destroyed + ids f s.self.handed) +
          ids f ((owner E).vals s.self)
        = ids f s'.world.made + ids f s.world.destroyed + (ids f ((owner E).vals s.self) + ids f given) +
          (ids f s.self.given + ids f s.self.handed) := by abel
      _ = _ := by rw [hflow]; abel
  · simp only [Program.accept, List.mem_append, List.mem_map] at hv
    rcases hv with hv | ⟨d, -, rfl⟩
    · exact h.plain hp v hv
    · trivial

/-! ## Operations -/

/-- An operation that returned `r`; only a leak loses something. -/
def Completed (E : Env T β) (f : T → ι) (op : Op T) (s : Frame (Program T β) T) (r : Out T (SliceDeque β))
    (s' : Frame (Program T β) T) : Prop :=
  ∃ given lost out, (¬ op.Leaks → lost = [] ∧ out = []) ∧ PerformedAll E f given s s' r lost out

/-- An operation that panicked; only the panic of a destructor loses something. -/
def Interrupted (E : Env T β) (f : T → ι) (s : Frame (Program T β) T) (p : Panic) (s' : Frame (Program T β) T) : Prop :=
  Clean p ∧ ∃ given lost out, (¬ DestructorsPanic E → lost = [] ∧ out = []) ∧ PerformedAll E f given s s' .unit lost out

theorem give_nil (p : Program T β) : p.give [] = p := by
  rw [give, List.append_nil]

/-- What is written down about the caller is nobody's property. -/
theorem keeps_give {t : Frame (Program T β) T} (h : Keeps (owner E) f s t given taken out) (vs : List T) :
    Keeps (owner E) f s ⟨t.self.give vs, t.world⟩ given taken out := ⟨⟨h.ok, h.trade⟩, h.flow⟩

theorem performed_put {r : Out T (SliceDeque β)} {t : Frame (Var T β) T} (hi : p.vars[i]? = some v) (h : (owner E).ok p)
    (hwf : ∀ d ∈ r.deques, WF E d) (hplain : t.self.Plain)
    (hk : Keeps (Var.owner E) f ⟨v, w⟩ t given (r.deques.flatMap (SliceDeque.toList E) ++ (r.taken ++ lost))
      (r.deques.flatMap (SliceDeque.regions E) ++ out)) :
    PerformedAll E f given ⟨p, w⟩ ⟨(p.put i t.self).give given, t.world⟩ r lost out :=
  ⟨hwf, keeps_give (keeps_put hi h hk) given, rfl, rfl, fun hp => hp.put hplain⟩

theorem performed_same (h : (owner E).ok s.self) : PerformedAll E f [] s s .unit [] [] :=
  ⟨fun _ hd => absurd hd List.not_mem_nil, .refl h [], (List.append_nil _).symm, rfl, id⟩

theorem completed_same (h : (owner E).ok s.self) : Completed E f op s .unit s :=
  ⟨[], [], [], fun _ => ⟨rfl, rfl⟩, performed_same h⟩

theorem completed_new {d : SliceDeque β} (hwf : WF E d) (hself : s'.self = s.self)
    (hk : Keeps (owner E) f s s' [] (d.toList E) (d.regions E)) : Completed E f op s (.deque d) s' := by
  refine ⟨[], [], [], fun _ => ⟨rfl, rfl⟩, ?_, ?_, ?_, ?_, ?_⟩
  · intro d' hd'
    rw [List.mem_singleton.mp hd']
    exact hwf
  · simpa [Out.deques, Out.taken] using hk
  · rw [hself, List.append_nil]
  · rw [hself]
  · rw [hself]
    exact id

theorem interrupted_same {e : Panic} (hself : s'.self = s.self) (hu : Unwound E (owner E) f [] s e s') : Interrupted E f s e s' := by
  obtain ⟨hc, lost, out, hl, hk⟩ := hu
  refine ⟨hc, [], lost, out, hl, fun _ hd => absurd hd List.not_mem_nil, hk, ?_, ?_, ?_⟩
  · rw [hself, List.append_nil]
  · rw [hself]
  · rw [hself]
    exact id

theorem keeps_call {c : Call T} {d : SliceDeque β} (hi : p.vars[i]? = some (.deque d)) (h : (owner E).ok p) (hc : c.Keeping f) :
    wp (within d (fun d => (p.put i (.deque d)).give c.given) (c.run E)) ⟨p, w⟩ (Completed E f op ⟨p, w⟩)
      (Interrupted E f ⟨p, w⟩) := by
  rw [wp_within]
  have hwrap : ∀ {t : Frame (SliceDeque β) T} {taken : List T} {out : List (Nat × Nat)},
      Keeps (SliceDeque.owner E) f ⟨d, w⟩ t c.given taken out →
      Keeps (Var.owner E) f ⟨.deque d, w⟩ ⟨.deque t.self, t.world⟩ c.given taken out := fun hk =>
    hk.lift hk.ok List.perm_append_comm List.perm_append_comm
  refine wp_mono (Call.keeps_run (ok_var hi h) hc) ?_ ?_
  · intro r t hy
    refine ⟨c.given, [], [], fun _ => ⟨rfl, rfl⟩, performed_put (t := ⟨.deque t.self, t.world⟩) hi h hy.wf trivial ?_⟩
    rw [List.append_nil, List.append_nil]
    exact hwrap hy.keeps
  · rintro e t ⟨hclean, lost, out, hl, hk⟩
    exact ⟨hclean, c.given, lost, out, hl, performed_put (t := ⟨.deque t.self, t.world⟩) hi h
      (fun _ hd => absurd hd List.not_mem_nil) trivial (hwrap hk)⟩

theorem keeps_turn {t : Turn T} (hi : p.vars[i]? = some v) (h : (owner E).ok p) (hv : v.Plain) (ht : t.Keeping) :
    wp (within v (fun v => p.put i v) (t.run E v)) ⟨p, w⟩ (Completed E f (.turn i t) ⟨p, w⟩) (Interrupted E f ⟨p, w⟩) := by
  rw [wp_within]
  refine wp_mono (Turn.keeps_run (f := f) (ok_var hi h) hv ht) ?_ ?_
  · rintro r s' ⟨lost, out, hl, hturn⟩
    have hdeques := hturn.deques_eq
    refine ⟨[], lost, out, fun hleak => hl ?_, ?_⟩
    · rintro rfl
      exact hleak trivial
    · rw [← give_nil (p.put i s'.self)]
      refine performed_put hi h (by simp [hdeques]) hturn.plain ?_
      rw [hdeques]
      exact hturn.keeps
  · rintro e s' ⟨⟨hclean, lost, out, hl, hk⟩, hplain⟩
    refine ⟨hclean, [], lost, out, hl, ?_⟩
    rw [← give_nil (p.put i s'.self)]
    exact performed_put hi h (fun _ hd => absurd hd List.not_mem_nil) hplain hk

section Two
variable {x y : Var T β} (hij : i ≠ j) (hi : p.vars[i]? = some x) (hj : p.vars[j]? = some y)
include hij hi hj

theorem flatMap_put_put {γ : Type} (g : Var T β → List γ) (x' y' : Var T β) :
    (((p.put i x').put j y').vars.flatMap g ++ (g x ++ g y)).Perm (p.vars.flatMap g ++ (g x' ++ g y')) := by
  have hx : (((p.put i x').vars.flatMap g : List γ) : Multiset γ) + g x = p.vars.flatMap g + g x' :=
    Multiset.coe_eq_coe.mpr (flatMap_set_perm g hi x')
  have hj' : (p.put i x').vars[j]? = some y := (getElem?_put_ne hij).trans hj
  have hy : ((((p.put i x').put j y').vars.flatMap g : List γ) : Multiset γ) + g y = (p.put i x').vars.flatMap g + g y' :=
    Multiset.coe_eq_coe.mpr (flatMap_set_perm g hj' y')
  apply Multiset.coe_eq_coe.mp
  rw [← Multiset.coe_add, ← Multiset.coe_add, ← Multiset.coe_add, ← Multiset.coe_add, add_left_comm, hy, add_left_comm, ← add_assoc,
    hx, add_assoc]

theorem keeps_put_put {d d' : SliceDeque β} {t : Frame (SliceDeque β × SliceDeque β) T} (h : (owner E).ok p) (hx : x = .deque d)
    (hy : y = .deque d') (hk : Keeps (pairOwner E) f ⟨(d, d'), w⟩ t given taken out) :
    Keeps (owner E) f ⟨p, w⟩ ⟨(p.put i (.deque t.self.1)).put j (.deque t.self.2), t.world⟩ given taken out := by
  subst hx hy
  apply hk.lift
  · intro u hu
    rcases List.mem_or_eq_of_mem_set hu with hu | rfl
    · rcases List.mem_or_eq_of_mem_set hu with hu | rfl
      · exact h u hu
      · exact hk.ok.1
    · exact hk.ok.2
  · exact flatMap_put_put hij hi hj (Var.owner E).maps _ _
  · exact flatMap_put_put hij hi hj (Var.owner E).vals _ _

end Two

theorem keeps_append {d d' : SliceDeque β} (hij : i ≠ j) (hi : p.vars[i]? = some (.deque d)) (hj : p.vars[j]? = some (.deque d'))
    (h : (owner E).ok p) :
    wp (within (d, d') (fun q => (p.put i (.deque q.1)).put j (.deque q.2)) (do
        SliceDeque.append E
        pure .unit)) ⟨p, w⟩ (Completed E f op ⟨p, w⟩) (Interrupted E f ⟨p, w⟩) := by
  have hdeque : ∀ d : SliceDeque β, (Var.deque d : Var T β).Plain := fun _ => trivial
  have hplain : ∀ q : SliceDeque β × SliceDeque β, p.Plain → ((p.put i (.deque q.1)).put j (.deque q.2)).Plain := fun q hp =>
    (hp.put (hdeque _)).put (hdeque _)
  rw [wp_within]
  refine wp_seq (conserves_append (f := f) (s := ⟨(d, d'), w⟩) ⟨ok_var hi h, ok_var hj h⟩) ?_ ?_
  · intro _ t hk
    refine wp_pure.mpr ⟨[], [], [], fun _ => ⟨rfl, rfl⟩, fun _ hd => absurd hd List.not_mem_nil, ?_, (List.append_nil _).symm, rfl, hplain _⟩
    exact keeps_put_put hij hi hj h rfl rfl hk
  · rintro e t ⟨hclean, lost, out, hl, hk⟩
    refine ⟨hclean, [], lost, out, hl, fun _ hd => absurd hd List.not_mem_nil, ?_, (List.append_nil _).symm, rfl, hplain _⟩
    exact keeps_put_put hij hi hj h rfl rfl hk

theorem keeps_cloneFrom {d d' : SliceDeque β} (hi : p.vars[i]? = some (.deque d)) (hd' : WF E d') (h : (owner E).ok p) :
    wp (within d (fun d => p.put i (.deque d)) (do
        SliceDeque.cloneFrom E d'
        pure .unit)) ⟨p, w⟩ (Completed E f op ⟨p, w⟩) (Interrupted E f ⟨p, w⟩) := by
  have hput : ∀ {t : Frame (SliceDeque β) T} {lost : List T} {out : List (Nat × Nat)},
      Keeps (SliceDeque.owner E) f ⟨d, w⟩ t [] lost out →
      PerformedAll E f [] ⟨p, w⟩ ⟨p.put i (.deque t.self), t.world⟩ .unit lost out := by
    intro t lost out hk
    have hvar : Keeps (Var.owner E) f ⟨.deque d, w⟩ ⟨.deque t.self, t.world⟩ [] lost out :=
      hk.lift hk.ok List.perm_append_comm List.perm_append_comm
    rw [← give_nil (p.put i _)]
    exact performed_put (t := ⟨.deque t.self, t.world⟩) hi h (fun _ hd => absurd hd List.not_mem_nil) trivial hvar
  rw [wp_within]
  refine wp_seq (conserves_cloneFrom (f := f) (s := ⟨d, w⟩) (ok_var hi h) hd') ?_ ?_
  · exact fun _ t hk => wp_pure.mpr ⟨[], [], [], fun _ => ⟨rfl, rfl⟩, hput hk⟩
  · rintro e t ⟨hclean, lost, out, hl, hk⟩
    exact ⟨hclean, [], lost, out, hl, hput hk⟩

/-- A variable that the operation turns is not an iterator that moves values around. -/
def Op.Tame (op : Op T) (p : Program T β) : Prop := ∀ i t, op = .turn i t → ∀ v, p.vars[i]? = some v → v.Plain

/-- Every operation accounts for every value and every mapping. -/
theorem keeps_perform (h : (owner E).ok s.self) (hk : op.Keeping f) (hp : Op.Tame op s.self) :
    wp (perform E op) s (Completed E f op s) (Interrupted E f s) := by
  obtain ⟨p, w⟩ := s
  cases op with
  | new =>
    refine wp_pure.mpr (completed_new wf_new rfl ?_)
    rw [toList_new, regions_new]
    exact .refl h []
  | withCapacity n =>
    refine wp_seq (wp_and wp_withCapacity (conserves_withCapacity (f := f) h)) ?_ ?_
    · exact fun d s' hd => wp_pure.mpr (completed_new hd.2.1 hd.1.1.self_eq hd.2.2)
    · exact fun e s' he => interrupted_same he.1.untouched.2.self_eq he.2
  | fromIter iter =>
    have hself : wp (SliceDeque.fromIter E iter : Method T (Program T β) (SliceDeque β)) ⟨p, w⟩
        (fun _ s' => s'.self = p) fun _ s' => s'.self = p := Blind.wp_self_eq (fun _ => Blind.fromIter) ⟨p, w⟩
    refine wp_seq (wp_and hself (conserves_fromIter (f := f) h)) ?_ ?_
    · exact fun d s' hd => wp_pure.mpr (completed_new hd.2.1 hd.1 hd.2.2.2)
    · exact fun e s' he => interrupted_same he.1 he.2
  | call i c =>
    simp only [perform, wp_bind, wp_self]
    split
    · rename_i d hi
      exact keeps_call hi h hk
    · exact wp_pure.mpr (completed_same h)
  | turn i t =>
    simp only [perform, wp_bind, wp_self]
    split
    · rename_i v hi
      exact keeps_turn hi h (hp i t rfl v hi) hk
    · exact wp_pure.mpr (completed_same h)
  | append i j =>
    simp only [perform, wp_bind, wp_self]
    split
    · rename_i d d' hi hj
      rw [wp_ite]
      exact ⟨fun _ => wp_pure.mpr (completed_same h), fun hij => keeps_append hij hi hj h⟩
    · exact wp_pure.mpr (completed_same h)
  | cloneFrom i j =>
    simp only [perform, wp_bind, wp_self]
    split
    · rename_i d d' hi hj
      rw [wp_ite]
      exact ⟨fun _ => wp_pure.mpr (completed_same h), fun _ => keeps_cloneFrom hi (ok_var hj h) h⟩
    · exact wp_pure.mpr (completed_same h)

theorem accept_unit (p : Program T β) : p.accept .unit = p := by
  simp [accept, Out.deques, Out.taken]

/-- A step keeps the books, but for what a leak or the panic of a destructor loses. -/
theorem tracks_step (h : (owner E).ok s.self) (hk : op.Keeping f) (hp : s.self.Plain) :
    wp (step E op) s
      (fun _ s' => ∃ lost out, (¬ op.Leaks → lost = [] ∧ out = []) ∧ Tracks E f s s' lost out)
      (fun _ s' => ∃ lost out, (¬ DestructorsPanic E → lost = [] ∧ out = []) ∧ Tracks E f s s' lost out) := by
  apply wp_finish
  have htame : Op.Tame op s.self := fun _ _ _ _ hi => hp.var hi
  refine wp_mono (keeps_perform h hk htame) ?_ ?_
  · rintro r s' ⟨given, lost, out, hl, hall⟩
    exact ⟨lost, out, hl, hall.accept⟩
  · rintro e s' ⟨-, given, lost, out, hl, hall⟩
    have htracks := hall.accept
    rw [accept_unit] at htracks
    exact ⟨lost, out, hl, htracks⟩

/-! ## The same without the values -/

/-- An operation that returned `r`; only a leak leaves mappings behind. -/
def Settled (E : Env T β) (op : Op T) (s : Frame (Program T β) T) (r : Out T (SliceDeque β)) (s' : Frame (Program T β) T) :
    Prop :=
  ∃ out, (¬ op.Leaks → out = []) ∧ Performed E s s' r out

theorem safe_call {c : Call T} {d : SliceDeque β} (hi : p.vars[i]? = some (.deque d)) (h : (owner E).ok p) :
    wp (within d (fun d => (p.put i (.deque d)).give c.given) (c.run E)) ⟨p, w⟩ (Settled E op ⟨p, w⟩)
      (SafeUnwound E (owner E) ⟨p, w⟩) := by
  have hlift : ∀ {t : Frame (SliceDeque β) T} {out : List (Nat × Nat)}, Safe (SliceDeque.owner E) ⟨d, w⟩ t out →
      Safe (owner E) ⟨p, w⟩ ⟨(p.put i (.deque t.self)).give c.given, t.world⟩ out := by
    intro t out hs
    have hvar : Safe (Var.owner E) ⟨.deque d, w⟩ ⟨.deque t.self, t.world⟩ out := hs.lift hs.ok List.perm_append_comm
    have hput := safe_put hi h hvar
    exact ⟨hput.ok, hput.trade⟩
  rw [wp_within]
  refine wp_mono (Call.safe_run (ok_var hi h)) ?_ ?_
  · intro r t hy
    refine ⟨[], fun _ => rfl, hy.wf, ?_⟩
    rw [List.append_nil]
    exact hlift hy.safe
  · rintro e t ⟨hc, out, hl, hs⟩
    exact ⟨hc, out, hl, hlift hs⟩

theorem safe_turn {t : Turn T} (hi : p.vars[i]? = some v) (h : (owner E).ok p) :
    wp (within v (fun v => p.put i v) (t.run E v)) ⟨p, w⟩ (Settled E (.turn i t) ⟨p, w⟩) (SafeUnwound E (owner E) ⟨p, w⟩) := by
  rw [wp_within]
  refine wp_mono (Turn.safe_run (ok_var hi h)) ?_ ?_
  · rintro r s' ⟨hdeques, out, hl, hs⟩
    refine ⟨out, fun hleak => hl ?_, ?_, ?_⟩
    · rintro rfl
      exact hleak trivial
    · rw [hdeques]
      exact fun _ hd => absurd hd List.not_mem_nil
    · rw [hdeques]
      exact safe_put hi h hs
  · rintro e s' ⟨hc, out, hl, hs⟩
    exact ⟨hc, out, hl, safe_put hi h hs⟩

theorem safe_perform (h : (owner E).ok s.self) : wp (perform E op) s (Settled E op s) (SafeUnwound E (owner E) s) := by
  have hkeep : op.Keeping (fun _ : T => ()) → Op.Tame op s.self →
      wp (perform E op) s (Settled E op s) (SafeUnwound E (owner E) s) := by
    intro hk ht
    refine wp_mono (keeps_perform h hk ht) ?_ ?_
    · rintro r s' ⟨given, lost, out, hl, hall⟩
      exact ⟨out, fun hn => (hl hn).2, hall.wf, hall.keeps.toSafe⟩
    · rintro e s' ⟨hc, given, lost, out, hl, hall⟩
      exact ⟨hc, out, fun hn => (hl hn).2, hall.keeps.toSafe⟩
  have hsame : Settled E op s .unit s := ⟨[], fun _ => rfl, fun _ hd => absurd hd List.not_mem_nil, .refl h⟩
  cases op with
  | call i c =>
    obtain ⟨p, w⟩ := s
    simp only [perform, wp_bind, wp_self]
    split
    · rename_i d hi
      exact safe_call hi h
    · exact wp_pure.mpr hsame
  | turn i t =>
    obtain ⟨p, w⟩ := s
    simp only [perform, wp_bind, wp_self]
    split
    · rename_i v hi
      exact safe_turn hi h
    · exact wp_pure.mpr hsame
  | _ =>
    apply hkeep trivial
    intro i t heq
    cases heq

/-- A step keeps the variables well-formed, and mappings stay accounted for. -/
theorem safe_step (h : (owner E).ok s.self) :
    wp (step E op) s (fun _ s' => ∃ out, (¬ op.Leaks → out = []) ∧ Safe (owner E) s s' out) (SafeUnwound E (owner E) s) := by
  apply wp_finish
  refine wp_mono (safe_perform h) ?_ fun _ _ => id
  rintro r s' ⟨out, hl, hperf⟩
  exact ⟨out, hl, hperf.accept⟩

/-! ## Runs -/

variable (E) in
/-- The state after a program. -/
def reached (ops : List (Op T)) : Frame (Program T β) T := final (step E) ops boot

variable (E) in
/-- No machine operation of the program wraps around. -/
def ExactRun (ops : List (Op T)) : Prop := Always (step E) (fun op s => Exact (step E op) s) ops boot

instance (ops : List (Op T)) : Decidable (ExactRun E ops) := inferInstanceAs (Decidable (Always _ _ _ _))

theorem ok_boot : (owner E).ok (boot : Frame (Program T β) T).self := fun _ hv => absurd hv List.not_mem_nil

theorem ok_step (h : (owner E).ok s.self) (hx : Exact (step E op) s) : (owner E).ok (step E op s).state.self := by
  refine wp_state (R := fun s' => (owner E).ok s'.self) hx (wp_mono (safe_step h) ?_ ?_)
  · rintro _ s' ⟨_, -, hs⟩
    exact hs.ok
  · rintro _ s' ⟨-, _, -, hs⟩
    exact hs.ok

theorem ok_reached {ops : List (Op T)} (hx : ExactRun E ops) : (owner E).ok (reached E ops).self :=
  final_invariant (I := fun s => (owner E).ok s.self) (fun _ _ => ok_step) ops boot ok_boot hx

/-- No assertion of the library fails in a run. -/
theorem clean_results {ops : List (Op T)} (hx : ExactRun E ops) {e : Panic} (he : .error e ∈ results (step E) ops boot) :
    Clean e := by
  have hok := always_of_invariant (I := fun s => (owner E).ok s.self) (Q := fun op s => Exact (step E op) s ∧ (owner E).ok s.self)
    (fun _ _ => ok_step) (fun _ _ h hx => ⟨hx, h⟩) ops boot ok_boot hx
  obtain ⟨op, s, ⟨hexact, h⟩, hr⟩ := exists_of_mem_results hok he
  have hends := (safe_step h : wp (step E op) s _ _).ends hexact
  rw [hr] at hends
  exact hends.1

end Program

end Sdeq
