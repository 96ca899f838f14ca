import SliceDeque.ListPrograms
import SliceDeque.Resize

/-!
# The contracts of the methods

What a safe method may return, with which panic it may end instead, and what it
leaves, in terms of lists. The allocator may refuse every request, closures,
iterators, `clone` and `default` may panic at every call, and so may destructors.
-/

set_option autoImplicit false

namespace Sdeq
open Exec SliceDeque Parted

/-- User code makes `v` in one of its calls. -/
def Makes {T : Type} (make : Nat → Option T) (v : T) : Prop := ∃ k, make k = some v

/-- `clone` makes `c` of `v` in one of its calls. -/
def CloneOf {T β : Type} (E : Env T β) (v c : T) : Prop := Makes (fun k => E.cloneOf k v) c

theorem makes_madeFrom {T : Type} {make : Nat → Option T} (n k : Nat) : ∀ v ∈ madeFrom make k n, Makes make v := by
  induction n generalizing k with
  | zero => exact fun _ hv => absurd hv List.not_mem_nil
  | succ n ih =>
    rw [madeFrom]
    cases hm : make k with
    | none => exact fun _ hv => absurd hv List.not_mem_nil
    | some v => exact List.forall_mem_cons.mpr ⟨⟨k, hm⟩, ih (k + 1)⟩

/-- An iterator of the caller returned `vs`, then a call of `next` panicked, or there was no memory
for what it returned. -/
def Stuck {T β : Type} (E : Env T β) (iter : List (Option T)) (vs : List T) (p : Panic) : Prop :=
  ∃ next rest, iter = vs.map some ++ next :: rest ∧ (next = none ∧ p = .user ∨ next ≠ none ∧ Refusal E p)

namespace Call
variable {T β : Type}

/-- The methods that leave a list: `extend_from_slice` and `shrink_to_fit` leave destroyed values behind,
`move_head` and `move_tail` expose the slots outside, and `insert` may shift the wrong way. -/
def tracked (n : Nat) : Call T → Bool
  | extendFromSlice _ => false
  | shrinkToFit => false
  | moveHead _ => false
  | moveTail _ => false
  | insert i _ => i ≤ 1 ∨ n / 2 < i
  | _ => true

/-- The methods that panic when they do not get the memory that they ask for. -/
def asks : Call T → Bool
  | pushFront _ => true
  | pushBack _ => true
  | reserve _ => true
  | reserveExact _ => true
  | splitOff _ => true
  | resize _ _ => true
  | resizeDefault _ => true
  | insert _ _ => true
  | clone => true
  | _ => false

/-- The methods that report it. -/
def reports : Call T → Bool
  | tryPushFront _ => true
  | tryPushBack _ => true
  | tryReserve _ => true
  | _ => false

/-- What they report. -/
def reported (e : AllocError) : Call T → Out T (List T)
  | tryPushFront v => .rejected v e
  | tryPushBack v => .rejected v e
  | _ => .failed e

/-- The methods that drop elements. -/
def drops : Call T → Bool
  | truncateBack _ => true
  | truncate _ => true
  | truncateFront _ => true
  | clear => true
  | retain _ => true
  | dedupBy _ => true
  | resize _ _ => true
  | resizeDefault _ => true
  | _ => false

/-- The panic of a method whose index is not one of the list. -/
def alarm : Call T → Panic
  | swapRemoveBack _ => .index
  | swapRemoveFront _ => .index
  | _ => .assert

/-- What the closure of a method accepts and rejects, up to its panic. -/
def sieve : Call T → List T → Option (Parted T Unit)
  | retain f, l => some (sift (recorded f) [] l).forget
  | dedupBy same, l => some (dedupAll (recordedPair same) [] l).forget
  | _, _ => none

/-- The length to which a method fills a deque up, and the calls that make the new values. -/
def fill (E : Env T β) : Call T → Option (Nat × (Nat → Option T))
  | resize n v => some (n, fun k => E.cloneOf k v)
  | resizeDefault n => some (n, E.defaultOf)
  | _ => none

/-- What a method may return or panic with, and what the list holds then. -/
inductive Allows (E : Env T β) : Call T → List T → Except Panic (Out T (List T)) → List T → Prop where
  | listed {c : Call T} {l : List T} (hc : c.listed = true) (hi : c.inRange l.length = true) :
      Allows E c l (.ok (c.onList l).1) (c.onList l).2
  | outside {c : Call T} {l : List T} (hi : c.inRange l.length = false) : Allows E c l (.error c.alarm) l
  | reported {c : Call T} {l : List T} {e : AllocError} (hc : c.reports = true) : Allows E c l (.ok (c.reported e)) l
  | unsized {c : Call T} {l : List T} {p : Panic} (hc : c.reports = true) (hp : SizePanic E p) : Allows E c l (.error p) l
  | denied {c : Call T} {l : List T} {p : Panic} (hc : c.asks = true) (hp : Refusal E p) : Allows E c l (.error p) l
  /-- everything was done before a destructor panicked -/
  | destructor {c : Call T} {l l' : List T} (hc : c.drops = true) (hd : DestructorsPanic E)
      (h : Allows E c l (.ok .unit) l') : Allows E c l (.error .destructor) l'
  | sieved {c : Call T} {l : List T} {p : Parted T Unit} (h : c.sieve l = some p) (hp : p.state = some ()) :
      Allows E c l (.ok .unit) p.kept
  /-- what was not accepted before the panic is behind what was -/
  | sievePanics {c : Call T} {l rest : List T} {p : Parted T Unit} (h : c.sieve l = some p) (hp : p.state = none)
      (hrest : rest.Perm p.rest) : Allows E c l (.error .user) (p.kept ++ rest)
  | extend {hint : Hint} {l vs : List T} : Allows E (.extend hint (vs.map some)) l (.ok .unit) (l ++ vs)
  | extendPanics {hint : Hint} {iter : List (Option T)} {l vs : List T} {p : Panic} (h : Stuck E iter vs p) :
      Allows E (.extend hint iter) l (.error p) (l ++ vs)
  | filled {c : Call T} {l vs : List T} {n : Nat} {make : Nat → Option T} (h : c.fill E = some (n, make))
      (hvs : ∀ v ∈ vs, Makes make v) (hlen : vs.length = n - l.length) : Allows E c l (.ok .unit) (l.take n ++ vs)
  | fillPanics {c : Call T} {l vs : List T} {n : Nat} {make : Nat → Option T} (h : c.fill E = some (n, make))
      (hvs : ∀ v ∈ vs, Makes make v) (hlen : vs.length < n - l.length) : Allows E c l (.error .user) (l ++ vs)
  | insert {i : Nat} {v : T} {l : List T} (hi : i ≤ l.length) : Allows E (.insert i v) l (.ok .unit) (l.insertIdx i v)
  | insertOutside {i : Nat} {v : T} {l : List T} (hi : l.length < i) : Allows E (.insert i v) l (.error .assert) l
  | clone {l cs : List T} (h : List.Forall₂ (CloneOf E) l cs) : Allows E .clone l (.ok (.deque cs)) l
  | clonePanics {l : List T} : Allows E .clone l (.error .user) l

end Call

/-! ## Loops that run user code -/

namespace SliceDeque
variable {T β : Type} {E : Env T β} {s s' : Frame (SliceDeque β) T} {d : SliceDeque β} {l dead made : List T} {n : Nat} {v : T}

/-- The deque is well-formed and shows `l`. -/
structure Contains (E : Env T β) (d : SliceDeque β) (l : List T) : Prop where
  wf : WF E d
  toList_eq : d.toList E = l

theorem Change.contains (h : Change E s s' l dead made) : Contains E s'.self l := ⟨h.wf, h.toList_eq⟩

theorem Contains.self (h : WF E d) : Contains E d (d.toList E ++ []) := ⟨h, (List.append_nil _).symm⟩

/-- The items come behind the elements, as far as the iterator got. -/
theorem wp_extendDesugared_iter (hint : Hint) (iter : List (Option T)) (k : Nat) (h : WF E s.self) :
    wp (extendDesugared E hint k iter) s (fun _ s' => ∃ vs, iter = vs.map some ∧ Contains E s'.self (s.self.toList E ++ vs))
      (fun p s' => ∃ vs, Stuck E iter vs p ∧ Contains E s'.self (s.self.toList E ++ vs)) := by
  induction iter generalizing k s with
  | nil => exact wp_pure.mpr ⟨[], rfl, .self h⟩
  | cons next rest ih =>
    rw [extendDesugared, wp_bind]
    refine wp_produce (fun v hv => ?_) fun hnone => ⟨[], ⟨next, rest, rfl, .inl ⟨hnone, rfl⟩⟩, .self h⟩
    have hv : next = some v := hv
    refine wp_seq (wp_extendOne (s := ⟨s.self, s.world.produce [v]⟩) h) (fun _ s₁ heff => ?_) ?_
    · have hrest := ih (k + 1) heff.wf
      rw [heff.toList_eq] at hrest
      simp only [List.append_assoc] at hrest
      refine wp_mono hrest ?_ ?_
      · rintro _ s' ⟨vs, hvs, hs'⟩
        exact ⟨v :: vs, by rw [hv, hvs, List.map_cons], hs'⟩
      · rintro p s' ⟨vs, ⟨x, ys, hstuck, hp⟩, hs'⟩
        exact ⟨v :: vs, ⟨x, ys, by rw [hv, hstuck, List.map_cons, List.cons_append], hp⟩, hs'⟩
    · rintro p s' ⟨hp, hu⟩
      refine ⟨[], ⟨next, rest, rfl, .inr ⟨by rw [hv]; exact Option.some_ne_none v, hp⟩⟩, ?_⟩
      rw [hu.self_eq]
      exact .self h

/-- A collection holds the items, if the iterator gets to its end. -/
theorem wp_fromIter_iter {X : Type} {t : Frame X T} (iter : UserIter T) :
    wp (fromIter E iter) t (fun d _ => ∃ vs, iter.rest = vs.map some ∧ d.toList E = vs) fun p _ => ∃ vs, Stuck E iter.rest vs p := by
  obtain ⟨rest, pulled, hint⟩ := iter
  cases rest with
  | nil => exact wp_pure.mpr ⟨[], rfl, toList_new⟩
  | cons next rest =>
    simp only [fromIter, wp_bind]
    refine wp_produce (fun v hv => ?_) fun hnone => ⟨[], next, rest, rfl, .inl ⟨hnone, rfl⟩⟩
    have hv : next = some v := hv
    refine wp_onPanic (P := fun p _ => Refusal E p) (wp_mono wp_withCapacity ?_ fun p t' hp => hp.untouched.1) ?_
    · rintro d t₁ ⟨hc, hcap, hstart, -⟩
      have hlen : d.elems.len = 0 := by rw [hstart]
      have hroom : d.elems.len < d.capacity := by
        unfold usizeBound at hcap
        omega
      rw [wp_onLocal]
      refine wp_onPanic (P := fun p _ => ∃ vs, Stuck E (next :: rest) vs p) ?_ ?_
      · have hwrite := wp_writeBack (s := ⟨d, t₁.world⟩) (v := v) (P := fun _ _ => False) hc.wf hroom
        simp only [hlen, Nat.cast_zero, wp_bind, hc.toList_eq, List.nil_append] at hwrite ⊢
        refine wp_mono hwrite (fun _ s₁ hs₁ => wp_mono hs₁ ?_ fun _ _ => False.elim) fun _ _ => False.elim
        rintro _ s₂ ⟨heff, -⟩
        have hrest := wp_extendDesugared_iter hint rest (pulled + 1) heff.wf
        rw [heff.toList_eq] at hrest
        refine wp_mono hrest ?_ ?_
        · rintro _ s' ⟨vs, hvs, hs'⟩
          exact wp_pure.mpr ⟨v :: vs, by rw [hv, hvs, List.map_cons], hs'.toList_eq⟩
        · rintro p s' ⟨vs, ⟨x, ys, hstuck, hp⟩, -⟩
          exact ⟨v :: vs, x, ys, by rw [hv, hstuck, List.map_cons, List.cons_append], hp⟩
      · exact fun p t' hp => wp_mono (wp_trivial _ _) (fun _ _ _ => hp) fun _ _ _ => hp
    · have hdenied : ∀ p, Refusal E p → ∃ vs, Stuck E (next :: rest) vs p := fun p hp =>
        ⟨[], next, rest, rfl, .inr ⟨by rw [hv]; exact Option.some_ne_none v, hp⟩⟩
      exact fun p t' hp => wp_mono (wp_trivial _ _) (fun _ _ _ => hdenied p hp) fun _ _ _ => hdenied p hp

/-- Clones come behind the elements, as far as `clone` does not panic and there is memory. -/
theorem wp_pushClones_clones (vs : List T) (h : WF E s.self) :
    wp (pushClones E vs) s
      (fun _ s' => ∃ cs, List.Forall₂ (CloneOf E) vs cs ∧ Contains E s'.self (s.self.toList E ++ cs))
      (fun p s' => (p = .user ∨ Refusal E p) ∧ ∃ us cs, us <+: vs ∧ List.Forall₂ (CloneOf E) us cs ∧
        Contains E s'.self (s.self.toList E ++ cs)) := by
  induction vs generalizing s with
  | nil => exact wp_pure.mpr ⟨[], .nil, .self h⟩
  | cons v vs ih =>
    rw [pushClones, wp_bind]
    refine wp_produce (fun c hc => ?_) fun _ => ⟨.inl rfl, [], [], List.nil_prefix, .nil, .self h⟩
    have hclone : CloneOf E v c := ⟨_, hc⟩
    refine wp_seq (wp_pushBack (s := ⟨s.self, s.world.produce [c]⟩) h) (fun _ s₁ heff => ?_) fun p s' hp => ?_
    · have hrest := ih heff.wf
      rw [heff.toList_eq] at hrest
      simp only [List.append_assoc] at hrest
      refine wp_mono hrest ?_ ?_
      · rintro _ s' ⟨cs, hcs, hs'⟩
        exact ⟨c :: cs, .cons hclone hcs, hs'⟩
      · rintro p s' ⟨hp, us, cs, hus, hcs, hs'⟩
        exact ⟨hp, v :: us, c :: cs, (List.prefix_cons_inj v).mpr hus, .cons hclone hcs, hs'⟩
    · refine ⟨.inr hp.refusal, [], [], List.nil_prefix, .nil, ?_⟩
      rw [hp.untouched.self_eq]
      exact .self h

/-- A clone holds clones of all elements; otherwise there is none. -/
theorem wp_clone_clones (h : WF E s.self) :
    wp (clone E) s (fun d s' => s'.self = s.self ∧ List.Forall₂ (CloneOf E) (s.self.toList E) (d.toList E))
      (fun p s' => s'.self = s.self ∧ (p = .user ∨ Refusal E p)) := by
  simp only [clone, wp_bind]
  refine wp_len h (wp_mono wp_withCapacity ?_ fun p s' hp => ⟨hp.untouched.2.self_eq, .inr hp.untouched.1⟩)
  rintro new s₁ ⟨hc, -⟩
  have hself := hc.self_eq
  rw [wp_self, hself]
  refine wp_readRange h.covers_toList ?_
  rw [wp_onLocal]
  refine wp_onPanic (P := fun p _ => p = .user ∨ Refusal E p) ?_ ?_
  · refine wp_mono (wp_pushClones_clones (s := ⟨new, s₁.world⟩) _ hc.wf) ?_ fun p t hp => hp.1
    rintro _ t ⟨cs, hcs, ht⟩
    rw [hc.toList_eq, List.nil_append] at ht
    refine wp_pure.mpr ⟨hself, ?_⟩
    rw [ht.toList_eq]
    exact hcs
  · exact fun p t hp => wp_mono (wp_trivial _ _) (fun _ _ _ => ⟨hself, hp⟩) fun _ _ _ => ⟨hself, hp⟩

/-- `clone_from` drops what there was, and ends like `clone`. -/
theorem wp_cloneFrom_clones {other : SliceDeque β} (h : WF E s.self) (ho : WF E other) :
    wp (cloneFrom E other) s
      (fun _ s' => ∃ cs, List.Forall₂ (CloneOf E) (other.toList E) cs ∧ Contains E s'.self cs)
      (fun p s' => p = .destructor ∧ DestructorsPanic E ∧ Contains E s'.self [] ∨
        (p = .user ∨ Refusal E p) ∧ ∃ us cs, us <+: other.toList E ∧ List.Forall₂ (CloneOf E) us cs ∧ Contains E s'.self cs) := by
  simp only [cloneFrom, wp_bind]
  refine wp_mono (wp_clear h) (fun _ s₁ heff => wp_readRange ho.covers_toList ?_) ?_
  · have hclones := wp_pushClones_clones (other.toList E) heff.wf
    simp only [heff.toList_eq, List.nil_append] at hclones
    exact wp_mono hclones (fun _ _ => id) fun _ _ => .inr
  · rintro p s' ⟨hp, hd, heff⟩
    exact .inl ⟨hp, hd, heff.contains⟩

/-- The deque was cut to `n` values, or filled up with what `make` makes. -/
def FilledUp (E : Env T β) (make : Nat → Option T) (n : Nat) (d d' : SliceDeque β) : Prop :=
  ∃ vs, (∀ v ∈ vs, Makes make v) ∧ vs.length = n - d.elems.len ∧ Contains E d' ((d.toList E).take n ++ vs)

/-- Not everything was made, or there was no memory, or a destructor panicked after the cut. -/
def FillPanic (E : Env T β) (make : Nat → Option T) (n : Nat) (d : SliceDeque β) (p : Panic) (d' : SliceDeque β) : Prop :=
  (p = .user ∧ ∃ vs, (∀ v ∈ vs, Makes make v) ∧ vs.length < n - d.elems.len ∧ Contains E d' (d.toList E ++ vs)) ∨
    (Refusal E p ∧ d' = d) ∨ p = .destructor ∧ DestructorsPanic E ∧ FilledUp E make n d d'

theorem FilledUp.len_eq {make : Nat → Option T} {d d' : SliceDeque β} (h : FilledUp E make n d d') : d'.elems.len = n := by
  obtain ⟨vs, -, hlen, hc⟩ := h
  have hcount := congrArg List.length hc.toList_eq
  rw [List.length_append, List.length_take, toList_length, toList_length] at hcount
  omega

theorem FilledUp.wf {make : Nat → Option T} {d d' : SliceDeque β} (h : FilledUp E make n d d') : WF E d' := by
  obtain ⟨_, _, _, hc⟩ := h
  exact hc.wf

theorem wp_reserve_fill {make : Nat → Option T} {fill : DeqM T β Unit} (h : WF E s.self) (hlt : s.self.elems.len < n)
    (hfill : ∀ s₁, WF E s₁.self → s₁.self.elems.len = s.self.elems.len → n ≤ s₁.self.capacity →
      Fills E make (n - s.self.elems.len) fill s₁) :
    wp (do
      reserve E (n - s.self.elems.len)
      fill) s (fun _ s' => FilledUp E make n s.self s'.self) (fun p s' => FillPanic E make n s.self p s'.self) := by
  have hle := toList_length (E := E) s.self
  refine wp_seq (wp_reserve h) (fun _ s₁ hg => ?_) fun p s' hp => .inr (.inl ⟨hp.untouched.1, hp.untouched.2.self_eq⟩)
  have hcap := (le_growTarget _ _).trans hg.cap_ge
  refine wp_mono (hfill s₁ hg.wf hg.len_eq (by omega)).wp ?_ ?_
  · rintro _ s' ⟨hf, hlen⟩
    refine ⟨_, makes_madeFrom _ _, hlen, ?_⟩
    rw [List.take_of_length_le (by omega), ← hg.toList_eq]
    exact hf.change.contains
  · rintro p s' ⟨hp, hf, hlen⟩
    refine .inl ⟨hp, _, makes_madeFrom _ _, hlen, ?_⟩
    rw [← hg.toList_eq]
    exact hf.change.contains

theorem wp_fill (make : Nat → Option T) (grow : Nat → DeqM T β Unit) (h : WF E s.self)
    (hgrow : s.self.elems.len < n → wp (grow s.self.elems.len) s (fun _ s' => FilledUp E make n s.self s'.self)
      fun p s' => FillPanic E make n s.self p s'.self) :
    wp (do
      let l ← len E
      if l < n then grow l else truncate E n) s (fun _ s' => FilledUp E make n s.self s'.self)
      fun p s' => FillPanic E make n s.self p s'.self := by
  rw [wp_bind]
  refine wp_len h (wp_ite.mpr ⟨hgrow, fun hge => ?_⟩)
  have hcut : ∀ s' dead, Effect E s s' ((s.self.toList E).take n) dead → FilledUp E make n s.self s'.self := by
    intro s' dead heff
    refine ⟨[], fun _ hv => absurd hv List.not_mem_nil, by simp only [List.length_nil]; omega, ?_⟩
    rw [List.append_nil]
    exact heff.contains
  refine wp_mono (wp_truncateBack h) (fun _ s' heff => hcut s' _ heff) ?_
  rintro p s' ⟨hp, hd, heff⟩
  exact .inr (.inr ⟨hp, hd, hcut s' _ heff⟩)

theorem wp_resizeDefault_fill (h : WF E s.self) :
    wp (resizeDefault E n) s (fun _ s' => FilledUp E E.defaultOf n s.self s'.self)
      fun p s' => FillPanic E E.defaultOf n s.self p s'.self := by
  apply wp_fill E.defaultOf (fun l => extendWith E (n - l) E.defaultOf) h
  intro hlt
  apply wp_reserve_fill h hlt
  intro s₁ hwf hlen hcap
  exact does_len_bind hwf (fills_extendWithLoop _ _ s₁ hwf rfl (by omega))

theorem wp_resize_fill (h : WF E s.self) :
    wp (resize E n v) s (fun _ s' => FilledUp E (fun k => E.cloneOf k v) n s.self s'.self)
      fun p s' => FillPanic E (fun k => E.cloneOf k v) n s.self p s'.self := by
  have hbody := wp_fill (n := n) (fun k => E.cloneOf k v) (fun l => do
      reserve E (n - l)
      resizeLoop E n v (n - l)) h fun hlt =>
    wp_reserve_fill h hlt fun s₁ hwf hlen hcap => fills_resizeLoop _ s₁ hwf (by omega) hcap
  have hasserts : ∀ (u : Unit) (s' : Frame (SliceDeque β) T), FilledUp E (fun k => E.cloneOf k v) n s.self s'.self →
      wp (do
        let l ← len E
        debugAssert E (l = n)) s' (fun _ s' => FilledUp E (fun k => E.cloneOf k v) n s.self s'.self)
        fun p s' => FillPanic E (fun k => E.cloneOf k v) n s.self p s'.self := by
    intro _ s' hs'
    rw [wp_bind]
    exact wp_len hs'.wf (wp_debugAssert hs'.len_eq hs')
  refine wp_seq (wp_onPanic_dropValue (Q := fun _ s' => FilledUp E (fun k => E.cloneOf k v) n s.self s'.self) ?_) ?_ fun _ _ => id
  · rw [wp_bind] at hbody ⊢
    refine wp_mono hbody (fun l s₁ hl => ?_) fun _ _ => id
    rw [wp_ite] at hl
    refine wp_ite.mpr ⟨fun hlt => ?_, fun hge => wp_seq (hl.2 hge) hasserts fun _ _ => id⟩
    have hgrow := wp_seq (hl.1 hlt) hasserts fun _ _ => id
    rwa [bind_bind] at hgrow
  · exact fun _ s' hs' => wp_dropValue hs' fun hd => .inr (.inr ⟨rfl, ⟨_, _, hd⟩, hs'⟩)

end SliceDeque

namespace Call
variable {T β : Type}
variable {E : Env T β} {s s' : Frame (SliceDeque β) T} {c : Call T}

/-- From `s` the method does what its contract allows. -/
def Obeys (E : Env T β) (c : Call T) (m : DeqM T β (Out T (SliceDeque β))) (s : Frame (SliceDeque β) T) : Prop :=
  wp m s (fun r s' => Allows E c (s.self.toList E) (.ok (r.map (toList E))) (s'.self.toList E))
    fun p s' => Allows E c (s.self.toList E) (.error p) (s'.self.toList E)

theorem obeys_bind {α : Type} {m : DeqM T β α} {f : α → Out T (SliceDeque β)} {Q : α → Frame (SliceDeque β) T → Prop}
    {P : Panic → Frame (SliceDeque β) T → Prop} (h : wp m s Q P)
    (hQ : ∀ a s', Q a s' → Allows E c (s.self.toList E) (.ok ((f a).map (toList E))) (s'.self.toList E))
    (hP : ∀ p s', P p s' → Allows E c (s.self.toList E) (.error p) (s'.self.toList E)) :
    Obeys E c (m >>= fun a => pure (f a)) s := wp_seq h (fun a s' ha => wp_pure.mpr (hQ a s' ha)) hP

theorem Allows.of_change {r : Out T (SliceDeque β)} {l dead made : List T} (h : Change E s s' l dead made)
    (ha : Allows E c (s.self.toList E) (.ok (r.map (toList E))) l) :
    Allows E c (s.self.toList E) (.ok (r.map (toList E))) (s'.self.toList E) := by
  rw [h.toList_eq]
  exact ha

theorem Allows.of_grown {n : Nat} (h : Grown E s s' n)
    (ha : Allows E c (s.self.toList E) (.ok .unit) (s.self.toList E)) :
    Allows E c (s.self.toList E) (.ok .unit) (s'.self.toList E) := by
  rw [h.toList_eq]
  exact ha

theorem Allows.of_denied {dead : List T} {p : Panic} (h : Denied E s s' dead p) (hc : c.asks = true) :
    Allows E c (s.self.toList E) (.error p) (s'.self.toList E) := by
  rw [h.untouched.self_eq]
  exact .denied hc h.refusal

theorem Allows.of_dropped {l dead : List T} {p : Panic} (h : Dropped E s l dead p s') (hc : c.drops = true)
    (ha : Allows E c (s.self.toList E) (.ok .unit) l) : Allows E c (s.self.toList E) (.error p) (s'.self.toList E) := by
  obtain ⟨rfl, hd, heff⟩ := h
  rw [heff.toList_eq]
  exact .destructor hc hd ha

theorem Allows.of_push {r : Except (T × AllocError) Unit} {v : T} {l : List T} (hc : c.reports = true)
    (hv : ∀ e, c.reported e = .rejected v e) (hl : Allows E c (s.self.toList E) (.ok .unit) l)
    (hok : r = .ok () → s'.self.toList E = l) (herr : ∀ u e, r = .error (u, e) → u = v ∧ s'.self = s.self) :
    Allows E c (s.self.toList E) (.ok ((Out.ofPush r).map (toList E))) (s'.self.toList E) := by
  rcases r with ⟨u, e⟩ | ⟨⟩
  · obtain ⟨rfl, hself⟩ := herr u e rfl
    rw [hself, Out.ofPush, Out.map, ← hv]
    exact .reported hc
  · rw [hok rfl]
    exact hl

theorem Allows.of_fillPanic {make : Nat → Option T} {n : Nat} {d d' : SliceDeque β} {p : Panic} (h : FillPanic E make n d p d')
    (hc : c.fill E = some (n, make)) (ha : c.asks = true) (hd : c.drops = true) :
    Allows E c (d.toList E) (.error p) (d'.toList E) := by
  rcases h with ⟨rfl, vs, hvs, hlen, hcont⟩ | ⟨hp, rfl⟩ | ⟨rfl, hpanics, vs, hvs, hlen, hcont⟩
  · rw [hcont.toList_eq]
    exact .fillPanics hc hvs (by rwa [toList_length])
  · exact .denied ha hp
  · rw [hcont.toList_eq]
    exact .destructor hd hpanics (.filled hc hvs (by rwa [toList_length]))

theorem Allows.of_filledUp {make : Nat → Option T} {n : Nat} {d d' : SliceDeque β} (h : FilledUp E make n d d')
    (hc : c.fill E = some (n, make)) : Allows E c (d.toList E) (.ok .unit) (d'.toList E) := by
  obtain ⟨vs, hvs, hlen, hcont⟩ := h
  rw [hcont.toList_eq]
  exact .filled hc hvs (by rwa [toList_length])

theorem Allows.of_cut {σ : Type} {p : Parted T σ} (h : Cut E s p s') (hc : c.sieve (s.self.toList E) = some p.forget)
    (hp : p.state ≠ none) : Allows E c (s.self.toList E) (.ok .unit) (s'.self.toList E) := by
  obtain ⟨_, _, heff⟩ := h
  obtain ⟨st, hst⟩ := Option.ne_none_iff_exists'.mp hp
  rw [heff.toList_eq]
  exact .sieved hc (by rw [Parted.forget, hst]; rfl)

theorem Allows.of_cutPanic {σ : Type} {p : Parted T σ} {e : Panic} (h : CutPanic E s p e s')
    (hc : c.sieve (s.self.toList E) = some p.forget) (hd : c.drops = true) :
    Allows E c (s.self.toList E) (.error e) (s'.self.toList E) := by
  rcases h with ⟨rfl, hp, L, hL, heff⟩ | ⟨rfl, hpanics, hp, hcut⟩
  · rw [heff.toList_eq]
    exact .sievePanics hc (by rw [Parted.forget, hp]; rfl) hL
  · exact .destructor hd hpanics (.of_cut hcut hc hp)

theorem inserted_shown {i : Nat} {v : T} {d : SliceDeque β} {w : World T} (hi : i ≤ d.elems.len)
    (hc : i ≤ 1 ∨ d.elems.len / 2 < i) :
    inserted (shown E ⟨d, w⟩) d.elems.len i v = (d.toList E).insertIdx i v := by
  have hl : d.toList E = (List.range d.elems.len).map fun k : Nat => shown E ⟨d, w⟩ k := by
    apply List.map_congr_left
    intro k _
    rw [shown, if_neg (by omega)]
    rfl
  rw [hl, inserted_eq_iff hi]
  exact hc.imp_right .inl

theorem obeys_insert {i : Nat} {v : T} (h : WF E s.self) (hc : i ≤ 1 ∨ s.self.elems.len / 2 < i) :
    Obeys E (.insert i v) ((Call.insert i v).run E) s := by
  by_cases hi : i ≤ s.self.elems.len
  · refine obeys_bind (wp_insert h) (fun _ s' heff => ?_) ?_
    · rw [heff.toList_eq, inserted_shown hi hc]
      exact .insert (by rwa [toList_length])
    · rintro p s' ⟨hp | ⟨-, hlt⟩, hu⟩
      · rw [hu.self_eq]
        exact .denied rfl hp
      · omega
  · have houtside : wp (SliceDeque.insert E i v) s (fun _ _ => False) fun p s' => p = .assert ∧ s'.self = s.self := by
      apply wp_onPanic_dropValue
      rw [wp_bind]
      apply wp_len h
      rw [wp_bind, wp_assert]
      exact ⟨fun hle => absurd hle hi, fun _ => ⟨rfl, rfl⟩⟩
    refine obeys_bind houtside (fun _ _ => False.elim) ?_
    rintro p s' ⟨rfl, hself⟩
    rw [hself]
    exact .insertOutside (by rw [toList_length]; omega)

/-- Every method obeys its contract, whatever the allocator, user code and destructors do. -/
theorem obeys_run (h : WF E s.self) (hc : c.tracked s.self.elems.len = true) : Obeys E c (c.run E) s := by
  cases c with
  | tryPushFront v =>
    refine obeys_bind (wp_tryPushFront h) (fun r s' hr => ?_) ?_
    · refine .of_push (v := v) (l := v :: s.self.toList E) rfl (fun _ => rfl) (.listed rfl rfl) ?_ ?_
      · rintro rfl
        exact hr.1.toList_eq
      · rintro u e rfl
        exact ⟨hr.1, hr.2.untouched.self_eq⟩
    · rintro p s' ⟨hp, rfl⟩
      exact .unsized rfl hp
  | tryPushBack v =>
    refine obeys_bind (wp_tryPushBack h) (fun r s' hr => ?_) ?_
    · refine .of_push (v := v) (l := s.self.toList E ++ [v]) rfl (fun _ => rfl) (.listed rfl rfl) ?_ ?_
      · rintro rfl
        exact hr.1.toList_eq
      · rintro u e rfl
        exact ⟨hr.1, hr.2.untouched.self_eq⟩
    · rintro p s' ⟨hp, rfl⟩
      exact .unsized rfl hp
  | pushFront v => exact obeys_bind (wp_pushFront h) (fun _ _ heff => .of_change heff (.listed rfl rfl)) fun _ _ hp => .of_denied hp rfl
  | pushBack v => exact obeys_bind (wp_pushBack h) (fun _ _ heff => .of_change heff (.listed rfl rfl)) fun _ _ hp => .of_denied hp rfl
  | popFront =>
    refine obeys_bind (wp_popFront (P := fun _ _ => False) h) ?_ fun _ _ => False.elim
    rintro _ s' ⟨rfl, heff⟩
    exact .of_change heff (.listed rfl rfl)
  | popBack =>
    refine obeys_bind (wp_popBack (P := fun _ _ => False) h) ?_ fun _ _ => False.elim
    rintro _ s' ⟨rfl, heff⟩
    exact .of_change heff (.listed rfl rfl)
  | tryReserve n =>
    refine obeys_bind (wp_tryReserve h) ?_ ?_
    · rintro (e | ⟨⟩) s' hs'
      · rw [hs'.untouched.self_eq]
        exact .reported rfl
      · exact .of_grown hs' (.listed rfl rfl)
    · rintro p s' ⟨rfl, hp⟩
      exact .unsized rfl hp
  | reserve n => exact obeys_bind (wp_reserve h) (fun _ _ hg => .of_grown hg (.listed rfl rfl)) fun _ _ hp => .of_denied hp.denied rfl
  | reserveExact n =>
    exact obeys_bind (wp_reserveExact h) (fun _ _ hg => .of_grown hg (.listed rfl rfl)) fun _ _ hp => .of_denied hp.denied rfl
  | truncateBack n =>
    exact obeys_bind (wp_truncateBack h) (fun _ _ heff => .of_change heff (.listed rfl rfl)) fun _ _ hp =>
      .of_dropped hp rfl (.listed rfl rfl)
  | truncate n =>
    exact obeys_bind (wp_truncateBack h) (fun _ _ heff => .of_change heff (.listed rfl rfl)) fun _ _ hp =>
      .of_dropped hp rfl (.listed rfl rfl)
  | clear =>
    exact obeys_bind (wp_clear h) (fun _ _ heff => .of_change heff (.listed rfl rfl)) fun _ _ hp =>
      .of_dropped hp rfl (.listed rfl rfl)
  | truncateFront n =>
    have htruncate := wp_truncateFront (n := n) h
    rw [← toList_length (E := E)] at htruncate
    exact obeys_bind htruncate (fun _ _ heff => .of_change heff (.listed rfl rfl)) fun _ _ hp =>
      .of_dropped hp rfl (.listed rfl rfl)
  | remove i =>
    refine obeys_bind (wp_remove h) ?_ ?_
    · rintro v s' ⟨hv, heff⟩
      have hall := Allows.listed (E := E) (c := .remove i) (l := s.self.toList E) rfl
        (decide_eq_true (List.getElem?_eq_some_iff.mp hv).1)
      rw [onList, hv] at hall
      exact .of_change heff hall
    · rintro p s' ⟨rfl, hle, rfl⟩
      exact .outside (decide_eq_false (by rw [toList_length]; omega))
  | swapRemoveBack i =>
    refine obeys_bind (wp_swapRemoveBack h) ?_ ?_
    · rintro r s' (⟨hnil, rfl, rfl⟩ | ⟨v, last, rfl, hv, hlast, heff⟩)
      · rw [hnil]
        exact .listed (c := .swapRemoveBack i) rfl (by simp [inRange])
      · have hall := Allows.listed (E := E) (c := .swapRemoveBack i) (l := s.self.toList E) rfl
          (decide_eq_true (.inr (List.getElem?_eq_some_iff.mp hv).1))
        rw [onList, hv, hlast] at hall
        exact .of_change heff hall
    · rintro p s' ⟨rfl, hne, hle, rfl⟩
      exact .outside (decide_eq_false (by rw [toList_length]; omega))
  | swapRemoveFront i =>
    refine obeys_bind (wp_swapRemoveFront h) ?_ ?_
    · rintro r s' (⟨hnil, rfl, rfl⟩ | ⟨v, first, rfl, hv, hfirst, heff⟩)
      · rw [hnil]
        exact .listed (c := .swapRemoveFront i) rfl (by simp [inRange])
      · have hall := Allows.listed (E := E) (c := .swapRemoveFront i) (l := s.self.toList E) rfl
          (decide_eq_true (.inr (List.getElem?_eq_some_iff.mp hv).1))
        rw [onList, hv, hfirst] at hall
        exact .of_change heff hall
    · rintro p s' ⟨rfl, hne, hle, rfl⟩
      exact .outside (decide_eq_false (by rw [toList_length]; omega))
  | splitOff k =>
    refine obeys_bind (wp_splitOff h) ?_ ?_
    · rintro other s' ⟨hk, hmade⟩
      have hall := Allows.listed (E := E) (c := .splitOff k) (l := s.self.toList E) rfl
        (decide_eq_true (by rwa [toList_length]))
      rw [hmade.self_eq, toList_withLen hk, Out.map, hmade.toList_eq]
      exact hall
    · rintro p s' (hp | ⟨rfl, hlt, rfl⟩)
      · exact .of_denied hp rfl
      · exact .outside (decide_eq_false (by rw [toList_length]; omega))
  | retain f =>
    refine obeys_bind (wp_retain _ _ h) ?_ fun p s' hp => .of_cutPanic hp rfl rfl
    rintro st s' ⟨hst, hcut⟩
    exact .of_cut hcut rfl (by rw [hst]; exact Option.some_ne_none st)
  | dedupBy same =>
    refine obeys_bind (wp_dedupBy _ _ h) ?_ fun p s' hp => .of_cutPanic hp rfl rfl
    rintro st s' ⟨hst, hcut⟩
    exact .of_cut hcut rfl (by rw [hst]; exact Option.some_ne_none st)
  | extend hint iter =>
    refine obeys_bind (wp_extendDesugared_iter hint iter 0 h) ?_ ?_
    · rintro _ s' ⟨vs, rfl, hs'⟩
      rw [hs'.toList_eq]
      exact .extend
    · rintro p s' ⟨vs, hstuck, hs'⟩
      rw [hs'.toList_eq]
      exact .extendPanics hstuck
  | resize n v => exact obeys_bind (wp_resize_fill h) (fun _ _ hf => .of_filledUp hf rfl) fun _ _ hp => .of_fillPanic hp rfl rfl rfl
  | resizeDefault n =>
    exact obeys_bind (wp_resizeDefault_fill h) (fun _ _ hf => .of_filledUp hf rfl) fun _ _ hp => .of_fillPanic hp rfl rfl rfl
  | insert i v => exact obeys_insert h (of_decide_eq_true hc)
  | clone =>
    refine obeys_bind (wp_clone_clones h) ?_ ?_
    · rintro d s' ⟨hself, hclones⟩
      rw [hself]
      exact .clone hclones
    · rintro p s' ⟨hself, rfl | hp⟩ <;> rw [hself]
      · exact .clonePanics
      · exact .denied rfl hp
  | _ => cases hc

end Call

end Sdeq
