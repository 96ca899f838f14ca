import SliceDeque.Lib.Sieve
import SliceDeque.Iterators

/-!
# Filtering in place

While a `DrainFilter` is alive the deque has length 0, and the slots of its old
elements are a sieve. Dropping it sieves the rest and restores the length. The
predicate is a closure: its answers depend on all that it was shown before.
-/

set_option autoImplicit false

namespace Sdeq
open Exec SliceDeque

structure DrainFilter (T β : Type) where
  deq : SliceDeque β
  idx : Nat
  del : Nat
  oldLen : Nat
  /-- the arguments of the calls of `pred` so far -/
  seen : List T

/-- `drain_filter(pred)` -/
def SliceDeque.drainFilter {T β : Type} (E : Env T β) : DeqM T β (DrainFilter T β) := do
  let oldLen ← len E
  let x ← isize E (-(asIsize oldLen))
  SliceDeque.moveTailUnchecked E x
  let d ← self
  pure ⟨d, 0, 0, oldLen, []⟩

namespace DrainFilter
variable {T β α : Type} (E : Env T β) (pred : List T → T → Option Bool × T)

def onDeq (m : DeqM T β α) : Method T (DrainFilter T β) α :=
  onPart DrainFilter.deq (fun df d => { df with deq := d }) m

/-- The loop of `next`, with so many elements to go. The predicate sees an element by a mutable
reference: it answers (`none` for a panic) and leaves a value. -/
def nextLoop : Nat → Method T (DrainFilter T β) (Option T)
  | 0 => pure none
  | todo + 1 => do
    let df ← self
    let i := df.idx
    let v ← onDeq (readSlot E i)
    let answer := pred df.seen v
    setSelf { df with idx := i + 1, seen := df.seen ++ [v] }
    onDeq (writeSlot E i answer.2)
    match answer.1 with
    | none => throw .user
    | some true => do
      modify fun s => ⟨{ s.self with del := s.self.del + 1 }, s.world⟩
      let v ← onDeq (readSlot E i)
      pure (some v)
    | some false => do
      when (0 < df.del) do
        let j ← usizeSub E i df.del
        onDeq (copySlots E i j 1)
      nextLoop todo

def next : Method T (DrainFilter T β) (Option T) := do
  let df ← self
  nextLoop E pred (df.oldLen - df.idx)

def sizeHint : Method T (DrainFilter T β) (Nat × Option Nat) := do
  let df ← self
  let upper ← usizeSub E df.oldLen df.idx
  pure (0, some upper)

/-- `Drop for DrainFilter`. Every item that the loop finds brings its end nearer. -/
def drop : Method T (DrainFilter T β) Unit := do
  let df ← self
  exhaust E (next E pred) (df.oldLen - df.idx + 1)
  let df ← self
  let newLen ← usizeSub E df.oldLen df.del
  onDeq (SliceDeque.moveTailUnchecked E (asIsize newLen))

/-- The items of so many calls of `next`, as a caller collects them. -/
def takeItems : Nat → Method T (DrainFilter T β × List T) Unit
  | 0 => pure ()
  | k + 1 => do
    let r ← onPart Prod.fst (fun p df => (df, p.2)) (next E pred)
    modify fun s => ⟨(s.self.1, s.self.2 ++ r.toList), s.world⟩
    takeItems k

/-- The iterator goes out of scope behind so many calls of `next`, or when one of them unwinds. -/
def scope (k : Nat) : Method T (DrainFilter T β × List T) Unit := do
  onPanic (takeItems E pred k) (onPart Prod.fst (fun p df => (df, p.2)) (drop E pred))
  onPart Prod.fst (fun p df => (df, p.2)) (drop E pred)

end DrainFilter

/-- Filter a deque, and keep the items of so many calls of `next`. -/
def SliceDeque.filterItems {T β : Type} (E : Env T β) (pred : List T → T → Option Bool × T) (k : Nat) :
    Method T (SliceDeque β × List T) Unit := do
  let df ← onPart Prod.fst (fun p d => (d, p.2)) (drainFilter E)
  let p ← self
  within (df, p.2) (fun q => (q.1.deq, q.2)) (DrainFilter.scope E pred k)

/-- The loop that `drain_filter` is documented to be equivalent to, for so many rounds. -/
def SliceDeque.filterLoop {T β : Type} (E : Env T β) (pred : List T → T → Option Bool × T) :
    (rounds i : Nat) → (seen vals : List T) → DeqM T β (List T × List T)
  | 0, _, seen, vals => pure (seen, vals)
  | rounds + 1, i, seen, vals => do
    let n ← len E
    if i = n then pure (seen, vals)
    else do
      when (n < i) (throw .index)
      let v ← readSlot E i
      let answer := pred seen v
      writeSlot E i answer.2
      match answer.1 with
      | none => throw .user
      | some true => do
        let val ← remove E i
        filterLoop E pred rounds i (seen ++ [v]) (vals ++ [val])
      | some false => filterLoop E pred rounds (i + 1) (seen ++ [v]) vals

namespace DrainFilter
variable {T β α : Type} (E : Env T β)

/-! ## The slots as a sieve -/

structure Shows (df : DrainFilter T β) (S : Sieve T) : Prop where
  wf : WF E df.deq
  len_eq : df.deq.elems.len = 0
  oldLen_le : df.oldLen ≤ df.deq.capacity
  toList_eq : (df.deq.withLen df.oldLen).toList E = S.kept ++ S.junk ++ S.rest
  idx_eq : df.idx = S.kept.length + S.junk.length
  del_eq : df.del = S.junk.length
  seen_eq : df.seen = S.seen

structure Ok (df : DrainFilter T β) : Prop where
  wf : WF E df.deq
  len_eq : df.deq.elems.len = 0
  del_le : df.del ≤ df.idx
  idx_le : df.idx ≤ df.oldLen
  oldLen_le : df.oldLen ≤ df.deq.capacity

def sieve (df : DrainFilter T β) : Sieve T :=
  let l := (df.deq.withLen df.oldLen).toList E
  ⟨l.take (df.idx - df.del), (l.take df.idx).drop (df.idx - df.del), l.drop df.idx, df.seen⟩

/-- The elements that were not looked at yet. -/
def owner : Owner (DrainFilter T β) T := ⟨Ok E, fun df => (df.sieve E).rest, fun df => df.deq.regions E⟩

variable {E} {pred : List T → T → Option Bool × T} {S S' : Sieve T} {df : DrainFilter T β} {s s' s₁ : Frame (DrainFilter T β) T}
variable {P : Panic → Frame (DrainFilter T β) T → Prop}

theorem Shows.length_eq (h : Shows E df S) : df.oldLen = S.kept.length + S.junk.length + S.rest.length := by
  have hlen := congrArg List.length h.toList_eq
  rw [toList_length, List.length_append, List.length_append] at hlen
  exact hlen

theorem Shows.ok (h : Shows E df S) : Ok E df := by
  have hidx := h.idx_eq
  have hdel := h.del_eq
  have hlen := h.length_eq
  exact ⟨h.wf, h.len_eq, by omega, by omega, h.oldLen_le⟩

theorem Ok.shows (h : Ok E df) : Shows E df (df.sieve E) := by
  have hdel := h.del_le
  have hidx := h.idx_le
  have hlen : ((df.deq.withLen df.oldLen).toList E).length = df.oldLen := toList_length _
  refine ⟨h.wf, h.len_eq, h.oldLen_le, ?_, ?_, ?_, rfl⟩
  · simp only [sieve]
    have hsplit := List.take_append_drop (df.idx - df.del) (((df.deq.withLen df.oldLen).toList E).take df.idx)
    rw [List.take_take, Nat.min_eq_left (Nat.sub_le _ _)] at hsplit
    rw [hsplit, List.take_append_drop]
  · simp only [sieve, List.length_take, List.length_drop, hlen]
    omega
  · simp only [sieve, List.length_take, List.length_drop, hlen]
    omega

/-! ## One call of `next` -/

section Slots
variable {n i : Nat} {a b : List T} {v : T}

theorem slot_of_split {d : SliceDeque β} (hl : (d.withLen n).toList E = a ++ v :: b) (hi : i = a.length) :
    i < n ∧ d.slot E i = v := by
  have hlen := congrArg List.length hl
  rw [toList_length, List.length_append, List.length_cons] at hlen
  have hlen : n = a.length + (b.length + 1) := hlen
  have hget := getElem?_toList (E := E) (d := d.withLen n) (i := a.length) (by
    rw [hlen]
    exact Nat.lt_add_of_pos_right (Nat.succ_pos _))
  rw [hl, List.getElem?_append_right le_rfl, Nat.sub_self, List.getElem?_cons_zero] at hget
  rw [hi]
  exact ⟨by omega, (Option.some.inj hget).symm⟩

theorem wp_readOld {Q : T → Frame (DrainFilter T β) T → Prop} (hwf : WF E s.self.deq) (hn : n ≤ s.self.deq.capacity)
    (hl : (s.self.deq.withLen n).toList E = a ++ v :: b) (hi : i = a.length) (hQ : Q v s) :
    wp (onDeq (readSlot E i)) s Q P := by
  obtain ⟨hlt, hslot⟩ := slot_of_split hl hi
  rw [onDeq, wp_onPart]
  apply wp_readSlot (s := ⟨s.self.deq, s.world⟩) hwf (by omega) (by dsimp only; omega)
  rw [hslot]
  exact hQ

theorem Rewritten.toList_setOld {d d' : SliceDeque β} (hr : Rewritten d d') (hwf : WF E d) (hn : n ≤ d.capacity)
    (hs : ∀ k : Int, 0 ≤ k → k < d.capacity → d'.slot E k = if k = i then v else d.slot E k) :
    (d'.withLen n).toList E = ((d.withLen n).toList E).set i v := by
  have hr' : Rewritten (d.withLen n) (d'.withLen n) :=
    ⟨by simp only [withLen, hr.elems_eq], hr.len_eq, hr.id_eq, hr.size_eq⟩
  exact hr'.toList_set (hwf.withLen hn) hs

theorem wp_writeOld {Q : Unit → Frame (DrainFilter T β) T → Prop} (hwf : WF E s.self.deq)
    (hn : n ≤ s.self.deq.capacity) (hi : i < n)
    (hQ : ∀ d', WF E d' → Rewritten s.self.deq d' →
      (d'.withLen n).toList E = ((s.self.deq.withLen n).toList E).set i v → Q () ⟨{ s.self with deq := d' }, s.world⟩) :
    wp (onDeq (writeSlot E i v)) s Q P := by
  rw [onDeq, wp_onPart]
  apply wp_writeSlot (s := ⟨s.self.deq, s.world⟩) hwf (by omega) (by dsimp only; omega)
  intro d' hwf' hr hs
  exact hQ d' hwf' hr (Rewritten.toList_setOld hr hwf hn hs)

theorem wp_moveOld {j : Nat} {Q : Unit → Frame (DrainFilter T β) T → Prop} (hwf : WF E s.self.deq)
    (hn : n ≤ s.self.deq.capacity) (hl : (s.self.deq.withLen n).toList E = a ++ v :: b) (hi : i = a.length) (hj : j ≤ i)
    (hQ : ∀ d', WF E d' → Rewritten s.self.deq d' →
      (d'.withLen n).toList E = (a ++ v :: b).set j v → Q () ⟨{ s.self with deq := d' }, s.world⟩) :
    wp (onDeq (copySlots E i j 1)) s Q P := by
  obtain ⟨hlt, hslot⟩ := slot_of_split hl hi
  rw [onDeq, wp_onPart]
  apply wp_copySlots (s := ⟨s.self.deq, s.world⟩) hwf (by omega) (by dsimp only; omega) (by omega) (by dsimp only; omega)
  intro d' hwf' hr hs
  apply hQ d' hwf' hr
  rw [← hl]
  apply Rewritten.toList_setOld hr hwf hn
  intro k hk hkc
  have hsk := hs k hk hkc
  by_cases hkj : k = j
  · rw [if_pos ⟨by omega, by omega⟩] at hsk
    rw [if_pos hkj, ← hslot]
    apply hsk.trans
    rw [hkj, Int.sub_self, Int.add_zero]
  · rw [if_neg (by omega)] at hsk
    rw [if_neg hkj]
    exact hsk

theorem wp_moveKept {kept junk rest : List T} {Q : Unit → Frame (DrainFilter T β) T → Prop} (hwf : WF E s.self.deq)
    (hn : n ≤ s.self.deq.capacity) (hl : (s.self.deq.withLen n).toList E = kept ++ junk ++ v :: rest)
    (hi : i = kept.length + junk.length)
    (hQ : ∀ d', WF E d' → Rewritten s.self.deq d' →
      (d'.withLen n).toList E = kept ++ [v] ++ (junk ++ [v]).drop 1 ++ rest → Q () ⟨{ s.self with deq := d' }, s.world⟩) :
    wp (when (0 < junk.length) do
      let j ← usizeSub E i junk.length
      onDeq (copySlots E i j 1)) s Q P := by
  have hlen : (kept ++ junk).length = kept.length + junk.length := List.length_append
  rw [wp_when]
  apply And.intro
  · intro hpos
    rw [wp_bind, wp_usizeSub]
    apply And.intro
    · intro hle
      apply wp_moveOld hwf hn hl (hi.trans hlen.symm) (Nat.sub_le _ _)
      intro d' hwf' hr hl'
      apply hQ d' hwf' hr
      rw [hl', hi, Nat.add_sub_cancel]
      cases junk with
      | nil => cases hpos
      | cons j junk => simp
    · intro hlt
      omega
  · intro hzero
    obtain rfl : junk = [] := List.eq_nil_of_length_eq_zero (Nat.eq_zero_of_not_pos hzero)
    apply hQ s.self.deq hwf (.refl _)
    simpa using hl

end Slots

/-- The sieve is `S'` now. Nothing was destroyed, and the deque kept its mapping. -/
structure Stepped (E : Env T β) (s s' : Frame (DrainFilter T β) T) (S' : Sieve T) : Prop where
  shows : Shows E s'.self S'
  regions_eq : s'.self.deq.regions E = s.self.deq.regions E
  world_eq : s'.world = s.world

theorem Stepped.trans (h : Stepped E s s₁ S) (h' : Stepped E s₁ s' S') : Stepped E s s' S' :=
  ⟨h'.shows, h'.regions_eq.trans h.regions_eq, h'.world_eq.trans h.world_eq⟩

theorem Shows.step {d : SliceDeque β} {i j : Nat} (h : Shows E s.self S) (R : Sieve T) (hwf : WF E d)
    (hr : Rewritten s.self.deq d) (hl : (d.withLen s.self.oldLen).toList E = R.kept ++ R.junk ++ R.rest)
    (hidx : i = R.kept.length + R.junk.length) (hdel : j = R.junk.length) :
    Stepped E s ⟨⟨d, i, j, s.self.oldLen, R.seen⟩, s.world⟩ R := by
  have hlen : d.elems.len = 0 := by
    rw [hr.elems_eq]
    exact h.len_eq
  have hcap : s.self.oldLen ≤ d.capacity := by
    rw [hr.capacity_eq]
    exact h.oldLen_le
  exact ⟨⟨hwf, hlen, hcap, hl, hidx, hdel, rfl⟩, hr.regions_eq, rfl⟩

theorem wp_nextLoop : ∀ (todo : Nat) (s : Frame (DrainFilter T β) T) (S : Sieve T), Shows E s.self S →
    S.rest.length = todo → wp (nextLoop E pred todo) s
      (fun r s' => (S.next pred).1 = some r ∧ Stepped E s s' (S.next pred).2)
      (fun p s' => p = .user ∧ (S.next pred).1 = none ∧ Stepped E s s' (S.next pred).2) := by
  intro todo
  induction todo with
  | zero =>
    intro s S h hn
    obtain ⟨kept, junk, rest, seen⟩ := S
    obtain rfl : rest = [] := List.eq_nil_of_length_eq_zero hn
    rw [nextLoop, wp_pure]
    exact ⟨rfl, h, rfl, rfl⟩
  | succ todo ih =>
    intro s S h hn
    obtain ⟨kept, junk, rest, seen⟩ := S
    obtain ⟨⟨d, idx, del, n, shown⟩, w⟩ := s
    cases rest with
    | nil => cases hn
    | cons v rest =>
      have hold : n = kept.length + junk.length + (rest.length + 1) := h.length_eq
      have hidx : idx = kept.length + junk.length := h.idx_eq
      obtain rfl : del = junk.length := h.del_eq
      obtain rfl : shown = seen := h.seen_eq
      have hfront : idx = (kept ++ junk).length := by rw [hidx, List.length_append]
      rw [nextLoop, wp_bind, wp_self, wp_bind]
      apply wp_readOld h.wf h.oldLen_le h.toList_eq hfront
      rw [wp_bind, wp_setSelf, wp_bind]
      apply wp_writeOld (s := ⟨⟨d, idx + 1, junk.length, n, shown ++ [v]⟩, w⟩) h.wf h.oldLen_le (by dsimp only; omega)
      intro d₁ hwf₁ hr₁ hl₁
      rw [h.toList_eq, hfront, List.set_append_right _ _ le_rfl, Nat.sub_self, List.set_cons_zero] at hl₁
      have hcap₁ : n ≤ d₁.capacity := by
        rw [hr₁.capacity_eq]
        exact h.oldLen_le
      rcases hp : pred shown v with ⟨_ | _ | _, v'⟩ <;> rw [hp] at hl₁
      · rw [wp_throw, Sieve.next_panic hp]
        refine ⟨rfl, rfl, h.step (.stay kept junk v' rest (shown ++ [v])) hwf₁ hr₁ ?_ ?_ ?_⟩
        · rw [Sieve.stay, List.append_assoc kept, List.take_append_drop]
          simpa using hl₁
        · rw [Sieve.stay, hidx]
          simp
          omega
        · simp [Sieve.stay]
      · rw [wp_bind, Sieve.next_reject hp]
        apply wp_moveKept (s := ⟨⟨d₁, idx + 1, junk.length, n, shown ++ [v]⟩, w⟩) hwf₁ hcap₁ hl₁ hidx
        intro d₂ hwf₂ hr₂ hl₂
        have hs₁ : Stepped E ⟨⟨d, idx, junk.length, n, shown⟩, w⟩ ⟨⟨d₂, idx + 1, junk.length, n, shown ++ [v]⟩, w⟩
            ⟨kept ++ [v'], (junk ++ [v']).drop 1, rest, shown ++ [v]⟩ := by
          apply h.step ⟨kept ++ [v'], (junk ++ [v']).drop 1, rest, shown ++ [v]⟩ hwf₂ (hr₁.trans hr₂) hl₂
          · rw [hidx]
            simp
            omega
          · simp
        apply wp_mono (ih _ _ hs₁.shows (Nat.succ.inj hn))
        · intro r s' hs'
          exact ⟨hs'.1, hs₁.trans hs'.2⟩
        · intro p s' hs'
          exact ⟨hs'.1, hs'.2.1, hs₁.trans hs'.2.2⟩
      · rw [wp_bind, wp_modify, wp_bind, Sieve.next_accept hp]
        apply wp_readOld (s := ⟨⟨d₁, idx + 1, junk.length + 1, n, shown ++ [v]⟩, w⟩) hwf₁ hcap₁ hl₁ hfront
        rw [wp_pure]
        refine ⟨rfl, h.step ⟨kept, junk ++ [v'], rest, shown ++ [v]⟩ hwf₁ hr₁ ?_ ?_ ?_⟩
        · simpa using hl₁
        · rw [hidx]
          simp
          omega
        · simp

theorem wp_next (h : Shows E s.self S) :
    wp (next E pred) s (fun r s' => (S.next pred).1 = some r ∧ Stepped E s s' (S.next pred).2)
      (fun p s' => p = .user ∧ (S.next pred).1 = none ∧ Stepped E s s' (S.next pred).2) := by
  have hidx := h.idx_eq
  have hlen := h.length_eq
  rw [next, wp_bind, wp_self]
  exact wp_nextLoop _ s S h (by omega)

theorem wp_onDeq_counters (m : DeqM T β α) :
    wp (onDeq m) s (fun _ s' => s'.self.idx = s.self.idx ∧ s'.self.del = s.self.del) fun _ _ => True := by
  rw [onDeq, wp_onPart]
  exact wp_mono (wp_trivial m _) (fun _ _ _ => ⟨rfl, rfl⟩) fun _ _ _ => trivial

theorem exact_nextLoop (todo : Nat) (s : Frame (DrainFilter T β) T) (hdel : s.self.del ≤ s.self.idx) :
    Exact (nextLoop E pred todo) s := by
  induction todo generalizing s with
  | zero => exact exact_pure
  | succ todo ih =>
    have hread : ∀ i (t : Frame (DrainFilter T β) T), Exact (onDeq (readSlot E i)) t := fun i t => exact_onPart exact_readSlot
    apply exact_self_bind
    apply exact_seq (hread _ _) (wp_onDeq_counters _)
    intro v s₁ _
    apply exact_setSelf_bind
    apply exact_seq (exact_onPart exact_writeSlot) (wp_onDeq_counters _)
    intro _ s₂ hs₂
    rcases (pred s.self.seen v).1 with _ | _ | _
    · exact exact_throw
    · have hmoved : wp (when (0 < s.self.del) do
          let j ← usizeSub E s.self.idx s.self.del
          onDeq (copySlots E s.self.idx j 1)) s₂
          (fun _ s' => s'.self.idx = s₂.self.idx ∧ s'.self.del = s₂.self.del) fun _ _ => True := by
        simp only [wp_when, wp_bind, wp_usizeSub]
        exact ⟨fun _ => ⟨fun _ => wp_onDeq_counters _, fun _ _ => trivial⟩, fun _ => ⟨trivial, trivial⟩⟩
      apply exact_seq _ hmoved
      · intro _ s₃ hs₃
        apply ih
        rw [hs₃.1, hs₃.2, hs₂.1, hs₂.2]
        exact Nat.le_succ_of_le hdel
      · apply exact_when
        intro _
        exact exact_bind (exact_usizeSub hdel) fun _ _ => exact_onPart exact_copySlots
    · exact exact_bind exact_modify fun _ t => exact_bind (hread _ t) fun _ _ => exact_pure

theorem exact_next (h : Ok E s.self) : Exact (next E pred) s :=
  exact_self_bind (exact_nextLoop _ s h.del_le)

/-! ## Sieving the rest -/

/-- Nothing panics when these values are destroyed one after the other. -/
def Quiet (E : Env T β) : (dead vs : List T) → Prop
  | _, [] => True
  | dead, v :: vs => E.dropPanics dead v = false ∧ Quiet E (dead ++ [v]) vs

theorem Quiet.of_not (h : ¬ DestructorsPanic E) (dead vs : List T) : Quiet E dead vs := by
  induction vs generalizing dead with
  | nil => trivial
  | cons v vs ih => exact ⟨Bool.eq_false_iff.mpr fun hv => h ⟨_, _, hv⟩, ih _⟩

/-- All that was to come was sieved, and the accepted elements were destroyed. -/
structure Sieved (E : Env T β) (pred : List T → T → Option Bool × T) (S : Sieve T) (s s' : Frame (DrainFilter T β) T) :
    Prop where
  calm : Sieve.Calm pred S.seen S.rest
  quiet : Quiet E s.world.destroyed (Sieve.accepted pred S.seen S.rest)
  shows : ∃ junk, Shows E s'.self ⟨S.kept ++ Sieve.rejected pred S.seen S.rest, junk, [], S.seen ++ S.rest⟩
  regions_eq : s'.self.deq.regions E = s.self.deq.regions E
  world_eq : s'.world = s.world.destroy (Sieve.accepted pred S.seen S.rest)

/-- The predicate or a destructor panicked on the way. -/
structure Stopped (E : Env T β) (pred : List T → T → Option Bool × T) (S : Sieve T) (s : Frame (DrainFilter T β) T)
    (p : Panic) (s' : Frame (DrainFilter T β) T) : Prop where
  cause : p = .user ∧ ¬ Sieve.Calm pred S.seen S.rest ∨
    p = .destructor ∧ ¬ Quiet E s.world.destroyed (Sieve.accepted pred S.seen S.rest)
  ok : Ok E s'.self
  regions_eq : s'.self.deq.regions E = s.self.deq.regions E
  dead : ∃ vs, vs <+: Sieve.accepted pred S.seen S.rest ∧ s'.world = s.world.destroy vs

section Found
variable {x : T} {p : Panic} (hf : Sieve.Found pred S S' x) (hs : Stepped E s s₁ S')
include hf hs

theorem Sieved.found (hx : E.dropPanics s.world.destroyed x = false)
    (h : Sieved E pred S' ⟨s₁.self, s₁.world.destroy [x]⟩ s') : Sieved E pred S s s' := by
  obtain ⟨-, hregions, hworld⟩ := hs
  obtain ⟨hc, hq, ⟨junk, hend⟩, hregions', hworld'⟩ := h
  rw [World.destroy_cons, hworld] at hworld'
  rw [hworld] at hq
  rw [hf.kept_eq, hf.seen_eq] at hend
  refine ⟨hf.calm_iff.mpr hc, ?_, ⟨junk, hend⟩, hregions'.trans hregions, ?_⟩ <;> rw [hf.accepted_eq]
  · exact ⟨hx, hq⟩
  · exact hworld'

theorem Stopped.found (h : Stopped E pred S' ⟨s₁.self, s₁.world.destroy [x]⟩ p s') : Stopped E pred S s p s' := by
  obtain ⟨-, hregions, hworld⟩ := hs
  obtain ⟨hcause, hok, hregions', vs, hpre, hworld'⟩ := h
  rw [World.destroy_cons, hworld] at hworld'
  rw [hworld] at hcause
  refine ⟨?_, hok, hregions'.trans hregions, x :: vs, ?_, hworld'⟩
  · rcases hcause with ⟨hp, hc⟩ | ⟨hp, hq⟩
    · exact .inl ⟨hp, fun h => hc (hf.calm_iff.mp h)⟩
    · rw [hf.accepted_eq]
      exact .inr ⟨hp, fun h => hq h.2⟩
  · rw [hf.accepted_eq]
    exact List.cons_prefix_cons.mpr ⟨rfl, hpre⟩

theorem Stopped.destructor (hx : E.dropPanics s.world.destroyed x = true) :
    Stopped E pred S s .destructor ⟨s₁.self, s₁.world.destroy [x]⟩ := by
  obtain ⟨hshows, hregions, hworld⟩ := hs
  refine ⟨.inr ⟨rfl, ?_⟩, hshows.ok, hregions, [x], ?_, by rw [hworld]⟩ <;> rw [hf.accepted_eq]
  · intro hq
    rw [hq.1] at hx
    cases hx
  · exact List.cons_prefix_cons.mpr ⟨rfl, List.nil_prefix⟩

end Found

theorem wp_exhaust : ∀ (n : Nat) (s : Frame (DrainFilter T β) T) (S : Sieve T), Shows E s.self S → S.rest.length < n →
    wp (exhaust E (next E pred) n) s (fun _ s' => Sieved E pred S s s') (Stopped E pred S s) := by
  intro n
  induction n with
  | zero => exact fun s S h hn => absurd hn (Nat.not_lt_zero _)
  | succ n ih =>
    intro s S h hn
    rw [exhaust, wp_bind]
    rcases hnext : S.next pred with ⟨o, S₁⟩
    have hwp : wp (next E pred) s _ _ := wp_next h
    rw [hnext] at hwp
    apply wp_mono hwp
    · intro r s₁ hs₁
      obtain ⟨rfl, hs₁⟩ := hs₁
      cases r with
      | none =>
        obtain ⟨hshows, hregions, hworld⟩ := hs₁
        cases Sieve.next_looked hnext with
        | ended hc ha hk hrest hseen =>
          rw [wp_pure]
          refine ⟨hc, ?_, ⟨S₁.junk, ?_⟩, hregions, ?_⟩
          · rw [ha]
            trivial
          · rw [← hk, ← hseen, ← hrest]
            exact hshows
          · rw [ha, World.destroy_nil]
            exact hworld
      | some x =>
        have hf := Sieve.found_of_next hnext
        have hworld := hs₁.world_eq
        rw [wp_bind]
        apply wp_dropValue_cases
        · intro hquiet
          rw [hworld] at hquiet
          have hlt := hf.lt
          apply wp_mono (ih ⟨s₁.self, s₁.world.destroy [x]⟩ S₁ hs₁.shows (by omega))
          · exact fun _ s' hs' => hs'.found hf hs₁ hquiet
          · exact fun p s' hs' => hs'.found hf hs₁
        · intro hloud
          rw [hworld] at hloud
          exact .destructor hf hs₁ hloud
    · intro p s₁ hs₁
      obtain ⟨rfl, rfl, hshows, hregions, hworld⟩ := hs₁
      refine ⟨.inl ⟨rfl, Sieve.not_calm_of_next hnext⟩, hshows.ok, hregions, [], List.nil_prefix, ?_⟩
      rw [World.destroy_nil]
      exact hworld

/-- All was sieved, and the deque shows what was kept. -/
structure Closed (E : Env T β) (pred : List T → T → Option Bool × T) (S : Sieve T) (s s' : Frame (DrainFilter T β) T) :
    Prop where
  calm : Sieve.Calm pred S.seen S.rest
  quiet : Quiet E s.world.destroyed (Sieve.accepted pred S.seen S.rest)
  wf : WF E s'.self.deq
  toList_eq : s'.self.deq.toList E = S.kept ++ Sieve.rejected pred S.seen S.rest
  seen_eq : s'.self.seen = S.seen ++ S.rest
  regions_eq : s'.self.deq.regions E = s.self.deq.regions E
  world_eq : s'.world = s.world.destroy (Sieve.accepted pred S.seen S.rest)

theorem wp_drop (h : Shows E s.self S) :
    wp (drop E pred) s (fun _ s' => Closed E pred S s s') (Stopped E pred S s) := by
  have hidx := h.idx_eq
  have hlen := h.length_eq
  simp only [drop, wp_bind, wp_self]
  apply wp_mono (wp_exhaust _ s S h (by omega)) _ fun _ _ => id
  intro _ s₁ hs₁
  obtain ⟨hc, hq, ⟨junk, hend⟩, hregions, hworld⟩ := hs₁
  have hdel : s₁.self.del = junk.length := hend.del_eq
  have hold : s₁.self.oldLen = (S.kept ++ Sieve.rejected pred S.seen S.rest).length + junk.length + 0 := hend.length_eq
  have hle := hend.oldLen_le
  have hlt := hend.wf.cap_lt
  have hzero := hend.len_eq
  have hnew : s₁.self.oldLen - s₁.self.del = (S.kept ++ Sieve.rejected pred S.seen S.rest).length := by omega
  rw [wp_usizeSub, hnew]
  apply And.intro
  · intro _
    rw [onDeq, wp_onPart, asIsize_of_lt (by omega)]
    apply wp_moveTailUnchecked (n := (S.kept ++ Sieve.rejected pred S.seen S.rest).length) hend.wf (by dsimp only; omega)
      (by dsimp only; omega)
    refine ⟨hc, hq, hend.wf.withLen (by omega), ?_, hend.seen_eq, hregions, hworld⟩
    have hl : (s₁.self.deq.withLen s₁.self.oldLen).toList E = (S.kept ++ Sieve.rejected pred S.seen S.rest) ++ junk := by
      rw [hend.toList_eq]
      exact List.append_nil _
    have htake := toList_withLen (E := E) (d := s₁.self.deq.withLen s₁.self.oldLen) (hnew.symm.le.trans (Nat.sub_le _ _))
    rw [hl, List.take_left] at htake
    exact htake
  · intro _
    omega

theorem exact_exhaust : ∀ (n : Nat) (s : Frame (DrainFilter T β) T), Ok E s.self →
    Exact (exhaust E (next E pred) n) s := by
  intro n
  induction n with
  | zero => exact fun _ _ => exact_pure
  | succ n ih =>
    intro s h
    apply exact_seq (exact_next h) (wp_next h.shows)
    intro r s₁ hs₁
    cases r with
    | none => exact exact_pure
    | some v =>
      have hdrop : wp (dropValue E v) s₁ (fun _ s₂ => s₂.self = s₁.self) fun _ _ => True :=
        wp_dropValue rfl fun _ => trivial
      apply exact_seq exact_dropValue hdrop
      intro _ s₂ hs₂
      apply ih
      rw [hs₂]
      exact hs₁.2.shows.ok

theorem exact_drop (h : Ok E s.self) : Exact (drop E pred) s := by
  have hidx := h.shows.idx_eq
  have hlen := h.shows.length_eq
  apply exact_self_bind
  apply exact_seq (exact_exhaust _ s h) (wp_exhaust _ s _ h.shows (by omega))
  intro _ s₁ hs₁
  obtain ⟨junk, hend⟩ := hs₁.shows
  have hok := hend.ok
  have hdel := hok.del_le
  have hidx₁ := hok.idx_le
  have hle := hok.oldLen_le
  have hlt := hok.wf.cap_lt
  have hzero := hok.len_eq
  apply exact_self_bind
  apply exact_usizeSub_bind (by omega)
  apply exact_onPart
  rw [asIsize_of_lt (by omega)]
  exact exact_moveTailUnchecked (n := s₁.self.oldLen - s₁.self.del) hok.wf (by dsimp only; omega) (by dsimp only; omega)

theorem wp_sizeHint {Q : Nat × Option Nat → Frame (DrainFilter T β) T → Prop} (h : Shows E s.self S)
    (hQ : Q (0, some S.rest.length) s) : wp (sizeHint E) s Q P := by
  have hidx := h.idx_eq
  have hlen := h.length_eq
  have hupper : s.self.oldLen - s.self.idx = S.rest.length := by omega
  rw [sizeHint, wp_bind, wp_self, wp_bind, wp_usizeSub, hupper]
  exact ⟨fun _ => wp_pure.mpr hQ, fun hlt => by omega⟩

theorem exact_sizeHint (h : Ok E s.self) : Exact (sizeHint E) s :=
  exact_self_bind (exact_bind (exact_usizeSub h.idx_le) fun _ _ => exact_pure)

/-! ## Some items, and then the rest -/

/-- The collected items and the sieve. -/
structure Took (E : Env T β) (s s' : Frame (DrainFilter T β × List T) T) (items : List T) (S : Sieve T) : Prop where
  items_eq : s'.self.2 = items
  stepped : Stepped E ⟨s.self.1, s.world⟩ ⟨s'.self.1, s'.world⟩ S

theorem wp_takeItems : ∀ (k : Nat) (s : Frame (DrainFilter T β × List T) T) (S : Sieve T), Shows E s.self.1 S →
    let o := Sieve.take pred k s.self.2 S
    wp (takeItems E pred k) s (fun _ s' => o.1 = true ∧ Took E s s' o.2.1 o.2.2)
      (fun p s' => p = .user ∧ o.1 = false ∧ Took E s s' o.2.1 o.2.2) := by
  intro k
  induction k with
  | zero =>
    intro s S h
    exact wp_pure.mpr ⟨rfl, rfl, h, rfl, rfl⟩
  | succ k ih =>
    intro s S h
    rw [takeItems, wp_bind, wp_onPart, Sieve.take]
    apply wp_mono (wp_next (s := ⟨s.self.1, s.world⟩) h)
    · intro r s₁ hs₁
      obtain ⟨hr, hs₁⟩ := hs₁
      rw [hr, wp_bind, wp_modify]
      apply wp_mono (ih ⟨(s₁.self, s.self.2 ++ r.toList), s₁.world⟩ _ hs₁.shows)
      · exact fun _ s' hs' => ⟨hs'.1, hs'.2.items_eq, hs₁.trans hs'.2.stepped⟩
      · exact fun p s' hs' => ⟨hs'.1, hs'.2.1, hs'.2.2.items_eq, hs₁.trans hs'.2.2.stepped⟩
    · intro p s₁ hs₁
      obtain ⟨hp, hr, hs₁⟩ := hs₁
      rw [hr]
      exact ⟨hp, rfl, rfl, hs₁⟩

theorem exact_takeItems : ∀ (k : Nat) (s : Frame (DrainFilter T β × List T) T), Ok E s.self.1 →
    Exact (takeItems E pred k) s := by
  intro k
  induction k with
  | zero => exact fun _ _ => exact_pure
  | succ k ih =>
    intro s h
    have hnext : wp (onPart Prod.fst (fun p df => (df, p.2)) (next E pred)) s (fun _ s₁ => Ok E s₁.self.1) fun _ _ => True := by
      rw [wp_onPart]
      exact wp_mono (wp_next (s := ⟨s.self.1, s.world⟩) h.shows) (fun _ _ hs => hs.2.shows.ok) fun _ _ _ => trivial
    apply exact_seq (exact_onPart (exact_next h)) hnext
    intro r s₁ hs₁
    have hpush : wp (modify fun s => ⟨(s.self.1, s.self.2 ++ r.toList), s.world⟩ : Method T (DrainFilter T β × List T) Unit) s₁
        (fun _ s₂ => s₂.self.1 = s₁.self.1) fun _ _ => True := wp_modify.mpr rfl
    apply exact_seq exact_modify hpush
    intro _ s₂ hs₂
    apply ih
    rw [hs₂]
    exact hs₁

/-- The sieve was `S` when the iterator was dropped, and the caller has the items. -/
structure Left (E : Env T β) (pred : List T → T → Option Bool × T) (s s' : Frame (DrainFilter T β × List T) T)
    (items : List T) (S : Sieve T) : Prop where
  items_eq : s'.self.2 = items
  dropped : ∃ t : Frame (DrainFilter T β) T, Stepped E ⟨s.self.1, s.world⟩ t S ∧
    (Closed E pred S t ⟨s'.self.1, s'.world⟩ ∨ ∃ p, Stopped E pred S t p ⟨s'.self.1, s'.world⟩)

theorem wp_leave {s s₁ : Frame (DrainFilter T β × List T) T} {items : List T} (h : Took E s s₁ items S) :
    wp (onPart Prod.fst (fun p df => (df, p.2)) (drop E pred)) s₁ (fun _ s' => Left E pred s s' items S)
      (fun _ s' => Left E pred s s' items S) := by
  rw [wp_onPart]
  apply wp_mono (wp_drop (s := ⟨s₁.self.1, s₁.world⟩) h.stepped.shows)
  · exact fun _ s' hs' => ⟨h.items_eq, _, h.stepped, .inl hs'⟩
  · exact fun p s' hs' => ⟨h.items_eq, _, h.stepped, .inr ⟨p, hs'⟩⟩

theorem wp_scope {k : Nat} {s : Frame (DrainFilter T β × List T) T} (h : Shows E s.self.1 S) :
    let o := Sieve.take pred k s.self.2 S
    wp (scope E pred k) s (fun _ s' => Left E pred s s' o.2.1 o.2.2) (fun _ s' => Left E pred s s' o.2.1 o.2.2) := by
  intro o
  rw [scope, wp_bind]
  apply wp_onPanic (P := fun _ s₁ => Took E s s₁ o.2.1 o.2.2)
  · apply wp_mono (wp_takeItems k s S h)
    · exact fun _ s₁ hs₁ => wp_leave hs₁.2
    · exact fun p s₁ hs₁ => hs₁.2.2
  · exact fun p s₁ hs₁ => wp_leave hs₁

theorem exact_scope {k : Nat} {s : Frame (DrainFilter T β × List T) T} (h : Ok E s.self.1) : Exact (scope E pred k) s := by
  have htook : wp (takeItems E pred k) s (fun _ s₁ => Ok E s₁.self.1) (fun _ s₁ => Ok E s₁.self.1) :=
    wp_mono (wp_takeItems k s _ h.shows) (fun _ _ hs => hs.2.stepped.shows.ok) fun _ _ hs => hs.2.2.stepped.shows.ok
  have hdrop : ∀ s₁ : Frame (DrainFilter T β × List T) T, Ok E s₁.self.1 →
      Exact (onPart Prod.fst (fun p df => (df, p.2)) (drop E pred)) s₁ := fun s₁ hs₁ => exact_onPart (exact_drop hs₁)
  have hpassed : wp (onPanic (takeItems E pred k) (onPart Prod.fst (fun p df => (df, p.2)) (drop E pred))) s
      (fun _ s₁ => Ok E s₁.self.1) fun _ _ => True := wp_onPanic htook fun _ s₁ _ => wp_trivial _ s₁
  exact exact_seq (exact_unwind (exact_takeItems k s h) htook fun _ s₁ hs₁ => hdrop s₁ hs₁) hpassed fun _ s₁ hs₁ => hdrop s₁ hs₁

/-! ## Safety -/

theorem Stepped.safe (h : Stepped E s s' S) : Safe (owner E) s s' [] := by
  refine ⟨h.shows.ok, ?_⟩
  simp only [owner, h.regions_eq, h.world_eq, Multiset.coe_nil, add_zero]
  exact .refl _ _

theorem safe_next (h : Ok E s.self) :
    wp (next E pred) s (fun _ s' => Safe (owner E) s s' []) (fun p s' => p = .user ∧ Safe (owner E) s s' []) :=
  wp_mono (wp_next h.shows) (fun _ _ hs => hs.2.safe) fun _ _ hp => ⟨hp.1, hp.2.2.safe⟩

theorem safe_drop (h : Ok E s.self) :
    wp (drop E pred) s
      (fun _ s' => WF E s'.self.deq ∧ Trade s.world (s.self.deq.regions E) s'.world (s'.self.deq.regions E))
      (fun p s' => Clean p ∧ WF E s'.self.deq ∧
        Trade s.world (s.self.deq.regions E) s'.world (s'.self.deq.regions E)) := by
  apply wp_mono (wp_drop h.shows)
  · intro _ s' hs'
    rw [hs'.regions_eq, hs'.world_eq]
    exact ⟨hs'.wf, .destroy _ _ _⟩
  · intro p s' hs'
    obtain ⟨hcause, hok, hregions, vs, -, hworld⟩ := hs'
    rw [hregions, hworld]
    refine ⟨?_, hok.wf, .destroy _ _ _⟩
    rcases hcause with ⟨rfl, -⟩ | ⟨rfl, -⟩
    · exact clean_user
    · exact clean_destructor

end DrainFilter

theorem SliceDeque.wp_drainFilter {T β : Type} {E : Env T β} {s : Frame (SliceDeque β) T}
    {P : Panic → Frame (SliceDeque β) T → Prop} (h : WF E s.self) :
    wp (drainFilter E) s (fun df s' => DrainFilter.Shows E df ⟨[], [], s.self.toList E, []⟩ ∧ s' = ⟨df.deq, s.world⟩ ∧
      df.deq.regions E = s.self.regions E) P := by
  have hle := h.len_le
  have hlt := h.len_lt
  simp only [drainFilter, wp_bind]
  apply wp_len h
  rw [wp_isize, asIsize_of_lt hlt]
  apply And.intro
  · intro _
    apply wp_moveTailUnchecked (n := 0) h (by omega) (Nat.zero_le _)
    rw [wp_self, wp_pure]
    exact ⟨⟨h.withLen (Nat.zero_le _), rfl, hle, rfl, rfl, rfl, rfl⟩, rfl, rfl⟩
  · exact fun hf => absurd ⟨by omega, by omega⟩ hf

theorem SliceDeque.exact_drainFilter {T β : Type} {E : Env T β} {s : Frame (SliceDeque β) T} (h : WF E s.self) :
    Exact (drainFilter E) s := by
  have hlt := h.len_lt
  have hisize : wp (isize E (-(asIsize s.self.elems.len))) s (fun x s' => x = -s.self.elems.len ∧ s' = s) fun _ _ => True := by
    rw [wp_isize, asIsize_of_lt hlt]
    exact ⟨fun _ => ⟨rfl, rfl⟩, fun _ _ => trivial⟩
  apply exact_len_bind h
  apply exact_seq _ hisize
  · intro x s' hx
    obtain ⟨rfl, rfl⟩ := hx
    apply exact_bind (exact_moveTailUnchecked (n := 0) h (by omega) (Nat.zero_le _))
    exact fun _ _ => exact_bind exact_self fun _ _ => exact_pure
  · rw [asIsize_of_lt hlt]
    apply exact_isize
    unfold isizeBound at *
    omega

/-! ## Panics of the predicate -/

namespace SliceDeque
variable {T β ι : Type} {E : Env T β} {pred : List T → T → Option Bool × T} {f : T → ι} {d : SliceDeque β} {w : World T} {k : Nat}

theorem wp_filterItems {s : Frame (SliceDeque β × List T) T} (h : WF E s.self.1) :
    let o := Sieve.take pred k s.self.2 ⟨[], [], s.self.1.toList E, []⟩
    let left := fun s' : Frame (SliceDeque β × List T) T => ∃ df₀ df₁ : DrainFilter T β, df₁.deq = s'.self.1 ∧
      DrainFilter.Left E pred ⟨(df₀, s.self.2), s.world⟩ ⟨(df₁, s'.self.2), s'.world⟩ o.2.1 o.2.2
    wp (filterItems E pred k) s (fun _ => left) (fun _ => left) := by
  intro o left
  rw [filterItems, wp_bind, wp_onPart]
  apply wp_mono (wp_drainFilter (s := ⟨s.self.1, s.world⟩) (P := fun _ _ => False) h) _ fun _ _ => False.elim
  intro df s₁ hs₁
  obtain ⟨hshows, rfl, -⟩ := hs₁
  rw [wp_bind, wp_self, wp_within]
  apply wp_mono (DrainFilter.wp_scope (s := ⟨(df, s.self.2), s.world⟩) hshows)
  · exact fun _ s' hs' => ⟨df, s'.self.1, rfl, hs'⟩
  · exact fun _ s' hs' => ⟨df, s'.self.1, rfl, hs'⟩

theorem exact_filterItems {s : Frame (SliceDeque β × List T) T} (h : WF E s.self.1) : Exact (filterItems E pred k) s := by
  have hfilter : wp (onPart Prod.fst (fun p d => (d, p.2)) (drainFilter E)) s (fun df _ => DrainFilter.Ok E df) fun _ _ => True := by
    rw [wp_onPart]
    exact wp_mono (wp_drainFilter (s := ⟨s.self.1, s.world⟩) (P := fun _ _ => True) h) (fun _ _ hs => hs.1.ok) fun _ _ => id
  apply exact_seq (exact_onPart (exact_drainFilter h)) hfilter
  intro df s₁ hdf
  apply exact_self_bind
  exact exact_zoom (DrainFilter.exact_scope (s := ⟨(df, s₁.self.2), s₁.world⟩) hdf)

/-- Of the elements each is at most once with the caller, in the deque, or destroyed. -/
def AtMostOnce (E : Env T β) (f : T → ι) (s s' : Frame (SliceDeque β × List T) T) : Prop :=
  ∃ dead, s'.world.destroyed = s.world.destroyed ++ dead ∧
    ((s'.self.2 ++ dead ++ s'.self.1.toList E).map f).Subperm ((s.self.2 ++ s.self.1.toList E).map f)

/-- The predicate panics in one of the first `k` calls of `next`, behind an element that it accepted, and nothing
else panics when the rest is sieved. -/
def Misfires (E : Env T β) (pred : List T → T → Option Bool × T) (xs dead : List T) (k : Nat) : Prop :=
  ∃ A v R, Sieve.PanicsAt pred [] xs A v R ∧ Sieve.accepted pred [] A ≠ [] ∧ (Sieve.accepted pred [] A).length < k ∧
    Sieve.Calm pred (A ++ [v]) R ∧ DrainFilter.Quiet E dead (Sieve.accepted pred (A ++ [v]) R)

section Left
variable {s s' : Frame (SliceDeque β × List T) T} {df₀ df₁ : DrainFilter T β} {items : List T} {S : Sieve T}
variable (hdeq : df₁.deq = s'.self.1)
variable (h : DrainFilter.Left E pred ⟨(df₀, s.self.2), s.world⟩ ⟨(df₁, s'.self.2), s'.world⟩ items S)
include hdeq h

theorem atMostOnce_of_left (hf : ∀ seen v, f (pred seen v).2 = f v)
    (hsub : ((items ++ S.rest).map f).Sublist ((s.self.2 ++ s.self.1.toList E).map f))
    (hwhole : Sieve.Calm pred S.seen S.rest → DrainFilter.Quiet E s.world.destroyed (Sieve.accepted pred S.seen S.rest) →
      Sieve.Whole f ((s.self.2 ++ s.self.1.toList E).map f) items S) : AtMostOnce E f s s' := by
  obtain ⟨hitems, t, ht, hend⟩ := h
  have hitems : s'.self.2 = items := hitems
  have hworld : t.world = s.world := ht.world_eq
  rcases hend with hc | ⟨p, hst⟩
  · refine ⟨Sieve.accepted pred S.seen S.rest, ?_, ?_⟩
    · rw [hc.world_eq, hworld]
      rfl
    · have hquiet := hc.quiet
      have hl : s'.self.1.toList E = S.kept ++ Sieve.rejected pred S.seen S.rest := by
        rw [← hdeq]
        exact hc.toList_eq
      rw [hworld] at hquiet
      apply List.Perm.subperm
      apply List.Perm.trans _ (hwhole hc.calm hquiet).perm
      rw [hitems, hl]
      have hperm := Sieve.accepted_rejected_perm hf S.seen S.rest
      simp only [List.map_append, List.append_assoc] at hperm ⊢
      apply List.Perm.append_left
      exact (List.perm_append_comm_assoc _ _ _).trans (hperm.append_left _)
  · obtain ⟨-, hok, -, vs, hpre, hdead⟩ := hst
    refine ⟨vs, ?_, ?_⟩
    · rw [hdead, hworld]
      rfl
    · have hl : s'.self.1.toList E = [] := by
        rw [← hdeq]
        exact toList_eq_nil hok.len_eq
      rw [hitems, hl, List.append_nil]
      apply List.Sublist.subperm
      apply List.Sublist.trans _ hsub
      rw [List.map_append, List.map_append]
      exact List.Sublist.append (.refl _) ((hpre.sublist.map f).trans (Sieve.accepted_sublist hf _ _))

theorem not_atMostOnce_of_left (hc : Sieve.Calm pred S.seen S.rest)
    (hq : DrainFilter.Quiet E s.world.destroyed (Sieve.accepted pred S.seen S.rest))
    (htorn : ¬ ((items ++ S.kept).map f).Nodup) (hnodup : ((s.self.2 ++ s.self.1.toList E).map f).Nodup) :
    ¬ AtMostOnce E f s s' := by
  obtain ⟨hitems, t, ht, hend⟩ := h
  have hitems : s'.self.2 = items := hitems
  have hworld : t.world = s.world := ht.world_eq
  intro honce
  obtain ⟨dead, -, l, hperm, hsub⟩ := honce
  rcases hend with hcl | ⟨p, hst⟩
  · have hl : s'.self.1.toList E = S.kept ++ Sieve.rejected pred S.seen S.rest := by
      rw [← hdeq]
      exact hcl.toList_eq
    apply htorn
    rw [hitems, hl] at hperm
    apply List.Nodup.sublist _ (hperm.nodup_iff.mp (hsub.nodup hnodup))
    simp only [List.map_append, List.append_assoc]
    apply List.Sublist.append (.refl _)
    exact (List.sublist_append_left _ _).trans (List.sublist_append_right _ _)
  · rcases hst.cause with ⟨-, hnc⟩ | ⟨-, hnq⟩
    · exact hnc hc
    · rw [hworld] at hnq
      exact hnq hq

end Left

/-- `drain_filter` keeps every element at most once exactly if no panic of the predicate unwinds from `next` behind an
accepted element, or another panic keeps the length from being restored. -/
theorem filterItems_atMostOnce_iff (h : WF E d) (hf : ∀ seen v, f (pred seen v).2 = f v)
    (hnodup : ((d.toList E).map f).Nodup) :
    Exact (filterItems E pred k) ⟨(d, []), w⟩ ∧
      (AtMostOnce E f ⟨(d, []), w⟩ (filterItems E pred k ⟨(d, []), w⟩).state ↔
        ¬ Misfires E pred (d.toList E) w.destroyed k) := by
  have hexact : Exact (filterItems E pred k) ⟨(d, []), w⟩ := exact_filterItems h
  have hleft := wp_state hexact (wp_filterItems h)
  refine ⟨hexact, ?_⟩
  generalize (filterItems E pred k ⟨(d, []), w⟩).state = s' at hleft
  obtain ⟨df₀, df₁, hdeq, hleft⟩ := hleft
  have hstart : Sieve.Whole f ((([] : List T) ++ d.toList E).map f) [] ⟨[], [], d.toList E, []⟩ :=
    ⟨.refl _, rfl, fun j hj => nomatch hj⟩
  have hsub := Sieve.take_sublist hf k [] ⟨[], [], d.toList E, []⟩
  have htake := Sieve.take_whole hf k hstart
  have hpanic := @Sieve.panicsAt_of_take T pred k [] ⟨[], [], d.toList E, []⟩
  have hcalm := @Sieve.le_of_take T pred k [] ⟨[], [], d.toList E, []⟩
  dsimp only at hleft
  generalize Sieve.take pred k [] ⟨[], [], d.toList E, []⟩ = o at hleft hsub htake hpanic hcalm
  obtain ⟨ok, items, S⟩ := o
  have honce := atMostOnce_of_left (s := ⟨(d, []), w⟩) hdeq hleft hf hsub
  cases ok with
  | true =>
    apply iff_of_true (honce fun _ _ => htake.1 rfl)
    intro hm
    obtain ⟨A, v, R, hp, -, hlt, -, -⟩ := hm
    exact absurd hlt (Nat.not_lt.mpr (hcalm rfl hp))
  | false =>
    obtain ⟨A, v, hp, hlt, hout, hseen⟩ := hpanic rfl
    have hseen : S.seen = A ++ [v] := hseen
    have hout : items = Sieve.accepted pred [] A := hout
    have hiff : Misfires E pred (d.toList E) w.destroyed k ↔ items ≠ [] ∧
        Sieve.Calm pred S.seen S.rest ∧ DrainFilter.Quiet E w.destroyed (Sieve.accepted pred S.seen S.rest) := by
      rw [hout, hseen]
      constructor
      · intro hm
        obtain ⟨A', v', R', hp', hne, -, hc, hq⟩ := hm
        obtain ⟨rfl, rfl, rfl⟩ := hp.unique hp'
        exact ⟨hne, hc, hq⟩
      · exact fun hm => ⟨A, v, S.rest, hp, hm.1, hlt, hm.2.1, hm.2.2⟩
    rw [hiff]
    have htorn := htake.2 rfl
    by_cases hm : items ≠ [] ∧ Sieve.Calm pred S.seen S.rest ∧
        DrainFilter.Quiet E w.destroyed (Sieve.accepted pred S.seen S.rest)
    · have hnot := not_atMostOnce_of_left (s := ⟨(d, []), w⟩) hdeq hleft hm.2.1 hm.2.2 (htorn.2 hm.1) hnodup
      exact ⟨fun h => absurd h hnot, fun h => absurd hm h⟩
    · apply iff_of_true _ hm
      apply honce
      intro hc hq
      by_cases hnil : items = []
      · exact htorn.1 hnil
      · exact absurd ⟨hnil, hc, hq⟩ hm

/-- Accept 10, panic at 20, keep the rest. -/
def fussy : List Nat → Nat → Option Bool × Nat := fun _ v => (if v = 10 then some true else if v = 20 then none else some false, v)

/-- Behind a single call of `next` nothing goes wrong. -/
theorem sample_atMostOnce :
    let E := cells true 3 (by decide)
    AtMostOnce E id ⟨(sample, []), .start⟩ (filterItems E fussy 1 ⟨(sample, []), .start⟩).state := by
  apply (filterItems_atMostOnce_iff wf_sample (fun _ _ => rfl) (by decide)).2.mpr
  rintro ⟨A, v, R, -, hne, hlt, -⟩
  exact hne (List.eq_nil_of_length_eq_zero (Nat.lt_one_iff.mp hlt))

/-- The caller has the 10, and the deque shows it again. -/
theorem filterItems_keeps_twice :
    let E := cells true 3 (by decide)
    let s := (filterItems E fussy 2 ⟨(sample, []), .start⟩).state.self
    sample.toList E = [10, 20, 30] ∧ s.2 = [10] ∧ s.1.toList E = [10, 30] := by
  decide +kernel

/-! ## The documented loop -/

theorem ends_readSlot {s : Frame (SliceDeque β) T} {a rest : List T} {v : T} (h : WF E s.self)
    (hl : s.self.toList E = a ++ v :: rest) : Ends (readSlot E a.length) s fun r s₁ => v = r ∧ s = s₁ := by
  obtain ⟨hlt, hslot⟩ := DrainFilter.slot_of_split (n := s.self.elems.len) hl rfl
  have hle := h.len_le
  apply ends_iff.mpr ⟨exact_readSlot, _⟩
  exact wp_readSlot h (by omega) (by omega) ⟨hslot.symm, rfl⟩

theorem ends_writeSlot {s : Frame (SliceDeque β) T} {a rest : List T} {v : T} (v' : T) (h : WF E s.self)
    (hl : s.self.toList E = a ++ v :: rest) :
    Ends (writeSlot E a.length v') s fun _ s₁ => Effect E s s₁ (a ++ v' :: rest) [] := by
  obtain ⟨hlt, -⟩ := DrainFilter.slot_of_split (n := s.self.elems.len) hl rfl
  have hle := h.len_le
  apply ends_iff.mpr ⟨exact_writeSlot, _⟩
  apply wp_writeSlot h (by omega) (by omega)
  intro d' hwf hr hs
  apply Change.of_self hwf _ hr.regions_eq
  rw [hr.toList_set h hs, hl, List.set_append_right _ _ le_rfl, Nat.sub_self, List.set_cons_zero]

theorem ends_remove {s : Frame (SliceDeque β) T} {a rest : List T} {v : T} (h : WF E s.self)
    (hl : s.self.toList E = a ++ v :: rest) :
    Ends (remove E a.length) s fun r s₁ => v = r ∧ Effect E s s₁ (a ++ rest) [] := by
  obtain ⟨hlt, -⟩ := DrainFilter.slot_of_split (n := s.self.elems.len) hl rfl
  apply ends_iff.mpr ⟨exact_remove h, _⟩
  apply wp_mono (wp_remove h)
  · intro r s₁ hs₁
    obtain ⟨hr, heff⟩ := hs₁
    rw [hl, List.getElem?_append_right le_rfl, Nat.sub_self, List.getElem?_cons_zero] at hr
    rw [hl, List.eraseIdx_append_of_length_le le_rfl, Nat.sub_self, List.eraseIdx_cons_zero] at heff
    exact ⟨Option.some.inj hr, heff⟩
  · intro p s₁ hs₁
    exact absurd hlt (Nat.not_lt.mpr hs₁.2.1)

/-- The rounds behind the elements `a` that stay. -/
theorem ends_filterLoop : ∀ (rounds : Nat) (s : Frame (SliceDeque β) T) (a rest seen vals : List T), WF E s.self →
    s.self.toList E = a ++ rest → rest.length < rounds → Sieve.Calm pred seen rest →
    Ends (filterLoop E pred rounds a.length seen vals) s fun r s' =>
      r = (seen ++ rest, vals ++ Sieve.accepted pred seen rest) ∧
      Effect E s s' (a ++ Sieve.rejected pred seen rest) [] := by
  intro rounds
  induction rounds with
  | zero => exact fun s a rest seen vals _ _ hn => absurd hn (Nat.not_lt_zero _)
  | succ rounds ih =>
    intro s a rest seen vals h hl hn hc
    have hlen := congrArg List.length hl
    rw [toList_length, List.length_append] at hlen
    have hends : Ends (len E) s fun n s₁ => a.length + rest.length = n ∧ s = s₁ :=
      ends_iff.mpr ⟨exact_len, wp_len h ⟨hlen.symm, rfl⟩⟩
    rw [filterLoop, ends_bind]
    apply ends_mono hends
    rintro _ _ ⟨rfl, rfl⟩
    cases rest with
    | nil =>
      have hend : a.length = a.length + ([] : List T).length := rfl
      rw [if_pos hend, ends_pure, Sieve.accepted, Sieve.rejected, List.append_nil, List.append_nil, ← hl]
      exact ⟨rfl, .refl h⟩
    | cons v rest =>
      obtain ⟨hv, hc⟩ := hc
      have hn : rest.length < rounds := Nat.lt_of_succ_lt_succ hn
      rw [if_neg (by rw [List.length_cons]; omega), ends_bind, ends_when]
      refine ⟨fun hlt => absurd hlt (by omega), fun _ => ?_⟩
      rw [ends_bind]
      apply ends_mono (ends_readSlot h hl)
      rintro _ _ ⟨rfl, rfl⟩
      rw [ends_bind]
      apply ends_mono (ends_writeSlot (pred seen v).2 h hl)
      intro _ s₁ heff
      rw [Sieve.accepted, Sieve.rejected]
      rcases hp : pred seen v with ⟨_ | _ | _, v'⟩ <;> rw [hp] at hv heff
      · exact absurd rfl hv
      · have hih := ih s₁ (a ++ [v']) rest (seen ++ [v]) vals heff.wf (by simpa using heff.toList_eq) hn hc
        rw [List.length_append, List.length_singleton] at hih
        apply ends_mono hih
        intro r s' hs'
        have hall := heff.trans hs'.2
        exact ⟨by simpa using hs'.1, by simpa using hall⟩
      · rw [ends_bind]
        apply ends_mono (ends_remove heff.wf heff.toList_eq)
        rintro _ s₂ ⟨rfl, heff₂⟩
        apply ends_mono (ih s₂ a rest (seen ++ [v]) (vals ++ [v']) heff₂.wf heff₂.toList_eq hn hc)
        intro r s' hs'
        have hall := (heff.trans heff₂).trans hs'.2
        exact ⟨by simpa using hs'.1, by simpa using hall⟩

theorem ends_drainFilter {s : Frame (SliceDeque β) T} (h : WF E s.self) :
    Ends (drainFilter E) s fun df s' =>
      DrainFilter.Shows E df ⟨[], [], s.self.toList E, []⟩ ∧ s' = ⟨df.deq, s.world⟩ := by
  apply ends_iff.mpr ⟨exact_drainFilter h, _⟩
  exact wp_mono (wp_drainFilter (P := fun _ _ => False) h) (fun _ _ hs => ⟨hs.1, hs.2.1⟩) fun _ _ => id

/-- What `drain_filter` does with a predicate that does not panic, when it is dropped, or leaked, after any number of
calls; and the documented loop does the same. -/
theorem drainFilter_filters (h : WF E d) (hcalm : Sieve.Calm pred [] (d.toList E)) :
    (Ends (drainFilter E) ⟨d, w⟩ fun df s₁ =>
      Ends (DrainFilter.takeItems E pred k) ⟨(df, []), s₁.world⟩ fun _ t =>
        let xs := d.toList E
        t.self.2 = (Sieve.accepted pred [] xs).take k ∧
        t.self.1.deq.toList E = [] ∧
        Ends (DrainFilter.sizeHint E) ⟨t.self.1, t.world⟩ (fun hint _ => ∃ upper, hint = (0, some upper) ∧
          ((Sieve.accepted pred [] xs).drop k).length ≤ upper) ∧
        Exact (DrainFilter.drop E pred) ⟨t.self.1, t.world⟩ ∧
        wp (DrainFilter.drop E pred) ⟨t.self.1, t.world⟩
          (fun _ s' => s'.self.seen = xs ∧ s'.self.deq.toList E = Sieve.rejected pred [] xs ∧
            s'.world.destroyed = w.destroyed ++ (Sieve.accepted pred [] xs).drop k)
          (fun p _ => p = .destructor ∧ DestructorsPanic E)) ∧
    ∀ rounds, (d.toList E).length < rounds → Ends (filterLoop E pred rounds 0 [] []) ⟨d, w⟩ fun r s' =>
      r = (d.toList E, Sieve.accepted pred [] (d.toList E)) ∧
      s'.self.toList E = Sieve.rejected pred [] (d.toList E) ∧ s'.world.destroyed = w.destroyed := by
  constructor
  · apply ends_mono (ends_drainFilter h)
    rintro df _ ⟨hshows, rfl⟩
    have htake := Sieve.take_calm k [] ⟨[], [], d.toList E, []⟩ hcalm
    have hwp : wp (DrainFilter.takeItems E pred k) ⟨(df, []), w⟩ _ _ := DrainFilter.wp_takeItems k _ _ hshows
    dsimp only at htake hwp
    generalize Sieve.take pred k [] ⟨[], [], d.toList E, []⟩ = o at htake hwp
    obtain ⟨ok, items, S⟩ := o
    obtain ⟨rfl, hitems, hc, hrest, hkept, hseen⟩ := htake
    have hends : Ends (DrainFilter.takeItems E pred k) ⟨(df, []), w⟩ fun _ t => DrainFilter.Took E ⟨(df, []), w⟩ t items S := by
      apply ends_iff.mpr ⟨DrainFilter.exact_takeItems k _ hshows.ok, _⟩
      exact wp_mono hwp (fun _ t ht => ht.2) fun p t ht => (nomatch ht.2.1)
    apply ends_mono hends
    intro _ t ht xs
    have hshows := ht.stepped.shows
    have hworld : t.world = w := ht.stepped.world_eq
    refine ⟨ht.items_eq.trans hitems, toList_eq_nil hshows.len_eq, ?_, DrainFilter.exact_drop hshows.ok, ?_⟩
    · apply ends_iff.mpr ⟨DrainFilter.exact_sizeHint hshows.ok, _⟩
      apply DrainFilter.wp_sizeHint hshows
      refine ⟨S.rest.length, rfl, ?_⟩
      rw [← hrest]
      exact Sieve.length_accepted_le _ _
    · apply wp_mono (DrainFilter.wp_drop (s := ⟨t.self.1, t.world⟩) hshows)
      · intro _ s' hs'
        refine ⟨hs'.seen_eq.trans hseen, hs'.toList_eq.trans hkept, ?_⟩
        rw [hs'.world_eq, hworld, hrest]
        rfl
      · intro p s' hs'
        rcases hs'.cause with ⟨-, hnc⟩ | ⟨hp, hnq⟩
        · exact absurd hc hnc
        · refine ⟨hp, ?_⟩
          by_contra hnone
          exact hnq (.of_not hnone _ _)
  · intro rounds hr
    apply ends_mono (ends_filterLoop rounds ⟨d, w⟩ [] (d.toList E) [] [] h rfl hr hcalm)
    intro r s' hs'
    refine ⟨hs'.1, hs'.2.toList_eq, ?_⟩
    rw [hs'.2.log.destroyed_eq, List.append_nil]

/-- Every other element is accepted, and all are counted up. -/
theorem sample_filters :
    let E := cells true 3 (by decide)
    let pred : List Nat → Nat → Option Bool × Nat := fun seen v => (some (seen.length % 2 == 0), v + 1)
    Ends (drainFilter E) ⟨sample, .start⟩ fun df s₁ =>
      Ends (DrainFilter.takeItems E pred 1) ⟨(df, []), s₁.world⟩ fun _ t => t.self.2 = [11] := by
  intro E pred
  have hcalm : Sieve.Calm pred [] (sample.toList E) := .of_forall (fun _ _ => by simp [pred]) _ _
  apply ends_mono (drainFilter_filters (k := 1) wf_sample hcalm).1
  intro df s₁ hs₁
  apply ends_mono hs₁
  intro _ t ht
  exact ht.1

end SliceDeque

end Sdeq
