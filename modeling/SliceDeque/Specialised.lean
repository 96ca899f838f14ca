import SliceDeque.Contracts

/-!
# The specialised paths

With the feature `unstable`, `extend` and `collect` have implementations of their
own for iterators that know their length and for slices of `Copy` values, and
`from_elem` has one for bytes. They reserve once and write without a look at the
capacity. They should make what the paths for all other types make.
-/

set_option autoImplicit false

namespace Sdeq
open Exec SliceDeque

namespace SliceDeque
variable {T β X : Type} (E : Env T β)

/-- The loop of `spec_extend` for `TrustedLen`: `ptr` is at slot `i`. -/
def extendTrustedLoop : (i : Nat) → List (Option T) → DeqM T β Unit
  | _, [] => pure ()
  | i, next :: rest => do
    let element ← produce fun _ => next
    writeSlot E i element
    moveTailUnchecked E 1
    extendTrustedLoop (i + 1) rest

/-- `spec_extend` for `TrustedLen`, after `k` calls of `next`. -/
def extendTrusted (hint : Hint) (k : Nat) (iter : List (Option T)) : DeqM T β Unit :=
  match (hint k).2 with
  | some additional => do
    debugAssert E ((hint k).1 = additional)
    reserve E additional
    let l ← len E
    extendTrustedLoop E l iter
  | none => extendDesugared E hint k iter

/-- `from_iter` for `TrustedLen` -/
def fromIterTrusted (iter : UserIter T) : Method T X (SliceDeque β) := do
  let r ← onLocal (new E) (onPanic (extendTrusted E iter.hint iter.pulled iter.rest) (dropSelf E))
  pure r.2

/-- Bitwise copies in the slots from `i` on. -/
def copyFromSlice : (i : Nat) → List T → DeqM T β Unit
  | _, [] => pure ()
  | i, v :: vs => do
    let c ← produce fun _ => some v
    writeSlot E i c
    copyFromSlice (i + 1) vs

/-- `spec_extend` for `slice::Iter` -/
def extendSlice (slice : List T) : DeqM T β Unit := do
  reserve E slice.length
  let len ← len E
  moveTailUnchecked E (asIsize slice.length)
  let d ← self
  assert (d.elems.len - len = slice.length)
  copyFromSlice E len slice

/-- `from_elem` for `u8`; `write_bytes` makes `n` copies. -/
def fromElemBytes (elem : T) (n : Nat) : Method T X (SliceDeque β) := do
  let v ← withCapacity E n
  let r ← onLocal v (do
    copyFromSlice E 0 (List.replicate n elem)
    moveTailUnchecked E (asIsize n))
  pure r.2

variable {E} {L k i n : Nat} {hint : Hint} {s s' : Frame (SliceDeque β) T} {t t' t₁ : Frame X T} {d : SliceDeque β}
  {l dead made dead₁ made₁ vs items : List T} {iter : List (Option T)} {v : T}

/-! ## New deques -/

/-- The receiver is what it was; the values in `made` were made, and those in `dead` destroyed. -/
structure Passed (t t' : Frame X T) (dead made : List T) : Prop where
  self_eq : t'.self = t.self
  log : Logged t.world t'.world dead made
  trade : ∀ o, Trade t.world o t'.world o

/-- There is a new deque of `l`, besides. -/
structure Yields (E : Env T β) (t t' : Frame X T) (d : SliceDeque β) (l dead made : List T) : Prop where
  contains : Contains E d l
  self_eq : t'.self = t.self
  log : Logged t.world t'.world dead made
  trade : ∀ o, Trade t.world o t'.world (o + d.regions E)

theorem Passed.refl (t : Frame X T) : Passed t t [] [] := ⟨rfl, .refl _, fun _ => .refl _ _⟩

theorem Passed.trans (h : Passed t t₁ dead made) (h' : Passed t₁ t' dead₁ made₁) :
    Passed t t' (dead ++ dead₁) (made ++ made₁) :=
  ⟨h'.self_eq.trans h.self_eq, h.log.trans h'.log, fun o => (h.trade o).trans (h'.trade o)⟩

theorem Passed.yields (h : Passed t t₁ dead made) (h' : Yields E t₁ t' d l dead₁ made₁) :
    Yields E t t' d l (dead ++ dead₁) (made ++ made₁) :=
  ⟨h'.contains, h'.self_eq.trans h.self_eq, h.log.trans h'.log, fun o => (h.trade o).trans (h'.trade o)⟩

theorem Passed.of_untouched (h : Untouched t t' dead) : Passed t t' dead [] := ⟨h.self_eq, h.log, h.trade⟩

/-- A deque that unwinding drops takes its elements and its buffer with it. -/
theorem does_dropSelf {R : Frame (SliceDeque β) T → Prop} (h : WF E s.self)
    (hR : ∀ s', Consumed s s' (s.self.regions E) (s.self.toList E) → R s') :
    Does (dropSelf E) s (fun _ s' => R s') fun _ s' => R s' := by
  refine ⟨exact_self_bind (exact_drop h), ?_⟩
  rw [dropSelf, wp_bind, wp_self]
  exact wp_mono (wp_drop h) (fun _ s' hs' => hR s' hs') fun _ s' hs' => hR s' hs'.2.2

theorem created_new (t : Frame X T) : Created E t t (new E) [] := by
  refine ⟨wf_new, toList_new, rfl, .refl _, fun o => ?_⟩
  rw [regions_new, Multiset.coe_nil, add_zero]
  exact .refl _ _

/-- A new deque is changed, and dropped if that panics. -/
theorem does_finish {m : DeqM T β Unit} {Q : SliceDeque β → List T → List T → List T → Prop}
    {P : Panic → List T → List T → List T → Prop} (hc : Created E t t₁ d [])
    (hm : Does m ⟨d, t₁.world⟩ (fun _ s' => ∃ l dead made, Q s'.self l dead made ∧ Change E ⟨d, t₁.world⟩ s' l dead made)
      fun p s' => ∃ l dead made, P p l dead made ∧ Change E ⟨d, t₁.world⟩ s' l dead made) :
    Does (do
      let r ← onLocal d (onPanic m (dropSelf E))
      pure r.2) t₁ (fun d' t' => ∃ l dead made, Q d' l dead made ∧ Yields E t t' d' l dead made)
      fun p t' => ∃ l dead made, P p l dead made ∧ Passed t t' (dead ++ l) made := by
  have hbody : Does (onPanic m (dropSelf E)) ⟨d, t₁.world⟩
      (fun _ s' => ∃ l dead made, Q s'.self l dead made ∧ Change E ⟨d, t₁.world⟩ s' l dead made)
      (fun p s' => ∃ l dead made, P p l dead made ∧ Passed t ⟨t₁.self, s'.world⟩ (dead ++ l) made) := by
    apply does_onPanic hm
    intro p s' hout
    obtain ⟨l, dead, made, hp, hs'⟩ := hout
    apply does_dropSelf hs'.wf
    intro s'' hs''
    have hlog := (hc.log.trans hs'.log).trans hs''.log
    rw [hs'.toList_eq, List.nil_append, List.nil_append, List.append_nil] at hlog
    exact ⟨l, dead, made, hp, hc.self_eq, hlog, fun o => ((hc.trade o).trans (hs'.trade.frame_left o)).trans (hs''.trade o)⟩
  apply does_bind (does_onLocal (Q := fun r t' => t'.self = t₁.self ∧ ∃ l dead made, Q r.2 l dead made ∧
    Change E ⟨d, t₁.world⟩ ⟨r.2, t'.world⟩ l dead made) (hbody.mono (fun _ s' hs' => ⟨rfl, hs'⟩) fun _ _ => id))
  intro r t' hout
  obtain ⟨hself, l, dead, made, hq, hs'⟩ := hout
  exact does_pure ⟨l, dead, made, hq, ⟨hs'.wf, hs'.toList_eq⟩, hself.trans hc.self_eq, hc.log.trans hs'.log,
    fun o => (hc.trade o).trans (hs'.trade.frame_left o)⟩

/-! ## Iterators that know their length -/

/-- What the iterator returns is stored until it ends or panics. -/
def Takes (E : Env T β) (iter : List (Option T)) (m : DeqM T β Unit) (s : Frame (SliceDeque β) T) : Prop :=
  Does m s (fun _ s' => ∃ vs, iter = vs.map some ∧ Filled E s s' vs)
    fun p s' => p = .user ∧ ∃ vs rest, iter = vs.map some ++ none :: rest ∧ Filled E s s' vs

theorem takes_extendTrustedLoop (h : WF E s.self) (hi : i = s.self.elems.len)
    (hcap : i + iter.length ≤ s.self.capacity) : Takes E iter (extendTrustedLoop E i iter) s := by
  induction iter generalizing i s with
  | nil => exact does_pure ⟨[], rfl, .refl h⟩
  | cons next rest ih =>
    rw [List.length_cons] at hcap
    have hroom : s.self.elems.len < s.self.capacity := by omega
    rw [extendTrustedLoop]
    cases next with
    | none =>
      have hpanic : Does (produce fun _ => none) s (fun _ _ => False) fun p s' => p = .user ∧ s' = ⟨s.self, s.world.produce []⟩ :=
        does_produce (fun v hv => absurd hv.symm (Option.some_ne_none v)) fun _ => ⟨rfl, rfl⟩
      apply does_bind (hpanic.mono (fun _ _ => id) _) fun _ _ => False.elim
      rintro p _ ⟨rfl, rfl⟩
      refine ⟨rfl, [], rest, rfl, ?_, rfl, rfl, rfl⟩
      rw [List.append_nil]
      exact (Change.refl h).produce []
    | some v =>
      have hstore : Ends (do
          let element ← produce fun _ => some v
          writeSlot E i element
          moveTailUnchecked E 1) s fun _ s₁ => Filled E s s₁ [v] := by
        rw [ends_bind, ends_produce, hi]
        apply ends_mono (ends_writeBack_pushed (s := ⟨s.self, s.world.produce [v]⟩) h hroom)
        rintro _ _ rfl
        exact filled_pushed h hroom
      have hall : Takes E (some v :: rest) ((do
          let element ← produce fun _ => some v
          writeSlot E i element
          moveTailUnchecked E 1) >>= fun _ => extendTrustedLoop E (i + 1) rest) s := by
        apply does_bind hstore.does
        intro _ s₁ hs₁
        have hlen := hs₁.next
        have hcap₁ := hs₁.capacity_eq
        apply (ih hs₁.change.wf (i := i + 1) (by omega) (by omega)).mono
        · rintro _ s' ⟨vs, hvs, hs'⟩
          exact ⟨v :: vs, by rw [hvs, List.map_cons], hs₁.cons hs'⟩
        · rintro p s' ⟨hp, vs, us, hvs, hs'⟩
          exact ⟨hp, v :: vs, us, by rw [hvs, List.map_cons, List.cons_append], hs₁.cons hs'⟩
      simpa only [bind_bind] using hall

/-- What `extend` should do with an iterator that knows its length. All that it returned is in the deque, also
after a panic; if there is no memory for all of it, nothing was pulled. -/
def TakesAll (E : Env T β) (iter : List (Option T)) (m : DeqM T β Unit) (s : Frame (SliceDeque β) T) : Prop :=
  Does m s (fun _ s' => ∃ vs, iter = vs.map some ∧ Change E s s' (s.self.toList E ++ vs) [] vs)
    (fun p s' => (p = .user ∧ ∃ vs rest, iter = vs.map some ++ none :: rest ∧ Change E s s' (s.self.toList E ++ vs) [] vs) ∨
      Refusal E p ∧ Untouched s s' [])

/-- What `collect` should do with it. After a panic what the iterator returned is destroyed with the deque. -/
def CollectsAll (E : Env T β) (iter : List (Option T)) (m : Method T X (SliceDeque β)) (t : Frame X T) : Prop :=
  Does m t
    (fun d t' => WF E d ∧ iter = (d.toList E).map some ∧ t'.self = t.self ∧ Logged t.world t'.world [] (d.toList E) ∧
      ∀ o, Trade t.world o t'.world (o + d.regions E))
    (fun p t' => t'.self = t.self ∧ (∀ o, Trade t.world o t'.world o) ∧
      ((p = .user ∧ ∃ vs rest, iter = vs.map some ++ none :: rest ∧ Logged t.world t'.world vs vs) ∨
        Refusal E p ∧ Logged t.world t'.world [] []))

theorem extendTrusted_of_exact (hk : hint k = (n, some n)) : extendTrusted E hint k iter = (do
    debugAssert E (n = n)
    reserve E n
    let l ← len E
    extendTrustedLoop E l iter) := by
  rw [extendTrusted, hk]

theorem takesAll_extendTrusted (h : WF E s.self) (hk : hint k = (iter.length, some iter.length))
    (ha : s.self.capacity < s.self.elems.len + iter.length → Askable E (growTarget s.self iter.length)) :
    TakesAll E iter (extendTrusted E hint k iter) s := by
  rw [extendTrusted_of_exact hk]
  have hassert : Ends (debugAssert E (iter.length = iter.length)) s fun _ s' => s' = s := (ends_debugAssert rfl).mpr rfl
  apply does_bind hassert.does
  intro _ s₀ hs₀
  rw [hs₀]
  apply does_bind ((does_reserve h ha).mono (fun _ _ => id) fun p s' hp => .inr hp.untouched)
  intro _ s₁ hg
  have hcap := (le_growTarget _ _).trans hg.cap_ge
  have hlen := hg.len_eq
  -- what was stored behind the old elements, seen from the state before the reservation
  have hall : ∀ {s' vs}, Filled E s₁ s' vs → Change E s s' (s.self.toList E ++ vs) [] vs := by
    intro s' vs hs'
    have hchange := (hg.effect h).trans hs'.change
    rwa [hg.toList_eq] at hchange
  apply does_len_bind hg.wf
  apply (takes_extendTrustedLoop hg.wf rfl (by omega)).mono
  · rintro _ s' ⟨vs, hvs, hs'⟩
    exact ⟨vs, hvs, hall hs'⟩
  · rintro p s' ⟨hp, vs, rest, hvs, hs'⟩
    exact .inl ⟨hp, vs, rest, hvs, hall hs'⟩

theorem takesAll_iff (h : WF E s.self) (hk : hint k = (iter.length, some iter.length))
    (hn : s.self.elems.len + iter.length < usizeBound) : TakesAll E iter (extendTrusted E hint k iter) s ↔
      (s.self.capacity < s.self.elems.len + iter.length → Askable E (growTarget s.self iter.length)) := by
  refine ⟨fun ht hc => by_contra fun ha => not_exact_of_wp ?_ ht.exact, takesAll_extendTrusted h hk⟩
  rw [extendTrusted_of_exact hk, wp_bind]
  apply wp_debugAssert rfl
  rw [wp_bind]
  exact wp_mono (wp_reserve_wraps h hn hc ha) (fun _ _ => False.elim) fun _ _ => id

theorem collectsAll_fromIterTrusted (hk : hint k = (iter.length, some iter.length))
    (ha : (new E : SliceDeque β).capacity < iter.length → Askable E (growTarget (new E : SliceDeque β) iter.length)) :
    CollectsAll E iter (fromIterTrusted E ⟨iter, k, hint⟩) t := by
  have htakes : TakesAll E iter (extendTrusted E hint k iter) ⟨new E, t.world⟩ :=
    takesAll_extendTrusted wf_new hk fun hc => ha (by rwa [show (new E : SliceDeque β).elems.len = 0 from rfl, Nat.zero_add] at hc)
  simp only [TakesAll, toList_new, List.nil_append] at htakes
  have hfinish := does_finish (created_new t) (Q := fun _ l dead made => iter = l.map some ∧ dead = [] ∧ made = l)
    (P := fun p l dead made => dead = [] ∧ made = l ∧ (p = .user ∧ (∃ rest, iter = l.map some ++ none :: rest) ∨ Refusal E p ∧ l = []))
    (htakes.mono ?_ ?_)
  · apply hfinish.mono
    · intro d t' hout
      obtain ⟨_, _, vs, ⟨hl, rfl, rfl⟩, hd⟩ := hout
      have hlist : d.toList E = vs := hd.contains.toList_eq
      refine ⟨hd.contains.wf, by rw [hlist, hl], hd.self_eq, ?_, hd.trade⟩
      rw [hlist]
      exact hd.log
    · intro p t' hout
      obtain ⟨_, _, vs, ⟨rfl, rfl, hp⟩, hpass⟩ := hout
      refine ⟨hpass.self_eq, hpass.trade, ?_⟩
      have hlog := hpass.log
      rcases hp with ⟨hp, rest, hl⟩ | ⟨hp, rfl⟩
      · exact .inl ⟨hp, vs, rest, hl, hlog⟩
      · exact .inr ⟨hp, hlog⟩
  · intro _ s' hout
    obtain ⟨vs, hvs, hs'⟩ := hout
    exact ⟨vs, [], vs, ⟨hvs, rfl, rfl⟩, hs'⟩
  · intro p s' hout
    rcases hout with ⟨hp, vs, rest, hvs, hs'⟩ | ⟨hp, hu⟩
    · exact ⟨vs, [], vs, ⟨rfl, rfl, .inl ⟨hp, rest, hvs⟩⟩, hs'⟩
    · exact ⟨[], [], [], ⟨rfl, rfl, .inr ⟨hp, rfl⟩⟩, .of_untouched wf_new hu⟩

theorem collectsAll_iff (hk : hint k = (iter.length, some iter.length)) (hn : iter.length < usizeBound) :
    CollectsAll E iter (fromIterTrusted E ⟨iter, k, hint⟩) t ↔
      ((new E : SliceDeque β).capacity < iter.length → Askable E (growTarget (new E : SliceDeque β) iter.length)) := by
  refine ⟨fun hc hlt => by_contra fun ha => not_exact_of_wp ?_ hc.exact, collectsAll_fromIterTrusted hk⟩
  have hlen : (new E : SliceDeque β).elems.len + iter.length = iter.length := Nat.zero_add _
  rw [fromIterTrusted, extendTrusted_of_exact hk, wp_bind, wp_onLocal]
  apply wp_onPanic (P := fun _ _ => False) _ fun _ _ => False.elim
  rw [wp_bind]
  apply wp_debugAssert rfl
  rw [wp_bind]
  exact wp_mono (wp_reserve_wraps wf_new (by dsimp only; omega) (by dsimp only; omega) ha) (fun _ _ => False.elim) fun _ _ => id

/-- The capacity after one request for `n` more elements. -/
def roomFor (E : Env T β) (d : SliceDeque β) (n : Nat) : Nat :=
  if d.elems.len + n ≤ d.capacity then d.capacity else capFor E (max (d.elems.len + n) (2 * d.capacity))

/-- The request is granted, if there has to be one. -/
def RoomGranted (E : Env T β) (L : Nat) (d : SliceDeque β) (n : Nat) : Prop :=
  d.elems.len + n ≤ d.capacity ∨ Granted E L (max (d.elems.len + n) (2 * d.capacity))

/-- The items are behind the elements, and the capacity is `c`. -/
structure Appended (E : Env T β) (d : SliceDeque β) (items : List T) (c : Nat) (d' : SliceDeque β) : Prop where
  contains : Contains E d' (d.toList E ++ items)
  capacity_eq : d'.capacity = c

/-- The items are appended to `d` exactly if one request for all of them is granted, and that is the only one. The
method leaves the deque where `get` looks. -/
structure Appends {α : Type} (E : Env T β) (L : Nat) (get : α → Frame X T → SliceDeque β) (d : SliceDeque β) (items : List T)
    (m : Method T X α) (t : Frame X T) : Prop where
  granted : Ends m t (fun _ _ => True) → RoomGranted E L d items.length
  ends : RoomGranted E L d items.length → Ends m t fun a t' => Appended E d items (roomFor E d items.length) (get a t')

/-- Both methods return on the same states, with the same contents in the same capacity. -/
def Agree {α : Type} (E : Env T β) (get : α → Frame X T → SliceDeque β) (m m' : Method T X α) (t : Frame X T) : Prop :=
  ∀ l c, Ends m t (fun a t' => (get a t').toList E = l ∧ (get a t').capacity = c) ↔
    Ends m' t fun a t' => (get a t').toList E = l ∧ (get a t').capacity = c

/-- The deque that a method changed, and the one that it made. -/
def changed (_ : Unit) (s : Frame (SliceDeque β) T) : SliceDeque β := s.self

def returned (d : SliceDeque β) (_ : Frame X T) : SliceDeque β := d

theorem Appends.agree {α : Type} {get : α → Frame X T → SliceDeque β} {m m' : Method T X α} (h : Appends E L get d items m t)
    (h' : Appends E L get d items m' t) : Agree E get m m' t := by
  have hiff : ∀ {m : Method T X α}, Appends E L get d items m t → ∀ l c,
      (Ends m t (fun a t' => (get a t').toList E = l ∧ (get a t').capacity = c) ↔
        RoomGranted E L d items.length ∧ l = d.toList E ++ items ∧ c = roomFor E d items.length) := by
    intro m h l c
    constructor
    · intro hends
      have hg := h.granted (ends_mono hends fun _ _ _ => trivial)
      obtain ⟨_, _, -, ⟨rfl, rfl⟩, ha⟩ := hends.unique (h.ends hg)
      exact ⟨hg, ha.contains.toList_eq, ha.capacity_eq⟩
    · rintro ⟨hg, rfl, rfl⟩
      exact ends_mono (h.ends hg) fun _ _ ha => ⟨ha.contains.toList_eq, ha.capacity_eq⟩
  exact fun l c => (hiff h l c).trans (hiff h' l c).symm

theorem Appended.trans {d₁ d' : SliceDeque β} {us : List T} {c c' : Nat} (h : Appended E d us c d₁) (h' : Appended E d₁ vs c' d') :
    Appended E d (us ++ vs) c' d' := by
  refine ⟨⟨h'.contains.wf, ?_⟩, h'.capacity_eq⟩
  rw [h'.contains.toList_eq, h.contains.toList_eq, List.append_assoc]

theorem Appended.len_eq {d' : SliceDeque β} {c : Nat} (h : Appended E d items c d') :
    d'.elems.len = d.elems.len + items.length := by
  rw [← toList_length (E := E), h.contains.toList_eq, List.length_append, toList_length]

theorem Stored.appended {w : World T} {c : Nat} (h : Stored E ⟨d, w⟩ s' v c) : Appended E d [v] c s'.self :=
  ⟨⟨h.effect.wf, h.effect.toList_eq⟩, h.capacity_eq⟩

/-! ## The loop for all iterators -/

section StoreAll
variable {store : Nat → T → DeqM T β Unit} {ahead : Nat → Nat} (hstore : ∀ k, Stores E L (store k) (ahead k))
include hstore

theorem ends_storeAll_room (items : List T) (h : WF E s.self) (hroom : s.self.elems.len + items.length ≤ s.self.capacity) :
    Ends (storeAll store k items) s fun _ s' => Appended E s.self items s.self.capacity s'.self := by
  induction items generalizing k s with
  | nil => exact ends_pure.mpr ⟨⟨h, (List.append_nil _).symm⟩, rfl⟩
  | cons v rest ih =>
    rw [List.length_cons] at hroom
    rw [storeAll, ends_bind, ends_produce, ends_bind]
    apply ends_mono ((hstore (k + 1)).room ⟨s.self, s.world.produce [v]⟩ v h (by dsimp only; omega))
    intro _ s₁ hs₁
    have hone := hs₁.appended
    have hlen := hone.len_eq
    have hcap : s₁.self.capacity = s.self.capacity := hone.capacity_eq
    rw [List.length_singleton] at hlen
    have hrest := ih (k := k + 1) hone.contains.wf (by omega)
    rw [hcap] at hrest
    exact ends_mono hrest fun _ s' hs' => hone.trans hs'

/-- When the hints are exact the one request is for all items, wherever the loop is when the deque is full. -/
theorem ends_storeAll_grow (h : WF E s.self) (hlt : s.self.capacity < s.self.elems.len + items.length)
    (hahead : ∀ j, 0 < j → j ≤ items.length → ahead (k + j) = items.length - j)
    (hg : Granted E L (max (s.self.elems.len + items.length) (2 * s.self.capacity))) :
    Ends (storeAll store k items) s fun _ s' =>
      Appended E s.self items (capFor E (max (s.self.elems.len + items.length) (2 * s.self.capacity))) s'.self := by
  have hle := h.len_le
  induction items generalizing k s with
  | nil =>
    rw [List.length_nil] at hlt
    omega
  | cons v rest ih =>
    rw [List.length_cons] at hlt hahead hg ⊢
    rw [storeAll, ends_bind, ends_produce, ends_bind]
    by_cases hfull : s.self.elems.len = s.self.capacity
    · have hwanted : wanted s.self (ahead (k + 1)) = max (s.self.elems.len + (rest.length + 1)) (2 * s.self.capacity) := by
        rw [wanted, hahead 1 Nat.one_pos (by omega)]
        congr 1
      apply ends_mono ((hstore (k + 1)).full ⟨s.self, s.world.produce [v]⟩ v h hfull (by dsimp only; rwa [hwanted]))
      intro _ s₁ hs₁
      rw [hwanted] at hs₁
      have hone := hs₁.appended
      have hlen := hone.len_eq
      have hcap := hone.capacity_eq
      have hround := hg.le_capFor
      rw [List.length_singleton] at hlen
      have hrest := ends_storeAll_room hstore (k := k + 1) rest hone.contains.wf (by omega)
      rw [hcap] at hrest
      exact ends_mono hrest fun _ s' hs' => hone.trans hs'
    · apply ends_mono ((hstore (k + 1)).room ⟨s.self, s.world.produce [v]⟩ v h (by dsimp only; omega))
      intro _ s₁ hs₁
      have hone := hs₁.appended
      have hlen := hone.len_eq
      have hcap : s₁.self.capacity = s.self.capacity := hone.capacity_eq
      rw [List.length_singleton] at hlen
      have hsum : s₁.self.elems.len + rest.length = s.self.elems.len + (rest.length + 1) := by omega
      have hahead' : ∀ j, 0 < j → j ≤ rest.length → ahead (k + 1 + j) = rest.length - j := by
        intro j hj hji
        rw [Nat.add_assoc, Nat.add_comm 1 j, hahead (j + 1) (Nat.succ_pos _) (by omega)]
        omega
      have hrest := ih (k := k + 1) hone.contains.wf (by omega) hahead' (by rwa [hsum, hcap]) hone.contains.wf.len_le
      rw [hsum, hcap] at hrest
      exact ends_mono hrest fun _ s' hs' => hone.trans hs'

end StoreAll

/-- The hints are exact before and after every item. -/
def ExactHint (hint : Hint) (n : Nat) : Prop := ∀ k ≤ n, hint k = (n - k, some (n - k))

theorem ExactHint.expected_eq (h : ExactHint hint n) (hk : k ≤ n) : expected hint k = n - k := by
  rw [expected, h k hk, Option.getD_some]

theorem appends_extend (hlim : Limited E L) (h : WF E s.self) (hexact : ExactHint hint items.length) :
    Appends E L changed s.self items (extend E hint (items.map some)) s := by
  have hstore : ∀ k, Stores E L (extendOne E (hint k)) (expected hint k) := fun k => stores_extendOne hlim (hint k)
  have hahead : ∀ j, 0 < j → j ≤ items.length → expected hint (0 + j) = items.length - j := by
    intro j _ hj
    rw [Nat.zero_add, hexact.expected_eq hj]
  have hround : ∀ m, Granted E L m → m ≤ capFor E m := fun _ hg => hg.le_capFor
  have hle := h.len_le
  rw [extend, extendDesugared_eq]
  constructor
  · intro hends
    rw [storeAll_iff hstore h fun _ _ => trivial,
      Growth.affordable_iff_once (fun j hj hji => (hahead j hj hji).ge) hle hround] at hends
    refine (Nat.lt_or_ge s.self.capacity (s.self.elems.len + items.length)).elim (fun hlt => ?_) .inl
    right
    rcases hends with hroom | hg
    · omega
    · rw [Nat.zero_add, hexact.expected_eq (by omega)] at hg
      rwa [show s.self.capacity + (items.length - (s.self.capacity - s.self.elems.len + 1)) + 1 =
        s.self.elems.len + items.length by omega] at hg
  · intro hg
    rw [roomFor]
    by_cases hroom : s.self.elems.len + items.length ≤ s.self.capacity
    · rw [if_pos hroom]
      exact ends_storeAll_room hstore items h hroom
    · rw [if_neg hroom]
      exact ends_storeAll_grow hstore h (by omega) hahead (hg.resolve_left hroom)

/-! ## One reservation and a loop without checks -/

theorem growTarget_grows (h : WF E d) (hlt : d.capacity < d.elems.len + n) :
    growTarget d n = max (d.elems.len + n) (2 * d.capacity) := by
  have hcap := h.cap_lt
  have hbounds : 2 * isizeBound = usizeBound := rfl
  rw [growTarget, if_pos hlt, Nat.min_eq_left (by omega)]

theorem ends_reserve_room (hlim : Limited E L) (h : WF E s.self) (hg : RoomGranted E L s.self n) :
    Ends (reserve E n) s fun _ s₁ => Appended E s.self [] (roomFor E s.self n) s₁.self ∧ s.self.elems.len + n ≤ s₁.self.capacity := by
  by_cases hroom : s.self.elems.len + n ≤ s.self.capacity
  · rw [roomFor, if_pos hroom]
    refine ends_iff.mpr ⟨exact_reserve_room h hroom, wp_reserve_room h hroom ⟨⟨⟨h, ?_⟩, rfl⟩, hroom⟩⟩
    exact (List.append_nil _).symm
  · have hlt : s.self.capacity < s.self.elems.len + n := by omega
    have hgranted := hg.resolve_left hroom
    have hfit := hgranted.1
    rw [roomFor, if_neg hroom, reserve, ends_bind, tryReserve, ends_bind, ends_len h, ends_bind]
    apply ends_mono (ends_growPolicy h (by omega))
    intro _ _ hgrow
    rw [hgrow.1, hgrow.2, growTarget_grows h hlt, ends_bind]
    apply ends_mono (ends_reserveCapacity hlim h (by omega) hgranted)
    intro r s₁ hs₁
    obtain ⟨rfl, hgrown, hcap⟩ := hs₁
    have hge := hgrown.cap_ge
    rw [ends_bind, ends_self, ends_bind, ends_debugAssert (by omega), ends_pure, ends_unwrapAlloc]
    refine ⟨rfl, ⟨⟨hgrown.wf, ?_⟩, hcap⟩, by omega⟩
    rw [hgrown.toList_eq, List.append_nil]

theorem granted_of_reserve (hlim : Limited E L) (h : WF E s.self) (hends : Ends (reserve E n) s fun _ _ => True) :
    RoomGranted E L s.self n := by
  refine (Nat.lt_or_ge s.self.capacity (s.self.elems.len + n)).elim (fun hlt => ?_) .inl
  obtain ⟨_, s₁, -, hg⟩ := hends.wp (wp_reserve h)
  rw [growTarget_grows h hlt] at hg
  exact .inr (granted_of_grown hlim hg (by omega))

/-- After the reservation there is room for all items. -/
theorem appends_reserve {fill : DeqM T β Unit} (hlim : Limited E L) (h : WF E s.self)
    (hfill : ∀ s₁, WF E s₁.self → s₁.self.elems.len + items.length ≤ s₁.self.capacity →
      Ends fill s₁ fun _ s' => Appended E s₁.self items s₁.self.capacity s'.self) :
    Appends E L changed s.self items (do
      reserve E items.length
      fill) s := by
  constructor
  · intro hends
    rw [ends_bind] at hends
    exact granted_of_reserve hlim h (ends_mono hends fun _ _ _ => trivial)
  · intro hg
    rw [ends_bind]
    apply ends_mono (ends_reserve_room hlim h hg)
    rintro _ s₁ ⟨hs₁, hroom⟩
    have hlen := hs₁.len_eq
    rw [List.length_nil] at hlen
    apply ends_mono (hfill s₁ hs₁.contains.wf (by omega))
    intro _ s' hs'
    have hall := hs₁.trans hs'
    rw [hs₁.capacity_eq] at hall
    exact hall

theorem ends_extendTrustedLoop (h : WF E s.self) (hroom : s.self.elems.len + items.length ≤ s.self.capacity) :
    Ends (extendTrustedLoop E s.self.elems.len (items.map some)) s fun _ s' =>
      Appended E s.self items s.self.capacity s'.self := by
  have hloop : Takes E (items.map some) (extendTrustedLoop E s.self.elems.len (items.map some)) s :=
    takes_extendTrustedLoop h rfl (by rwa [List.length_map])
  refine ends_iff.mpr ⟨hloop.exact, wp_mono hloop.wp ?_ ?_⟩
  · rintro _ s' ⟨vs, hvs, hs'⟩
    obtain rfl : items = vs := List.map_injective_iff.mpr (Option.some_injective T) hvs
    exact ⟨hs'.change.contains, hs'.capacity_eq⟩
  · rintro p s' ⟨-, vs, rest, hvs, -⟩
    have hnone : none ∈ items.map some := by
      rw [hvs]
      exact List.mem_append_right _ List.mem_cons_self
    obtain ⟨v, -, hv⟩ := List.mem_map.mp hnone
    exact absurd hv (Option.some_ne_none v)

theorem appends_extendTrusted (hlim : Limited E L) (h : WF E s.self) (hk : hint k = (items.length, some items.length)) :
    Appends E L changed s.self items (extendTrusted E hint k (items.map some)) s := by
  have hreserve : Appends E L changed s.self items (do
      reserve E items.length
      let l ← len E
      extendTrustedLoop E l (items.map some)) s := by
    apply appends_reserve hlim h
    intro s₁ hwf hroom
    rw [ends_bind, ends_len hwf]
    exact ends_extendTrustedLoop hwf hroom
  rw [extendTrusted_of_exact hk]
  constructor
  · intro hends
    rw [ends_bind, ends_debugAssert rfl] at hends
    exact hreserve.granted hends
  · intro hg
    rw [ends_bind, ends_debugAssert rfl]
    exact hreserve.ends hg

/-! ## Copies of a slice -/

/-- The slots from `i` on hold the values; all others hold what they held. -/
structure Copied (E : Env T β) (i : Nat) (vs : List T) (d d' : SliceDeque β) : Prop where
  wf : WF E d'
  rewritten : Rewritten d d'
  inside : ∀ (j : Nat) (hj : j < vs.length), d'.slot E (i + j : Nat) = vs[j]
  outside : ∀ j : Nat, j < d.capacity → j < i ∨ i + vs.length ≤ j → d'.slot E j = d.slot E j

theorem ends_copyFromSlice (h : WF E s.self) (hcap : i + vs.length ≤ s.self.capacity) :
    Ends (copyFromSlice E i vs) s fun _ s' => Copied E i vs s.self s'.self := by
  induction vs generalizing i s with
  | nil => exact ends_pure.mpr ⟨h, .refl _, fun j hj => absurd hj (Nat.not_lt_zero j), fun _ _ _ => rfl⟩
  | cons v vs ih =>
    rw [List.length_cons] at hcap
    have hwrite : Ends (writeSlot E i v) ⟨s.self, s.world.produce [v]⟩ fun _ s₁ => WF E s₁.self ∧ Rewritten s.self s₁.self ∧
        ∀ j : Nat, j < s.self.capacity → s₁.self.slot E j = if j = i then v else s.self.slot E j := by
      refine ends_iff.mpr ⟨exact_writeSlot, wp_writeSlot h (by omega) (by dsimp only; omega) fun d' hwf hr hs => ⟨hwf, hr, ?_⟩⟩
      intro j hj
      simpa only [Nat.cast_inj] using hs j (by omega) (by exact_mod_cast hj)
    rw [copyFromSlice, ends_bind, ends_produce, ends_bind]
    apply ends_mono hwrite
    rintro _ s₁ ⟨hwf, hr, hslot⟩
    have hcap₁ := hr.capacity_eq
    apply ends_mono (ih hwf (by omega))
    intro _ s' hs'
    refine ⟨hs'.wf, hr.trans hs'.rewritten, fun j hj => ?_, fun j hj hout => ?_⟩
    · cases j with
      | zero =>
        rw [Nat.add_zero, hs'.outside i (by omega) (by omega), hslot i (by omega), if_pos rfl]
        rfl
      | succ j =>
        rw [List.length_cons] at hj
        rw [show i + (j + 1) = i + 1 + j by omega, hs'.inside j (by omega)]
        rfl
    · rw [List.length_cons] at hout
      rw [hs'.outside j (by omega) (by omega), hslot j hj, if_neg (by omega)]

/-- Behind the elements of `d` a deque shows the values that were copied there. -/
theorem toList_copied {d' : SliceDeque β} (hlen : d'.elems.len = d.elems.len + vs.length)
    (hin : ∀ (j : Nat) (hj : j < vs.length), d'.slot E (d.elems.len + j : Nat) = vs[j])
    (hout : ∀ j : Nat, j < d.elems.len → d'.slot E j = d.slot E j) : d'.toList E = d.toList E ++ vs := by
  apply toList_eq_of_getElem
  · rw [List.length_append, toList_length, hlen]
  · intro j hj
    rw [List.length_append, toList_length] at hj
    rw [List.getElem_append]
    split
    · rename_i hlt
      rw [toList_length] at hlt
      rw [hout j hlt, toList_getElem]
    · rename_i hge
      rw [toList_length] at hge
      have hj' := hin (j - d.elems.len) (by omega)
      rw [show d.elems.len + (j - d.elems.len) = j by omega] at hj'
      simp only [toList_length]
      exact hj'

theorem ends_moveTailUnchecked (h : WF E s.self) (hroom : s.self.elems.len + n ≤ s.self.capacity) :
    Ends (moveTailUnchecked E (asIsize n)) s fun _ s' => s' = ⟨s.self.withLen (s.self.elems.len + n), s.world⟩ := by
  have hcap := h.cap_lt
  have hsum : ((s.self.elems.len + n : Nat) : Int) = s.self.elems.len + asIsize n := by
    rw [asIsize_of_lt (by omega)]
    push_cast
    rfl
  exact ends_iff.mpr ⟨exact_moveTailUnchecked h hsum hroom, wp_moveTailUnchecked h hsum hroom rfl⟩

theorem appends_extendSlice (hlim : Limited E L) (h : WF E s.self) : Appends E L changed s.self items (extendSlice E items) s := by
  apply appends_reserve hlim h
  intro s₁ hwf hroom
  rw [ends_bind, ends_len hwf, ends_bind]
  apply ends_mono (ends_moveTailUnchecked hwf hroom)
  rintro _ _ rfl
  rw [ends_bind, ends_self, ends_bind, ends_assert]
  refine ⟨Nat.add_sub_cancel_left _ _, ?_⟩
  apply ends_mono (ends_copyFromSlice (s := ⟨s₁.self.withLen (s₁.self.elems.len + items.length), s₁.world⟩) (hwf.withLen hroom) hroom)
  intro _ s' hs'
  have hlen : s'.self.elems.len = s₁.self.elems.len + items.length := by rw [hs'.rewritten.elems_eq, withLen]
  have hle := hwf.len_le
  refine ⟨⟨hs'.wf, toList_copied hlen hs'.inside fun j hj => ?_⟩, hs'.rewritten.capacity_eq⟩
  exact hs'.outside j (lt_of_lt_of_le hj hle) (.inl hj)

/-! ## Collecting -/

theorem roomGranted_new (hn : 0 < n) : RoomGranted E L (new E : SliceDeque β) n ↔ Granted E L n := by
  have hlen : (new E : SliceDeque β).elems.len = 0 := rfl
  rw [RoomGranted, hlen, Nat.zero_add]
  by_cases hs : E.layout.size = 0
  · have hcap : (new E : SliceDeque β).capacity = isizeBound - 1 := Buffer.ok_new.cap_zst hs
    have hbounds : 2 * isizeBound = usizeBound := rfl
    rw [hcap]
    constructor
    · rintro (hle | hg)
      · exact ⟨by omega, fun h => absurd hs h⟩
      · have hfit := hg.1
        exact ⟨by omega, fun h => absurd hs h⟩
    · intro hg
      have hfit := hg.1
      exact .inl (by omega)
  · have hcap : (new E : SliceDeque β).capacity = 0 := Buffer.cap_new hs
    rw [hcap, Nat.mul_zero, Nat.max_zero]
    exact or_iff_right (by omega)

theorem roomFor_new (hg : Granted E L n) (hn : 0 < n) : roomFor E (new E : SliceDeque β) n = capFor E n := by
  have hlen : (new E : SliceDeque β).elems.len = 0 := rfl
  rw [roomFor, hlen, Nat.zero_add]
  by_cases hs : E.layout.size = 0
  · have hcap : (new E : SliceDeque β).capacity = isizeBound - 1 := Buffer.ok_new.cap_zst hs
    have hbounds : 2 * isizeBound = usizeBound := rfl
    have hfit := hg.1
    rw [hcap, if_pos (by omega), capFor, Buffer.lenFor, if_pos hs, Buffer.emptyLen, if_pos hs]
    omega
  · have hcap : (new E : SliceDeque β).capacity = 0 := Buffer.cap_new hs
    rw [hcap, if_neg (by omega), Nat.mul_zero, Nat.max_zero]

theorem appends_fromIter (hlim : Limited E L) (hexact : ExactHint hint items.length) :
    Appends E L returned (new E) items (fromIter E ⟨items.map some, 0, hint⟩) t := by
  cases items with
  | nil => exact ⟨fun _ => .inl (Nat.zero_le _), fun _ => ends_pure.mpr ⟨⟨wf_new, rfl⟩, (if_pos (Nat.zero_le _)).symm⟩⟩
  | cons v rest =>
    have hpos : 0 < (v :: rest).length := Nat.succ_pos _
    have hone : (hint 1).1 + 1 = (v :: rest).length := by
      rw [hexact 1 hpos, Nat.sub_add_cancel hpos]
    constructor
    · intro hends
      have hfrom : wp (fromIter E ⟨(v :: rest).map some, 0, hint⟩) t (fun d _ => d.toList E = v :: rest) fun p _ => Refusal E p :=
        wp_mono (wp_fromIter rfl) (fun _ _ hd => hd.2.1) fun _ _ => id
      have hlist := hends.wp hfrom
      have hg := ((fromIter_iff hlim).mp hlist).1
      have hfit := hg.1
      rw [hone] at hg hfit
      rw [roomGranted_new hpos]
      rwa [Nat.min_eq_left (by unfold usizeBound at *; omega)] at hg
    · intro hroom
      have hg := (roomGranted_new hpos).mp hroom
      have hfit := hg.1
      have hround := hg.le_capFor
      have hlower : min ((hint 1).1 + 1) (usizeBound - 1) = (v :: rest).length := by omega
      simp only [fromIter, List.map_cons]
      rw [ends_bind, ends_produce, hlower, ends_bind, ends_onPanic]
      apply ends_mono (ends_withCapacity hlim hg)
      rintro d t₁ ⟨hc, hstart, hcap⟩
      have hlen : d.elems.len = 0 := by rw [hstart]
      have hstore := ends_writeBack (s := ⟨d, t₁.world⟩) (v := v) hc.wf (by dsimp only; omega)
      simp only [ends_bind, hlen, Nat.cast_zero] at hstore
      simp only [ends_bind, ends_onLocal, ends_onPanic, ends_pure]
      apply ends_mono hstore
      intro _ s₁ hmove
      apply ends_mono hmove
      intro _ s₂ hs₂
      have hfirst := hs₂.appended
      have hlen₂ := hfirst.len_eq
      have hcap₂ := hfirst.capacity_eq
      rw [List.length_singleton, hlen] at hlen₂
      rw [hcap] at hcap₂
      rw [List.length_cons] at hround hcap₂
      rw [extendDesugared_eq]
      have hrest := ends_storeAll_room (fun k => stores_extendOne hlim (hint k)) (k := 1) rest hfirst.contains.wf (by omega)
      apply ends_mono hrest
      intro _ s' hs'
      have hall := (hfirst.trans hs').contains
      rw [hc.toList_eq] at hall
      rw [roomFor_new hg hpos, ← hcap]
      exact ⟨hall, hs'.capacity_eq.trans hfirst.capacity_eq⟩

theorem appends_fromIterTrusted (hlim : Limited E L) (hk : hint k = (items.length, some items.length)) :
    Appends E L returned (new E) items (fromIterTrusted E ⟨items.map some, k, hint⟩) t := by
  have hextend := appends_extendTrusted (s := (⟨new E, t.world⟩ : Frame (SliceDeque β) T)) hlim wf_new hk
  constructor
  · intro hends
    rw [fromIterTrusted, ends_bind, ends_onLocal, ends_onPanic] at hends
    exact hextend.granted (ends_mono hends fun _ _ _ => trivial)
  · intro hg
    rw [fromIterTrusted, ends_bind, ends_onLocal, ends_onPanic]
    exact ends_mono (hextend.ends hg) fun _ _ hs' => ends_pure.mpr hs'

/-! ## Bytes -/

/-- `Copy` values are cloned bitwise and have no destructor. -/
structure Copyable (E : Env T β) : Prop where
  cloneOf_eq : ∀ k v, E.cloneOf k v = some v
  no_panic : ¬ DestructorsPanic E

theorem Copyable.madeFrom_eq (h : Copyable E) (v : T) (n k : Nat) : madeFrom (fun k => E.cloneOf k v) k n = List.replicate n v := by
  induction n generalizing k with
  | zero => rfl
  | succ n ih =>
    rw [madeFrom, h.cloneOf_eq, List.replicate_succ]
    exact congrArg _ (ih (k + 1))

theorem ends_extendWithLoop_copies (hcopy : Copyable E) (h : WF E s.self) (hroom : s.self.elems.len + n ≤ s.self.capacity) :
    Ends (extendWithLoop E (fun k => E.cloneOf k v) n s.self.elems.len) s fun _ s' =>
      Appended E s.self (List.replicate n v) s.self.capacity s'.self := by
  have hloop : Fills E (fun k => E.cloneOf k v) n (extendWithLoop E (fun k => E.cloneOf k v) n s.self.elems.len) s :=
    fills_extendWithLoop n _ s h rfl hroom
  rw [Fills, hcopy.madeFrom_eq, List.length_replicate] at hloop
  refine ends_iff.mpr ⟨hloop.exact, wp_mono hloop.wp ?_ fun p s' hp => absurd hp.2.2 (Nat.lt_irrefl n)⟩
  exact fun _ s' hs' => ⟨hs'.1.change.contains, hs'.1.capacity_eq⟩

/-- `extend_with` for a value that is copied, where there is room. -/
theorem ends_extendWithElement (hcopy : Copyable E) (h : WF E s.self) (hroom : s.self.elems.len + n ≤ s.self.capacity) :
    Ends (extendWithElement E n v) s fun _ s' => Appended E s.self (List.replicate n v) s.self.capacity s'.self := by
  have hreserve : Ends (reserve E n) s fun _ s' => s' = s :=
    ends_iff.mpr ⟨exact_reserve_room h hroom, wp_reserve_room h hroom rfl⟩
  rw [extendWithElement]
  cases n with
  | zero =>
    rw [if_pos rfl, ends_bind, ends_onPanic]
    apply ends_mono hreserve
    rintro _ _ rfl
    refine ends_iff.mpr ⟨exact_dropValue, wp_dropValue ⟨⟨h, (List.append_nil _).symm⟩, rfl⟩ fun hd => ?_⟩
    exact absurd ⟨_, _, hd⟩ hcopy.no_panic
  | succ n =>
    rw [if_neg (Nat.succ_ne_zero n), ends_bind, ends_onPanic, ends_bind]
    apply ends_mono hreserve
    rintro _ _ rfl
    rw [ends_bind, ends_len h, ends_bind]
    apply ends_mono (ends_extendWithLoop_copies hcopy h (by omega))
    intro _ s₁ hs₁
    have hlen := hs₁.len_eq
    have hcap := hs₁.capacity_eq
    rw [List.length_replicate, Nat.add_sub_cancel] at hlen
    rw [ends_pure, Nat.add_sub_cancel, ← hlen]
    apply ends_mono (ends_writeBack (v := v) hs₁.contains.wf (by omega))
    intro _ s' hs'
    have hall := hs₁.trans hs'.appended
    rwa [← List.replicate_succ', hcap] at hall

theorem ends_fromElemBytes {w : World T} (h : WF E d) (hlen : d.elems.len = 0) (hroom : n ≤ d.capacity) :
    Ends (do
      copyFromSlice E 0 (List.replicate n v)
      moveTailUnchecked E (asIsize n)) ⟨d, w⟩ fun _ s' => Appended E d (List.replicate n v) d.capacity s'.self := by
  have hn : (List.replicate n v).length = n := List.length_replicate
  rw [ends_bind]
  apply ends_mono (ends_copyFromSlice (s := ⟨d, w⟩) h (by rw [hn, Nat.zero_add]; exact hroom))
  intro _ s₁ hs₁
  have hcap : s₁.self.capacity = d.capacity := hs₁.rewritten.capacity_eq
  have hzero : s₁.self.elems.len = 0 := by rw [hs₁.rewritten.elems_eq]; exact hlen
  apply ends_mono (ends_moveTailUnchecked hs₁.wf (by omega))
  rintro _ _ rfl
  refine ⟨⟨hs₁.wf.withLen (by omega), toList_copied ?_ ?_ ?_⟩, hcap⟩
  · rw [hn, hlen, withLen, hzero]
  · intro j hj
    rw [hlen]
    exact hs₁.inside j hj
  · intro j hj
    omega

/-- A method appends `items` to a new deque with room for them. -/
theorem ends_filledNew {m : DeqM T β Unit} {l : List T} {c : Nat} (hm : ∀ d (w : World T), WF E d → d.elems.len = 0 → n ≤ d.capacity →
    Ends m ⟨d, w⟩ fun _ s' => Appended E d items d.capacity s'.self) :
    Ends (do
      let d ← withCapacity E n
      let r ← onLocal d m
      pure r.2) t (fun d' _ => d'.toList E = l ∧ d'.capacity = c) ↔
    Ends (withCapacity E n) t fun d _ => l = d.toList E ++ items ∧ c = d.capacity := by
  rw [ends_bind]
  have hroom : ∀ {R : SliceDeque β → Frame X T → Prop}, Ends (withCapacity E n) t R →
      Ends (withCapacity E n) t fun d t' => Ends m ⟨d, t'.world⟩ (fun _ s' => Appended E d items d.capacity s'.self) ∧ R d t' := by
    intro R hends
    apply ends_mono ((hends.wp wp_withCapacity).unique hends)
    rintro d t' ⟨⟨hc, hcap, hstart, -⟩, hr⟩
    exact ⟨hm d t'.world hc.wf (by rw [hstart]) hcap, hr⟩
  constructor
  · intro hends
    apply ends_mono (hroom hends)
    rintro d t' ⟨hd, hr⟩
    rw [ends_bind, ends_onLocal] at hr
    obtain ⟨_, s', -, ha, hlc⟩ := hd.unique hr
    obtain ⟨rfl, rfl⟩ := ends_pure.mp hlc
    exact ⟨ha.contains.toList_eq, ha.capacity_eq⟩
  · intro hends
    apply ends_mono (hroom hends)
    rintro d t' ⟨hd, rfl, rfl⟩
    rw [ends_bind, ends_onLocal]
    exact ends_mono hd fun _ s' ha => ends_pure.mpr ⟨ha.contains.toList_eq, ha.capacity_eq⟩

/-- `from_elem` for all types, of a value that is copied. -/
theorem ends_fromElem_copies {l : List T} {c : Nat} (hcopy : Copyable E) :
    Ends (fromElem E v n) t (fun d' _ => d'.toList E = l ∧ d'.capacity = c) ↔
      Ends (withCapacity E n) t fun d _ => l = d.toList E ++ List.replicate n v ∧ c = d.capacity := by
  rw [fromElem, ends_bind, ends_onPanic, ← ends_bind]
  apply ends_filledNew
  intro d w hwf hlen hcap
  exact ends_onPanic.mpr (ends_extendWithElement (s := ⟨d, w⟩) hcopy hwf (by dsimp only; omega))

/-- Both `from_elem`s make the same of the buffer that they get. -/
theorem agree_fromElem (hcopy : Copyable E) : Agree E returned (fromElemBytes E v n) (fromElem E v n) t :=
  fun _ _ => (ends_filledNew fun _ _ hwf hlen hcap => ends_fromElemBytes hwf hlen hcap).trans (ends_fromElem_copies hcopy).symm

/-- Where requests are granted up to a limit, the specialised paths return on the same states as the others, with the
same contents in the same capacity. -/
theorem specialised_agree (v : T) (n : Nat) (t : Frame X T) (hlim : Limited E L) (h : WF E s.self)
    (hexact : ExactHint hint items.length) :
    Agree E changed (extendTrusted E hint 0 (items.map some)) (extend E hint (items.map some)) s ∧
    Agree E returned (fromIterTrusted E ⟨items.map some, 0, hint⟩) (fromIter E ⟨items.map some, 0, hint⟩) t ∧
    Agree E changed (extendSlice E items) (extend E hint (items.map some)) s ∧
    (Copyable E → Agree E returned (fromElemBytes E v n) (fromElem E v n) t) := by
  have hk : hint 0 = (items.length, some items.length) := hexact 0 (Nat.zero_le _)
  have hextend := appends_extend hlim h hexact
  exact ⟨(appends_extendTrusted hlim h hk).agree hextend, (appends_fromIterTrusted hlim hk).agree (appends_fromIter hlim hexact),
    (appends_extendSlice hlim h).agree hextend, agree_fromElem⟩

theorem sample_specialised :
    let E := generous false 3 (by decide)
    let hint : Hint := fun k => (3 - k, some (3 - k))
    let s : Frame (SliceDeque Nat) Nat := ⟨new E, .start⟩
    let t : Frame Unit Nat := ⟨(), .start⟩
    Agree E changed (extendTrusted E hint 0 [some 10, some 20, some 30]) (extend E hint [some 10, some 20, some 30]) s ∧
      Agree E returned (fromIterTrusted E ⟨[some 10, some 20, some 30], 0, hint⟩)
        (fromIter E ⟨[some 10, some 20, some 30], 0, hint⟩) t ∧
      Agree E changed (extendSlice E [10, 20, 30]) (extend E hint [some 10, some 20, some 30]) s ∧
      Agree E returned (fromElemBytes E 7 5) (fromElem E 7 5) t := by
  intro E hint s t
  have hcopy : Copyable E := ⟨fun _ _ => rfl, fun hd => by obtain ⟨_, _, hp⟩ := hd; cases hp⟩
  have hexact : ExactHint hint [10, 20, 30].length := fun k _ => rfl
  obtain ⟨hextend, hcollect, hslice, helem⟩ := specialised_agree (E := E) (s := s) 7 5 t limited_generous wf_new hexact
  exact ⟨hextend, hcollect, hslice, helem hcopy⟩

end SliceDeque

end Sdeq
