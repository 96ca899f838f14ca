import SliceDeque.Extend
import SliceDeque.IntoIter

/-!
# Collecting the items of a consumed deque

With the feature `unstable`, `collect` on an `IntoIter` has an implementation
of its own: it puts the deque together again when the front cursor is at the
start of the buffer, and otherwise copies the items into a new deque. It should
make what `from_iter_default` makes.
-/

set_option autoImplicit false

namespace Sdeq
open Exec

namespace IntoIter
variable {T β X : Type} (E : Env T β)

/-- Call a method of the deque that is extended, or of the iterator that it is extended by. -/
def onDeque {α : Type} (m : DeqM T β α) : Method T (SliceDeque β × IntoIter β) α := onPart Prod.fst (fun p d => (d, p.2)) m

def onIter {α : Type} (m : Method T (IntoIter β) α) : Method T (SliceDeque β × IntoIter β) α :=
  onPart Prod.snd (fun p it => (p.1, it)) m

/-- `elems` -/
def elems : Method T (IntoIter β) Slice := do
  let it ← self
  let bytes ← usizeSub E (asUsize it.end_) (asUsize it.ptr)
  if E.layout.size = 0 then throw .division
  else pure ⟨it.ptr, bytes / E.layout.size⟩

/-- `spec_extend` for `IntoIter`. The iterator is dropped at the end, or by the unwinding. -/
def specExtend : Method T (SliceDeque β × IntoIter β) Unit := do
  onPanic (do
    let p ← self
    onDeque (SliceDeque.appendElements E p.2.buf ⟨p.2.ptr, (sizeHint E p.2).1⟩)
    modify fun s => { s with self := (s.self.1, { s.self.2 with ptr := s.self.2.end_ }) }) (onIter (drop E))
  onIter (drop E)

/-- `from_iter` for `IntoIter` -/
def fromIter (it : IntoIter β) : Method T X (SliceDeque β) :=
  if it.buf.mirror.base = it.ptr then do
    let r ← onLocal it (onPanic (do
      let elems ← elems E
      SliceDeque.fromRawParts E it.buf it.cap elems) (drop E))
    pure r.1
  else do
    let r ← onLocal (SliceDeque.new E, it) (onPanic (specExtend E) (onDeque (SliceDeque.dropSelf E)))
    pure r.2.1

/-- The loop of `extend_desugared`, with at most so many items to go. -/
def extendItems : Nat → Method T (SliceDeque β × IntoIter β) Unit
  | 0 => pure ()
  | todo + 1 => do
    let r ← onIter (next E)
    match r with
    | none => pure ()
    | some element => do
      let p ← self
      onDeque (SliceDeque.extendOne E (sizeHint E p.2) element)
      extendItems todo

def extendDesugared : Method T (SliceDeque β × IntoIter β) Unit := do
  let p ← self
  onPanic (extendItems E (remaining E p.2)) (onIter (drop E))
  onIter (drop E)

/-- `from_iter_default`; `extend` is the `spec_extend` that it calls: `specExtend` with the feature
`unstable`, `extendDesugared` without. -/
def fromIterDefault (extend : Method T (SliceDeque β × IntoIter β) Unit) (it : IntoIter β) : Method T X (SliceDeque β) := do
  let r ← onLocal it (next E)
  match r.1 with
  | none => do
    let _ ← onLocal r.2 (drop E)
    pure (SliceDeque.new E)
  | some element => do
    let deque ← onPanic (SliceDeque.withCapacity E (min ((sizeHint E r.2).1 + 1) (usizeBound - 1))) (do
      dropValue E element
      let _ ← onLocal r.2 (drop E)
      pure ())
    let q ← onLocal (deque, r.2) (onPanic (do
      onPanic (onDeque do
        SliceDeque.writeSlot E 0 element
        SliceDeque.moveTailUnchecked E 1) (onIter (drop E))
      extend) (onDeque (SliceDeque.dropSelf E)))
    pure q.2.1

/-- The deque owns the items in `l`, nothing was destroyed, and every mapping belongs to the deque or
was given back. `from_iter_default` makes the same contents, if it gets memory. -/
structure Recollected (E : Env T β) (it : IntoIter β) (l : List T) (t : Frame X T) (d : SliceDeque β) (t' : Frame X T) :
    Prop where
  wf : SliceDeque.WF E d
  toList_eq : d.toList E = l
  log : Logged t.world t'.world [] []
  trade : ∀ o, Trade t.world (o + it.buffer.regions E) t'.world (o + d.regions E)
  agrees : ∀ extend ∈ [specExtend E, extendDesugared E],
    Lands (fromIterDefault E extend it) t (fun d' _ => d'.toList E = d.toList E) fun p _ => ∃ e, p = .alloc e

/-- When `collect` does not fail: a deque that is put together again has elements with bytes and, where
`from_raw_parts` asserts, is not full; otherwise there is nothing to copy or memory to copy it to. -/
def Recollectable (E : Env T β) (it : IntoIter β) (w : World T) : Prop :=
  if it.buf.mirror.base = it.ptr then E.layout.size ≠ 0 ∧ (E.debug = true → it.remaining E < it.cap)
  else it.remaining E = 0 ∨ E.layout.size = 0 ∨
    ∃ r, E.allocate w.calls (Buffer.byteSize E (2 * it.remaining E)) = .ok r

variable {E} {it : IntoIter β} {w : World T} {t : Frame X T} {s : Frame (IntoIter β) T}

/-! ## Putting the deque together again -/

theorem Ok.distance (h : Ok E it) (hs : E.layout.size ≠ 0) (hpos : 0 ≤ it.ptr) :
    asUsize it.ptr ≤ asUsize it.end_ ∧ (asUsize it.end_ - asUsize it.ptr) / E.layout.size = it.remaining E := by
  have he := h.end_eq
  rw [stride, if_neg hs] at he
  have hnn : (0 : Int) ≤ it.remaining E * E.layout.size := by positivity
  have hdiff : asUsize it.end_ = asUsize it.ptr + it.remaining E * E.layout.size := by
    rw [asUsize, asUsize, if_pos hpos, if_pos (by omega), he, Int.toNat_add hpos hnn]
    rfl
  rw [hdiff]
  refine ⟨Nat.le_add_right _ _, ?_⟩
  rw [Nat.add_sub_cancel_left, Nat.mul_div_cancel _ (Nat.pos_of_ne_zero hs)]

/-- The deque over the buffer and the items of the iterator. -/
def whole (E : Env T β) (it : IntoIter β) : SliceDeque β := ⟨⟨it.ptr, it.remaining E⟩, it.buffer⟩

theorem Ok.wf_whole (h : Ok E it) (hptr : it.buf.mirror.base = it.ptr) : SliceDeque.WF E (it.whole E) := by
  rw [whole, ← hptr]
  refine SliceDeque.wf_start h.buf (h.remaining_le.trans ?_)
  simp [buffer, Buffer.cap]

theorem cap_buffer (it : IntoIter β) : it.buffer.cap = it.cap := by simp [buffer, Buffer.cap]

theorem ends_reuse (h : Ok E it) (hptr : it.buf.mirror.base = it.ptr) {Q : SliceDeque β → Frame X T → Prop} :
    Ends (fromIter E it) t Q ↔ (E.layout.size ≠ 0 ∧ (E.debug = true → it.remaining E < it.cap)) ∧ Q (it.whole E) t := by
  have hbase := h.buf.base_pos
  have hlt := h.buf.cap_lt
  have hle := h.remaining_le
  have hbound : 2 * isizeBound = usizeBound := by decide
  rw [cap_buffer] at hlt
  simp only [fromIter, if_pos hptr, ends_bind, ends_onLocal, ends_onPanic, elems, ends_self, ends_usizeSub, ends_pure]
  by_cases hs : E.layout.size = 0
  · rw [if_pos hs]
    exact iff_of_false (fun hends => not_ends_throw hends.2) fun hq => hq.1.1 hs
  obtain ⟨hsub, hdiv⟩ := h.distance hs (by rw [← hptr]; exact hbase.le)
  simp only [if_neg hs, ends_pure, hdiv, SliceDeque.fromRawParts, Buffer.fromRawParts, ends_bind, ends_debugAssert_iff,
    ends_usize, ends_assert, ends_when, Nat.mul_comm it.cap 2, whole, buffer]
  constructor
  · intro hends
    exact ⟨⟨hs, hends.2.2.1⟩, hends.2.2.2.2.2.2.2 hs⟩
  · intro hq
    have hpos := Nat.pos_of_ne_zero hs
    refine ⟨hsub, fun hd => ?_, hq.1.2, by omega, by omega, hbase.ne', fun h0 => absurd h0 hs, fun _ => hq.2⟩
    have hroom := hq.1.2 hd
    have hbytes : 0 < E.layout.size * it.cap := Nat.mul_pos hpos (by omega)
    rw [SliceDeque.inBounds, hptr]
    refine ⟨le_rfl, ?_⟩
    dsimp only
    have : ((E.layout.size * it.cap : Nat) : Int) = E.layout.size * it.cap := by push_cast; rfl
    omega

/-! ## Moving the items to a new deque -/

theorem ends_drop_empty (h : Ok E s.self) (hz : s.self.remaining E = 0) {Q : Unit → Frame (IntoIter β) T → Prop} :
    Ends (drop E) s Q ↔ Q () ⟨s.self, s.world.unmap (s.self.buffer.regions E)⟩ := by
  have hlt := h.buf.len_lt
  simp only [buffer] at hlt
  apply Ends.at_iff
  apply ends_iff.mpr ⟨exact_drop h, _⟩
  simp only [drop, wp_bind, wp_self, hz, exhaust, wp_pure, wp_usize]
  refine ⟨fun _ => ?_, fun hge => absurd hlt (by omega)⟩
  exact Buffer.wp_fromRawParts h.buf (by omega) (Buffer.wp_drop h.buf rfl)

/-- The iterator after its front cursor was moved to the end. -/
def used (it : IntoIter β) : IntoIter β := { it with ptr := it.end_ }

theorem Ok.used (h : Ok E it) : Ok E it.used ∧ it.used.remaining E = 0 := by
  have hpart := (h.part (i := it.remaining E) (k := 0) le_rfl).1
  rw [Nat.cast_zero, add_zero, ← h.end_eq] at hpart
  exact ⟨hpart, remaining_of_eq (n := 0) (by simp [IntoIter.used])⟩

theorem ends_specExtend {d : SliceDeque β} {Q : Unit → Frame (SliceDeque β × IntoIter β) T → Prop} (h : Ok E it) :
    Ends (specExtend E) ⟨(d, it), w⟩ Q ↔ Ends (SliceDeque.appendElements E it.buf ⟨it.ptr, it.remaining E⟩) ⟨d, w⟩
      fun _ s' => Q () ⟨(s'.self, it.used), s'.world.unmap (it.buffer.regions E)⟩ := by
  obtain ⟨hok, hz⟩ := h.used
  simp only [specExtend, ends_bind, ends_onPanic, ends_self, onDeque, onIter, ends_onPart, ends_modify, sizeHint_eq h]
  have hdrop : ∀ s' : Frame (SliceDeque β) T, Ends (drop E) (⟨it.used, s'.world⟩ : Frame (IntoIter β) T)
      (fun a u => Q a ⟨(s'.self, u.self), u.world⟩) ↔ Q () ⟨(s'.self, it.used), s'.world.unmap (it.buffer.regions E)⟩ :=
    fun s' => ends_drop_empty (s := ⟨it.used, s'.world⟩) hok hz
  constructor
  · exact fun hends => ends_mono hends fun _ s' hs' => (hdrop s').mp hs'
  · exact fun hends => ends_mono hends fun _ s' hs' => (hdrop s').mpr hs'

theorem growTarget_new (hs : E.layout.size ≠ 0) (n : Nat) :
    SliceDeque.growTarget (SliceDeque.new E : SliceDeque β) n = n := by
  have hcap : (SliceDeque.new E : SliceDeque β).capacity = 0 := Buffer.cap_new hs
  rw [SliceDeque.growTarget, hcap]
  simp [SliceDeque.new]

/-- A new deque takes the items exactly if it needs no memory for them or gets it. -/
theorem ends_appendItems_iff (h : Ok E it) :
    Ends (SliceDeque.appendElements E it.buf ⟨it.ptr, it.remaining E⟩) (⟨SliceDeque.new E, w⟩ : Frame (SliceDeque β) T)
      (fun _ s' => SliceDeque.Effect E ⟨SliceDeque.new E, w⟩ s' (it.vals E) []) ↔
    it.remaining E = 0 ∨ E.layout.size = 0 ∨ ∃ r, E.allocate w.calls (Buffer.byteSize E (2 * it.remaining E)) = .ok r := by
  have hle := h.remaining_le
  rw [← cap_buffer] at hle
  obtain ⟨hfit, hf⟩ := h.buf.request hle
  have hwf : SliceDeque.WF E (SliceDeque.new E : SliceDeque β) := SliceDeque.wf_new
  have hempty : (SliceDeque.new E : SliceDeque β).toList E = [] := SliceDeque.toList_new
  have hlen : (SliceDeque.new E : SliceDeque β).elems.len = 0 := rfl
  constructor
  · intro hends
    by_contra hno
    rw [not_or, not_or] at hno
    obtain ⟨hn, hs, hnone⟩ := hno
    rw [SliceDeque.appendElements, ends_bind] at hends
    obtain ⟨_, s', -, hg⟩ := hends.wp (SliceDeque.wp_reserve hwf)
    have hge := (SliceDeque.le_growTarget _ _).trans hg.cap_ge
    dsimp only at hge
    rcases hg.moved with rfl | ⟨-, hr⟩
    · have hcap : (SliceDeque.new E : SliceDeque β).capacity = 0 := Buffer.cap_new hs
      dsimp only at hge
      omega
    · obtain ⟨a, f, ha, -⟩ := hr.memory hs
      dsimp only at ha
      rw [growTarget_new hs] at ha
      exact hnone ⟨_, ha⟩
  · intro hcond
    by_cases hroom : it.remaining E ≤ (SliceDeque.new E : SliceDeque β).capacity
    · have hcopy := SliceDeque.ends_appendElements_room (s := ⟨SliceDeque.new E, w⟩) hwf h.covers
        (by dsimp only; omega)
      rwa [hempty, List.nil_append] at hcopy
    · have hs : E.layout.size ≠ 0 := by
        intro hs
        have hcap : (SliceDeque.new E : SliceDeque β).capacity = isizeBound - 1 := Buffer.ok_new.cap_zst hs
        have hz := h.buf.cap_zst hs
        omega
      have hn : it.remaining E ≠ 0 := fun h0 => hroom (by omega)
      have hgrant := (hcond.resolve_left hn).resolve_left hs
      have hal := h.buf.align_le hs (by omega)
      rw [SliceDeque.appendElements, ends_bind]
      have hreserve := SliceDeque.ends_reserve_granted (s := ⟨SliceDeque.new E, w⟩) (n := it.remaining E) hwf
        (by dsimp only; omega)
      dsimp only at hreserve
      rw [growTarget_new hs] at hreserve
      apply ends_mono (hreserve hfit (fun _ => hf) fun _ => ⟨hal, hgrant⟩)
      intro _ s' hg
      have hge := hg.cap_ge
      have hlen' := hg.len_eq
      dsimp only at hlen'
      have hcopy := ends_iff.mpr ⟨SliceDeque.exact_copyBack hg.wf (by omega), SliceDeque.wp_copyBack hg.wf h.covers (by omega)⟩
      apply ends_mono hcopy
      intro _ s'' heff
      have heff' := (hg.effect hwf).trans heff
      rwa [hg.toList_eq, hempty, List.nil_append] at heff'

theorem ends_copy (h : Ok E it) (hptr : it.buf.mirror.base ≠ it.ptr) {Q : SliceDeque β → Frame X T → Prop} :
    Ends (fromIter E it) t Q ↔
      Ends (SliceDeque.appendElements E it.buf ⟨it.ptr, it.remaining E⟩) (⟨SliceDeque.new E, t.world⟩ : Frame (SliceDeque β) T)
        fun _ s' => Q s'.self ⟨t.self, s'.world.unmap (it.buffer.regions E)⟩ := by
  simp only [fromIter, if_neg hptr, ends_bind, ends_onLocal, ends_onPanic, ends_specExtend h, ends_pure]

/-! ## The default implementation -/

theorem ends_next (h : Ok E s.self) :
    Ends (next E) s fun r s' => r = (s.self.vals E).head? ∧ (view E).Taken s s' (s.self.vals E).tail :=
  ends_iff.mpr ⟨exact_next, wp_next h⟩

/-- The items are stored one by one where there is room for all of them. -/
theorem ends_extendItems : ∀ (n : Nat) (p : Frame (SliceDeque β × IntoIter β) T), SliceDeque.WF E p.self.1 →
    Ok E p.self.2 → p.self.2.remaining E = n → p.self.1.elems.len + n ≤ p.self.1.capacity →
    Ends (extendItems E n) p fun _ p' => p'.self.1.toList E = p.self.1.toList E ++ p.self.2.vals E ∧
      Ok E p'.self.2 ∧ p'.self.2.remaining E = 0 := by
  intro n
  induction n with
  | zero =>
    intro p hd h hn _
    have hnil : p.self.2.vals E = [] := List.eq_nil_of_length_eq_zero (by rw [vals_length, hn])
    rw [extendItems, ends_pure]
    exact ⟨by rw [hnil, List.append_nil], h, hn⟩
  | succ n ih =>
    intro p hd h hn hroom
    rw [extendItems, ends_bind, onIter, ends_onPart]
    apply ends_mono (ends_next (s := ⟨p.self.2, p.world⟩) h)
    intro r u hu
    obtain ⟨hr, ht⟩ := hu
    have hlen := vals_length (E := E) p.self.2
    cases hl : p.self.2.vals E with
    | nil =>
      rw [hl, hn] at hlen
      cases hlen
    | cons v rest =>
      rw [hl] at hr ht hlen
      rw [hr, List.head?_cons]
      have hok : Ok E u.self := ht.ok
      have hvals : u.self.vals E = rest := ht.items_eq
      have hrem : u.self.remaining E = n := by
        rw [← vals_length, hvals]
        rw [List.length_cons, hn] at hlen
        omega
      dsimp only
      rw [ends_bind, ends_self, ends_bind, onDeque, ends_onPart]
      apply ends_mono (SliceDeque.ends_extendOne_room (s := ⟨p.self.1, u.world⟩) hd (by dsimp only; omega))
      intro _ s₁ hs₁
      have heff := hs₁.effect
      have hcap := hs₁.capacity_eq
      have hlen₁ := heff.len_eq
      rw [List.length_append, SliceDeque.toList_length, List.length_singleton] at hlen₁
      dsimp only at hcap hlen₁
      apply ends_mono (ih ⟨(s₁.self, u.self), s₁.world⟩ heff.wf hok hrem (by dsimp only; omega))
      intro _ p' hp'
      obtain ⟨htl, hok', hz⟩ := hp'
      refine ⟨?_, hok', hz⟩
      rw [htl, heff.toList_eq, hvals, List.append_assoc]
      rfl

/-- Either implementation of `spec_extend` adds the items to a deque that has room for them. -/
theorem ends_extend (h : Ok E it) {d : SliceDeque β} (hd : SliceDeque.WF E d)
    (hroom : d.elems.len + it.remaining E ≤ d.capacity) {extend : Method T (SliceDeque β × IntoIter β) Unit}
    (hmem : extend ∈ [specExtend E, extendDesugared E]) :
    Ends extend ⟨(d, it), w⟩ fun _ p => p.self.1.toList E = d.toList E ++ it.vals E := by
  rcases List.mem_pair.mp hmem with rfl | rfl
  · rw [ends_specExtend h]
    exact ends_mono (SliceDeque.ends_appendElements_room hd h.covers hroom) fun _ s' heff => heff.toList_eq
  · rw [extendDesugared, ends_bind, ends_self, ends_bind, ends_onPanic]
    apply ends_mono (ends_extendItems _ ⟨(d, it), w⟩ hd h rfl hroom)
    intro _ p hp
    obtain ⟨htl, hok, hz⟩ := hp
    rw [onIter, ends_onPart, ends_drop_empty hok hz]
    exact htl

/-- `from_iter_default` makes a deque of the items, unless it gets no memory. -/
theorem lands_fromIterDefault (h : Ok E it) {extend : Method T (SliceDeque β × IntoIter β) Unit}
    (hmem : extend ∈ [specExtend E, extendDesugared E]) :
    Lands (fromIterDefault E extend it) t (fun d _ => d.toList E = it.vals E) fun p _ => ∃ e, p = .alloc e := by
  have hle := h.remaining_le
  rw [← cap_buffer] at hle
  have hlen := vals_length (E := E) it
  rw [fromIterDefault, lands_bind, lands_onLocal]
  apply lands_mono (ends_next (s := ⟨it, t.world⟩) h).lands _ fun _ _ => False.elim
  intro r u hu
  obtain ⟨hr, ht⟩ := hu
  have hok : Ok E u.self := ht.ok
  cases hl : it.vals E with
  | nil =>
    rw [hl] at hr ht
    have hz : u.self.remaining E = 0 := by
      rw [← vals_length]
      exact congrArg List.length ht.items_eq
    rw [hr, List.head?_nil]
    dsimp only
    rw [lands_bind, lands_onLocal]
    apply Ends.lands
    rw [ends_drop_empty hok hz, lands_pure]
    exact SliceDeque.toList_new
  | cons v rest =>
    rw [hl] at hr ht hlen
    have hvals : u.self.vals E = rest := ht.items_eq
    have hrem : u.self.remaining E = rest.length := by rw [← vals_length, hvals]
    rw [List.length_cons] at hlen
    obtain ⟨hfit, hf⟩ := h.buf.request (show rest.length + 1 ≤ it.buffer.cap by omega)
    have hask : min (rest.length + 1) (usizeBound - 1) = rest.length + 1 := by omega
    rw [hr, List.head?_cons]
    dsimp only
    rw [sizeHint_eq hok, hrem, hask, lands_bind]
    have hrequest : Lands (onPanic (SliceDeque.withCapacity E (rest.length + 1)) (do
        dropValue E v
        let _ ← onLocal u.self (drop E)
        pure ())) (⟨t.self, u.world⟩ : Frame X T)
        (fun d t' => SliceDeque.Created E ⟨t.self, u.world⟩ t' d [] ∧ rest.length + 1 ≤ d.capacity ∧
          d.elems = ⟨d.buf.ptr.mirror.base, 0⟩) fun p _ => ∃ e, p = .alloc e := by
      apply lands_onPanic (P := fun p _ => ∃ e, p = .alloc e)
      · apply lands_mono (lands_of_exact (SliceDeque.exact_withCapacity (.inr ⟨hfit, fun _ _ => hf⟩)) SliceDeque.wp_withCapacity)
        · exact fun d t' hd => ⟨hd.1, hd.2.1, hd.2.2.1⟩
        · rintro p t' (⟨-, ⟨-, hover⟩ | ⟨-, hs, hal⟩⟩ | ⟨e, hp, -⟩)
          · exact absurd ⟨hfit, hf⟩ hover
          · exact absurd (h.buf.align_le hs (by omega)) (Nat.not_le.mpr hal)
          · exact ⟨e, hp⟩
      · intro p t' hp
        exact lands_mono (lands_trivial _ _) (fun _ _ _ => hp) fun _ _ _ => hp
    apply lands_mono hrequest _ fun _ _ => id
    intro d t' hd
    obtain ⟨hc, hcap, hstart⟩ := hd
    have hzero : d.elems.len = 0 := by rw [hstart]
    have hstore := SliceDeque.ends_writeBack (s := ⟨d, t'.world⟩) (v := v) hc.wf (by dsimp only; omega)
    dsimp only at hstore
    rw [hzero, Nat.cast_zero] at hstore
    apply Ends.lands
    rw [ends_bind, ends_onLocal, ends_onPanic, ends_bind, ends_onPanic, onDeque, ends_onPart]
    apply ends_mono hstore
    intro _ s₁ hs₁
    have heff := hs₁.effect
    have hcap₁ := hs₁.capacity_eq
    have hlen₁ := heff.len_eq
    rw [List.length_append, SliceDeque.toList_length, List.length_singleton, hzero] at hlen₁
    apply ends_mono (ends_extend hok heff.wf (by omega) hmem)
    intro _ q hq
    rw [ends_pure, hq, heff.toList_eq, hvals]
    dsimp only
    rw [hc.toList_eq]
    rfl

theorem fromIter_iff (h : Ok E it) : Ends (fromIter E it) t (Recollected E it (it.vals E) t) ↔ Recollectable E it t.world := by
  have hagrees : ∀ d : SliceDeque β, d.toList E = it.vals E → ∀ extend ∈ [specExtend E, extendDesugared E],
      Lands (fromIterDefault E extend it) t (fun d' _ => d'.toList E = d.toList E) fun p _ => ∃ e, p = .alloc e := by
    intro d hd extend hmem
    rw [hd]
    exact lands_fromIterDefault h hmem
  rw [Recollectable]
  split
  · rename_i hptr
    rw [ends_reuse h hptr, and_iff_left]
    exact ⟨h.wf_whole hptr, rfl, .refl _, fun _ => .refl _ _, hagrees _ rfl⟩
  · rename_i hptr
    rw [ends_copy h hptr, ← ends_appendItems_iff h]
    constructor
    · intro hends
      apply ends_mono (hends.wp (SliceDeque.wp_appendElements SliceDeque.wf_new h.covers))
      intro _ s' heff
      rwa [SliceDeque.toList_new, List.nil_append] at heff
    · intro hends
      apply ends_mono hends
      intro _ s' heff
      refine ⟨heff.wf, heff.toList_eq, heff.log.unmap, fun o => ?_, hagrees _ heff.toList_eq⟩
      have htrade := heff.trade.frame_left (o + it.buffer.regions E)
      rw [SliceDeque.regions_new, Multiset.coe_nil, add_zero, add_right_comm] at htrade
      exact htrade.trans (.unmap _ _ _)

end IntoIter

namespace SliceDeque
variable {T β X : Type} {E : Env T β} {d : SliceDeque β} {t : Frame X T}

/-- After any use of the iterator of a deque, collecting what is left makes a deque of it, and agrees
with the default implementation, exactly if a deque that is put together again has elements with bytes
and is not full (in a debug build), and a new one needs no memory or gets it. -/
theorem intoIter_fromIter_iff (h : WF E d) : Ends (intoIter E d) t fun it t₁ => ∀ ops : List End,
    let u := final (IntoIter.pull E) ops ⟨it, t₁.world⟩
    Ends (IntoIter.fromIter E u.self) u (IntoIter.Recollected E u.self (specFinal End.pull ops (d.toList E)) u) ↔
      u.self.Recollectable E u.world := by
  apply ends_mono (ends_intoIter_used h)
  intro it t₁ hused ops u
  obtain ⟨hok, hvals⟩ := hused ops
  rw [← hvals]
  exact IntoIter.fromIter_iff hok

/-- The two elements behind the first one are collected. -/
theorem sample_fromIter : Ends (intoIter (cells false 3 (by decide)) sample) (⟨(), .start⟩ : Frame Unit Nat) fun it t₁ =>
    let u := final (IntoIter.pull (cells false 3 (by decide))) [.front] ⟨it, t₁.world⟩
    Ends (IntoIter.fromIter (cells false 3 (by decide)) u.self) u
      (IntoIter.Recollected (cells false 3 (by decide)) u.self [20, 30] u) := by
  obtain ⟨it, t₁, hit, hops⟩ := intoIter_fromIter_iff (t := (⟨(), .start⟩ : Frame Unit Nat)) (wf_sample : WF (cells false 3 (by decide)) sample)
  refine ⟨it, t₁, hit, (hops [.front]).mpr ?_⟩
  cases hit
  rw [IntoIter.Recollectable, if_neg (by decide)]
  exact .inr (.inr ⟨_, rfl⟩)

/-- A full deque is consumed and collected again: the default implementation makes a deque of its element. -/
theorem recollect_asserts :
    let E := cells true 4096 (by decide)
    let full : Method Nat Unit (IntoIter Nat) := do
      let d ← withCapacity E 1
      let r ← onLocal d (pushBack E 7)
      intoIter E r.2
    let o := (do
      let it ← full
      IntoIter.fromIter E it) ⟨(), .start⟩
    let o' := (do
      let it ← full
      IntoIter.fromIterDefault E (IntoIter.specExtend E) it) ⟨(), .start⟩
    o.result.map (toList E) = .error .debugAssert ∧ o.state.world.destroyed = [7] ∧ o'.result.map (toList E) = .ok [7] := by
  decide +kernel

end SliceDeque

end Sdeq
