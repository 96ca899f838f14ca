import SliceDeque.Cloning
import SliceDeque.Specialised

/-!
# Literals

`sdeq!` with a list puts the values into an array and steals its elements; with a
length it makes clones of one value and destroys the value. `From<&[T]>` clones a
slice. An unfinished deque is dropped by the panic, with what it holds.
-/

set_option autoImplicit false

namespace Sdeq
open Exec

namespace SliceDeque
variable {T β X : Type} (E : Env T β)

/-- Expressions from left to right; a panic drops the values that were there, the last one first. -/
def evalExprs : List (Option T) → Method T X (List T)
  | [] => pure []
  | x :: xs => do
    let v ← produce fun _ => x
    let vs ← onPanic (evalExprs xs) (dropValue E v)
    pure (v :: vs)

def stealFromSlice (src : Region β) (s : Slice) : Method T X (SliceDeque β) := do
  let r ← onLocal (new E) (onPanic (appendElements E src s) (dropSelf E))
  pure r.2

/-- The memory of a local array. -/
def arrayAt (addr : Int) (vs : List T) : Region β := ⟨0, vs.length * E.layout.size, .ofList E.layout addr E.junk vs⟩

/-- `sdeq![x, …]`. The array is forgotten, unless there is a panic. -/
def sdeqList (addr : Int) : List (Option T) → Method T X (SliceDeque β)
  | [] => pure (new E)
  | x :: xs => do
    let array ← evalExprs E (x :: xs)
    onPanic (stealFromSlice E (arrayAt E addr array) ⟨addr, array.length⟩) (dropInPlace E array)

/-- `sdeq![elem; n]`. The length is evaluated twice. -/
def sdeqElem (elem : Option T) (n n' : Nat) : Method T X (SliceDeque β) := do
  let deq ← withCapacity E n
  let r ← onLocal deq (onPanic (do
    let v ← produce fun _ => elem
    resize E n' v) (dropSelf E))
  pure r.2

/-- `From<&[T]>` -/
def fromSlice (s : List T) : Method T X (SliceDeque β) := do
  let new ← withCapacity E s.length
  let r ← onLocal new (onPanic (pushClones E s) (dropSelf E))
  pure r.2

variable {E} {n n' : Nat} {s : Frame (SliceDeque β) T} {t : Frame X T} {vs : List T} {xs : List (Option T)} {elem : Option T}
  {v : T} {addr : Int}

/-! ## Lists of expressions -/

theorem does_evalExprs : Does (evalExprs E xs) t (fun vs t' => xs = vs.map some ∧ Passed t t' [] vs)
    fun p t' => p = .user ∧ ∃ vs rest, xs = vs.map some ++ none :: rest ∧ Passed t t' vs.reverse vs := by
  induction xs generalizing t with
  | nil => exact does_pure ⟨rfl, .refl t⟩
  | cons x xs ih =>
    have hmade : ∀ vs : List T, Passed t ⟨t.self, t.world.produce vs⟩ [] vs := fun vs => ⟨rfl, .produce _ vs, fun o => .produce _ o vs⟩
    apply does_bind (does_produce (Q := fun v t₁ => x = some v ∧ Passed t t₁ [] [v]) (fun v hv => ⟨hv, hmade [v]⟩)
      fun hx => ⟨rfl, [], xs, congrArg (· :: xs) hx, hmade []⟩)
    intro v t₁ hout
    obtain ⟨hx, hv⟩ := hout
    apply does_bind (does_onPanic ih _)
    · intro vs t' hout
      obtain ⟨hvs, hp⟩ := hout
      exact does_pure ⟨by rw [hx, hvs, List.map_cons], hv.trans hp⟩
    · intro p t' hout
      obtain ⟨hp, vs, rest, hvs, hpass⟩ := hout
      have hdrop : Passed t ⟨t'.self, t'.world.destroy [v]⟩ (v :: vs).reverse (v :: vs) := by
        have hlog : Passed t' ⟨t'.self, t'.world.destroy [v]⟩ [v] [] := ⟨rfl, .destroy _ _, fun o => .destroy _ o _⟩
        have hall := (hv.trans hpass).trans hlog
        rwa [List.nil_append, ← List.reverse_cons, List.append_nil] at hall
      have hend : p = .user ∧ ∃ us rest, x :: xs = us.map some ++ none :: rest ∧
          Passed t ⟨t'.self, t'.world.destroy [v]⟩ us.reverse us :=
        ⟨hp, v :: vs, rest, by rw [hx, hvs, List.map_cons, List.cons_append], hdrop⟩
      exact does_dropValue (fun _ => hend) fun _ => hend

theorem does_appendElements {src : Region β} {a : Int} (h : WF E s.self) (hc : src.mirror.Covers a (n * E.layout.size))
    (ha : s.self.capacity < s.self.elems.len + n → Askable E (growTarget s.self n)) :
    Does (appendElements E src ⟨a, n⟩) s (fun _ s' => Effect E s s' (s.self.toList E ++ src.mirror.elems E.layout a n) [])
      fun p s' => Denied E s s' [] p := by
  refine ⟨exact_seq (exact_reserve h ha) (wp_reserve h) fun _ s₁ hg => ?_, wp_appendElements h hc⟩
  have hcap := (le_growTarget _ _).trans hg.cap_ge
  exact exact_copyBack hg.wf (by rw [hg.len_eq]; exact hcap)

/-- The values are in the new deque, or there is no memory for them. -/
theorem does_stealFromSlice (ha : (new E : SliceDeque β).capacity < vs.length → Askable E (growTarget (new E : SliceDeque β) vs.length)) :
    Does (stealFromSlice E (arrayAt E addr vs) ⟨addr, vs.length⟩) t (fun d t' => Yields E t t' d vs [] [])
      fun p t' => Refusal E p ∧ Passed t t' [] [] := by
  have hcovers : (arrayAt E addr vs).mirror.Covers addr (vs.length * E.layout.size) := Mirror.covers_ofList
  have happend := does_appendElements (s := ⟨new E, t.world⟩) wf_new hcovers
    fun hlt => ha (by rwa [show (new E : SliceDeque β).elems.len = 0 from rfl, Nat.zero_add] at hlt)
  rw [toList_new, List.nil_append, show (arrayAt E addr vs).mirror.elems E.layout addr vs.length = vs from Mirror.elems_ofList] at happend
  have hfinish := does_finish (created_new t) (Q := fun _ l dead made => l = vs ∧ dead = [] ∧ made = [])
    (P := fun p l dead made => Refusal E p ∧ l = [] ∧ dead = [] ∧ made = [])
    (happend.mono (fun _ s' hs' => ⟨vs, [], [], ⟨rfl, rfl, rfl⟩, hs'⟩) fun p s' hp =>
      ⟨[], [], [], ⟨hp.refusal, rfl, rfl, rfl⟩, .of_untouched wf_new hp.untouched⟩)
  apply hfinish.mono
  · intro d t' hout
    obtain ⟨_, _, _, ⟨rfl, rfl, rfl⟩, hd⟩ := hout
    exact hd
  · intro p t' hout
    obtain ⟨_, _, _, ⟨hp, rfl, rfl, rfl⟩, hpass⟩ := hout
    exact ⟨hp, hpass⟩

theorem does_dropInPlace {R : Frame X T → Prop} (hR : R ⟨t.self, t.world.destroy vs⟩) :
    Does (dropInPlace E vs) t (fun _ t' => R t') fun _ t' => R t' := ⟨exact_dropInPlace, wp_dropInPlace hR fun _ => hR⟩

/-- What `sdeq!` should do with a list. The deque takes the values of all expressions. If one of them panics, or if there is
no memory, what there was is destroyed. -/
def Lists (E : Env T β) (addr : Int) (xs : List (Option T)) (t : Frame X T) : Prop :=
  Does (sdeqList E addr xs) t (fun d t' => ∃ vs, xs = vs.map some ∧ Yields E t t' d vs [] vs)
    fun p t' => (p = .user ∧ ∃ vs rest, xs = vs.map some ++ none :: rest ∧ Passed t t' vs.reverse vs) ∨
      Refusal E p ∧ ∃ vs, xs = vs.map some ∧ Passed t t' vs vs

theorem lists_sdeqList (ha : none ∉ xs → (new E : SliceDeque β).capacity < xs.length →
    Askable E (growTarget (new E : SliceDeque β) xs.length)) : Lists E addr xs t := by
  cases xs with
  | nil =>
    have hc := created_new (E := E) t
    exact does_pure ⟨[], rfl, ⟨hc.wf, hc.toList_eq⟩, rfl, hc.log, hc.trade⟩
  | cons x xs =>
    apply does_bind (does_evalExprs.mono (fun _ _ => id) fun p t' hp => .inl hp)
    intro vs t₁ hout
    obtain ⟨hvs, hpass⟩ := hout
    have hsteal : Does (stealFromSlice E (arrayAt E addr vs) ⟨addr, vs.length⟩) t₁ (fun d t' => Yields E t₁ t' d vs [] [])
        fun p t' => Refusal E p ∧ Passed t₁ t' [] [] := by
      apply does_stealFromSlice
      rw [hvs, List.length_map] at ha
      exact ha (by simp)
    apply (does_onPanic hsteal _).mono
    · intro d t' hd
      have hall := hpass.yields hd
      rw [List.append_nil, List.append_nil] at hall
      exact ⟨vs, hvs, hall⟩
    · exact fun _ _ => id
    · intro p t' hout
      obtain ⟨hp, hpass'⟩ := hout
      have hdrop : Passed t' ⟨t'.self, t'.world.destroy vs⟩ vs [] := ⟨rfl, .destroy _ _, fun o => .destroy _ o _⟩
      have hall := (hpass.trans hpass').trans hdrop
      simp only [List.append_nil, List.nil_append] at hall
      exact does_dropInPlace (R := fun t' => _ ∨ Refusal E p ∧ ∃ vs, _ ∧ Passed t t' vs vs) (.inr ⟨hp, vs, hvs, hall⟩)

/-- The clones are pushed into the room that there is, until `clone` panics. -/
theorem does_pushClones (vs : List T) (h : WF E s.self) (hroom : s.self.elems.len + vs.length ≤ s.self.capacity) :
    Does (pushClones E vs) s
      (fun _ s' => (clonesFrom E s.world.produced vs).length = vs.length ∧ Filled E s s' (clonesFrom E s.world.produced vs))
      fun p s' => p = .user ∧ (clonesFrom E s.world.produced vs).length < vs.length ∧
        Filled E s s' (clonesFrom E s.world.produced vs) := by
  induction vs generalizing s with
  | nil => exact does_pure ⟨rfl, .refl h⟩
  | cons v vs ih =>
    rw [List.length_cons] at hroom
    have hlt : s.self.elems.len < s.self.capacity := by omega
    rw [clonesFrom]
    cases hm : E.cloneOf s.world.produced v with
    | none =>
      have hpanic : Does (produce fun k => E.cloneOf k v) s (fun _ _ => False) fun p s' => p = .user ∧ s' = ⟨s.self, s.world.produce []⟩ :=
        does_produce (fun c hc => absurd (hm.symm.trans hc) (by simp)) fun _ => ⟨rfl, rfl⟩
      apply does_bind (hpanic.mono (fun _ _ => id) _) fun _ _ => False.elim
      intro p _ hout
      obtain ⟨rfl, rfl⟩ := hout
      refine ⟨rfl, Nat.succ_pos _, ?_, rfl, rfl, rfl⟩
      rw [List.append_nil]
      exact (Change.refl h).produce []
    | some c =>
      have hmade : Does (produce fun k => E.cloneOf k v) s (fun c' s₁ => c' = c ∧ s₁ = ⟨s.self, s.world.produce [c]⟩) fun _ _ => False :=
        does_produce (fun u hu => by rw [hm] at hu; cases hu; exact ⟨rfl, rfl⟩) fun h0 => absurd (hm.symm.trans h0) (by simp)
      apply does_bind (hmade.mono (fun _ _ => id) fun _ _ => False.elim)
      intro c _ hout
      obtain ⟨rfl, rfl⟩ := hout
      apply does_bind (ends_pushBack_pushed (s := ⟨s.self, s.world.produce [c]⟩) h hlt).does
      rintro _ _ rfl
      have hfirst := filled_pushed (v := c) h hlt
      have hlen := hfirst.next
      have hcap := hfirst.capacity_eq
      apply (ih (s := ⟨pushed E s.self c, s.world.produce [c]⟩) hfirst.change.wf (by omega)).mono
      · exact fun _ s' hs' => ⟨congrArg Nat.succ hs'.1, hfirst.cons hs'.2⟩
      · exact fun p s' hp => ⟨hp.1, Nat.succ_lt_succ hp.2.1, hfirst.cons hp.2.2⟩

theorem does_withCapacity (ha : Askable E n) : Does (withCapacity E n) t
    (fun d t₁ => withCapacity E n t = ⟨false, .ok d, t₁⟩ ∧ Created E t t₁ d [] ∧ d.elems.len = 0 ∧ d.capacity = capFor E n ∧
      n ≤ d.capacity ∧ t₁.world.produced = t.world.produced)
    fun p t₁ => Refusal E p ∧ Passed t t₁ [] [] := by
  have hnew : Does (withCapacity E n) t _ _ := ⟨exact_withCapacity ha, wp_and wp_withCapacity wp_withCapacity_produced⟩
  apply hnew.outcome.mono
  · intro d t₁ hout
    obtain ⟨hrun, ⟨hc, hcap, hstart, hfor, -⟩, hproduced⟩ := hout
    exact ⟨hrun, hc, by rw [hstart], hfor, hcap, hproduced⟩
  · intro p t₁ hout
    obtain ⟨-, hp, -⟩ := hout
    exact ⟨hp.untouched.1, Passed.of_untouched hp.untouched.2⟩

/-- What `From<&[T]>` should do: the clones fit into the capacity that is asked for at first. -/
def CopiesSlice (E : Env T β) (vs : List T) (t : Frame X T) : Prop :=
  Does (fromSlice E vs) t
    (fun d t' => (clonesFrom E t.world.produced vs).length = vs.length ∧ d.capacity = capFor E vs.length ∧
      Yields E t t' d (clonesFrom E t.world.produced vs) [] (clonesFrom E t.world.produced vs))
    fun p t' => (p = .user ∧ (clonesFrom E t.world.produced vs).length < vs.length ∧
        Passed t t' (clonesFrom E t.world.produced vs) (clonesFrom E t.world.produced vs)) ∨
      Refusal E p ∧ Passed t t' [] []

theorem copiesSlice_fromSlice (ha : Askable E vs.length) : CopiesSlice E vs t := by
  apply does_bind ((does_withCapacity ha).mono (fun _ _ => id) fun p t' hp => .inr hp)
  intro d t₁ hout
  obtain ⟨-, hc, hlen, hfor, hcap, hproduced⟩ := hout
  have hpush := does_pushClones (s := ⟨d, t₁.world⟩) vs hc.wf (by dsimp only; omega)
  have hfinish := does_finish hc
    (Q := fun d' l dead made => d'.capacity = capFor E vs.length ∧ l.length = vs.length ∧
      l = clonesFrom E t.world.produced vs ∧ dead = [] ∧ made = l)
    (P := fun p l dead made => p = .user ∧ l.length < vs.length ∧ l = clonesFrom E t.world.produced vs ∧ dead = [] ∧ made = l)
    (hpush.mono ?_ ?_)
  · apply hfinish.mono
    · intro d' t' hout
      obtain ⟨l, dead, made, ⟨hcap', hl, rfl, rfl, rfl⟩, hd⟩ := hout
      exact ⟨hl, hcap', hd⟩
    · intro p t' hout
      obtain ⟨l, dead, made, ⟨hp, hl, rfl, rfl, rfl⟩, hpass⟩ := hout
      exact .inl ⟨hp, hl, hpass⟩
  · intro _ s' hout
    obtain ⟨hl, hf⟩ := hout
    have hchange := hf.change
    rw [hc.toList_eq, List.nil_append] at hchange
    dsimp only at hl hchange
    rw [hproduced] at hl hchange
    exact ⟨_, _, _, ⟨hf.capacity_eq.trans hfor, hl, rfl, rfl, rfl⟩, hchange⟩
  · intro p s' hout
    obtain ⟨hp, hl, hf⟩ := hout
    have hchange := hf.change
    rw [hc.toList_eq, List.nil_append] at hchange
    dsimp only at hl hchange
    rw [hproduced] at hl hchange
    exact ⟨_, _, _, ⟨hp, hl, rfl, rfl, rfl⟩, hchange⟩

theorem copiesSlice_iff : CopiesSlice E vs t ↔ Askable E vs.length := by
  refine ⟨fun hr => by_contra fun ha => not_exact_of_wp ?_ hr.exact, copiesSlice_fromSlice⟩
  rw [fromSlice, wp_bind]
  exact wp_mono (wp_withCapacity_wraps ha) (fun _ _ => False.elim) fun _ _ => id

/-- The clones for the elements of `sdeq![v; n]`, which are made after `v`. -/
def clonesOf (E : Env T β) (t : Frame X T) (v : T) (n : Nat) : List T := madeFrom (fun k => E.cloneOf k v) (t.world.produced + 1) n

/-- What `sdeq!` should do with a value and the two values of its length. The second one decides; the value is destroyed. -/
def Repeats (E : Env T β) (elem : Option T) (n n' : Nat) (t : Frame X T) : Prop :=
  Does (sdeqElem E elem n n') t
    (fun d t' => ∃ v, elem = some v ∧ (clonesOf E t v n').length = n' ∧
      Yields E t t' d (clonesOf E t v n') [v] (v :: clonesOf E t v n'))
    fun p t' => (Refusal E p ∨ p = .user ∧ elem = none) ∧ Passed t t' [] [] ∨
      ∃ v, elem = some v ∧ (Refusal E p ∧ Passed t t' [v] [v] ∨
        (p = .user ∧ (clonesOf E t v n').length < n' ∨ p = .destructor ∧ DestructorsPanic E ∧ (clonesOf E t v n').length = n') ∧
          Passed t t' (v :: clonesOf E t v n') (v :: clonesOf E t v n'))

theorem repeats_sdeqElem (ha : Askable E n) (ha' : elem ≠ none → ∀ d t₁, withCapacity E n t = ⟨false, .ok d, t₁⟩ →
    d.capacity < n' → Askable E (growTarget d n')) : Repeats E elem n n' t := by
  apply does_bind ((does_withCapacity ha).mono (fun _ _ => id) fun p t' hp => .inl ⟨.inl hp.1, hp.2⟩)
  intro d t₁ hout
  obtain ⟨hrun, hc, hlen, -, -, hproduced⟩ := hout
  have hempty : Change E ⟨d, t₁.world⟩ ⟨d, t₁.world⟩ [] [] [] := by
    have hrefl := Change.refl (s := ⟨d, t₁.world⟩) hc.wf
    rwa [hc.toList_eq] at hrefl
  have hbody : Does (do
      let v ← produce fun _ => elem
      resize E n' v) ⟨d, t₁.world⟩
      (fun _ s' => ∃ l dead made, (∃ v, elem = some v ∧ l.length = n' ∧ l = clonesOf E t v n' ∧ dead = [v] ∧ made = v :: l) ∧
        Change E ⟨d, t₁.world⟩ s' l dead made)
      (fun p s' => ∃ l dead made, ((p = .user ∧ elem = none) ∧ l = [] ∧ dead = [] ∧ made = [] ∨
        ∃ v, elem = some v ∧ dead = [v] ∧ (Refusal E p ∧ l = [] ∧ made = [v] ∨
          (p = .user ∧ l.length < n' ∨ p = .destructor ∧ DestructorsPanic E ∧ l.length = n') ∧
            l = clonesOf E t v n' ∧ made = v :: l)) ∧ Change E ⟨d, t₁.world⟩ s' l dead made) := by
    apply does_bind (does_produce (Q := fun v s₁ => elem = some v ∧ s₁ = ⟨d, t₁.world.produce [v]⟩) (fun v hv => ⟨hv, rfl⟩)
      fun hnone => ⟨[], [], [], .inl ⟨⟨rfl, hnone⟩, rfl, rfl, rfl⟩, hempty.produce []⟩)
    intro v _ hout
    obtain ⟨hv, rfl⟩ := hout
    have hclones : madeFrom (fun k => E.cloneOf k v) (t₁.world.produce [v]).produced n' = clonesOf E t v n' := by
      rw [World.produce, hproduced, clonesOf]
    have hresize := resizes_resize (s := ⟨d, t₁.world.produce [v]⟩) (n := n') (v := v) hc.wf
      (by rw [hlen, Nat.sub_zero]; exact ha' (by rw [hv]; exact Option.some_ne_none v) d t₁ hrun)
    rw [Resizes, hlen, Nat.sub_zero, hclones] at hresize
    -- the clones are in the deque that was empty, and the value is destroyed
    have hall : ∀ {s' : Frame (SliceDeque β) T}, Resized E ⟨d, t₁.world.produce [v]⟩ s' n' (clonesOf E t v n') [v] →
        Change E ⟨d, t₁.world⟩ s' (clonesOf E t v n') [v] (v :: clonesOf E t v n') := by
      intro s' hs'
      have hchange := (hempty.produce [v]).trans hs'.change
      rw [hc.toList_eq, List.take_nil, List.drop_nil] at hchange
      exact hchange
    apply hresize.mono
    · exact fun _ s' hs' => ⟨_, _, _, ⟨v, hv, hs'.1, rfl, rfl, rfl⟩, hall hs'.2⟩
    · intro p s' hout
      obtain ⟨hp, hl, hs'⟩ | ⟨hp, hd, hl, hs'⟩ | ⟨hp, hu⟩ := hout
      · exact ⟨_, _, _, .inr ⟨v, hv, rfl, .inr ⟨.inl ⟨hp, hl⟩, rfl, rfl⟩⟩, hall hs'⟩
      · exact ⟨_, _, _, .inr ⟨v, hv, rfl, .inr ⟨.inr ⟨hp, hd, hl⟩, rfl, rfl⟩⟩, hall hs'⟩
      · have hchange := (hempty.produce [v]).trans (.of_untouched hc.wf hu)
        rw [hc.toList_eq] at hchange
        exact ⟨_, _, _, .inr ⟨v, hv, rfl, .inl ⟨hp, rfl, rfl⟩⟩, hchange⟩
  apply (does_finish hc (Q := fun _ l dead made => ∃ v, elem = some v ∧ l.length = n' ∧ l = clonesOf E t v n' ∧ dead = [v] ∧
    made = v :: l) hbody).mono
  · intro d' t' hout
    obtain ⟨l, dead, made, ⟨v, hv, hl, rfl, rfl, rfl⟩, hd⟩ := hout
    exact ⟨v, hv, hl, hd⟩
  · intro p t' hout
    obtain ⟨l, dead, made, (⟨hp, rfl, rfl, rfl⟩ | ⟨v, hv, rfl, ⟨hp, rfl, rfl⟩ | ⟨hp, rfl, rfl⟩⟩), hpass⟩ := hout
    · exact .inl ⟨.inr hp, hpass⟩
    · exact .inr ⟨v, hv, .inl ⟨hp, hpass⟩⟩
    · exact .inr ⟨v, hv, .inr ⟨hp, hpass⟩⟩

theorem repeats_iff (hn : n' < usizeBound) : Repeats E elem n n' t ↔
    Askable E n ∧ (elem ≠ none → ∀ d t₁, withCapacity E n t = ⟨false, .ok d, t₁⟩ → d.capacity < n' → Askable E (growTarget d n')) := by
  refine ⟨fun hr => ⟨by_contra fun ha => not_exact_of_wp ?_ hr.exact, fun hv d t₁ hrun hlt => by_contra fun ha => not_exact_of_wp ?_ hr.exact⟩,
    fun hcond => repeats_sdeqElem hcond.1 hcond.2⟩
  · rw [sdeqElem, wp_bind]
    exact wp_mono (wp_withCapacity_wraps ha) (fun _ _ => False.elim) fun _ _ => id
  · have hends : Ends (withCapacity E n) t fun d' t' => d' = d ∧ t' = t₁ := ⟨d, t₁, hrun, rfl, rfl⟩
    rw [sdeqElem, wp_bind]
    apply wp_mono (wp_and wp_withCapacity (ends_iff.mp hends).2) _ fun _ _ hp => hp.2
    intro d t₁ hout
    obtain ⟨⟨hc, -, hstart, -⟩, rfl, rfl⟩ := hout
    rw [wp_bind, wp_onLocal]
    apply wp_onPanic (P := fun _ _ => False) _ fun _ _ => False.elim
    rw [wp_bind]
    apply wp_produce _ fun hnone => absurd hnone hv
    intro v _
    have hlen : d.elems.len = 0 := by rw [hstart]
    rw [resize, wp_bind]
    apply wp_onPanic (P := fun _ _ => False) _ fun _ _ => False.elim
    rw [wp_bind]
    apply wp_len hc.wf
    rw [if_pos (by dsimp only; omega)]
    exact wp_mono (not_exact_grow hc.wf hn hlt (by dsimp only; rwa [hlen, Nat.sub_zero])) (fun _ _ => False.elim) fun _ _ => id

/-- `resize` fills a deque with copies where there is room. -/
theorem ends_resize_copies (hcopy : Copyable E) (h : WF E s.self) (hle : s.self.elems.len ≤ n) (hroom : n ≤ s.self.capacity) :
    Ends (resize E n v) s fun _ s' => Appended E s.self (List.replicate (n - s.self.elems.len) v) s.self.capacity s'.self := by
  have hend : ∀ t : Frame (SliceDeque β) T, Appended E s.self (List.replicate (n - s.self.elems.len) v) s.self.capacity t.self →
      Ends (do
        let l ← len E
        debugAssert E (l = n)) t fun _ t' => Ends (dropValue E v) t' fun _ s' =>
          Appended E s.self (List.replicate (n - s.self.elems.len) v) s.self.capacity s'.self := by
    intro t ht
    have hlen := ht.len_eq
    rw [List.length_replicate] at hlen
    rw [ends_bind, ends_len ht.contains.wf, ends_debugAssert (by omega)]
    refine ends_iff.mpr ⟨exact_dropValue, wp_dropValue ht fun hd => ?_⟩
    exact absurd ⟨_, _, hd⟩ hcopy.no_panic
  rw [resize, ends_bind, ends_onPanic, ends_bind, ends_len h]
  dsimp only
  split
  · have hreserve : Ends (reserve E (n - s.self.elems.len)) s fun _ s' => s' = s :=
      ends_iff.mpr ⟨exact_reserve_room h (by omega), wp_reserve_room h (by omega) rfl⟩
    have hloop : Fills E (fun k => E.cloneOf k v) (n - s.self.elems.len) (resizeLoop E n v (n - s.self.elems.len)) s :=
      fills_resizeLoop _ s h (by omega) hroom
    rw [Fills, hcopy.madeFrom_eq, List.length_replicate] at hloop
    rw [ends_bind]
    apply ends_mono hreserve
    rintro _ _ rfl
    rw [ends_bind]
    refine ends_iff.mpr ⟨hloop.exact, wp_mono hloop.wp ?_ fun p s' hp => absurd hp.2.2 (Nat.lt_irrefl _)⟩
    exact fun _ s' hs' => hend s' ⟨hs'.1.change.contains, hs'.1.capacity_eq⟩
  · rename_i hge
    have hfull : s.self.elems.len = n := by omega
    rw [ends_bind, truncate, truncateBack, ends_bind, ends_len h, if_pos hfull.le, ends_pure]
    apply hend s
    rw [hfull, Nat.sub_self]
    exact ⟨⟨h, (List.append_nil _).symm⟩, rfl⟩

/-- For `Copy` values, `from_elem` could be used by `sdeq!`. -/
theorem agree_sdeqElem (hcopy : Copyable E) : Agree E returned (sdeqElem E (some v) n n) (fromElem E v n) t := by
  intro l c
  refine (ends_filledNew fun d w hwf hlen hcap => ?_).trans (ends_fromElem_copies hcopy).symm
  rw [ends_onPanic, ends_bind, ends_produce]
  have hfill := ends_resize_copies (s := ⟨d, w.produce [v]⟩) (v := v) hcopy hwf (by dsimp only; omega) hcap
  rwa [hlen, Nat.sub_zero] at hfill

end SliceDeque

end Sdeq
