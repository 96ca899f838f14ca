import SliceDeque.ListPrograms

/-!
# Deques as slices

A deque dereferences to one slice. Whatever a program does to a mutable slice
of its elements, such as sorting, it does to the list of its contents, wherever
the elements lie around the end of the mapping, and it leaves everything else
alone.
-/

set_option autoImplicit false

namespace Sdeq
open Exec SliceDeque

/-- What a function can do to a `&mut [T]`. It sees the length and the elements, and it may decide
what to do next from what it saw. -/
inductive OnSlice (T α : Type) where
  | done (a : α)
  | len (next : Nat → OnSlice T α)
  | look (i : Nat) (next : T → OnSlice T α)
  /-- `mem::replace` of an element -/
  | replace (i : Nat) (v : T) (next : T → OnSlice T α)
  | swap (i j : Nat) (next : OnSlice T α)
  | panic

namespace OnSlice
variable {T β α : Type} (E : Env T β)

/-- The function applied to a list; an index out of range panics. -/
def onList : OnSlice T α → List T → Except Panic α × List T
  | done a, l => (.ok a, l)
  | len next, l => (next l.length).onList l
  | look i next, l =>
    match l[i]? with
    | some v => (next v).onList l
    | none => (.error .index, l)
  | replace i v next, l =>
    match l[i]? with
    | some old => (next old).onList (l.set i v)
    | none => (.error .index, l)
  | swap i j next, l =>
    match l[i]?, l[j]? with
    | some x, some y => next.onList ((l.set i y).set j x)
    | _, _ => (.error .index, l)
  | panic, l => (.error .user, l)

/-- `Index` -/
def index (i : Nat) : DeqM T β T := do
  let d ← self
  if i < d.elems.len then readSlot E i else throw .index

def replaceAt (i : Nat) (v : T) : DeqM T β T := do
  let old ← index E i
  writeSlot E i v
  pure old

/-- The function applied to `deref_mut` of a deque. -/
def run : OnSlice T α → DeqM T β α
  | done a => pure a
  | len next => do
    let d ← self
    (next d.elems.len).run
  | look i next => do
    let v ← index E i
    (next v).run
  | replace i v next => do
    let old ← replaceAt E i v
    (next old).run
  | swap i j next => do
    SliceDeque.swap E i j
    next.run
  | panic => throw .user

end OnSlice

namespace SliceDeque
variable {T β : Type} (E : Env T β)

/-- `<[T]>::get` -/
def get (i : Nat) : DeqM T β (Option T) := do
  let d ← self
  if i < d.elems.len then do
    let v ← readSlot E i
    pure (some v)
  else pure none

/-- `<[T]>::get_mut`, followed by an assignment through the reference: the value it showed. -/
def getMut (i : Nat) (v : T) : DeqM T β (Option T) := do
  let d ← self
  if i < d.elems.len then do
    let old ← readSlot E i
    writeSlot E i v
    pure (some old)
  else pure none

def front : DeqM T β (Option T) := get E 0

def frontMut (v : T) : DeqM T β (Option T) := getMut E 0 v

def back : DeqM T β (Option T) := do
  let l ← len E
  get E (wrappingPred l)

def backMut (v : T) : DeqM T β (Option T) := do
  let l ← len E
  getMut E (wrappingPred l) v

/-- Only elements changed: the deque shows `l`, and every slot behind the tail shows what it did. -/
structure Edited (E : Env T β) (s s' : Frame (SliceDeque β) T) (l : List T) : Prop where
  wf : WF E s'.self
  rewritten : Rewritten s.self s'.self
  world_eq : s'.world = s.world
  toList_eq : s'.self.toList E = l
  spare_eq : ∀ k : Int, s.self.elems.len ≤ k → k < s.self.capacity → s'.self.slot E k = s.self.slot E k

variable {E} {s s₁ s₂ : Frame (SliceDeque β) T} {l l' : List T} {v x : T} {i j : Nat}

theorem Edited.refl (h : WF E s.self) : Edited E s s (s.self.toList E) := ⟨h, .refl _, rfl, rfl, fun _ _ _ => rfl⟩

theorem Edited.trans (h : Edited E s s₁ l) (h' : Edited E s₁ s₂ l') : Edited E s s₂ l' := by
  refine ⟨h'.wf, h.rewritten.trans h'.rewritten, h'.world_eq.trans h.world_eq, h'.toList_eq, fun k hk hc => ?_⟩
  rw [h'.spare_eq k, h.spare_eq k hk hc]
  · rwa [h.rewritten.elems_eq]
  · rwa [h.rewritten.capacity_eq]

/-! ## Single accesses -/

theorem getElem?_toList_none (hi : ¬ i < s.self.elems.len) : (s.self.toList E)[i]? = none :=
  List.getElem?_eq_none (by rw [toList_length]; omega)

theorem ends_writeSlot_edited (h : WF E s.self) (hi : i < s.self.elems.len) :
    Ends (writeSlot E i v) s fun _ s' => Edited E s s' ((s.self.toList E).set i v) := by
  have hle := h.len_le
  refine ends_iff.mpr ⟨exact_writeSlot, wp_writeSlot h (by omega) (by omega) fun d' hwf hr hs => ?_⟩
  refine ⟨hwf, hr, rfl, hr.toList_set h hs, fun k hk hc => ?_⟩
  rw [hs k (by omega) hc, if_neg (by omega)]

theorem ends_read (h : WF E s.self) (hi : i < s.self.elems.len) :
    Ends (readSlot E i) s fun v s' => v = s.self.slot E i ∧ s' = s := by
  have hle := h.len_le
  exact ends_iff.mpr ⟨exact_readSlot, wp_readSlot h (by omega) (by omega) ⟨rfl, rfl⟩⟩

theorem ends_get (h : WF E s.self) : Ends (get E i) s fun r s' => r = (s.self.toList E)[i]? ∧ s' = s := by
  simp only [get, ends_bind, ends_self, ends_ite, ends_pure]
  refine ⟨fun hi => ends_mono (ends_read h hi) ?_, fun hi => ⟨(getElem?_toList_none hi).symm, trivial⟩⟩
  rintro _ _ ⟨rfl, rfl⟩
  exact ⟨(getElem?_toList hi).symm, rfl⟩

theorem ends_getMut (h : WF E s.self) :
    Ends (getMut E i v) s fun r s' => r = (s.self.toList E)[i]? ∧ Edited E s s' ((s.self.toList E).set i v) := by
  simp only [getMut, ends_bind, ends_self, ends_ite, ends_pure]
  refine ⟨fun hi => ends_mono (ends_read h hi) ?_, fun hi => ⟨(getElem?_toList_none hi).symm, ?_⟩⟩
  · rintro _ _ ⟨rfl, rfl⟩
    exact ends_mono (ends_writeSlot_edited h hi) fun _ s' he => ⟨(getElem?_toList hi).symm, he⟩
  · rw [List.set_eq_of_length_le (by rw [toList_length]; omega)]
    exact .refl h

/-- The index of the last element; without elements it is out of range. -/
theorem getElem?_pred (h : WF E s.self) : (s.self.toList E)[wrappingPred s.self.elems.len]? = (s.self.toList E).getLast? := by
  have hlt := h.len_lt
  rw [List.getLast?_eq_getElem?, toList_length]
  by_cases hpos : 0 < s.self.elems.len
  · rw [wrappingPred_of_pos hpos]
  · rw [List.getElem?_eq_none, List.getElem?_eq_none]
    · rw [toList_length]
      omega
    · rw [toList_length, wrappingPred, if_pos (by omega)]
      unfold usizeBound
      omega

theorem ends_back (h : WF E s.self) : Ends (back E) s fun r s' => r = (s.self.toList E).getLast? ∧ s' = s := by
  rw [back, ends_bind, ends_len h, ← getElem?_pred h]
  exact ends_get h

theorem ends_swap_edited (h : WF E s.self) (hi : i < s.self.elems.len) (hj : j < s.self.elems.len) :
    Ends (swap E i j) s fun _ s' => Edited E s s' (((s.self.toList E).set i (s.self.slot E j)).set j (s.self.slot E i)) := by
  simp only [swap, ends_bind, ends_self, ends_ite]
  refine ⟨fun _ => ends_mono (ends_read h hi) ?_, fun hij => absurd ⟨hi, hj⟩ hij⟩
  rintro _ _ ⟨rfl, rfl⟩
  refine ends_mono (ends_read h hj) ?_
  rintro _ _ ⟨rfl, rfl⟩
  refine ends_mono (ends_writeSlot_edited h hi) fun _ s₁ he => ?_
  have hj' : j < s₁.self.elems.len := by rwa [he.rewritten.elems_eq]
  refine ends_mono (ends_writeSlot_edited he.wf hj') fun _ s₂ he' => ?_
  rw [he.toList_eq] at he'
  exact he.trans he'

end SliceDeque

/-! ## Functions of slices -/

namespace OnSlice
variable {T β α : Type} {E : Env T β} {s : Frame (SliceDeque β) T} {i : Nat} {v : T}

/-- The outcome of a function: what it returns for the list, and the list that it leaves. -/
def Done (E : Env T β) (s : Frame (SliceDeque β) T) (o : Except Panic α × List T) (m : DeqM T β α) : Prop :=
  Does m s (fun a s' => o.1 = .ok a ∧ Edited E s s' o.2) fun e s' => o.1 = .error e ∧ Edited E s s' o.2

theorem does_index {Q : T → Frame (SliceDeque β) T → Prop} {P : Panic → Frame (SliceDeque β) T → Prop} (h : WF E s.self)
    (hQ : ∀ v, (s.self.toList E)[i]? = some v → Q v s) (hP : (s.self.toList E)[i]? = none → P .index s) :
    Does (index E i) s Q P := by
  refine does_bind (Q := fun d s' => d = s.self ∧ s' = s) ⟨exact_self, wp_self.mpr ⟨rfl, rfl⟩⟩ ?_
  rintro _ _ ⟨rfl, rfl⟩
  refine does_ite (fun hi => Ends.does (ends_mono (ends_read h hi) ?_)) fun hi => ?_
  · rintro _ _ ⟨rfl, rfl⟩
    exact hQ _ (getElem?_toList hi)
  · exact ⟨exact_throw, wp_throw.mpr (hP (getElem?_toList_none hi))⟩

/-- Through `deref_mut` a function does to a deque what it does to a list. -/
theorem run_done (f : OnSlice T α) (h : WF E s.self) : Done E s (f.onList (s.self.toList E)) (f.run E) := by
  induction f generalizing s with
  | done a => exact does_pure ⟨rfl, .refl h⟩
  | panic => exact ⟨exact_throw, wp_throw.mpr ⟨rfl, .refl h⟩⟩
  | len next ih =>
    refine does_bind (Q := fun d s' => d = s.self ∧ s' = s) ⟨exact_self, wp_self.mpr ⟨rfl, rfl⟩⟩ ?_
    rintro _ s' ⟨rfl, hs'⟩
    rw [onList, toList_length, hs']
    exact ih s.self.elems.len h
  | look i next ih =>
    refine does_bind (Q := fun v s' => (s.self.toList E)[i]? = some v ∧ s' = s) (does_index h (fun v hv => ⟨hv, rfl⟩) ?_) ?_
    · intro hnone
      simp only [onList, hnone]
      exact ⟨trivial, .refl h⟩
    · rintro v _ ⟨hv, rfl⟩
      simp only [onList, hv]
      exact ih v h
  | replace i v next ih =>
    have hread : Does (replaceAt E i v) s
        (fun old s' => (s.self.toList E)[i]? = some old ∧ Edited E s s' ((s.self.toList E).set i v))
        fun e s' => (OnSlice.onList (.replace i v next) (s.self.toList E)).1 = .error e ∧
          Edited E s s' (OnSlice.onList (.replace i v next) (s.self.toList E)).2 := by
      refine does_bind (Q := fun v s' => (s.self.toList E)[i]? = some v ∧ s' = s) (does_index h (fun v hv => ⟨hv, rfl⟩) ?_) ?_
      · intro hnone
        simp only [onList, hnone]
        exact ⟨trivial, .refl h⟩
      · rintro old _ ⟨hv, rfl⟩
        have hi := (List.getElem?_eq_some_iff.mp hv).1
        rw [toList_length] at hi
        exact does_bind (Ends.does (ends_writeSlot_edited h hi)) fun _ s' he => does_pure ⟨hv, he⟩
    refine does_bind hread fun old s₁ hs₁ => ?_
    obtain ⟨hv, he⟩ := hs₁
    have hnext := ih old he.wf
    rw [he.toList_eq] at hnext
    simp only [onList, hv]
    exact hnext.mono (fun _ _ hd => ⟨hd.1, he.trans hd.2⟩) fun _ _ hd => ⟨hd.1, he.trans hd.2⟩
  | swap i j next ih =>
    by_cases hij : i < s.self.elems.len ∧ j < s.self.elems.len
    · have hx := getElem?_toList (E := E) hij.1
      have hy := getElem?_toList (E := E) hij.2
      simp only [onList, hx, hy]
      refine does_bind (Ends.does (ends_swap_edited h hij.1 hij.2)) fun _ s₁ he => ?_
      have hnext := ih he.wf
      rw [he.toList_eq] at hnext
      exact hnext.mono (fun _ _ hd => ⟨hd.1, he.trans hd.2⟩) fun _ _ hd => ⟨hd.1, he.trans hd.2⟩
    · refine does_bind (Q := fun _ _ => False) ⟨exact_swap, wp_swap_index hij ?_⟩ fun _ _ => False.elim
      have hnone : (s.self.toList E)[i]? = none ∨ (s.self.toList E)[j]? = none := by
        rcases not_and_or.mp hij with hi | hj
        · exact .inl (getElem?_toList_none hi)
        · exact .inr (getElem?_toList_none hj)
      rcases hnone with hnone | hnone
      · simp only [onList, hnone]
        exact ⟨trivial, .refl h⟩
      · cases hi : (s.self.toList E)[i]? with
        | none =>
          simp only [onList, hi]
          exact ⟨trivial, .refl h⟩
        | some x =>
          simp only [onList, hi, hnone]
          exact ⟨trivial, .refl h⟩

end OnSlice

/-! ## Programs that use deques as slices -/

/-- The ways to the elements of a deque that stays as it is otherwise. -/
inductive Access (T : Type) where
  | slice (f : OnSlice T (Option T))
  | get (i : Nat)
  | getMut (i : Nat) (v : T)
  | front
  | frontMut (v : T)
  | back
  | backMut (v : T)

namespace Access
variable {T β : Type} (E : Env T β)

def run : Access T → DeqM T β (Option T)
  | slice f => f.run E
  | get i => SliceDeque.get E i
  | getMut i v => SliceDeque.getMut E i v
  | front => SliceDeque.front E
  | frontMut v => SliceDeque.frontMut E v
  | back => SliceDeque.back E
  | backMut v => SliceDeque.backMut E v

def onList : Access T → List T → Except Panic (Option T) × List T
  | slice f, l => f.onList l
  | get i, l => (.ok l[i]?, l)
  | getMut i v, l => (.ok l[i]?, l.set i v)
  | front, l => (.ok l.head?, l)
  | frontMut v, l => (.ok l.head?, l.set 0 v)
  | back, l => (.ok l.getLast?, l)
  | backMut v, l => (.ok l.getLast?, l.set (l.length - 1) v)

variable {E} {s : Frame (SliceDeque β) T}

theorem done_of_read {α : Type} {m : DeqM T β α} {x : α} (h : WF E s.self) (hm : Ends m s fun r s' => r = x ∧ s' = s) :
    OnSlice.Done E s (.ok x, s.self.toList E) m := by
  refine Ends.does (ends_mono hm ?_)
  rintro _ _ ⟨rfl, rfl⟩
  exact ⟨rfl, .refl h⟩

theorem done_of_edit {α : Type} {m : DeqM T β α} {x : α} {l : List T} (hm : Ends m s fun r s' => r = x ∧ Edited E s s' l) :
    OnSlice.Done E s (.ok x, l) m := by
  refine Ends.does (ends_mono hm ?_)
  rintro _ s' ⟨rfl, he⟩
  exact ⟨rfl, he⟩

theorem ends_backMut {v : T} (h : WF E s.self) : Ends (SliceDeque.backMut E v) s fun r s' => r = (s.self.toList E).getLast? ∧
    Edited E s s' ((s.self.toList E).set ((s.self.toList E).length - 1) v) := by
  rw [SliceDeque.backMut, ends_bind, ends_len h, ← getElem?_pred h]
  refine ends_mono (ends_getMut h) fun r s' hr => ⟨hr.1, ?_⟩
  have hedit := hr.2
  rw [toList_length]
  by_cases hpos : 0 < s.self.elems.len
  · rwa [wrappingPred_of_pos hpos] at hedit
  · rw [List.set_eq_of_length_le (by rw [toList_length]; omega)]
    rwa [List.set_eq_of_length_le] at hedit
    rw [toList_length]
    omega

theorem run_done (a : Access T) (h : WF E s.self) : OnSlice.Done E s (a.onList (s.self.toList E)) (a.run E) := by
  cases a with
  | slice f => exact f.run_done h
  | get i => exact done_of_read h (ends_get h)
  | getMut i v => exact done_of_edit (ends_getMut h)
  | front =>
    rw [onList, List.head?_eq_getElem?]
    exact done_of_read h (ends_get h)
  | frontMut v =>
    rw [onList, List.head?_eq_getElem?]
    exact done_of_edit (ends_getMut h)
  | back => exact done_of_read h (ends_back h)
  | backMut v => exact done_of_edit (ends_backMut h)

/-- Accesses in any number: every one returns what it returns for the list, and all of them leave the
head, the length, the buffer, the slots behind the tail and the world as they were. -/
theorem accesses_edit (as : List (Access T)) (h : WF E s.self) :
    results (run E) as s = specResults onList as (s.self.toList E) ∧
      Edited E s (final (run E) as s) (specFinal onList as (s.self.toList E)) := by
  have hstep : ∀ (a : Access T) (t : Frame (SliceDeque β) T) (l : List T), Edited E s t l → True →
      (run E a t).result = (onList a l).1 ∧ Edited E s (run E a t).state (onList a l).2 := by
    intro a t l ht _
    have hdone := a.run_done ht.wf
    rw [ht.toList_eq] at hdone
    exact (hdone.mono (fun _ _ hd => ⟨hd.1, ht.trans hd.2⟩) fun _ _ hd => ⟨hd.1, ht.trans hd.2⟩).result_eq
  obtain ⟨hresults, hedited⟩ := simulation hstep as s _ (.refl h) (always_of_forall (fun _ _ => trivial) as s)
  exact ⟨List.forall₂_eq_eq_eq ▸ hresults, hedited⟩

/-- The first and the last element change places, and an index out of range panics. -/
def flip : List (Access Nat) :=
  [.slice (.len fun n => .swap 0 (n - 1) (.look 1 fun v => .done (some v))), .backMut 40, .slice (.look 3 fun v => .done (some v)), .front]

theorem flip_edits :
    results (run (cells true 3 (by decide))) flip ⟨sample, .start⟩ =
        specResults onList flip (sample.toList (cells true 3 (by decide))) ∧
      Edited (cells true 3 (by decide)) ⟨sample, .start⟩ (final (run (cells true 3 (by decide))) flip ⟨sample, .start⟩)
        (specFinal onList flip (sample.toList (cells true 3 (by decide)))) :=
  accesses_edit (s := ⟨sample, .start⟩) flip wf_sample

end Access

/-- A statement of a program, or an access to the elements of a variable. -/
inductive Act (T : Type) where
  | op (o : Op T)
  | access (i : Nat) (a : Access T)

namespace Act
variable {T β : Type} (E : Env T β)

def run : Act T → Method T (Program T β) (Out T Nat)
  | op o => Program.step E o
  | access i a => do
    let p ← self
    match p.vars[i]? with
    | some (.deque d) => do
      let r ← within d (fun d => p.put i (.deque d)) (a.run E)
      pure (.value r)
    | _ => pure .unit

/-- The counterpart for variables that hold lists. -/
def onLists : Act T → List (List T) → Except Panic (Out T Nat) × List (List T)
  | op o, ls => (.ok (Program.listStep o ls).1, (Program.listStep o ls).2)
  | access i a, ls =>
    match ls[i]? with
    | some l => ((a.onList l).1.map .value, ls.set i (a.onList l).2)
    | none => (.ok .unit, ls)

/-- Accesses may fail as they like; the operations get the memory that they ask for. -/
def Smooth : Act T → Frame (Program T β) T → Prop
  | op o, s => Program.Smooth E o s
  | access _ _, _ => True

/-- Destructors may panic, but only after everything else was done. -/
def Agrees (r b : Except Panic (Out T Nat)) : Prop := r = b ∨ r = .error .destructor ∧ b = .ok .unit

instance : ∀ (a : Act T) (s : Frame (Program T β) T), Decidable (Smooth E a s)
  | op o, s => inferInstanceAs (Decidable (Program.Smooth E o s))
  | access _ _, _ => isTrue trivial

variable {E} {s : Frame (Program T β) T} {ls : List (List T)} {i : Nat} {a : Access T}

theorem access_step (h : (Program.owner E).ok s.self) (hls : s.self.slices E = ls.map some) :
    ((access i a).run E s).result = (onLists (.access i a) ls).1 ∧ (Program.owner E).ok ((access i a).run E s).state.self ∧
      ((access i a).run E s).state.self.slices E = (onLists (.access i a) ls).2.map some := by
  obtain ⟨p, w⟩ := s
  have hdoes : Does ((access i a).run E) ⟨p, w⟩
      (fun r s' => (onLists (.access i a) ls).1 = .ok r ∧ (Program.owner E).ok s'.self ∧
        s'.self.slices E = (onLists (.access i a) ls).2.map some)
      fun e s' => (onLists (.access i a) ls).1 = .error e ∧ (Program.owner E).ok s'.self ∧
        s'.self.slices E = (onLists (.access i a) ls).2.map some := by
    refine does_bind (Q := fun q s' => q = p ∧ s' = ⟨p, w⟩) ⟨exact_self, wp_self.mpr ⟨rfl, rfl⟩⟩ ?_
    rintro q _ ⟨hq, rfl⟩
    rw [hq]
    cases hl : ls[i]? with
    | none =>
      rw [Program.gone_of_list hls hl]
      refine does_pure ⟨?_, h, ?_⟩ <;> simp only [onLists, hl]
      exact hls
    | some l =>
      obtain ⟨d, hi, rfl⟩ := Program.deque_of_list hls hl
      rw [hi]
      have hd := a.run_done (s := ⟨d, w⟩) (Program.ok_var hi h)
      have hput : ∀ (l : List T) (t : Frame (SliceDeque β) T), Edited E ⟨d, w⟩ t l →
          (Program.owner E).ok (p.put i (.deque t.self)) ∧ (p.put i (.deque t.self)).slices E = (ls.set i l).map some := by
        refine fun l t ht => ⟨fun v hv => ?_, ?_⟩
        · rcases List.mem_or_eq_of_mem_set hv with hv | rfl
          · exact h v hv
          · exact ht.wf
        · rw [Program.slices_put, hls, List.map_set, Var.slice?, ht.toList_eq]
      have hin : Does (within d (fun d => p.put i (.deque d)) (a.run E)) (⟨p, w⟩ : Frame (Program T β) T)
          (fun r s' => (a.onList (d.toList E)).1 = .ok r ∧ (Program.owner E).ok s'.self ∧
            s'.self.slices E = (ls.set i (a.onList (d.toList E)).2).map some)
          fun e s' => (a.onList (d.toList E)).1 = .error e ∧ (Program.owner E).ok s'.self ∧
            s'.self.slices E = (ls.set i (a.onList (d.toList E)).2).map some :=
        ⟨exact_zoom hd.exact, wp_within.mpr (wp_mono hd.wp (fun r t ht => ⟨ht.1, hput _ t ht.2⟩) fun e t ht => ⟨ht.1, hput _ t ht.2⟩)⟩
      simp only [onLists, hl]
      refine does_bind (hin.mono (fun _ _ => id) fun e s' hs' => ⟨by rw [hs'.1]; rfl, hs'.2⟩) fun r s' hs' => ?_
      exact does_pure ⟨by rw [hs'.1]; rfl, hs'.2⟩
  exact hdoes.result_eq

/-- The elements of two deques change their places between calls that move the ends. -/
def blend : List (Act Nat) :=
  [.op .new, .op (.withCapacity 2), .op (.call 0 (.pushFront 1)), .op (.call 0 (.pushBack 2)), .access 0 .front,
    .access 0 (.slice (.len fun n => .swap 0 (n - 1) (.replace 0 7 fun v => .done (some v)))), .op (.call 1 (.pushFront 3)),
    .op (.append 0 1), .access 0 (.backMut 9), .access 0 (.slice (.look 5 fun v => .done (some v))), .access 1 .back,
    .op (.call 0 .popBack), .op (.call 0 (.splitOff 1)), .access 2 (.get 0)]

end Act

end Sdeq
