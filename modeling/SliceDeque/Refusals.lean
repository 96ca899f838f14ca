import SliceDeque.Addresses

/-!
# Refused memory

What asks for memory asks before it changes anything. When the allocator
refuses, every variable is what it was before, with its buffer, its begin and
the bytes of its memory.
-/

set_option autoImplicit false

namespace Sdeq
open Exec SliceDeque

namespace Out
variable {T δ δ' : Type} {v : Option T} {e : AllocError}

/-- What an operation that tries returns when memory is refused: the value that was passed, if any, is handed back. -/
def refusal (e : AllocError) : Option T → Out T δ
  | some v => rejected v e
  | none => failed e

theorem deques_refusal : (refusal e v : Out T δ).deques = [] := by
  cases v <;> rfl

theorem map_eq_refusal {g : δ → δ'} {r : Out T δ} : r.map g = refusal e v ↔ r = refusal e v := by
  cases v <;> cases r <;> simp [map, refusal]

end Out

namespace Call
variable {T β δ ι : Type} {E : Env T β} {s : Frame (SliceDeque β) T} {c : Call T}

/-- The methods that return when memory is refused. -/
def Tries : Call T → Prop
  | tryPushFront _ => True
  | tryPushBack _ => True
  | tryReserve _ => True
  | _ => False

/-- The value that is handed back then. -/
def handsBack : Call T → Option T
  | tryPushFront v => some v
  | tryPushBack v => some v
  | _ => none

/-- The methods that panic then. -/
def Demands : Call T → Prop
  | reserve _ => True
  | reserveExact _ => True
  | pushFront _ => True
  | pushBack _ => True
  | insert _ _ => True
  | splitOff _ => True
  | resize _ _ => True
  | resizeDefault _ => True
  | extendFromSlice _ => True
  | shrinkToFit => True
  | _ => False

/-- The outcome of a method that tries: memory was refused and nothing changed, or it was not refused. -/
def Tried (c : Call T) (s : Frame (SliceDeque β) T) (r : Out T (SliceDeque β)) (s' : Frame (SliceDeque β) T) : Prop :=
  (∃ e, r = .refusal e c.handsBack) ∧ Untouched s s' [] ∨ (∀ e, r ≠ .refusal e c.handsBack) ∧ s.world.AllGranted s'.world

theorem tried_ofPush {v : T} {s' : Frame (SliceDeque β) T} {r : Except (T × AllocError) Unit} {l : List T}
    (hc : c.handsBack = some v) (h : match r with
      | .ok () => Effect E s s' l [] ∧ Doubled s s'
      | .error (u, e) => u = v ∧ Refused E s s' e) : Tried c s (.ofPush r) s' := by
  rw [Tried, hc]
  rcases r with ⟨u, e⟩ | ⟨⟩
  · obtain ⟨rfl, hrefused⟩ := h
    exact .inl ⟨⟨e, rfl⟩, hrefused.untouched⟩
  · refine .inr ⟨fun e he => ?_, h.2.allGranted⟩
    cases he

theorem tried_ofReserve {n k : Nat} {s' : Frame (SliceDeque β) T} {r : Except AllocError Unit}
    (hr : match r with
      | .ok () => Grown E s s' k
      | .error e => Refused E s s' e) : Tried (.tryReserve n) s (.ofReserve r) s' := by
  rcases r with e | ⟨⟩
  · exact .inl ⟨⟨e, rfl⟩, hr.untouched⟩
  · refine .inr ⟨fun e he => ?_, hr.allGranted⟩
    cases he

theorem tried_run (h : WF E s.self) (ht : c.Tries) :
    wp (c.run E) s (Tried c s) fun p s' => (∀ e, p ≠ .alloc e) ∧ s.world.AllGranted s'.world := by
  have hsize : ∀ {p : Panic}, SizePanic E p → ∀ e, p ≠ .alloc e := by
    rintro p (rfl | ⟨rfl, -⟩) e <;> simp
  cases c with
  | tryPushFront v =>
    refine wp_seq (wp_tryPushFront h) (fun r s' hr => wp_pure.mpr (tried_ofPush rfl hr)) ?_
    rintro p s' ⟨hp, rfl⟩
    exact ⟨hsize hp, rfl⟩
  | tryPushBack v =>
    refine wp_seq (wp_tryPushBack h) (fun r s' hr => wp_pure.mpr (tried_ofPush rfl hr)) ?_
    rintro p s' ⟨hp, rfl⟩
    exact ⟨hsize hp, rfl⟩
  | tryReserve n =>
    refine wp_seq (wp_tryReserve h) (fun r s' hr => wp_pure.mpr (tried_ofReserve hr)) ?_
    rintro p s' ⟨rfl, hp⟩
    exact ⟨hsize hp, rfl⟩
  | _ => exact ht.elim

/-- Nothing happened but the drop of the arguments, if memory was refused. -/
def Spared (c : Call T) (s : Frame (SliceDeque β) T) (p : Panic) (s' : Frame (SliceDeque β) T) : Prop :=
  ∀ e, p = .alloc e → Untouched s s' c.given

theorem spared_bind {α : Type} {m : DeqM T β α} {f : α → DeqM T β (Out T (SliceDeque β))} {Q : α → Frame (SliceDeque β) T → Prop}
    {P : Panic → Frame (SliceDeque β) T → Prop} (h : wp m s Q P) (hf : ∀ a, ∃ r, f a = pure r)
    (hP : ∀ p s', P p s' → Spared c s p s') : wp (m >>= f) s (fun _ _ => True) (Spared c s) := by
  refine wp_seq h (fun a s' _ => ?_) hP
  obtain ⟨r, hr⟩ := hf a
  rw [hr]
  exact wp_pure.mpr trivial

theorem spared_run (h : WF E s.self) (hc : c.Demands) : wp (c.run E) s (fun _ _ => True) (Spared c s) := by
  cases c with
  | reserve n => exact spared_bind (wp_reserve h) (fun _ => ⟨_, rfl⟩) fun _ _ hp _ _ => hp.untouched.2
  | reserveExact n => exact spared_bind (wp_reserveExact h) (fun _ => ⟨_, rfl⟩) fun _ _ hp _ _ => hp.untouched.2
  | pushFront v => exact spared_bind (wp_pushFront h) (fun _ => ⟨_, rfl⟩) fun _ _ hp _ _ => hp.untouched
  | pushBack v => exact spared_bind (wp_pushBack h) (fun _ => ⟨_, rfl⟩) fun _ _ hp _ _ => hp.untouched
  | insert i v => exact spared_bind (wp_insert h) (fun _ => ⟨_, rfl⟩) fun _ _ hp _ _ => hp.2
  | splitOff k =>
    refine spared_bind (wp_splitOff h) (fun _ => ⟨_, rfl⟩) ?_
    rintro p s' (hp | ⟨rfl, -, -⟩) e he
    · exact hp.untouched
    · cases he
  | resize n v => exact spared_bind (wp_resize (f := id) h) (fun _ => ⟨_, rfl⟩) fun _ _ hp => hp.2
  | resizeDefault n => exact spared_bind (wp_resizeDefault (f := id) h) (fun _ => ⟨_, rfl⟩) fun _ _ hp => hp.2
  | extendFromSlice vs => exact spared_bind (safe_extendFromSlice h) (fun _ => ⟨_, rfl⟩) fun _ _ hp => hp.2.2
  | shrinkToFit =>
    refine spared_bind (wp_shrinkToFit h) (fun _ => ⟨_, rfl⟩) ?_
    rintro p s' (⟨-, hp⟩ | ⟨-, rfl, -, -⟩) e he
    · exact hp.untouched.2
    · cases he
  | _ => exact hc.elim

end Call

namespace Op
variable {T : Type}

def Tries : Op T → Prop
  | call _ c => c.Tries
  | _ => False

/-- The operations that panic when memory is refused. -/
def Demands : Op T → Prop
  | call _ c => c.Demands
  | append _ _ => True
  | _ => False

def handsBack : Op T → Option T
  | call _ c => c.handsBack
  | _ => none

def given : Op T → List T
  | call _ c => c.given
  | _ => []

end Op

namespace Program
variable {T β : Type} {E : Env T β} {p : Program T β} {v : Var T β} {s s' : Frame (Program T β) T} {op : Op T}

/-- Every variable is what it was; the values in `dead` were destroyed and no value was made. -/
structure Unharmed (s s' : Frame (Program T β) T) (dead : List T) : Prop where
  vars_eq : s'.self.vars = s.self.vars
  destroyed_eq : s'.world.destroyed = s.world.destroyed ++ dead
  made_eq : s'.world.made = s.world.made

theorem Unharmed.of_untouched {X : Type} {t t' : Frame X T} {dead : List T} (h : Untouched t t' dead) (hw : t.world = s.world)
    (hw' : t'.world = s'.world) (hv : s'.self.vars = s.self.vars) : Unharmed s s' dead := by
  have hlog := h.log
  rw [hw, hw'] at hlog
  refine ⟨hv, hlog.destroyed_eq, ?_⟩
  rw [hlog.made_eq, List.append_nil]

theorem put_same {i : Nat} (hi : p.vars[i]? = some v) : p.put i v = p := by
  obtain ⟨hlt, rfl⟩ := List.getElem?_eq_some_iff.mp hi
  rw [put, List.set_getElem_self]

/-- The outcome of an operation that tries. -/
def Tried {δ : Type} (op : Op T) (s : Frame (Program T β) T) (r : Out T δ) (s' : Frame (Program T β) T) : Prop :=
  (∃ e, r = .refusal e op.handsBack) ∧ Unharmed s s' [] ∨ (∀ e, r ≠ .refusal e op.handsBack) ∧ s.world.AllGranted s'.world

/-- Nothing happened but the drop of the arguments, if memory was refused. -/
def Spared (op : Op T) (s : Frame (Program T β) T) (p : Panic) (s' : Frame (Program T β) T) : Prop :=
  ∀ e, p = .alloc e → Unharmed s s' op.given

theorem tried_perform (h : (owner E).ok s.self) (ht : op.Tries) :
    wp (perform E op) s (Tried op s) fun p s' => (∀ e, p ≠ .alloc e) ∧ s.world.AllGranted s'.world := by
  obtain ⟨p, w⟩ := s
  cases op with
  | call i c =>
    simp only [perform, wp_bind, wp_self]
    split
    · rename_i d hi
      rw [wp_within]
      refine wp_mono (Call.tried_run (ok_var hi h) ht) ?_ fun _ _ => id
      rintro r t (⟨hr, hu⟩ | hr)
      · refine .inl ⟨hr, .of_untouched hu rfl rfl ?_⟩
        rw [hu.self_eq]
        exact congrArg (fun q => (q.give c.given).vars) (put_same hi)
      · exact .inr hr
    · refine wp_pure.mpr (.inr ⟨fun e he => ?_, rfl⟩)
      change Out.unit = Out.refusal e c.handsBack at he
      cases hb : c.handsBack <;> rw [hb] at he <;> cases he
  | _ => exact ht.elim

theorem spared_perform (h : (owner E).ok s.self) (hd : op.Demands) : wp (perform E op) s (fun _ _ => True) (Spared op s) := by
  obtain ⟨p, w⟩ := s
  cases op with
  | call i c =>
    simp only [perform, wp_bind, wp_self]
    split
    · rename_i d hi
      rw [wp_within]
      refine wp_mono (Call.spared_run (ok_var hi h) hd) (fun _ _ _ => trivial) fun e t hs a ha => ?_
      refine .of_untouched (hs a ha) rfl rfl ?_
      rw [(hs a ha).self_eq]
      exact congrArg (fun q => (q.give c.given).vars) (put_same hi)
    · exact wp_pure.mpr trivial
  | append i j =>
    simp only [perform, wp_bind, wp_self]
    split
    · rename_i d d' hi hj
      rw [wp_ite]
      refine ⟨fun _ => wp_pure.mpr trivial, fun _ => ?_⟩
      rw [wp_within]
      refine wp_seq (wp_append (p := ⟨(d, d'), w⟩) (ok_var hi h) (ok_var hj h)) (fun _ _ _ => wp_pure.mpr trivial) ?_
      intro e t hd a _
      refine .of_untouched hd.untouched rfl rfl ?_
      rw [hd.untouched.self_eq]
      change ((p.put i (.deque d)).put j (.deque d')).vars = p.vars
      rw [put_same hi, put_same hj]
    · exact wp_pure.mpr trivial
  | _ => exact hd.elim

theorem Tried.accept {r : Out T (SliceDeque β)} (h : Tried op s r s') (n : Nat) :
    Tried op s (r.map fun _ => n) ⟨s'.self.accept r, s'.world⟩ := by
  rcases h with ⟨⟨e, rfl⟩, hu⟩ | ⟨hr, hg⟩
  · refine .inl ⟨⟨e, Out.map_eq_refusal.mpr rfl⟩, ?_, hu.destroyed_eq, hu.made_eq⟩
    simp [Program.accept, Out.deques_refusal, hu.vars_eq]
  · exact .inr ⟨fun e he => hr e (Out.map_eq_refusal.mp he), hg⟩

theorem reached_append (ops : List (Op T)) (op : Op T) : reached E (ops ++ [op]) = (step E op (reached E ops)).state :=
  final_append ops [op] boot

/-- In exact runs refused memory changes nothing but the fate of the arguments: what tries returns them,
what panics drops them. -/
theorem refused_unharmed {ops : List (Op T)} (hx : ExactRun E (ops ++ [op])) :
    (op.Tries → (∀ e, (step E op (reached E ops)).result ≠ .error (.alloc e)) ∧
      ((∃ e, (step E op (reached E ops)).result = .ok (.refusal e op.handsBack)) ∧
          Unharmed (reached E ops) (reached E (ops ++ [op])) [] ∨
        (∀ e, (step E op (reached E ops)).result ≠ .ok (.refusal e op.handsBack)) ∧
          (reached E ops).world.AllGranted (reached E (ops ++ [op])).world)) ∧
      (op.Demands → ∀ e, (step E op (reached E ops)).result = .error (.alloc e) →
        Unharmed (reached E ops) (reached E (ops ++ [op])) op.given) := by
  obtain ⟨hops, hop, -⟩ := always_append.mp hx
  have hok := ok_reached hops
  rw [reached_append]
  constructor
  · intro ht
    have hstep : wp (step E op) (reached E ops) (Tried op (reached E ops))
        fun p s' => (∀ e, p ≠ .alloc e) ∧ (reached E ops).world.AllGranted s'.world :=
      wp_finish (wp_mono (tried_perform hok ht) (fun _ _ h => h.accept _) fun _ _ => id)
    have hends := hstep.ends hop
    revert hends
    cases (step E op (reached E ops)).result with
    | ok r =>
      rintro (⟨⟨e, rfl⟩, hu⟩ | ⟨hr, hg⟩)
      · exact ⟨by simp, .inl ⟨⟨e, rfl⟩, hu⟩⟩
      · exact ⟨by simp, .inr ⟨by simpa using hr, hg⟩⟩
    | error p =>
      rintro ⟨hp, hg⟩
      exact ⟨by simpa using hp, .inr ⟨by simp, hg⟩⟩
  · intro hd e he
    have hstep : wp (step E op) (reached E ops) (fun _ _ => True) (Spared op (reached E ops)) :=
      wp_finish (wp_mono (spared_perform hok hd) (fun _ _ _ => trivial) fun _ _ => id)
    have hends := hstep.ends hop
    rw [he] at hends
    exact hends e rfl

/-- One element fills a gigabyte, and no mapping is larger than four. The size for `2 ^ 63 + 1` elements wraps around
to that for one; the memory for a second one is refused. -/
def greedy : List (Op Nat) := [.new, .call 0 (.pushBack 7)]

/-- The mapping of every deque, and where its elements begin. -/
def places (s : Frame (Program T β) T) : List (Option (Nat × Int)) :=
  s.self.vars.map fun v => v.deque?.map fun d => (d.buf.ptr.id, d.elems.ptr)

/-- When `resize` panics the deque has another buffer. -/
theorem resize_harmed :
    (step (cells false 0x40000000 (by decide)) (.call 0 (.resize (isizeBound + 1) 9))
      (reached (cells false 0x40000000 (by decide)) greedy)).result = .error (.alloc .oom) ∧
      places (reached (cells false 0x40000000 (by decide)) (greedy ++ [.call 0 (.resize (isizeBound + 1) 9)])) ≠
        places (reached (cells false 0x40000000 (by decide)) greedy) := ⟨rfl, by decide +kernel⟩

theorem greedy_unharmed :
    (step (cells false 0x40000000 (by decide)) (.call 0 (.resize 2 9))
      (reached (cells false 0x40000000 (by decide)) greedy)).result = .error (.alloc .oom) ∧
      Unharmed (reached (cells false 0x40000000 (by decide)) greedy)
        (reached (cells false 0x40000000 (by decide)) (greedy ++ [.call 0 (.resize 2 9)])) [9] :=
  ⟨rfl, (refused_unharmed (by decide +kernel)).2 trivial .oom rfl⟩

end Program

end Sdeq
