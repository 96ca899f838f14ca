import SliceDeque.Contracts

/-!
# What a program may do

A program with closures that panic, refused memory, panicking destructors and
iterators that borrow their deques is one with lists in its variables. An iterator
holds the list that is left of the deque that it borrows beside its items.
-/

set_option autoImplicit false

namespace Sdeq
open Exec SliceDeque

/-- What a variable stands for. -/
inductive Held (T : Type) where
  | gone
  | list (l : List T)
  | drain (front items back : List T)
  | filter (pred : List T → T → Option Bool × T) (S : Sieve T)
  | items (l : List T)

/-- What is left when an iterator is leaked, or its destructor does not get to its end: a deque without
the elements from the start of the range on. -/
def Held.unfinished {T : Type} : Held T → Held T
  | drain front _ _ => list front
  | filter _ _ => list []
  | _ => gone

namespace Turn
variable {T β : Type}

/-- `splice` may lose the elements behind its range. -/
def tracked : Turn T → Bool
  | splice _ _ _ => false
  | _ => true

/-- The bounds are those of a range of a list. -/
def Within (start end_ : Bound) (l : List T) : Prop := start.low ≤ end_.high l.length ∧ end_.high l.length ≤ l.length

instance (start end_ : Bound) (l : List T) : Decidable (Within start end_ l) := inferInstanceAs (Decidable (_ ∧ _))

/-- What an operation on a variable returns, and what the variable holds then. -/
def onHeld : Turn T → Held T → Except Panic (Out T (List T)) × Held T
  | drain start end_, .list l =>
    if Within start end_ l then
      (.ok .unit, .drain (l.take start.low) ((l.drop start.low).take (end_.high l.length - start.low)) (l.drop (end_.high l.length)))
    else (.error .assert, .list l)
  | drainFilter pred, .list l => (.ok .unit, .filter pred ⟨[], [], l, []⟩)
  | intoIter, .list l => (.ok .unit, .items l)
  | next, .drain front items back => (.ok (.value items.head?), .drain front items.tail back)
  | next, .items l => (.ok (.value l.head?), .items l.tail)
  | next, .filter pred S => ((S.next pred).1.elim (.error .user) fun v => .ok (.value v), .filter pred (S.next pred).2)
  | nextBack, .drain front items back => (.ok (.value items.getLast?), .drain front items.dropLast back)
  | nextBack, .items l => (.ok (.value l.getLast?), .items l.dropLast)
  | drop, .drain front _ back => (.ok .unit, .list (front ++ back))
  | drop, .filter pred S =>
    if Sieve.Calm pred S.seen S.rest then (.ok .unit, .list (S.kept ++ Sieve.rejected pred S.seen S.rest))
    else (.error .user, .list [])
  | drop, _ => (.ok .unit, .gone)
  | leak, h => (.ok .unit, h.unfinished)
  | _, h => (.ok .unit, h)

/-- An index behind a bound may overflow, and dropping may panic. -/
inductive Allows (E : Env T β) : Turn T → Held T → Except Panic (Out T (List T)) → Held T → Prop where
  | acts {t : Turn T} {h : Held T} : Allows E t h (t.onHeld h).1 (t.onHeld h).2
  | overflows {start end_ : Bound} {l : List T} (h : ¬ Within start end_ l) :
      Allows E (.drain start end_) (.list l) (.error .overflow) (.list l)
  | breaks {h : Held T} (hh : h ≠ .gone) (hd : DestructorsPanic E) : Allows E .drop h (.error .destructor) h.unfinished

end Turn

namespace Op
variable {T β : Type}

/-- What the types of the source exclude. -/
def Idle (hs : List (Held T)) : Op T → Prop
  | call i _ => ∀ l, hs[i]? ≠ some (.list l)
  | turn i _ => hs[i]? = none
  | append i j => i = j ∨ (∀ l, hs[i]? ≠ some (.list l)) ∨ ∀ l, hs[j]? ≠ some (.list l)
  | cloneFrom i j => i = j ∨ (∀ l, hs[i]? ≠ some (.list l)) ∨ ∀ l, hs[j]? ≠ some (.list l)
  | _ => False

/-- What an operation may return or panic with, and what the variables hold then. -/
inductive Allows (E : Env T β) : Op T → List (Held T) → Except Panic (Out T (List T)) → List (Held T) → Prop where
  | idle {op : Op T} {hs : List (Held T)} (h : op.Idle hs) : Allows E op hs (.ok .unit) hs
  | new {hs : List (Held T)} : Allows E .new hs (.ok (.deque [])) hs
  | withCapacity {n : Nat} {hs : List (Held T)} : Allows E (.withCapacity n) hs (.ok (.deque [])) hs
  | withCapacityPanics {n : Nat} {hs : List (Held T)} {p : Panic} (hp : Refusal E p) : Allows E (.withCapacity n) hs (.error p) hs
  | fromIter {iter : UserIter T} {hs : List (Held T)} {vs : List T} (h : iter.rest = vs.map some) :
      Allows E (.fromIter iter) hs (.ok (.deque vs)) hs
  | fromIterPanics {iter : UserIter T} {hs : List (Held T)} {vs : List T} {p : Panic} (h : Stuck E iter.rest vs p) :
      Allows E (.fromIter iter) hs (.error p) hs
  | call {i : Nat} {c : Call T} {hs : List (Held T)} {l l' : List T} {r : Except Panic (Out T (List T))}
      (hi : hs[i]? = some (.list l)) (h : c.Allows E l r l') : Allows E (.call i c) hs r (hs.set i (.list l'))
  | turn {i : Nat} {t : Turn T} {hs : List (Held T)} {v v' : Held T} {r : Except Panic (Out T (List T))}
      (hi : hs[i]? = some v) (h : t.Allows E v r v') : Allows E (.turn i t) hs r (hs.set i v')
  | append {i j : Nat} {hs : List (Held T)} {l l' : List T} (hij : i ≠ j) (hi : hs[i]? = some (.list l))
      (hj : hs[j]? = some (.list l')) :
      Allows E (.append i j) hs (.ok .unit) ((hs.set i (.list (l ++ l'))).set j (.list []))
  | appendPanics {i j : Nat} {hs : List (Held T)} {l l' : List T} {p : Panic} (hij : i ≠ j) (hi : hs[i]? = some (.list l))
      (hj : hs[j]? = some (.list l')) (hp : Refusal E p) : Allows E (.append i j) hs (.error p) hs
  | cloneFrom {i j : Nat} {hs : List (Held T)} {l l' cs : List T} (hij : i ≠ j) (hi : hs[i]? = some (.list l))
      (hj : hs[j]? = some (.list l')) (h : List.Forall₂ (CloneOf E) l' cs) :
      Allows E (.cloneFrom i j) hs (.ok .unit) (hs.set i (.list cs))
  /-- clones of the first elements are left -/
  | cloneFromPanics {i j : Nat} {hs : List (Held T)} {l l' us cs : List T} {p : Panic} (hij : i ≠ j)
      (hi : hs[i]? = some (.list l)) (hj : hs[j]? = some (.list l')) (hp : p = .user ∨ Refusal E p) (hus : us <+: l')
      (h : List.Forall₂ (CloneOf E) us cs) : Allows E (.cloneFrom i j) hs (.error p) (hs.set i (.list cs))
  | cloneFromBreaks {i j : Nat} {hs : List (Held T)} {l : List T} (hij : i ≠ j) (hi : hs[i]? = some (.list l))
      (hd : DestructorsPanic E) : Allows E (.cloneFrom i j) hs (.error .destructor) (hs.set i (.list []))

/-- The operations of which that is said. -/
def tracked (p : Program T β) : Op T → Bool
  | call i c =>
    match p.vars[i]? with
    | some (.deque d) => c.tracked d.elems.len
    | _ => true
  | turn _ t => t.tracked
  | _ => true

end Op

/-- What a variable holds. -/
inductive Var.Shows {T β : Type} (E : Env T β) : Var T β → Held T → Prop where
  | gone : Shows E .gone .gone
  | deque (d : SliceDeque β) : Shows E (.deque d) (.list (d.toList E))
  | drain (dr : Drain β) : Shows E (.drain dr) (.drain (dr.deq.toList E) (dr.items E) (dr.tail E))
  | drainFilter {df : DrainFilter T β} (pred : List T → T → Option Bool × T) {S : Sieve T} (h : DrainFilter.Shows E df S) :
      Shows E (.drainFilter df pred) (.filter pred S)
  | intoIter (it : IntoIter β) : Shows E (.intoIter it) (.items (it.vals E))

namespace Turn
variable {T β X : Type} {E : Env T β} {v : Var T β} {x y : Held T} {t : Turn T} {w : World T}

/-- The operation does what is allowed. -/
def Obeys (E : Env T β) (t : Turn T) (x : Held T) (m : Method T (Var T β) (Out T (SliceDeque β))) (s : Frame (Var T β) T) : Prop :=
  wp m s (fun r s' => ∃ y, Allows E t x (.ok (r.map (toList E))) y ∧ Var.Shows E s'.self y)
    fun p s' => ∃ y, Allows E t x (.error p) y ∧ Var.Shows E s'.self y

theorem allows_of_eq {r : Except Panic (Out T (List T))} (h : t.onHeld x = (r, y)) : Allows E t x r y := by
  have hacts := Allows.acts (E := E) (t := t) (h := x)
  rwa [h] at hacts

theorem obeys_unit {m : Method T (Var T β) (Out T (SliceDeque β))} (hm : m = pure .unit) (hx : Var.Shows E v x)
    (h : t.onHeld x = (.ok .unit, x)) : Obeys E t x m ⟨v, w⟩ := by
  rw [hm]
  exact wp_pure.mpr ⟨x, allows_of_eq h, hx⟩

/-- An operation on deques does nothing to other variables. -/
theorem obeys_of_deque {m : Method T (Var T β) (Out T (SliceDeque β))} (hx : Var.Shows E v x)
    (hm : (∀ d, v ≠ .deque d) → m = pure .unit) (hidle : (∀ l, x ≠ .list l) → t.onHeld x = (.ok .unit, x))
    (hd : ∀ d, v = .deque d → x = .list (d.toList E) → Obeys E t x m ⟨v, w⟩) : Obeys E t x m ⟨v, w⟩ := by
  cases hx with
  | deque d => exact hd d rfl rfl
  | gone => exact obeys_unit (hm (by simp)) .gone (hidle (by simp))
  | drain dr => exact obeys_unit (hm (by simp)) (.drain dr) (hidle (by simp))
  | drainFilter pred h => exact obeys_unit (hm (by simp)) (.drainFilter pred h) (hidle (by simp))
  | intoIter it => exact obeys_unit (hm (by simp)) (.intoIter it) (hidle (by simp))

theorem obeys_borrow {make : DeqM T β X} {wrap : X → Var T β} (hx : Var.Shows E v x)
    (hidle : (∀ l, x ≠ .list l) → t.onHeld x = (.ok .unit, x))
    (hmake : ∀ d, v = .deque d → x = .list (d.toList E) →
      wp make ⟨d, w⟩ (fun a _ => ∃ y, Allows E t x (.ok .unit) y ∧ Var.Shows E (wrap a) y)
        fun p s' => ∃ y, Allows E t x (.error p) y ∧ Var.Shows E (.deque s'.self) y) :
    Obeys E t x (Var.borrow wrap make v) ⟨v, w⟩ := by
  refine obeys_of_deque hx (by cases v <;> simp [Var.borrow]) hidle ?_
  rintro d rfl hl
  simp only [Obeys, Var.borrow, wp_bind, wp_within, wp_setSelf, wp_pure]
  exact hmake d rfl hl

theorem obeys_drain {start end_ : Bound} (h : (Var.owner E).ok v) (hx : Var.Shows E v x) :
    Obeys E (.drain start end_) x (Var.borrow .drain (SliceDeque.drain E start end_) v) ⟨v, w⟩ := by
  refine obeys_borrow hx (by cases x <;> simp [onHeld]) ?_
  rintro d rfl rfl
  have hd : WF E d := h
  refine wp_mono (wp_drain (s := ⟨d, w⟩) hd) ?_ ?_
  · rintro dr s' ⟨hab, hb, hdr, rfl⟩
    rw [← toList_length (E := E)] at hab hb hdr
    have hheld : onHeld (.drain start end_) (.list (d.toList E)) =
        (.ok .unit, .drain (dr.deq.toList E) (dr.items E) (dr.tail E)) := by
      rw [onHeld, if_pos ⟨hab, hb⟩, hdr.kept_eq, hdr.items_eq, hdr.tail_eq]
    exact ⟨_, allows_of_eq hheld, .drain dr⟩
  · rintro p s' ⟨rfl, hp, hout⟩
    rw [← toList_length (E := E)] at hout
    refine ⟨_, ?_, .deque d⟩
    rcases hp with rfl | rfl
    · exact .overflows hout
    · exact allows_of_eq (if_neg hout)

theorem obeys_drainFilter {pred : List T → T → Option Bool × T} (h : (Var.owner E).ok v) (hx : Var.Shows E v x) :
    Obeys E (.drainFilter pred) x (Var.borrow (.drainFilter · pred) (SliceDeque.drainFilter E) v) ⟨v, w⟩ := by
  refine obeys_borrow hx (by cases x <;> simp [onHeld]) ?_
  rintro d rfl rfl
  have hd : WF E d := h
  refine wp_mono (wp_drainFilter (s := ⟨d, w⟩) (P := fun _ _ => False) hd) ?_ fun _ _ => False.elim
  rintro df s' ⟨hshows, -⟩
  exact ⟨_, allows_of_eq rfl, .drainFilter pred hshows⟩

theorem obeys_intoIter (h : (Var.owner E).ok v) (hx : Var.Shows E v x) :
    Obeys E .intoIter x (Var.consume .intoIter (SliceDeque.intoIter E) v) ⟨v, w⟩ := by
  refine obeys_of_deque hx (by cases v <;> simp [Var.consume]) (by cases x <;> simp [onHeld]) ?_
  rintro d rfl rfl
  refine wp_consume (SliceDeque.wp_intoIter h fun it hit => ⟨_, allows_of_eq rfl, ?_⟩)
  rw [← hit.vals_eq]
  exact .intoIter it

theorem obeys_rebuild (h : (Var.owner E).ok v) (hx : Var.Shows E v x) : Obeys E .rebuild x (Var.rebuild E v) ⟨v, w⟩ := by
  refine obeys_of_deque hx (by cases v <;> simp [Var.rebuild]) (by cases x <;> simp [onHeld]) ?_
  rintro d rfl rfl
  have hd : WF E d := h
  rw [Obeys, Var.rebuild, wp_ite]
  refine ⟨fun hr => wp_consume (SliceDeque.wp_fromRawParts hd hr ?_), fun _ => obeys_unit rfl (.deque d) rfl⟩
  exact ⟨_, allows_of_eq rfl, .deque _⟩

/-- An item from an iterator. -/
theorem obeys_within (wrap : X → Var T β) {m : Method T X (Option T)} {a : X}
    (h : wp m ⟨a, w⟩ (fun r s' => ∃ y, Allows E t x (.ok (.value r)) y ∧ Var.Shows E (wrap s'.self) y)
      fun p s' => ∃ y, Allows E t x (.error p) y ∧ Var.Shows E (wrap s'.self) y) :
    Obeys E t x (within a wrap (Var.yield m)) ⟨wrap a, w⟩ := by
  rw [Obeys, wp_within]
  exact wp_seq h (fun _ _ hr => wp_pure.mpr hr) fun _ _ => id

theorem shows_taken {dr : Drain β} {s' : Frame (Drain β) T} {l : List T} (h : (Drain.view E).Taken ⟨dr, w⟩ s' l) :
    Var.Shows E (.drain s'.self) (.drain (dr.deq.toList E) l (dr.tail E)) := by
  obtain ⟨hdeq, htail⟩ := Drain.deq_of_fixed h.fixed_eq
  have hitems : s'.self.items E = l := h.items_eq
  rw [← hdeq, ← htail, ← hitems]
  exact .drain s'.self

theorem shows_consumed {it : IntoIter β} {s' : Frame (IntoIter β) T} {l : List T} (h : (IntoIter.view E).Taken ⟨it, w⟩ s' l) :
    Var.Shows E (.intoIter s'.self) (.items l) := by
  have hitems : s'.self.vals E = l := h.items_eq
  rw [← hitems]
  exact .intoIter s'.self

theorem obeys_next (h : (Var.owner E).ok v) (hx : Var.Shows E v x) : Obeys E .next x (Var.next E v) ⟨v, w⟩ := by
  cases hx with
  | gone => exact obeys_unit rfl .gone rfl
  | deque d => exact obeys_unit rfl (.deque d) rfl
  | drain dr =>
    refine obeys_within .drain (wp_mono (Drain.wp_next (s := ⟨dr, w⟩) (P := fun _ _ => False) h) ?_ fun _ _ => False.elim)
    rintro _ s' ⟨rfl, ht⟩
    exact ⟨_, allows_of_eq rfl, shows_taken ht⟩
  | @drainFilter df pred S hshows =>
    refine obeys_within (.drainFilter · pred) (wp_mono (DrainFilter.wp_next (s := ⟨df, w⟩) hshows) ?_ ?_)
    · rintro r s' ⟨hr, hs⟩
      exact ⟨_, allows_of_eq (by rw [onHeld, hr]; rfl), .drainFilter pred hs.shows⟩
    · rintro p s' ⟨rfl, hr, hs⟩
      exact ⟨_, allows_of_eq (by rw [onHeld, hr]; rfl), .drainFilter pred hs.shows⟩
  | intoIter it =>
    refine obeys_within .intoIter (wp_mono (IntoIter.wp_next (s := ⟨it, w⟩) (P := fun _ _ => False) h) ?_ fun _ _ => False.elim)
    rintro _ s' ⟨rfl, ht⟩
    exact ⟨_, allows_of_eq rfl, shows_consumed ht⟩

theorem obeys_nextBack (h : (Var.owner E).ok v) (hx : Var.Shows E v x) : Obeys E .nextBack x (Var.nextBack E v) ⟨v, w⟩ := by
  cases hx with
  | gone => exact obeys_unit rfl .gone rfl
  | deque d => exact obeys_unit rfl (.deque d) rfl
  | drain dr =>
    refine obeys_within .drain (wp_mono (Drain.wp_nextBack (s := ⟨dr, w⟩) (P := fun _ _ => False) h) ?_ fun _ _ => False.elim)
    rintro _ s' ⟨rfl, ht⟩
    exact ⟨_, allows_of_eq rfl, shows_taken ht⟩
  | drainFilter pred hshows => exact obeys_unit rfl (.drainFilter pred hshows) rfl
  | intoIter it =>
    refine obeys_within .intoIter (wp_mono (IntoIter.wp_nextBack (s := ⟨it, w⟩) (P := fun _ _ => False) h) ?_ fun _ _ => False.elim)
    rintro _ s' ⟨rfl, ht⟩
    exact ⟨_, allows_of_eq rfl, shows_consumed ht⟩

theorem obeys_dropped {put : X → Var T β} {m : Method T X Unit} {a : X}
    (h : wp m ⟨a, w⟩ (fun _ s' => ∃ y, Allows E t x (.ok .unit) y ∧ Var.Shows E (put s'.self) y)
      fun p s' => ∃ y, Allows E t x (.error p) y ∧ Var.Shows E (put s'.self) y) :
    Obeys E t x (within a put (Var.dropped m)) ⟨v, w⟩ := by
  rw [Obeys, wp_within]
  exact wp_seq h (fun _ _ hr => wp_pure.mpr hr) fun _ _ => id

theorem obeys_drop (h : (Var.owner E).ok v) (hx : Var.Shows E v x) : Obeys E .drop x (Var.drop E v) ⟨v, w⟩ := by
  cases hx with
  | gone => exact obeys_unit rfl .gone rfl
  | deque d =>
    have hd : WF E d := h
    rw [Var.drop]
    apply obeys_dropped
    simp only [dropSelf, wp_bind, wp_self]
    refine wp_mono (SliceDeque.wp_drop hd) (fun _ _ _ => ⟨_, allows_of_eq rfl, .gone⟩) ?_
    rintro p s' ⟨rfl, hpanics, -⟩
    exact ⟨_, .breaks (by simp) hpanics, .gone⟩
  | drain dr =>
    rw [Var.drop]
    apply obeys_dropped
    refine wp_mono (Drain.wp_drop (s := ⟨dr, w⟩) h) ?_ ?_
    · rintro _ s' ⟨heff, -⟩
      have hl : s'.self.deq.toList E = dr.deq.toList E ++ dr.tail E := heff.toList_eq
      exact ⟨_, allows_of_eq (by rw [onHeld, ← hl]), .deque _⟩
    · rintro p s' ⟨rfl, hpanics, k, hr⟩
      obtain ⟨hdeq, -⟩ := Drain.deq_of_fixed hr.fixed_eq
      rw [hdeq]
      exact ⟨_, .breaks (by simp) hpanics, .deque dr.deq⟩
  | @drainFilter df pred S hshows =>
    rw [Var.drop]
    apply obeys_dropped
    refine wp_mono (DrainFilter.wp_drop (s := ⟨df, w⟩) hshows) ?_ ?_
    · rintro _ s' hc
      exact ⟨_, allows_of_eq (by rw [onHeld, if_pos hc.calm, ← hc.toList_eq]), .deque _⟩
    · rintro p s' hstop
      have hnil : s'.self.deq.toList E = [] := List.eq_nil_of_length_eq_zero (by rw [toList_length, hstop.ok.len_eq])
      have hshows' : Var.Shows E (.deque s'.self.deq) (.list []) := by
        rw [← hnil]
        exact .deque _
      rcases hstop.cause with ⟨rfl, hcalm⟩ | ⟨rfl, hquiet⟩
      · exact ⟨_, allows_of_eq (by rw [onHeld, if_neg hcalm]), hshows'⟩
      · exact ⟨_, .breaks (by simp) (Classical.byContradiction fun hn => hquiet (.of_not hn _ _)), hshows'⟩
  | intoIter it =>
    rw [Var.drop]
    apply obeys_dropped
    refine wp_mono (IntoIter.wp_drop (s := ⟨it, w⟩) h) (fun _ _ _ => ⟨_, allows_of_eq rfl, .gone⟩) ?_
    rintro p s' ⟨rfl, hpanics, -⟩
    exact ⟨_, .breaks (by simp) hpanics, .gone⟩

theorem obeys_leak (hx : Var.Shows E v x) : Obeys E .leak x (Var.dropped (setSelf v.leak)) ⟨v, w⟩ := by
  simp only [Obeys, Var.dropped, wp_bind, wp_setSelf, wp_pure]
  refine ⟨_, allows_of_eq rfl, ?_⟩
  cases hx with
  | drain dr => exact .deque dr.deq
  | @drainFilter df pred S hshows =>
    have hnil : df.deq.toList E = [] := List.eq_nil_of_length_eq_zero (by rw [toList_length, hshows.len_eq])
    rw [Held.unfinished, ← hnil]
    exact .deque df.deq
  | _ => exact .gone

theorem obeys_run (h : (Var.owner E).ok v) (hx : Var.Shows E v x) (ht : t.tracked = true) :
    Obeys E t x (t.run E v) ⟨v, w⟩ := by
  cases t with
  | drain start end_ => exact obeys_drain h hx
  | splice start end_ iter => cases ht
  | drainFilter pred => exact obeys_drainFilter h hx
  | intoIter => exact obeys_intoIter h hx
  | rebuild => exact obeys_rebuild h hx
  | next => exact obeys_next h hx
  | nextBack => exact obeys_nextBack h hx
  | drop => exact obeys_drop h hx
  | leak => exact obeys_leak hx

end Turn

namespace Program
variable {T β : Type} (E : Env T β)

/-- A step of a program: a list that is returned gets a variable. -/
inductive Allows (op : Op T) (hs : List (Held T)) : Except Panic (Out T Nat) → List (Held T) → Prop where
  | ok {r : Out T (List T)} {hs' : List (Held T)} (h : op.Allows E hs (.ok r) hs') :
      Allows op hs (.ok (r.map fun _ => hs'.length)) (hs' ++ r.deques.map .list)
  | error {p : Panic} {hs' : List (Held T)} (h : op.Allows E hs (.error p) hs') : Allows op hs (.error p) hs'

/-- No machine operation of a tracked step wraps around. -/
structure Tracked (op : Op T) (s : Frame (Program T β) T) : Prop where
  tracked : op.tracked s.self = true
  exact : Exact (step E op) s

instance (op : Op T) (s : Frame (Program T β) T) : Decidable (Tracked E op s) :=
  decidable_of_iff (op.tracked s.self = true ∧ Exact (step E op) s) ⟨fun h => ⟨h.1, h.2⟩, fun h => ⟨h.tracked, h.exact⟩⟩

variable {E} {p : Program T β} {s : Frame (Program T β) T} {op : Op T} {hs : List (Held T)} {i j : Nat}

/-- The operation does what is allowed. -/
def Obeys (E : Env T β) (op : Op T) (hs : List (Held T)) (m : Method T (Program T β) (Out T (SliceDeque β)))
    (s : Frame (Program T β) T) : Prop :=
  wp m s (fun r s' => ∃ hs', op.Allows E hs (.ok (r.map (toList E))) hs' ∧ List.Forall₂ (Var.Shows E) s'.self.vars hs')
    fun p s' => ∃ hs', op.Allows E hs (.error p) hs' ∧ List.Forall₂ (Var.Shows E) s'.self.vars hs'

section Shows
variable (hshows : List.Forall₂ (Var.Shows E) p.vars hs)
include hshows

/-- A variable holds a list exactly if it is a deque. -/
theorem deque_or_not (i : Nat) :
    (∃ d, p.vars[i]? = some (.deque d) ∧ hs[i]? = some (.list (d.toList E))) ∨
      (∀ d, p.vars[i]? ≠ some (.deque d)) ∧ ∀ l, hs[i]? ≠ some (.list l) := by
  rcases forall₂_getElem? hshows i with ⟨hv, hx⟩ | ⟨v, x, hv, hx, hvx⟩
  · exact .inr ⟨by simp [hv], by simp [hx]⟩
  · cases hvx with
    | deque d => exact .inl ⟨d, hv, hx⟩
    | _ => exact .inr ⟨by simp [hv], by simp [hx]⟩

theorem shows_put {v : Var T β} {x : Held T} (hv : Var.Shows E v x) (i : Nat) :
    List.Forall₂ (Var.Shows E) (p.put i v).vars (hs.set i x) := forall₂_set hshows hv i

theorem shows_put_same {v : Var T β} {x : Held T} (hv : Var.Shows E v x) (hx : hs[i]? = some x) :
    List.Forall₂ (Var.Shows E) (p.put i v).vars hs := by
  have hput := shows_put hshows hv i
  obtain ⟨hi, rfl⟩ := List.getElem?_eq_some_iff.mp hx
  rwa [List.set_getElem_self] at hput

theorem obeys_idle {w : World T} (h : op.Idle hs) : Obeys E op hs (pure .unit) ⟨p, w⟩ :=
  wp_pure.mpr ⟨hs, .idle h, hshows⟩

end Shows

theorem shows_list {d : SliceDeque β} {l : List T} (h : d.toList E = l) : Var.Shows E (.deque d) (.list l) := by
  rw [← h]
  exact .deque d

theorem obeys_perform (h : (owner E).ok s.self) (hshows : List.Forall₂ (Var.Shows E) s.self.vars hs)
    (hop : op.tracked s.self = true) : Obeys E op hs (perform E op) s := by
  obtain ⟨p, w⟩ := s
  cases op with
  | new =>
    refine wp_pure.mpr ⟨hs, ?_, hshows⟩
    rw [Out.map, toList_new]
    exact .new
  | withCapacity n =>
    refine wp_seq wp_withCapacity ?_ fun e s' hp => ⟨hs, .withCapacityPanics hp.untouched.1, ?_⟩
    · rintro d s' ⟨hd, -⟩
      refine wp_pure.mpr ⟨hs, ?_, ?_⟩
      · rw [Out.map, hd.toList_eq]
        exact .withCapacity
      · rw [hd.self_eq]
        exact hshows
    · rw [hp.untouched.2.self_eq]
      exact hshows
  | fromIter iter =>
    have hself : wp (SliceDeque.fromIter E iter : Method T (Program T β) (SliceDeque β)) ⟨p, w⟩
        (fun _ s' => s'.self = p) fun _ s' => s'.self = p := Blind.wp_self_eq (fun _ => Blind.fromIter) ⟨p, w⟩
    refine wp_seq (wp_and hself (wp_fromIter_iter iter)) ?_ ?_
    · rintro d s' ⟨hs', vs, hvs, hd⟩
      refine wp_pure.mpr ⟨hs, ?_, by rwa [hs']⟩
      rw [Out.map, hd]
      exact .fromIter hvs
    · rintro e s' ⟨hs', vs, hstuck⟩
      exact ⟨hs, .fromIterPanics hstuck, by rwa [hs']⟩
  | call i c =>
    simp only [Obeys, perform, wp_bind, wp_self]
    rcases deque_or_not hshows i with ⟨d, hv, hx⟩ | ⟨hv, hx⟩
    · simp only [Op.tracked, hv] at hop
      rw [hv]
      refine wp_within.mpr (wp_mono (Call.obeys_run (s := ⟨d, w⟩) (ok_var hv h) hop) ?_ ?_)
      · exact fun r s' hr => ⟨_, .call hx hr, shows_put hshows (.deque s'.self) i⟩
      · exact fun e s' he => ⟨_, .call hx he, shows_put hshows (.deque s'.self) i⟩
    · split
      · rename_i d hi
        exact absurd hi (hv d)
      · exact obeys_idle hshows hx
  | turn i t =>
    simp only [Obeys, perform, wp_bind, wp_self]
    rcases forall₂_getElem? hshows i with ⟨hv, hx⟩ | ⟨v, x, hv, hx, hvx⟩
    · rw [hv]
      exact obeys_idle hshows hx
    · rw [hv]
      refine wp_within.mpr (wp_mono (Turn.obeys_run (ok_var hv h) hvx hop) ?_ ?_)
      · rintro r s' ⟨y, hy, hshown⟩
        exact ⟨_, .turn hx hy, shows_put hshows hshown i⟩
      · rintro e s' ⟨y, hy, hshown⟩
        exact ⟨_, .turn hx hy, shows_put hshows hshown i⟩
  | append i j =>
    simp only [Obeys, perform, wp_bind, wp_self]
    rcases deque_or_not hshows i with ⟨d, hv, hx⟩ | ⟨hv, hx⟩
    · rcases deque_or_not hshows j with ⟨d', hv', hx'⟩ | ⟨hv', hx'⟩
      · simp only [hv, hv', wp_ite]
        refine ⟨fun hij => obeys_idle hshows (.inl hij), fun hij => ?_⟩
        refine wp_within.mpr (wp_seq (wp_append (p := ⟨(d, d'), w⟩) (ok_var hv h) (ok_var hv' h)) ?_ ?_)
        · rintro _ t ⟨heff, hsnd⟩
          exact wp_pure.mpr ⟨_, .append hij hx hx', shows_put (shows_put hshows (shows_list heff.toList_eq) i)
            (shows_list (by rw [hsnd]; rfl)) j⟩
        · rintro e t hd
          refine ⟨_, .appendPanics hij hx hx' hd.refusal, ?_⟩
          rw [hd.untouched.self_eq]
          exact shows_put_same (shows_put_same hshows (.deque d) hx) (.deque d') hx'
      · split
        · rename_i d d' hi hj
          exact absurd hj (hv' d')
        · exact obeys_idle hshows (.inr (.inr hx'))
    · split
      · rename_i d d' hi hj
        exact absurd hi (hv d)
      · exact obeys_idle hshows (.inr (.inl hx))
  | cloneFrom i j =>
    simp only [Obeys, perform, wp_bind, wp_self]
    rcases deque_or_not hshows i with ⟨d, hv, hx⟩ | ⟨hv, hx⟩
    · rcases deque_or_not hshows j with ⟨d', hv', hx'⟩ | ⟨hv', hx'⟩
      · simp only [hv, hv', wp_ite]
        refine ⟨fun hij => obeys_idle hshows (.inl hij), fun hij => ?_⟩
        refine wp_within.mpr (wp_seq (wp_cloneFrom_clones (s := ⟨d, w⟩) (ok_var hv h) (ok_var hv' h)) ?_ ?_)
        · rintro _ t ⟨cs, hcs, ht⟩
          exact wp_pure.mpr ⟨_, .cloneFrom hij hx hx' hcs, shows_put hshows (shows_list ht.toList_eq) i⟩
        · rintro e t (⟨rfl, hd, ht⟩ | ⟨hp, us, cs, hus, hcs, ht⟩)
          · exact ⟨_, .cloneFromBreaks hij hx hd, shows_put hshows (shows_list ht.toList_eq) i⟩
          · exact ⟨_, .cloneFromPanics hij hx hx' hp hus hcs, shows_put hshows (shows_list ht.toList_eq) i⟩
      · split
        · rename_i d d' hi hj
          exact absurd hj (hv' d')
        · exact obeys_idle hshows (.inr (.inr hx'))
    · split
      · rename_i d d' hi hj
        exact absurd hi (hv d)
      · exact obeys_idle hshows (.inr (.inl hx))

/-! ## Steps and runs -/

/-- A step does what is allowed, and shows it. -/
theorem allows_step (h : (owner E).ok s.self) (hshows : List.Forall₂ (Var.Shows E) s.self.vars hs) (ht : Tracked E op s) :
    ∃ hs', Allows E op hs (step E op s).result hs' ∧ List.Forall₂ (Var.Shows E) (step E op s).state.self.vars hs' := by
  have hstep : wp (step E op) s
      (fun r s' => ∃ hs', Allows E op hs (.ok r) hs' ∧ List.Forall₂ (Var.Shows E) s'.self.vars hs')
      fun e s' => ∃ hs', Allows E op hs (.error e) hs' ∧ List.Forall₂ (Var.Shows E) s'.self.vars hs' := by
    refine wp_finish (wp_mono (obeys_perform h hshows ht.tracked) ?_ ?_)
    · rintro r s' ⟨hs', hallows, hs'shows⟩
      refine ⟨hs' ++ (r.map (toList E)).deques.map .list, ?_, ?_⟩
      · have hok := Allows.ok hallows
        rw [← hs'shows.length_eq] at hok
        cases r <;> exact hok
      · refine List.rel_append hs'shows ?_
        cases r with
        | deque d => exact .cons (.deque d) .nil
        | _ => exact .nil
    · rintro e s' ⟨hs', hallows, hs'shows⟩
      exact ⟨hs', .error hallows, hs'shows⟩
  have hends := hstep.ends ht.exact
  revert hends
  cases (step E op s).result with
  | ok r => exact id
  | error e => exact id

/-- The sixth destructor panics, and so does `clone` at 13. -/
def brittle : Env Nat Nat :=
  { cells true 3 (by decide) with
    dropPanics := fun dead _ => dead.length = 5
    cloneOf := fun _ v => if v = 13 then none else some v }

/-- The iterator, `clone`, the allocator, an index, a destructor and the closure of `drain_filter` panic. -/
def mishaps : List (Op Nat) :=
  [.fromIter ⟨[some 10, some 11, none], 0, fun _ => (0, none)⟩,
    .fromIter ⟨[some 10, some 11, some 12, some 13], 0, fun _ => (2, some 2)⟩, .call 0 .clone, .call 0 (.reserve 0x80000000),
    .call 0 (.remove 9), .turn 0 (.drain (.included 1) (.excluded 3)), .turn 0 .next, .call 0 .popBack, .turn 0 .drop,
    .call 0 (.retain fun seen v => if seen = [] then some true else if v < 13 then some false else none), .call 0 (.resize 5 7),
    .call 0 (.insert 1 8), .turn 0 (.drainFilter fun _ v => (if v = 8 then none else some (v = 10), v)), .turn 0 .next,
    .turn 0 .next, .turn 0 .leak, .call 0 (.extend (fun _ => (0, none)) [some 1, some 2, some 3, none]), .new, .cloneFrom 1 0,
    .turn 1 .intoIter, .turn 1 .nextBack, .turn 0 .drop]

end Program

end Sdeq
