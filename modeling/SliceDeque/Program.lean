import SliceDeque.Insert
import SliceDeque.Retain
import SliceDeque.Replace
import SliceDeque.ShrinkToFit
import SliceDeque.DrainFilter
import SliceDeque.Lib.Runs

/-!
# Programs

A program has any number of variables that hold deques, and iterators that
borrow or consume them. A borrowed deque is part of its iterator: it cannot be
used before the iterator is dropped or leaked. What the types of the source
exclude, such as a push to an iterator, does nothing.
-/

set_option autoImplicit false

namespace Sdeq
open Exec SliceDeque

/-- What an operation returns; `δ` stands for a deque. -/
inductive Out (T δ : Type) where
  | unit
  | value (v : Option T)
  /-- a `try_push` that hands its argument back -/
  | rejected (v : T) (e : AllocError)
  | failed (e : AllocError)
  | deque (d : δ)

namespace Out
variable {T δ δ' : Type}

/-- The values that the caller owns now. -/
def taken : Out T δ → List T
  | value v => v.toList
  | rejected v _ => [v]
  | _ => []

def deques : Out T δ → List δ
  | deque d => [d]
  | _ => []

def map (g : δ → δ') : Out T δ → Out T δ'
  | unit => unit
  | value v => value v
  | rejected v e => rejected v e
  | failed e => failed e
  | deque d => deque (g d)

def ofPush : Except (T × AllocError) Unit → Out T δ
  | .ok () => unit
  | .error (v, e) => rejected v e

def ofReserve : Except AllocError Unit → Out T δ
  | .ok () => unit
  | .error e => failed e

end Out

/-- A method of one deque with its arguments. -/
inductive Call (T : Type) where
  | tryPushFront (v : T)
  | tryPushBack (v : T)
  | pushFront (v : T)
  | pushBack (v : T)
  | popFront
  | popBack
  | tryReserve (additional : Nat)
  | reserve (additional : Nat)
  | reserveExact (additional : Nat)
  | truncateBack (n : Nat)
  | truncate (n : Nat)
  | truncateFront (n : Nat)
  | clear
  | remove (index : Nat)
  | swapRemoveBack (index : Nat)
  | swapRemoveFront (index : Nat)
  | splitOff (at_ : Nat)
  /-- closures are functions of what they were shown before -/
  | retain (f : List T → T → Option Bool)
  | dedupBy (same : List (T × T) → T → T → Option Bool × T × T)
  | extend (hint : Hint) (iter : List (Option T))
  | resize (newLen : Nat) (value : T)
  | resizeDefault (newLen : Nat)
  | extendFromSlice (other : List T)
  | insert (index : Nat) (element : T)
  | shrinkToFit
  | moveHead (x : Int)
  | moveTail (x : Int)
  | clone

namespace Call
variable {T β : Type} (E : Env T β)

/-- A closure whose state is the list of what it was shown. -/
def recorded (f : List T → T → Option Bool) (seen : List T) (v : T) : Option (Bool × List T) :=
  (f seen v).map fun b => (b, seen ++ [v])

def recordedPair (same : List (T × T) → T → T → Option Bool × T × T) (seen : List (T × T)) (a b : T) :
    Option (Bool × List (T × T)) × T × T :=
  ((same seen a b).1.map fun c => (c, seen ++ [(a, b)]), (same seen a b).2)

def run : Call T → DeqM T β (Out T (SliceDeque β))
  | tryPushFront v => do
    let r ← SliceDeque.tryPushFront E v
    pure (.ofPush r)
  | tryPushBack v => do
    let r ← SliceDeque.tryPushBack E v
    pure (.ofPush r)
  | pushFront v => do
    SliceDeque.pushFront E v
    pure .unit
  | pushBack v => do
    SliceDeque.pushBack E v
    pure .unit
  | popFront => do
    let r ← SliceDeque.popFront E
    pure (.value r)
  | popBack => do
    let r ← SliceDeque.popBack E
    pure (.value r)
  | tryReserve n => do
    let r ← SliceDeque.tryReserve E n
    pure (.ofReserve r)
  | reserve n => do
    SliceDeque.reserve E n
    pure .unit
  | reserveExact n => do
    SliceDeque.reserveExact E n
    pure .unit
  | truncateBack n => do
    SliceDeque.truncateBack E n
    pure .unit
  | truncate n => do
    SliceDeque.truncate E n
    pure .unit
  | truncateFront n => do
    SliceDeque.truncateFront E n
    pure .unit
  | clear => do
    SliceDeque.clear E
    pure .unit
  | remove i => do
    let r ← SliceDeque.remove E i
    pure (.value (some r))
  | swapRemoveBack i => do
    let r ← SliceDeque.swapRemoveBack E i
    pure (.value r)
  | swapRemoveFront i => do
    let r ← SliceDeque.swapRemoveFront E i
    pure (.value r)
  | splitOff k => do
    let other ← SliceDeque.splitOff E k
    pure (.deque other)
  | retain f => do
    let _ ← SliceDeque.retain E (recorded f) []
    pure .unit
  | dedupBy same => do
    let _ ← SliceDeque.dedupBy E (recordedPair same) []
    pure .unit
  | extend hint iter => do
    SliceDeque.extend E hint iter
    pure .unit
  | resize n v => do
    SliceDeque.resize E n v
    pure .unit
  | resizeDefault n => do
    SliceDeque.resizeDefault E n
    pure .unit
  | extendFromSlice vs => do
    SliceDeque.extendFromSlice E vs
    pure .unit
  | insert i v => do
    SliceDeque.insert E i v
    pure .unit
  | shrinkToFit => do
    SliceDeque.shrinkToFit E
    pure .unit
  | moveHead x => do
    SliceDeque.moveHead E x
    pure .unit
  | moveTail x => do
    SliceDeque.moveTail E x
    pure .unit
  | clone => do
    let d ← SliceDeque.clone E
    pure (.deque d)

/-- The values that the caller gives away. -/
def given : Call T → List T
  | tryPushFront v => [v]
  | tryPushBack v => [v]
  | pushFront v => [v]
  | pushBack v => [v]
  | resize _ v => [v]
  | insert _ v => [v]
  | _ => []

end Call

/-- A variable of a program. -/
inductive Var (T β : Type) where
  | gone
  | deque (d : SliceDeque β)
  | drain (dr : Drain β)
  | splice (sp : Splice T β)
  | drainFilter (df : DrainFilter T β) (pred : List T → T → Option Bool × T)
  | intoIter (it : IntoIter β)

/-- What can be done to a variable beside the methods of a deque. -/
inductive Turn (T : Type) where
  | drain (start end_ : Bound)
  | splice (start end_ : Bound) (replaceWith : UserIter T)
  | drainFilter (pred : List T → T → Option Bool × T)
  | intoIter
  /-- take the deque apart and put it together again with `from_raw_parts` -/
  | rebuild
  | next
  | nextBack
  | drop
  /-- `mem::forget` -/
  | leak

/-- What `from_raw_parts` asserts about the parts of a deque in a debug build. -/
def SliceDeque.Rebuildable {T β : Type} (E : Env T β) (d : SliceDeque β) : Prop :=
  E.debug = true → inBounds E ⟨d.buf.ptr.mirror.base, d.capacity⟩ d.elems.ptr ∧ d.elems.len < d.capacity

instance {T β : Type} (E : Env T β) (d : SliceDeque β) : Decidable (SliceDeque.Rebuildable E d) :=
  inferInstanceAs (Decidable (_ → _))

namespace Var
variable {T β : Type} (E : Env T β)

/-- Make an iterator of a deque. -/
def borrow {X : Type} (wrap : X → Var T β) (make : DeqM T β X) : Var T β → Method T (Var T β) (Out T (SliceDeque β))
  | .deque d => do
    let x ← within d .deque make
    setSelf (wrap x)
    pure .unit
  | _ => pure .unit

/-- Make something of a deque that is given away. -/
def consume {X : Type} (wrap : X → Var T β) (make : SliceDeque β → Method T (Var T β) X) :
    Var T β → Method T (Var T β) (Out T (SliceDeque β))
  | .deque d => do
    setSelf .gone
    let x ← make d
    setSelf (wrap x)
    pure .unit
  | _ => pure .unit

/-- `from_raw_parts` is unsafe: its caller knows that it will not assert. -/
def rebuild : Var T β → Method T (Var T β) (Out T (SliceDeque β))
  | .deque d =>
    if Rebuildable E d then consume .deque (fun d => SliceDeque.fromRawParts E d.buf.ptr d.capacity d.elems) (.deque d)
    else pure .unit
  | _ => pure .unit

def yield {X : Type} (m : Method T X (Option T)) : Method T X (Out T (SliceDeque β)) := do
  let r ← m
  pure (.value r)

def next : Var T β → Method T (Var T β) (Out T (SliceDeque β))
  | .drain dr => within dr .drain (yield (Drain.next E))
  | .splice sp => within sp .splice (yield (Splice.next E))
  | .drainFilter df pred => within df (.drainFilter · pred) (yield (DrainFilter.next E pred))
  | .intoIter it => within it .intoIter (yield (IntoIter.next E))
  | _ => pure .unit

/-- `drain_filter` yields from the front only. -/
def nextBack : Var T β → Method T (Var T β) (Out T (SliceDeque β))
  | .drain dr => within dr .drain (yield (Drain.nextBack E))
  | .splice sp => within sp .splice (yield (Splice.nextBack E))
  | .intoIter it => within it .intoIter (yield (IntoIter.nextBack E))
  | _ => pure .unit

def dropped {X : Type} (m : Method T X Unit) : Method T X (Out T (SliceDeque β)) := do
  m
  pure .unit

/-- Dropping an iterator that borrows a deque gives it back. -/
def drop : Var T β → Method T (Var T β) (Out T (SliceDeque β))
  | .gone => pure .unit
  | .deque d => within d (fun _ => .gone) (dropped (SliceDeque.dropSelf E))
  | .drain dr => within dr (fun dr => .deque dr.deq) (dropped (Drain.drop E))
  | .splice sp => within sp (fun sp => .deque sp.drain.deq) (dropped (Splice.drop E))
  | .drainFilter df pred => within df (fun df => .deque df.deq) (dropped (DrainFilter.drop E pred))
  | .intoIter it => within it (fun _ => .gone) (dropped (IntoIter.drop E))

def leak : Var T β → Var T β
  | .drain dr => .deque dr.deq
  | .splice sp => .deque sp.drain.deq
  | .drainFilter df _ => .deque df.deq
  | _ => .gone

end Var

namespace Turn
variable {T β : Type} (E : Env T β)

def run : Turn T → Var T β → Method T (Var T β) (Out T (SliceDeque β))
  | .drain start end_, v => Var.borrow .drain (SliceDeque.drain E start end_) v
  | .splice start end_ iter, v => Var.borrow .splice (SliceDeque.splice E start end_ iter) v
  | .drainFilter pred, v => Var.borrow (.drainFilter · pred) (SliceDeque.drainFilter E) v
  | .intoIter, v => Var.consume .intoIter (SliceDeque.intoIter E) v
  | .rebuild, v => Var.rebuild E v
  | .next, v => Var.next E v
  | .nextBack, v => Var.nextBack E v
  | .drop, v => Var.drop E v
  | .leak, v => Var.dropped (setSelf v.leak)

end Turn

/-- A statement of a program. -/
inductive Op (T : Type) where
  | new
  | withCapacity (n : Nat)
  /-- `collect` -/
  | fromIter (iter : UserIter T)
  | call (i : Nat) (c : Call T)
  | turn (i : Nat) (t : Turn T)
  | append (i j : Nat)
  | cloneFrom (i j : Nat)

/-- The variables, and the values that the caller gave away and owns now. -/
structure Program (T β : Type) where
  vars : List (Var T β)
  given : List T
  handed : List T

namespace Program
variable {T β : Type} (E : Env T β)

def start : Program T β := ⟨[], [], []⟩

def put (p : Program T β) (i : Nat) (v : Var T β) : Program T β := { p with vars := p.vars.set i v }

def give (p : Program T β) (vs : List T) : Program T β := { p with given := p.given ++ vs }

/-- What an operation returned is the caller's; a deque gets a variable. -/
def accept (p : Program T β) (r : Out T (SliceDeque β)) : Program T β :=
  { p with vars := p.vars ++ r.deques.map .deque, handed := p.handed ++ r.taken }

/-- Run a part of an operation; a deque is returned as the number of its variable. -/
def finish (m : Method T (Program T β) (Out T (SliceDeque β))) : Method T (Program T β) (Out T Nat) := do
  let r ← m
  let p ← self
  setSelf (p.accept r)
  pure (r.map fun _ => p.vars.length)

def perform : Op T → Method T (Program T β) (Out T (SliceDeque β))
  | .new => pure (.deque (SliceDeque.new E))
  | .withCapacity n => do
    let d ← SliceDeque.withCapacity E n
    pure (.deque d)
  | .fromIter iter => do
    let d ← SliceDeque.fromIter E iter
    pure (.deque d)
  | .call i c => do
    let p ← self
    match p.vars[i]? with
    | some (.deque d) => within d (fun d => (p.put i (.deque d)).give c.given) (c.run E)
    | _ => pure .unit
  | .turn i t => do
    let p ← self
    match p.vars[i]? with
    | some v => within v (fun v => p.put i v) (t.run E v)
    | none => pure .unit
  | .append i j => do
    let p ← self
    match p.vars[i]?, p.vars[j]? with
    | some (.deque d), some (.deque d') =>
      if i = j then pure .unit
      else within (d, d') (fun q => (p.put i (.deque q.1)).put j (.deque q.2)) do
        SliceDeque.append E
        pure .unit
    | _, _ => pure .unit
  | .cloneFrom i j => do
    let p ← self
    match p.vars[i]?, p.vars[j]? with
    | some (.deque d), some (.deque d') =>
      if i = j then pure .unit
      else within d (fun d => p.put i (.deque d)) do
        SliceDeque.cloneFrom E d'
        pure .unit
    | _, _ => pure .unit

def step (op : Op T) : Method T (Program T β) (Out T Nat) := finish (perform E op)

/-- Nothing was done yet. -/
def boot : Frame (Program T β) T := ⟨start, .start⟩

end Program

end Sdeq
