import SliceDeque.Lib.Exec
import SliceDeque.Lib.Mirror

/-!
# The machine under the deque

`Env` fixes the build profile, the layout of the element type, the allocation
granularity and every answer of the outside world: what each call of
`allocate_mirrored` returns, which destructors panic, what clones are. Sizes
are natural numbers below `2 ^ 64`; an operation that leaves this range panics
when `debug` is set and wraps around (and is reported) when it is not.
Addresses are integers: pointer arithmetic never wraps.
-/

set_option autoImplicit false

namespace Sdeq
open Exec

/-- `2 ^ 64` -/
def usizeBound : Nat := 0x10000000000000000
/-- `2 ^ 63` -/
def isizeBound : Nat := 0x8000000000000000

inductive AllocError where
  | oom
  | other
  deriving DecidableEq, Repr

inductive Panic where
  /-- an overflow check of the compiler, or `expect("overflow")` -/
  | overflow
  | assert
  | debugAssert
  /-- division by zero -/
  | division
  /-- slice index out of range -/
  | index
  /-- an allocation failure that was unwrapped -/
  | alloc (e : AllocError)
  | destructor
  /-- user code: `clone`, `default`, closures -/
  | user
  /-- access to memory that is not mapped -/
  | fault
  deriving DecidableEq, Repr

structure Env (T β : Type) where
  debug : Bool
  layout : Layout T β
  granularity : Nat
  granularity_pos : 0 < granularity
  granularity_fits : 4 * granularity ≤ usizeBound
  /-- The answer to the `k`-th call of `allocate_mirrored`, for a size in bytes. -/
  allocate : Nat → Nat → Except AllocError (Int × (Int → β))
  base_dvd : ∀ k n a f, allocate k n = .ok (a, f) → (granularity : Int) ∣ a
  base_pos : ∀ k n a f, allocate k n = .ok (a, f) → 0 < a
  base_fits : ∀ k n a f, allocate k n = .ok (a, f) → a + n < usizeBound
  junk : Int → β
  /-- Does the destructor of a value panic, after these destructor runs? -/
  dropPanics : List T → T → Bool
  /-- The `k`-th value produced by user code, `none` for a panic. -/
  cloneOf : Nat → T → Option T
  defaultOf : Nat → Option T

/-- A machine with pages of 4096 bytes and four gigabytes for each of the first mappings. Elements
are numbers, and every byte of an element shows its number. -/
def cells (debug : Bool) (size : Nat) (hs : 0 < size) : Env Nat Nat where
  debug := debug
  layout := ⟨size, 1, fun v _ => v, fun f => f 0, Nat.one_pos, one_dvd _, fun _ _ h => h 0 hs, fun _ => rfl⟩
  granularity := 4096
  granularity_pos := by decide
  granularity_fits := by decide
  allocate k n := if k < 0x10000 ∧ n < 0x100000000 then .ok (0x100000000 * (k + 1), fun _ => 0) else .error .oom
  base_dvd k n a f h := by
    split at h
    · cases h
      exact Int.dvd_mul_of_dvd_left (by decide)
    · cases h
  base_pos k n a f h := by
    split at h
    · cases h
      omega
    · cases h
  base_fits k n a f h := by
    split at h
    · cases h
      unfold usizeBound
      omega
    · cases h
  junk _ := 0
  dropPanics _ _ := false
  cloneOf _ v := some v
  defaultOf _ := some 0

/-- A mirrored mapping: which call obtained it, with which size, and its memory. -/
structure Region (β : Type) where
  id : Nat
  size : Nat
  mirror : Mirror β

/-- What happened so far outside of the deques: mappings, destructor runs, values made by
user code (`produced` counts the calls), and the number of elements moved by growth. -/
structure World (T : Type) where
  calls : Nat
  mapped : List (Nat × Nat)
  unmapped : List (Nat × Nat)
  destroyed : List T
  produced : Nat
  made : List T
  copied : Nat

namespace World
variable {T : Type}

/-- Nothing has happened yet. -/
def start : World T := ⟨0, [], [], [], 0, [], 0⟩

def destroy (w : World T) (vs : List T) : World T := { w with destroyed := w.destroyed ++ vs }

/-- Regions obtained by one call each. -/
def map (w : World T) (rs : List (Nat × Nat)) : World T :=
  { w with calls := w.calls + rs.length, mapped := w.mapped ++ rs }

def unmap (w : World T) (rs : List (Nat × Nat)) : World T := { w with unmapped := w.unmapped ++ rs }

/-- A call that was answered with an error. -/
def refuse (w : World T) : World T := { w with calls := w.calls + 1 }

def copy (w : World T) (n : Nat) : World T := { w with copied := w.copied + n }

/-- A call of user code that makes values. -/
def produce (w : World T) (vs : List T) : World T :=
  { w with produced := w.produced + 1, made := w.made ++ vs }

end World

/-- The receiver of a method together with the world. -/
structure Frame (X T : Type) where
  self : X
  world : World T

abbrev Method (T X α : Type) := Exec Panic (Frame X T) α

section Arithmetic
variable {T β σ : Type} (E : Env T β)

/-- A `usize` operation whose exact result is `n`. -/
def usize (n : Nat) : Exec Panic σ Nat :=
  if n < usizeBound then pure n
  else if E.debug then throw .overflow
  else do
    wrap
    pure (n % usizeBound)

def usizeSub (a b : Nat) : Exec Panic σ Nat :=
  if b ≤ a then pure (a - b)
  else if E.debug then throw .overflow
  else do
    wrap
    pure (a + usizeBound - b)

/-- An `isize` operation whose exact result is `z`. -/
def isize (z : Int) : Exec Panic σ Int :=
  if -isizeBound ≤ z ∧ z < isizeBound then pure z
  else if E.debug then throw .overflow
  else do
    wrap
    pure (z.bmod usizeBound)

/-- `n as isize` for a `usize` -/
def asIsize (n : Nat) : Int := if n < isizeBound then n else (n : Int) - usizeBound

/-- `z as usize` for an `isize` -/
def asUsize (z : Int) : Nat := if 0 ≤ z then z.toNat else (z + usizeBound).toNat

/-- `n.wrapping_sub(1)` -/
def wrappingPred (n : Nat) : Nat := if n = 0 then usizeBound - 1 else n - 1

def assert (c : Prop) [Decidable c] : Exec Panic σ Unit :=
  if c then pure () else throw .assert

def debugAssert (c : Prop) [Decidable c] : Exec Panic σ Unit :=
  when (E.debug = true ∧ ¬ c) (throw .debugAssert)

variable {E} {s : σ}

theorem asIsize_of_lt {n : Nat} (h : n < isizeBound) : asIsize n = n := if_pos h

theorem asUsize_natCast (n : Nat) : asUsize n = n := by
  rw [asUsize, if_pos (by omega), Int.toNat_natCast]

theorem wrappingPred_of_pos {n : Nat} (h : 0 < n) : wrappingPred n = n - 1 := if_neg (by omega)

@[simp] theorem wp_usize {n : Nat} {Q : Nat → σ → Prop} {P : Panic → σ → Prop} :
    wp (usize E n) s Q P ↔
      (n < usizeBound → Q n s) ∧ (usizeBound ≤ n → E.debug = true → P .overflow s) := by
  simp [usize]

@[simp] theorem wp_usizeSub {a b : Nat} {Q : Nat → σ → Prop} {P : Panic → σ → Prop} :
    wp (usizeSub E a b) s Q P ↔
      (b ≤ a → Q (a - b) s) ∧ (a < b → E.debug = true → P .overflow s) := by
  simp [usizeSub]

@[simp] theorem wp_isize {z : Int} {Q : Int → σ → Prop} {P : Panic → σ → Prop} :
    wp (isize E z) s Q P ↔
      (-isizeBound ≤ z ∧ z < isizeBound → Q z s) ∧
      (¬ (-isizeBound ≤ z ∧ z < isizeBound) → E.debug = true → P .overflow s) := by
  simp only [isize, wp_ite, wp_pure, wp_throw, wp_bind, wp_wrap]
  simp

@[simp] theorem wp_assert {c : Prop} [Decidable c] {Q : Unit → σ → Prop} {P : Panic → σ → Prop} :
    wp (assert c) s Q P ↔ (c → Q () s) ∧ (¬ c → P .assert s) := by
  simp [assert]

@[simp] theorem ends_assert {c : Prop} [Decidable c] {Q : Unit → σ → Prop} :
    Ends (assert c) s Q ↔ c ∧ Q () s := by
  by_cases h : c
  · simp [assert, h]
  · simp only [assert, h, if_false, false_and, iff_false]
    rintro ⟨_, _, he, _⟩
    cases he

theorem wp_debugAssert {c : Prop} [Decidable c] {Q : Unit → σ → Prop} {P : Panic → σ → Prop}
    (h : c) (hQ : Q () s) : wp (debugAssert E c) s Q P := by
  simp [debugAssert, h, hQ]

@[simp] theorem ends_usize {n : Nat} {Q : Nat → σ → Prop} : Ends (usize E n) s Q ↔ n < usizeBound ∧ Q n s := by
  by_cases h : n < usizeBound
  · simp [usize, h]
  · simp only [h, false_and, iff_false]
    intro hends
    obtain ⟨a, s', he, -⟩ := hends
    rw [usize, if_neg h] at he
    split at he
    · cases he
    · rw [bind_apply] at he
      simp [wrap] at he

@[simp] theorem ends_usizeSub {a b : Nat} {Q : Nat → σ → Prop} : Ends (usizeSub E a b) s Q ↔ b ≤ a ∧ Q (a - b) s := by
  by_cases h : b ≤ a
  · simp [usizeSub, h]
  · simp only [h, false_and, iff_false]
    intro hends
    obtain ⟨_, s', he, -⟩ := hends
    rw [usizeSub, if_neg h] at he
    split at he
    · cases he
    · rw [bind_apply] at he
      simp [wrap] at he

theorem ends_debugAssert_iff {c : Prop} [Decidable c] {Q : Unit → σ → Prop} :
    Ends (debugAssert E c) s Q ↔ (E.debug = true → c) ∧ Q () s := by
  rw [debugAssert, ends_when]
  constructor
  · intro h
    have hpass : ¬ (E.debug = true ∧ ¬ c) := fun hd => not_ends_throw (h.1 hd)
    exact ⟨fun hd => by_contra fun hc => hpass ⟨hd, hc⟩, h.2 hpass⟩
  · exact fun h => ⟨fun hd => absurd (h.1 hd.1) hd.2, fun _ => h.2⟩

theorem ends_debugAssert {c : Prop} [Decidable c] {Q : Unit → σ → Prop} (h : c) :
    Ends (debugAssert E c) s Q ↔ Q () s := by
  simp [debugAssert, h]

@[simp] theorem lands_usize {n : Nat} {Q : Nat → σ → Prop} {P : Panic → σ → Prop} :
    Lands (usize E n) s Q P ↔ (n < usizeBound → Q n s) ∧
      (usizeBound ≤ n → (E.debug = true → P .overflow s) ∧ (E.debug = false → Q (n % usizeBound) s)) := by
  simp [usize]

@[simp] theorem lands_assert {c : Prop} [Decidable c] {Q : Unit → σ → Prop} {P : Panic → σ → Prop} :
    Lands (assert c) s Q P ↔ (c → Q () s) ∧ (¬ c → P .assert s) := by
  simp [assert]

theorem lands_debugAssert {c : Prop} [Decidable c] {Q : Unit → σ → Prop} {P : Panic → σ → Prop} :
    Lands (debugAssert E c) s Q P ↔ (E.debug = true ∧ ¬ c → P .debugAssert s) ∧
      (¬ (E.debug = true ∧ ¬ c) → Q () s) := by
  rw [debugAssert, lands_when, lands_throw]

/-- Without overflow checks an operation computes modulo `2 ^ 64`. -/
theorem lands_usize_mod {n : Nat} {Q : Nat → σ → Prop} {P : Panic → σ → Prop} (hQ : Q (n % usizeBound) s)
    (hP : P .overflow s) : Lands (usize E n) s Q P := by
  rw [lands_usize]
  refine ⟨fun hn => ?_, fun _ => ⟨fun _ => hP, fun _ => hQ⟩⟩
  rwa [Nat.mod_eq_of_lt hn] at hQ

theorem lands_usizeSub {a b : Nat} {Q : Nat → σ → Prop} {P : Panic → σ → Prop} (hQ : b ≤ a → Q (a - b) s)
    (hQ' : a < b → Q (a + usizeBound - b) s) (hP : P .overflow s) : Lands (usizeSub E a b) s Q P := by
  simp only [usizeSub, lands_ite, lands_pure, lands_throw, lands_bind, lands_wrap]
  exact ⟨hQ, fun h => ⟨fun _ => hP, fun _ => hQ' (not_le.mp h)⟩⟩

theorem lands_debugAssert_or {c : Prop} [Decidable c] {Q : Unit → σ → Prop} {P : Panic → σ → Prop} (hQ : Q () s)
    (hP : P .debugAssert s) : Lands (debugAssert E c) s Q P :=
  lands_debugAssert.mpr ⟨fun _ => hP, fun _ => hQ⟩

theorem exact_usize {n : Nat} (h : n < usizeBound) : Exact (usize E n) s := by
  rw [usize, if_pos h]
  exact exact_pure

theorem exact_usize_bind {α : Type} {n : Nat} {f : Nat → Exec Panic σ α} (h : n < usizeBound) (hf : Exact (f n) s) :
    Exact (usize E n >>= f) s := by
  have hn : wp (usize E n) s (fun k s' => k = n ∧ s' = s) fun _ _ => True :=
    wp_usize.mpr ⟨fun _ => ⟨rfl, rfl⟩, fun _ _ => trivial⟩
  apply exact_seq (exact_usize h) hn
  rintro _ _ ⟨rfl, rfl⟩
  exact hf

theorem exact_usize_of_debug {n : Nat} (hd : E.debug = true) : Exact (usize E n) s := by
  rw [usize, if_pos hd]
  exact exact_ite (fun _ => exact_pure) fun _ => exact_throw

theorem exact_usizeSub_of_debug {a b : Nat} (hd : E.debug = true) : Exact (usizeSub E a b) s := by
  rw [usizeSub, if_pos hd]
  exact exact_ite (fun _ => exact_pure) fun _ => exact_throw

theorem exact_usizeSub {a b : Nat} (h : b ≤ a) : Exact (usizeSub E a b) s := by
  rw [usizeSub, if_pos h]
  exact exact_pure

theorem exact_usizeSub_bind {α : Type} {a b : Nat} {f : Nat → Exec Panic σ α} (h : b ≤ a) (hf : Exact (f (a - b)) s) :
    Exact (usizeSub E a b >>= f) s := by
  have hn : wp (usizeSub E a b) s (fun k s' => k = a - b ∧ s' = s) fun _ _ => True :=
    wp_usizeSub.mpr ⟨fun _ => ⟨rfl, rfl⟩, fun _ _ => trivial⟩
  apply exact_seq (exact_usizeSub h) hn
  rintro _ _ ⟨rfl, rfl⟩
  exact hf

theorem exact_isize {z : Int} (h : -isizeBound ≤ z ∧ z < isizeBound) : Exact (isize E z) s := by
  rw [isize, if_pos h]
  exact exact_pure

theorem exact_isize_bind {α : Type} {z : Int} {f : Int → Exec Panic σ α} (h : -isizeBound ≤ z ∧ z < isizeBound)
    (hf : Exact (f z) s) : Exact (isize E z >>= f) s := by
  have hz : wp (isize E z) s (fun k s' => k = z ∧ s' = s) fun _ _ => True :=
    wp_isize.mpr ⟨fun _ => ⟨rfl, rfl⟩, fun _ _ => trivial⟩
  apply exact_seq (exact_isize h) hz
  rintro _ _ ⟨rfl, rfl⟩
  exact hf

@[simp] theorem exact_assert {c : Prop} [Decidable c] : Exact (assert c) s :=
  exact_ite (fun _ => exact_pure) fun _ => exact_throw

theorem exact_assert_bind {α : Type} {c : Prop} [Decidable c] {f : Unit → Exec Panic σ α} (h : c → Exact (f ()) s) :
    Exact (assert c >>= f) s := by
  have hpass : wp (assert c) s (fun _ s' => c ∧ s' = s) fun _ _ => True := wp_assert.mpr ⟨fun hc => ⟨hc, rfl⟩, fun _ => trivial⟩
  apply exact_seq exact_assert hpass
  rintro _ _ ⟨hc, rfl⟩
  exact h hc

@[simp] theorem exact_debugAssert {c : Prop} [Decidable c] : Exact (debugAssert E c) s :=
  exact_when fun _ => exact_throw

end Arithmetic

section Methods
variable {T β X Y α : Type} (E : Env T β)

def self : Method T X X := do
  let s ← get
  pure s.self

def setSelf (x : X) : Method T X Unit := modify fun s => { s with self := x }

def world : Method T X (World T) := do
  let s ← get
  pure s.world

def modifyWorld (f : World T → World T) : Method T X Unit :=
  modify fun s => { s with world := f s.world }

/-- Call a method of a part of the receiver. -/
def onPart (part : X → Y) (put : X → Y → X) (m : Method T Y α) : Method T X α :=
  zoom (fun s => ⟨part s.self, s.world⟩) (fun s t => ⟨put s.self t.self, t.world⟩) m

/-- Call a method of a local value; the receiver is untouched. -/
def onLocal (y : Y) (m : Method T Y α) : Method T X (α × Y) :=
  zoom (fun s => (⟨y, s.world⟩ : Frame Y T)) (fun s t => ⟨s.self, t.world⟩) do
    let a ← m
    let y' ← self
    pure (a, y')

/-- Call a method of a value that is a part of the receiver at this moment. -/
def within (y : Y) (put : Y → X) (m : Method T Y α) : Method T X α :=
  zoom (fun s => (⟨y, s.world⟩ : Frame Y T)) (fun _ t => ⟨put t.self, t.world⟩) m

/-- Run with a local value beside the receiver. -/
def withLocal (y : Y) (m : Method T (X × Y) α) : Method T X α :=
  zoom (fun s => (⟨(s.self, y), s.world⟩ : Frame (X × Y) T)) (fun _ t => ⟨t.self.1, t.world⟩) m

/-- Run the destructor of a value. -/
def dropValue (v : T) : Method T X Unit := do
  let w ← world
  modifyWorld fun w => w.destroy [v]
  when (E.dropPanics w.destroyed v) (throw .destructor)

/-- `drop_in_place` of a slice: every element is visited once, also when a destructor panics. -/
def dropInPlace : List T → Method T X Unit
  | [] => pure ()
  | v :: vs => do
    onPanic (dropValue E v) (dropInPlace vs)
    dropInPlace vs

/-- A value made by user code. -/
def produce (make : Nat → Option T) : Method T X T := do
  let w ← world
  match make w.produced with
  | none => do
    modifyWorld fun w => w.produce []
    throw .user
  | some v => do
    modifyWorld fun w => w.produce [v]
    pure v

/-- The platform's allocator. All implementations check the size in the same way. -/
def allocateMirrored (size : Nat) : Method T X (Except AllocError (Region β)) := do
  assert (size ≠ 0)
  assert (size / 2 % E.granularity = 0)
  let w ← world
  match E.allocate w.calls size with
  | .error e => do
    modifyWorld World.refuse
    pure (.error e)
  | .ok (addr, bytes) => do
    modifyWorld fun w => w.map [(w.calls, size)]
    pure (.ok ⟨w.calls, size, ⟨addr, size / 2, bytes⟩⟩)

def deallocateMirrored (r : Region β) (size : Nat) : Method T X Unit := do
  assert (r.mirror.base ≠ 0)
  assert (size ≠ 0)
  assert (size % E.granularity = 0)
  modifyWorld fun w => w.unmap [(r.id, size)]

variable {E} {s : Frame X T}

@[simp] theorem wp_self {Q : X → Frame X T → Prop} {P : Panic → Frame X T → Prop} :
    wp self s Q P ↔ Q s.self s := by
  simp [self]

@[simp] theorem wp_setSelf {x : X} {Q : Unit → Frame X T → Prop} {P : Panic → Frame X T → Prop} :
    wp (setSelf x) s Q P ↔ Q () ⟨x, s.world⟩ := by
  simp [setSelf]

@[simp] theorem wp_world {Q : World T → Frame X T → Prop} {P : Panic → Frame X T → Prop} :
    wp world s Q P ↔ Q s.world s := by
  simp [world]

@[simp] theorem wp_modifyWorld {f : World T → World T} {Q : Unit → Frame X T → Prop}
    {P : Panic → Frame X T → Prop} : wp (modifyWorld f) s Q P ↔ Q () ⟨s.self, f s.world⟩ := by
  simp [modifyWorld]

@[simp] theorem wp_onPart {part : X → Y} {put : X → Y → X} {m : Method T Y α}
    {Q : α → Frame X T → Prop} {P : Panic → Frame X T → Prop} :
    wp (onPart part put m) s Q P ↔
      wp m ⟨part s.self, s.world⟩ (fun a t => Q a ⟨put s.self t.self, t.world⟩)
        (fun e t => P e ⟨put s.self t.self, t.world⟩) := wp_zoom

@[simp] theorem wp_onLocal {y : Y} {m : Method T Y α}
    {Q : α × Y → Frame X T → Prop} {P : Panic → Frame X T → Prop} :
    wp (onLocal y m) s Q P ↔
      wp m ⟨y, s.world⟩ (fun a t => Q (a, t.self) ⟨s.self, t.world⟩)
        (fun e t => P e ⟨s.self, t.world⟩) := by
  unfold onLocal
  rw [wp_zoom]
  simp

@[simp] theorem wp_within {y : Y} {put : Y → X} {m : Method T Y α}
    {Q : α → Frame X T → Prop} {P : Panic → Frame X T → Prop} :
    wp (within y put m) s Q P ↔
      wp m ⟨y, s.world⟩ (fun a t => Q a ⟨put t.self, t.world⟩) (fun e t => P e ⟨put t.self, t.world⟩) :=
  wp_zoom

@[simp] theorem wp_withLocal {y : Y} {m : Method T (X × Y) α}
    {Q : α → Frame X T → Prop} {P : Panic → Frame X T → Prop} :
    wp (withLocal y m) s Q P ↔
      wp m ⟨(s.self, y), s.world⟩ (fun a t => Q a ⟨t.self.1, t.world⟩) (fun e t => P e ⟨t.self.1, t.world⟩) :=
  wp_zoom

theorem wp_dropValue_cases {v : T} {Q : Unit → Frame X T → Prop} {P : Panic → Frame X T → Prop}
    (hQ : E.dropPanics s.world.destroyed v = false → Q () ⟨s.self, s.world.destroy [v]⟩)
    (hP : E.dropPanics s.world.destroyed v = true → P .destructor ⟨s.self, s.world.destroy [v]⟩) :
    wp (dropValue E v) s Q P := by
  simp only [dropValue, wp_bind, wp_world, wp_modifyWorld, wp_when, wp_throw]
  exact ⟨hP, fun h => hQ (Bool.eq_false_iff.mpr h)⟩

theorem wp_dropValue {v : T} {Q : Unit → Frame X T → Prop} {P : Panic → Frame X T → Prop}
    (hQ : Q () ⟨s.self, s.world.destroy [v]⟩)
    (hP : E.dropPanics s.world.destroyed v = true → P .destructor ⟨s.self, s.world.destroy [v]⟩) :
    wp (dropValue E v) s Q P := wp_dropValue_cases (fun _ => hQ) hP

theorem wp_produce {make : Nat → Option T} {Q : T → Frame X T → Prop} {P : Panic → Frame X T → Prop}
    (hQ : ∀ v, make s.world.produced = some v → Q v ⟨s.self, s.world.produce [v]⟩)
    (hP : make s.world.produced = none → P .user ⟨s.self, s.world.produce []⟩) : wp (produce make) s Q P := by
  simp only [produce, wp_bind, wp_world]
  cases hm : make s.world.produced with
  | none => simpa using hP hm
  | some v => simpa using hQ v hm

@[simp] theorem ends_self {Q : X → Frame X T → Prop} : Ends self s Q ↔ Q s.self s := by
  simp [self]

@[simp] theorem ends_setSelf {x : X} {Q : Unit → Frame X T → Prop} :
    Ends (setSelf x) s Q ↔ Q () ⟨x, s.world⟩ := by
  simp [setSelf]

theorem ends_onPart {part : X → Y} {put : X → Y → X} {m : Method T Y α} {Q : α → Frame X T → Prop} :
    Ends (onPart part put m) s Q ↔ Ends m ⟨part s.self, s.world⟩ fun a t => Q a ⟨put s.self t.self, t.world⟩ := ends_zoom

theorem ends_onLocal {y : Y} {m : Method T Y α} {Q : α × Y → Frame X T → Prop} :
    Ends (onLocal y m) s Q ↔ Ends m ⟨y, s.world⟩ fun a t => Q (a, t.self) ⟨s.self, t.world⟩ := by
  unfold onLocal
  rw [ends_zoom]
  simp

theorem ends_produce {v : T} {Q : T → Frame X T → Prop} :
    Ends (produce fun _ => some v) s Q ↔ Q v ⟨s.self, s.world.produce [v]⟩ := by
  simp [produce, world, modifyWorld]

@[simp] theorem lands_self {Q : X → Frame X T → Prop} {P : Panic → Frame X T → Prop} :
    Lands self s Q P ↔ Q s.self s := by
  simp [self]

@[simp] theorem lands_setSelf {x : X} {Q : Unit → Frame X T → Prop} {P : Panic → Frame X T → Prop} :
    Lands (setSelf x) s Q P ↔ Q () ⟨x, s.world⟩ := by
  simp [setSelf]

@[simp] theorem lands_world {Q : World T → Frame X T → Prop} {P : Panic → Frame X T → Prop} :
    Lands world s Q P ↔ Q s.world s := by
  simp [world]

@[simp] theorem lands_modifyWorld {f : World T → World T} {Q : Unit → Frame X T → Prop}
    {P : Panic → Frame X T → Prop} : Lands (modifyWorld f) s Q P ↔ Q () ⟨s.self, f s.world⟩ := by
  simp [modifyWorld]

theorem lands_onLocal {y : Y} {m : Method T Y α} {Q : α × Y → Frame X T → Prop} {P : Panic → Frame X T → Prop} :
    Lands (onLocal y m) s Q P ↔ Lands m ⟨y, s.world⟩ (fun a t => Q (a, t.self) ⟨s.self, t.world⟩)
      fun e t => P e ⟨s.self, t.world⟩ := by
  unfold onLocal
  rw [lands_zoom]
  simp

@[simp] theorem exact_self : Exact (self : Method T X X) s := rfl

theorem exact_self_bind {f : X → Method T X α} (h : Exact (f s.self) s) : Exact (self >>= f) s := by
  have hself : wp (self : Method T X X) s (fun x s' => x = s.self ∧ s' = s) fun _ _ => False :=
    wp_self.mpr ⟨rfl, rfl⟩
  apply exact_seq exact_self hself
  rintro _ _ ⟨rfl, rfl⟩
  exact h

@[simp] theorem exact_setSelf {x : X} : Exact (setSelf x) s := rfl

theorem exact_setSelf_bind {x : X} {f : Unit → Method T X α} (h : Exact (f ()) ⟨x, s.world⟩) :
    Exact (setSelf x >>= f) s := by
  have hset : wp (setSelf x) s (fun _ s' => s' = ⟨x, s.world⟩) fun _ _ => False := wp_setSelf.mpr rfl
  apply exact_seq exact_setSelf hset
  rintro _ _ rfl
  exact h

@[simp] theorem exact_world : Exact (world : Method T X (World T)) s := rfl

@[simp] theorem exact_modifyWorld {f : World T → World T} : Exact (modifyWorld f : Method T X Unit) s := rfl

theorem exact_onPart {part : X → Y} {put : X → Y → X} {m : Method T Y α} (h : Exact m ⟨part s.self, s.world⟩) :
    Exact (onPart part put m) s := exact_zoom h

theorem exact_onLocal {y : Y} {m : Method T Y α} (h : Exact m ⟨y, s.world⟩) : Exact (onLocal y m : Method T X (α × Y)) s :=
  exact_zoom (exact_bind h fun _ _ => exact_bind exact_self fun _ _ => exact_pure)

@[simp] theorem exact_produce {make : Nat → Option T} : Exact (produce make : Method T X T) s := by
  apply exact_bind exact_world
  intro w _
  cases make w.produced with
  | none => exact exact_bind exact_modifyWorld fun _ _ => exact_throw
  | some v => exact exact_bind exact_modifyWorld fun _ _ => exact_pure

@[simp] theorem exact_dropValue {v : T} : Exact (dropValue E v) s :=
  exact_bind exact_world fun _ _ => exact_bind exact_modifyWorld fun _ _ => exact_when fun _ => exact_throw

@[simp] theorem exact_dropInPlace {vs : List T} : Exact (dropInPlace E vs) s := by
  induction vs generalizing s with
  | nil => exact exact_pure
  | cons v vs ih => exact exact_bind (exact_onPanic exact_dropValue fun _ => ih) fun _ _ => ih

theorem does_onLocal {y : Y} {m : Method T Y α} {Q : α × Y → Frame X T → Prop} {P : Panic → Frame X T → Prop}
    (h : Does m ⟨y, s.world⟩ (fun a t => Q (a, t.self) ⟨s.self, t.world⟩) fun e t => P e ⟨s.self, t.world⟩) :
    Does (onLocal y m) s Q P := ⟨exact_onLocal h.exact, wp_onLocal.mpr h.wp⟩

theorem does_produce {make : Nat → Option T} {Q : T → Frame X T → Prop} {P : Panic → Frame X T → Prop}
    (hQ : ∀ v, make s.world.produced = some v → Q v ⟨s.self, s.world.produce [v]⟩)
    (hP : make s.world.produced = none → P .user ⟨s.self, s.world.produce []⟩) : Does (produce make) s Q P :=
  ⟨exact_produce, wp_produce hQ hP⟩

theorem does_dropValue {v : T} {Q : Unit → Frame X T → Prop} {P : Panic → Frame X T → Prop}
    (hQ : E.dropPanics s.world.destroyed v = false → Q () ⟨s.self, s.world.destroy [v]⟩)
    (hP : E.dropPanics s.world.destroyed v = true → P .destructor ⟨s.self, s.world.destroy [v]⟩) :
    Does (dropValue E v) s Q P := ⟨exact_dropValue, wp_dropValue_cases hQ hP⟩

theorem World.destroy_cons (w : World T) (v : T) (vs : List T) :
    (w.destroy [v]).destroy vs = w.destroy (v :: vs) := by
  simp [World.destroy]

@[simp] theorem World.destroy_nil (w : World T) : w.destroy [] = w := by
  simp [World.destroy]

/-- Whatever the destructors do, the whole slice is destroyed once. -/
theorem wp_dropInPlace {vs : List T} {Q : Unit → Frame X T → Prop} {P : Panic → Frame X T → Prop}
    (hQ : Q () ⟨s.self, s.world.destroy vs⟩)
    (hP : (∃ h v, E.dropPanics h v = true) → P .destructor ⟨s.self, s.world.destroy vs⟩) :
    wp (dropInPlace E vs) s Q P := by
  induction vs generalizing s Q P with
  | nil => simpa [dropInPlace] using hQ
  | cons v vs ih =>
    refine wp_seq (Q := fun _ s' => s' = ⟨s.self, s.world.destroy [v]⟩)
      (P := fun e s' => e = .destructor ∧ s' = ⟨s.self, s.world.destroy (v :: vs)⟩ ∧
        ∃ h v, E.dropPanics h v = true) ?_ ?_ ?_
    · refine wp_onPanic (P := fun e s' => e = .destructor ∧ s' = ⟨s.self, s.world.destroy [v]⟩ ∧
        ∃ h v, E.dropPanics h v = true) ?_ ?_
      · exact wp_dropValue rfl fun h => ⟨rfl, rfl, _, _, h⟩
      · rintro e s' ⟨rfl, rfl, he⟩
        exact ih ⟨rfl, by rw [World.destroy_cons], he⟩ fun _ => ⟨rfl, by rw [World.destroy_cons], he⟩
    · rintro _ s' rfl
      exact ih (by simpa only [World.destroy_cons] using hQ) (by simpa only [World.destroy_cons] using hP)
    · rintro e s' ⟨rfl, rfl, he⟩
      exact hP he

end Methods

end Sdeq
