import Mathlib.Tactic.Linarith
import Mathlib.Tactic.Ring
import Mathlib.Data.Int.ModEq
import Mathlib.Data.List.Basic

/-!
# Mirrored memory and typed slots

A mirror maps `2 * half` virtual bytes onto `half` physical ones: the address
`a` shows the physical byte `(a - base) % half`. A window of slots is a run of
equally sized elements in virtual memory. As long as a window is not longer
than `half` it behaves as an array, wherever it starts and however often it
crosses the end of the first copy.
-/

set_option autoImplicit false

/-- How values of a type are laid out in bytes. -/
structure Layout (T β : Type) where
  size : Nat
  align : Nat
  encode : T → Nat → β
  decode : (Nat → β) → T
  align_pos : 0 < align
  align_dvd : align ∣ size
  decode_congr : ∀ f g, (∀ j < size, f j = g j) → decode f = decode g
  decode_encode : ∀ v, decode (encode v) = v

structure Mirror (β : Type) where
  base : Int
  half : Nat
  bytes : Int → β

namespace Mirror
variable {T β : Type} (m : Mirror β) (L : Layout T β)

def phys (a : Int) : Int := (a - m.base) % m.half

def load (a : Int) : β := m.bytes (m.phys a)

/-- Write `n` bytes from address `a` on. For `n ≤ half` no byte is written twice. -/
def store (a : Int) (n : Nat) (f : Nat → β) : Mirror β :=
  { m with bytes := fun q =>
      let k := ((q + m.base - a) % m.half).toNat
      if k < n then f k else m.bytes q }

/-- The addresses `[a, a + n)` are mapped. -/
def Covers (a : Int) (n : Nat) : Prop := n = 0 ∨ (m.base ≤ a ∧ a + n ≤ m.base + 2 * m.half)

instance (a : Int) (n : Nat) : Decidable (m.Covers a n) :=
  inferInstanceAs (Decidable (_ ∨ _))

/-- The value at an address. -/
def read (a : Int) : T := L.decode fun j => m.load (a + j)

/-- The value in slot `i` of the window that starts at `b`. -/
def slot (b i : Int) : T := m.read L (b + i * L.size)

/-- The first `n` values of the window that starts at `b`. -/
def elems (b : Int) (n : Nat) : List T := (List.range n).map fun i : Nat => m.slot L b i

def write (a : Int) (v : T) : Mirror β := m.store a L.size (L.encode v)

/-- Copy `n` bytes as if through a temporary buffer. -/
def copyFrom (d : Int) (src : Mirror β) (a : Int) (n : Nat) : Mirror β :=
  m.store d n fun k => src.load (a + k)

@[simp] theorem write_base (a : Int) (v : T) : (m.write L a v).base = m.base := rfl
@[simp] theorem write_half (a : Int) (v : T) : (m.write L a v).half = m.half := rfl
@[simp] theorem copyFrom_base (d : Int) (src : Mirror β) (a : Int) (n : Nat) :
    (m.copyFrom d src a n).base = m.base := rfl
@[simp] theorem copyFrom_half (d : Int) (src : Mirror β) (a : Int) (n : Nat) :
    (m.copyFrom d src a n).half = m.half := rfl

variable {m L}

theorem store_zero (a : Int) (f : Nat → β) : m.store a 0 f = m := by
  simp [store]

theorem load_store (a b : Int) (n : Nat) (f : Nat → β) :
    (m.store a n f).load b =
      if ((b - a) % m.half).toNat < n then f ((b - a) % m.half).toNat else m.load b := by
  have hk : ((b - m.base) % m.half + m.base - a) % m.half = (b - a) % (m.half : Int) := by
    rw [show (b - m.base) % (m.half : Int) + m.base - a =
      (b - m.base) % (m.half : Int) + (m.base - a) by ring, Int.emod_add_emod]
    congr 1
    ring
  simp only [load, store, phys, hk]

theorem load_store_inside {a : Int} {n k : Nat} {f : Nat → β} (hn : n ≤ m.half) (hk : k < n) :
    (m.store a n f).load (a + k) = f k := by
  have he : (a + k - a) % (m.half : Int) = k := by
    rw [add_sub_cancel_left]
    exact Int.emod_eq_of_lt (by omega) (by omega)
  rw [load_store, he, if_pos (by simpa using hk)]
  simp

/-- Bytes outside the written range, within one physical turn of it, are unchanged. -/
theorem load_store_outside {a b : Int} {n : Nat} {f : Nat → β}
    (h : (n ≤ b - a ∧ b - a < m.half) ∨ (b - a < 0 ∧ n ≤ m.half + (b - a))) :
    (m.store a n f).load b = m.load b := by
  rw [load_store, if_neg]
  rcases h with ⟨h1, h2⟩ | ⟨h1, h2⟩
  · rw [Int.emod_eq_of_lt (by omega) h2]
    omega
  · have he : (b - a) % (m.half : Int) = b - a + m.half := by
      rw [← Int.add_emod_right]
      exact Int.emod_eq_of_lt (by omega) (by omega)
    rw [he]
    omega

theorem load_add_half (a : Int) : m.load (a + m.half) = m.load a := by
  unfold load phys
  rw [show a + m.half - m.base = a - m.base + m.half by ring, Int.add_emod_right]

theorem slot_add (b x i : Int) : m.slot L (b + x * L.size) i = m.slot L b (x + i) := by
  unfold slot
  congr 1
  ring

theorem slot_add_half (b i : Int) : m.slot L (b + m.half) i = m.slot L b i := by
  unfold slot read
  congr 1
  funext j
  rw [show b + m.half + i * L.size + j = b + i * L.size + j + m.half by ring, load_add_half]

theorem slot_sub_half (b i : Int) : m.slot L (b - m.half) i = m.slot L b i := by
  rw [← slot_add_half (b - m.half), sub_add_cancel]

theorem slot_congr {m' : Mirror β} {b b' i i' : Int}
    (h : ∀ j : Nat, j < L.size → m.load (b + i * L.size + j) = m'.load (b' + i' * L.size + j)) :
    m.slot L b i = m'.slot L b' i' :=
  L.decode_congr _ _ h

/-- Distances between slots of a window that fits into one half. -/
theorem window_bound {c s : Nat} {i k : Int} {h : Nat} (hc : c * s ≤ h) (hik : i < k) (hw : k - i < c) :
    (s : Int) ≤ (k - i) * s ∧ (k - i) * s + s ≤ h := by
  constructor
  · have : (1 : Int) * s ≤ (k - i) * s := Int.mul_le_mul_of_nonneg_right (by omega) (by omega)
    omega
  · have : (k - i + 1) * s ≤ (c : Int) * s := Int.mul_le_mul_of_nonneg_right (by omega) (by omega)
    have hc' : (c : Int) * s ≤ h := by exact_mod_cast hc
    linarith [this, hc', add_mul (k - i) 1 (s : Int)]

theorem size_le_half {c h s : Nat} (hc : c * s ≤ h) (hpos : 0 < c) : s ≤ h :=
  (Nat.le_mul_of_pos_left s hpos).trans hc

theorem slot_write {b i k : Int} {c : Nat} {v : T} (hc : c * L.size ≤ m.half)
    (hik : i - k < c) (hki : k - i < c) :
    (m.write L (b + k * L.size) v).slot L b i = if i = k then v else m.slot L b i := by
  split
  case isTrue h =>
    subst h
    rw [← L.decode_encode v]
    apply L.decode_congr
    intro j hj
    rw [L.decode_encode v]
    exact load_store_inside (size_le_half hc (by omega)) hj
  case isFalse h =>
    apply slot_congr
    intro j hj
    apply load_store_outside
    rcases lt_or_gt_of_ne h with h | h
    · have := window_bound hc h hki
      refine .inr ⟨?_, ?_⟩ <;> linarith [sub_mul k i (L.size : Int)]
    · have := window_bound hc h hik
      refine .inl ⟨?_, ?_⟩ <;> linarith [sub_mul i k (L.size : Int)]

theorem mul_size_mono {x y : Int} (s : Nat) (h : x ≤ y) : x * s ≤ y * s :=
  Int.mul_le_mul_of_nonneg_right h (by omega)

/-- The bytes of `n` slots copied from `a` to slot `y` of the window at `b`. -/
theorem slot_copyFrom {r : Mirror β} {a b i y : Int} {c n : Nat} (hc : c * L.size ≤ m.half)
    (hi : 0 ≤ i) (hic : i < c) (hy : 0 ≤ y) (hyc : y + n ≤ c) :
    (m.copyFrom (b + y * L.size) r a (n * L.size)).slot L b i =
      if y ≤ i ∧ i < y + n then r.slot L a (i - y) else m.slot L b i := by
  have hc' : (c : Int) * L.size ≤ m.half := by exact_mod_cast hc
  have hwin := mul_size_mono L.size hyc
  have hn : n * L.size ≤ m.half := (Nat.mul_le_mul_right _ (by omega)).trans hc
  split
  case isTrue h =>
    apply slot_congr
    intro j hj
    obtain ⟨k, hk⟩ : ∃ k : Nat, (k : Int) = i - y := ⟨(i - y).toNat, by omega⟩
    have hlt : k * L.size + j < n * L.size := by
      have := Nat.mul_le_mul_right L.size (show k + 1 ≤ n by omega)
      rw [Nat.add_mul] at this
      omega
    have hadr : b + i * L.size + j = b + y * L.size + ((k * L.size + j : Nat) : Int) := by
      push_cast
      rw [hk]
      ring
    rw [hadr, copyFrom, load_store_inside hn hlt]
    congr 1
    push_cast
    rw [hk]
    ring
  case isFalse h =>
    apply slot_congr
    intro j hj
    apply load_store_outside
    have hi' := mul_size_mono L.size hi
    have hy' := mul_size_mono L.size hy
    have hic' := mul_size_mono L.size (show i + 1 ≤ (c : Int) by omega)
    push_cast
    rw [add_mul] at hwin hic'
    by_cases hlt : i < y
    · have := mul_size_mono L.size (show i + 1 ≤ y by omega)
      rw [add_mul] at this
      refine .inr ⟨?_, ?_⟩ <;> linarith
    · have := mul_size_mono L.size (show y + n ≤ i by omega)
      rw [add_mul] at this
      refine .inl ⟨?_, ?_⟩ <;> linarith

/-- Slots before the window keep what they show, as far as they are not copies of the slots in it. -/
theorem slot_copyFrom_before {r : Mirror β} {a b i : Int} {c n : Nat} (hc : c * L.size ≤ m.half) (hi : i < 0)
    (hn : n - c ≤ i) : (m.copyFrom b r a (n * L.size)).slot L b i = m.slot L b i := by
  have hc' : (c : Int) * L.size ≤ m.half := by exact_mod_cast hc
  have hlow := mul_size_mono L.size hn
  have hhigh := mul_size_mono L.size (show i + 1 ≤ 0 by omega)
  apply slot_congr
  intro j hj
  apply load_store_outside
  push_cast
  rw [sub_mul] at hlow
  rw [add_mul] at hhigh
  refine .inr ⟨?_, ?_⟩ <;> linarith

/-- No two slots of a window share a physical byte, nor do two bytes of one slot. -/
theorem phys_injective {b i k : Int} {c j l : Nat} (hc : c * L.size ≤ m.half)
    (hik : i - k < c) (hki : k - i < c) (hj : j < L.size) (hl : l < L.size)
    (h : m.phys (b + i * L.size + j) = m.phys (b + k * L.size + l)) : i = k ∧ j = l := by
  have hd : (m.half : Int) ∣ (b + i * L.size + j) - (b + k * L.size + l) := by
    have h' := Int.ModEq.dvd (show Int.ModEq m.half (b + k * L.size + l - m.base)
      (b + i * L.size + j - m.base) from h.symm)
    rwa [show b + i * L.size + j - m.base - (b + k * L.size + l - m.base) =
      b + i * L.size + j - (b + k * L.size + l) by ring] at h'
  have hle : L.size ≤ m.half := size_le_half hc (by omega)
  rcases lt_trichotomy i k with hlt | heq | hgt
  · have := window_bound hc hlt hki
    have hz := Int.eq_zero_of_abs_lt_dvd hd (by rw [abs_lt]; constructor <;> linarith [sub_mul k i (L.size : Int)])
    linarith [sub_mul k i (L.size : Int)]
  · subst heq
    have hz := Int.eq_zero_of_abs_lt_dvd hd (by rw [abs_lt]; constructor <;> linarith)
    exact ⟨rfl, by omega⟩
  · have := window_bound hc hgt hik
    have hz := Int.eq_zero_of_abs_lt_dvd hd (by rw [abs_lt]; constructor <;> linarith [sub_mul i k (L.size : Int)])
    linarith [sub_mul i k (L.size : Int)]

/-! ## Windows as lists -/

@[simp] theorem elems_length (b : Int) (n : Nat) : (m.elems L b n).length = n := by
  simp [elems]

@[simp] theorem elems_zero (b : Int) : m.elems L b 0 = [] := rfl

@[simp] theorem elems_getElem (b : Int) (n i : Nat) (h : i < (m.elems L b n).length) :
    (m.elems L b n)[i] = m.slot L b i := by
  simp [elems]

theorem elems_congr {m' : Mirror β} {b b' : Int} {n : Nat}
    (h : ∀ i : Nat, i < n → m.slot L b i = m'.slot L b' i) : m.elems L b n = m'.elems L b' n := by
  apply List.map_congr_left
  intro i hi
  exact h i (List.mem_range.mp hi)

theorem elems_succ (b : Int) (n : Nat) : m.elems L b (n + 1) = m.elems L b n ++ [m.slot L b n] := by
  simp [elems, List.range_succ]

theorem elems_add (b : Int) (n k : Nat) :
    m.elems L b (n + k) = m.elems L b n ++ m.elems L (b + n * L.size) k := by
  induction k with
  | zero => simp
  | succ k ih =>
    rw [← Nat.add_assoc, elems_succ, ih, elems_succ, List.append_assoc, slot_add]
    push_cast
    rfl

theorem read_congr_of_size (h : L.size = 0) (a a' : Int) : m.read L a = m.read L a' :=
  L.decode_congr _ _ fun j hj => by omega

theorem elems_congr_of_size (h : L.size = 0) (b b' : Int) (n : Nat) : m.elems L b n = m.elems L b' n :=
  elems_congr fun _ _ => read_congr_of_size h _ _

theorem Covers.part {a : Int} {n s i k : Nat} (h : m.Covers a (n * s)) (hik : i + k ≤ n) :
    m.Covers (a + i * s) (k * s) := by
  have h₁ : (i + k) * s ≤ n * s := Nat.mul_le_mul_right s hik
  rw [Nat.add_mul] at h₁
  rcases h with h | ⟨h, h'⟩
  · exact .inl (by omega)
  · refine .inr ⟨?_, ?_⟩ <;> push_cast at h' ⊢
    · have : (0 : Int) ≤ i * s := by positivity
      omega
    · have : ((i * s + k * s : Nat) : Int) ≤ (n * s : Nat) := by exact_mod_cast h₁
      push_cast at this
      omega

theorem elems_take {n k : Nat} (b : Int) (h : k ≤ n) : (m.elems L b n).take k = m.elems L b k := by
  obtain ⟨d, rfl⟩ := Nat.le.dest h
  rw [elems_add, List.take_left' (elems_length b k)]

theorem elems_drop {n k : Nat} (b : Int) (h : k ≤ n) :
    (m.elems L b n).drop k = m.elems L (b + k * L.size) (n - k) := by
  obtain ⟨d, rfl⟩ := Nat.le.dest h
  rw [elems_add, List.drop_left' (elems_length b k), Nat.add_sub_cancel_left]

/-! ## Arrays -/

/-- The memory of an array: its values, one behind the other. -/
def ofList (L : Layout T β) (base : Int) (junk : Int → β) (vs : List T) : Mirror β :=
  ⟨base, vs.length * L.size, fun q => match vs[(q / L.size).toNat]? with
    | some v => L.encode v (q % L.size).toNat
    | none => junk q⟩

section Arrays
variable {base : Int} {junk : Int → β} {vs : List T}

theorem covers_ofList : (ofList L base junk vs).Covers base (vs.length * L.size) := by
  refine .inr ⟨le_rfl, ?_⟩
  rw [show (ofList L base junk vs).half = vs.length * L.size from rfl, show (ofList L base junk vs).base = base from rfl]
  omega

theorem slot_ofList {i : Nat} (h : i < vs.length) : (ofList L base junk vs).slot L base i = vs[i] := by
  rw [← L.decode_encode vs[i]]
  apply L.decode_congr
  intro j hj
  have hbound : i * L.size + j < vs.length * L.size := by
    have hle := Nat.mul_le_mul_right L.size h
    rw [Nat.succ_mul] at hle
    omega
  have hphys : (ofList L base junk vs).phys (base + i * L.size + j) = ((i * L.size + j : Nat) : Int) := by
    rw [phys, show (ofList L base junk vs).base = base from rfl, show (ofList L base junk vs).half = vs.length * L.size from rfl,
      show base + i * L.size + j - base = ((i * L.size + j : Nat) : Int) by push_cast; ring]
    exact_mod_cast Nat.mod_eq_of_lt hbound
  have hindex : (i * L.size + j) / L.size = i := by
    rw [Nat.mul_comm, Nat.mul_add_div (by omega), Nat.div_eq_of_lt hj, Nat.add_zero]
  have hbyte : (i * L.size + j) % L.size = j := by
    rw [Nat.mul_comm, Nat.mul_add_mod, Nat.mod_eq_of_lt hj]
  rw [load, hphys, ofList]
  dsimp only
  rw [← Int.natCast_ediv, ← Int.natCast_emod, hindex, hbyte, Int.toNat_natCast, Int.toNat_natCast, List.getElem?_eq_getElem h]

/-- An array shows its values. -/
theorem elems_ofList : (ofList L base junk vs).elems L base vs.length = vs := by
  apply List.ext_getElem (elems_length _ _)
  intro i hi _
  rw [elems_getElem]
  exact slot_ofList (by rwa [elems_length] at hi)

end Arrays

/-! ## Turning within the first copy -/

/-- The address in `[base, base + n)` that is `x` bytes behind `a` on a circle of `n` bytes. -/
def turn (base : Int) (n : Nat) (a x : Int) : Int := base + (a + x - base) % n

section Turn
variable {base a b x y : Int} {n : Nat}

theorem turn_eq (h : base ≤ b) (h' : b < base + n) (hd : (n : Int) ∣ b - (a + x)) : b = turn base n a x := by
  have hmod : (a + x - base) % (n : Int) = (b - base) % n := by
    rw [Int.emod_eq_emod_iff_emod_sub_eq_zero, show a + x - base - (b - base) = -(b - (a + x)) by ring]
    exact Int.emod_eq_zero_of_dvd (Int.dvd_neg.mpr hd)
  rw [turn, hmod, Int.emod_eq_of_lt (by omega) (by omega)]
  ring

theorem turn_zero (h : base ≤ a) (h' : a < base + n) : turn base n a 0 = a :=
  (turn_eq h h' (by simp)).symm

theorem turn_turn : turn base n (turn base n a x) y = turn base n a (x + y) := by
  unfold turn
  rw [show base + (a + x - base) % (n : Int) + y - base = (a + x - base) % (n : Int) + y by ring, Int.emod_add_emod]
  congr 2
  ring

/-- A turn of the whole mirror is a step in physical memory. -/
theorem phys_turn (m : Mirror β) (k : Int) : m.phys (turn m.base m.half a x + k) = m.phys (a + x + k) := by
  unfold phys turn
  rw [show m.base + (a + x - m.base) % (m.half : Int) + k - m.base = (a + x - m.base) % (m.half : Int) + k by ring,
    Int.emod_add_emod]
  congr 1
  ring

end Turn

end Mirror
