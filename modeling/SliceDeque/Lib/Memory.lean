import SliceDeque.Lib.AddressSpace
import SliceDeque.Lib.Mirror
import SliceDeque.Lib.Sessions

/-!
# Memory behind mirrored mappings

Bytes belong to objects, and an address space says which byte of which object
an address shows. A client that acquires and releases mirrored spans and reads
and writes bytes through addresses sees one `Mirror` for each span it holds,
and the mirrors do not disturb each other.
-/

set_option autoImplicit false

open Exec Claim

/-- `[base, base + 2 * half)` shows the first `half` bytes of an object, twice. -/
structure Span (κ : Type) where
  base : Int
  half : Nat
  object : Nat → κ

namespace Span
variable {κ β : Type}

def claim (s : Span κ) : Claim Int κ :=
  ⟨fun a => s.base ≤ a ∧ a < s.base + 2 * s.half, fun a => s.object ((a - s.base) % s.half).toNat⟩

/-- No byte of the object is shown twice in one half. -/
def Injective (s : Span κ) : Prop := ∀ j k, j < s.half → k < s.half → s.object j = s.object k → j = k

/-- No byte is shown by both. -/
def Foreign (s t : Span κ) : Prop := ∀ j k, j < s.half → k < t.half → s.object j ≠ t.object k

/-- The mirror that a client of the span sees. -/
structure Shows (bytes : κ → β) (s : Span κ) (m : Mirror β) : Prop where
  base_eq : m.base = s.base
  half_eq : m.half = s.half
  load_eq : ∀ a, m.load a = bytes (s.object ((a - s.base) % s.half).toNat)

def mirror (bytes : κ → β) (s : Span κ) : Mirror β := ⟨s.base, s.half, fun q => bytes (s.object q.toNat)⟩

variable {bytes bytes' : κ → β} {s t : Span κ} {m : Mirror β}

theorem shows_mirror : s.Shows bytes (s.mirror bytes) := ⟨rfl, rfl, fun _ => rfl⟩

theorem offset_lt (h : 0 < s.half) (a : Int) : ((a - s.base) % s.half).toNat < s.half := by
  have h0 := Int.emod_nonneg (a - s.base) (show (s.half : Int) ≠ 0 by omega)
  have h1 := Int.emod_lt_of_pos (a - s.base) (show (0 : Int) < s.half by omega)
  omega

theorem added {space space' : AddressSpace κ} (hfree : space.Free s.base (2 * s.half))
    (hlow : ∀ b : Nat, b < s.half → space' (s.base + b) = some (s.object b))
    (hhigh : ∀ b : Nat, b < s.half → space' (s.base + s.half + b) = some (s.object b))
    (hout : ∀ a, a < s.base ∨ s.base + 2 * s.half ≤ a → space' a = space a) : Added s.claim space space' := by
  refine ⟨fun a ha => hfree a ha.1 (by have := ha.2; push_cast; omega), fun a ha => ?_, fun a ha => hout a ?_⟩
  · obtain ⟨h1, h2⟩ := ha
    simp only [claim]
    by_cases h : a < s.base + s.half
    · have := hlow (a - s.base).toNat (by omega)
      rw [show s.base + ((a - s.base).toNat : Int) = a by omega] at this
      rw [this, Int.emod_eq_of_lt (by omega) (by omega)]
    · have := hhigh (a - s.base - s.half).toNat (by omega)
      rw [show s.base + s.half + ((a - s.base - s.half).toNat : Int) = a by omega] at this
      rw [this, ← Int.sub_emod_right, Int.emod_eq_of_lt (by omega) (by omega)]
  · by_contra hin
    exact ha ⟨by omega, by omega⟩

theorem cleared (space : AddressSpace κ) : Cleared s.claim space (space.clear s.base (2 * s.half)) := by
  refine ⟨fun a ha => ?_, fun a ha => ?_⟩
  · exact if_pos ⟨ha.1, by have := ha.2; push_cast; omega⟩
  · refine if_neg fun h => ha ⟨h.1, ?_⟩
    have := h.2
    push_cast at this
    exact this

theorem Foreign.symm (h : s.Foreign t) : t.Foreign s := fun j k hj hk he => h k j hk hj he.symm

/-- Bytes of other objects do not matter. -/
theorem Shows.congr (h : s.Shows bytes m) (hs : 0 < s.half) (hb : ∀ j, j < s.half → bytes' (s.object j) = bytes (s.object j)) :
    s.Shows bytes' m := by
  refine ⟨h.base_eq, h.half_eq, fun a => ?_⟩
  rw [h.load_eq, hb _ (offset_lt hs a)]

/-- One byte is written. -/
theorem Shows.store [DecidableEq κ] {a : Int} {b : β} (h : s.Shows bytes m) (hs : 0 < s.half) (hinj : s.Injective) :
    s.Shows (fun k => if k = s.object ((a - s.base) % s.half).toNat then b else bytes k) (m.store a 1 fun _ => b) := by
  refine ⟨h.base_eq, h.half_eq, fun x => ?_⟩
  have hmod : (x - s.base) % (s.half : Int) = (a - s.base) % s.half ↔ (x - a) % (s.half : Int) = 0 := by
    rw [Int.emod_eq_emod_iff_emod_sub_eq_zero, show x - s.base - (a - s.base) = x - a by ring]
  have hpos : ∀ y : Int, 0 ≤ y % (s.half : Int) := fun y => Int.emod_nonneg y (by omega)
  rw [Mirror.load_store, h.half_eq]
  by_cases hx : (x - a) % (s.half : Int) = 0
  · rw [if_pos (by omega), hmod.mpr hx, if_pos rfl]
  · have hne : s.object ((x - s.base) % s.half).toNat ≠ s.object ((a - s.base) % s.half).toNat := by
      intro he
      have := hinj _ _ (offset_lt hs x) (offset_lt hs a) he
      have := hpos (x - s.base)
      have := hpos (a - s.base)
      exact hx (hmod.mp (by omega))
    have := hpos (x - a)
    rw [if_neg (by omega), if_neg hne, h.load_eq]

end Span

namespace Mirror
variable {β : Type} {m : Mirror β} {a x : Int} {n : Nat} {f g : Nat → β}

/-- Mirrors that nobody can tell apart. -/
structure Same (m m' : Mirror β) : Prop where
  base_eq : m'.base = m.base
  half_eq : m'.half = m.half
  load_eq : ∀ a, m'.load a = m.load a

/-- A write is a write of its first byte and a write of the others. -/
theorem same_store_succ (hn : n + 1 ≤ m.half) (hg : ∀ k, k < n → g k = f (k + 1)) :
    Same (m.store a (n + 1) f) ((m.store a 1 fun _ => f 0).store (a + 1) n g) := by
  refine ⟨rfl, rfl, fun x => ?_⟩
  have hhalf : (0 : Int) < m.half := by omega
  have h0 := Int.emod_nonneg (x - a) (show (m.half : Int) ≠ 0 by omega)
  have h1 := Int.emod_lt_of_pos (x - a) hhalf
  simp only [load_store, show (m.store a 1 fun _ => f 0).half = m.half from rfl]
  -- the distance to the second byte, modulo the half
  have hprev : (x - (a + 1)) % (m.half : Int) =
      if (x - a) % (m.half : Int) = 0 then (m.half : Int) - 1 else (x - a) % (m.half : Int) - 1 := by
    rw [show x - (a + 1) = x - a - 1 by ring, ← Int.emod_sub_emod]
    split
    case isTrue hz =>
      rw [hz, ← Int.add_emod_right, Int.emod_eq_of_lt (by omega) (by omega)]
      ring
    case isFalse hz => exact Int.emod_eq_of_lt (by omega) (by omega)
  rw [hprev]
  by_cases hz : (x - a) % (m.half : Int) = 0
  · rw [if_pos hz, if_neg (by omega), hz, if_pos (by simp), if_pos (by simp)]
    rfl
  · rw [if_neg hz]
    by_cases hlt : ((x - a) % (m.half : Int)).toNat < n + 1
    · rw [if_pos (by omega), if_pos hlt, hg _ (by omega)]
      congr 1
      omega
    · rw [if_neg (by omega), if_neg (by omega), if_neg hlt]

end Mirror

namespace Memory
variable {ε σ χ δ κ β : Type}

/-- The client's session, and the bytes of all objects. -/
structure Machine (σ χ κ β : Type) where
  client : Session.Client σ χ
  bytes : κ → β

inductive Request (χ β : Type) where
  | session (r : Session.Request χ)
  | read (a : Int) (n : Nat)
  | write (a : Int) (bs : List β)
  /-- through a temporary buffer, as `memmove` -/
  | move (d a : Int) (n : Nat)

variable (A : Allocator ε σ χ δ Int κ) (fault : ε)

def loadByte (a : Int) : Exec ε (Machine σ χ κ β) β := do
  let m ← get
  match A.table m.client.system a with
  | some k => pure (m.bytes k)
  | none => throw fault

def readBytes (a : Int) : Nat → Exec ε (Machine σ χ κ β) (List β)
  | 0 => pure []
  | n + 1 => do
    let b ← loadByte A fault a
    let bs ← readBytes (a + 1) n
    pure (b :: bs)

section Writing
variable [DecidableEq κ]

def storeByte (a : Int) (b : β) : Exec ε (Machine σ χ κ β) Unit := do
  let m ← get
  match A.table m.client.system a with
  | some k => modify fun m => { m with bytes := fun k' => if k' = k then b else m.bytes k' }
  | none => throw fault

def writeBytes (a : Int) : List β → Exec ε (Machine σ χ κ β) Unit
  | [] => pure ()
  | b :: bs => do
    storeByte A fault a b
    writeBytes (a + 1) bs

def serve : Request χ β → Exec ε (Machine σ χ κ β) (Except δ (List β))
  | .session r => do
    let ok ← zoom (fun m => m.client) (fun m c => { m with client := c }) (Session.serve A r)
    pure (ok.map fun _ => [])
  | .read a n => do
    let bs ← readBytes A fault a n
    pure (.ok bs)
  | .write a bs => do
    writeBytes A fault a bs
    pure (.ok [])
  | .move d a n => do
    let bs ← readBytes A fault a n
    writeBytes A fault d bs
    pure (.ok [])

end Writing

/-- `[a, a + n)` lies in the span, and no byte of it occurs twice. -/
def Within (s : Span κ) (a : Int) (n : Nat) : Prop :=
  s.base ≤ a ∧ a + n ≤ s.base + 2 * s.half ∧ n ≤ s.half

variable (span : Int × χ → Span κ)

/-- Memory is accessed within what the client holds. -/
def Request.Fits (lawful : χ → σ → Prop) : Request χ β → Machine σ χ κ β → Prop
  | .session r, m => r.Fits lawful m.client
  | .read a n, m => ∃ h ∈ m.client.live, Within (span h) a n
  | .write a bs, m => ∃ h ∈ m.client.live, Within (span h) a bs.length
  | .move d a n, m => (∃ h ∈ m.client.live, Within (span h) a n) ∧
      ∃ h ∈ m.client.live, Within (span h) d n

/-- What independent mirrors answer to a request: an acquired mirror overlaps no other. -/
inductive Serves (fits : χ → Mirror β → Prop) :
    Request χ β → List (Mirror β) → Except ε (Except δ (List β)) → List (Mirror β) → Prop where
  | granted {x : χ} {ms : List (Mirror β)} {m : Mirror β} : fits x m →
      (∀ m' ∈ ms, m'.base + 2 * m'.half ≤ m.base ∨ m.base + 2 * m.half ≤ m'.base) →
      Serves fits (.session (.acquire x)) ms (.ok (.ok [])) (ms ++ [m])
  | refused {x : χ} {ms : List (Mirror β)} {e : δ} : Serves fits (.session (.acquire x)) ms (.ok (.error e)) ms
  | released {ms : List (Mirror β)} {k : Nat} : Serves fits (.session (.release k)) ms (.ok (.ok [])) (ms.eraseIdx k)
  | read {ms : List (Mirror β)} {m : Mirror β} {a : Int} {n : Nat} : m ∈ ms → m.Covers a n →
      Serves fits (.read a n) ms (.ok (.ok ((List.range n).map fun i : Nat => m.load (a + i)))) ms
  | write {ms : List (Mirror β)} {m : Mirror β} {k : Nat} {a : Int} {bs : List β} {f : Nat → β} :
      ms[k]? = some m → m.Covers a bs.length → (∀ i, i < bs.length → bs[i]? = some (f i)) →
      Serves fits (.write a bs) ms (.ok (.ok [])) (ms.set k (m.store a bs.length f))
  | move {ms : List (Mirror β)} {r m : Mirror β} {k : Nat} {d a : Int} {n : Nat} : r ∈ ms → r.Covers a n →
      ms[k]? = some m → m.Covers d n → Serves fits (.move d a n) ms (.ok (.ok [])) (ms.set k (m.copyFrom d r a n))

/-- The spans that answer requests are mirrored memory of their own. -/
structure Mirrored (lawful : χ → σ → Prop) (good : χ → Int → Prop) (fits : χ → Mirror β → Prop) : Prop where
  claim_eq : ∀ x a, A.claim x a = (span (a, x)).claim
  half_pos : ∀ x a, good x a → 0 < (span (a, x)).half
  injective : ∀ x a, good x a → (span (a, x)).Injective
  fresh : ∀ x s, lawful x s → ∀ a b k, A.table s b ≠ some ((span (a, x)).object k)
  fits : ∀ x a bytes, good x a → fits x ((span (a, x)).mirror bytes)

/-- The mirrors are what the client sees of its spans. -/
structure Sees (good : χ → Int → Prop) (keeps : σ → σ → Prop) (s₀ : σ) (m : Machine σ χ κ β) (ms : List (Mirror β)) :
    Prop where
  settled : Session.Settled A good keeps s₀ m.client
  length_eq : m.client.live.length = ms.length
  shows : ∀ (k : Nat) (h : Int × χ) (r : Mirror β), m.client.live[k]? = some h → ms[k]? = some r → (span h).Shows m.bytes r
  foreign : ∀ (j k : Nat) (h h' : Int × χ), j ≠ k → m.client.live[j]? = some h → m.client.live[k]? = some h' →
    (span h).Foreign (span h')

section Refinement
variable {A span fault} {lawful : χ → σ → Prop} {good : χ → Int → Prop} {keeps : σ → σ → Prop}
variable {fits : χ → Mirror β → Prop} {s₀ : σ} {m m' : Machine σ χ κ β} {ms : List (Mirror β)} {r : Mirror β}
variable {a : Int} {n k : Nat} {h : Int × χ}

theorem Sees.start (hs : Session.Sound A lawful good keeps) (bytes : κ → β) :
    Sees A span good keeps s₀ ⟨⟨s₀, []⟩, bytes⟩ [] :=
  ⟨.start hs, rfl, fun _ _ _ hk => by simp at hk, fun _ _ _ _ _ hk => by simp at hk⟩

theorem Sees.mirror (hm : Sees A span good keeps s₀ m ms) (hh : m.client.live[k]? = some h) :
    ∃ r, ms[k]? = some r ∧ (span h).Shows m.bytes r := by
  have hk : k < ms.length := hm.length_eq ▸ (List.getElem?_eq_some_iff.mp hh).1
  exact ⟨_, List.getElem?_eq_getElem hk, hm.shows k h _ hh (List.getElem?_eq_getElem hk)⟩

/-- The mirrors in the list may be replaced by others that look the same. -/
theorem Sees.congr {r' : Mirror β} (hm : Sees A span good keeps s₀ m (ms.set k r)) (hr : Mirror.Same r' r) :
    Sees A span good keeps s₀ m (ms.set k r') := by
  refine ⟨hm.settled, by simpa using hm.length_eq, fun j h q hj hq => ?_, hm.foreign⟩
  rw [List.getElem?_set] at hq
  by_cases hkj : k = j
  · by_cases hlt : k < ms.length
    · simp only [hkj, if_true, if_pos (hkj ▸ hlt), Option.some.injEq] at hq
      subst hq
      have hold := hm.shows j h r hj (by rw [List.getElem?_set, if_pos hkj, if_pos (hkj ▸ hlt)])
      exact ⟨hr.base_eq.symm.trans hold.base_eq, hr.half_eq.symm.trans hold.half_eq,
        fun x => (hr.load_eq x).symm.trans (hold.load_eq x)⟩
    · simp [hkj, hkj ▸ hlt] at hq
  · rw [if_neg hkj] at hq
    exact hm.shows j h q hj (by rw [List.getElem?_set, if_neg hkj, hq])

theorem Sees.translate (hm : Sees A span good keeps s₀ m ms) (hc : Mirrored A span lawful good fits)
    (hh : m.client.live[k]? = some h) (ha : (span h).base ≤ a)
    (ha' : a < (span h).base + 2 * (span h).half) :
    A.table m.client.system a =
      some ((span h).object ((a - (span h).base) % (span h).half).toNat) := by
  have hshown := hm.settled.shown (a := h.1) (x := h.2) (List.mem_of_getElem? hh) a
  rw [hc.claim_eq] at hshown
  exact hshown ⟨ha, ha'⟩

theorem Sees.ends_loadByte (hm : Sees A span good keeps s₀ m ms) (hc : Mirrored A span lawful good fits)
    (hh : m.client.live[k]? = some h) (hr : ms[k]? = some r) (ha : r.base ≤ a) (ha' : a < r.base + 2 * r.half) :
    Ends (loadByte A fault a) m fun b m' => m' = m ∧ b = r.load a := by
  have hshow := hm.shows k h r hh hr
  rw [hshow.base_eq] at ha ha'
  rw [hshow.half_eq] at ha'
  simp only [loadByte, ends_bind, ends_get, hm.translate hc hh ha ha', ends_pure]
  exact ⟨trivial, (hshow.load_eq a).symm⟩

theorem Sees.ends_readBytes (hm : Sees A span good keeps s₀ m ms) (hc : Mirrored A span lawful good fits)
    (hh : m.client.live[k]? = some h) (hr : ms[k]? = some r) (n : Nat) : ∀ a, r.base ≤ a → a + n ≤ r.base + 2 * r.half →
    Ends (readBytes A fault a n) m fun bs m' => m' = m ∧ bs = (List.range n).map fun i : Nat => r.load (a + i) := by
  induction n with
  | zero => exact fun a _ _ => ends_pure.mpr ⟨rfl, rfl⟩
  | succ n ih =>
    intro a ha ha'
    simp only [readBytes, ends_bind]
    refine ends_mono (hm.ends_loadByte hc hh hr ha (by omega)) ?_
    rintro b _ ⟨rfl, rfl⟩
    refine ends_mono (ih (a + 1) (by omega) (by omega)) ?_
    rintro bs _ ⟨rfl, rfl⟩
    refine ends_pure.mpr ⟨rfl, ?_⟩
    rw [List.range_succ_eq_map, List.map_cons, List.map_map]
    refine congrArg₂ List.cons (by simp) (List.map_congr_left fun i _ => ?_)
    simp only [Function.comp_apply, Nat.succ_eq_add_one]
    congr 1
    push_cast
    ring

/-- A held span shows its object. -/
theorem Sees.shown (hm : Sees A span good keeps s₀ m ms) (hc : Mirrored A span lawful good fits)
    (hh : m.client.live[k]? = some h) {i : Nat} (hi : i < (span h).half) :
    A.table m.client.system ((span h).base + i) = some ((span h).object i) := by
  rw [hm.translate hc hh (by omega) (by omega)]
  congr 2
  rw [add_sub_cancel_left, Int.emod_eq_of_lt (by omega) (by omega)]
  simp

/-- A new span overlaps no mirror. -/
theorem Sees.disjoint {x : χ} {s : σ} (hm : Sees A span good keeps s₀ m ms) (hc : Mirrored A span lawful good fits)
    (hgood : good x a) (ha : Added (A.claim x a) (A.table m.client.system) (A.table s)) (hr : r ∈ ms) :
    r.base + 2 * r.half ≤ (span (a, x)).base ∨ (span (a, x)).base + 2 * (span (a, x)).half ≤ r.base := by
  obtain ⟨j, hj⟩ := List.mem_iff_getElem?.mp hr
  have hlen : j < m.client.live.length := hm.length_eq ▸ (List.getElem?_eq_some_iff.mp hj).1
  have hh := List.getElem?_eq_getElem hlen
  have hshow := hm.shows j _ r hh hj
  have hpos : 0 < (span m.client.live[j]).half := hc.half_pos _ _ (hm.settled.good _ (List.mem_of_getElem? hh))
  have hpos' := hc.half_pos x a hgood
  by_contra hover
  simp only [hshow.base_eq, hshow.half_eq, not_or, not_le] at hover
  -- the larger of the two bases would be an address of both
  have hfree := ha.free (max (span m.client.live[j]).base (span (a, x)).base)
  rw [hc.claim_eq] at hfree
  have hnone := hfree ⟨le_max_right _ _, by omega⟩
  rw [hm.translate hc hh (le_max_left _ _) (by omega)] at hnone
  cases hnone

theorem Sees.push {x : χ} {s : σ} (hm : Sees A span good keeps s₀ m ms) (hc : Mirrored A span lawful good fits)
    (hlaw : lawful x m.client.system) (hsettled : Session.Settled A good keeps s₀ ⟨s, m.client.live ++ [(a, x)]⟩) :
    Sees A span good keeps s₀ ⟨⟨s, m.client.live ++ [(a, x)]⟩, m.bytes⟩ (ms ++ [(span (a, x)).mirror m.bytes]) := by
  have hnew : ∀ (j : Nat) (h : Int × χ), m.client.live[j]? = some h → (span h).Foreign (span (a, x)) := by
    intro j h hj i i' hi _ he
    exact hc.fresh x _ hlaw a _ i' (he ▸ hm.shown hc hj hi)
  refine ⟨hsettled, by simp [hm.length_eq], fun k h r hk hr => ?_, fun j k h h' hjk hj hk => ?_⟩
  · rw [List.getElem?_append] at hk hr
    rw [hm.length_eq] at hk
    split at hk
    · rw [if_pos ‹_›] at hr
      exact hm.shows k h r hk hr
    · rw [if_neg ‹_›] at hr
      obtain rfl := List.mem_singleton.mp (List.mem_of_getElem? hk)
      obtain rfl := List.mem_singleton.mp (List.mem_of_getElem? hr)
      exact Span.shows_mirror
  · rw [List.getElem?_append] at hj hk
    split at hj <;> split at hk
    · exact hm.foreign j k h h' hjk hj hk
    · obtain rfl := List.mem_singleton.mp (List.mem_of_getElem? hk)
      exact hnew j h hj
    · obtain rfl := List.mem_singleton.mp (List.mem_of_getElem? hj)
      exact (hnew k h' hk).symm
    · have h1 := (List.getElem?_eq_some_iff.mp hj).1
      have h2 := (List.getElem?_eq_some_iff.mp hk).1
      simp only [List.length_singleton] at h1 h2
      omega

/-- A request of the session shows the client a mirror more, or one less. -/
theorem Sees.served {c : Session.Client σ χ} {q : Session.Request χ} {res : Except δ Unit}
    (hs : Session.Sound A lawful good keeps) (hc : Mirrored A span lawful good fits)
    (hm : Sees A span good keeps s₀ m ms) (hq : q.Fits lawful m.client)
    (hres : Session.Served A good keeps m.client q res c) :
    ∃ ms', Serves (ε := ε) fits (.session q) ms (.ok (res.map fun _ => [])) ms' ∧
      Sees A span good keeps s₀ ⟨c, m.bytes⟩ ms' := by
  have hsettled := hm.settled.served hs hres
  cases hres with
  | acquired _ hgood ha =>
    exact ⟨_, .granted (hc.fits _ _ _ hgood) fun r hr => hm.disjoint hc hgood ha hr, hm.push hc hq hsettled⟩
  | refused _ _ => exact ⟨ms, .refused, hsettled, hm.length_eq, hm.shows, hm.foreign⟩
  | released _ _ _ =>
    refine ⟨_, .released, hsettled, ?_, fun j h r hj hr => ?_, fun j j' h h' hjj hj hj' => ?_⟩
    · simp [List.length_eraseIdx, hm.length_eq]
    · simp only [List.getElem?_eraseIdx] at hj hr
      split at hj
      · rw [if_pos ‹_›] at hr
        exact hm.shows j h r hj hr
      · rw [if_neg ‹_›] at hr
        exact hm.shows (j + 1) h r hj hr
    · simp only [List.getElem?_eraseIdx] at hj hj'
      split at hj <;> split at hj'
      all_goals exact hm.foreign _ _ h h' (by omega) hj hj'

/-- An access within a span is an access to the mirror of that span. -/
theorem Sees.within (hm : Sees A span good keeps s₀ m ms) (hw : ∃ h ∈ m.client.live, Within (span h) a n) :
    ∃ (k : Nat) (h : Int × χ) (r : Mirror β), m.client.live[k]? = some h ∧ ms[k]? = some r ∧ r.base ≤ a ∧ a + n ≤ r.base + 2 * r.half ∧ n ≤ r.half := by
  obtain ⟨h, hmem, h1, h2, h3⟩ := hw
  obtain ⟨k, hk⟩ := List.mem_iff_getElem?.mp hmem
  obtain ⟨r, hr, hshow⟩ := hm.mirror hk
  refine ⟨k, h, r, hk, hr, ?_, ?_, ?_⟩
  · rwa [hshow.base_eq]
  · rwa [hshow.base_eq, hshow.half_eq]
  · rwa [hshow.half_eq]

variable [DecidableEq κ]

theorem Sees.ends_storeByte {b : β} (hm : Sees A span good keeps s₀ m ms) (hc : Mirrored A span lawful good fits)
    (hh : m.client.live[k]? = some h) (hr : ms[k]? = some r) (ha : r.base ≤ a) (ha' : a < r.base + 2 * r.half) :
    Ends (storeByte A fault a b) m fun _ m' => m'.client = m.client ∧
      Sees A span good keeps s₀ m' (ms.set k (r.store a 1 fun _ => b)) := by
  have hshow := hm.shows k h r hh hr
  rw [hshow.base_eq] at ha ha'
  rw [hshow.half_eq] at ha'
  have hgood : ∀ (j : Nat) (h' : Int × χ), m.client.live[j]? = some h' → good h'.2 h'.1 :=
    fun j h' hj => hm.settled.good h' (List.mem_of_getElem? hj)
  have hpos := hc.half_pos _ _ (hgood k h hh)
  simp only [storeByte, ends_bind, ends_get, hm.translate hc hh ha ha', ends_modify]
  refine ⟨trivial, hm.settled, by simpa using hm.length_eq, fun j h' q hj hq => ?_, hm.foreign⟩
  by_cases hkj : k = j
  · subst hkj
    obtain rfl : h = h' := Option.some.inj (hh.symm.trans hj)
    rw [List.getElem?_set, if_pos rfl, if_pos (List.getElem?_eq_some_iff.mp hr).1] at hq
    obtain rfl := Option.some.inj hq
    exact hshow.store hpos (hc.injective _ _ (hgood k h hh))
  · rw [List.getElem?_set, if_neg hkj] at hq
    -- the byte belongs to another object
    refine (hm.shows j h' q hj hq).congr (hc.half_pos _ _ (hgood j h' hj)) fun i hi => if_neg ?_
    exact hm.foreign j k h' h (Ne.symm hkj) hj hh i _ hi (Span.offset_lt hpos a)

theorem Sees.ends_writeBytes (hc : Mirrored A span lawful good fits) (bs : List β) :
    ∀ (a : Int) (f : Nat → β) (m : Machine σ χ κ β) (ms : List (Mirror β)) (r : Mirror β),
      Sees A span good keeps s₀ m ms → m.client.live[k]? = some h → ms[k]? = some r →
      r.base ≤ a → a + bs.length ≤ r.base + 2 * r.half → bs.length ≤ r.half → (∀ i, i < bs.length → bs[i]? = some (f i)) →
      Ends (writeBytes A fault a bs) m fun _ m' => Sees A span good keeps s₀ m' (ms.set k (r.store a bs.length f)) := by
  induction bs with
  | nil =>
    intro a f m ms r hm hh hr _ _ _ _
    refine ends_pure.mpr ?_
    obtain ⟨hk, rfl⟩ := List.getElem?_eq_some_iff.mp hr
    rw [List.length_nil, Mirror.store_zero, List.set_getElem_self]
    exact hm
  | cons b bs ih =>
    intro a f m ms r hm hh hr ha ha' hn hf
    simp only [List.length_cons, Nat.cast_add, Nat.cast_one] at ha' hn
    have hk := (List.getElem?_eq_some_iff.mp hr).1
    obtain rfl : b = f 0 := Option.some.inj (hf 0 (by simp))
    simp only [writeBytes, ends_bind]
    refine ends_mono (hm.ends_storeByte hc hh hr ha (by omega)) ?_
    rintro _ m' ⟨hcl, hm'⟩
    have hr' : (ms.set k (r.store a 1 fun _ => f 0))[k]? = some (r.store a 1 fun _ => f 0) := by
      rw [List.getElem?_set, if_pos rfl, if_pos hk]
    have hlen : bs.length + 1 ≤ r.half := hn
    refine ends_mono (ih (a + 1) (fun i => f (i + 1)) m' _ _ hm' (hcl ▸ hh) hr' ?_ ?_ ?_ fun i hi => ?_) ?_
    · show r.base ≤ a + 1
      omega
    · show a + 1 + bs.length ≤ r.base + 2 * r.half
      omega
    · show bs.length ≤ r.half
      omega
    · simpa using hf (i + 1) (by simpa using hi)
    · intro _ m'' hm''
      rw [List.set_set] at hm''
      exact hm''.congr (Mirror.same_store_succ hlen fun i _ => rfl)

theorem ends_serve (hs : Session.Sound A lawful good keeps) (hc : Mirrored A span lawful good fits)
    (hm : Sees A span good keeps s₀ m ms) {q : Request χ β} (hq : q.Fits span lawful m) :
    Ends (serve A fault q) m fun res m' => ∃ ms', Serves fits q ms (.ok res : Except ε _) ms' ∧
      Sees A span good keeps s₀ m' ms' := by
  cases q with
  | session q =>
    simp only [serve, ends_bind, ends_zoom, ends_pure]
    exact ends_mono (Session.ends_serve hs hm.settled hq) fun res c hres => hm.served hs hc hq hres
  | read a n =>
    obtain ⟨k, h, r, hk, hr, h1, h2, -⟩ := hm.within hq
    simp only [serve, ends_bind]
    refine ends_mono (hm.ends_readBytes hc hk hr n a h1 h2) ?_
    rintro _ _ ⟨rfl, rfl⟩
    exact ends_pure.mpr ⟨ms, .read (List.mem_of_getElem? hr) (.inr ⟨h1, h2⟩), hm⟩
  | write a bs =>
    obtain ⟨k, h, r, hk, hr, h1, h2, h3⟩ := hm.within hq
    simp only [serve, ends_bind]
    cases bs with
    | nil =>
      have hf : ∀ i, i < ([] : List β).length → ([] : List β)[i]? = some (r.load a) :=
        fun i hi => absurd hi (Nat.not_lt_zero i)
      refine ends_pure.mpr (ends_pure.mpr ⟨ms.set k (r.store a 0 fun _ => r.load a), ?_, ?_⟩)
      · exact .write hr (.inl rfl) hf
      · obtain ⟨hlt, rfl⟩ := List.getElem?_eq_some_iff.mp hr
        rw [Mirror.store_zero, List.set_getElem_self]
        exact hm
    | cons b bs =>
      have hf : ∀ i, i < (b :: bs).length → (b :: bs)[i]? = some ((b :: bs).getD i b) := fun i hi => by
        rw [List.getD_eq_getElem?_getD, List.getElem?_eq_getElem hi, Option.getD_some]
      refine ends_mono (Sees.ends_writeBytes hc (b :: bs) a _ m ms r hm hk hr h1 h2 h3 hf) fun _ m' hm' => ?_
      exact ends_pure.mpr ⟨_, .write hr (.inr ⟨h1, h2⟩) hf, hm'⟩
  | move d a n =>
    obtain ⟨j, h, r, hj, hr, h1, h2, h3⟩ := hm.within hq.1
    obtain ⟨k, h', r', hk, hr', h4, h5, h6⟩ := hm.within hq.2
    simp only [serve, ends_bind]
    refine ends_mono (hm.ends_readBytes hc hj hr n a h1 h2) ?_
    rintro _ _ ⟨rfl, rfl⟩
    have hlen : ((List.range n).map fun i : Nat => r.load (a + i)).length = n := by simp
    have hf : ∀ i, i < ((List.range n).map fun i : Nat => r.load (a + i)).length →
        ((List.range n).map fun i : Nat => r.load (a + i))[i]? = some (r.load (a + i)) := fun i hi => by
      rw [hlen] at hi
      simp [hi]
    refine ends_mono (Sees.ends_writeBytes hc _ d _ _ ms r' hm hk hr' h4 (by rwa [hlen]) (by rwa [hlen]) hf) ?_
    intro _ m' hm'
    rw [hlen] at hm'
    exact ends_pure.mpr ⟨_, .move (List.mem_of_getElem? hr) (.inr ⟨h1, h2⟩) hr' (.inr ⟨h4, h5⟩), hm'⟩

/-- Memory behind mirrored mappings refines independent mirrors, over every run. -/
theorem refines (hs : Session.Sound A lawful good keeps) (hc : Mirrored A span lawful good fits) (bytes : κ → β)
    (qs : List (Request χ β)) (hqs : Always (serve A fault) (Request.Fits span lawful) qs ⟨⟨s₀, []⟩, bytes⟩) :
    ∃ ms, Path (Serves fits) qs [] (results (serve A fault) qs ⟨⟨s₀, []⟩, bytes⟩) ms ∧
      Sees A span good keeps s₀ (final (serve A fault) qs ⟨⟨s₀, []⟩, bytes⟩) ms := by
  refine refinement (fun q m ms hm hq => ?_) qs _ [] (.start hs bytes) hqs
  obtain ⟨res, m', he, ms', hserves, hm'⟩ := ends_serve hs hc hm hq
  rw [he]
  exact ⟨ms', hserves, hm'⟩

end Refinement

end Memory
