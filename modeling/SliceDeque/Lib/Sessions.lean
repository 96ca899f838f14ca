import SliceDeque.Lib.Claims
import SliceDeque.Lib.Runs

/-!
# Sessions with an allocator

A client acquires and releases in any order and keeps what it got. If every
single call adds or clears exactly the claim it is about, a session of any
length leaves the ground under the claims that were not released.
-/

set_option autoImplicit false

open Exec Claim

/-- A request `x` is answered with an address; the address and `x` make a claim on the table. -/
structure Allocator (ε σ χ δ ι κ : Type) where
  acquire : χ → Exec ε σ (Except δ Int)
  release : χ → Int → Exec ε σ Unit
  table : σ → ι → Option κ
  claim : χ → Int → Claim ι κ

namespace Session
variable {ε σ χ δ ι κ : Type}

/-- The system, and the addresses the client got with the requests they answer. -/
structure Client (σ χ : Type) where
  system : σ
  live : List (Int × χ)

inductive Request (χ : Type) where
  | acquire (x : χ)
  | release (k : Nat)

variable (A : Allocator ε σ χ δ ι κ)

def onSystem {α : Type} (m : Exec ε σ α) : Exec ε (Client σ χ) α :=
  zoom (fun c => c.system) (fun c s => ⟨s, c.live⟩) m

def serve : Request χ → Exec ε (Client σ χ) (Except δ Unit)
  | .acquire x => do
    let r ← onSystem (A.acquire x)
    match r with
    | .ok a => do
      modify fun c => ⟨c.system, c.live ++ [(a, x)]⟩
      pure (.ok ())
    | .error e => pure (.error e)
  | .release k => do
    let c ← get
    match c.live[k]? with
    | some (a, x) => do
      onSystem (A.release x a)
      modify fun c => ⟨c.system, c.live.eraseIdx k⟩
      pure (.ok ())
    | none => pure (.ok ())

/-- The client releases what it holds. -/
def Request.Fits (lawful : χ → σ → Prop) : Request χ → Client σ χ → Prop
  | .acquire x, c => lawful x c.system
  | .release k, c => k < c.live.length

/-- What a call of `acquire` leaves. -/
def Acquired (good : χ → Int → Prop) (s : σ) (x : χ) : Except δ Int → σ → Prop
  | .ok a, s' => good x a ∧ Added (A.claim x a) (A.table s) (A.table s')
  | .error _, s' => A.table s' = A.table s

/-- The calls change the table by their claim and otherwise keep what `keeps` says. -/
structure Sound (lawful : χ → σ → Prop) (good : χ → Int → Prop) (keeps : σ → σ → Prop) : Prop where
  refl : ∀ s, keeps s s
  trans : ∀ s t u, keeps s t → keeps t u → keeps s u
  acquire : ∀ x s, lawful x s → Ends (A.acquire x) s fun r s' => keeps s s' ∧ Acquired A good s x r s'
  release : ∀ x a s, good x a → (∀ i, (A.claim x a).owns i → A.table s i = some ((A.claim x a).shows i)) →
    Ends (A.release x a) s fun _ s' => keeps s s' ∧ Cleared (A.claim x a) (A.table s) (A.table s')

/-- What a request leaves. -/
inductive Served (good : χ → Int → Prop) (keeps : σ → σ → Prop) (c : Client σ χ) :
    Request χ → Except δ Unit → Client σ χ → Prop where
  | acquired {a : Int} {x : χ} {s : σ} : keeps c.system s → good x a →
      Added (A.claim x a) (A.table c.system) (A.table s) →
      Served good keeps c (.acquire x) (.ok ()) ⟨s, c.live ++ [(a, x)]⟩
  | refused {e : δ} {x : χ} {s : σ} : keeps c.system s → A.table s = A.table c.system →
      Served good keeps c (.acquire x) (.error e) ⟨s, c.live⟩
  | released {a : Int} {x : χ} {k : Nat} {s : σ} : c.live[k]? = some (a, x) → keeps c.system s →
      Cleared (A.claim x a) (A.table c.system) (A.table s) →
      Served good keeps c (.release k) (.ok ()) ⟨s, c.live.eraseIdx k⟩

/-- The table of the system is the ground under the claims of the client. -/
structure Settled (good : χ → Int → Prop) (keeps : σ → σ → Prop) (s₀ : σ) (c : Client σ χ) : Prop where
  holds : Holds (A.table s₀) (A.table c.system) (c.live.map fun h => A.claim h.2 h.1)
  good : ∀ h ∈ c.live, good h.2 h.1
  keeps : keeps s₀ c.system

variable {A} {lawful : χ → σ → Prop} {good : χ → Int → Prop} {keeps : σ → σ → Prop} {s₀ : σ} {c c' : Client σ χ}

theorem ends_onSystem {α : Type} {m : Exec ε σ α} {Q : α → Client σ χ → Prop} :
    Ends (onSystem m) c Q ↔ Ends m c.system fun a s => Q a ⟨s, c.live⟩ := ends_zoom

theorem Settled.start (h : Sound A lawful good keeps) : Settled A good keeps s₀ ⟨s₀, []⟩ :=
  ⟨.nil, fun _ hh => absurd hh List.not_mem_nil, h.refl s₀⟩

theorem Settled.shown (h : Settled A good keeps s₀ c) {a : Int} {x : χ} (hmem : (a, x) ∈ c.live) (i : ι)
    (hi : (A.claim x a).owns i) : A.table c.system i = some ((A.claim x a).shows i) :=
  h.holds.shown _ (List.mem_map_of_mem (f := fun h : Int × χ => A.claim h.2 h.1) hmem) i hi

theorem Settled.served (hs : Sound A lawful good keeps) (h : Settled A good keeps s₀ c) {r : Request χ}
    {res : Except δ Unit} (hr : Served A good keeps c r res c') : Settled A good keeps s₀ c' := by
  cases hr with
  | acquired hk hgood ha =>
    refine ⟨?_, fun b hb => ?_, hs.trans _ _ _ h.keeps hk⟩
    · rw [List.map_append]
      exact h.holds.push ha
    · rcases List.mem_append.mp hb with hb | hb
      · exact h.good b hb
      · obtain rfl := List.mem_singleton.mp hb
        exact hgood
  | refused hk ht =>
    refine ⟨?_, h.good, hs.trans _ _ _ h.keeps hk⟩
    rw [ht]
    exact h.holds
  | released hk hkeep hc =>
    refine ⟨?_, fun b hb => h.good b (List.mem_of_mem_eraseIdx hb), hs.trans _ _ _ h.keeps hkeep⟩
    obtain ⟨ls, rs, hlive, herase⟩ := exists_around hk
    have hholds := h.holds
    rw [hlive, List.map_append, List.map_cons] at hholds
    rw [herase, List.map_append]
    exact hholds.remove hc

theorem ends_serve (hs : Sound A lawful good keeps) (h : Settled A good keeps s₀ c) {r : Request χ}
    (hr : r.Fits lawful c) : Ends (serve A r) c (Served A good keeps c r) := by
  cases r with
  | acquire x =>
    simp only [serve, ends_bind, ends_onSystem]
    refine ends_mono (hs.acquire x c.system hr) ?_
    rintro (e | a) s ⟨hk, hpost⟩
    · exact ends_pure.mpr (.refused hk hpost)
    · simp only [ends_bind, ends_modify, ends_pure]
      exact .acquired hk hpost.1 hpost.2
  | release k =>
    obtain ⟨⟨a, x⟩, hx⟩ : ∃ b, c.live[k]? = some b := ⟨_, List.getElem?_eq_getElem hr⟩
    have hmem : (a, x) ∈ c.live := List.mem_of_getElem? hx
    simp only [serve, ends_bind, ends_get, hx, ends_onSystem, ends_modify, ends_pure]
    refine ends_mono (hs.release x a c.system (h.good _ hmem) (h.shown hmem)) ?_
    rintro _ s ⟨hk, hc⟩
    exact .released hx hk hc

/-- Every session: no call panics, and what was not released is all that is there in the end. -/
theorem settled_final (hs : Sound A lawful good keeps) (rs : List (Request χ))
    (hrs : Always (serve A) (Request.Fits lawful) rs ⟨s₀, []⟩) :
    Always (serve A) (fun r c => Ends (serve A r) c fun _ _ => True) rs ⟨s₀, []⟩ ∧
      Settled A good keeps s₀ (final (serve A) rs ⟨s₀, []⟩) := by
  have hstep : ∀ r c, Settled A good keeps s₀ c → r.Fits lawful c → Settled A good keeps s₀ (serve A r c).state := by
    intro r c h hr
    obtain ⟨_, c', he, hc⟩ := ends_serve hs h hr
    rw [he]
    exact h.served hs hc
  refine ⟨always_of_invariant hstep (fun r c h hr => ?_) rs _ (.start hs) hrs,
    final_invariant hstep rs _ (.start hs) hrs⟩
  exact ends_mono (ends_serve hs h hr) fun _ _ _ => trivial

end Session
