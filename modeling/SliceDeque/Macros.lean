import SliceDeque.Platform
import SliceDeque.Lib.Overlay
import SliceDeque.Lib.Runs

/-!
# Small ASCII strings

Messages are formatted into a buffer of 512 bytes, piece by piece, and the whole
buffer is then taken for a string. Every piece is written at its start.
-/

set_option autoImplicit false

namespace Sdeq
open Exec Overlay

/-- `fmt::Error` -/
inductive FmtError where
  | error
  deriving DecidableEq, Repr

structure TinyAsciiString where
  buf : Vector UInt8 512

namespace TinyAsciiString

def new : TinyAsciiString := ⟨Vector.replicate 512 0⟩

/-- `s.bytes()` -/
def bytes (s : String) : List UInt8 := s.toByteArray.data.toList

/-- The loop of `write_str`: the rest of the bytes and the index of the first one. -/
def writeLoop : (idx : Nat) → List UInt8 → Exec FmtError TinyAsciiString Unit
  | _, [] => pure ()
  | idx, b :: rest =>
    if idx < 512 then do
      modify fun t => ⟨t.buf.setIfInBounds idx b⟩
      writeLoop (idx + 1) rest
    else throw .error

def writeStr (s : String) : Exec FmtError TinyAsciiString Unit := writeLoop 0 (bytes s)

/-- What `from_utf8_unchecked` is given. -/
def raw (t : TinyAsciiString) : ByteArray := t.buf.toList.toByteArray

/-- The caller of `as_str` knows that the buffer is valid UTF-8. -/
def asStr (t : TinyAsciiString) (h : t.raw.IsValidUTF8) : String := String.fromUTF8 t.raw h

/-- `write!` with the pieces of a format string and its arguments -/
def write (pieces : List String) : Exec FmtError TinyAsciiString Unit := forEach writeStr pieces

/-- `tiny_str!`; nothing is returned when the `unwrap` panics. -/
def tinyStr (pieces : List String) : Option TinyAsciiString :=
  match (write pieces new).result with
  | .ok () => some (write pieces new).state
  | .error _ => none

/-- `Debug for AllocError` -/
def debug : AllocError → String
  | .oom => "out-of-memory"
  | .other => "other (not out-of-memory)"

/-- The message of `with_capacity` -/
def withCapacityMessage (n : Nat) (e : AllocError) : List String :=
  ["failed to allocate a buffer with capacity \"", toString n, "\" due to \"", debug e, "\""]

/-- The bytes of all pieces, one behind the other. -/
def joined (pieces : List String) : List UInt8 := (pieces.map bytes).flatten

/-- The pieces are appended to each other as long as they fit, and the first one that does not is refused. -/
structure Appends (pieces : List String) : Prop where
  fits : (joined pieces).length ≤ 512 → (∀ r ∈ results writeStr pieces new, r = .ok ()) ∧
    (final writeStr pieces new).buf.toList = joined pieces ++ List.replicate (512 - (joined pieces).length) 0 ∧
    (final writeStr pieces new).raw.IsValidUTF8
  overflows : ∀ done p rest, pieces = done ++ p :: rest → (joined done).length ≤ 512 →
    512 < (joined (done ++ [p])).length → (writeStr p (final writeStr done new)).result = .error .error

variable {t : TinyAsciiString} {idx j : Nat} {bs : List UInt8} {s : String} {pieces : List String}

/-! ## One piece -/

/-- The byte at a place; behind the buffer there are zeros. -/
def byte (t : TinyAsciiString) (j : Nat) : UInt8 := t.buf.toList.getD j 0

theorem byte_set {b : UInt8} (h : idx < 512) : byte ⟨t.buf.setIfInBounds idx b⟩ j = if j = idx then b else t.byte j := by
  unfold byte
  rw [Vector.toList_setIfInBounds, List.getD_eq_getElem?_getD, List.getD_eq_getElem?_getD]
  by_cases hj : j = idx
  · subst hj
    rw [if_pos rfl, List.getElem?_set_self (by rw [Vector.length_toList]; exact h)]
    rfl
  · rw [if_neg hj, List.getElem?_set_ne (Ne.symm hj)]

theorem writeLoop_cons {b : UInt8} (h : idx < 512) :
    writeLoop idx (b :: bs) t = writeLoop (idx + 1) bs ⟨t.buf.setIfInBounds idx b⟩ := by
  rw [writeLoop, if_pos h, bind_apply]
  rfl

/-- What fits is written, and what is around it stays. -/
theorem ends_writeLoop (h : idx + bs.length ≤ 512) :
    Ends (writeLoop idx bs) t fun _ t' => ∀ j, t'.byte j = if idx ≤ j ∧ j < idx + bs.length then bs.getD (j - idx) 0 else t.byte j := by
  induction bs generalizing idx t with
  | nil =>
    refine ends_pure.mpr fun j => ?_
    rw [if_neg (by simp)]
  | cons b bs ih =>
    rw [List.length_cons] at h
    have hfits : idx + 1 + bs.length ≤ 512 := by omega
    rw [Ends, writeLoop_cons (by omega)]
    refine ends_mono (ih hfits) fun _ t' ht' j => ?_
    rw [ht' j, byte_set (by omega), List.length_cons]
    by_cases hj : j = idx
    · subst hj
      rw [if_neg (by omega), if_pos rfl, if_pos (by omega), Nat.sub_self]
      rfl
    · rw [if_neg hj]
      by_cases hin : idx + 1 ≤ j ∧ j < idx + 1 + bs.length
      · rw [if_pos hin, if_pos (by omega), show j - idx = j - (idx + 1) + 1 by omega]
        rfl
      · rw [if_neg hin, if_neg (by omega)]

theorem writeLoop_error (hi : idx ≤ 512) (h : 512 < idx + bs.length) : (writeLoop idx bs t).result = .error .error := by
  induction bs generalizing idx t with
  | nil =>
    rw [List.length_nil] at h
    omega
  | cons b bs ih =>
    rw [List.length_cons] at h
    by_cases hidx : idx < 512
    · rw [writeLoop_cons hidx]
      exact ih hidx (by omega)
    · rw [writeLoop, if_neg hidx]
      rfl

theorem ends_writeStr (h : (bytes s).length ≤ 512) : Ends (writeStr s) t fun _ t' => t'.byte = cover 0 (bytes s) t.byte := by
  have hfits : 0 + (bytes s).length ≤ 512 := by omega
  refine ends_mono (ends_writeLoop hfits) fun _ t' ht' => ?_
  funext j
  rw [ht' j, cover]
  simp

theorem writeStr_result : (writeStr s t).result = if (bytes s).length ≤ 512 then .ok () else .error .error := by
  split
  · rename_i h
    obtain ⟨⟨⟩, _, hs, -⟩ := ends_writeStr (t := t) h
    rw [hs]
  · exact writeLoop_error (Nat.zero_le _) (by omega)

/-! ## All pieces -/

theorem byte_new : new.byte = fun _ => 0 := by
  funext j
  rw [byte, new, Vector.toList_replicate]
  exact getD_blank fun a => List.eq_of_mem_replicate

theorem byte_final (h : ∀ p ∈ pieces, (bytes p).length ≤ 512) :
    (final writeStr pieces t).byte = overlay 0 t.byte (pieces.map bytes) := by
  induction pieces generalizing t with
  | nil => rfl
  | cons p pieces ih =>
    obtain ⟨⟨⟩, t', hp, ht'⟩ := ends_writeStr (t := t) (h p List.mem_cons_self)
    rw [final, hp, ih fun q hq => h q (List.mem_cons_of_mem _ hq), List.map_cons, overlay, ht']

theorem length_le_joined {p : String} (hp : p ∈ pieces) : (bytes p).length ≤ (joined pieces).length :=
  (List.sublist_flatten_of_mem (List.mem_map_of_mem hp)).length_le

theorem results_ok (h : ∀ p ∈ pieces, (bytes p).length ≤ 512) : ∀ r ∈ results writeStr pieces t, r = .ok () := by
  induction pieces generalizing t with
  | nil => exact fun _ hr => absurd hr List.not_mem_nil
  | cons p pieces ih =>
    intro r hr
    rcases List.mem_cons.mp hr with rfl | hr
    · rw [writeStr_result, if_pos (h p List.mem_cons_self)]
    · exact ih (fun q hq => h q (List.mem_cons_of_mem _ hq)) r hr

/-- The buffer holds some bytes and then zeros exactly if it does at each place. -/
theorem buf_eq_iff (h : bs.length ≤ 512) :
    t.buf.toList = bs ++ List.replicate (512 - bs.length) 0 ↔ ∀ j, t.byte j = bs.getD j 0 := by
  have hpad : ∀ j, (bs ++ List.replicate (512 - bs.length) 0).getD j 0 = bs.getD j 0 := by
    intro j
    rcases Nat.lt_or_ge j bs.length with hj | hj
    · exact List.getD_append _ _ _ _ hj
    · rw [List.getD_append_right _ _ _ _ hj, getD_blank fun a => List.eq_of_mem_replicate, List.getD_eq_default _ _ hj]
  constructor
  · intro heq j
    rw [byte, heq, hpad]
  · intro heq
    apply List.ext_getElem
    · simp
      omega
    · intro j hj hj'
      have hbyte := heq j
      rw [← hpad j, byte, List.getD_eq_getElem _ _ hj, List.getD_eq_getElem _ _ hj'] at hbyte
      exact hbyte

/-! ## UTF-8 -/

theorem valid_bytes (s : String) : (bytes s).toByteArray.IsValidUTF8 := by
  have heq : (bytes s).toByteArray = s.toByteArray := by
    apply ByteArray.ext
    rw [List.data_toByteArray, bytes]
  rw [heq]
  exact s.isValidUTF8

theorem valid_joined (pieces : List String) : (joined pieces).toByteArray.IsValidUTF8 := by
  induction pieces with
  | nil => exact ByteArray.isValidUTF8_empty
  | cons p pieces ih =>
    rw [joined, List.map_cons, List.flatten_cons, List.toByteArray_append]
    exact (valid_bytes p).append ih

theorem valid_ascii (h : ∀ b ∈ bs, b < 128) : bs.toByteArray.IsValidUTF8 := by
  induction bs with
  | nil => exact ByteArray.isValidUTF8_empty
  | cons b bs ih =>
    have hb : b.toNat ≤ 127 := Nat.lt_succ_iff.mp (UInt8.lt_iff_toNat_lt.mp (h b List.mem_cons_self))
    have hval : (Char.ofUInt8 b).val.toNat = b.toNat := rfl
    have hone : [b] = String.utf8EncodeChar (Char.ofUInt8 b) := by
      simp [String.utf8EncodeChar, hval, hb]
    rw [← List.singleton_append, List.toByteArray_append, hone]
    exact Char.isValidUTF8_toByteArray_utf8EncodeChar.append (ih fun c hc => h c (List.mem_cons_of_mem _ hc))

/-! ## Appending -/

/-- Pieces that fit together are appended exactly if they are silent, and a piece that does not fit is refused exactly if
it does not fit on its own. -/
theorem appends_iff : Appends pieces ↔
    ((joined pieces).length ≤ 512 → (pieces.map bytes).Pairwise (Silent 0)) ∧
      ∀ done p rest, pieces = done ++ p :: rest → (joined done).length ≤ 512 → 512 < (joined (done ++ [p])).length →
        512 < (bytes p).length := by
  have hshown : (joined pieces).length ≤ 512 →
      ((final writeStr pieces new).buf.toList = joined pieces ++ List.replicate (512 - (joined pieces).length) 0 ↔
        (pieces.map bytes).Pairwise (Silent 0)) := by
    intro hlen
    have hfinal := byte_final (t := new) fun p hp => (length_le_joined hp).trans hlen
    rw [buf_eq_iff hlen, hfinal, byte_new, joined, overlay_eq_flatten_iff]
  constructor
  · intro h
    refine ⟨fun hlen => (hshown hlen).mp (h.fits hlen).2.1, fun done p rest heq hdone hover => ?_⟩
    have hrefused := h.overflows done p rest heq hdone hover
    rw [writeStr_result] at hrefused
    by_contra hfit
    rw [if_pos (Nat.not_lt.mp hfit)] at hrefused
    cases hrefused
  · rintro ⟨hsilent, hover⟩
    refine ⟨fun hlen => ?_, fun done p rest heq hdone hlen => ?_⟩
    · have hbuf := (hshown hlen).mpr (hsilent hlen)
      refine ⟨results_ok fun p hp => (length_le_joined hp).trans hlen, hbuf, ?_⟩
      rw [raw, hbuf, List.toByteArray_append]
      refine (valid_joined pieces).append (valid_ascii fun b hb => ?_)
      rw [List.eq_of_mem_replicate hb]
      decide
    · rw [writeStr_result, if_neg (Nat.not_le.mpr (hover done p rest heq hdone hlen))]

/-- The message of `with_capacity(10)` begins with the last quotation mark. -/
theorem withCapacityMessage_lost : ¬ Appends (withCapacityMessage 10 .oom) := by
  intro h
  have hbuf := (h.fits (by decide +kernel)).2.1
  revert hbuf
  decide +kernel

/-! ## `tiny_str!` -/

/-- `write!` stops at the first piece that is refused. -/
theorem ends_write (h : ∀ p ∈ pieces, (bytes p).length ≤ 512) :
    Ends (write pieces) t fun _ t' => t' = final writeStr pieces t := by
  induction pieces generalizing t with
  | nil => exact ends_pure.mpr rfl
  | cons p pieces ih =>
    obtain ⟨a, t', hp, -⟩ := ends_writeStr (t := t) (h p List.mem_cons_self)
    refine ends_bind.mpr ⟨a, t', hp, ?_⟩
    rw [final, hp]
    exact ih fun q hq => h q (List.mem_cons_of_mem _ hq)

theorem write_error (h : ¬ ∀ p ∈ pieces, (bytes p).length ≤ 512) : (write pieces t).result = .error .error := by
  induction pieces generalizing t with
  | nil => exact absurd (fun _ hp => absurd hp List.not_mem_nil) h
  | cons p pieces ih =>
    rw [write, forEach, bind_apply, writeStr_result]
    split_ifs with hp
    · exact ih fun hrest => h (List.forall_mem_cons.mpr ⟨hp, hrest⟩)
    · rfl

theorem tinyStr_eq :
    tinyStr pieces = if ∀ p ∈ pieces, (bytes p).length ≤ 512 then some (final writeStr pieces new) else none := by
  rw [tinyStr]
  split_ifs with h
  · obtain ⟨⟨⟩, _, hw, rfl⟩ := ends_write (t := new) h
    rw [hw]
  · rw [write_error h]

/-- The unchecked conversion is sound for messages in ASCII, whatever they look like. -/
theorem tinyStr_valid (hascii : ∀ p ∈ pieces, ∀ b ∈ bytes p, b < 128) (ht : tinyStr pieces = some t) : t.raw.IsValidUTF8 := by
  rw [tinyStr_eq] at ht
  split_ifs at ht with h
  cases ht
  refine valid_ascii fun b hb => ?_
  obtain ⟨j, hj, rfl⟩ := List.getElem_of_mem hb
  rw [← List.getD_eq_getElem _ 0 hj]
  change (final writeStr pieces new).byte j < 128
  rw [byte_final h, byte_new]
  rcases overlay_cases (z := 0) (pieces.map bytes) (fun _ => 0) j with ⟨q, hq, hjq, heq⟩ | ⟨-, heq⟩
  · obtain ⟨p, hp, rfl⟩ := List.mem_map.mp hq
    rw [heq, List.getD_eq_getElem _ _ hjq]
    exact hascii p hp _ (List.getElem_mem hjq)
  · rw [heq]
    decide

end TinyAsciiString

end Sdeq
