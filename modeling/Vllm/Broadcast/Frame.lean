import Mathlib.Data.List.TakeWhile
import Mathlib.Algebra.GroupWithZero.Nat

/-!
# Frames of the broadcast queue

What `enqueue` writes into a ring slot and what `dequeue` reads back from it. A reader that
has seen only part of a slot either has no result yet or the result of the whole frame
(`readMessage_mono`), and the whole frame reads back as what was written
(`readMessage_frame`).
-/

namespace Vllm.Broadcast

open List Option

abbrev Bytes := List UInt8

/-- Pickling with out-of-band buffers, and the round trip it promises. -/
structure Codec (O : Type) where
  dumps : O → Bytes × List Bytes
  loads : List Bytes → Option O
  loads_dumps : ∀ obj, loads ((dumps obj).1 :: (dumps obj).2) = some obj

structure RingConfig where
  maxChunkBytes : Nat
  maxChunks : Nat
  chunks_pos : 0 < maxChunks

/-! ## Integers in bytes -/

/-- `to_bytes_big`, with `none` for its `OverflowError`. -/
def toBytesBig (value : Nat) : Nat → Option Bytes
  | 0 => if value = 0 then some [] else none
  | size + 1 => (toBytesBig (value / 256) size).map (· ++ [UInt8.ofNat value])

def fromBytesBig (bytes : Bytes) : Nat :=
  bytes.foldl (fun acc byte => acc * 256 + byte.toNat) 0

theorem toBytesBig_spec {size value : Nat} {bytes : Bytes}
    (h : toBytesBig value size = some bytes) :
    bytes.length = size ∧ fromBytesBig bytes = value := by
  induction size generalizing value bytes with
  | zero =>
    simp only [toBytesBig] at h
    split at h
    · rename_i hzero
      cases h
      exact ⟨rfl, hzero.symm⟩
    · cases h
  | succ size ih =>
    simp only [toBytesBig, map_eq_some_iff] at h
    obtain ⟨high, hhigh, rfl⟩ := h
    obtain ⟨hlength, hvalue⟩ := ih hhigh
    refine ⟨by simp [hlength], ?_⟩
    unfold fromBytesBig at hvalue ⊢
    rw [foldl_append]
    simp only [foldl_cons, foldl_nil, UInt8.toNat_ofNat']
    omega

/-! ## Writing a frame -/

section

variable {O : Type} (config : RingConfig) (codec : Codec O)

/-- `all_buffers` of `enqueue`. -/
def allBuffers (obj : O) : List Bytes := (codec.dumps obj).1 :: (codec.dumps obj).2

/-- `total_bytes`: 2 bytes for the buffer count, 4 for the size of the main buffer, and the
out-of-band buffers. -/
def totalBytes (obj : O) : Nat :=
  6 + ((codec.dumps obj).2.map fun buffer => buffer.length + 4).sum

def overflows (obj : O) : Bool :=
  config.maxChunkBytes ≤ totalBytes codec obj + (codec.dumps obj).1.length

/-- The assignments to the slot in their order; `none` is an integer that does not fit. -/
def frameParts (obj : O) : List (Option Bytes) :=
  if overflows config codec obj then [some [1]]
  else some [0] :: toBytesBig (allBuffers codec obj).length 2 ::
    (allBuffers codec obj).flatMap fun buffer => [toBytesBig buffer.length 4, some buffer]

/-- What gets written before the first assignment that raises. -/
def frame (obj : O) : Bytes :=
  (((frameParts config codec obj).takeWhile Option.isSome).map fun part => part.getD []).flatten

def encodable (obj : O) : Bool :=
  (frameParts config codec obj).all Option.isSome

end

/-! ## Reading a frame -/

/-- What a reader finds in a slot. -/
inductive Message
  | overflow
  | inRing (buffers : List Bytes)
  deriving DecidableEq, Repr

/-- `buf[offset : offset + size]`, once all these bytes have been read. -/
def readBytes (buf : Nat → Option UInt8) (offset size : Nat) : Option Bytes :=
  (List.range' offset size).mapM buf

def readBuffers (buf : Nat → Option UInt8) : Nat → Nat → Option (List Bytes)
  | 0, _ => some []
  | count + 1, offset =>
    (readBytes buf offset 4).bind fun size =>
    (readBytes buf (offset + 4) (fromBytesBig size)).bind fun buffer =>
    (readBuffers buf count (offset + 4 + fromBytesBig size)).map (buffer :: ·)

/-- What `dequeue` makes of the bytes read so far. -/
def readMessage (buf : Nat → Option UInt8) : Option Message :=
  (buf 0).bind fun flag =>
  if flag = 1 then some .overflow
  else (readBytes buf 1 2).bind fun count =>
    (readBuffers buf (fromBytesBig count) 3).map .inRing

/-- `buf'` holds every byte that `buf` holds. -/
def Extends (buf buf' : Nat → Option UInt8) : Prop :=
  ∀ i byte, buf i = some byte → buf' i = some byte

section Mono

variable {buf buf' : Nat → Option UInt8} {offset : Nat}

theorem readBytes_mono (h : Extends buf buf') {size : Nat} {bytes : Bytes}
    (hread : readBytes buf offset size = some bytes) :
    readBytes buf' offset size = some bytes := by
  unfold readBytes at hread ⊢
  generalize List.range' offset size = positions at hread ⊢
  induction positions generalizing bytes with
  | nil => exact hread
  | cons i positions ih =>
    simp only [mapM_cons, bind_eq_bind, bind_eq_some_iff] at hread ⊢
    obtain ⟨byte, hbyte, rest, hrest, hbytes⟩ := hread
    exact ⟨byte, h i byte hbyte, rest, ih hrest, hbytes⟩

theorem readBuffers_mono (h : Extends buf buf') {count : Nat} {buffers : List Bytes}
    (hread : readBuffers buf count offset = some buffers) :
    readBuffers buf' count offset = some buffers := by
  induction count generalizing offset buffers with
  | zero => exact hread
  | succ count ih =>
    simp only [readBuffers, bind_eq_some_iff, map_eq_some_iff] at hread ⊢
    obtain ⟨size, hsize, buffer, hbuffer, rest, hrest, hbuffers⟩ := hread
    exact ⟨size, readBytes_mono h hsize, buffer, readBytes_mono h hbuffer, rest, ih hrest, hbuffers⟩

theorem readMessage_mono (h : Extends buf buf') {message : Message}
    (hread : readMessage buf = some message) : readMessage buf' = some message := by
  simp only [readMessage, bind_eq_some_iff] at hread ⊢
  obtain ⟨flag, hflag, hread⟩ := hread
  refine ⟨flag, h 0 flag hflag, ?_⟩
  split at hread
  · rename_i hone
    rw [if_pos hone]
    exact hread
  rename_i hone
  rw [if_neg hone]
  simp only [bind_eq_some_iff, map_eq_some_iff] at hread ⊢
  obtain ⟨count, hcount, buffers, hbuffers, hmessage⟩ := hread
  exact ⟨count, readBytes_mono h hcount, buffers, readBuffers_mono h hbuffers, hmessage⟩

end Mono

/-! ## The round trip -/

theorem readBytes_append (start bytes rest : Bytes) :
    readBytes (fun i => (start ++ bytes ++ rest)[i]?) start.length bytes.length =
      some bytes := by
  unfold readBytes
  induction bytes generalizing start with
  | nil => rfl
  | cons byte bytes ih =>
    have htail := ih (start ++ [byte])
    simp only [append_assoc, cons_append, nil_append, length_append,
      length_cons, length_nil, Nat.zero_add] at htail
    rw [length_cons, range'_succ, mapM_cons]
    simp only [append_assoc, cons_append, htail]
    simp

/-- The frame of a list of buffers, after `start`. -/
theorem readBuffers_append (start rest : Bytes) (sized : List (Bytes × Bytes))
    (hsized : ∀ pair ∈ sized, toBytesBig pair.2.length 4 = some pair.1) :
    readBuffers (fun i => (start ++ sized.flatMap (fun pair => pair.1 ++ pair.2) ++ rest)[i]?)
      sized.length start.length = some (sized.map (·.2)) := by
  induction sized generalizing start with
  | nil => rfl
  | cons pair sized ih =>
    obtain ⟨hlength, hvalue⟩ := toBytesBig_spec (hsized pair mem_cons_self)
    have hsize := readBytes_append start pair.1
    have hbuffer := readBytes_append (start ++ pair.1) pair.2
    have htail := ih (start ++ (pair.1 ++ pair.2))
      fun other hother => hsized other (mem_cons_of_mem _ hother)
    simp only [append_assoc, length_append, hlength] at hsize hbuffer htail
    simp only [flatMap_cons, append_assoc, length_cons, readBuffers, hsize,
      bind_some, hvalue, hbuffer, map_cons]
    rw [Nat.add_assoc, htail]
    rfl

section

variable {O : Type} {config : RingConfig} {codec : Codec O} {obj : O}

/-- What a reader is to find in the slot of `obj`. -/
def messageOf (config : RingConfig) (codec : Codec O) (obj : O) : Message :=
  if overflows config codec obj then .overflow else .inRing (allBuffers codec obj)

theorem exists_sizes {buffers : List Bytes}
    (h : (buffers.flatMap fun buffer => [toBytesBig buffer.length 4, some buffer]).all
      isSome = true) :
    ∃ sized : List (Bytes × Bytes), sized.map (·.2) = buffers ∧
      (∀ pair ∈ sized, toBytesBig pair.2.length 4 = some pair.1) ∧
      (buffers.flatMap fun buffer => [toBytesBig buffer.length 4, some buffer]) =
        sized.flatMap fun pair => [some pair.1, some pair.2] := by
  induction buffers with
  | nil => exact ⟨[], rfl, by simp, rfl⟩
  | cons buffer buffers ih =>
    simp only [flatMap_cons, cons_append, nil_append, all_cons,
      Bool.and_eq_true, isSome_iff_exists] at h
    obtain ⟨⟨size, hsize⟩, -, hrest⟩ := h
    obtain ⟨sized, hbuffers, hsized, hparts⟩ := ih hrest
    refine ⟨(size, buffer) :: sized, by simp [hbuffers], ?_, ?_⟩
    · intro pair hpair
      cases hpair with
      | head => exact hsize
      | tail _ hpair => exact hsized pair hpair
    · simp only [flatMap_cons, cons_append, nil_append, hsize, hparts]

omit config codec in
theorem flatten_parts (sized : List (Bytes × Bytes)) :
    ((sized.flatMap fun pair => [some pair.1, some pair.2]).map
      fun part => part.getD []).flatten = sized.flatMap fun pair => pair.1 ++ pair.2 := by
  induction sized with
  | nil => rfl
  | cons pair sized ih =>
    simp only [flatMap_cons, cons_append, nil_append, map_cons,
      getD_some, flatten_cons, ih, append_assoc]

theorem frame_of_encodable (h : encodable config codec obj = true) :
    frame config codec obj =
      ((frameParts config codec obj).map fun part => part.getD []).flatten := by
  unfold frame
  rw [takeWhile_eq_self_iff.2]
  exact fun part hpart => all_eq_true.1 h part hpart

/-- The slot of an in-ring object: flag, count, and each buffer after its size. -/
theorem frame_inRing (h : encodable config codec obj = true)
    (hfits : overflows config codec obj = false) :
    ∃ count, ∃ sized : List (Bytes × Bytes),
      toBytesBig (allBuffers codec obj).length 2 = some count ∧
      sized.map (·.2) = allBuffers codec obj ∧
      (∀ pair ∈ sized, toBytesBig pair.2.length 4 = some pair.1) ∧
      frame config codec obj =
        [0] ++ count ++ sized.flatMap fun pair => pair.1 ++ pair.2 := by
  have hall := h
  rw [frame_of_encodable h]
  simp only [encodable, frameParts, hfits, Bool.false_eq_true, if_false, all_cons,
    isSome_some, Bool.true_and, Bool.and_eq_true] at hall
  obtain ⟨hcount, hbuffers⟩ := hall
  obtain ⟨count, hcount⟩ := isSome_iff_exists.1 hcount
  obtain ⟨sized, hmap, hsized, hparts⟩ := exists_sizes hbuffers
  refine ⟨count, sized, hcount, hmap, hsized, ?_⟩
  simp only [frameParts, hfits, Bool.false_eq_true, if_false, hparts, hcount, map_cons,
    getD_some, flatten_cons, append_assoc]
  rw [flatten_parts]

theorem readMessage_frame (h : encodable config codec obj = true) :
    readMessage (fun i => (frame config codec obj)[i]?) =
      some (messageOf config codec obj) := by
  cases hflow : overflows config codec obj with
  | true => simp [frame_of_encodable h, frameParts, messageOf, hflow, readMessage]
  | false =>
    obtain ⟨count, sized, hcount, hmap, hsized, hframe⟩ := frame_inRing h hflow
    obtain ⟨hlength, hvalue⟩ := toBytesBig_spec hcount
    have hread := readBytes_append [0] count (sized.flatMap fun pair => pair.1 ++ pair.2)
    have hbuffers := readBuffers_append ([0] ++ count) [] sized hsized
    have hnumber : sized.length = (allBuffers codec obj).length := by rw [← hmap, length_map]
    simp only [hlength, length_singleton, append_nil, length_append, hnumber,
      hmap] at hread hbuffers
    simp only [readMessage, hframe, messageOf, hflow, hread, hvalue, bind_some, hbuffers]
    simp

end

end Vllm.Broadcast
