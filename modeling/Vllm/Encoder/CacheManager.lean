import Vllm.Library.Dict
import Mathlib.Data.Finset.Basic

/-!
# The encoder cache manager

`EncoderCacheManager` decides which encoder outputs the worker keeps. An entry is
found by the identifier of its multimodal item, so several inputs of one request
and inputs of many requests can share it. An entry that no request refers to stays
until its space is needed.

The two counters are integers, as in the source, so that a drift below zero is a
value of the model and not a truncated zero. `requestCachedIds` and
`requestHashRefs` are read with their defaults everywhere in the source and drop an
entry that becomes empty, so a missing entry and an empty one are the same here.
-/

namespace Vllm.Encoder

open Library

/-- What a call raises. -/
inductive Fault
  | indexError
  | keyError
  | assertionError
  | emptyPop
  deriving DecidableEq, Repr

structure PlaceholderRange where
  offset : Nat
  length : Nat
  /-- Which of the `length` positions take an embedding; `none` stands for all. -/
  isEmbed : Option (List Bool)
  deriving DecidableEq, Repr

namespace PlaceholderRange

def getNumEmbeds (p : PlaceholderRange) : Nat :=
  match p.isEmbed with
  | none => p.length
  | some mask => mask.count true

/-- The indices into the encoder output of the placeholders `startIdx` to `endIdx`. -/
def getEmbedsIndicesInRange (p : PlaceholderRange) (startIdx endIdx : Nat) : Nat × Nat :=
  match p.isEmbed with
  | none => (startIdx, endIdx)
  | some mask => ((mask.take startIdx).count true, (mask.take endIdx).count true)

end PlaceholderRange

structure MultiModalFeature (M : Type) where
  identifier : M
  mmPosition : PlaceholderRange
  deriving DecidableEq

def MultiModalFeature.numEmbeds {M : Type} (f : MultiModalFeature M) : Nat :=
  f.mmPosition.getNumEmbeds

/-- What the encoder cache reads of a request. -/
structure Request (R M : Type) where
  requestId : R
  mmFeatures : List (MultiModalFeature M)

def Request.feature {R M : Type} (request : Request R M) (inputId : Nat) :
    Except Fault (MultiModalFeature M) :=
  match request.mmFeatures[inputId]? with
  | some f => .ok f
  | none => .error .indexError

structure EncoderCacheManager (R M : Type) where
  cacheSize : Nat
  numFreeSlots : Int
  numFreeableSlots : Int
  /-- The requests that refer to each entry. -/
  cached : Dict M (Finset R)
  numEmbedsByHash : Dict M Nat
  /-- The inputs of each request that hold a reference, each once. -/
  requestCachedIds : R → List Nat
  requestHashRefs : R → M → Nat
  /-- The entries without a reference, the longest unreferenced first. -/
  freeable : Dict M Nat
  freed : List M

namespace EncoderCacheManager

variable {R M : Type}

def init (cacheSize : Nat) : EncoderCacheManager R M where
  cacheSize := cacheSize
  numFreeSlots := cacheSize
  numFreeableSlots := cacheSize
  cached := .empty
  numEmbedsByHash := .empty
  requestCachedIds := fun _ => []
  requestHashRefs := fun _ _ => 0
  freeable := .empty
  freed := []

def reset (m : EncoderCacheManager R M) : EncoderCacheManager R M := init m.cacheSize

variable [DecidableEq R] [DecidableEq M] (m : EncoderCacheManager R M)

def addCachedInputId (requestId : R) (inputId : Nat) (mmHash : M) : EncoderCacheManager R M :=
  if inputId ∈ m.requestCachedIds requestId then m
  else
    { m with
      requestCachedIds := Function.update m.requestCachedIds requestId
        (m.requestCachedIds requestId ++ [inputId])
      requestHashRefs := Function.update m.requestHashRefs requestId
        (Function.update (m.requestHashRefs requestId) mmHash
          (m.requestHashRefs requestId mmHash + 1)) }

/-- Taking an entry out of `freeable` when it gets its first reference. -/
def revive (mmHash : M) (refs : Finset R) : Except Fault (EncoderCacheManager R M) :=
  if refs = ∅ then
    match m.freeable.get? mmHash with
    | none => .error .keyError
    | some n =>
      .ok { m with
        freeable := m.freeable.erase mmHash
        numFreeableSlots := m.numFreeableSlots - n }
  else .ok m

/-- Record that `requestId` refers to the entry of `mmHash` through `inputId`. -/
def addReference (requestId : R) (inputId : Nat) (mmHash : M)
    (refs : Finset R) : EncoderCacheManager R M :=
  { m with cached := m.cached.insert mmHash (insert requestId refs) }.addCachedInputId
    requestId inputId mmHash

def checkAndUpdateCache (request : Request R M) (inputId : Nat) :
    Except Fault (Bool × EncoderCacheManager R M) :=
  (request.feature inputId).bind fun f =>
    match m.cached.get? f.identifier with
    | none => .ok (false, m)
    | some refs =>
      (m.revive f.identifier refs).map fun m' =>
        (true, m'.addReference request.requestId inputId f.identifier refs)

def getCachedNumEncoderEmbeds (request : Request R M) (inputId : Nat) : Except Fault (Option Nat) :=
  (request.feature inputId).map fun f => m.numEmbedsByHash.get? f.identifier

/-- The eviction loop, along the entries of `freeable` from the oldest. -/
def evictLoop (numEmbeds : Nat) :
    List (M × Nat) → EncoderCacheManager R M → Except Fault (EncoderCacheManager R M)
  | [], m => if numEmbeds ≤ m.numFreeSlots then .ok m else .error .emptyPop
  | (mmHash, n) :: rest, m =>
    if numEmbeds ≤ m.numFreeSlots then .ok m
    else if (m.cached.get? mmHash).isNone || (m.numEmbedsByHash.get? mmHash).isNone then
      .error .keyError
    else
      evictLoop numEmbeds rest
        { m with
          freeable := m.freeable.erase mmHash
          cached := m.cached.erase mmHash
          numEmbedsByHash := m.numEmbedsByHash.erase mmHash
          freed := m.freed ++ [mmHash]
          numFreeSlots := m.numFreeSlots + n }

def canAllocate (request : Request R M) (inputId : Nat)
    (encoderComputeBudget : Int) (numEmbedsToSchedule : Nat) :
    Except Fault (Bool × EncoderCacheManager R M) :=
  (request.feature inputId).bind fun f =>
    if encoderComputeBudget < f.numEmbeds then .ok (false, m)
    else
      let numEmbeds := f.numEmbeds + numEmbedsToSchedule
      if numEmbeds ≤ m.numFreeSlots then .ok (true, m)
      else if m.numFreeableSlots < numEmbeds then .ok (false, m)
      else (evictLoop numEmbeds m.freeable.entries m).map fun m' => (true, m')

def allocate (request : Request R M) (inputId : Nat) : Except Fault (EncoderCacheManager R M) :=
  (request.feature inputId).bind fun f =>
    let refs := (m.cached.get? f.identifier).getD ∅
    let stored := (m.numEmbedsByHash.get? f.identifier).getD f.numEmbeds
    if stored = f.numEmbeds ∧ f.numEmbeds ≤ m.numFreeSlots ∧
        f.numEmbeds ≤ m.numFreeableSlots then
      let m' := { m with numEmbedsByHash := m.numEmbedsByHash.insert f.identifier stored }
      let m'' := m'.addReference request.requestId inputId f.identifier refs
      .ok { m'' with
        numFreeSlots := m''.numFreeSlots - f.numEmbeds
        numFreeableSlots := m''.numFreeableSlots - f.numEmbeds }
    else .error .assertionError

def getCachedInputIds (request : Request R M) : List Nat :=
  m.requestCachedIds request.requestId

/-- The records of `requestId` without `inputId`. -/
def forgetInput (requestId : R) (inputId : Nat) (mmHash : M) : EncoderCacheManager R M :=
  { m with
    requestCachedIds := Function.update m.requestCachedIds requestId
      ((m.requestCachedIds requestId).erase inputId)
    requestHashRefs := Function.update m.requestHashRefs requestId
      (Function.update (m.requestHashRefs requestId) mmHash
        (m.requestHashRefs requestId mmHash - 1)) }

/-- The first half of `freeEncoderInput`: `requestId` gives `inputId` up. -/
def removeCachedInputId (requestId : R) (inputId : Nat)
    (mmHash : M) : Except Fault (EncoderCacheManager R M) :=
  if inputId ∈ m.requestCachedIds requestId then
    if m.requestHashRefs requestId mmHash = 0 then .error .keyError
    else .ok (m.forgetInput requestId inputId mmHash)
  else .ok m

/-- Dropping the reference of `requestId` to the entry of `mmHash`, once none of its
inputs needs it. -/
def dropReference (requestId : R) (mmHash : M) : Except Fault (EncoderCacheManager R M) :=
  match m.cached.get? mmHash with
  | none => .ok m
  | some refs =>
    if refs = ∅ then .ok m
    else if m.requestHashRefs requestId mmHash ≠ 0 then .ok m
    else
      let m' := { m with cached := m.cached.insert mmHash (refs.erase requestId) }
      if refs.erase requestId = ∅ then
        match m'.numEmbedsByHash.get? mmHash with
        | none => .error .keyError
        | some n =>
          .ok { m' with
            freeable := m'.freeable.insert mmHash n
            numFreeableSlots := m'.numFreeableSlots + n }
      else .ok m'

def freeEncoderInput (request : Request R M) (inputId : Nat) :
    Except Fault (EncoderCacheManager R M) :=
  (request.feature inputId).bind fun f =>
    (m.removeCachedInputId request.requestId inputId f.identifier).bind fun m' =>
      m'.dropReference request.requestId f.identifier

/-- `inputIds` is `get_cached_input_ids` in the order in which the set is iterated. -/
def free (request : Request R M) (inputIds : List Nat) : Except Fault (EncoderCacheManager R M) :=
  inputIds.foldlM (fun m inputId => m.freeEncoderInput request inputId) m

def getFreedMmHashes : List M × EncoderCacheManager R M :=
  (m.freed.filter fun mmHash => (m.cached.get? mmHash).isNone, { m with freed := [] })

end EncoderCacheManager

end Vllm.Encoder
