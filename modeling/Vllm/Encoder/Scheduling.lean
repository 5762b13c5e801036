import Vllm.Encoder.CacheManager
import Vllm.Library.Bisect

/-!
# Scheduling encoder inputs

`tryScheduleEncoderInputs` walks over the multimodal items in the window of a
step. It takes references to items that are cached, plans the encoding (or the
external load) of the others, and shortens the step before the first item that
does not fit. `allocateEncoderInputs` then enters the planned items into the cache.

The walk asks its manager through `Manager`, as the source asks either of the two
manager classes.
-/

namespace Vllm.Encoder

open Library

variable {R M σ : Type}

/-- The calls the scheduler makes of an encoder cache manager. -/
class Manager (σ : Type) (R M : outParam Type) where
  getCachedNumEncoderEmbeds : σ → Request R M → Nat → Except Fault (Option Nat)
  checkAndUpdateCache : σ → Request R M → Nat → Except Fault (Bool × σ)
  canAllocate : σ → Request R M → Nat → Int → Nat → Except Fault (Bool × σ)
  allocate : σ → Request R M → Nat → Except Fault σ
  getCachedInputIds : σ → Request R M → List Nat
  freeEncoderInput : σ → Request R M → Nat → Except Fault σ
  free : σ → Request R M → List Nat → Except Fault σ
  getFreedMmHashes : σ → List M × σ
  reset : σ → σ

instance [DecidableEq R] [DecidableEq M] : Manager (EncoderCacheManager R M) R M where
  getCachedNumEncoderEmbeds := EncoderCacheManager.getCachedNumEncoderEmbeds
  checkAndUpdateCache := EncoderCacheManager.checkAndUpdateCache
  canAllocate := EncoderCacheManager.canAllocate
  allocate := EncoderCacheManager.allocate
  getCachedInputIds := EncoderCacheManager.getCachedInputIds
  freeEncoderInput := EncoderCacheManager.freeEncoderInput
  free := EncoderCacheManager.free
  getFreedMmHashes := EncoderCacheManager.getFreedMmHashes
  reset := EncoderCacheManager.reset

/-- What the walk reads of the scheduler and of its call. -/
structure WindowArgs (M : Type) where
  isEncoderDecoder : Bool
  disableChunkedMmInput : Bool
  /-- An EC connector is attached and says it has the item. -/
  hasCacheItem : M → Bool
  numComputedTokens : Nat
  shiftComputedTokens : Nat
  /-- The end of the window, fixed before the walk starts. -/
  encoderWindowEnd : Int

/-- What the walk has decided so far. -/
structure EncoderPlan (M : Type) where
  encoderInputsToSchedule : List Nat := []
  numNewTokens : Int
  encoderComputeBudget : Int
  externalLoadEncoderInput : List Nat := []
  duplicateEncoderInputs : List Nat := []
  mmHashesToSchedule : Dict M Nat := .empty
  numEmbedsToSchedule : Nat := 0

/-- How the walk goes on after an item: to the next one, to its end, or to the
rejection of the request because an identifier stands for two sizes. -/
inductive Visit (σ M : Type)
  | next (plan : EncoderPlan M) (s : σ)
  | stop (plan : EncoderPlan M) (s : σ)
  | reject (plan : EncoderPlan M) (s : σ)

/-- The items of `features` that overlap the positions from `start` to `stop`. -/
def getMmFeaturesInWindow (features : List (MultiModalFeature M)) (start : Nat) (stop : Int) :
    Nat × Nat :=
  (bisectLeft (fun i => match features[i]? with
      | some f => f.mmPosition.offset + f.mmPosition.length < start + 1
      | none => false) features.length,
   bisectLeft (fun i => match features[i]? with
      | some f => f.mmPosition.offset < stop
      | none => false) features.length)

section Walk

variable [DecidableEq M] [Manager σ R M] (a : WindowArgs M)

/-- The chunk would cover only a part of an item that may not be chunked. -/
def splitsItem (plan : EncoderPlan M) (p : PlaceholderRange) : Bool :=
  a.disableChunkedMmInput && !a.isEncoderDecoder && decide (a.numComputedTokens ≤ p.offset) &&
    decide ((a.numComputedTokens : Int) + plan.numNewTokens < p.offset + p.length)

/-- The plan when the item at `p` cannot be allocated: stop before it, or schedule
nothing if the step starts inside it. -/
def EncoderPlan.stopBefore (plan : EncoderPlan M) (a : WindowArgs M) (p : PlaceholderRange) :
    EncoderPlan M :=
  { plan with
    numNewTokens :=
      if a.numComputedTokens < p.offset then
        min plan.numNewTokens ((p.offset : Int) - a.numComputedTokens)
      else 0 }

/-- Whether the placeholders of the item inside the window take no embedding. -/
def noEmbedsInRange (p : PlaceholderRange) : Bool :=
  let startIdxRel := a.numComputedTokens - p.offset
  let endIdxRel := min p.length (a.encoderWindowEnd - p.offset).toNat
  let range := p.getEmbedsIndicesInRange startIdxRel endIdxRel
  (range.2 : Int) - range.1 = 0

def EncoderPlan.addExternal (plan : EncoderPlan M) (i : Nat) (f : MultiModalFeature M) :
    EncoderPlan M :=
  { plan with
    mmHashesToSchedule := plan.mmHashesToSchedule.insert f.identifier f.numEmbeds
    externalLoadEncoderInput := plan.externalLoadEncoderInput ++ [i]
    numEmbedsToSchedule := plan.numEmbedsToSchedule + f.numEmbeds }

def EncoderPlan.addInput (plan : EncoderPlan M) (i : Nat) (f : MultiModalFeature M) :
    EncoderPlan M :=
  { plan with
    numEmbedsToSchedule := plan.numEmbedsToSchedule + f.numEmbeds
    encoderComputeBudget := plan.encoderComputeBudget - f.numEmbeds
    mmHashesToSchedule := plan.mmHashesToSchedule.insert f.identifier f.numEmbeds
    encoderInputsToSchedule := plan.encoderInputsToSchedule ++ [i] }

/-- The part of the walk that needs new cache space for item `i`. -/
def planItem (request : Request R M) (i : Nat) (f : MultiModalFeature M)
    (plan : EncoderPlan M) (s : σ) : Except Fault (Visit σ M) :=
  (Manager.canAllocate s request i plan.encoderComputeBudget plan.numEmbedsToSchedule).map
    fun (fits, s) =>
      if !fits then .stop (plan.stopBefore a f.mmPosition) s
      else if noEmbedsInRange a f.mmPosition then .next plan s
      else if a.hasCacheItem f.identifier then .next (plan.addExternal i f) s
      else .next (plan.addInput i f) s

/-- The part of the walk that looks item `i` up in the cache. -/
def lookupItem (request : Request R M) (i : Nat) (f : MultiModalFeature M)
    (plan : EncoderPlan M) (s : σ) : Except Fault (Visit σ M) :=
  match plan.mmHashesToSchedule.get? f.identifier with
  | some scheduled =>
    if scheduled ≠ f.numEmbeds then .ok (.reject plan s)
    else
      .ok (.next { plan with duplicateEncoderInputs := plan.duplicateEncoderInputs ++ [i] } s)
  | none =>
    (Manager.getCachedNumEncoderEmbeds s request i).bind fun stored =>
      if stored.any (· ≠ f.numEmbeds) then .ok (.reject plan s)
      else
        (Manager.checkAndUpdateCache s request i).bind fun (hit, s) =>
          if hit then .ok (.next plan s) else planItem a request i f plan s

def visitItem (request : Request R M) (i : Nat) (plan : EncoderPlan M)
    (s : σ) : Except Fault (Visit σ M) :=
  (request.feature i).bind fun f =>
    let p := f.mmPosition
    if a.isEncoderDecoder && decide (0 < a.numComputedTokens) then
      if p.offset = 0 then .ok (.next plan s) else .error .assertionError
    else if splitsItem a plan p then
      .ok (.stop { plan with
        numNewTokens :=
          max 0 ((p.offset : Int) - (a.numComputedTokens + a.shiftComputedTokens)) } s)
    else if a.isEncoderDecoder then planItem a request i f plan s
    else lookupItem a request i f plan s

/-- The walk over the items of the window. The last component says whether the
request was rejected. -/
def visitItems (a : WindowArgs M) (request : Request R M) :
    List Nat → EncoderPlan M → σ → Except Fault (EncoderPlan M × σ × Bool)
  | [], plan, s => .ok (plan, s, false)
  | i :: items, plan, s =>
    (visitItem a request i plan s).bind fun
      | .next plan s => visitItems a request items plan s
      | .stop plan s => .ok (plan, s, false)
      | .reject plan s =>
        .ok ({ numNewTokens := 0, encoderComputeBudget := plan.encoderComputeBudget }, s, true)

/-- What `tryScheduleEncoderInputs` is called with. -/
structure TryArgs (M : Type) where
  isEncoderDecoder : Bool
  disableChunkedMmInput : Bool
  hasCacheItem : M → Bool
  numComputedTokens : Nat
  numNewTokens : Int
  encoderComputeBudget : Int
  shiftComputedTokens : Nat

def tryScheduleEncoderInputs (a : TryArgs M) (request : Request R M) (s : σ) :
    Except Fault (EncoderPlan M × σ × Bool) :=
  let plan : EncoderPlan M :=
    { numNewTokens := a.numNewTokens, encoderComputeBudget := a.encoderComputeBudget }
  if a.numNewTokens = 0 ∨ request.mmFeatures = [] then .ok (plan, s, false)
  else
    let windowEnd : Int := a.numComputedTokens + a.numNewTokens + a.shiftComputedTokens
    let (lo, hi) := getMmFeaturesInWindow request.mmFeatures a.numComputedTokens windowEnd
    let lo := if a.isEncoderDecoder then 0 else lo
    visitItems
      { isEncoderDecoder := a.isEncoderDecoder
        disableChunkedMmInput := a.disableChunkedMmInput
        hasCacheItem := a.hasCacheItem
        numComputedTokens := a.numComputedTokens
        shiftComputedTokens := a.shiftComputedTokens
        encoderWindowEnd := windowEnd }
      request (List.range' lo (hi - lo)) plan s

def allocateEncoderInputs (request : Request R M) (inputIds duplicateInputIds : List Nat)
    (s : σ) : Except Fault σ :=
  (inputIds.foldlM (fun s i => Manager.allocate s request i) s).bind fun s =>
    duplicateInputIds.foldlM
      (fun s i => (Manager.checkAndUpdateCache s request i).map Prod.snd) s

end Walk

end Vllm.Encoder
