import Mathlib.Algebra.Ring.Int.Defs
import Vllm.KVCache.Mamba

/-!
# The KV cache manager

`KVCacheManager` (`v1/core/kv_cache_manager.py`) with its coordinator
(`v1/core/kv_cache_coordinator.py`): the calls of the scheduler, spread over the
managers of all groups in the order of the groups.
-/

namespace Vllm.KVCache

open Pool

variable {R H : Type} [DecidableEq R] [DecidableEq H]

/-- The settings of the manager and its coordinator. -/
structure Config where
  groups : List Group
  enableCaching : Bool
  maxModelLen : Nat
  watermarkBlocks : Nat
  schedulerBlockSize : Nat
  numHashLookaheadTokens : Nat
  retentionInterval : Option Nat
  numReprefillableTokens : Nat
  /-- `bool(drop_eagle_group_ids)` -/
  dropsEagle : Bool
  /-- the coordinator is a `HybridKVCacheCoordinator` -/
  hybrid : Bool
  enablePartialHashHits : Bool

/-- The pool and the managers, by group id. -/
structure KVCacheManager (R H : Type) where
  pool : BlockPool H
  managers : Nat → Manager R H

omit [DecidableEq R] [DecidableEq H] in
def KVCacheManager.init (pool : BlockPool H) : KVCacheManager R H :=
  ⟨pool, fun _ => .init R H⟩

namespace KVCacheManager

variable (cfg : Config) (s : KVCacheManager R H)

/-- What the manager of group `i` can reach. -/
def view (i : Nat) : View R H := ⟨s.pool, s.managers i⟩

/-- The state after a method of the manager of group `i`. -/
def setView (i : Nat) (v : View R H) : KVCacheManager R H :=
  ⟨v.pool, Function.update s.managers i v.mgr⟩

section

omit [DecidableEq R] [DecidableEq H]

@[simp] theorem view_mgr (i : Nat) : (s.view i).mgr = s.managers i := rfl

@[simp] theorem setView_self (i : Nat) (v : View R H) : (s.setView i v).managers i = v.mgr := by
  simp [setView]

@[simp] theorem setView_of_ne {i j : Nat} (hj : j ≠ i) (v : View R H) :
    (s.setView i v).managers j = s.managers j := by
  simp [setView, hj]

end

/-- A loop over the managers. -/
def forManagers (f : Group → Nat → View R H → Except Fault (View R H)) :
    Except Fault (KVCacheManager R H) :=
  cfg.groups.zipIdx.foldlM (fun s g => (f g.1 g.2 (s.view g.2)).map (s.setView g.2)) s

/-- A loop over the managers that collects a result of each. -/
def forManagersCollect {α : Type} (f : Group → Nat → View R H → Except Fault (α × View R H)) :
    Except Fault (List α × KVCacheManager R H) :=
  cfg.groups.zipIdx.foldlM (fun acc g =>
    (f g.1 g.2 (acc.2.view g.2)).map fun r => (acc.1 ++ [r.1], acc.2.setView g.2 r.2)) ([], s)

/-! ## The coordinator -/

/-- `KVCacheCoordinator.get_num_blocks_to_allocate`. -/
def getNumBlocksToAllocate (r : R) (newComputedBlocks : Nat → List Nat) (numEncoderTokens : Nat)
    (a : SlotArgs) : Except Fault (Int × KVCacheManager R H) :=
  let prefillEnd := if cfg.retentionInterval = some 0 then a.prefillEnd else 0
  (forManagersCollect cfg s fun g i v =>
    match g.kind with
    | .crossAttention =>
      KVCache.getNumBlocksToAllocate g cfg.numHashLookaheadTokens v r []
        ⟨numEncoderTokens, 0, 0, numEncoderTokens, a.applyAdmissionCap, 0⟩
    | _ => KVCache.getNumBlocksToAllocate g cfg.numHashLookaheadTokens v r (newComputedBlocks i)
        { a with prefillEnd }).map fun res => (res.1.sum, res.2)

/-- `KVCacheCoordinator.allocate_new_computed_blocks`. All hits are referenced before
blocks for external tokens are taken. -/
def allocateNewComputedBlocks (r : R) (newComputedBlocks : Nat → List Nat)
    (numLocal numExternal : Nat) : Except Fault (KVCacheManager R H) :=
  let ids := List.range cfg.groups.length
  if ids.any fun i => ((s.managers i).numCachedBlock r).isSome then
    if ids.all fun i => (newComputedBlocks i).isEmpty then .ok s else .error .failed
  else
    (s.forManagers cfg fun g i v => addLocalComputedBlocks cfg.enableCaching g v r
      (newComputedBlocks i) numLocal numExternal).bind fun s =>
        if 0 < numExternal then
          s.forManagers cfg fun g _ v =>
            allocateExternalComputedBlocks g v r numLocal numExternal
        else .ok s

/-- `KVCacheCoordinator.allocate_new_blocks`. -/
def allocateNewBlocks (r : R) (numTokens numTokensMainModel numEncoderTokens : Nat) :
    Except Fault (List (List Nat) × KVCacheManager R H) :=
  forManagersCollect cfg s fun g _ v =>
    KVCache.allocateNewBlocks g v r
      (match g.kind with
        | .crossAttention => numEncoderTokens
        | _ => numTokens) numTokensMainModel

end KVCacheManager

/-- `HybridKVCacheCoordinator._align_cacheable`. -/
def Config.alignCacheable (cfg : Config) (numTokens : Nat) : Nat :=
  if cfg.enablePartialHashHits then numTokens
  else numTokens / cfg.schedulerBlockSize * cfg.schedulerBlockSize

/-- `get_num_cacheable_tokens`. -/
def Config.getNumCacheableTokens (cfg : Config) (g : Group) (numComputedTokens : Nat) : Nat :=
  let finalized := numComputedTokens - cfg.numReprefillableTokens
  if !cfg.hybrid then finalized
  else
    let cached := cfg.alignCacheable numComputedTokens
    if g.useEagle && decide (0 < cached) then
      min finalized (cfg.alignCacheable finalized + g.blockSize)
    else cached

/-- `replay_boundaries`. -/
def Config.replayBoundaries (cfg : Config) (numPromptTokens : Nat) : List Int :=
  if !cfg.dropsEagle then [(numPromptTokens : Int) - 1]
  else
    let block : Int := cfg.schedulerBlockSize
    let resend : Int := ((numPromptTokens : Int) - 1) / block * block
    let extension : Int := (numPromptTokens : Int) / block * block
    let lo := max (resend - block) 0
    let hi := max (extension - block) 0
    if lo = hi then [lo] else [lo, hi]

namespace KVCacheManager

variable (cfg : Config) (s : KVCacheManager R H)

/-- `cache_blocks`. -/
def cacheBlocks (req : Request R H) (numComputedTokens : Nat) :
    Except Fault (KVCacheManager R H) :=
  if !cfg.enableCaching then .ok s
  else
    s.forManagers cfg fun g i v =>
      KVCache.cacheBlocks g i cfg.numHashLookaheadTokens v req
        ⟨cfg.getNumCacheableTokens g numComputedTokens, cfg.retentionInterval,
          cfg.replayBoundaries req.numPromptTokens⟩

section

omit [DecidableEq H]

/-- `remove_skipped_blocks`. -/
def removeSkippedBlocks (r : R) (processedComputedTokens : Nat) :
    Except Fault (KVCacheManager R H) :=
  s.forManagers cfg fun g _ v => KVCache.removeSkippedBlocks g v r processedComputedTokens

/-- `free`. -/
def free (r : R) : Except Fault (KVCacheManager R H) :=
  s.forManagers cfg fun g _ v => freeRequest g v r

/-- `pop_blocks_for_free`: the blocks, which the caller frees later in reverse order. -/
def popBlocksForFree (r : R) : List Nat × KVCacheManager R H :=
  cfg.groups.zipIdx.foldl (fun acc g =>
    let popped := KVCache.popBlocksForFree g.1 (acc.2.view g.2) r
    (acc.1 ++ popped.1, acc.2.setView g.2 popped.2)) ([], s)

end

section

omit [DecidableEq R] [DecidableEq H]

/-- `take_kv_cache_block_copies`: the copies. Their ends stay referenced until the
caller frees them. -/
def takeKVCacheBlockCopies : List (Nat × Nat) × KVCacheManager R H :=
  ((List.range cfg.groups.length).flatMap fun i => (s.managers i).pendingCowCopies,
    { s with managers := fun i =>
      if i < cfg.groups.length then { s.managers i with pendingCowCopies := [] }
      else s.managers i })

/-- `new_step_starts`. -/
def newStepStarts : KVCacheManager R H :=
  { s with managers := fun i => match cfg.groups[i]? with
    | none => s.managers i
    | some g => (s.managers i).newStepStarts g }

end

/-! ## `allocate_slots` -/

/-- The arguments of `allocate_slots` besides the request. The blocks of a hit are given
by group; no hit at all is the empty list for every group. -/
structure AllocArgs where
  numNewTokens : Nat
  numNewComputedTokens : Nat
  newComputedBlocks : Nat → List Nat
  numLookaheadTokens : Nat
  numExternalComputedTokens : Nat
  delayCacheBlocks : Bool
  numEncoderTokens : Nat
  fullSequenceMustFit : Bool
  reservedBlocks : Int
  hasScheduledReqs : Bool

namespace AllocArgs

variable (a : AllocArgs) (req : Request R H)

def numLocalComputedTokens : Nat := req.numComputedTokens + a.numNewComputedTokens

def totalComputedTokens : Nat :=
  min (a.numLocalComputedTokens req + a.numExternalComputedTokens) cfg.maxModelLen

def numTokensMainModel : Nat := a.totalComputedTokens cfg req + a.numNewTokens

def numTokensNeedSlot : Nat :=
  min (a.numTokensMainModel cfg req + a.numLookaheadTokens) cfg.maxModelLen

def watermarkBlocks : Nat :=
  if a.hasScheduledReqs && req.isWaiting then cfg.watermarkBlocks else 0

/-- The arguments of the count for this call. -/
def slotArgs : SlotArgs :=
  ⟨a.numTokensNeedSlot cfg req, a.numLocalComputedTokens req + a.numExternalComputedTokens,
    a.numLocalComputedTokens req, a.numTokensMainModel cfg req, false,
    max req.numPromptTokens (req.numTokens - 1)⟩

/-- The arguments of the count for the whole sequence. -/
def fullSlotArgs : SlotArgs :=
  ⟨min req.numTokens cfg.maxModelLen, a.totalComputedTokens cfg req, a.numLocalComputedTokens req,
    min req.numTokens cfg.maxModelLen, true, max req.numPromptTokens (req.numTokens - 1)⟩

end AllocArgs

variable (req : Request R H) (a : AllocArgs)

/-- The admission gate: the whole sequence must fit. -/
def fullSequenceFits : Except Fault Bool :=
  if !a.fullSequenceMustFit then .ok true
  else
    (getNumBlocksToAllocate cfg s req.requestId a.newComputedBlocks a.numEncoderTokens
      (a.fullSlotArgs cfg req)).map fun n =>
        decide (n.1 + (a.watermarkBlocks cfg req : Int) ≤ s.pool.getNumFreeBlocks)

/-- The last stage of `allocate_slots`, after the test for free blocks: the new blocks. -/
def commitSlots : Except Fault (List (List Nat) × KVCacheManager R H) :=
  let r := req.requestId
  let hasHit := (List.range cfg.groups.length).any fun i => !(a.newComputedBlocks i).isEmpty
  let computed :=
    if hasHit || decide (0 < a.numExternalComputedTokens) then
      s.allocateNewComputedBlocks cfg r a.newComputedBlocks (a.numLocalComputedTokens req)
        a.numExternalComputedTokens
    else .ok s
  computed.bind fun s =>
    s.allocateNewBlocks cfg r (a.numTokensNeedSlot cfg req) (a.numTokensMainModel cfg req)
      a.numEncoderTokens

/-- `allocate_slots`: the new blocks of each group, or `none` when there are not enough
free blocks. -/
def allocateSlots : Except Fault (Option (List (List Nat)) × KVCacheManager R H) :=
  if a.numNewTokens = 0 ∧ a.numExternalComputedTokens = 0 ∧ a.numNewComputedTokens = 0 then
    .error .failed
  else
    (fullSequenceFits cfg s req a).bind fun fits =>
      if !fits then .ok (none, s)
      else
        (s.removeSkippedBlocks cfg req.requestId
          (a.totalComputedTokens cfg req - req.numInFlightTokens)).bind fun s =>
        (s.getNumBlocksToAllocate cfg req.requestId a.newComputedBlocks a.numEncoderTokens
          (a.slotArgs cfg req)).bind fun needed =>
        let s := needed.2
        let available : Int := s.pool.getNumFreeBlocks - a.reservedBlocks
        if available < needed.1 + (a.watermarkBlocks cfg req : Int) then .ok (none, s)
        else
          (s.commitSlots cfg req a).bind fun new =>
            if a.delayCacheBlocks then .ok (some new.1, new.2)
            else
              (new.2.cacheBlocks cfg req
                (min (a.totalComputedTokens cfg req + a.numNewTokens) req.numTokens)).map
                  fun s => (some new.1, s)

end KVCacheManager

end Vllm.KVCache
