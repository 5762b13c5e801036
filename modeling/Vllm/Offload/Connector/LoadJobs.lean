import Vllm.Offload.Connector.State

/-!
# Load jobs

`update_state_after_alloc` of `OffloadingConnectorScheduler`: which chunks are loaded into
which of the blocks that were allocated for a hit. The ranges that are only kept for
metrics are left out.
-/

namespace Vllm.Offload.Connector

open Library

variable {R H : Type}

/-- What is read of a `KVCacheBlock`. -/
structure BlockView where
  blockId : Nat
  isNull : Bool
  /-- `block_hash is not None` -/
  hashed : Bool
  deriving DecidableEq, Repr

/-- The part of a load job for one group. -/
structure GroupLoad (H : Type) where
  keys : List (OffloadKey H)
  blockIds : List Nat
  blockIdx : Nat

/-- The keys that a load prepares and the blocks that it fills. -/
structure LoadPlan (H : Type) where
  keysToLoad : List (OffloadKey H) := []
  dstBlockIds : List Nat := []
  groupSizes : List Nat := []
  blockIndices : List Nat := []

def LoadPlan.add (plan : LoadPlan H) (load : GroupLoad H) : LoadPlan H where
  keysToLoad := plan.keysToLoad ++ load.keys
  dstBlockIds := plan.dstBlockIds ++ load.blockIds
  groupSizes := plan.groupSizes ++ [load.blockIds.length]
  blockIndices := plan.blockIndices ++ [load.blockIdx]

namespace SchedulerOffloadConfig

variable (c : SchedulerOffloadConfig) (status : RequestOffloadState H) (g : GroupOffloadConfig)

/-- `_partial_tail_key_tokens`. -/
def partialTailKeyTokens (boundary : Nat) : Nat :=
  boundary + (if c.useLookaheadBlockHashes then 0 else g.eagleProofMargin)

/-- `_make_boundary_key`. -/
def makeBoundaryKey (boundaryTokens : Nat) : Except Fault (OffloadKey H) :=
  match status.req.blockHashes[boundaryTokens / c.tokensPerHash - 1]? with
  | some hash => .ok ⟨hash, g.groupIdx⟩
  | none => .error .keyError

/-- `load_start_gpu_block_idx`: the first fresh block behind the local prefix. -/
def loadStartGpuBlockIdx (syncLoad : Bool) (groupBlocks : List BlockView)
    (numGpuBlocks : Nat) : Nat :=
  let first := cdiv status.numLocallyComputedTokens g.tokensPerBlock
  ((List.range' first (numGpuBlocks - first)).find? fun j =>
    groupBlocks[j]?.any fun block => !block.isNull && (syncLoad || !block.hashed)).getD numGpuBlocks

/-- The keys of a group from the chunk of its first fresh block on, the last one replaced
by the key of a partial tail. -/
def groupKeysToLoad (i startChunkIdx numChunks : Nat) : Except Fault (List (OffloadKey H)) :=
  let offloadKeys := (status.groupStates i).offloadKeys
  let endChunkIdx := numChunks - status.partialTailBoundary.isSome.toNat
  if offloadKeys.length < endChunkIdx then .error .assertionError
  else
    let keys := (offloadKeys.take endChunkIdx).drop startChunkIdx
    match status.partialTailBoundary with
    | none => .ok keys
    | some boundary =>
      (c.makeBoundaryKey status g (c.partialTailKeyTokens g boundary)).map (keys ++ [·])

/-- One pass of the loop of `update_state_after_alloc`. -/
def groupLoad (syncLoad : Bool) (numCachedTokens : Nat) (group : IndexedGroup)
    (groupBlocks : List BlockView) : Except Fault (GroupLoad H) :=
  let (g, i) := group
  let numGpuBlocks := cdiv numCachedTokens g.tokensPerBlock
  if groupBlocks.length < numGpuBlocks then .error .assertionError
  else
    let blockIdx := loadStartGpuBlockIdx status g syncLoad groupBlocks numGpuBlocks
    let numPendingGpuBlocks := numGpuBlocks - blockIdx
    if status.numLocallyComputedTokens % g.tokensPerBlock ≠ 0 then .error .assertionError
    else if g.slidingWindowSizeInChunks.any fun window =>
        decide (window * c.blocksPerChunk + 1 < numPendingGpuBlocks) then
      .error .assertionError
    else
      let numChunks := cdiv numCachedTokens g.tokensPerChunk
      let keys := if numPendingGpuBlocks = 0 then .ok []
        else c.groupKeysToLoad status g i (blockIdx / c.blocksPerChunk) numChunks
      keys.map fun keys =>
        ⟨keys, ((groupBlocks.take numGpuBlocks).drop blockIdx).map (·.blockId), blockIdx⟩

/-- The loop of `update_state_after_alloc`; `blocks` are by `group_idx`. -/
def loadPlan (syncLoad : Bool) (numCachedTokens : Nat) (blocks : Nat → List BlockView) :
    Except Fault (LoadPlan H) :=
  c.indexedGroups.foldlM
    (fun plan group => (c.groupLoad status syncLoad numCachedTokens group
      (blocks group.1.groupIdx)).map plan.add) {}

/-- `next_stored_chunk_idx` of each group behind a load. -/
def skipLoadedChunks (numCachedTokens : Nat) : RequestOffloadState H :=
  match status.policy with
  | .requestLevel => status
  | .chunkLevel => { status with
      groupStates := fun i => match c.kvGroupConfigs[i]? with
        | none => status.groupStates i
        | some g => { status.groupStates i with
            nextStoredChunkIdx := cdiv numCachedTokens g.tokensPerChunk } }

end SchedulerOffloadConfig

namespace OffloadingConnectorScheduler

variable [DecidableEq R] [DecidableEq H] (s : OffloadingConnectorScheduler R H)

/-- `update_state_after_alloc`. The manager prepares the keys with `prepareLoad`. -/
def updateStateAfterAlloc (reqId : R) (blocks : Nat → List BlockView) (numGroups : Nat)
    (numExternalTokens : Nat) (prepareLoad : List (OffloadKey H) → List Nat) :
    Except Fault (OffloadingConnectorScheduler R H) :=
  let allocated := (List.range numGroups).flatMap fun group =>
    ((blocks group).map (·.blockId)).filter (· ≠ 0)
  let s := { s with currentBatchAllocatedBlockIds :=
    s.currentBatchAllocatedBlockIds.union allocated }
  if numExternalTokens = 0 then .ok s
  else match s.reqStatus reqId with
  | none => .error .keyError
  | some status =>
    let syncLoad := decide (reqId ∈ s.currentBatchSyncLoads)
    let numCachedTokens := status.numLocallyComputedTokens + numExternalTokens
    if status.partialTailBoundary.any (· ≠ numCachedTokens) then .error .assertionError
    else
      (s.config.loadPlan status syncLoad numCachedTokens blocks).bind fun plan =>
      (GPULoadStoreSpec.new plan.dstBlockIds plan.groupSizes plan.blockIndices).bind fun gpuSpec =>
      let loadJobId := s.jobCounter
      if status.transferJobs ≠ [] then .error .assertionError
      else
        let status := { s.config.skipLoadedChunks status numCachedTokens with
          transferJobs := [loadJobId], partialTailBoundary := none }
        let job : TransferJob R := ⟨reqId, gpuSpec, prepareLoad plan.keysToLoad, syncLoad⟩
        let jobStatus : TransferJobStatus R H :=
          { reqId, pendingCount := s.config.numWorkers, keys := plan.keysToLoad.eraseDups
            isStore := false, isSyncLoad := syncLoad }
        .ok { s with
          reqStatus := Function.update s.reqStatus reqId (some status)
          jobCounter := loadJobId + 1
          currentBatchLoadJobs := s.currentBatchLoadJobs.insert loadJobId job
          jobs := s.jobs.insert loadJobId jobStatus
          -- a synchronous load completes before the forward pass of this step
          chunksBeingLoaded := if syncLoad then s.chunksBeingLoaded
            else s.chunksBeingLoaded.map (·.union plan.keysToLoad) }

end OffloadingConnectorScheduler

end Vllm.Offload.Connector
