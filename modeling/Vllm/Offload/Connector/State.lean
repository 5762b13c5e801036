import Vllm.Library.CeilDiv
import Vllm.Offload.CPUManager

/-!
# The configuration and the requests of the offloading connector

The data of `OffloadingConnectorScheduler`
(`distributed/kv_transfer/kv_connector/v1/offloading/scheduler.py`): the groups with
their chunk sizes, and for each request its offload keys and block tables. What
`build_offloading_config` and `SchedulerOffloadConfig.from_spec` assert about the groups
is carried by the configuration. Metrics, events and the sync load budget are left out,
and block sizes are those after the scaling for context parallelism.
-/

namespace Vllm.Offload.Connector

open Library

/-- `make_offload_key`. -/
structure OffloadKey (H : Type) where
  hash : H
  groupIdx : Nat
  deriving DecidableEq, Repr

/-! ## Groups -/

inductive KVCacheSpec
  | fullAttention
  | slidingWindow (slidingWindow extraRetainedTokens : Nat)
  | chunkedLocalAttention (attentionChunkSize : Nat)
  /-- `align`: `mamba_cache_mode == "align"` -/
  | mamba (align : Bool)
  deriving DecidableEq, Repr

/-- What `get_sliding_window_size_in_chunks` asserts. -/
def KVCacheSpec.Sized : KVCacheSpec → Prop
  | .slidingWindow window _ => 0 < window
  | .chunkedLocalAttention attentionChunkSize => 0 < attentionChunkSize
  | _ => True

/-- `get_sliding_window_size_in_chunks`. -/
def getSlidingWindowSizeInChunks (spec : KVCacheSpec) (tokensPerChunk : Nat) : Option Nat :=
  match spec with
  | .slidingWindow slidingWindow extraRetainedTokens =>
    some (max (cdiv slidingWindow tokensPerChunk)
      (cdiv (slidingWindow - 1 + extraRetainedTokens) tokensPerChunk))
  | .chunkedLocalAttention attentionChunkSize => some (cdiv attentionChunkSize tokensPerChunk)
  | .mamba _ => some 1
  | .fullAttention => none

@[ext]
structure GroupOffloadConfig where
  groupIdx : Nat
  tokensPerBlock : Nat
  tokensPerChunk : Nat
  kvCacheSpec : KVCacheSpec
  isEagleGroup : Bool
  /-- the entry of the group in `_eagle_proof_margins`, 0 without one -/
  eagleProofMargin : Nat := 0
  tokensPerChunk_pos : 0 < tokensPerChunk
  sized : kvCacheSpec.Sized

instance : DecidableEq GroupOffloadConfig := fun _ _ =>
  decidable_of_iff' _ GroupOffloadConfig.ext_iff

namespace GroupOffloadConfig

variable (g : GroupOffloadConfig)

/-- `none` for full attention. -/
def slidingWindowSizeInChunks : Option Nat :=
  getSlidingWindowSizeInChunks g.kvCacheSpec g.tokensPerChunk

/-- `load_window_size_in_chunks`. -/
def loadWindowSizeInChunks (numTokens : Nat) : Option Nat :=
  match g.kvCacheSpec with
  | .slidingWindow slidingWindow extraRetainedTokens =>
    -- `-num_tokens % tokens_per_chunk`
    let rightPadding := (g.tokensPerChunk - numTokens % g.tokensPerChunk) % g.tokensPerChunk
    g.slidingWindowSizeInChunks.map (max ·
      (cdiv (slidingWindow - 1 + extraRetainedTokens + rightPadding) g.tokensPerChunk))
  | _ => g.slidingWindowSizeInChunks

end GroupOffloadConfig

structure SchedulerOffloadConfig where
  kvGroupConfigs : List GroupOffloadConfig
  blocksPerChunk : Nat
  tokensPerHash : Nat
  numWorkers : Nat
  /-- `num_hash_lookahead_tokens > 0` -/
  useLookaheadBlockHashes : Bool
  blocksPerChunk_pos : 0 < blocksPerChunk
  tokensPerHash_pos : 0 < tokensPerHash
  tokensPerChunk_eq : ∀ g ∈ kvGroupConfigs, g.tokensPerChunk = g.tokensPerBlock * blocksPerChunk
  groupIdx_nodup : (kvGroupConfigs.map (·.groupIdx)).Nodup
  tokensPerHash_dvd : ∀ g ∈ kvGroupConfigs, tokensPerHash ∣ g.tokensPerBlock
  /-- the assertion of `resolve_mamba_align_size` -/
  mambaAlign_eq : ∀ g ∈ kvGroupConfigs, ∀ g' ∈ kvGroupConfigs, g.kvCacheSpec = .mamba true →
    g'.kvCacheSpec = .mamba true → g.tokensPerChunk = g'.tokensPerChunk

namespace SchedulerOffloadConfig

variable (c : SchedulerOffloadConfig)

/-- A group with its place in `kv_group_configs`. -/
abbrev IndexedGroup := GroupOffloadConfig × Nat

def indexedGroups : List IndexedGroup := c.kvGroupConfigs.zipIdx

/-- `_full_attention_groups`. -/
def fullAttentionGroups : List IndexedGroup :=
  c.indexedGroups.filter fun (g, _) => g.slidingWindowSizeInChunks.isNone

/-- `_sliding_window_groups`: larger windows first. -/
def slidingWindowGroups : List IndexedGroup :=
  (c.indexedGroups.filter fun (g, _) => g.slidingWindowSizeInChunks.isSome).insertionSort
    fun (g, _) (g', _) =>
      g'.slidingWindowSizeInChunks.getD 0 ≤ g.slidingWindowSizeInChunks.getD 0

/-- `_lookup_groups`. -/
def lookupGroups : List IndexedGroup := c.fullAttentionGroups ++ c.slidingWindowGroups

/-- `resolve_mamba_align_size`. -/
def mambaAlignSize : Option Nat :=
  (c.kvGroupConfigs.find? (·.kvCacheSpec == .mamba true)).map (·.tokensPerChunk)

def hashesPerChunk (g : GroupOffloadConfig) : Nat := g.tokensPerChunk / c.tokensPerHash

end SchedulerOffloadConfig

/-! ## Requests -/

variable {R H : Type}

/-- What the connector reads of a `Request`. -/
structure RequestView (H : Type) where
  numTokens : Nat
  blockHashes : List H

/-- `RequestGroupState`. -/
structure RequestGroupState (H : Type) where
  offloadKeys : List (OffloadKey H) := []
  /-- the next chunk to offload -/
  nextStoredChunkIdx : Nat := 0

inductive OffloadPolicy
  | chunkLevel
  | requestLevel
  deriving DecidableEq, Repr

structure RequestOffloadState (H : Type) where
  req : RequestView H
  policy : OffloadPolicy := .chunkLevel
  /-- by the place of the group in `kv_group_configs` -/
  groupStates : Nat → RequestGroupState H := fun _ => {}
  maxLoadTokens : Option Nat := none
  numLocallyComputedTokens : Nat := 0
  transferJobs : List Nat := []
  partialTailBoundary : Option Nat := none

/-- `update_offload_keys`, for one group: a key for each chunk whose last block hash is
known. -/
def SchedulerOffloadConfig.updateOffloadKeys (c : SchedulerOffloadConfig) (g : GroupOffloadConfig)
    (blockHashes : List H) (offloadKeys : List (OffloadKey H)) : List (OffloadKey H) :=
  let stride := c.hashesPerChunk g
  let start := offloadKeys.length
  offloadKeys ++ (List.range' start (blockHashes.length / stride - start)).filterMap fun chunk =>
    blockHashes[stride * (chunk + 1) - 1]?.map (⟨·, g.groupIdx⟩)

/-! ## Jobs -/

/-- `GPULoadStoreSpec` with what its constructor asserts: the blocks of each group, one
group after the other, and the place in the table of the first one of each group. -/
structure GPULoadStoreSpec where
  blockIds : List Nat
  groupSizes : List Nat
  blockIndices : List Nat
  sum_eq : groupSizes.sum = blockIds.length
  length_eq : blockIndices.length = groupSizes.length
  deriving DecidableEq, Repr

def GPULoadStoreSpec.new (blockIds groupSizes blockIndices : List Nat) :
    Except Fault GPULoadStoreSpec :=
  if hsum : groupSizes.sum = blockIds.length then
    if hlength : blockIndices.length = groupSizes.length then
      .ok ⟨blockIds, groupSizes, blockIndices, hsum, hlength⟩
    else .error .assertionError
  else .error .assertionError

/-- A transfer between the blocks of the GPU and the chunks of the CPU. -/
structure TransferJob (R : Type) where
  reqId : R
  gpuSpec : GPULoadStoreSpec
  /-- the blocks of the CPU spec -/
  chunkIds : List Nat
  sync : Bool := false
  deriving DecidableEq, Repr

structure TransferJobStatus (R H : Type) where
  reqId : R
  /-- the workers that have not reported yet -/
  pendingCount : Int
  keys : List (OffloadKey H)
  isStore : Bool
  isSyncLoad : Bool := false

/-- `OffloadingConnectorScheduler`. -/
structure OffloadingConnectorScheduler (R H : Type) where
  config : SchedulerOffloadConfig
  reqStatus : R → Option (RequestOffloadState H) := fun _ => none
  currentBatchLoadJobs : Dict Nat (TransferJob R) := .empty
  currentBatchSyncLoads : List R := []
  currentBatchAllocatedBlockIds : List Nat := []
  /-- `none` without prefix caching -/
  chunksBeingLoaded : Option (List (OffloadKey H)) := none
  jobCounter : Nat := 0
  jobs : Dict Nat (TransferJobStatus R H) := .empty

end Vllm.Offload.Connector
