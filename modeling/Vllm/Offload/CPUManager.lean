import Vllm.Offload.Policies

/-!
# The CPU offload pool

`CPUOffloadingManager` (`v1/kv_offload/cpu/manager.py`) with the deferred releases of
`CPUPrimaryTierOffloadingManager` (`v1/kv_offload/tiering/manager.py`). The state that
the manager keeps in the context of a request is a map over the requests. Events,
metrics and configuration facts are left out.
-/

namespace Vllm.Offload

open Library

/-- The keys that one request has observed, by group in the order of the prefix. -/
structure CacheAccess (K : Type) where
  cacheGeneration : Nat
  keyGroups : Dict Nat (List K) := .empty
  seenKeys : Finset K := ∅
  insertedKeys : Finset K := ∅
  reusedKeys : Finset K := ∅
  storeMissKeys : Finset K := ∅
  /-- the keys that count towards the store threshold already -/
  countedKeys : Finset K := ∅
  finished : Bool := false

structure CPUOffloadingManager (R K π : Type) where
  numChunks : Nat
  numAllocatedChunks : Nat
  freeList : List Nat
  policy : π
  numEvictableCacheChunks : Int
  numWritePendingChunks : Int
  storeThreshold : Nat
  maxTrackerSize : Nat
  cacheGeneration : Nat
  /-- there only with a threshold of at least 2 -/
  counts : Option (Dict K Nat)
  access : R → Option (CacheAccess K)
  /-- A set, in the order of insertion. -/
  deferredReleaseChunkIds : List Nat

inductive LookupResult
  | miss
  | hit
  | hitPending
  | retry
  deriving DecidableEq, Repr

structure PrepareStoreOutput (K : Type) where
  keysToStore : List K
  /-- the chunk of each key -/
  chunkIds : List Nat
  evictedKeys : List K
  deriving DecidableEq, Repr

namespace CPUOffloadingManager

variable {R K π : Type}

def init (numChunks storeThreshold maxTrackerSize : Nat) (policy : π) :
    CPUOffloadingManager R K π where
  numChunks
  numAllocatedChunks := 0
  freeList := []
  policy
  numEvictableCacheChunks := 0
  numWritePendingChunks := 0
  storeThreshold
  maxTrackerSize
  cacheGeneration := 0
  counts := if 2 ≤ storeThreshold then some .empty else none
  access := fun _ => none
  deferredReleaseChunkIds := []

/-! ## The pool -/

/-- `_get_num_free_chunks`. -/
def getNumFreeChunks (m : CPUOffloadingManager R K π) : Int :=
  m.freeList.length + m.numChunks - m.numAllocatedChunks

/-- `_allocate_chunks`: fresh chunks first, then those freed last. -/
def allocateChunks (m : CPUOffloadingManager R K π) (n : Nat) :
    Except Fault (List ChunkStatus × CPUOffloadingManager R K π) :=
  let numFresh := min n (m.numChunks - m.numAllocatedChunks)
  let numReused := n - numFresh
  if m.freeList.length < numReused then .error .assertionError
  else
    .ok ((List.range' m.numAllocatedChunks numFresh ++ m.freeList.reverse.take numReused).map
        ChunkStatus.new,
      { m with
        numAllocatedChunks := m.numAllocatedChunks + numFresh
        freeList := m.freeList.take (m.freeList.length - numReused) })

/-- `_free_chunk`. -/
def freeChunk (m : CPUOffloadingManager R K π) (chunkId : Nat) : CPUOffloadingManager R K π :=
  { m with freeList := m.freeList ++ [chunkId] }

/-! ## What a request has seen -/

variable [DecidableEq R] [DecidableEq K]

/-- The first loop of `_record_accesses`: the keys that are tracked count. -/
def countTracked (counts : Dict K Nat) (keys : List K) (counted : Finset K) : Dict K Nat :=
  keys.foldl (fun counts key =>
    match counts.get? key with
    | none => counts
    | some n => (counts.moveToEnd key).insert key (if key ∈ counted then n else n + 1)) counts

/-- The second loop: the others are tracked from now on, unless there is no space. -/
def trackNew (maxTrackerSize : Nat) (keys : List K)
    (counts : Dict K Nat × Nat) : Dict K Nat × Nat :=
  keys.foldl (fun (counts, numUnprotected) key =>
    if key ∈ counts.keys then (counts, numUnprotected)
    else if maxTrackerSize ≤ counts.keys.length then
      if numUnprotected = 0 then (counts, numUnprotected)
      else ((counts.dropOldest 1).insert key 1, numUnprotected - 1)
    else (counts.insert key 1, numUnprotected)) counts

/-- `_record_accesses`. -/
def recordAccesses (maxTrackerSize : Nat) (counts : Dict K Nat) (keys : List K)
    (counted : Finset K) : Dict K Nat :=
  let numProtected := (keys.filter (· ∈ counts.keys)).dedup.length
  let counts := countTracked counts keys counted
  (trackNew maxTrackerSize keys (counts, counts.keys.length - numProtected)).1

/-- `_get_request_cache_access`. -/
def getRequestCacheAccess (m : CPUOffloadingManager R K π) (r : R) : CacheAccess K :=
  match m.access r with
  | some state =>
    if state.cacheGeneration = m.cacheGeneration then state
    else { cacheGeneration := m.cacheGeneration }
  | none => { cacheGeneration := m.cacheGeneration }

def setAccess (m : CPUOffloadingManager R K π) (r : R) (state : CacheAccess K) :
    CPUOffloadingManager R K π :=
  { m with access := Function.update m.access r (some state) }

/-- The loop of `_record_request_cache_access`: the state and the keys that are new. -/
def observeKeys (groupIdx : K → Nat) (keys : List K) (state : CacheAccess K) :
    Except Fault (CacheAccess K × List K) :=
  keys.foldlM (fun (state, newKeys) key =>
    if key ∈ state.seenKeys then .ok (state, newKeys)
    else if state.finished then .error .assertionError
    else
      .ok ({ state with
        keyGroups := state.keyGroups.insert (groupIdx key)
          ((state.keyGroups.get? (groupIdx key)).getD [] ++ [key])
        seenKeys := insert key state.seenKeys }, newKeys ++ [key])) (state, [])

variable [CachePolicy π R K] (groupIdx : K → Nat) (m : CPUOffloadingManager R K π)

/-- `_record_request_cache_access`; no caller passes inserted keys. -/
def recordRequestCacheAccess (keys : List K)
    (ctx : ReqContext R K) (reusedKeys : List K) : Except Fault (CPUOffloadingManager R K π) :=
  (observeKeys groupIdx keys (m.getRequestCacheAccess ctx.reqId)).bind fun (state, newKeys) =>
    (if newKeys = [] then .ok m.policy else CachePolicy.onRequestAccess m.policy newKeys ctx).map
      fun policy =>
        { m with policy }.setAccess ctx.reqId { state with
          reusedKeys := state.reusedKeys ∪
            (reusedKeys.filter (· ∉ state.insertedKeys)).toFinset }

def onNewRequest (ctx : ReqContext R K) : CPUOffloadingManager R K π :=
  m.setAccess ctx.reqId (m.getRequestCacheAccess ctx.reqId)

/-! ## Loads -/

def lookup (key : K) : LookupResult :=
  match CachePolicy.get m.policy key with
  | none => .miss
  | some chunk => if chunk.isReady then .hit else .hitPending

/-- The body of the loop of `_prepare_load`: a chunk is pinned. -/
def pinChunk (key : K) : Except Fault (Nat × CPUOffloadingManager R K π) :=
  match CachePolicy.get m.policy key with
  | none => .error .assertionError
  | some chunk =>
    if !chunk.isReady then .error .assertionError
    else
      (if chunk.refCnt = 0 then
          (CachePolicy.markNonEvictable m.policy key).bind fun policy =>
            if m.numEvictableCacheChunks - 1 < 0 then .error .assertionError
            else .ok { m with
              policy
              numEvictableCacheChunks := m.numEvictableCacheChunks - 1 }
        else .ok m).map fun m =>
          (chunk.chunkId,
            { m with policy := CachePolicy.setRefCnt m.policy key (chunk.refCnt + 1) })

/-- The loop of `_prepare_load`: the chunks of the keys. -/
def pinChunks (keys : List K) : Except Fault (List Nat × CPUOffloadingManager R K π) :=
  keys.foldlM (fun (chunkIds, m) key =>
    (m.pinChunk key).map fun (chunkId, m) => (chunkIds ++ [chunkId], m)) ([], m)

/-- `_prepare_load`; `prepare_read` of the primary tier does not record the access. -/
def prepareLoad (keys : List K) (ctx : ReqContext R K)
    (recordAccess : Bool) : Except Fault (List Nat × CPUOffloadingManager R K π) :=
  (m.pinChunks keys).bind fun (chunkIds, m) =>
    (if recordAccess then m.recordRequestCacheAccess groupIdx keys ctx keys else .ok m).map
      fun m => (chunkIds, m)

/-- The body of the loop of `complete_load`. -/
def unpinChunk (key : K) : Except Fault (CPUOffloadingManager R K π) :=
  match CachePolicy.get m.policy key with
  | none => .error .assertionError
  | some chunk =>
    if chunk.refCnt ≤ 0 then .error .assertionError
    else
      let policy := CachePolicy.setRefCnt m.policy key (chunk.refCnt - 1)
      if chunk.refCnt - 1 = 0 then
        (CachePolicy.markEvictable policy key).map fun policy =>
          { m with
            policy
            numEvictableCacheChunks := m.numEvictableCacheChunks + 1 }
      else .ok { m with policy }

def completeLoad (keys : List K) : Except Fault (CPUOffloadingManager R K π) :=
  keys.foldlM unpinChunk m

/-! ## Stores -/

/-- The first half of `prepare_store`: the keys that are to be stored. -/
def admitKeys (keys : List K) (ctx : ReqContext R K) :
    Except Fault (List K × CPUOffloadingManager R K π) :=
  let state := m.getRequestCacheAccess ctx.reqId
  let counts := m.counts.map fun counts =>
    recordAccesses m.maxTrackerSize counts keys state.countedKeys
  let missing := keys.filter fun key => (CachePolicy.get m.policy key).isNone
  let readyExistingKeys := keys.filter fun key =>
    (CachePolicy.get m.policy key).any ChunkStatus.isReady
  let keysToStore := match counts with
    | none => missing
    | some counts => missing.filter fun key => m.storeThreshold ≤ (counts.get? key).getD 0
  let state := if counts.isSome then
      { state with countedKeys := state.countedKeys ∪ keys.toFinset } else state
  let newStoreMisses := keysToStore.filter (· ∉ state.storeMissKeys)
  let policy := if newStoreMisses = [] then m.policy
    else CachePolicy.onStoreMiss m.policy newStoreMisses
  let state := { state with storeMissKeys := state.storeMissKeys ∪ newStoreMisses.toFinset }
  let m := { m with counts, policy }.setAccess ctx.reqId state
  (m.recordRequestCacheAccess groupIdx
    (keys.filter fun key => key ∈ keysToStore ∨ key ∈ readyExistingKeys) ctx readyExistingKeys).map
      fun m => (keysToStore, m)

/-- Evict chunks for `n` new ones: the keys that leave, or `none` if there is no space. -/
def makeRoom (n : Nat) (protectedKeys : Finset K) :
    Except Fault (Option (List K) × CPUOffloadingManager R K π) :=
  let numChunksToEvict := n - m.getNumFreeChunks
  if numChunksToEvict ≤ 0 then .ok (some [], m)
  else if m.numEvictableCacheChunks < numChunksToEvict then .ok (none, m)
  else
    (CachePolicy.evict m.policy numChunksToEvict.toNat protectedKeys).bind fun
      | (none, policy) => .ok (none, { m with policy })
      | (some evicted, policy) =>
        let numEvictableCacheChunks := m.numEvictableCacheChunks - evicted.length
        if numEvictableCacheChunks < 0 then .error .assertionError
        else
          let m := { m with policy, numEvictableCacheChunks }
          .ok (some (evicted.map Prod.fst),
            evicted.foldl (fun m e => m.freeChunk e.2.chunkId) m)

/-- The end of `prepare_store`: the keys get their chunks. -/
def placeChunks (keysToStore : List K) (ctx : ReqContext R K) :
    Except Fault (List Nat × CPUOffloadingManager R K π) :=
  (m.allocateChunks keysToStore.length).bind fun (chunks, m) =>
    if chunks.length ≠ keysToStore.length then .error .assertionError
    else
      ((keysToStore.zip chunks).foldlM (fun policy e => CachePolicy.insert policy e.1 e.2 ctx)
        m.policy).map fun policy =>
          let state := m.getRequestCacheAccess ctx.reqId
          (chunks.map ChunkStatus.chunkId, { m with
            policy
            numWritePendingChunks := m.numWritePendingChunks + keysToStore.length }.setAccess
              ctx.reqId { state with insertedKeys := state.insertedKeys ∪ keysToStore.toFinset })

def prepareStore (keys : List K) (ctx : ReqContext R K) :
    Except Fault (Option (PrepareStoreOutput K) × CPUOffloadingManager R K π) :=
  (m.admitKeys groupIdx keys ctx).bind fun (keysToStore, m) =>
    if keysToStore = [] then .ok (some ⟨[], [], []⟩, m)
    else
      (m.makeRoom keysToStore.length keys.toFinset).bind fun
        | (none, m) => .ok (none, m)
        | (some evictedKeys, m) =>
          (m.placeChunks keysToStore ctx).map fun (chunkIds, m) =>
            (some ⟨keysToStore, chunkIds, evictedKeys⟩, m)

/-- The body of the loops of `complete_store`. -/
def settleChunk (success : Bool) (m : CPUOffloadingManager R K π) (key : K) :
    Except Fault (CPUOffloadingManager R K π) :=
  match CachePolicy.get m.policy key with
  | none => .ok m
  | some chunk =>
    if chunk.isReady then .ok m
    else if success then
      (CachePolicy.markEvictable (CachePolicy.setRefCnt m.policy key 0) key).map fun policy =>
        { m with
          policy
          numWritePendingChunks := m.numWritePendingChunks - 1
          numEvictableCacheChunks := m.numEvictableCacheChunks + 1 }
    else
      (CachePolicy.remove m.policy key).map fun policy =>
        { m with
          policy
          numWritePendingChunks := m.numWritePendingChunks - 1 }.freeChunk chunk.chunkId

def completeStore (keys : List K) (success : Bool) : Except Fault (CPUOffloadingManager R K π) :=
  keys.foldlM (settleChunk success) m

/-- The body of the loop of `defer_write_release`. -/
def deferChunk (key : K) : Except Fault (Nat × CPUOffloadingManager R K π) :=
  match CachePolicy.get m.policy key with
  | none => .error .assertionError
  | some chunk =>
    if chunk.isReady then .error .assertionError
    else
      (CachePolicy.remove m.policy key).map fun policy =>
        (chunk.chunkId, { m with
          policy
          deferredReleaseChunkIds := m.deferredReleaseChunkIds.insert chunk.chunkId })

/-- `defer_write_release`: the chunks whose release is deferred. -/
def deferWriteRelease (keys : List K) : Except Fault (List Nat × CPUOffloadingManager R K π) :=
  keys.foldlM (fun (chunkIds, m) key =>
    (m.deferChunk key).map fun (chunkId, m) => (chunkIds ++ [chunkId], m)) ([], m)

/-- The body of the loop of `release_deferred_write`. -/
def releaseChunk (chunkId : Nat) : Except Fault (CPUOffloadingManager R K π) :=
  if chunkId ∉ m.deferredReleaseChunkIds then .error .keyError
  else
    .ok ({ m with
      deferredReleaseChunkIds := m.deferredReleaseChunkIds.erase chunkId
      numWritePendingChunks := m.numWritePendingChunks - 1 }.freeChunk chunkId)

def releaseDeferredWrite (chunkIds : List Nat) : Except Fault (CPUOffloadingManager R K π) :=
  chunkIds.foldlM releaseChunk m

/-! ## The end of a request, and the reset -/

/-- The keys of one group from head to tail, if all positions are known. -/
def sortGroup (ctx : ReqContext R K) (keys : List K) : List K := orderRequestKeys [keys] ctx

def onRequestFinished (ctx : ReqContext R K) : Except Fault (CPUOffloadingManager R K π) :=
  match m.access ctx.reqId with
  | none => .ok m
  | some state =>
    if state.cacheGeneration ≠ m.cacheGeneration ∨ state.finished then .ok m
    else
      let groups := state.keyGroups.keys.mergeSort
      let keyGroups := groups.map fun g => sortGroup ctx ((state.keyGroups.get? g).getD [])
      (CachePolicy.onRequestFinished m.policy keyGroups (state.insertedKeys \ state.reusedKeys)
        state.reusedKeys ctx).map fun policy =>
          { m with policy }.setAccess ctx.reqId { state with finished := true }

omit [DecidableEq R] [DecidableEq K] in
/-- `reset_cache`. -/
def resetCache : Except Fault (CPUOffloadingManager R K π) :=
  if m.deferredReleaseChunkIds ≠ [] then .error .assertionError
  else
    .ok { m with
      policy := CachePolicy.clear m.policy
      cacheGeneration := m.cacheGeneration + 1
      numEvictableCacheChunks := 0
      numWritePendingChunks := 0
      freeList := []
      numAllocatedChunks := 0 }

end CPUOffloadingManager

end Vllm.Offload
