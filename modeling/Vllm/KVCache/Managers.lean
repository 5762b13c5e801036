import Vllm.Library.Bisect
import Vllm.Lookup.Finders

/-!
# The managers of single KV cache groups

`SingleTypeKVCacheManager` (`v1/core/single_type_kv_cache_manager.py`) keeps the
block table of each request for one KV cache group. All managers share one block
pool. This module has the data and the methods of the base class; the overrides
of the Mamba manager are in `Vllm.KVCache.Mamba`.

A method reads and writes the pool and the attributes of its manager (`View`).
Ids for worker-side zeroing and the hand-off of states to connectors are left
out, since no method reads them. A call that raises gives a `Fault`.
-/

namespace Vllm.KVCache

open Library Pool

/-- Why a call raises: the pool has not enough free blocks, or anything else (an
assertion, an index). -/
inductive Fault where
  | noFreeBlocks
  | failed
  deriving DecidableEq, Repr

/-- A part of a call that raises only by assertions. -/
def orFail {α : Type} : Option α → Except Fault α
  | none => .error .failed
  | some a => .ok a

/-! ## Specs and requests -/

/-- What `MambaManager` reads of its spec. -/
structure MambaParams where
  /-- `mamba_cache_mode == "align"` -/
  align : Bool
  numSpeculativeBlocks : Nat
  numPrefillCheckpointBlocks : Nat
  prefillCheckpointAlignment : Option Nat
  deriving DecidableEq, Repr

/-- The manager class of a group, with what it reads of the spec. -/
inductive Kind where
  | fullAttention
  | slidingWindow (slidingWindow extraRetainedTokens : Nat)
  | chunkedLocal (attentionChunkSize : Nat)
  | mamba (params : MambaParams)
  | crossAttention
  deriving DecidableEq, Repr

/-- The attributes of a manager that do not change. -/
structure Group where
  kind : Kind
  blockSize : Nat
  prefixCacheable : Bool
  maxAdmissionBlocksPerRequest : Option Nat
  cacheHitAlignmentTokens : Nat
  useEagle : Bool
  dropEagleCheckpointBlock : Bool
  sharedPrefixCheckpoint : Bool
  blockSize_pos : 0 < blockSize

/-- What the managers read of a request. -/
structure Request (R H : Type) where
  requestId : R
  numPromptTokens : Nat
  numTokens : Nat
  numComputedTokens : Nat
  numInFlightTokens : Nat
  /-- the status is `WAITING` or `PREEMPTED` -/
  isWaiting : Bool
  sharedPrefixBoundary : Nat
  blockHashes : List H

/-! ## State -/

/-- The attributes of a manager that change. A request without an entry in
`req_to_blocks` has the empty table. The entries after the copies are used in the
Mamba "align" mode only. -/
structure Manager (R H : Type) where
  reqToBlocks : R → List Nat
  numCachedBlock : R → Option Nat
  partialHitReqs : R → Option (Nat × Nat)
  pendingCowCopies : List (Nat × Nat)
  lastStateBlockIdx : R → Option Nat
  numRetiredBlocks : R → Nat
  allocatedBlockReqs : R → Bool
  checkpoints : R → Option (Nat × Nat)
  producerPartialTailReqs : R → Option (Nat × Nat)
  cachedBlocksThisStep : List (Key H)

def Manager.init (R H : Type) : Manager R H :=
  ⟨fun _ => [], fun _ => none, fun _ => none, [], fun _ => none, fun _ => 0, fun _ => false,
    fun _ => none, fun _ => none, []⟩

/-- What a method of a manager can reach. -/
structure View (R H : Type) where
  pool : BlockPool H
  mgr : Manager R H

/-- The id of `null_block`. -/
def nullBlock : Nat := 0

variable {R H : Type} [DecidableEq R] [DecidableEq H] (v : View R H) (g : Group)

namespace Manager

/-- Set the table of a request. -/
def setBlocks (m : Manager R H) (r : R) (blocks : List Nat) : Manager R H :=
  { m with reqToBlocks := Function.update m.reqToBlocks r blocks }

end Manager

namespace View

/-- Set the table of a request. -/
def setBlocks (r : R) (blocks : List Nat) : View R H :=
  { v with mgr := v.mgr.setBlocks r blocks }

omit [DecidableEq R] in
/-- `block_pool.get_new_blocks`. -/
def getNewBlocks (n : Nat) : Except Fault (List Nat × View R H) :=
  if v.pool.getNumFreeBlocks < n then .error .noFreeBlocks
  else (orFail (v.pool.getNewBlocks n)).map fun r => (r.1, { v with pool := r.2 })

section

omit [DecidableEq R] [DecidableEq H]

/-- `block_pool.touch`. -/
def touch (blocks : List Nat) : Except Fault (View R H) :=
  (orFail (v.pool.touch blocks)).map fun p => { v with pool := p }

/-- `block_pool.free_blocks`. -/
def freeBlocks (blocks : List Nat) : Except Fault (View R H) :=
  (orFail (v.pool.freeBlocks blocks)).map fun p => { v with pool := p }

end

end View

/-! ## Block counts -/

/-- `get_num_skipped_tokens`. Mamba's is -1 before the first token; all callers
treat that like 0. -/
def Kind.getNumSkippedTokens : Kind → Nat → Nat
  | .fullAttention, _ => 0
  | .slidingWindow window extra, n => n + 1 - window - extra
  | .chunkedLocal chunk, n => n / chunk * chunk
  | .mamba _, n => n - 1
  | .crossAttention, _ => 0

omit [DecidableEq R] [DecidableEq H] in
/-- `_get_num_evictable_blocks`. -/
def View.getNumEvictableBlocks (blocks : List Nat) : Nat :=
  blocks.countP fun b => (v.pool.blocks b).refCnt == 0 && !(v.pool.blocks b).isNull

/-- `_has_partial_local_hit`. -/
def Group.hasPartialLocalHit (newComputedBlocks : List Nat) (numLocalComputedTokens : Nat) : Bool :=
  !newComputedBlocks.isEmpty && decide (numLocalComputedTokens % g.blockSize ≠ 0)

/-- The arguments of `get_num_blocks_to_allocate` besides the request and the
blocks. -/
structure SlotArgs where
  numTokens : Nat
  totalComputedTokens : Nat
  numLocalComputedTokens : Nat
  numTokensMainModel : Nat
  applyAdmissionCap : Bool
  prefillEnd : Nat

omit [DecidableEq R] [DecidableEq H] in
/-- `get_num_blocks_to_allocate` of the base class. -/
def baseNumBlocksToAllocate (v : View R H) (r : R) (newComputedBlocks : List Nat)
    (a : SlotArgs) : Except Fault Nat :=
  let required := cdiv a.numTokens g.blockSize
  let required :=
    match a.applyAdmissionCap, g.maxAdmissionBlocksPerRequest with
    | true, some cap => min required cap
    | _, _ => required
  let numReqBlocks := (v.mgr.reqToBlocks r).length
  if (v.mgr.numCachedBlock r).isSome then
    if newComputedBlocks.isEmpty then .ok (required - numReqBlocks) else .error .failed
  else
    let numSkippedBlocks := g.kind.getNumSkippedTokens a.totalComputedTokens / g.blockSize
    let numLocalComputedBlocks := newComputedBlocks.length + numReqBlocks
    let numNewBlocks := required - max numSkippedBlocks numLocalComputedBlocks
    let evictable :=
      v.getNumEvictableBlocks (newComputedBlocks.drop (numSkippedBlocks - numReqBlocks))
    let cow := if g.hasPartialLocalHit newComputedBlocks a.numLocalComputedTokens then 1 else 0
    .ok (numNewBlocks + cow + evictable)

/-! ## Computed blocks -/

/-- `add_local_computed_blocks` of the base class. -/
def baseAddLocalComputedBlocks (enableCaching : Bool) (g : Group) (v : View R H) (r : R)
    (newComputedBlocks : List Nat) (numLocal numExternal : Nat) : Except Fault (View R H) :=
  if (v.mgr.reqToBlocks r).length ≠ 0 then .error .failed
  else
    let numSkippedBlocks := g.kind.getNumSkippedTokens (numLocal + numExternal) / g.blockSize
    let newComputedBlocks := newComputedBlocks.drop numSkippedBlocks
    let touched :=
      if enableCaching then v.touch newComputedBlocks
      else if newComputedBlocks.isEmpty then .ok v
      else .error .failed
    touched.bind fun v =>
      let reqBlocks := List.replicate numSkippedBlocks nullBlock ++ newComputedBlocks
      let v := v.setBlocks r reqBlocks
      let m := v.mgr
      if g.hasPartialLocalHit newComputedBlocks numLocal then
        let blockIdx := numLocal / g.blockSize
        .ok { v with mgr := { m with
          partialHitReqs := Function.update m.partialHitReqs r
            (newComputedBlocks.getLast?.map fun b => (blockIdx, b))
          numCachedBlock := Function.update m.numCachedBlock r (some blockIdx) } }
      else
        .ok { v with mgr := { m with
          numCachedBlock := Function.update m.numCachedBlock r (some reqBlocks.length) } }

/-- The external tokens behind those that are skipped. -/
def Kind.numExternalKept (kind : Kind) (total numExternal : Nat) : Nat :=
  let numSkippedTokens := kind.getNumSkippedTokens total
  if 0 < numSkippedTokens then min (total - numSkippedTokens) numExternal else numExternal

/-- `allocate_external_computed_blocks` of the base class. -/
def baseAllocateExternalComputedBlocks (v : View R H) (r : R)
    (numLocal numExternal : Nat) : Except Fault (View R H) :=
  let total := numLocal + numExternal
  if g.kind.numExternalKept total numExternal = 0 then .ok v
  else
    let reqBlocks := v.mgr.reqToBlocks r
    (v.getNewBlocks (cdiv total g.blockSize - reqBlocks.length)).map fun new =>
      new.2.setBlocks r (reqBlocks ++ new.1)

/-! ## New blocks -/

/-- `_apply_cow`: the request gets the copy in place of the shared block; both
stay referenced until the copy has run. -/
def applyCow (r : R) (blockIdx source cow : Nat) : Except Fault (View R H) :=
  let reqBlocks := v.mgr.reqToBlocks r
  let blk := v.pool.blocks source
  if reqBlocks[blockIdx]? = some source ∧ blk.isNull = false ∧ 0 < blk.refCnt then
    let v := v.setBlocks r (reqBlocks.set blockIdx cow)
    .ok { pool := v.pool.setRefCnt cow ((v.pool.blocks cow).refCnt + 1)
          mgr := { v.mgr with pendingCowCopies := v.mgr.pendingCowCopies ++ [(source, cow)] } }
  else .error .failed

/-- The first lines of `allocate_new_blocks`: a partial hit gets its private copy. -/
def redirectPartialHit (r : R) : Except Fault (List Nat × View R H) :=
  match v.mgr.partialHitReqs r with
  | none => .ok ([], v)
  | some (blockIdx, source) =>
    let v := { v with mgr := { v.mgr with
      partialHitReqs := Function.update v.mgr.partialHitReqs r none } }
    (v.getNewBlocks 1).bind fun new =>
      match new.1 with
      | [] => .error .failed
      | cow :: _ => (applyCow new.2 r blockIdx source cow).map fun v => ([cow], v)

/-- `allocate_new_blocks` of the base class: the new blocks and the view. -/
def baseAllocateNewBlocks (v : View R H) (r : R) (numTokens : Nat) :
    Except Fault (List Nat × View R H) :=
  (redirectPartialHit v r).bind fun cow =>
    let reqBlocks := cow.2.mgr.reqToBlocks r
    let required := cdiv numTokens g.blockSize
    if required ≤ reqBlocks.length then .ok cow
    else
      (cow.2.getNewBlocks (required - reqBlocks.length)).map fun new =>
        (cow.1 ++ new.1, new.2.setBlocks r (reqBlocks ++ new.1))

/-! ## Hashing -/

/-- The part of `cache_blocks` that is the same for all managers of a call. -/
structure CacheArgs where
  numTokens : Nat
  retentionInterval : Option Nat
  replayBoundaries : List Int

/-- The boundaries that sparse retention keeps: where a replay of the prompt or a
sibling with a shared prefix can resume. -/
def reachableBoundaries (sharedPrefixBoundary : Nat) (replayBoundaries : List Int) : List Int :=
  if sharedPrefixBoundary = 0 then replayBoundaries
  else
    replayBoundaries ++ (sharedPrefixBoundary : Int) ::
      if g.useEagle then [(sharedPrefixBoundary : Int) - g.blockSize] else []

/-- The boundary rounded down to the alignment of hits. -/
def Group.alignBoundary (boundary : Int) : Int :=
  boundary / g.cacheHitAlignmentTokens * g.cacheHitAlignmentTokens

/-- `SlidingWindowManager.reachable_block_mask`, for block `i`; `none` keeps every
block. -/
def slidingReachableBlockMask (window : Nat) (retentionInterval : Option Nat)
    (boundaries : List Int) : Option (Nat → Bool) :=
  if g.cacheHitAlignmentTokens % g.blockSize ≠ 0 then none
  else
    let need := Lookup.contiguousBlocksForHit window g.blockSize g.useEagle
    let shift := if g.useEagle then 1 else 0
    let boundaryTail (i : Nat) : Bool :=
      retentionInterval.isSome && boundaries.any fun b =>
        let tailEnd : Int := g.alignBoundary b / g.blockSize + shift
        decide (tailEnd - need ≤ i ∧ (i : Int) < tailEnd)
    match retentionInterval with
    | some 0 => some boundaryTail
    | _ =>
      let perSegment := retentionInterval.getD g.cacheHitAlignmentTokens / g.blockSize
      if perSegment ≤ need then none
      else
        some fun i => decide (shift ≤ i ∧ perSegment - need ≤ (i - shift) % perSegment) ||
          boundaryTail i

/-- `MambaManager.reachable_block_mask`. -/
def mambaReachableBlockMask (retentionInterval : Option Nat) (boundaries : List Int)
    (startBlock : Nat) : Option (Nat → Bool) :=
  let boundaryBlock (i : Nat) : Bool :=
    boundaries.any fun b => g.alignBoundary b / g.blockSize - 1 == (i : Int)
  match retentionInterval with
  | none => none
  | some 0 => some boundaryBlock
  | some interval =>
    let perSegment := interval / g.blockSize
    if perSegment ≤ 1 then none
    else
      let firstBoundary := (startBlock + perSegment) / perSegment * perSegment - 1
      some fun i => decide (firstBoundary ≤ i ∧ (i - firstBoundary) % perSegment = 0) ||
        boundaryBlock i

/-- `reachable_block_mask`. -/
def reachableBlockMask (retentionInterval : Option Nat) (boundaries : List Int)
    (startBlock : Nat) : Option (Nat → Bool) :=
  match g.kind with
  | .slidingWindow window _ => slidingReachableBlockMask g window retentionInterval boundaries
  | .mamba _ => mambaReachableBlockMask g retentionInterval boundaries startBlock
  | _ => none

/-- `cache_blocks` of the base class. -/
def baseCacheBlocks (gid : Nat) (v : View R H) (req : Request R H) (a : CacheArgs) :
    Except Fault (View R H) :=
  if !g.prefixCacheable then .ok v
  else
    let r := req.requestId
    let numCachedBlocks := (v.mgr.numCachedBlock r).getD 0
    let numHashedTokens := req.blockHashes.length * v.pool.hashBlockSize
    let numFullBlocks := min a.numTokens numHashedTokens / g.blockSize
    if numFullBlocks ≤ numCachedBlocks then .ok v
    else
      let boundaries := reachableBoundaries g req.sharedPrefixBoundary a.replayBoundaries
      let mask := reachableBlockMask g a.retentionInterval boundaries numCachedBlocks
      (orFail (v.pool.cacheFullBlocks req.blockHashes (v.mgr.reqToBlocks r) numCachedBlocks
          numFullBlocks g.blockSize gid (mask.getD fun _ => true))).map fun p =>
        { pool := p
          mgr := { v.mgr with
            numCachedBlock := Function.update v.mgr.numCachedBlock r (some numFullBlocks) } }

section

omit [DecidableEq R]

/-- `block_pool.cache_partial_block`: the key, unless the block is null. -/
def View.cachePartialBlock (req : Request R H) (block numTokens gid blockSize : Nat)
    (replaceExistingHashes : Bool) : Except Fault (Option (Key H) × View R H) :=
  (orFail (v.pool.cachePartialBlock req.blockHashes block numTokens gid blockSize
      replaceExistingHashes)).map fun p =>
    let key := if (v.pool.blocks block).isNull then none
      else (req.blockHashes[numTokens / v.pool.hashBlockSize - 1]?).map fun h => ⟨h, gid⟩
    (key, { v with pool := p })

/-- `FullAttentionManager._cache_partial_tail_block`. -/
def fullCachePartialTailBlock (gid : Nat) (v : View R H) (req : Request R H)
    (numTokens : Nat) : Except Fault (View R H) :=
  let hashBlockSize := v.pool.hashBlockSize
  let tokenLimit := if g.useEagle then req.numPromptTokens else req.numPromptTokens - 1
  let boundaryTokens := min (tokenLimit / hashBlockSize) req.blockHashes.length * hashBlockSize
  if boundaryTokens = 0 ∨ numTokens < boundaryTokens ∨ boundaryTokens % g.blockSize = 0 then .ok v
  else
    match (v.mgr.reqToBlocks req.requestId)[boundaryTokens / g.blockSize]? with
    | none => .ok v
    | some block =>
      (v.cachePartialBlock req block boundaryTokens gid g.blockSize false).map (·.2)

end

/-- `FullAttentionManager.cache_blocks`. -/
def fullCacheBlocks (gid : Nat) (v : View R H) (req : Request R H) (a : CacheArgs) :
    Except Fault (View R H) :=
  (baseCacheBlocks g gid v req a).bind fun v =>
    if g.blockSize = v.pool.hashBlockSize then .ok v
    else fullCachePartialTailBlock g gid v req a.numTokens

/-! ## Giving blocks back -/

/-- `null_head_len`. The bisection starts behind the first block, which is null. -/
def nullHeadLen (isNull : Nat → Bool) (blocks : List Nat) : Nat :=
  if (blocks.head?.map isNull).getD false then
    let lo := bisectLoop (fun i => (blocks[i]?.map isNull).getD false) blocks.length 1 blocks.length
    if (blocks.take lo).all isNull then lo else blocks.findIdx (!isNull ·)
  else 0

/-- `trim_null_head`. -/
def trimNullHead (isNull : Nat → Bool) (blocks : List Nat) : List Nat :=
  blocks.drop (nullHeadLen isNull blocks)

omit [DecidableEq H] in
/-- `pop_blocks_for_free` of the base class. -/
def basePopBlocksForFree (r : R) : List Nat × View R H :=
  (trimNullHead (fun b => (v.pool.blocks b).isNull) (v.mgr.reqToBlocks r),
    { v with mgr := { v.mgr.setBlocks r [] with
      numCachedBlock := Function.update v.mgr.numCachedBlock r none
      partialHitReqs := Function.update v.mgr.partialHitReqs r none } })

/-- The loop of `_remove_blocks_in_range` over the indices, the last one first: the
blocks to free and the table after it. A null block ends the loop or, with
`skipNull`, is passed over. -/
def removeLoop (skipNull : Bool) : List Nat → List Nat → List Nat × List Nat
  | [], table => ([], table)
  | i :: is, table =>
    match table[i]? with
    | none => ([], table)
    | some b =>
      if b = nullBlock then
        if skipNull then removeLoop skipNull is table else ([], table)
      else
        let rest := removeLoop skipNull is (table.set i nullBlock)
        (b :: rest.1, rest.2)

section

omit [DecidableEq H]

/-- Free the blocks of a table in `firstBlock..lastBlock`, the last one first. -/
def View.freeRange (r : R) (skipNull : Bool) (firstBlock lastBlock : Nat) :
    Except Fault (View R H) :=
  let removed := removeLoop skipNull (List.range' firstBlock (lastBlock - firstBlock)).reverse
    (v.mgr.reqToBlocks r)
  let v := v.setBlocks r removed.2
  if removed.1.isEmpty then .ok v else v.freeBlocks removed.1

/-- `_remove_blocks_in_range` of the base class. -/
def baseRemoveBlocksInRange (r : R) (firstBlock lastBlock : Nat) : Except Fault (View R H) :=
  if lastBlock ≤ firstBlock then .ok v
  else v.freeRange r false firstBlock (min lastBlock (v.mgr.reqToBlocks r).length)

end

end Vllm.KVCache
