import Vllm.KVCache.Managers
import Vllm.Scheduler.AlignedSplit

/-!
# The Mamba manager and the methods by kind

The overrides of `MambaManager`. In the "align" mode a table holds one state per
block boundary that was kept, null blocks in between, and the block of the
running state with the speculative blocks at its end. At the end of the module
each method is chosen by the kind of the group.
-/

namespace Vllm.KVCache

open Library Pool
open Scheduler (getMambaPrefillCheckpointPosition isMambaPrefillCheckpointValid)

variable {R H : Type} [DecidableEq R] [DecidableEq H]

/-! ## Block counts -/

omit [DecidableEq R] [DecidableEq H] in
/-- `_needs_internal_checkpoint`. -/
def needsInternalCheckpoint (g : Group) (mp : MambaParams) (v : View R H) (r : R)
    (queryStart queryEnd checkpointPosition prefillEnd : Nat) : Bool :=
  let blocks := v.mgr.reqToBlocks r
  let checkpointIdx := cdiv queryEnd g.blockSize - 2
  mp.align && decide (0 < mp.numPrefillCheckpointBlocks) && decide (prefillEnd ≤ queryEnd) &&
    isMambaPrefillCheckpointValid queryStart queryEnd checkpointPosition v.pool.hashBlockSize
      g.blockSize mp.prefillCheckpointAlignment &&
    decide (2 ≤ cdiv queryEnd g.blockSize) &&
    (match blocks[checkpointIdx]? with
      | none => true
      | some b => (v.pool.blocks b).isNull ||
          (v.mgr.allocatedBlockReqs r &&
            decide (blocks.length ≤ checkpointIdx + mp.numSpeculativeBlocks)))

/-- The checkpoint that a call reserves a block for: its position and its place in
the table. -/
def reservedCheckpoint (g : Group) (mp : MambaParams) (numHashLookaheadTokens : Nat)
    (v : View R H) (r : R) (a : SlotArgs) : Option (Nat × Nat) :=
  let position := getMambaPrefillCheckpointPosition a.numTokensMainModel
    g.cacheHitAlignmentTokens g.dropEagleCheckpointBlock numHashLookaheadTokens
  if needsInternalCheckpoint g mp v r a.totalComputedTokens a.numTokensMainModel position
      a.prefillEnd = true ∧ 0 < position then
    some (position, cdiv a.numTokensMainModel g.blockSize - 2)
  else none

section

omit [DecidableEq R] [DecidableEq H]

/-- The hit ends inside a block, or the request registered its own tail. -/
def hasPartialHit (g : Group) (v : View R H) (r : R) (newComputedBlocks : List Nat)
    (a : SlotArgs) : Bool :=
  g.hasPartialLocalHit newComputedBlocks a.numLocalComputedTokens ||
    (v.mgr.partialHitReqs r).isSome

/-- The count of `get_num_blocks_to_allocate` in the "align" mode. Without a partial
hit it can be negative. -/
def alignNumBlocksToAllocate (g : Group) (mp : MambaParams) (v : View R H) (r : R)
    (newComputedBlocks : List Nat) (a : SlotArgs) (checkpointBlock : Nat) : Int :=
  let required := cdiv a.numTokensMainModel g.blockSize + mp.numSpeculativeBlocks
  let partialHit := hasPartialHit g v r newComputedBlocks a
  let cow : Nat := if partialHit then 1 else 0
  let missing : Int := required - newComputedBlocks.length - (v.mgr.reqToBlocks r).length
  let numNewBlocks : Int := if partialHit then max missing 0 + 1 else missing
  let cap : Nat := 1 + cow + checkpointBlock +
    if v.mgr.allocatedBlockReqs r then 0 else mp.numSpeculativeBlocks
  (if 0 < numNewBlocks then min numNewBlocks cap else numNewBlocks) +
    v.getNumEvictableBlocks newComputedBlocks

end

/-- `MambaManager.get_num_blocks_to_allocate`. -/
def mambaNumBlocksToAllocate (g : Group) (mp : MambaParams) (numHashLookaheadTokens : Nat)
    (v : View R H) (r : R) (newComputedBlocks : List Nat) (a : SlotArgs) :
    Except Fault (Int × View R H) :=
  let lastHash := newComputedBlocks.getLast?.bind fun b => (v.pool.blocks b).blockHash
  if lastHash.any (v.mgr.cachedBlocksThisStep.contains ·) then
    .ok (v.pool.numGpuBlocks + 1, v)
  else if !mp.align then
    (baseNumBlocksToAllocate g v r newComputedBlocks
      { a with numTokens := a.numTokens + g.blockSize * mp.numSpeculativeBlocks }).map
        fun n => (n, v)
  else
    let checkpoint := reservedCheckpoint g mp numHashLookaheadTokens v r a
    let v' := if a.applyAdmissionCap then v
      else { v with mgr := { v.mgr with
        checkpoints := Function.update v.mgr.checkpoints r checkpoint } }
    .ok (alignNumBlocksToAllocate g mp v r newComputedBlocks a (if checkpoint.isSome then 1 else 0),
      v')

/-! ## New blocks -/

section

omit [DecidableEq R] [DecidableEq H]

/-- `is_block_writable`. -/
def View.isBlockWritable (v : View R H) (b : Nat) : Bool :=
  !(v.pool.blocks b).isNull && (v.pool.blocks b).refCnt == 1 && (v.pool.blocks b).blockHash.isNone

/-- `_relocate_speculative_block`. -/
def relocateSpeculativeBlock (v : View R H) (table : List Nat) (blockIdx : Nat) :
    Except Fault (List Nat) :=
  match table[blockIdx]? with
  | none => .error .failed
  | some b =>
    if v.isBlockWritable b then .ok ((table ++ [b]).set blockIdx nullBlock) else .error .failed

/-- The loop over the speculative blocks that lie before `limit`. -/
def relocateLoop (v : View R H) (limit : Nat) : List Nat → List Nat → Except Fault (List Nat)
  | [], table => .ok table
  | i :: is, table =>
    if i < limit then (relocateSpeculativeBlock v table i).bind (relocateLoop v limit is)
    else .ok table

end

/-- Null blocks for the boundaries that a chunk skips. A checkpoint keeps the last of
these places. -/
def padSkippedBlocks (reqBlocks : List Nat) (numSkippedBlocks checkpointBlock : Nat) : List Nat :=
  if reqBlocks.length < numSkippedBlocks then
    reqBlocks ++
      List.replicate (numSkippedBlocks - checkpointBlock - reqBlocks.length) nullBlock
  else reqBlocks

/-- The table before new blocks are taken: null blocks for the boundaries that are
skipped, and the speculative blocks moved behind them. -/
def alignedTable (mp : MambaParams) (v : View R H) (r : R) (numRequiredBlocks : Nat)
    (checkpointBlock : Nat) : Except Fault (List Nat) :=
  let reqBlocks := v.mgr.reqToBlocks r
  let numSkippedBlocks := numRequiredBlocks - mp.numSpeculativeBlocks - 1
  let table := padSkippedBlocks reqBlocks numSkippedBlocks checkpointBlock
  if v.mgr.allocatedBlockReqs r then
    relocateLoop v (numSkippedBlocks - checkpointBlock)
      (List.range' (reqBlocks.length - mp.numSpeculativeBlocks) mp.numSpeculativeBlocks) table
  else .ok table

/-- The copy for a partial hit. A running request stays on the source and the hashes
move to the copy; a new one gets the copy in its table. -/
def alignedCow (v : View R H) (r : R) (blockIdx source cow : Nat) : Except Fault (View R H) :=
  if v.mgr.allocatedBlockReqs r then
    if (v.mgr.reqToBlocks r)[blockIdx]? ≠ some source then .error .failed
    else
      (orFail (v.pool.moveBlockHashes source cow)).bind fun p =>
        let m := v.mgr
        if (m.producerPartialTailReqs r).any (·.1 != source) then .error .failed
        else
          .ok { pool := p.setRefCnt source ((p.blocks source).refCnt + 1)
                mgr := { m with
                  pendingCowCopies := m.pendingCowCopies ++ [(source, cow)]
                  producerPartialTailReqs := Function.update m.producerPartialTailReqs r none
                  cachedBlocksThisStep :=
                    (p.blocks cow).blockHash.toList ++ m.cachedBlocksThisStep } }
  else applyCow v r blockIdx source cow

/-- The block that a partial hit needs for its copy. -/
def Manager.numCowBlocks (m : Manager R H) (r : R) : Nat :=
  if (m.partialHitReqs r).isSome then 1 else 0

/-- The block that is kept for the checkpoint of this step. -/
def Manager.numCheckpointBlocks (m : Manager R H) (r : R) : Nat :=
  if (m.checkpoints r).isSome then 1 else 0

/-- `max_new_blocks`: a new request also takes its speculative blocks. -/
def Manager.maxNewBlocks (m : Manager R H) (mp : MambaParams) (r : R) : Nat :=
  1 + m.numCowBlocks r + m.numCheckpointBlocks r +
    if m.allocatedBlockReqs r then 0 else mp.numSpeculativeBlocks

/-- Where the state of the last step is; the hit of a new request is in its last block. -/
def Manager.nextLastStateBlockIdx (m : Manager R H) (mp : MambaParams) (r : R) : Option Nat :=
  let prevBlockLen := (m.reqToBlocks r).length
  if m.allocatedBlockReqs r then some (prevBlockLen - 1 - mp.numSpeculativeBlocks)
  else if 0 < prevBlockLen then some (prevBlockLen - 1)
  else m.lastStateBlockIdx r

/-- The end of `allocate_new_blocks`: the other new blocks go to the end of the table. -/
def View.appendNewBlocks (v : View R H) (r : R) (newBlocks : List Nat) : View R H :=
  let m := v.mgr.setBlocks r (v.mgr.reqToBlocks r ++ newBlocks)
  { v with mgr := { m with
    allocatedBlockReqs := Function.update m.allocatedBlockReqs r true
    partialHitReqs := Function.update m.partialHitReqs r none } }

/-- The part of `allocate_new_blocks` after `get_new_blocks`. The first new block is the
copy of a partial hit. -/
def placeNewBlocks (v : View R H) (r : R) (returned newBlocks : List Nat) :
    Except Fault (List Nat × View R H) :=
  match v.mgr.partialHitReqs r, newBlocks with
  | none, newBlocks => .ok (returned ++ newBlocks, v.appendNewBlocks r newBlocks)
  | some _, [] => .error .failed
  | some (blockIdx, source), cow :: newBlocks =>
    let returned := if v.mgr.allocatedBlockReqs r then returned else cow :: returned
    (alignedCow v r blockIdx source cow).map fun v =>
      (returned ++ newBlocks, v.appendNewBlocks r newBlocks)

/-- `MambaManager.allocate_new_blocks` in the "align" mode. -/
def alignAllocateNewBlocks (g : Group) (mp : MambaParams) (v : View R H) (r : R)
    (numTokensMainModel : Nat) : Except Fault (List Nat × View R H) :=
  let m := v.mgr
  let prevBlockLen := (m.reqToBlocks r).length
  let numRequiredBlocks := cdiv numTokensMainModel g.blockSize + mp.numSpeculativeBlocks
  if numRequiredBlocks ≤ prevBlockLen ∧ m.partialHitReqs r = none ∧ m.checkpoints r = none then
    .ok ([], { v with mgr := { m with
      allocatedBlockReqs := Function.update m.allocatedBlockReqs r true } })
  else
    (alignedTable mp v r numRequiredBlocks (m.numCheckpointBlocks r)).bind fun table =>
      let numNewBlocks := numRequiredBlocks - table.length + m.numCowBlocks r
      if m.maxNewBlocks mp r < numNewBlocks then .error .failed
      else
        let v := { v with mgr := { m.setBlocks r table with
          lastStateBlockIdx :=
            Function.update m.lastStateBlockIdx r (m.nextLastStateBlockIdx mp r) } }
        (v.getNewBlocks numNewBlocks).bind fun new =>
          placeNewBlocks new.2 r (table.drop prevBlockLen) new.1

/-- `MambaManager.allocate_new_blocks`. -/
def mambaAllocateNewBlocks (g : Group) (mp : MambaParams) (v : View R H) (r : R)
    (numTokens numTokensMainModel : Nat) : Except Fault (List Nat × View R H) :=
  if !mp.align then
    baseAllocateNewBlocks g v r (numTokens + g.blockSize * mp.numSpeculativeBlocks)
  else alignAllocateNewBlocks g mp v r numTokensMainModel

/-! ## Giving blocks back -/

section

omit [DecidableEq H]

/-- `MambaManager._remove_blocks_in_range`. In the "align" mode the tables have null
gaps, so the loop passes over null blocks and remembers how far it got. -/
def mambaRemoveBlocksInRange (mp : MambaParams) (v : View R H) (r : R)
    (firstBlock lastBlock : Nat) : Except Fault (View R H) :=
  if !mp.align then baseRemoveBlocksInRange v r firstBlock lastBlock
  else
    let firstBlock := max firstBlock (v.mgr.numRetiredBlocks r)
    let lastBlock := min lastBlock (v.mgr.reqToBlocks r).length
    if lastBlock ≤ firstBlock then .ok v
    else
      (v.freeRange r true firstBlock lastBlock).map fun v =>
        { v with mgr := { v.mgr with
          numRetiredBlocks := Function.update v.mgr.numRetiredBlocks r lastBlock } }

/-- `remove_skipped_blocks` of the base class, with the method that frees a range. -/
def baseRemoveSkippedBlocks (g : Group) (v : View R H) (r : R) (processedComputedTokens : Nat)
    (removeBlocksInRange : View R H → R → Nat → Nat → Except Fault (View R H)) :
    Except Fault (View R H) :=
  let numSkippedTokens := g.kind.getNumSkippedTokens processedComputedTokens
  if numSkippedTokens = 0 then .ok v
  else
    removeBlocksInRange v r 0
      (min (numSkippedTokens / g.blockSize) (v.mgr.reqToBlocks r).length)

/-- The last lines of `MambaManager.remove_skipped_blocks`: the state block of two
steps ago. -/
def removeLastState (g : Group) (v : View R H) (r : R) (processedComputedTokens : Nat) :
    Except Fault (View R H) :=
  match v.mgr.lastStateBlockIdx r with
  | none => .ok v
  | some idx =>
    if idx + 1 < cdiv processedComputedTokens g.blockSize then
      match (v.mgr.reqToBlocks r)[idx]? with
      | none => .error .failed
      | some b =>
        if b = nullBlock then .ok v
        else
          (v.freeBlocks [b]).map fun v => v.setBlocks r ((v.mgr.reqToBlocks r).set idx nullBlock)
    else .ok v

/-- `MambaManager.remove_skipped_blocks`. -/
def mambaRemoveSkippedBlocks (g : Group) (mp : MambaParams) (v : View R H) (r : R)
    (processedComputedTokens : Nat) : Except Fault (View R H) :=
  (baseRemoveSkippedBlocks g v r processedComputedTokens (mambaRemoveBlocksInRange mp)).bind
    fun v => if mp.align then removeLastState g v r processedComputedTokens else .ok v

/-- `MambaManager.pop_blocks_for_free`. -/
def mambaPopBlocksForFree (mp : MambaParams) (v : View R H) (r : R) : List Nat × View R H :=
  let m := v.mgr
  basePopBlocksForFree
    (if mp.align then
      { v with mgr := { m with
        allocatedBlockReqs := Function.update m.allocatedBlockReqs r false
        lastStateBlockIdx := Function.update m.lastStateBlockIdx r none
        numRetiredBlocks := Function.update m.numRetiredBlocks r 0
        checkpoints := Function.update m.checkpoints r none
        producerPartialTailReqs := Function.update m.producerPartialTailReqs r none } }
    else v) r

end

/-! ## Hashing -/

section Caching

variable (g : Group) (gid numHashLookaheadTokens : Nat) (v : View R H) (req : Request R H)
  (a : CacheArgs)

/-- The checkpoint of this step is kept: it is the prompt's own, it is on a boundary
that retention keeps, or it is the junction. -/
def keepsCheckpoint (checkpointPosition : Nat) : Bool :=
  let isPromptCheckpoint := checkpointPosition == getMambaPrefillCheckpointPosition
    req.numPromptTokens g.cacheHitAlignmentTokens g.dropEagleCheckpointBlock
    numHashLookaheadTokens
  let blockIdx := checkpointPosition / g.blockSize - 1
  let isRetainedCheckpoint := decide (checkpointPosition % g.blockSize = 0) &&
    ((mambaReachableBlockMask g a.retentionInterval [] blockIdx).getD fun _ => true) blockIdx
  isPromptCheckpoint || isRetainedCheckpoint ||
    checkpointPosition == req.sharedPrefixBoundary

/-- The part of `_cache_partial_tail_block` for the checkpoint of this step: the block
gets the key of the checkpoint in place of its keys, or loses them. -/
def cacheCheckpoint (checkpointPosition checkpointIdx : Nat) :
    Except Fault (Option (Key H) × View R H) :=
  match (v.mgr.reqToBlocks req.requestId)[checkpointIdx]? with
  | none => .error .failed
  | some b =>
    if !keepsCheckpoint g numHashLookaheadTokens req a checkpointPosition then
      .ok (none, { v with pool := (v.pool.removeCachedBlockHashes b).2 })
    else if (v.pool.blocks b).blockHashNumTokens = some checkpointPosition then .ok (none, v)
    else v.cachePartialBlock req b checkpointPosition gid g.blockSize true

/-- The position is where the prompt's state is kept, or the junction inside the
prompt chunk that is computed. -/
def isTailBoundary : Bool :=
  let latestPromptHashBoundary := getMambaPrefillCheckpointPosition req.numPromptTokens
    v.pool.hashBlockSize g.dropEagleCheckpointBlock numHashLookaheadTokens
  a.numTokens == latestPromptHashBoundary ||
    (g.sharedPrefixCheckpoint && a.numTokens == req.sharedPrefixBoundary &&
      decide (req.numComputedTokens < a.numTokens ∧ a.numTokens ≤ req.numPromptTokens))

/-- `MambaManager._cache_partial_tail_block`: the key that was registered. -/
def mambaCachePartialTailBlock : Except Fault (Option (Key H) × View R H) :=
  let r := req.requestId
  let numTokens := a.numTokens
  match v.mgr.checkpoints r with
  | some (position, idx) => cacheCheckpoint g gid numHashLookaheadTokens v req a position idx
  | none =>
    if numTokens = 0 ∨ numTokens % v.pool.hashBlockSize ≠ 0 ∨
        isTailBoundary g numHashLookaheadTokens v req a = false then .ok (none, v)
    else
      let blockIdx := cdiv numTokens g.blockSize - 1
      match (v.mgr.reqToBlocks r)[blockIdx]? with
      | none => .ok (none, v)
      | some source =>
        if (v.pool.blocks source).isNull = true ∨
            (v.pool.blocks source).blockHashNumTokens = some numTokens then .ok (none, v)
        else
          (v.cachePartialBlock req source numTokens gid g.blockSize false).map fun res =>
            let m := res.2.mgr
            if res.1.isSome ∧ numTokens % g.blockSize ≠ 0 then
              (res.1, { res.2 with mgr := { m with
                partialHitReqs := Function.update m.partialHitReqs r (some (blockIdx, source))
                numCachedBlock := Function.update m.numCachedBlock r (some blockIdx)
                producerPartialTailReqs := Function.update m.producerPartialTailReqs r
                  (some (source, numTokens)) } })
            else res

/-- `MambaManager.cache_blocks`. The keys that were registered are remembered: another
request cannot use them in this step. -/
def mambaCacheBlocks (mp : MambaParams) : Except Fault (View R H) :=
  let r := req.requestId
  let before := (v.mgr.numCachedBlock r).getD 0
  (baseCacheBlocks g gid v req a).bind fun v =>
    let after := (v.mgr.numCachedBlock r).getD 0
    let tail := if mp.align then
        mambaCachePartialTailBlock g gid numHashLookaheadTokens v req a
      else .ok (none, v)
    tail.map fun tail =>
      let v := tail.2
      let newBlocks := ((v.mgr.reqToBlocks r).take after).drop before
      let newKeys := newBlocks.filterMap fun b =>
        if (v.pool.blocks b).isNull then none else (v.pool.blocks b).blockHash
      { v with mgr := { v.mgr with
        cachedBlocksThisStep := newKeys ++ tail.1.toList ++ v.mgr.cachedBlocksThisStep } }

end Caching

/-! ## The methods by kind -/

section Methods

variable (enableCaching : Bool) (g : Group) (gid numHashLookaheadTokens : Nat) (v : View R H)

/-- `get_num_blocks_to_allocate`. -/
def getNumBlocksToAllocate (r : R) (newComputedBlocks : List Nat) (a : SlotArgs) :
    Except Fault (Int × View R H) :=
  match g.kind with
  | .mamba mp => mambaNumBlocksToAllocate g mp numHashLookaheadTokens v r newComputedBlocks a
  | _ => (baseNumBlocksToAllocate g v r newComputedBlocks a).map fun n => (n, v)

/-- `add_local_computed_blocks`. -/
def addLocalComputedBlocks (r : R) (newComputedBlocks : List Nat) (numLocal numExternal : Nat) :
    Except Fault (View R H) :=
  match g.kind with
  | .crossAttention => if newComputedBlocks.isEmpty then .ok v else .error .failed
  | _ => baseAddLocalComputedBlocks enableCaching g v r newComputedBlocks numLocal numExternal

/-- `allocate_external_computed_blocks`. -/
def allocateExternalComputedBlocks (r : R) (numLocal numExternal : Nat) :
    Except Fault (View R H) :=
  match g.kind with
  | .crossAttention => .ok v
  | _ => baseAllocateExternalComputedBlocks g v r numLocal numExternal

/-- `allocate_new_blocks`. -/
def allocateNewBlocks (r : R) (numTokens numTokensMainModel : Nat) :
    Except Fault (List Nat × View R H) :=
  match g.kind with
  | .mamba mp => mambaAllocateNewBlocks g mp v r numTokens numTokensMainModel
  | _ => baseAllocateNewBlocks g v r numTokens

/-- `cache_blocks`. -/
def cacheBlocks (req : Request R H) (a : CacheArgs) : Except Fault (View R H) :=
  match g.kind with
  | .fullAttention => fullCacheBlocks g gid v req a
  | .mamba mp => mambaCacheBlocks g gid numHashLookaheadTokens v req a mp
  | .crossAttention => .error .failed
  | _ => baseCacheBlocks g gid v req a

section

omit [DecidableEq H]

/-- `remove_skipped_blocks`. -/
def removeSkippedBlocks (r : R) (processedComputedTokens : Nat) : Except Fault (View R H) :=
  match g.kind with
  | .mamba mp => mambaRemoveSkippedBlocks g mp v r processedComputedTokens
  | _ => baseRemoveSkippedBlocks g v r processedComputedTokens baseRemoveBlocksInRange

/-- `pop_blocks_for_free`. -/
def popBlocksForFree (r : R) : List Nat × View R H :=
  match g.kind with
  | .mamba mp => mambaPopBlocksForFree mp v r
  | _ => basePopBlocksForFree v r

/-- `free`: the tail of the table is freed first. -/
def freeRequest (r : R) : Except Fault (View R H) :=
  let popped := popBlocksForFree g v r
  popped.2.freeBlocks popped.1.reverse

end

end Methods

omit [DecidableEq R] [DecidableEq H] in
/-- `new_step_starts`. -/
def Manager.newStepStarts (m : Manager R H) (g : Group) : Manager R H :=
  match g.kind with
  | .mamba _ => { m with cachedBlocksThisStep := [] }
  | _ => m

end Vllm.KVCache
