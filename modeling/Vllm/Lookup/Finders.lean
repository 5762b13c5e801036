import Vllm.Library.CeilDiv
import Vllm.Library.Search
import Vllm.Pool.Basic

/-!
# The prefix lookups of the cache managers

`find_longest_cache_hit` of the managers in
`v1/core/single_type_kv_cache_manager.py`. A lookup serves several KV cache
groups of one spec at once; what it finds for one block of the table is a *row*
with one block for each of the groups. The source keeps one list of blocks for
each group, which are the columns of the rows here. A lookup that raises (an
index past the hashes, a failed assertion) returns `none`.

Block sizes are those of the managers, that is, already scaled by the context
parallel world size.
-/

namespace Vllm.Lookup

open Library Pool

variable {H : Type} (p : BlockPool H)

/-! ## Views of the block hashes -/

/-- The blocks found for one position of the table, one for each group. -/
abbrev Row := List Nat

/-- The null block of the pool for each group. -/
def nullRow (groupIds : List Nat) : Row := groupIds.map fun _ => 0

/-- Whether lookups may end inside a block. -/
def fineGrained (alignmentTokens blockSize : Nat) : Bool :=
  decide (alignmentTokens < blockSize ∧ blockSize % alignmentTokens = 0)

/-- `resolve_block_hashes`: how many hashes of the list make up one entry of the
view, 1 for the list itself. -/
def resolveScale (hashBlockSize blockSize : Nat) (supportsFineGrained : Bool)
    (alignmentTokens : Nat) : Nat :=
  if blockSize = hashBlockSize then 1
  else if supportsFineGrained && fineGrained alignmentTokens blockSize then 1
  else blockSize / hashBlockSize

/-- Entry `i` of a view, looked up in the pool; `none` is an index error. -/
def lookup (blockHashes : List H) (groupIds : List Nat) (scaleFactor i : Nat) :
    Option (Option Row) :=
  (blockHashes[(i + 1) * scaleFactor - 1]?).map fun h => p.getCachedBlock h groupIds

/-! ## Full attention -/

/-- The cached blocks from index `i` on, up to the first miss or the end of the
view. -/
def cachedRun (look : Nat → Option (Option Row)) : Nat → Nat → List Row
  | 0, _ => []
  | n + 1, i =>
    match (look i).join with
    | none => []
    | some row => row :: cachedRun look n (i + 1)

/-- The second phase: the first block that is not cached in full is probed at
the hash boundaries inside it, from the last one down. -/
def extendTail (look : Nat → Option (Option Row)) (maxLength numHashes blockSize
    alignmentTokens : Nat) (run : List Row) : List Row × Nat :=
  let scaleFactor := blockSize / alignmentTokens
  let firstPartialIdx := run.length * scaleFactor
  let maxPartialIdx :=
    min (min (firstPartialIdx + scaleFactor - 1) (maxLength / alignmentTokens)) numHashes
  match searchDown (fun j => (look (firstPartialIdx + j)).join)
      (maxPartialIdx - firstPartialIdx) with
  | some (j, row) => (run ++ [row], (firstPartialIdx + j + 1) * alignmentTokens)
  | none => (run, run.length * blockSize)

/-- Both phases: the rows and the length they cover. -/
def fullAttentionFound (blockHashes : List H) (maxLength : Nat)
    (groupIds : List Nat) (blockSize alignmentTokens : Nat) : List Row × Nat :=
  let fine := fineGrained alignmentTokens blockSize
  let fullScale :=
    if fine then blockSize / alignmentTokens
    else resolveScale p.hashBlockSize blockSize true alignmentTokens
  let run := cachedRun (lookup p blockHashes groupIds fullScale) (maxLength / blockSize) 0
  if fine then
    extendTail (lookup p blockHashes groupIds 1) maxLength blockHashes.length blockSize
      alignmentTokens run
  else (run, run.length * blockSize)

/-- `FullAttentionManager.find_longest_cache_hit`. -/
def fullAttentionHit (blockHashes : List H) (maxLength : Nat)
    (groupIds : List Nat) (blockSize : Nat) (dropEagleBlock : Bool) (alignmentTokens : Nat) :
    List Row × Nat :=
  let found := fullAttentionFound p blockHashes maxLength groupIds blockSize alignmentTokens
  let dropped :=
    if dropEagleBlock && decide (0 < found.2) then found.2 - min alignmentTokens blockSize
    else found.2
  let hitLength := dropped - dropped % alignmentTokens
  (found.1.take (cdiv hitLength blockSize), hitLength)

/-! ## Sliding window -/

/-- `_contiguous_blocks_for_hit`. -/
def contiguousBlocksForHit (windowSize blockSize : Nat) (useEagle : Bool) : Nat :=
  cdiv (windowSize - 1) blockSize + if useEagle then 1 else 0

/-- A hit of this many blocks ends on the alignment. -/
def BlocksAligned (blockSize alignmentTokens numBlocks : Nat) : Prop :=
  blockSize = alignmentTokens ∨ numBlocks * blockSize % alignmentTokens = 0

instance (blockSize alignmentTokens : Nat) :
    DecidablePred (BlocksAligned blockSize alignmentTokens) := fun numBlocks =>
  inferInstanceAs (Decidable (blockSize = alignmentTokens ∨
    numBlocks * blockSize % alignmentTokens = 0))

/-- The scan from right to left over the blocks below `i`: whether a match was
found, the length of the run it ended with, and the rows. -/
def slidingScan (look : Nat → Option (Option Row)) (blockSize alignmentTokens
    contiguousBlocks : Nat) (dropEagleBlock : Bool) :
    Nat → Nat → List Row → Option (Bool × Nat × List Row)
  | 0, numContiguous, computed => some (false, numContiguous, computed)
  | i + 1, numContiguous, computed =>
    match look i with
    | none => none
    | some none =>
      slidingScan look blockSize alignmentTokens contiguousBlocks dropEagleBlock i 0 computed
    | some (some row) =>
      let postPopBlocks := if dropEagleBlock then i else i + 1
      if numContiguous = 0 ∧ ¬ BlocksAligned blockSize alignmentTokens postPopBlocks then
        -- a run must end on the alignment, so the block is passed over
        slidingScan look blockSize alignmentTokens contiguousBlocks dropEagleBlock i
          numContiguous computed
      else if contiguousBlocks ≤ numContiguous + 1 then
        some (true, numContiguous + 1, (computed.set i row).take (i + (numContiguous + 1)))
      else
        slidingScan look blockSize alignmentTokens contiguousBlocks dropEagleBlock i
          (numContiguous + 1) (computed.set i row)

/-- The loops that pop blocks until the hit is aligned. -/
def popUnaligned (blockSize alignmentTokens : Nat) (computed : List Row) : List Row :=
  computed.take (Nat.findGreatest (BlocksAligned blockSize alignmentTokens) computed.length)

/-- `SlidingWindowManager.find_longest_cache_hit`. -/
def slidingWindowHit (blockHashes : List H) (maxLength : Nat)
    (groupIds : List Nat) (blockSize slidingWindow : Nat) (dropEagleBlock : Bool)
    (alignmentTokens : Nat) : Option (List Row × Nat) :=
  let look := lookup p blockHashes groupIds
    (resolveScale p.hashBlockSize blockSize false alignmentTokens)
  let maxNumBlocks := maxLength / blockSize
  (slidingScan look blockSize alignmentTokens
    (contiguousBlocksForHit slidingWindow blockSize dropEagleBlock) dropEagleBlock maxNumBlocks 0
    (List.replicate maxNumBlocks (nullRow groupIds))).map fun r =>
      let computed :=
        if r.1 then r.2.2 else popUnaligned blockSize alignmentTokens (r.2.2.take r.2.1)
      let computed :=
        if dropEagleBlock && !computed.isEmpty then
          popUnaligned blockSize alignmentTokens computed.dropLast
        else computed
      (computed, computed.length * blockSize)

/-! ## Chunked local attention -/

/-- `ChunkedLocalAttentionManager.find_longest_cache_hit`. -/
def chunkedLocalHit (blockHashes : List H) (maxLength : Nat)
    (groupIds : List Nat) (blockSize attentionChunkSize : Nat) (dropEagleBlock : Bool)
    (alignmentTokens : Nat) : Option (List Row × Nat) :=
  if dropEagleBlock ∨ blockSize ≠ alignmentTokens then none
  else
    let look := lookup p blockHashes groupIds
      (resolveScale p.hashBlockSize blockSize false alignmentTokens)
    let maxNumBlocks := maxLength / blockSize
    let startBlock := maxLength / attentionChunkSize * attentionChunkSize / blockSize
    let run := cachedRun look (maxNumBlocks - startBlock) startBlock
    -- the loop stops at a miss but raises at an index past the hashes
    if run.length < maxNumBlocks - startBlock ∧ look (startBlock + run.length) = none then none
    else
      let computed := List.replicate startBlock (nullRow groupIds) ++ run
      some (computed, computed.length * blockSize)

/-! ## Mamba -/

/-- The rows of a state: null blocks before the block that holds it. -/
def stateRows (groupIds : List Nat) (blockIdx : Nat) (row : Row) : List Row :=
  List.replicate blockIdx (nullRow groupIds) ++ [row]

/-- `MambaManager.find_longest_cache_hit`; it never drops a block. -/
def mambaHit (blockHashes : List H) (maxLength : Nat)
    (groupIds : List Nat) (blockSize : Nat) (alignmentTokens : Nat) :
    Option (List Row × Nat) :=
  if fineGrained alignmentTokens blockSize then
    let maxNumPartialUnits := min (maxLength / alignmentTokens) blockHashes.length
    match searchDown (fun i => (lookup p blockHashes groupIds 1 i).join) maxNumPartialUnits with
    | some (fineIdx, row) =>
      some (stateRows groupIds (fineIdx / (blockSize / alignmentTokens)) row,
        (fineIdx + 1) * alignmentTokens)
    | none => some ([], 0)
  else
    let look := lookup p blockHashes groupIds
      (resolveScale p.hashBlockSize blockSize true alignmentTokens)
    let maxNumBlocks := maxLength / blockSize
    -- the scan starts at the last block, the only index that can be past the hashes
    if 0 < maxNumBlocks ∧ look (maxNumBlocks - 1) = none then none
    else
      match searchDown (fun i =>
          if BlocksAligned blockSize alignmentTokens (i + 1) then (look i).join else none)
          maxNumBlocks with
      | some (i, row) => some (stateRows groupIds i row, (i + 1) * blockSize)
      | none => some ([], 0)

end Vllm.Lookup
