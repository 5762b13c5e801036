import Vllm.Library.LinkedQueue

/-!
# The block pool

`BlockPool` (`v1/core/block_pool.py`) owns all KV cache blocks. It keeps three
structures beside the blocks: the queue of free blocks in eviction order, the
map from hash keys to cached blocks, and for each block the keys it is cached
under besides its own. Events, metrics and reuse callbacks do not change the
pool and are left out. A call that raises returns `none`.
-/

namespace Vllm.Pool

open Library

/-- `BlockHashWithGroupId`: the digest of a prefix and the KV cache group. -/
structure Key (H : Type) where
  blockHash : H
  groupId : Nat
  deriving DecidableEq, Repr

/-- A block is named by its id; its place in the free queue is kept in the
queue. -/
structure KVCacheBlock (H : Type) where
  refCnt : Nat
  blockHash : Option (Key H)
  blockHashNumTokens : Option Nat
  isNull : Bool

/-! ## The map from keys to blocks -/

/-- What a key is mapped to: mostly one block, else a dictionary of blocks in
insertion order. -/
inductive CachedBlocks where
  | single (blockId : Nat)
  | dict (blockIds : List Nat)
  deriving DecidableEq, Repr

/-- Python's `d[b] = ...` on the ids of a dictionary. -/
def dictInsert (bs : List Nat) (b : Nat) : List Nat :=
  if b ∈ bs then bs else bs ++ [b]

/-- `BlockHashToBlockMap`. -/
structure BlockHashToBlockMap (H : Type) where
  cache : Key H → Option CachedBlocks

namespace BlockHashToBlockMap

variable {H : Type} [DecidableEq H] (m : BlockHashToBlockMap H)

def empty : BlockHashToBlockMap H := ⟨fun _ => none⟩

def getOneBlock (key : Key H) : Option Nat :=
  match m.cache key with
  | none => none
  | some (.single b) => some b
  | some (.dict bs) => bs.head?

def contain (key : Key H) (blockId : Nat) : Bool :=
  match m.cache key with
  | none => false
  | some (.single b) => b == blockId
  | some (.dict bs) => bs.contains blockId

def insert (key : Key H) (blockId : Nat) : BlockHashToBlockMap H :=
  let blocks := match m.cache key with
    | none => .single blockId
    | some (.single b) => .dict (dictInsert [b] blockId)
    | some (.dict bs) => .dict (dictInsert bs blockId)
  ⟨Function.update m.cache key (some blocks)⟩

/-- Returns the popped block and the map after it. -/
def pop (key : Key H) (blockId : Nat) : Option Nat × BlockHashToBlockMap H :=
  match m.cache key with
  | none => (none, m)
  | some (.single b) =>
    if b = blockId then (some b, ⟨Function.update m.cache key none⟩) else (none, m)
  | some (.dict bs) =>
    let rest := bs.filter (· ≠ blockId)
    (if blockId ∈ bs then some blockId else none,
      ⟨Function.update m.cache key (if rest.isEmpty then none else some (.dict rest))⟩)

end BlockHashToBlockMap

/-! ## The pool -/

structure BlockPool (H : Type) where
  numGpuBlocks : Nat
  enableCaching : Bool
  hashBlockSize : Nat
  blocks : Nat → KVCacheBlock H
  freeBlockQueue : LinkedQueue Nat
  cachedBlockHashToBlock : BlockHashToBlockMap H
  cachedBlockHashesByBlock : Nat → Option (List (Key H))

namespace BlockPool

variable {H : Type} [DecidableEq H] (p : BlockPool H)

/-- Replace the block with this id. -/
def setBlock (b : Nat) (blk : KVCacheBlock H) : BlockPool H :=
  { p with blocks := Function.update p.blocks b blk }

/-- The pool after `__init__`: the first block of the queue becomes the null
block. -/
def init (numGpuBlocks : Nat) (enableCaching : Bool) (hashBlockSize : Nat) :
    Option (BlockPool H) :=
  (LinkedQueue.ofList (List.range numGpuBlocks)).popleft.map fun r =>
    { numGpuBlocks, enableCaching, hashBlockSize
      blocks := fun b => ⟨0, none, none, b == r.1⟩
      freeBlockQueue := r.2
      cachedBlockHashToBlock := .empty
      cachedBlockHashesByBlock := fun _ => none }

def getNumFreeBlocks : Nat := p.freeBlockQueue.size

/-! ### Hashes -/

/-- `get_cached_block`: the first block cached under the hash for each of the
groups, if every group has one. -/
def getCachedBlock (blockHash : H) (groupIds : List Nat) : Option (List Nat) :=
  groupIds.mapM fun g => p.cachedBlockHashToBlock.getOneBlock ⟨blockHash, g⟩

/-- The loop of `_remove_cached_block_hashes`. -/
def popHashes (m : BlockHashToBlockMap H) (b : Nat) :
    List (Key H) → List (Key H) × BlockHashToBlockMap H
  | [] => ([], m)
  | key :: keys =>
    let popped := m.pop key b
    let rest := popHashes popped.2 b keys
    (if popped.1.isSome then key :: rest.1 else rest.1, rest.2)

/-- The keys that a block says it is cached under. -/
def blockKeys (b : Nat) : List (Key H) :=
  (p.blocks b).blockHash.toList ++ (p.cachedBlockHashesByBlock b).getD []

/-- `_remove_cached_block_hashes`: returns the keys that were in the map. The
secondary keys are a set in the source; here they are in insertion order. -/
def removeCachedBlockHashes (b : Nat) : List (Key H) × BlockPool H :=
  let keys := p.blockKeys b
  let byBlock := Function.update p.cachedBlockHashesByBlock b none
  if keys.isEmpty then ([], { p with cachedBlockHashesByBlock := byBlock })
  else
    let popped := popHashes p.cachedBlockHashToBlock b keys
    let p' := { p with cachedBlockHashesByBlock := byBlock, cachedBlockHashToBlock := popped.2 }
    (popped.1,
      p'.setBlock b { p.blocks b with blockHash := none, blockHashNumTokens := none })

/-- `_insert_block_hash`, with the assertion of `set_block_hash`. -/
def insertBlockHash (key : Key H) (b : Nat) (numTokens : Option Nat) : Option (BlockPool H) :=
  if (p.blocks b).blockHash = some key then some p
  else if p.cachedBlockHashToBlock.contain key b then some p
  else
    let m := p.cachedBlockHashToBlock.insert key b
    match (p.blocks b).blockHash with
    | none =>
      if (p.blocks b).blockHashNumTokens.isSome then none
      else some ({ p with cachedBlockHashToBlock := m }.setBlock b
        { p.blocks b with blockHash := some key, blockHashNumTokens := numTokens })
    | some _ =>
      let keys := (p.cachedBlockHashesByBlock b).getD []
      some { p with
        cachedBlockHashToBlock := m
        cachedBlockHashesByBlock := Function.update p.cachedBlockHashesByBlock b
          (some (if key ∈ keys then keys else keys ++ [key])) }

/-- `BlockHashListWithBlockSize._get_value_at`: the hash of block `i` of
`blockSize` tokens. -/
def blockHashAt (blockHashes : List H) (hashBlockSize blockSize i : Nat) : Option H :=
  blockHashes[(i + 1) * (blockSize / hashBlockSize) - 1]?

/-- The loop of `cache_full_blocks` from the block at `i` on. -/
def cacheFullLoop (blockHashes : List H) (blockSize groupId : Nat) (mask : Nat → Bool) :
    Nat → List Nat → BlockPool H → Option (BlockPool H)
  | _, [], p => some p
  | i, b :: rest, p =>
    if (p.blocks b).isNull || !mask i then
      cacheFullLoop blockHashes blockSize groupId mask (i + 1) rest p
    else
      (blockHashAt blockHashes p.hashBlockSize blockSize i).bind fun h =>
        let numHashTokens := (i + 1) * blockSize
        let promoted :=
          match (p.blocks b).blockHash with
          | none => some p
          | some _ =>
            match (p.blocks b).blockHashNumTokens with
            | none => none
            | some n => if n < numHashTokens then some (p.removeCachedBlockHashes b).2 else none
        promoted.bind fun p =>
          (p.insertBlockHash ⟨h, groupId⟩ b (some numHashTokens)).bind fun p =>
            cacheFullLoop blockHashes blockSize groupId mask (i + 1) rest p

/-- `cache_full_blocks`. `mask i` is the entry of the mask for the block at
index `i` of the table. -/
def cacheFullBlocks (blockHashes : List H) (blocks : List Nat)
    (numCachedBlocks numFullBlocks blockSize groupId : Nat) (mask : Nat → Bool) :
    Option (BlockPool H) :=
  if numFullBlocks ≤ numCachedBlocks then some p
  else if blockSize % p.hashBlockSize ≠ 0 then none
  else
    cacheFullLoop blockHashes blockSize groupId mask numCachedBlocks
      ((blocks.take numFullBlocks).drop numCachedBlocks) p

/-- The block has an own hash that covers fewer tokens. -/
def ownHashShorter (b numTokens : Nat) : Bool :=
  match (p.blocks b).blockHash, (p.blocks b).blockHashNumTokens with
  | some _, some n => decide (n < numTokens)
  | _, _ => false

/-- `cache_partial_block`. -/
def cachePartialBlock (blockHashes : List H) (b numTokens groupId
    blockSize : Nat) (replaceExistingHashes : Bool) : Option (BlockPool H) :=
  if (p.blocks b).isNull then some p
  else if blockSize % p.hashBlockSize ≠ 0 ∨ numTokens % p.hashBlockSize ≠ 0 ∨ numTokens = 0 then
    none
  else
    (blockHashes[numTokens / p.hashBlockSize - 1]?).bind fun h =>
      let key : Key H := ⟨h, groupId⟩
      let alreadyCached := decide ((p.blocks b).blockHash = some key) ||
        p.cachedBlockHashToBlock.contain key b
      let p :=
        if replaceExistingHashes then (p.removeCachedBlockHashes b).2
        else if !alreadyCached && p.ownHashShorter b numTokens then
          (p.removeCachedBlockHashes b).2
        else p
      p.insertBlockHash key b (some numTokens)

/-- `move_block_hashes`. -/
def moveBlockHashes (src dst : Nat) : Option (BlockPool H) :=
  if (p.blocks dst).blockHash.isSome ∨ (p.cachedBlockHashesByBlock dst).isSome then none
  else
    let numTokens := (p.blocks src).blockHashNumTokens
    let removed := p.removeCachedBlockHashes src
    removed.1.foldlM (fun p key => p.insertBlockHash key dst numTokens) removed.2

/-- `evict_blocks`. -/
def evictBlocks (blockIds : List Nat) : Option (BlockPool H) :=
  if ∀ b ∈ blockIds, b < p.numGpuBlocks then
    some (blockIds.foldl (fun p b => (p.removeCachedBlockHashes b).2) p)
  else none

/-- `reset_prefix_cache`: whether the cache was reset, and the pool after it. -/
def resetPrefixCache : Bool × BlockPool H :=
  if p.numGpuBlocks - p.getNumFreeBlocks ≠ 1 then (false, p)
  else
    (true, { p with
      cachedBlockHashToBlock := .empty
      cachedBlockHashesByBlock := fun _ => none
      blocks := fun b => { p.blocks b with blockHash := none, blockHashNumTokens := none } })

/-! ### References -/

/-- Set the reference count of a block. -/
def setRefCnt (b n : Nat) : BlockPool H :=
  p.setBlock b { p.blocks b with refCnt := n }

/-- The body of the loop in `get_new_blocks`. -/
def allocateOne (b : Nat) : Option (BlockPool H) :=
  let p := if p.enableCaching then (p.removeCachedBlockHashes b).2 else p
  if (p.blocks b).refCnt = 0 then some (p.setRefCnt b 1) else none

/-- `get_new_blocks`: raises when there are not enough free blocks. -/
def getNewBlocks (numBlocks : Nat) : Option (List Nat × BlockPool H) :=
  if p.getNumFreeBlocks < numBlocks then none
  else
    (p.freeBlockQueue.popleftN numBlocks).bind fun r =>
      (r.1.foldlM allocateOne { p with freeBlockQueue := r.2 }).map fun p => (r.1, p)

/-- The body of the loop in `touch`. -/
def touchOne (b : Nat) : Option (BlockPool H) :=
  if (p.blocks b).isNull then some p
  else if (p.blocks b).refCnt = 0 then
    (p.freeBlockQueue.remove b).map fun q => { p with freeBlockQueue := q }.setRefCnt b 1
  else some (p.setRefCnt b ((p.blocks b).refCnt + 1))

def touch (blocks : List Nat) : Option (BlockPool H) :=
  blocks.foldlM touchOne p

/-- The loop of `free_blocks`: the pool with the counts taken down, and the
blocks to evict first and last. -/
def freeLoop : List Nat → BlockPool H → List Nat × List Nat × BlockPool H
  | [], p => ([], [], p)
  | b :: rest, p =>
    if (p.blocks b).isNull then freeLoop rest p
    else
      let n := (p.blocks b).refCnt - 1
      let uncached := (p.blocks b).blockHash.isNone || !p.enableCaching
      let r := freeLoop rest (p.setRefCnt b n)
      if n = 0 then
        if uncached then (b :: r.1, r.2) else (r.1, b :: r.2.1, r.2.2)
      else r

/-- `free_blocks`, for blocks of this pool. -/
def freeBlocks (orderedBlocks : List Nat) : Option (BlockPool H) :=
  let r := freeLoop orderedBlocks p
  (r.2.2.freeBlockQueue.prependN r.1).bind fun q =>
    (q.appendN r.2.1).map fun q => { r.2.2 with freeBlockQueue := q }

/-- The loop of `unpin_blocks`: the released blocks and the pool. -/
def unpinLoop : List Nat → BlockPool H → Option (List Nat × BlockPool H)
  | [], p => some ([], p)
  | b :: rest, p =>
    if (p.blocks b).refCnt = 0 ∨ (p.blocks b).isNull then none
    else
      let n := (p.blocks b).refCnt - 1
      (unpinLoop rest (p.setRefCnt b n)).map fun r => (if n = 0 then b :: r.1 else r.1, r.2)

/-- `unpin_blocks`. -/
def unpinBlocks (blocks : List Nat) : Option (BlockPool H) :=
  (unpinLoop blocks p).bind fun r =>
    (r.2.freeBlockQueue.appendN r.1).map fun q => { r.2 with freeBlockQueue := q }

end BlockPool

end Vllm.Pool
