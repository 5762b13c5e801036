import Vllm.Pool.Invariant

/-!
# The event stream of the block pool

With KV events enabled the pool tells its consumers which keys are cached
(`KVCacheEvent`). `EventPool` is the pool with its queue of events; each call does
what the call of `BlockPool` does (`run_pool`) and emits on the branches where the
source does. A consumer that counts stored minus removed blocks of a key gets the
number of blocks that the pool lists under it, plus the reports of reused blocks
that the pool was asked for (`run_replay`).

The key of an event is its hash and its group. Token ids, parents' texts and LoRA
fields of an event are not part of a key and are left out.
-/

namespace Vllm.Pool

open Function List Option

/-- The events of `distributed/kv_events.py`. A removal names one block. -/
inductive KVCacheEvent (H : Type) where
  | blockStored (blockHashes : List H) (parentBlockHash : Option H) (blockSize groupIdx : Nat)
  | blockRemoved (blockHash : H) (groupIdx : Nat)
  | allBlocksCleared
  deriving DecidableEq, Repr

/-- A pool with its event queue. -/
structure EventPool (H : Type) where
  pool : BlockPool H
  enableKvCacheEvents : Bool
  kvEventQueue : List (KVCacheEvent H)

namespace EventPool

open BlockPool

variable {H : Type} [DecidableEq H] (e : EventPool H)

/-- Put events in the queue. -/
def emit (events : List (KVCacheEvent H)) : EventPool H :=
  if e.enableKvCacheEvents then { e with kvEventQueue := e.kvEventQueue ++ events } else e

/-- `_remove_cached_block_hashes` with `_emit_block_removed_events`. -/
def removeCachedBlockHashes (b : Nat) : EventPool H :=
  let removed := e.pool.removeCachedBlockHashes b
  { e with pool := removed.2 }.emit
    (removed.1.map fun key : Key H => .blockRemoved key.blockHash key.groupId)

/-- The body of the loop in `get_new_blocks`. -/
def allocateOne (b : Nat) : Option (EventPool H) :=
  let e := if e.pool.enableCaching then e.removeCachedBlockHashes b else e
  if (e.pool.blocks b).refCnt = 0 then some { e with pool := e.pool.setRefCnt b 1 } else none

/-- `get_new_blocks`. -/
def getNewBlocks (numBlocks : Nat) : Option (List Nat × EventPool H) :=
  if e.pool.getNumFreeBlocks < numBlocks then none
  else
    (e.pool.freeBlockQueue.popleftN numBlocks).bind fun r =>
      (r.1.foldlM allocateOne { e with pool := { e.pool with freeBlockQueue := r.2 } }).map
        fun e => (r.1, e)

/-- The loop of `cache_full_blocks` from the block at `i` on: the hashes to announce. -/
def cacheFullLoop (blockHashes : List H) (blockSize groupId : Nat) (mask : Nat → Bool) :
    Nat → List Nat → EventPool H → Option (List H × EventPool H)
  | _, [], e => some ([], e)
  | i, b :: rest, e =>
    if (e.pool.blocks b).isNull || !mask i then
      cacheFullLoop blockHashes blockSize groupId mask (i + 1) rest e
    else
      (blockHashAt blockHashes e.pool.hashBlockSize blockSize i).bind fun h =>
        let numHashTokens := (i + 1) * blockSize
        let promoted :=
          match (e.pool.blocks b).blockHash with
          | none => some e
          | some _ =>
            match (e.pool.blocks b).blockHashNumTokens with
            | none => none
            | some n => if n < numHashTokens then some (e.removeCachedBlockHashes b) else none
        promoted.bind fun e =>
          (e.pool.insertBlockHash ⟨h, groupId⟩ b (some numHashTokens)).bind fun p =>
            (cacheFullLoop blockHashes blockSize groupId mask (i + 1) rest
              { e with pool := p }).map fun r => (h :: r.1, r.2)

/-- `cache_full_blocks`: one event for all new blocks. -/
def cacheFullBlocks (blockHashes : List H) (blocks : List Nat)
    (numCachedBlocks numFullBlocks blockSize groupId : Nat) (mask : Nat → Bool) :
    Option (EventPool H) :=
  if numFullBlocks ≤ numCachedBlocks then some e
  else if blockSize % e.pool.hashBlockSize ≠ 0 then none
  else
    (cacheFullLoop blockHashes blockSize groupId mask numCachedBlocks
      ((blocks.take numFullBlocks).drop numCachedBlocks) e).bind fun new =>
        if !e.enableKvCacheEvents then some new.2
        else
          let parent :=
            if numCachedBlocks = 0 then some none
            else
              (blockHashAt blockHashes e.pool.hashBlockSize blockSize
                (numCachedBlocks - 1)).map some
          parent.map fun parent => new.2.emit [.blockStored new.1 parent blockSize groupId]

/-- The hash before the last one of a prefix of `numHashBlocks` hash blocks. -/
def partialParentHash (blockHashes : List H) (numHashBlocks : Nat) : Option H :=
  if 1 < numHashBlocks then blockHashes[numHashBlocks - 2]? else none

/-- The block before it gets a partial key: its keys are removed when its content was
replaced, or when they stand for a shorter prefix. -/
def clearForPartial (b numTokens : Nat) (alreadyCached replace : Bool) : EventPool H :=
  if replace then e.removeCachedBlockHashes b
  else if !alreadyCached && e.pool.ownHashShorter b numTokens then e.removeCachedBlockHashes b
  else e

/-- `cache_partial_block`. -/
def cachePartialBlock (blockHashes : List H) (b numTokens groupId
    blockSize : Nat) (replaceExistingHashes : Bool) : Option (EventPool H) :=
  if (e.pool.blocks b).isNull then some e
  else if blockSize % e.pool.hashBlockSize ≠ 0 ∨ numTokens % e.pool.hashBlockSize ≠ 0 ∨
      numTokens = 0 then none
  else
    let numHashBlocks := numTokens / e.pool.hashBlockSize
    (blockHashes[numHashBlocks - 1]?).bind fun h =>
      let key : Key H := ⟨h, groupId⟩
      let alreadyCached := decide ((e.pool.blocks b).blockHash = some key) ||
        e.pool.cachedBlockHashToBlock.contain key b
      let cleared := e.clearForPartial b numTokens alreadyCached replaceExistingHashes
      (cleared.pool.insertBlockHash key b (some numTokens)).map fun p =>
        if replaceExistingHashes || !alreadyCached then
          { cleared with pool := p }.emit
            [.blockStored [h] (partialParentHash blockHashes numHashBlocks) e.pool.hashBlockSize
              groupId]
        else { cleared with pool := p }

/-- `evict_blocks`. -/
def evictBlocks (blockIds : List Nat) : Option (EventPool H) :=
  if ∀ b ∈ blockIds, b < e.pool.numGpuBlocks then
    some (blockIds.foldl removeCachedBlockHashes e)
  else none

/-- `reset_prefix_cache`. -/
def resetPrefixCache : EventPool H :=
  let reset := e.pool.resetPrefixCache
  if reset.1 then { e with pool := reset.2 }.emit [.allBlocksCleared] else e

/-- A call of the pool. References and moved hashes are not announced. -/
def run : PoolOp H → Option (EventPool H)
  | .getNewBlocks n => (e.getNewBlocks n).map (·.2)
  | .cacheFullBlocks hs bs c f size gid mask => e.cacheFullBlocks hs bs c f size gid mask
  | .cachePartialBlock hs b n gid size replace => e.cachePartialBlock hs b n gid size replace
  | .evictBlocks ids => e.evictBlocks ids
  | .resetPrefixCache => some e.resetPrefixCache
  | .touch bs => (e.pool.touch bs).map fun p => { e with pool := p }
  | .freeBlocks bs => (e.pool.freeBlocks bs).map fun p => { e with pool := p }
  | .unpinBlocks bs => (e.pool.unpinBlocks bs).map fun p => { e with pool := p }
  | .moveBlockHashes src dst => (e.pool.moveBlockHashes src dst).map fun p => { e with pool := p }

/-- `emit_cached_block_events`: the first `numCachedBlocks` blocks of a prefix that is
reused are announced once more. -/
def emitCachedBlockEvents (blockHashes : List H)
    (numCachedBlocks blockSize groupId : Nat) : Option (EventPool H) :=
  if !e.enableKvCacheEvents || numCachedBlocks == 0 then some e
  else if blockSize % e.pool.hashBlockSize ≠ 0 then none
  else
    ((List.range numCachedBlocks).mapM
      (blockHashAt blockHashes e.pool.hashBlockSize blockSize)).map fun hashes =>
        e.emit [.blockStored hashes none blockSize groupId]

/-- `take_events`. -/
def takeEvents : List (KVCacheEvent H) × EventPool H :=
  if !e.enableKvCacheEvents then ([], e) else (e.kvEventQueue, { e with kvEventQueue := [] })

end EventPool

/-! ## Blocks under a key -/

namespace BlockHashToBlockMap

variable {H : Type} [DecidableEq H] {m : BlockHashToBlockMap H} {key k : Key H} {b : Nat}

/-- The number of blocks that are cached under a key. -/
def numListed (m : BlockHashToBlockMap H) (key : Key H) : Nat :=
  match m.cache key with
  | none => 0
  | some (.single _) => 1
  | some (.dict bs) => bs.length

/-- A dictionary in the map has an entry, and an entry once. -/
def WellFormed (m : BlockHashToBlockMap H) : Prop :=
  ∀ key bs, m.cache key = some (.dict bs) → bs ≠ [] ∧ bs.Nodup

omit [DecidableEq H] in
theorem getOneBlock_isSome_iff (key : Key H) :
    (m.getOneBlock key).isSome ↔ 0 < m.numListed key := by
  unfold getOneBlock numListed
  cases hm : m.cache key with
  | none => simp
  | some entry =>
    cases entry with
    | single b => simp
    | dict bs => simp [length_pos_iff]

theorem WellFormed.insert (h : m.WellFormed) : (m.insert key b).WellFormed := by
  intro k bs hk
  by_cases heq : k = key
  · subst heq
    simp only [BlockHashToBlockMap.insert, update_self] at hk
    have hdict : ∀ bs' : List Nat, bs'.Nodup → bs' ≠ [] →
        dictInsert bs' b ≠ [] ∧ (dictInsert bs' b).Nodup := by
      intro bs' hnodup hne
      unfold dictInsert
      split
      · exact ⟨hne, hnodup⟩
      rename_i hb
      exact ⟨by simp, nodup_append.mpr ⟨hnodup, nodup_singleton b, by
        rintro a ha c hc rfl
        exact hb (mem_singleton.mp hc ▸ ha)⟩⟩
    cases hm : m.cache k with
    | none => simp [hm] at hk
    | some entry =>
      cases entry with
      | single c =>
        obtain rfl : dictInsert [c] b = bs := by simpa [hm] using hk
        exact hdict [c] (nodup_singleton c) (cons_ne_nil c [])
      | dict bs' =>
        obtain rfl : dictInsert bs' b = bs := by simpa [hm] using hk
        exact hdict bs' (h k bs' hm).2 (h k bs' hm).1
  · rw [BlockHashToBlockMap.insert] at hk
    exact h k bs (by simpa [update_of_ne heq] using hk)

/-- A block that was not under the key is one more. -/
theorem numListed_insert (hnot : m.contain key b = false) :
    (m.insert key b).numListed k = m.numListed k + if k = key then 1 else 0 := by
  by_cases hk : k = key
  · subst hk
    simp only [numListed, BlockHashToBlockMap.insert, update_self, if_true]
    cases hm : m.cache k with
    | none => rfl
    | some entry =>
      cases entry with
      | single c =>
        have hcb : ¬ c = b := by simpa [contain, hm] using hnot
        simp [dictInsert, Ne.symm hcb]
      | dict bs =>
        have hb : b ∉ bs := by simpa [contain, hm] using hnot
        simp [dictInsert, hb]
  · simp [numListed, BlockHashToBlockMap.insert, hk]

theorem pop_cache_of_ne (hk : k ≠ key) : (m.pop key b).2.cache k = m.cache k := by
  unfold pop
  split
  · rfl
  · split
    · exact update_of_ne hk _ _
    · rfl
  · exact update_of_ne hk _ _

theorem WellFormed.pop (h : m.WellFormed) (key : Key H) (b : Nat) : (m.pop key b).2.WellFormed := by
  intro k bs hk
  by_cases heq : k = key
  · subst heq
    unfold BlockHashToBlockMap.pop at hk
    split at hk
    · exact h k bs hk
    · split at hk
      · simp at hk
      · exact h k bs hk
    rename_i bs' hm
    dsimp only at hk
    rw [update_self] at hk
    split at hk
    · cases hk
    rename_i hne
    obtain rfl : bs'.filter (· ≠ b) = bs := by simpa using hk
    exact ⟨fun hnil => hne (List.isEmpty_iff.mpr hnil), (h k bs' hm).2.filter _⟩
  · exact h k bs (pop_cache_of_ne heq ▸ hk)

/-- A popped block is one less. -/
theorem numListed_pop (h : m.WellFormed) (key k : Key H) (b : Nat) :
    (m.pop key b).2.numListed k + (if k = key ∧ (m.pop key b).1.isSome then 1 else 0) =
      m.numListed k := by
  by_cases hk : k = key
  · subst hk
    cases hm : m.cache k with
    | none => simp [pop, hm]
    | some entry =>
      cases entry with
      | single c => by_cases hc : c = b <;> simp [numListed, pop, hm, hc]
      | dict bs =>
        have hnodup := (h k bs hm).2
        have hlen : (bs.filter (· ≠ b)).length + (if b ∈ bs then 1 else 0) = bs.length := by
          have herase : bs.erase b = bs.filter (· ≠ b) :=
            (hnodup.erase_eq_filter b).trans (filter_congr fun x _ => by
              by_cases hx : x = b <;> simp [hx])
          rw [← herase]
          split
          · rename_i hb
            exact length_erase_add_one hb
          · rename_i hb
            rw [erase_of_not_mem hb, Nat.add_zero]
        have hafter : (m.pop k b).2.numListed k = (bs.filter (· ≠ b)).length := by
          simp only [numListed, pop, hm, update_self]
          by_cases hrest : (bs.filter (· ≠ b)).isEmpty
          · rw [List.isEmpty_iff.mp hrest]
            rfl
          · rw [if_neg hrest]
        have hpopped : (m.pop k b).1.isSome = decide (b ∈ bs) := by
          rw [pop_isSome, contain, hm]
          simp
        have hbefore : m.numListed k = bs.length := by simp only [numListed, hm]
        rw [hafter, hpopped, hbefore, ← hlen]
        simp
  · simp [numListed, pop_cache_of_ne hk, hk]

end BlockHashToBlockMap

/-! ## Replay -/

/-- What one event does to the count of a key. -/
def KVCacheEvent.apply {H : Type} [DecidableEq H] (key : Key H) (n : Int) :
    KVCacheEvent H → Int
  | .blockStored hashes _ _ gid => n + if key.groupId = gid then hashes.count key.blockHash else 0
  | .blockRemoved hash gid => n - if key = ⟨hash, gid⟩ then 1 else 0
  | .allBlocksCleared => 0

/-- Stored minus removed blocks of a key since the pool was cleared last. -/
def replay {H : Type} [DecidableEq H] (events : List (KVCacheEvent H)) (key : Key H) : Int :=
  events.foldl (KVCacheEvent.apply key) 0

namespace EventPool

open BlockPool BlockHashToBlockMap

variable {H : Type} [DecidableEq H] {e e' : EventPool H} {taken : List (KVCacheEvent H)}
  {extra : Key H → Int} {m : BlockHashToBlockMap H}
  {gid blockSize i numCached numFull numTokens : Nat} {blockHashes : List H} {mask : Nat → Bool}
  {blocks : List Nat} {new : List Nat × EventPool H} {replace : Bool} {op : PoolOp H} {b : Nat}
  {p : BlockPool H} {keys : List (Key H)}

theorem replay_append (es es' : List (KVCacheEvent H)) (key : Key H) :
    replay (es ++ es') key = es'.foldl (KVCacheEvent.apply key) (replay es key) :=
  foldl_append

/-- The events so far count the blocks under each key, and `extra` more. -/
structure Ledger (taken : List (KVCacheEvent H)) (extra : Key H → Int) (e : EventPool H) :
    Prop where
  hashes : HashInv e.pool
  map : e.pool.cachedBlockHashToBlock.WellFormed
  enabled : e.enableKvCacheEvents = true
  count : ∀ key, replay (taken ++ e.kvEventQueue) key =
    e.pool.cachedBlockHashToBlock.numListed key + extra key

omit [DecidableEq H] in
theorem emit_eq (h : e.enableKvCacheEvents = true) (events : List (KVCacheEvent H)) :
    e.emit events = { e with kvEventQueue := e.kvEventQueue ++ events } :=
  if_pos h

/-- What is emitted without a change of the pool counts extra. -/
theorem Ledger.emit (h : Ledger taken extra e) {events : List (KVCacheEvent H)}
    {extra' : Key H → Int}
    (hextra : ∀ key n, events.foldl (KVCacheEvent.apply key) n = n + (extra' key - extra key)) :
    Ledger taken extra' (e.emit events) := by
  rw [emit_eq h.enabled]
  refine ⟨h.hashes, h.map, h.enabled, fun key => ?_⟩
  dsimp only
  rw [← append_assoc, replay_append, hextra, h.count]
  omega

theorem popHashes_wellFormed (h : m.WellFormed) : (popHashes m b keys).2.WellFormed := by
  induction keys generalizing m with
  | nil => exact h
  | cons key keys ih => exact ih (h.pop key b)

theorem numListed_popHashes {k : Key H} (h : m.WellFormed) :
    (popHashes m b keys).2.numListed k + (popHashes m b keys).1.count k = m.numListed k := by
  induction keys generalizing m with
  | nil => rfl
  | cons key keys ih =>
    have hpop := numListed_pop h key k b
    have hrest := ih (h.pop key b)
    simp only [popHashes]
    by_cases hsome : (m.pop key b).1.isSome = true
    · rw [if_pos hsome, count_cons]
      by_cases hk : k = key
      · subst hk
        simp only [hsome, and_self, if_true, beq_self_eq_true] at hpop ⊢
        omega
      · simp only [hk, Ne.symm hk, false_and, if_false, beq_iff_eq] at hpop ⊢
        omega
    · rw [if_neg hsome]
      simp only [hsome, Bool.false_eq_true, and_false, if_false] at hpop
      omega

theorem removeCachedBlockHashes_wellFormed (h : p.cachedBlockHashToBlock.WellFormed) :
    (p.removeCachedBlockHashes b).2.cachedBlockHashToBlock.WellFormed := by
  unfold BlockPool.removeCachedBlockHashes
  dsimp only
  split
  · exact h
  · exact popHashes_wellFormed h

/-- The keys that are removed from the map, with their counts. -/
theorem numListed_removeCachedBlockHashes {k : Key H} (h : p.cachedBlockHashToBlock.WellFormed) :
    (p.removeCachedBlockHashes b).2.cachedBlockHashToBlock.numListed k +
      (p.removeCachedBlockHashes b).1.count k = p.cachedBlockHashToBlock.numListed k := by
  unfold BlockPool.removeCachedBlockHashes
  dsimp only
  split
  · rfl
  · exact numListed_popHashes h

theorem foldl_blockRemoved (keys : List (Key H)) (key : Key H) (n : Int) :
    (keys.map fun k : Key H => KVCacheEvent.blockRemoved k.blockHash k.groupId).foldl
      (KVCacheEvent.apply key) n = n - keys.count key := by
  induction keys generalizing n with
  | nil => simp
  | cons k keys ih =>
    rw [map_cons, foldl_cons, ih, KVCacheEvent.apply, count_cons]
    by_cases hk : key = k
    · simp only [hk, if_true, beq_self_eq_true]
      omega
    · simp [hk, Ne.symm hk]

section

variable (h : Ledger taken extra e)
include h

/-- Between a removal and its events the stream counts the removed keys too often. -/
theorem Ledger.removedKeys (b : Nat) :
    Ledger taken (fun key => extra key + (e.pool.removeCachedBlockHashes b).1.count key)
      { e with pool := (e.pool.removeCachedBlockHashes b).2 } := by
  refine ⟨h.hashes.removeCachedBlockHashes b, removeCachedBlockHashes_wellFormed h.map,
    h.enabled, fun key => ?_⟩
  have hlisted := numListed_removeCachedBlockHashes (b := b) (k := key) h.map
  have hcount := h.count key
  dsimp only
  omega

/-- Removed keys are announced. -/
theorem Ledger.removeCachedBlockHashes (b : Nat) :
    Ledger taken extra (e.removeCachedBlockHashes b) := by
  refine (h.removedKeys b).emit fun key n => ?_
  rw [foldl_blockRemoved]
  omega

theorem Ledger.of_sameHashes
    (hsame : SameHashes e.pool p) : Ledger taken extra { e with pool := p } :=
  ⟨h.hashes.of_sameHashes hsame, hsame.map.symm ▸ h.map, h.enabled,
    fun key => by dsimp only; rw [hsame.map]; exact h.count key⟩

/-- A key that is put on a block and not announced yet. -/
theorem Ledger.insertBlockHash {key : Key H} {n : Option Nat}
    (hnull : (e.pool.blocks b).isNull = false)
    (hnot : key ∉ e.pool.blockKeys b) (hp : e.pool.insertBlockHash key b n = some p) :
    Ledger taken (fun k => extra k - if k = key then 1 else 0) { e with pool := p } := by
  have hmap : p.cachedBlockHashToBlock = e.pool.cachedBlockHashToBlock.insert key b := by
    rcases insertBlockHash_cases h.hashes hp with ⟨hmem, -⟩ | ⟨-, -, rfl⟩ | ⟨-, -, rfl⟩
    · exact absurd hmem hnot
    · rfl
    · rfl
  have hcontain : e.pool.cachedBlockHashToBlock.contain key b = false := by
    rw [← Bool.not_eq_true, h.hashes.listed]
    exact hnot
  refine ⟨h.hashes.insertBlockHash hnull hp, hmap ▸ h.map.insert, h.enabled, fun k => ?_⟩
  have hcount := h.count k
  rw [hmap, numListed_insert hcontain, hcount]
  by_cases hk : k = key
  · simp only [hk, if_true]
    omega
  · simp only [hk, if_false]
    omega

/-- The hashes that are still to be announced for a group. -/
def pending (hashes : List H) (gid : Nat) (k : Key H) : Int :=
  if k.groupId = gid then hashes.count k.blockHash else 0

omit h in
theorem pending_cons (h : H) (hashes : List H) (gid : Nat) (k : Key H) :
    pending (h :: hashes) gid k = pending hashes gid k + if k = ⟨h, gid⟩ then 1 else 0 := by
  obtain ⟨hash, group⟩ := k
  simp only [pending, count_cons, Key.mk.injEq, beq_iff_eq, @eq_comm _ h]
  by_cases hgroup : group = gid
  · by_cases hhash : hash = h
    · simp [hgroup, hhash]
    · simp [hgroup, hhash]
  · simp [hgroup]

omit h in
/-- After the announcement nothing is pending. -/
theorem Ledger.blockStored {hashes : List H} {parent : Option H}
    (h : Ledger taken (fun k => extra k - pending hashes gid k) e) :
    Ledger taken extra (e.emit [.blockStored hashes parent blockSize gid]) := by
  refine h.emit fun key n => ?_
  rw [foldl_cons, foldl_nil, KVCacheEvent.apply, pending]
  by_cases hgroup : key.groupId = gid
  · simp only [hgroup, if_true]
    omega
  · simp only [hgroup, if_false]
    omega

omit h in
omit [DecidableEq H] in
theorem blockKeys_eq_nil (h : HashInv e.pool) (hb : (e.pool.blocks b).blockHash = none) :
    e.pool.blockKeys b = [] := by
  rw [blockKeys, hb, h.byBlock_eq_none hb]
  rfl

omit h in
theorem removeCachedBlockHashes_pool (e : EventPool H) (b : Nat) :
    (e.removeCachedBlockHashes b).pool = (e.pool.removeCachedBlockHashes b).2 := by
  unfold EventPool.removeCachedBlockHashes emit
  dsimp only
  split <;> rfl

/-- Each new full block has one new key. -/
theorem Ledger.cacheFullLoop {new : List H × EventPool H}
    (hloop : cacheFullLoop blockHashes blockSize gid mask i blocks e = some new) :
    Ledger taken (fun k => extra k - pending new.1 gid k) new.2 := by
  induction blocks generalizing i e extra new with
  | nil =>
    cases hloop
    simpa [pending] using h
  | cons b blocks ih =>
    rw [EventPool.cacheFullLoop] at hloop
    split at hloop
    · exact ih h hloop
    rename_i hskip
    simp only [Bool.or_eq_true, Bool.not_eq_true', not_or, Bool.not_eq_true] at hskip
    obtain ⟨hash, -, hloop⟩ := bind_eq_some_iff.mp hloop
    obtain ⟨e₁, hpromoted, hloop⟩ := bind_eq_some_iff.mp hloop
    obtain ⟨p, hp, hloop⟩ := bind_eq_some_iff.mp hloop
    obtain ⟨rest, hrest, rfl⟩ := map_eq_some_iff.mp hloop
    -- a block with a shorter hash loses it; then the block has no key
    have hclean : Ledger taken extra e₁ ∧ (e₁.pool.blocks b).isNull = false ∧
        (e₁.pool.blocks b).blockHash = none := by
      split at hpromoted
      · rename_i hnone
        cases hpromoted
        exact ⟨h, hskip.1, hnone⟩
      split at hpromoted
      · cases hpromoted
      split at hpromoted
      · cases hpromoted
        refine ⟨h.removeCachedBlockHashes b, ?_, ?_⟩
        · rw [removeCachedBlockHashes_pool, (sameRefs_removeCachedBlockHashes _ b).isNull]
          exact hskip.1
        · rw [removeCachedBlockHashes_pool, blockHash_removeCachedBlockHashes, if_pos rfl]
      · cases hpromoted
    obtain ⟨h₁, hnull, hnone⟩ := hclean
    have hnot : (⟨hash, gid⟩ : Key H) ∉ e₁.pool.blockKeys b := by
      rw [blockKeys_eq_nil h₁.hashes hnone]
      exact not_mem_nil
    have hfinal := ih (h₁.insertBlockHash hnull hnot hp) hrest
    refine ⟨hfinal.hashes, hfinal.map, hfinal.enabled, fun k => ?_⟩
    dsimp only
    rw [hfinal.count k, pending_cons]
    omega

theorem Ledger.cacheFullBlocks
    (hcache : e.cacheFullBlocks blockHashes blocks numCached numFull blockSize gid mask =
      some e') : Ledger taken extra e' := by
  unfold EventPool.cacheFullBlocks at hcache
  split at hcache
  · cases hcache
    exact h
  split at hcache
  · cases hcache
  obtain ⟨new, hloop, hcache⟩ := bind_eq_some_iff.mp hcache
  simp only [h.enabled, Bool.not_true, Bool.false_eq_true, if_false] at hcache
  obtain ⟨parent, -, rfl⟩ := map_eq_some_iff.mp hcache
  exact (h.cacheFullLoop hloop).blockStored

/-- The block keeps the key exactly when the call does not announce it. -/
theorem Ledger.clearForPartial (key : Key H)
    (numTokens : Nat) (replace : Bool) (hnull : (e.pool.blocks b).isNull = false) :
    let already := decide (key ∈ e.pool.blockKeys b)
    let cleared := e.clearForPartial b numTokens already replace
    Ledger taken extra cleared ∧ (cleared.pool.blocks b).isNull = false ∧
      (key ∈ cleared.pool.blockKeys b ↔ (replace || !already) = false) := by
  have hremoved : Ledger taken extra (e.removeCachedBlockHashes b) ∧
      ((e.removeCachedBlockHashes b).pool.blocks b).isNull = false ∧
      (e.removeCachedBlockHashes b).pool.blockKeys b = [] := by
    refine ⟨h.removeCachedBlockHashes b, ?_, ?_⟩
    · rw [removeCachedBlockHashes_pool, (sameRefs_removeCachedBlockHashes _ b).isNull]
      exact hnull
    · rw [removeCachedBlockHashes_pool, blockKeys_removeCachedBlockHashes, if_pos rfl]
  obtain ⟨hledger, hnull', hnil⟩ := hremoved
  cases replace with
  | true => exact ⟨hledger, hnull', by simp [EventPool.clearForPartial, hnil]⟩
  | false =>
    by_cases hmem : key ∈ e.pool.blockKeys b
    · simpa [EventPool.clearForPartial, hmem] using ⟨h, hnull⟩
    by_cases hshort : e.pool.ownHashShorter b numTokens = true
    · simpa [EventPool.clearForPartial, hmem, hshort, hnil] using ⟨hledger, hnull'⟩
    · simpa [EventPool.clearForPartial, hshort] using ⟨h, hnull⟩

theorem Ledger.cachePartialBlock
    (hcache : e.cachePartialBlock blockHashes b numTokens gid blockSize replace = some e') :
    Ledger taken extra e' := by
  unfold EventPool.cachePartialBlock at hcache
  split at hcache
  · cases hcache
    exact h
  rename_i hnull
  split at hcache
  · cases hcache
  obtain ⟨hash, -, hcache⟩ := bind_eq_some_iff.mp hcache
  have halready : (decide ((e.pool.blocks b).blockHash = some ⟨hash, gid⟩) ||
      e.pool.cachedBlockHashToBlock.contain ⟨hash, gid⟩ b) =
      decide ((⟨hash, gid⟩ : Key H) ∈ e.pool.blockKeys b) := by
    rw [Bool.eq_iff_iff, Bool.or_eq_true, decide_eq_true_iff, decide_eq_true_iff, h.hashes.listed]
    exact ⟨fun hor => hor.elim (fun hown => mem_blockKeys.mpr (.inl hown)) id, .inr⟩
  dsimp only at hcache
  rw [halready] at hcache
  obtain ⟨p, hp, heq⟩ := map_eq_some_iff.mp hcache
  obtain ⟨hledger, hnull', hkeep⟩ := h.clearForPartial ⟨hash, gid⟩ numTokens replace
    (by simpa using hnull)
  generalize e.clearForPartial b numTokens _ replace = cleared at hp heq hledger hnull' hkeep
  by_cases hmem : (⟨hash, gid⟩ : Key H) ∈ cleared.pool.blockKeys b
  · -- nothing is put on the block and nothing is announced
    obtain rfl : p = cleared.pool := by
      rcases insertBlockHash_cases hledger.hashes hp with ⟨-, rfl⟩ | ⟨hnot, -, -⟩ | ⟨hnot, -, -⟩
      · rfl
      · exact absurd hmem hnot
      · exact absurd hmem hnot
    rw [hkeep.mp hmem] at heq
    exact heq ▸ hledger
  · rw [if_pos (by rw [← Bool.not_eq_false]; exact mt hkeep.mpr hmem)] at heq
    rw [← heq]
    have hnew := hledger.insertBlockHash hnull' hmem hp
    refine Ledger.blockStored ⟨hnew.hashes, hnew.map, hnew.enabled, fun k => ?_⟩
    rw [hnew.count k, pending_cons]
    simp [pending]

theorem Ledger.allocateOne (hone : e.allocateOne b = some e') : Ledger taken extra e' := by
  unfold EventPool.allocateOne at hone
  generalize hevicted : (if e.pool.enableCaching = true then e.removeCachedBlockHashes b else e) =
    e₁ at hone
  have h₁ : Ledger taken extra e₁ := by
    rw [← hevicted]
    split
    · exact h.removeCachedBlockHashes b
    · exact h
  dsimp only at hone
  split at hone
  · cases hone
    exact h₁.of_sameHashes (sameHashes_setRefCnt _ _ _)
  · cases hone

theorem Ledger.getNewBlocks {n : Nat}
    (hget : e.getNewBlocks n = some new) : Ledger taken extra new.2 := by
  unfold EventPool.getNewBlocks at hget
  split at hget
  · cases hget
  obtain ⟨r, -, hget⟩ := bind_eq_some_iff.mp hget
  obtain ⟨e₁, hloop, rfl⟩ := map_eq_some_iff.mp hget
  have hstart := h.of_sameHashes (sameHashes_setQueue e.pool r.2)
  generalize ({ e with pool := { e.pool with freeBlockQueue := r.2 } } : EventPool H) = e₀
    at hloop hstart
  generalize r.1 = bs at hloop
  induction bs generalizing e₀ with
  | nil =>
    cases hloop
    exact hstart
  | cons b bs ih =>
    obtain ⟨e₂, hone, hloop⟩ := bind_eq_some_iff.mp hloop
    exact ih e₂ (hstart.allocateOne hone) hloop

theorem Ledger.evictBlocks {ids : List Nat}
    (hevict : e.evictBlocks ids = some e') : Ledger taken extra e' := by
  unfold EventPool.evictBlocks at hevict
  split at hevict
  · cases hevict
    exact List.foldlRecOn ids _ h fun _ h₁ b _ => h₁.removeCachedBlockHashes b
  · cases hevict

/-- A reset also ends the account of what was counted extra. -/
theorem Ledger.resetPrefixCache :
    Ledger taken (if e.pool.resetPrefixCache.1 then fun _ => 0 else extra)
      e.resetPrefixCache := by
  have hreset := h.hashes.resetPrefixCache
  unfold EventPool.resetPrefixCache
  unfold BlockPool.resetPrefixCache at hreset ⊢
  split
  · simpa using h
  rename_i hused
  rw [if_neg hused] at hreset
  simp only [if_true]
  rw [EventPool.emit, if_pos h.enabled]
  refine ⟨hreset, fun _ _ hk => (nomatch hk), h.enabled, fun key => ?_⟩
  rw [← append_assoc, replay_append]
  rfl

end

/-! ### Moved hashes -/

theorem contain_of_mem_popHashes
    {k : Key H} (h : k ∈ (popHashes m b keys).1) : m.contain k b = true := by
  induction keys generalizing m with
  | nil => exact absurd h not_mem_nil
  | cons key keys ih =>
    simp only [popHashes] at h
    split at h
    · rename_i hsome
      rcases mem_cons.mp h with rfl | h
      · rwa [pop_isSome] at hsome
      · exact (contain_pop.mp (ih h)).1
    · exact (contain_pop.mp (ih h)).1

theorem nodup_popHashes : (popHashes m b keys).1.Nodup := by
  induction keys generalizing m with
  | nil => exact nodup_nil
  | cons key keys ih =>
    simp only [popHashes]
    split
    · refine nodup_cons.mpr ⟨fun hmem => ?_, ih⟩
      exact (contain_pop.mp (contain_of_mem_popHashes hmem)).2 ⟨rfl, rfl⟩
    · exact ih

theorem nodup_removeCachedBlockHashes (p : BlockPool H) (b : Nat) :
    (p.removeCachedBlockHashes b).1.Nodup := by
  unfold BlockPool.removeCachedBlockHashes
  dsimp only
  split
  · exact nodup_nil
  · exact nodup_popHashes

/-- Keys that go to a block which has none of them. -/
theorem Ledger.foldlM_insertBlockHash {dst : Nat} {n : Option Nat}
    (h : Ledger taken (fun k => extra k + keys.count k) e)
    (hnull : (e.pool.blocks dst).isNull = false) (hnodup : keys.Nodup)
    (hnot : ∀ key ∈ keys, key ∉ e.pool.blockKeys dst)
    (hfold : keys.foldlM (fun p key => p.insertBlockHash key dst n) e.pool = some p) :
    Ledger taken extra { e with pool := p } := by
  induction keys generalizing e with
  | nil =>
    cases hfold
    simpa using h
  | cons key keys ih =>
    obtain ⟨p₁, hp₁, hfold⟩ := bind_eq_some_iff.mp hfold
    obtain ⟨hkey, hnodup⟩ := nodup_cons.mp hnodup
    have h₁ := h.insertBlockHash hnull (hnot key mem_cons_self) hp₁
    have hkeys := blockKeys_insertBlockHash h.hashes hp₁ dst
    refine ih (e := { e with pool := p₁ }) ⟨h₁.hashes, h₁.map, h₁.enabled, fun k => ?_⟩ ?_ hnodup
      (fun k hk => ?_) hfold
    · rw [h₁.count k, count_cons]
      by_cases hk : k = key
      · simp only [hk, if_true, beq_self_eq_true]
        omega
      · simp [hk, Ne.symm hk]
    · exact (sameRefs_insertBlockHash hp₁).isNull dst ▸ hnull
    · rw [hkeys]
      split
      · rw [mem_append, mem_singleton]
        rintro (hmem | rfl)
        · exact hnot k (mem_cons_of_mem _ hk) hmem
        · exact hkey hk
      · exact hnot k (mem_cons_of_mem _ hk)

/-- Moved keys stay cached, so nothing has to be announced. -/
theorem Ledger.moveBlockHashes {src dst : Nat} (h : Ledger taken extra e)
    (hnull : (e.pool.blocks dst).isNull = false)
    (hmove : e.pool.moveBlockHashes src dst = some p) :
    Ledger taken extra { e with pool := p } := by
  unfold BlockPool.moveBlockHashes at hmove
  split at hmove
  · cases hmove
  rename_i hfree
  have hnone : (e.pool.blocks dst).blockHash = none := by
    simpa using fun hsome => hfree (.inl hsome)
  have hremoved : Ledger taken
      (fun key => extra key + (e.pool.removeCachedBlockHashes src).1.count key)
      { e with pool := (e.pool.removeCachedBlockHashes src).2 } := h.removedKeys src
  refine hremoved.foldlM_insertBlockHash ?_ (nodup_removeCachedBlockHashes _ src)
    (fun key _ => ?_) hmove
  · rw [(sameRefs_removeCachedBlockHashes e.pool src).isNull]
    exact hnull
  · rw [blockKeys_removeCachedBlockHashes, blockKeys_eq_nil h.hashes hnone]
    split <;> exact not_mem_nil

/-! ## The pool behind the events -/

omit [DecidableEq H] in
@[simp] theorem emit_pool (e : EventPool H) (events : List (KVCacheEvent H)) :
    (e.emit events).pool = e.pool := by
  unfold emit
  split <;> rfl

theorem allocateOne_pool (h : e.allocateOne b = some e') : e.pool.allocateOne b = some e'.pool := by
  unfold EventPool.allocateOne at h
  have hevicted : (if e.pool.enableCaching = true then e.removeCachedBlockHashes b else e).pool =
      if e.pool.enableCaching = true then (e.pool.removeCachedBlockHashes b).2 else e.pool := by
    split
    · exact removeCachedBlockHashes_pool e b
    · rfl
  unfold BlockPool.allocateOne
  dsimp only at h ⊢
  rw [← hevicted]
  generalize (if e.pool.enableCaching = true then e.removeCachedBlockHashes b else e) = e₁ at h ⊢
  split at h
  · rename_i href
    cases h
    exact if_pos href
  · cases h

theorem getNewBlocks_pool {n : Nat}
    (h : e.getNewBlocks n = some new) : e.pool.getNewBlocks n = some (new.1, new.2.pool) := by
  unfold EventPool.getNewBlocks at h
  unfold BlockPool.getNewBlocks
  split at h
  · cases h
  rename_i hn
  obtain ⟨r, hr, h⟩ := bind_eq_some_iff.mp h
  obtain ⟨e₁, hloop, rfl⟩ := map_eq_some_iff.mp h
  rw [if_neg hn, hr]
  refine map_eq_some_iff.mpr ⟨e₁.pool, ?_, rfl⟩
  have hstart : { e.pool with freeBlockQueue := r.2 } =
      ({ e with pool := { e.pool with freeBlockQueue := r.2 } } : EventPool H).pool := rfl
  rw [hstart]
  generalize ({ e with pool := { e.pool with freeBlockQueue := r.2 } } : EventPool H) = e₀ at hloop
  generalize r.1 = bs at hloop
  induction bs generalizing e₀ with
  | nil =>
    cases hloop
    rfl
  | cons b bs ih =>
    obtain ⟨e₂, hone, hloop⟩ := bind_eq_some_iff.mp hloop
    exact bind_eq_some_iff.mpr ⟨e₂.pool, allocateOne_pool hone, ih e₂ hloop⟩

theorem cacheFullLoop_pool {new : List H × EventPool H}
    (h : cacheFullLoop blockHashes blockSize gid mask i blocks e = some new) :
    BlockPool.cacheFullLoop blockHashes blockSize gid mask i blocks e.pool =
      some new.2.pool := by
  induction blocks generalizing i e new with
  | nil =>
    cases h
    rfl
  | cons b blocks ih =>
    rw [EventPool.cacheFullLoop] at h
    rw [BlockPool.cacheFullLoop]
    split at h
    · rename_i hskip
      rw [if_pos hskip]
      exact ih h
    rename_i hskip
    obtain ⟨hash, hhash, h⟩ := bind_eq_some_iff.mp h
    obtain ⟨e₁, hpromoted, h⟩ := bind_eq_some_iff.mp h
    obtain ⟨p, hp, h⟩ := bind_eq_some_iff.mp h
    obtain ⟨rest, hrest, rfl⟩ := map_eq_some_iff.mp h
    rw [if_neg hskip]
    refine bind_eq_some_iff.mpr ⟨hash, hhash, bind_eq_some_iff.mpr
      ⟨e₁.pool, ?_, bind_eq_some_iff.mpr ⟨p, hp, ih hrest⟩⟩⟩
    cases hown : (e.pool.blocks b).blockHash with
    | none =>
      simp only [hown] at hpromoted
      exact congrArg (Option.map EventPool.pool) hpromoted
    | some own =>
      simp only [hown] at hpromoted
      cases hn : (e.pool.blocks b).blockHashNumTokens with
      | none =>
        simp only [hn] at hpromoted
        cases hpromoted
      | some n =>
        simp only [hn] at hpromoted
        by_cases hlt : n < (i + 1) * blockSize
        · rw [if_pos hlt] at hpromoted
          cases hpromoted
          simp only [if_pos hlt, removeCachedBlockHashes_pool]
        · rw [if_neg hlt] at hpromoted
          cases hpromoted

theorem cacheFullBlocks_pool
    (h : e.cacheFullBlocks blockHashes blocks numCached numFull blockSize gid mask = some e') :
    e.pool.cacheFullBlocks blockHashes blocks numCached numFull blockSize gid mask =
      some e'.pool := by
  unfold EventPool.cacheFullBlocks at h
  unfold BlockPool.cacheFullBlocks
  split at h
  · rename_i hle
    cases h
    exact if_pos hle
  rename_i hle
  split at h
  · cases h
  rename_i hmod
  rw [if_neg hle, if_neg hmod]
  obtain ⟨new, hloop, h⟩ := bind_eq_some_iff.mp h
  rw [cacheFullLoop_pool hloop]
  split at h
  · cases h
    rfl
  · obtain ⟨parent, -, rfl⟩ := map_eq_some_iff.mp h
    rw [emit_pool]

theorem cachePartialBlock_pool
    (h : e.cachePartialBlock blockHashes b numTokens gid blockSize replace = some e') :
    e.pool.cachePartialBlock blockHashes b numTokens gid blockSize replace = some e'.pool := by
  unfold EventPool.cachePartialBlock at h
  unfold BlockPool.cachePartialBlock
  split at h
  · rename_i hnull
    cases h
    exact if_pos hnull
  rename_i hnull
  split at h
  · cases h
  rename_i hmod
  rw [if_neg hnull, if_neg hmod]
  obtain ⟨hash, hhash, h⟩ := bind_eq_some_iff.mp h
  obtain ⟨p, hp, rfl⟩ := map_eq_some_iff.mp h
  refine bind_eq_some_iff.mpr ⟨hash, hhash, ?_⟩
  refine Eq.trans ?_ (hp.trans (congrArg some ?_))
  · dsimp only
    congr 1
    unfold EventPool.clearForPartial
    split
    · exact (removeCachedBlockHashes_pool e b).symm
    split
    · exact (removeCachedBlockHashes_pool e b).symm
    · rfl
  · split
    · rw [emit_pool]
    · rfl

/-- With events the pool does the same. -/
theorem run_pool (h : e.run op = some e') : e.pool.run op = some e'.pool := by
  cases op with
  | getNewBlocks n =>
    obtain ⟨new, hnew, rfl⟩ := map_eq_some_iff.mp h
    exact map_eq_some_iff.mpr ⟨_, getNewBlocks_pool hnew, rfl⟩
  | cacheFullBlocks hs bs c f size gid mask => exact cacheFullBlocks_pool h
  | cachePartialBlock hs b n gid size replace => exact cachePartialBlock_pool h
  | evictBlocks ids =>
    simp only [EventPool.run, EventPool.evictBlocks] at h
    simp only [BlockPool.run, BlockPool.evictBlocks]
    split at h
    · rename_i hids
      obtain rfl := some.inj h
      rw [if_pos hids]
      clear hids h
      induction ids generalizing e with
      | nil => rfl
      | cons b ids ih =>
        rw [foldl_cons, ← removeCachedBlockHashes_pool]
        exact ih
    · cases h
  | resetPrefixCache =>
    obtain rfl := some.inj h
    refine congrArg some ?_
    unfold EventPool.resetPrefixCache
    dsimp only
    split
    · rw [emit_pool]
    rename_i hreset
    unfold BlockPool.resetPrefixCache at hreset ⊢
    split
    · rfl
    rename_i hused
    rw [if_neg hused] at hreset
    exact absurd rfl hreset
  | touch bs | freeBlocks bs | unpinBlocks bs | moveBlockHashes src dst =>
    obtain ⟨p, hp, rfl⟩ := map_eq_some_iff.mp h
    exact hp

/-- The call clears the cache. -/
def clears (p : BlockPool H) : PoolOp H → Bool
  | .resetPrefixCache => p.resetPrefixCache.1
  | _ => false

/-- Every call keeps the account; a reset ends what was counted extra. -/
theorem Ledger.run (h : Ledger taken extra e) (hinv : Inv e.pool)
    (hop : e.pool.Respects op) (hrun : e.run op = some e') :
    Ledger taken (if clears e.pool op then fun _ => 0 else extra) e' := by
  cases op with
  | getNewBlocks n =>
    obtain ⟨new, hnew, rfl⟩ := map_eq_some_iff.mp hrun
    exact h.getNewBlocks hnew
  | cacheFullBlocks hs bs c f size gid mask => exact h.cacheFullBlocks hrun
  | cachePartialBlock hs b n gid size replace => exact h.cachePartialBlock hrun
  | evictBlocks ids => exact h.evictBlocks hrun
  | resetPrefixCache =>
    cases hrun
    exact h.resetPrefixCache
  | touch bs =>
    obtain ⟨p, hp, rfl⟩ := map_eq_some_iff.mp hrun
    obtain ⟨p', hp', -, hsame, -⟩ := touch_spec hinv.free hop
    exact h.of_sameHashes (some.inj (hp'.symm.trans hp) ▸ hsame)
  | freeBlocks bs =>
    obtain ⟨p, hp, rfl⟩ := map_eq_some_iff.mp hrun
    have hrefs : ∀ b, e.pool.refsIn bs b ≤ (e.pool.blocks b).refCnt := by
      intro b
      by_cases hb : b ∈ bs
      · exact (hop b hb).2
      · simp [refsIn, count_eq_zero_of_not_mem hb]
    obtain ⟨p', hp', -, hsame, -⟩ := freeBlocks_spec hinv.free (fun b hb => (hop b hb).1) hrefs
    exact h.of_sameHashes (some.inj (hp'.symm.trans hp) ▸ hsame)
  | unpinBlocks bs =>
    obtain ⟨p, hp, rfl⟩ := map_eq_some_iff.mp hrun
    exact h.of_sameHashes (unpinBlocks_spec hinv.free hop hp).2.1
  | moveBlockHashes src dst =>
    obtain ⟨p, hp, rfl⟩ := map_eq_some_iff.mp hrun
    exact h.moveBlockHashes hop hp

end EventPool

/-! ## Runs -/

/-- A call of the pool by the KV cache manager, or by the publisher of events. -/
inductive EventOp (H : Type) where
  | call (op : PoolOp H)
  | emitCachedBlockEvents (blockHashes : List H) (numCachedBlocks blockSize groupId : Nat)
  | takeEvents

/-- The call announces blocks that are cached already. -/
def EventOp.isReport {H : Type} : EventOp H → Bool
  | .emitCachedBlockEvents .. => true
  | _ => false

/-- The pool with all events that `take_events` has returned. `reported` are the events
of `emit_cached_block_events`, and where the cache was cleared between them. -/
structure EventLog (H : Type) where
  source : EventPool H
  taken : List (KVCacheEvent H)
  reported : List (KVCacheEvent H)

namespace EventLog

open BlockPool EventPool

variable {H : Type} [DecidableEq H] {s s' : EventLog H} {ops : List (EventOp H)}

def init (pool : BlockPool H) : EventLog H := ⟨⟨pool, true, []⟩, [], []⟩

/-- All events so far, in the order in which `take_events` returns them. -/
def stream (s : EventLog H) : List (KVCacheEvent H) := s.taken ++ s.source.kvEventQueue

/-- The state after a call that respects what its caller owes. -/
def step (s : EventLog H) : EventOp H → Option (EventLog H)
  | .call op =>
    if s.source.pool.Respects op then
      (s.source.run op).map fun e =>
        { s with
          source := e
          reported := s.reported ++
            if clears s.source.pool op then [.allBlocksCleared] else [] }
    else none
  | .emitCachedBlockEvents hashes n blockSize gid =>
    (s.source.emitCachedBlockEvents hashes n blockSize gid).map fun e =>
      { s with
        source := e
        reported := s.reported ++ e.kvEventQueue.drop s.source.kvEventQueue.length }
  | .takeEvents =>
    let r := s.source.takeEvents
    some { s with source := r.2, taken := s.taken ++ r.1 }

def run (s : EventLog H) (ops : List (EventOp H)) : Option (EventLog H) := ops.foldlM step s

/-- The stream counts what is cached and what was reported again. -/
structure Accounts (s : EventLog H) : Prop where
  inv : Inv s.source.pool
  ledger : Ledger s.taken (replay s.reported) s.source

theorem replay_cleared (events : List (KVCacheEvent H)) (key : Key H) :
    replay (events ++ [.allBlocksCleared]) key = 0 := by
  rw [replay_append]
  rfl

theorem step_accounts {op : EventOp H} (h : Accounts s) (hstep : s.step op = some s') :
    Accounts s' := by
  cases op with
  | call op =>
    rw [step] at hstep
    split at hstep
    · rename_i hop
      obtain ⟨e, he, rfl⟩ := map_eq_some_iff.mp hstep
      refine ⟨run_inv h.inv hop (run_pool he), ?_⟩
      have hledger := h.ledger.run h.inv hop he
      cases hclears : clears s.source.pool op with
      | true =>
        rw [hclears] at hledger
        rw [if_pos rfl]
        refine ⟨hledger.hashes, hledger.map, hledger.enabled, fun key => ?_⟩
        rw [replay_cleared]
        exact hledger.count key
      | false => simpa [hclears] using hledger
    · cases hstep
  | emitCachedBlockEvents hashes n blockSize gid =>
    obtain ⟨e, he, rfl⟩ := map_eq_some_iff.mp hstep
    unfold EventPool.emitCachedBlockEvents at he
    split at he
    · cases he
      simpa using h
    split at he
    · cases he
    obtain ⟨announced, -, rfl⟩ := map_eq_some_iff.mp he
    refine ⟨by simpa using h.inv, h.ledger.emit fun key n => ?_⟩
    rw [emit_eq h.ledger.enabled, drop_left, replay_append, foldl_cons,
      foldl_cons, foldl_nil, foldl_nil, KVCacheEvent.apply,
      KVCacheEvent.apply]
    omega
  | takeEvents =>
    cases hstep
    refine ⟨?_, ?_⟩
    · unfold takeEvents
      split
      · exact h.inv
      · exact h.inv
    · rw [takeEvents, h.ledger.enabled]
      exact ⟨h.ledger.hashes, h.ledger.map, rfl, fun key => by
        simpa using h.ledger.count key⟩

theorem run_accounts (h : Accounts s) (hrun : s.run ops = some s') : Accounts s' := by
  induction ops generalizing s with
  | nil =>
    cases hrun
    exact h
  | cons op ops ih =>
    obtain ⟨s₁, hstep, hrun⟩ := bind_eq_some_iff.mp hrun
    exact ih (step_accounts h hstep) hrun

omit [DecidableEq H] in
theorem init_cache {n hashBlockSize : Nat} {caching : Bool} {p : BlockPool H}
    (h : BlockPool.init n caching hashBlockSize = some p) (key : Key H) :
    p.cachedBlockHashToBlock.cache key = none := by
  obtain ⟨r, -, rfl⟩ := map_eq_some_iff.mp h
  rfl

theorem init_accounts {n hashBlockSize : Nat} {caching : Bool} {p : BlockPool H}
    (h : BlockPool.init n caching hashBlockSize = some p) : Accounts (init p) := by
  have hinv := init_inv h
  refine ⟨hinv, hinv.hashes, fun key bs hkey => ?_, rfl, fun key => ?_⟩
  · cases (init_cache h key).symm.trans hkey
  · rw [BlockHashToBlockMap.numListed]
    simp only [init, init_cache h key]
    rfl

/-- Without reports nothing is counted extra. -/
theorem run_reported (h : ∀ key, replay s.reported key = 0) (hops : ∀ op ∈ ops, op.isReport = false)
    (hrun : s.run ops = some s') (key : Key H) : replay s'.reported key = 0 := by
  induction ops generalizing s with
  | nil =>
    cases hrun
    exact h key
  | cons op ops ih =>
    obtain ⟨s₁, hstep, hrun⟩ := bind_eq_some_iff.mp hrun
    refine ih (fun k => ?_) (fun o ho => hops o (mem_cons_of_mem _ ho)) hrun
    cases op with
    | call op =>
      rw [step] at hstep
      split at hstep
      · obtain ⟨e, -, rfl⟩ := map_eq_some_iff.mp hstep
        split
        · exact replay_cleared _ k
        · rw [append_nil]
          exact h k
      · cases hstep
    | emitCachedBlockEvents hashes m blockSize gid =>
      cases hops _ mem_cons_self
    | takeEvents =>
      cases hstep
      exact h k

/-- In every run the stream counts for a key the blocks that are cached under it, and how
often the key was reported again. So a key is cached exactly when the stream counts
more than the reports; without reports, exactly when it counts a positive number. -/
theorem run_replay {n hashBlockSize : Nat} {caching : Bool} {p : BlockPool H}
    {ops : List (EventOp H)} (hinit : BlockPool.init n caching hashBlockSize = some p)
    (hrun : (init p).run ops = some s) (key : Key H) :
    ((s.source.pool.cachedBlockHashToBlock.getOneBlock key).isSome ↔
      0 < replay s.stream key - replay s.reported key) ∧
    ((∀ op ∈ ops, op.isReport = false) →
      ((s.source.pool.cachedBlockHashToBlock.getOneBlock key).isSome ↔
        0 < replay s.stream key)) := by
  have haccounts := run_accounts (init_accounts hinit) hrun
  have hcount : replay s.stream key = _ := haccounts.ledger.count key
  have hpresent := s.source.pool.cachedBlockHashToBlock.getOneBlock_isSome_iff key
  constructor
  · rw [hpresent]
    omega
  · intro hops
    have hnone := run_reported (fun _ => rfl) hops hrun key
    rw [hpresent, hcount]
    omega

/-- One block is cached, shared with a second one under the same key, and one of them is
evicted. -/
def duplicateRun : List (EventOp Nat) :=
  [.call (.getNewBlocks 2), .call (.cacheFullBlocks [7] [1] 0 1 2 0 fun _ => true),
    .call (.cacheFullBlocks [7] [2] 0 1 2 0 fun _ => true), .takeEvents,
    .call (.evictBlocks [1])]

/-- There the key was stored twice and removed once, and it is cached. -/
theorem run_replay_duplicateRun :
    ∃ s : EventLog Nat, replay s.stream ⟨7, 0⟩ = 1 ∧
      ((s.source.pool.cachedBlockHashToBlock.getOneBlock ⟨7, 0⟩).isSome ↔
        0 < replay s.stream ⟨7, 0⟩) := by
  have hrun : ((BlockPool.init 4 true 2).bind fun p => ((init p).run duplicateRun).map fun s =>
      replay s.stream ⟨7, 0⟩) = some 1 := by decide
  obtain ⟨p, hinit, hrun⟩ := bind_eq_some_iff.mp hrun
  obtain ⟨s, hs, hcount⟩ := map_eq_some_iff.mp hrun
  refine ⟨s, hcount, (run_replay hinit hs ⟨7, 0⟩).2 ?_⟩
  simp [duplicateRun, EventOp.isReport]

/-- A cached prefix is reported again and then evicted. -/
def reportedRun : List (EventOp Nat) :=
  [.call (.getNewBlocks 1), .call (.cacheFullBlocks [7] [1] 0 1 2 0 fun _ => true),
    .emitCachedBlockEvents [7] 1 2 0, .takeEvents, .call (.evictBlocks [1]), .takeEvents]

/-- There the key was stored twice and removed once, and it is not cached. -/
theorem reportedRun_replay_pos :
    ∃ (p : BlockPool Nat) (s : EventLog Nat), BlockPool.init 3 true 2 = some p ∧
      (init p).run reportedRun = some s ∧ 0 < replay s.stream ⟨7, 0⟩ ∧
      s.source.pool.cachedBlockHashToBlock.getOneBlock ⟨7, 0⟩ = none := by
  have hrun : ((BlockPool.init 3 true 2).bind fun p => ((init p).run reportedRun).map fun s =>
      (decide (0 < replay s.stream ⟨7, 0⟩),
        s.source.pool.cachedBlockHashToBlock.getOneBlock ⟨7, 0⟩)) = some (true, none) := by decide
  obtain ⟨p, hinit, hrun⟩ := bind_eq_some_iff.mp hrun
  obtain ⟨s, hs, heq⟩ := map_eq_some_iff.mp hrun
  obtain ⟨hpos, hnone⟩ := Prod.mk.inj heq
  exact ⟨p, s, hinit, hs, of_decide_eq_true hpos, hnone⟩

end EventLog

end Vllm.Pool
