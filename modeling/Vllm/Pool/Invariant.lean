import Vllm.Pool.Refs

/-!
# The representation invariant of the block pool

A pool that was built by `init` and changed by calls of its nine operations
keeps its redundant structures consistent (`reachable_repInv`): the free queue
holds exactly the blocks without references, the hash map lists a block under
exactly the keys the block knows of, secondary keys stand beside an own hash,
and the null block is neither free nor hashed.
-/

namespace Vllm.Pool

open Library List

variable {H : Type} [DecidableEq H]

/-- A call of the pool. -/
inductive PoolOp (H : Type) where
  | getNewBlocks (numBlocks : Nat)
  | touch (blocks : List Nat)
  | freeBlocks (orderedBlocks : List Nat)
  | unpinBlocks (blocks : List Nat)
  | cacheFullBlocks (blockHashes : List H) (blocks : List Nat)
      (numCachedBlocks numFullBlocks blockSize groupId : Nat) (mask : Nat → Bool)
  | cachePartialBlock (blockHashes : List H) (block numTokens groupId blockSize : Nat)
      (replaceExistingHashes : Bool)
  | moveBlockHashes (src dst : Nat)
  | evictBlocks (blockIds : List Nat)
  | resetPrefixCache

namespace BlockPool

/-- The pool after a call; `none` when the call raises. -/
def run (p : BlockPool H) : PoolOp H → Option (BlockPool H)
  | .getNewBlocks n => (p.getNewBlocks n).map (·.2)
  | .touch bs => p.touch bs
  | .freeBlocks bs => p.freeBlocks bs
  | .unpinBlocks bs => p.unpinBlocks bs
  | .cacheFullBlocks hs bs c f size gid mask => p.cacheFullBlocks hs bs c f size gid mask
  | .cachePartialBlock hs b n gid size replace => p.cachePartialBlock hs b n gid size replace
  | .moveBlockHashes src dst => p.moveBlockHashes src dst
  | .evictBlocks ids => p.evictBlocks ids
  | .resetPrefixCache => some p.resetPrefixCache.2

/-- What a caller owes beyond what the call itself asserts: the blocks are the
pool's, references are given back by their holders only, and hashes are moved
to a block that was allocated for them. -/
def Respects (p : BlockPool H) : PoolOp H → Prop
  | .touch bs => ∀ b ∈ bs, b < p.numGpuBlocks
  | .freeBlocks bs => ∀ b ∈ bs, b < p.numGpuBlocks ∧ p.refsIn bs b ≤ (p.blocks b).refCnt
  | .unpinBlocks bs => ∀ b ∈ bs, b < p.numGpuBlocks
  | .moveBlockHashes _ dst => (p.blocks dst).isNull = false
  | _ => True

instance (p : BlockPool H) : (op : PoolOp H) → Decidable (p.Respects op)
  | .touch bs => inferInstanceAs (Decidable (∀ b ∈ bs, b < p.numGpuBlocks))
  | .freeBlocks bs => inferInstanceAs (Decidable (∀ b ∈ bs, b < p.numGpuBlocks ∧
      p.refsIn bs b ≤ (p.blocks b).refCnt))
  | .unpinBlocks bs => inferInstanceAs (Decidable (∀ b ∈ bs, b < p.numGpuBlocks))
  | .moveBlockHashes _ dst => inferInstanceAs (Decidable ((p.blocks dst).isNull = false))
  | .getNewBlocks _ | .cacheFullBlocks .. | .cachePartialBlock .. | .evictBlocks _
  | .resetPrefixCache => .isTrue trivial

/-- Calls one after another, each checked against what its caller owes. -/
def runAll (p : BlockPool H) : List (PoolOp H) → Option (BlockPool H)
  | [] => some p
  | op :: ops => if p.Respects op then (p.run op).bind (·.runAll ops) else none

/-- The pools that arise. -/
inductive Reachable : BlockPool H → Prop
  | init (n : Nat) (caching : Bool) (hashBlockSize : Nat) {p : BlockPool H} :
      BlockPool.init n caching hashBlockSize = some p → Reachable p
  | step {p p' : BlockPool H} (op : PoolOp H) :
      Reachable p → p.Respects op → p.run op = some p' → Reachable p'

/-- The three structures beside the blocks agree with the blocks. -/
structure RepInv (p : BlockPool H) : Prop where
  free_nodup : p.freeBlockQueue.toList.Nodup
  mem_free_iff : ∀ b, b ∈ p.freeBlockQueue.toList ↔
    b < p.numGpuBlocks ∧ (p.blocks b).isNull = false ∧ (p.blocks b).refCnt = 0
  numFree : p.getNumFreeBlocks = p.freeBlockQueue.toList.length
  listed_iff : ∀ key b, p.cachedBlockHashToBlock.contain key b = true ↔
    (p.blocks b).blockHash = some key ∨ key ∈ (p.cachedBlockHashesByBlock b).getD []
  secondary : ∀ b, (p.cachedBlockHashesByBlock b).getD [] ≠ [] →
    ∃ own, (p.blocks b).blockHash = some own ∧ own ∉ (p.cachedBlockHashesByBlock b).getD []
  null : ∀ b, (p.blocks b).isNull = true → b ∉ p.freeBlockQueue.toList ∧
    (p.blocks b).blockHash = none ∧ ∀ key, p.cachedBlockHashToBlock.contain key b = false

/-- What a call keeps. -/
structure Inv (p : BlockPool H) : Prop where
  hashes : HashInv p
  free : FreeInv p []
  null : ∀ b, (p.blocks b).isNull = true ↔ b = 0

variable {p p' : BlockPool H}

omit [DecidableEq H] in
theorem Inv.of_sameHashes (h : Inv p) (hsame : SameHashes p p') (hfree : FreeInv p' []) : Inv p' :=
  ⟨h.hashes.of_sameHashes hsame, hfree, fun b => by rw [hsame.isNull]; exact h.null b⟩

theorem Inv.of_hashSteps {ok : Nat → Key H → Prop} (h : Inv p) (hsteps : HashSteps ok p p') :
    Inv p' :=
  ⟨hsteps.hashInv h.hashes, h.free.of_sameRefs hsteps.sameRefs,
    fun b => by rw [hsteps.sameRefs.isNull]; exact h.null b⟩

omit [DecidableEq H] in
/-- A new pool has all blocks but the first in its queue. -/
theorem init_inv {n : Nat} {caching : Bool} {hashBlockSize : Nat}
    (h : BlockPool.init n caching hashBlockSize = some p) : Inv p := by
  obtain ⟨⟨first, q⟩, hpop, rfl⟩ := Option.map_eq_some_iff.mp h
  cases n with
  | zero => cases hpop
  | succ n =>
    have hrange : List.range (n + 1) = 0 :: (List.range n).map Nat.succ :=
      range_succ_eq_map
    have hnodup : (0 :: (List.range n).map Nat.succ).Nodup := hrange ▸ nodup_range
    have hrep := LinkedQueue.represents_ofList hnodup
    rw [hrange] at hpop
    obtain ⟨q', hq', hrep'⟩ := hrep.popleft
    cases hpop.symm.trans hq'
    refine ⟨⟨fun key b => ?_, fun b keys hb => (nomatch hb), fun _ _ => rfl⟩,
      ⟨_, hrep', by simpa using hrep'.nodup, fun b => ?_⟩, fun b => by simp⟩
    · simp [blockKeys]
    simp only [append_nil, mem_map, mem_range, IsFree, beq_eq_false_iff_ne, and_true]
    constructor
    · rintro ⟨m, hm, rfl⟩
      exact ⟨Nat.succ_lt_succ hm, Nat.succ_ne_zero m⟩
    · rintro ⟨hlt, hne⟩
      exact ⟨b - 1, by omega, by omega⟩

/-- Every call keeps the invariant. -/
theorem run_inv {op : PoolOp H} (h : Inv p) (hop : p.Respects op) (hrun : p.run op = some p') :
    Inv p' := by
  cases op with
  | getNewBlocks n =>
    obtain ⟨⟨bs, p₁⟩, hget, rfl⟩ := Option.map_eq_some_iff.mp hrun
    obtain ⟨-, -, hfree, halloc⟩ := getNewBlocks_eq_some h.free hget
    exact ⟨halloc.hashInv h.hashes, hfree, fun b => by rw [halloc.isNull]; exact h.null b⟩
  | touch bs =>
    obtain ⟨p₁, hp₁, hfree, hsame, -⟩ := touch_spec h.free hop
    cases hp₁.symm.trans hrun
    exact h.of_sameHashes hsame hfree
  | freeBlocks bs =>
    have hrefs : ∀ b, p.refsIn bs b ≤ (p.blocks b).refCnt := by
      intro b
      by_cases hb : b ∈ bs
      · exact (hop b hb).2
      · simp [refsIn, count_eq_zero_of_not_mem hb]
    obtain ⟨p₁, hp₁, hfree, hsame, -⟩ :=
      freeBlocks_spec h.free (fun b hb => (hop b hb).1) hrefs
    cases hp₁.symm.trans hrun
    exact h.of_sameHashes hsame hfree
  | unpinBlocks bs =>
    obtain ⟨hfree, hsame, -⟩ := unpinBlocks_spec h.free hop hrun
    exact h.of_sameHashes hsame hfree
  | cacheFullBlocks hs bs c f size gid mask => exact h.of_hashSteps (cacheFullBlocks_steps hrun)
  | cachePartialBlock hs b n gid size replace =>
    exact h.of_hashSteps (cachePartialBlock_steps hrun)
  | moveBlockHashes src dst => exact h.of_hashSteps (moveBlockHashes_steps hop hrun)
  | evictBlocks ids => exact h.of_hashSteps (evictBlocks_steps hrun)
  | resetPrefixCache =>
    cases hrun
    have hsame := sameRefs_resetPrefixCache p
    exact ⟨h.hashes.resetPrefixCache, h.free.of_sameRefs hsame,
      fun b => by rw [hsame.isNull]; exact h.null b⟩

theorem Reachable.inv (h : Reachable p) : Inv p := by
  induction h with
  | init n caching hashBlockSize hinit => exact init_inv hinit
  | step op _ hop hrun ih => exact run_inv ih hop hrun

omit [DecidableEq H] in
/-- The invariant, read off the links of the queue. -/
theorem Inv.repInv (h : Inv p) : RepInv p := by
  obtain ⟨xs, hxs, hsize, hnodup, hmem⟩ := h.free.getNumFreeBlocks_eq
  have hlist := hxs.toList_eq
  have hkeys : ∀ key b, key ∈ p.blockKeys b ↔
      (p.blocks b).blockHash = some key ∨ key ∈ (p.cachedBlockHashesByBlock b).getD [] := by
    intro key b
    simp [blockKeys]
  refine ⟨hlist ▸ hnodup, fun b => hlist ▸ hmem b, by rw [hlist, hsize],
    fun key b => (h.hashes.listed key b).trans (hkeys key b), fun b hb => ?_, fun b hb => ?_⟩
  · cases hby : p.cachedBlockHashesByBlock b with
    | none =>
      rw [hby] at hb
      exact absurd rfl hb
    | some keys =>
      obtain ⟨-, own, hown, hnot⟩ := h.hashes.secondary b keys hby
      exact ⟨own, hown, hnot⟩
  · have hnone := h.hashes.null b hb
    refine ⟨fun hin => ?_, hnone, fun key => ?_⟩
    · have := ((hmem b).mp (hlist ▸ hin)).2.1
      rw [hb] at this
      cases this
    · rw [← Bool.not_eq_true, h.hashes.listed, hkeys, hnone, h.hashes.byBlock_eq_none hnone]
      simp

theorem Reachable.runAll {ops : List (PoolOp H)} (h : Reachable p)
    (hrun : p.runAll ops = some p') : Reachable p' := by
  induction ops generalizing p with
  | nil =>
    cases hrun
    exact h
  | cons op ops ih =>
    rw [BlockPool.runAll] at hrun
    split at hrun
    · rename_i hop
      obtain ⟨p₁, hp₁, hrun⟩ := Option.bind_eq_some_iff.mp hrun
      exact ih (h.step op hop hp₁) hrun
    · cases hrun

/-- In every pool that arises from `init` by calls that respect their
preconditions, the free queue, the hash map and the secondary keys agree with
the blocks. -/
theorem reachable_repInv (h : Reachable p) : RepInv p :=
  h.inv.repInv

/-- A pool of three blocks that handed out a block, cached it under two keys
and got it back. -/
theorem reachable_repInv_cached_block :
    ∃ p : BlockPool Nat, Reachable p ∧ RepInv p ∧ p.freeBlockQueue.toList = [2, 1] ∧
      p.cachedBlockHashToBlock.contain ⟨7, 0⟩ 1 = true ∧
      p.cachedBlockHashToBlock.contain ⟨8, 0⟩ 1 = true := by
  have hrun : ((BlockPool.init 3 true 2).bind fun p => (p.runAll [.getNewBlocks 1,
      .cachePartialBlock [8, 7] 1 4 0 4 false, .cachePartialBlock [8, 7] 1 2 0 4 false,
      .freeBlocks [1]]).map fun p => (p.freeBlockQueue.toList,
        p.cachedBlockHashToBlock.contain ⟨7, 0⟩ 1, p.cachedBlockHashToBlock.contain ⟨8, 0⟩ 1)) =
      some ([2, 1], true, true) := by decide
  obtain ⟨p₀, hinit, hrun⟩ := Option.bind_eq_some_iff.mp hrun
  obtain ⟨p, hp, heq⟩ := Option.map_eq_some_iff.mp hrun
  have hreach := (Reachable.init 3 true 2 hinit).runAll hp
  simp only [Prod.mk.injEq] at heq
  exact ⟨p, hreach, reachable_repInv hreach, heq⟩

end BlockPool

end Vllm.Pool
