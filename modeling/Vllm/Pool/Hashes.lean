import Vllm.Pool.Basic

/-!
# The hash side of the block pool

The map, the blocks' own hashes and their secondary keys tell the same story
(`HashInv`). Every operation on hashes is built from two: taking all keys off
a block and putting one key on a block. Their effect on who is listed where is
given by `contain_removeCachedBlockHashes` and `contain_insertBlockHash`, and
both keep the invariant. Neither touches a reference count or the free queue
(`SameRefs`).
-/

namespace Vllm.Pool

open Function List Option

variable {H : Type} [DecidableEq H] {bs : List Nat} {c : Nat}

/-! ## The map -/

namespace BlockHashToBlockMap

variable {m : BlockHashToBlockMap H} {key k : Key H} {blockId b : Nat}

theorem mem_dictInsert {a : Nat} : a ∈ dictInsert bs c ↔ a ∈ bs ∨ a = c := by
  unfold dictInsert
  split
  · rename_i hmem
    exact ⟨.inl, fun h => h.elim id fun heq => heq ▸ hmem⟩
  · simp

omit [DecidableEq H] in
@[simp] theorem contain_empty : (empty : BlockHashToBlockMap H).contain k b = false := rfl

theorem contain_insert :
    (m.insert key blockId).contain k b = true ↔
      m.contain k b = true ∨ (k = key ∧ b = blockId) := by
  by_cases hk : k = key
  · subst hk
    simp only [contain, insert, update_self, true_and]
    cases hm : m.cache k with
    | none => simp only [beq_iff_eq, Bool.false_eq_true, false_or, @eq_comm _ b]
    | some v =>
      cases v with
      | single c =>
        simp only [contains_iff_mem, mem_dictInsert, mem_singleton, beq_iff_eq, @eq_comm _ c]
      | dict bs => simp only [contains_iff_mem, mem_dictInsert]
  · simp only [contain, insert, update_of_ne hk, hk, false_and, or_false]

theorem contain_pop :
    (m.pop key blockId).2.contain k b = true ↔
      m.contain k b = true ∧ ¬ (k = key ∧ b = blockId) := by
  by_cases hk : k = key
  · subst hk
    simp only [true_and]
    cases hm : m.cache k with
    | none => simp only [pop, contain, hm, Bool.false_eq_true, false_and]
    | some v =>
      cases v with
      | single c =>
        by_cases hc : c = blockId
        · simp only [pop, contain, hm, hc, if_true, update_self, beq_iff_eq,
            Bool.false_eq_true, false_iff, not_and, not_not]
          exact Eq.symm
        · simp only [pop, contain, hm, hc, if_false, beq_iff_eq]
          exact ⟨fun h => ⟨h, fun hb => hc (h.trans hb)⟩, fun h => h.1⟩
      | dict bs =>
        have hmem : b ∈ bs.filter (· ≠ blockId) ↔ b ∈ bs ∧ b ≠ blockId := by simp
        simp only [pop, contain, hm, update_self, contains_iff_mem, ← hmem]
        by_cases hrest : (bs.filter (· ≠ blockId)).isEmpty = true
        · rw [List.isEmpty_iff.mp hrest]
          simp
        · simp only [hrest, Bool.false_eq_true, if_false, contains_iff_mem]
  · have hcache : (m.pop key blockId).2.cache k = m.cache k := by
      unfold pop
      split
      · rfl
      · split
        · exact update_of_ne hk _ _
        · rfl
      · exact update_of_ne hk _ _
    simp only [contain, hcache, hk, false_and, not_false_eq_true, and_true]

theorem pop_isSome : (m.pop key blockId).1.isSome = m.contain key blockId := by
  unfold pop contain
  cases hm : m.cache key with
  | none => rfl
  | some v =>
    cases v with
    | single c => by_cases hc : c = blockId <;> simp [hc]
    | dict bs => by_cases hb : blockId ∈ bs <;> simp [hb]

end BlockHashToBlockMap

/-! ## Frames -/

namespace BlockPool

/-- Everything but the hashes is the same. -/
structure SameRefs (p p' : BlockPool H) : Prop where
  numGpuBlocks : p'.numGpuBlocks = p.numGpuBlocks
  enableCaching : p'.enableCaching = p.enableCaching
  hashBlockSize : p'.hashBlockSize = p.hashBlockSize
  freeBlockQueue : p'.freeBlockQueue = p.freeBlockQueue
  refCnt : ∀ b, (p'.blocks b).refCnt = (p.blocks b).refCnt
  isNull : ∀ b, (p'.blocks b).isNull = (p.blocks b).isNull

/-- Everything but the reference counts and the free queue is the same. -/
structure SameHashes (p p' : BlockPool H) : Prop where
  numGpuBlocks : p'.numGpuBlocks = p.numGpuBlocks
  enableCaching : p'.enableCaching = p.enableCaching
  hashBlockSize : p'.hashBlockSize = p.hashBlockSize
  blockHash : ∀ b, (p'.blocks b).blockHash = (p.blocks b).blockHash
  blockHashNumTokens : ∀ b, (p'.blocks b).blockHashNumTokens = (p.blocks b).blockHashNumTokens
  isNull : ∀ b, (p'.blocks b).isNull = (p.blocks b).isNull
  map : p'.cachedBlockHashToBlock = p.cachedBlockHashToBlock
  byBlock : p'.cachedBlockHashesByBlock = p.cachedBlockHashesByBlock

variable {p p' p'' : BlockPool H} {key k : Key H} {b : Nat} {n : Option Nat}
  {m : BlockHashToBlockMap H} {keys : List (Key H)}

section

omit [DecidableEq H]

theorem SameRefs.refl (p : BlockPool H) : SameRefs p p :=
  ⟨rfl, rfl, rfl, rfl, fun _ => rfl, fun _ => rfl⟩

theorem SameRefs.trans (h : SameRefs p p') (h' : SameRefs p' p'') : SameRefs p p'' :=
  ⟨h'.numGpuBlocks.trans h.numGpuBlocks, h'.enableCaching.trans h.enableCaching,
    h'.hashBlockSize.trans h.hashBlockSize, h'.freeBlockQueue.trans h.freeBlockQueue,
    fun b => (h'.refCnt b).trans (h.refCnt b), fun b => (h'.isNull b).trans (h.isNull b)⟩

theorem SameHashes.refl (p : BlockPool H) : SameHashes p p :=
  ⟨rfl, rfl, rfl, fun _ => rfl, fun _ => rfl, fun _ => rfl, rfl, rfl⟩

theorem SameHashes.trans (h : SameHashes p p') (h' : SameHashes p' p'') : SameHashes p p'' :=
  ⟨h'.numGpuBlocks.trans h.numGpuBlocks, h'.enableCaching.trans h.enableCaching,
    h'.hashBlockSize.trans h.hashBlockSize, fun b => (h'.blockHash b).trans (h.blockHash b),
    fun b => (h'.blockHashNumTokens b).trans (h.blockHashNumTokens b),
    fun b => (h'.isNull b).trans (h.isNull b), h'.map.trans h.map, h'.byBlock.trans h.byBlock⟩

/-- A block with the same hash and the same nullness may replace another. -/
theorem sameHashes_setRefCnt (p : BlockPool H) (b n : Nat) : SameHashes p (p.setRefCnt b n) := by
  refine ⟨rfl, rfl, rfl, fun c => ?_, fun c => ?_, fun c => ?_, rfl, rfl⟩ <;>
    by_cases hc : c = b <;> simp [setRefCnt, setBlock, hc]

@[simp] theorem setRefCnt_refCnt (p : BlockPool H) (b n c : Nat) :
    ((p.setRefCnt b n).blocks c).refCnt = if c = b then n else (p.blocks c).refCnt := by
  by_cases hc : c = b <;> simp [setRefCnt, setBlock, hc]

end

theorem sameRefs_removeCachedBlockHashes (p : BlockPool H) (b : Nat) :
    SameRefs p (p.removeCachedBlockHashes b).2 := by
  unfold removeCachedBlockHashes
  dsimp only
  split
  · exact ⟨rfl, rfl, rfl, rfl, fun _ => rfl, fun _ => rfl⟩
  · refine ⟨rfl, rfl, rfl, rfl, fun c => ?_, fun c => ?_⟩ <;>
      by_cases hc : c = b <;> simp [setBlock, hc]

theorem sameRefs_insertBlockHash (h : p.insertBlockHash key b n = some p') : SameRefs p p' := by
  unfold insertBlockHash at h
  split at h
  · cases h
    exact .refl p
  split at h
  · cases h
    exact .refl p
  split at h
  · split at h
    · cases h
    · cases h
      refine ⟨rfl, rfl, rfl, rfl, fun c => ?_, fun c => ?_⟩ <;>
        by_cases hc : c = b <;> simp [setBlock, hc]
  · cases h
    exact ⟨rfl, rfl, rfl, rfl, fun _ => rfl, fun _ => rfl⟩

/-! ## The invariant of the hashes -/

/-- The map lists a block under exactly the keys that the block knows of; a
block has secondary keys only beside an own hash that is not one of them; the
null block has no hash. -/
structure HashInv (p : BlockPool H) : Prop where
  listed : ∀ key b, p.cachedBlockHashToBlock.contain key b = true ↔ key ∈ p.blockKeys b
  secondary : ∀ b keys, p.cachedBlockHashesByBlock b = some keys →
    keys ≠ [] ∧ ∃ key, (p.blocks b).blockHash = some key ∧ key ∉ keys
  null : ∀ b, (p.blocks b).isNull = true → (p.blocks b).blockHash = none

section

omit [DecidableEq H]

theorem mem_blockKeys :
    key ∈ p.blockKeys b ↔ (p.blocks b).blockHash = some key ∨
      ∃ keys, p.cachedBlockHashesByBlock b = some keys ∧ key ∈ keys := by
  simp only [blockKeys, mem_append, mem_toList]
  cases p.cachedBlockHashesByBlock b <;> simp

theorem HashInv.byBlock_eq_none (h : HashInv p) (hb : (p.blocks b).blockHash = none) :
    p.cachedBlockHashesByBlock b = none := by
  cases hkeys : p.cachedBlockHashesByBlock b with
  | none => rfl
  | some keys =>
    obtain ⟨-, key, hkey, -⟩ := h.secondary b keys hkeys
    rw [hb] at hkey
    cases hkey

theorem HashInv.of_sameHashes (h : HashInv p) (hp : SameHashes p p') : HashInv p' := by
  have hkeys : ∀ b, p'.blockKeys b = p.blockKeys b := fun b => by
    simp only [blockKeys, hp.blockHash, hp.byBlock]
  refine ⟨fun key b => ?_, fun b keys hb => ?_, fun b hb => ?_⟩
  · rw [hp.map, hkeys]
    exact h.listed key b
  · rw [hp.blockHash]
    exact h.secondary b keys (hp.byBlock ▸ hb)
  · rw [hp.blockHash]
    exact h.null b (hp.isNull b ▸ hb)

end

theorem contain_popHashes :
    (popHashes m b keys).2.contain k c = true ↔
      m.contain k c = true ∧ ¬ (c = b ∧ k ∈ keys) := by
  induction keys generalizing m with
  | nil => simp [popHashes]
  | cons key keys ih =>
    simp only [popHashes, ih, BlockHashToBlockMap.contain_pop, mem_cons]
    tauto

theorem mem_of_mem_popHashes (h : k ∈ (popHashes m b keys).1) : k ∈ keys := by
  induction keys generalizing m with
  | nil => simp [popHashes] at h
  | cons key keys ih =>
    simp only [popHashes] at h
    split at h
    · rcases mem_cons.mp h with rfl | h
      · exact mem_cons_self
      · exact mem_cons_of_mem _ (ih h)
    · exact mem_cons_of_mem _ (ih h)

/-! ### Taking the keys off a block -/

theorem mem_of_mem_removeCachedBlockHashes
    (h : key ∈ (p.removeCachedBlockHashes b).1) : key ∈ p.blockKeys b := by
  unfold removeCachedBlockHashes at h
  dsimp only at h
  split at h
  · simp at h
  · exact mem_of_mem_popHashes h

theorem contain_removeCachedBlockHashes :
    (p.removeCachedBlockHashes b).2.cachedBlockHashToBlock.contain k c = true ↔
      p.cachedBlockHashToBlock.contain k c = true ∧ ¬ (c = b ∧ k ∈ p.blockKeys b) := by
  unfold removeCachedBlockHashes
  dsimp only
  split
  · rename_i hempty
    simp [List.isEmpty_iff.mp hempty]
  · exact contain_popHashes

theorem blockHash_removeCachedBlockHashes (p : BlockPool H) (b c : Nat) :
    ((p.removeCachedBlockHashes b).2.blocks c).blockHash =
      if c = b then none else (p.blocks c).blockHash := by
  unfold removeCachedBlockHashes
  dsimp only
  split
  · rename_i hempty
    split
    · rename_i hc
      subst hc
      have hnil := List.isEmpty_iff.mp hempty
      simp only [blockKeys, append_eq_nil_iff, toList_eq_nil_iff] at hnil
      exact hnil.1
    · rfl
  · by_cases hc : c = b <;> simp [setBlock, hc]

theorem blockHashNumTokens_removeCachedBlockHashes (p : BlockPool H) (hc : c ≠ b) :
    ((p.removeCachedBlockHashes b).2.blocks c).blockHashNumTokens =
      (p.blocks c).blockHashNumTokens := by
  unfold removeCachedBlockHashes
  dsimp only
  split
  · rfl
  · simp [setBlock, hc]

theorem byBlock_removeCachedBlockHashes (p : BlockPool H) (b : Nat) :
    (p.removeCachedBlockHashes b).2.cachedBlockHashesByBlock =
      update p.cachedBlockHashesByBlock b none := by
  unfold removeCachedBlockHashes
  dsimp only
  split <;> rfl

theorem blockKeys_removeCachedBlockHashes (p : BlockPool H) (b c : Nat) :
    (p.removeCachedBlockHashes b).2.blockKeys c = if c = b then [] else p.blockKeys c := by
  by_cases hc : c = b <;>
    simp [blockKeys, blockHash_removeCachedBlockHashes, byBlock_removeCachedBlockHashes, hc]

theorem HashInv.removeCachedBlockHashes (h : HashInv p) (b : Nat) :
    HashInv (p.removeCachedBlockHashes b).2 := by
  refine ⟨fun key c => ?_, fun c keys hc => ?_, fun c hc => ?_⟩
  · rw [contain_removeCachedBlockHashes, h.listed, blockKeys_removeCachedBlockHashes]
    by_cases hc : c = b
    · subst hc
      simp
    · simp [hc]
  · rw [byBlock_removeCachedBlockHashes] at hc
    by_cases hcb : c = b
    · subst hcb
      simp at hc
    rw [update_of_ne hcb] at hc
    rw [blockHash_removeCachedBlockHashes, if_neg hcb]
    exact h.secondary c keys hc
  · rw [blockHash_removeCachedBlockHashes]
    split
    · rfl
    · exact h.null c ((sameRefs_removeCachedBlockHashes p b).isNull c ▸ hc)

/-! ### Putting a key on a block -/

/-- What `_insert_block_hash` does: nothing when the block has the key, else
the key becomes the block's own hash or a secondary key. -/
theorem insertBlockHash_cases (h : HashInv p) (hp : p.insertBlockHash key b n = some p') :
    (key ∈ p.blockKeys b ∧ p' = p) ∨
      (key ∉ p.blockKeys b ∧ (p.blocks b).blockHash = none ∧
        p' = { p with cachedBlockHashToBlock := p.cachedBlockHashToBlock.insert key b }.setBlock b
          { p.blocks b with blockHash := some key, blockHashNumTokens := n }) ∨
      (key ∉ p.blockKeys b ∧ (p.blocks b).blockHash.isSome ∧
        p' = { p with
          cachedBlockHashToBlock := p.cachedBlockHashToBlock.insert key b
          cachedBlockHashesByBlock := update p.cachedBlockHashesByBlock b
            (some ((p.cachedBlockHashesByBlock b).getD [] ++ [key])) }) := by
  unfold insertBlockHash at hp
  split at hp
  · rename_i hown
    exact .inl ⟨mem_blockKeys.mpr (.inl hown), (some.inj hp).symm⟩
  split at hp
  · rename_i hmem
    exact .inl ⟨(h.listed key b).mp hmem, (some.inj hp).symm⟩
  rename_i hnot
  have hkey : key ∉ p.blockKeys b := fun hmem => hnot ((h.listed key b).mpr hmem)
  dsimp only at hp
  split at hp
  · rename_i hnone
    split at hp
    · cases hp
    · exact .inr (.inl ⟨hkey, hnone, (some.inj hp).symm⟩)
  · rename_i own hown
    have hsec : key ∉ (p.cachedBlockHashesByBlock b).getD [] := by
      intro hmem
      exact hkey (mem_append_right _ hmem)
    rw [if_neg hsec] at hp
    exact .inr (.inr ⟨hkey, by simp [hown], (some.inj hp).symm⟩)

theorem blockKeys_insertBlockHash (h : HashInv p)
    (hp : p.insertBlockHash key b n = some p') (c : Nat) :
    p'.blockKeys c =
      if c = b ∧ key ∉ p.blockKeys b then p.blockKeys c ++ [key] else p.blockKeys c := by
  rcases insertBlockHash_cases h hp with ⟨hmem, rfl⟩ | ⟨hnot, hnone, rfl⟩ | ⟨hnot, hsome, rfl⟩
  · simp [hmem]
  · by_cases hc : c = b
    · subst hc
      simp [blockKeys, setBlock, hnone, h.byBlock_eq_none hnone]
    · simp [hc, blockKeys, setBlock]
  · by_cases hc : c = b
    · subst hc
      rw [if_pos ⟨rfl, hnot⟩]
      simp [blockKeys]
    · simp [hc, blockKeys]

theorem HashInv.insertBlockHash (h : HashInv p)
    (hnull : (p.blocks b).isNull = false) (hp : p.insertBlockHash key b n = some p') :
    HashInv p' := by
  have hkeys := blockKeys_insertBlockHash h hp
  have hrefs := sameRefs_insertBlockHash hp
  refine ⟨fun k c => ?_, ?_, ?_⟩
  · rw [hkeys]
    rcases insertBlockHash_cases h hp with ⟨hmem, rfl⟩ | ⟨hnot, -, rfl⟩ | ⟨hnot, -, rfl⟩
    · simp [hmem, h.listed]
    all_goals
      simp only [setBlock, BlockHashToBlockMap.contain_insert, h.listed, hnot,
        not_false_eq_true, and_true]
      by_cases hc : c = b <;> simp [hc]
  · intro c keys hc
    rcases insertBlockHash_cases h hp with ⟨-, rfl⟩ | ⟨hnot, hnone, rfl⟩ | ⟨hnot, hsome, rfl⟩
    · exact h.secondary c keys hc
    · by_cases hcb : c = b
      · subst hcb
        have hbb : p.cachedBlockHashesByBlock c = some keys := hc
        rw [h.byBlock_eq_none hnone] at hbb
        cases hbb
      · simpa [setBlock, hcb] using h.secondary c keys hc
    by_cases hcb : c = b
    · subst hcb
      obtain rfl : (p.cachedBlockHashesByBlock c).getD [] ++ [key] = keys := by simpa using hc
      obtain ⟨own, hown⟩ := isSome_iff_exists.mp hsome
      refine ⟨by simp, own, hown, ?_⟩
      have hne : own ≠ key := fun heq => hnot (mem_blockKeys.mpr (.inl (heq ▸ hown)))
      cases hkeys : p.cachedBlockHashesByBlock c with
      | none => simpa using hne
      | some keys =>
        obtain ⟨-, own', hown', hown''⟩ := h.secondary c keys hkeys
        rw [hown] at hown'
        cases hown'
        simp [hown'', hne]
    · exact h.secondary c keys (by simpa [hcb] using hc)
  · intro c hc
    rw [hrefs.isNull] at hc
    have hcb : c ≠ b := by
      rintro rfl
      rw [hnull] at hc
      cases hc
    rcases insertBlockHash_cases h hp with ⟨-, rfl⟩ | ⟨-, -, rfl⟩ | ⟨-, -, rfl⟩
    · exact h.null c hc
    · simpa [setBlock, hcb] using h.null c hc
    · exact h.null c hc

/-! ## Operations on hashes -/

/-- A sequence of removals of a block's keys and of insertions of keys that are
`ok` for their block. -/
inductive HashSteps (ok : Nat → Key H → Prop) : BlockPool H → BlockPool H → Prop
  | refl (p : BlockPool H) : HashSteps ok p p
  | remove {p p' : BlockPool H} (b : Nat) :
      HashSteps ok p p' → HashSteps ok p (p'.removeCachedBlockHashes b).2
  | insert {p p' p'' : BlockPool H} {key : Key H} {b : Nat} {n : Option Nat} :
      HashSteps ok p p' → ok b key → (p'.blocks b).isNull = false →
      p'.insertBlockHash key b n = some p'' → HashSteps ok p p''

section Steps

variable {ok ok' : Nat → Key H → Prop} {blockHashes : List H} {blockSize groupId : Nat}
  {mask : Nat → Bool}

theorem HashSteps.trans (h : HashSteps ok p p') (h' : HashSteps ok p' p'') :
    HashSteps ok p p'' := by
  induction h' with
  | refl => exact h
  | remove b _ ih => exact .remove b ih
  | insert _ hok hnull hins ih => exact .insert ih hok hnull hins

theorem HashSteps.mono (himp : ∀ b key, ok b key → ok' b key) (h : HashSteps ok p p') :
    HashSteps ok' p p' := by
  induction h with
  | refl => exact .refl _
  | remove b _ ih => exact .remove b ih
  | insert _ hok hnull hins ih => exact .insert ih (himp _ _ hok) hnull hins

theorem HashSteps.sameRefs (h : HashSteps ok p p') : SameRefs p p' := by
  induction h with
  | refl => exact .refl _
  | remove b _ ih => exact ih.trans (sameRefs_removeCachedBlockHashes _ b)
  | insert _ _ _ hins ih => exact ih.trans (sameRefs_insertBlockHash hins)

theorem HashSteps.hashInv (h : HashSteps ok p p') (hinv : HashInv p) : HashInv p' := by
  induction h with
  | refl => exact hinv
  | remove b _ ih => exact ih.removeCachedBlockHashes b
  | insert _ _ hnull hins ih => exact ih.insertBlockHash hnull hins

theorem cacheFullLoop_steps {i : Nat}
    (h : cacheFullLoop blockHashes blockSize groupId mask i bs p = some p') :
    HashSteps (fun b key => ∃ j, bs[j]? = some b ∧ mask (i + j) = true ∧ key.groupId = groupId ∧
      blockHashAt blockHashes p.hashBlockSize blockSize (i + j) = some key.blockHash) p p' := by
  induction bs generalizing i p with
  | nil =>
    cases h
    exact .refl _
  | cons b bs ih =>
    -- a step of the rest of the loop is a step of the loop
    have hshift : ∀ {p₀ : BlockPool H}, p₀.hashBlockSize = p.hashBlockSize →
        cacheFullLoop blockHashes blockSize groupId mask (i + 1) bs p₀ = some p' →
        HashSteps (fun c key => ∃ j, (b :: bs)[j]? = some c ∧ mask (i + j) = true ∧
          key.groupId = groupId ∧
          blockHashAt blockHashes p.hashBlockSize blockSize (i + j) = some key.blockHash)
          p₀ p' := by
      intro p₀ hp₀ hloop
      refine (ih hloop).mono ?_
      rintro c key ⟨j, hj, hmask, hgid, hhash⟩
      refine ⟨j + 1, by simpa using hj, ?_, hgid, ?_⟩
      · rwa [Nat.add_assoc, Nat.add_comm 1 j] at hmask
      · rwa [Nat.add_assoc, Nat.add_comm 1 j, hp₀] at hhash
    simp only [cacheFullLoop] at h
    split at h
    · exact hshift rfl h
    rename_i hskip
    simp only [Bool.or_eq_true, Bool.not_eq_true', not_or, Bool.not_eq_true,
      Bool.not_eq_false] at hskip
    obtain ⟨hash, hhash, h⟩ := bind_eq_some_iff.mp h
    obtain ⟨p₁, hp₁, h⟩ := bind_eq_some_iff.mp h
    obtain ⟨p₂, hp₂, h⟩ := bind_eq_some_iff.mp h
    have hpromote : HashSteps (fun c key => ∃ j, (b :: bs)[j]? = some c ∧
        mask (i + j) = true ∧ key.groupId = groupId ∧
        blockHashAt blockHashes p.hashBlockSize blockSize (i + j) = some key.blockHash)
        p p₁ := by
      split at hp₁
      · cases hp₁
        exact .refl _
      split at hp₁
      · cases hp₁
      split at hp₁
      · cases hp₁
        exact .remove b (.refl _)
      · cases hp₁
    have hnull : (p₁.blocks b).isNull = false := by
      rw [hpromote.sameRefs.isNull]
      exact hskip.1
    have hinsert := hpromote.insert ⟨0, rfl, hskip.2, rfl, hhash⟩ hnull hp₂
    exact hinsert.trans (hshift hinsert.sameRefs.hashBlockSize h)

theorem cacheFullBlocks_steps {blocks : List Nat} {numCached numFull : Nat}
    (h : p.cacheFullBlocks blockHashes blocks numCached numFull blockSize groupId mask = some p') :
    HashSteps (fun b key => ∃ i, numCached ≤ i ∧ i < numFull ∧ blocks[i]? = some b ∧
      mask i = true ∧ key.groupId = groupId ∧
      blockHashAt blockHashes p.hashBlockSize blockSize i = some key.blockHash) p p' := by
  unfold cacheFullBlocks at h
  split at h
  · cases h
    exact .refl _
  split at h
  · cases h
  refine (cacheFullLoop_steps h).mono ?_
  rintro b key ⟨j, hj, hmask, hgid, hhash⟩
  rw [getElem?_drop, getElem?_take] at hj
  split at hj
  · exact ⟨numCached + j, Nat.le_add_right _ _, ‹_›, hj, hmask, hgid, hhash⟩
  · cases hj

theorem cachePartialBlock_steps {numTokens : Nat} {replace : Bool}
    (h : p.cachePartialBlock blockHashes b numTokens groupId blockSize replace = some p') :
    HashSteps (fun c key => c = b ∧ key.groupId = groupId ∧
      blockHashes[numTokens / p.hashBlockSize - 1]? = some key.blockHash) p p' := by
  unfold cachePartialBlock at h
  split at h
  · cases h
    exact .refl _
  rename_i hnull
  split at h
  · cases h
  obtain ⟨hash, hhash, h⟩ := bind_eq_some_iff.mp h
  have hcleared : HashSteps (fun c key => c = b ∧ key.groupId = groupId ∧
      blockHashes[numTokens / p.hashBlockSize - 1]? = some key.blockHash) p
      (if replace then (p.removeCachedBlockHashes b).2
        else if !(decide ((p.blocks b).blockHash = some ⟨hash, groupId⟩) ||
            p.cachedBlockHashToBlock.contain ⟨hash, groupId⟩ b) &&
            p.ownHashShorter b numTokens then
          (p.removeCachedBlockHashes b).2
        else p) := by
    split
    · exact .remove b (.refl p)
    split
    · exact .remove b (.refl p)
    · exact .refl p
  refine hcleared.insert ⟨rfl, rfl, hhash⟩ ?_ h
  rw [hcleared.sameRefs.isNull]
  simpa using hnull

theorem moveBlockHashes_steps {src dst : Nat} (hdst : (p.blocks dst).isNull = false)
    (h : p.moveBlockHashes src dst = some p') :
    HashSteps (fun b key => b = dst ∧ key ∈ p.blockKeys src) p p' := by
  unfold moveBlockHashes at h
  split at h
  · cases h
  dsimp only at h
  have hmem : ∀ key ∈ (p.removeCachedBlockHashes src).1, key ∈ p.blockKeys src :=
    fun key => mem_of_mem_removeCachedBlockHashes
  have hstart : HashSteps (fun b key => b = dst ∧ key ∈ p.blockKeys src) p
      (p.removeCachedBlockHashes src).2 := .remove src (.refl p)
  generalize (p.removeCachedBlockHashes src).1 = keys at h hmem
  generalize (p.removeCachedBlockHashes src).2 = p₀ at h hstart
  induction keys generalizing p₀ with
  | nil =>
    cases h
    exact hstart
  | cons key keys ih =>
    obtain ⟨p₁, hp₁, h⟩ := bind_eq_some_iff.mp h
    refine ih (fun k hk => hmem k (mem_cons_of_mem _ hk)) p₁ h ?_
    refine hstart.insert ⟨rfl, hmem key mem_cons_self⟩ ?_ hp₁
    rw [hstart.sameRefs.isNull]
    exact hdst

theorem evictBlocks_steps {ids : List Nat} (h : p.evictBlocks ids = some p') :
    HashSteps (fun _ _ => False) p p' := by
  unfold evictBlocks at h
  split at h
  · cases h
    clear * -
    induction ids generalizing p with
    | nil => exact .refl p
    | cons b ids ih => exact HashSteps.trans (.remove b (.refl p)) ih
  · cases h

section

omit [DecidableEq H]

/-- Nothing is hashed after a reset. -/
theorem HashInv.resetPrefixCache (h : HashInv p) : HashInv p.resetPrefixCache.2 := by
  unfold BlockPool.resetPrefixCache
  split
  · exact h
  · exact ⟨fun key b => by simp [blockKeys], fun b keys hb => (nomatch hb), fun _ _ => rfl⟩

theorem sameRefs_resetPrefixCache (p : BlockPool H) : SameRefs p p.resetPrefixCache.2 := by
  unfold BlockPool.resetPrefixCache
  split
  · exact .refl p
  · exact ⟨rfl, rfl, rfl, rfl, fun _ => rfl, fun _ => rfl⟩

end

end Steps

end BlockPool

end Vllm.Pool
