import Vllm.KVCache.Manager
import Vllm.Library.Fallible
import Vllm.Pool.Hashes

/-!
# What caching registers

`cache_blocks` of any manager changes no table: it removes keys and adds keys of the
request for blocks in its table (`cacheBlocks_caches`). A new key stands for a prefix
within the tokens that the call was made for, or within the checkpoint of this step.
-/

namespace Vllm.KVCache

open Library Pool Pool.BlockPool List

variable {R H : Type} [DecidableEq R] [DecidableEq H]

omit [DecidableEq R] [DecidableEq H] in
theorem orFail_eq_ok {α : Type} {x : Option α} {a : α} : orFail x = .ok a ↔ x = some a := by
  cases x with
  | none => simp [orFail]
  | some b => simp [orFail]

/-- The key of a prefix of at most `limit` tokens, for one of the blocks. -/
def Registers (hashBlockSize gid limit : Nat) (blockHashes : List H) (blocks : List Nat) (b : Nat)
    (key : Key H) : Prop :=
  b ∈ blocks ∧ key.groupId = gid ∧
    ∃ k, (k + 1) * hashBlockSize ≤ limit ∧ blockHashes[k]? = some key.blockHash

/-- Only hashes change, and the bookkeeping of what is cached. -/
structure Caches (ok : Nat → Key H → Prop) (v v' : View R H) : Prop where
  steps : HashSteps ok v.pool v'.pool
  reqToBlocks : v'.mgr.reqToBlocks = v.mgr.reqToBlocks
  pendingCowCopies : v'.mgr.pendingCowCopies = v.mgr.pendingCowCopies
  checkpoints : v'.mgr.checkpoints = v.mgr.checkpoints

variable {ok ok' : Nat → Key H → Prop} {v v' v'' : View R H} {g : Group} {gid : Nat}
  {req : Request R H} {a : CacheArgs} {limit : Nat} {blockHashes : List H} {blocks : List Nat}
  {b blockSize n numHashLookaheadTokens : Nat} {res : Option (Key H) × View R H}

namespace Caches

section

omit [DecidableEq R]

theorem refl (ok : Nat → Key H → Prop) (v : View R H) : Caches ok v v :=
  ⟨.refl _, rfl, rfl, rfl⟩

theorem trans (h : Caches ok v v') (h' : Caches ok v' v'') : Caches ok v v'' :=
  ⟨h.steps.trans h'.steps, h'.reqToBlocks.trans h.reqToBlocks,
    h'.pendingCowCopies.trans h.pendingCowCopies, h'.checkpoints.trans h.checkpoints⟩

theorem mono (h : Caches ok v v') (himp : ∀ b key, ok b key → ok' b key) : Caches ok' v v' :=
  ⟨h.steps.mono himp, h.reqToBlocks, h.pendingCowCopies, h.checkpoints⟩

end

end Caches

omit [DecidableEq H] in
theorem Registers.mono {hashBlockSize limit limit' : Nat} (hle : limit ≤ limit') {key : Key H}
    (h : Registers hashBlockSize gid limit blockHashes blocks b key) :
    Registers hashBlockSize gid limit' blockHashes blocks b key := by
  obtain ⟨hb, hgid, k, hk, hhash⟩ := h
  exact ⟨hb, hgid, k, Nat.le_trans hk hle, hhash⟩

/-! ## The pool -/

/-- The key of a full block ends with the block. -/
theorem registers_of_cacheFullBlocks {p p' : BlockPool H}
    {numCached numFull : Nat} {mask : Nat → Bool} (hpos : 0 < blockSize)
    (h : p.cacheFullBlocks blockHashes blocks numCached numFull blockSize gid mask = some p') :
    HashSteps (Registers p.hashBlockSize gid (numFull * blockSize) blockHashes blocks) p p' := by
  refine (cacheFullBlocks_steps h).mono ?_
  rintro b key ⟨i, hlo, hhi, hblock, -, hgid, hhash⟩
  have hdvd : p.hashBlockSize ∣ blockSize := by
    unfold cacheFullBlocks at h
    rw [if_neg (by omega)] at h
    by_contra hnot
    rw [if_pos (fun hmod => hnot (Nat.dvd_of_mod_eq_zero hmod))] at h
    cases h
  obtain ⟨scale, rfl⟩ := hdvd
  have hhbs : 0 < p.hashBlockSize := Nat.pos_of_mul_pos_right hpos
  have hscale : 0 < scale := Nat.pos_of_mul_pos_left hpos
  rw [blockHashAt, Nat.mul_div_cancel_left scale hhbs] at hhash
  refine ⟨mem_of_getElem? hblock, hgid, _, ?_, hhash⟩
  have hlast : (i + 1) * scale - 1 + 1 = (i + 1) * scale :=
    Nat.sub_add_cancel (Nat.mul_pos (Nat.succ_pos i) hscale)
  calc ((i + 1) * scale - 1 + 1) * p.hashBlockSize
      = (i + 1) * (p.hashBlockSize * scale) := by rw [hlast, Nat.mul_assoc, Nat.mul_comm scale]
    _ ≤ numFull * (p.hashBlockSize * scale) := Nat.mul_le_mul_right _ hhi

omit [DecidableEq R] in
/-- The key of a partial block ends where the call says. -/
theorem caches_of_cachePartialBlock {replace : Bool} (hmem : b ∈ blocks)
    (h : v.cachePartialBlock req b n gid blockSize replace = .ok res) :
    Caches (Registers v.pool.hashBlockSize gid n req.blockHashes blocks) v res.2 := by
  obtain ⟨p, hp, rfl⟩ := map_eq_ok.mp h
  have hp := orFail_eq_ok.mp hp
  refine ⟨?_, rfl, rfl, rfl⟩
  by_cases hnull : (v.pool.blocks b).isNull = true
  · rw [cachePartialBlock, if_pos hnull] at hp
    cases hp
    exact .refl _
  refine (cachePartialBlock_steps hp).mono ?_
  rintro c key ⟨rfl, hgid, hhash⟩
  have hok : n % v.pool.hashBlockSize = 0 ∧ n ≠ 0 := by
    rw [cachePartialBlock, if_neg hnull] at hp
    by_contra hnot
    rw [if_pos (by tauto)] at hp
    cases hp
  have hdiv : 0 < n / v.pool.hashBlockSize := by
    refine Nat.pos_of_ne_zero fun hzero => hok.2 ?_
    have hsplit := Nat.div_add_mod n v.pool.hashBlockSize
    rw [hzero, hok.1] at hsplit
    exact hsplit.symm
  refine ⟨hmem, hgid, n / v.pool.hashBlockSize - 1, ?_, hhash⟩
  rw [Nat.sub_add_cancel hdiv]
  exact Nat.div_mul_le_self n _

/-! ## The managers -/

/-- `cache_blocks` of the base class registers full blocks only. -/
theorem baseCacheBlocks_caches (h : baseCacheBlocks g gid v req a = .ok v') :
    Caches (Registers v.pool.hashBlockSize gid a.numTokens req.blockHashes
      (v.mgr.reqToBlocks req.requestId)) v v' := by
  unfold baseCacheBlocks at h
  split at h
  · cases h
    exact .refl _ _
  dsimp only at h
  split at h
  · cases h
    exact .refl _ _
  obtain ⟨p, hp, rfl⟩ := map_eq_ok.mp h
  refine ⟨(registers_of_cacheFullBlocks g.blockSize_pos (orFail_eq_ok.mp hp)).mono
    fun b key => Registers.mono ?_, rfl, rfl, rfl⟩
  exact Nat.le_trans (Nat.div_mul_le_self _ _) (Nat.min_le_left _ _)

omit [DecidableEq R] in
/-- The tail of the prompt, once the tokens reach it. -/
theorem fullCachePartialTailBlock_caches (h : fullCachePartialTailBlock g gid v req n = .ok v') :
    Caches (Registers v.pool.hashBlockSize gid n req.blockHashes
      (v.mgr.reqToBlocks req.requestId)) v v' := by
  unfold fullCachePartialTailBlock at h
  dsimp only at h
  generalize (if g.useEagle = true then _ else _) = tokenLimit at h
  split at h
  · cases h
    exact .refl _ _
  rename_i hreach
  split at h
  · cases h
    exact .refl _ _
  rename_i block hblock
  obtain ⟨res, hres, rfl⟩ := map_eq_ok.mp h
  refine (caches_of_cachePartialBlock (mem_of_getElem? hblock) hres).mono
    fun b key => Registers.mono ?_
  omega

theorem fullCacheBlocks_caches (h : fullCacheBlocks g gid v req a = .ok v') :
    Caches (Registers v.pool.hashBlockSize gid a.numTokens req.blockHashes
      (v.mgr.reqToBlocks req.requestId)) v v' := by
  obtain ⟨v₁, hbase, h⟩ := bind_eq_ok.mp h
  have hcaches := baseCacheBlocks_caches hbase
  split at h
  · cases h
    exact hcaches
  have htail := fullCachePartialTailBlock_caches h
  rw [hcaches.steps.sameRefs.hashBlockSize, hcaches.reqToBlocks] at htail
  exact hcaches.trans htail

section

variable (hcheckpoint : ∀ c ∈ v.mgr.checkpoints req.requestId, c.1 ≤ limit)
include hcheckpoint

/-- The state of a Mamba group: the checkpoint of this step, or the end of the tokens. -/
theorem mambaCachePartialTailBlock_caches
    (h : mambaCachePartialTailBlock g gid numHashLookaheadTokens v req a = .ok res) :
    Caches (Registers v.pool.hashBlockSize gid (max a.numTokens limit) req.blockHashes
      (v.mgr.reqToBlocks req.requestId)) v res.2 := by
  unfold mambaCachePartialTailBlock at h
  dsimp only at h
  split at h
  · rename_i position idx hposition
    have hle := hcheckpoint _ hposition
    unfold cacheCheckpoint at h
    split at h
    · cases h
    rename_i b hb
    split at h
    · cases h
      exact ⟨.remove b (.refl _), rfl, rfl, rfl⟩
    split at h
    · cases h
      exact .refl _ _
    refine (caches_of_cachePartialBlock (mem_of_getElem? hb) h).mono
      fun b key => Registers.mono ?_
    exact Nat.le_trans hle (Nat.le_max_right _ _)
  · split at h
    · cases h
      exact .refl _ _
    split at h
    · cases h
      exact .refl _ _
    rename_i source hsource
    split at h
    · cases h
      exact .refl _ _
    obtain ⟨⟨key, v₁⟩, hres, rfl⟩ := map_eq_ok.mp h
    have hcaches := (caches_of_cachePartialBlock (mem_of_getElem? hsource) hres).mono
      fun b key => Registers.mono (Nat.le_max_left a.numTokens limit)
    -- The request remembers its own tail; no table changes.
    split
    · exact ⟨hcaches.steps, hcaches.reqToBlocks, hcaches.pendingCowCopies, hcaches.checkpoints⟩
    · exact hcaches

theorem mambaCacheBlocks_caches {mp : MambaParams}
    (h : mambaCacheBlocks g gid numHashLookaheadTokens v req a mp = .ok v') :
    Caches (Registers v.pool.hashBlockSize gid (max a.numTokens limit) req.blockHashes
      (v.mgr.reqToBlocks req.requestId)) v v' := by
  obtain ⟨v₁, hbase, h⟩ := bind_eq_ok.mp h
  obtain ⟨tail, htail, rfl⟩ := map_eq_ok.mp h
  have hcaches := (baseCacheBlocks_caches hbase).mono
    fun b key => Registers.mono (Nat.le_max_left a.numTokens limit)
  have htail : Caches (Registers v.pool.hashBlockSize gid (max a.numTokens limit)
      req.blockHashes (v.mgr.reqToBlocks req.requestId)) v₁ tail.2 := by
    split at htail
    · have := mambaCachePartialTailBlock_caches (hcaches.checkpoints ▸ hcheckpoint) htail
      rwa [hcaches.steps.sameRefs.hashBlockSize, hcaches.reqToBlocks] at this
    · cases htail
      exact .refl _ _
  have hboth := hcaches.trans htail
  exact ⟨hboth.steps, hboth.reqToBlocks, hboth.pendingCowCopies, hboth.checkpoints⟩

/-- What `cache_blocks` of a manager registers. -/
theorem cacheBlocks_caches (h : cacheBlocks g gid numHashLookaheadTokens v req a = .ok v') :
    Caches (Registers v.pool.hashBlockSize gid (max a.numTokens limit) req.blockHashes
      (v.mgr.reqToBlocks req.requestId)) v v' := by
  unfold cacheBlocks at h
  split at h
  · exact (fullCacheBlocks_caches h).mono fun b key => Registers.mono (Nat.le_max_left _ _)
  · exact mambaCacheBlocks_caches hcheckpoint h
  · cases h
  · exact (baseCacheBlocks_caches h).mono fun b key => Registers.mono (Nat.le_max_left _ _)

end

end Vllm.KVCache
