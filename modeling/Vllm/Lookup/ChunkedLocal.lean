import Vllm.Lookup.Longest

/-!
# The chunked local lookup

`ChunkedLocalAttentionManager.find_longest_cache_hit` takes the blocks before the chunk of the limit
as computed and looks for the rest. If the chunk starts inside a block and this block is not cached,
the hit ends before the chunk, where the token that is next needs the blocks that were passed over.
-/

namespace Vllm.Lookup

open Pool List

variable {H : Type} {p : BlockPool H} {blockHashes : List H} {groupIds : List Nat}
  {blockSize chunk maxLength : Nat} {row : Row}

/-- The tokens of its chunk that the token at `length` attends to lie in blocks that were found. -/
def ChunkVisible (p : BlockPool H) (blockHashes : List H) (groupIds : List Nat)
    (blockSize chunk : Nat) (rows : List Row) (length : Nat) : Prop :=
  ∀ pos, length / chunk * chunk ≤ pos → pos < length → ∃ row, rows[pos / blockSize]? = some row ∧
    (∀ b ∈ row, b ≠ 0) ∧
    boundaryRow p blockHashes groupIds ((pos / blockSize + 1) * blockSize) = some row

/-- A hit, if there is one, is of this kind. -/
def ChunkSound (p : BlockPool H) (blockHashes : List H) (groupIds : List Nat)
    (blockSize chunk maxLength : Nat) : Prop :=
  ∀ rows length, chunkedLocalHit p blockHashes maxLength groupIds blockSize chunk false blockSize =
    some (rows, length) → ChunkVisible p blockHashes groupIds blockSize chunk rows length

/-! ## The null block -/

/-- The null block is not cached. -/
def NullUncached (p : BlockPool H) : Prop :=
  ∀ key, p.cachedBlockHashToBlock.getOneBlock key ≠ some 0

theorem NullUncached.ne_zero_of_getCachedBlock (h : NullUncached p) {hash : H}
    (hrow : p.getCachedBlock hash groupIds = some row) : ∀ b ∈ row, b ≠ 0 := by
  unfold BlockPool.getCachedBlock at hrow
  induction groupIds generalizing row with
  | nil =>
    cases hrow
    exact fun b hb => (not_mem_nil hb).elim
  | cons g rest ih =>
    simp only [mapM_cons, Option.bind_eq_bind, Option.bind_eq_some_iff, Option.pure_def,
      Option.some.injEq] at hrow
    obtain ⟨first, hfirst, rest', hrest, rfl⟩ := hrow
    refine forall_mem_cons.2 ⟨?_, ih hrest⟩
    rintro rfl
    exact h _ hfirst

theorem NullUncached.ne_zero (h : NullUncached p) {b : Nat}
    (hrow : boundaryRow p blockHashes groupIds b = some row) : ∀ b ∈ row, b ≠ 0 := by
  unfold boundaryRow at hrow
  split at hrow
  · obtain ⟨hash, -, hrow⟩ := Option.bind_eq_some_iff.1 hrow
    exact h.ne_zero_of_getCachedBlock hrow
  · cases hrow

/-! ## Chunks -/

/-- The first block that is looked up. -/
def startBlock (blockSize chunk maxLength : Nat) : Nat := maxLength / chunk * chunk / blockSize

theorem startBlock_le : startBlock blockSize chunk maxLength ≤ maxLength / blockSize :=
  Nat.div_le_div_right (Nat.div_mul_le_self _ _)

/-- A length between the start of the chunk and the limit is in the chunk. -/
theorem chunk_start_eq (hchunk : 0 < chunk) {length : Nat}
    (hlo : maxLength / chunk * chunk ≤ length) (hhi : length ≤ maxLength) :
    length / chunk * chunk = maxLength / chunk * chunk := by
  refine congrArg (· * chunk) (Nat.le_antisymm (Nat.div_le_div_right hhi) ?_)
  exact (Nat.le_div_iff_mul_le hchunk).2 hlo

/-! ## The lookup -/

section Lookup

variable (hdvd : p.hashBlockSize ∣ blockSize) (hblock : 0 < blockSize)

include hblock in
/-- The lookup as the run of cached blocks from the chunk on. -/
theorem chunkedLocalHit_eq : chunkedLocalHit p blockHashes maxLength groupIds blockSize chunk false
      blockSize =
    let start := startBlock blockSize chunk maxLength
    let look := lookup p blockHashes groupIds (blockSize / p.hashBlockSize)
    let run := cachedRun look (maxLength / blockSize - start) start
    if run.length < maxLength / blockSize - start ∧ look (start + run.length) = none then none
    else some (List.replicate start (nullRow groupIds) ++ run,
      (start + run.length) * blockSize) := by
  unfold chunkedLocalHit startBlock
  rw [if_neg (by simp), resolveScale_false hblock]
  simp only [length_append, length_replicate]

include hdvd hblock

/-- A hit that has found a block sees its chunk. -/
theorem chunkVisible_of_run (hnull : NullUncached p) (hchunk : 0 < chunk) {run : List Row}
    (hrun : ∀ j row, run[j]? = some row →
      (lookup p blockHashes groupIds (blockSize / p.hashBlockSize)
      (startBlock blockSize chunk maxLength + j)).join = some row)
    (hle : startBlock blockSize chunk maxLength + run.length ≤ maxLength / blockSize)
    (hne : 0 < run.length) :
    ChunkVisible p blockHashes groupIds blockSize chunk
      (List.replicate (startBlock blockSize chunk maxLength) (nullRow groupIds) ++ run)
      ((startBlock blockSize chunk maxLength + run.length) * blockSize) := by
  have hstart : maxLength / chunk * chunk <
      (startBlock blockSize chunk maxLength + 1) * blockSize :=
    (Nat.div_lt_iff_lt_mul hblock).1 (Nat.lt_succ_self _)
  have hblocks : startBlock blockSize chunk maxLength =
    maxLength / chunk * chunk / blockSize := rfl
  generalize startBlock blockSize chunk maxLength = start at *
  intro pos hlo hhi
  have hlimit : (start + run.length) * blockSize ≤ maxLength :=
    Nat.le_trans (Nat.mul_le_mul_right _ hle) (Nat.div_mul_le_self _ _)
  -- the first block that was found holds the start of the chunk
  have hchunkStart : maxLength / chunk * chunk ≤ (start + run.length) * blockSize :=
    Nat.le_trans (Nat.le_of_lt hstart) (Nat.mul_le_mul_right _ (Nat.add_le_add_left hne _))
  rw [chunk_start_eq hchunk hchunkStart hlimit] at hlo
  have hge : start ≤ pos / blockSize := hblocks ▸ Nat.div_le_div_right hlo
  have hlt : pos / blockSize < start + run.length := (Nat.div_lt_iff_lt_mul hblock).2 hhi
  obtain ⟨row, hrow⟩ : ∃ row, run[pos / blockSize - start]? = some row :=
    ⟨_, getElem?_eq_getElem (by omega)⟩
  have hfound := hrun _ row hrow
  rw [Nat.add_sub_cancel' hge, lookup_join hdvd hblock] at hfound
  refine ⟨row, ?_, hnull.ne_zero hfound, hfound⟩
  rw [getElem?_append_right (by rw [length_replicate]; exact hge), length_replicate]
  exact hrow

omit hdvd hblock in
/-- Without a block the hit sees its chunk just if the blocks that were passed over end with a
chunk. -/
theorem chunkVisible_nulls_iff (hgroups : groupIds ≠ []) (start : Nat) :
    ChunkVisible p blockHashes groupIds blockSize chunk
        (List.replicate start (nullRow groupIds)) (start * blockSize) ↔
      chunk ∣ start * blockSize := by
  constructor
  · intro hvisible
    by_contra hnot
    have hlt : start * blockSize / chunk * chunk < start * blockSize := by
      refine Nat.lt_of_le_of_ne (Nat.div_mul_le_self _ _) fun heq => hnot ?_
      exact ⟨_, heq.symm.trans (Nat.mul_comm _ _)⟩
    obtain ⟨row, hrow, hne, -⟩ := hvisible _ (Nat.le_refl _) hlt
    have hnull : row ∈ List.replicate start (nullRow groupIds) := mem_of_getElem? hrow
    rw [eq_of_mem_replicate hnull] at hne
    obtain ⟨g, hg⟩ := exists_mem_of_ne_nil _ hgroups
    exact hne 0 (mem_map.2 ⟨g, hg, rfl⟩) rfl
  · intro hchunks pos hlo hhi
    rw [Nat.div_mul_cancel hchunks] at hlo
    exact absurd hhi (Nat.not_lt.2 hlo)

/-- The token after a hit sees its chunk, if there is a hit, just if the blocks that are passed over
end with a chunk, or the block after them is not a miss. -/
theorem chunkSound_iff (hnull : NullUncached p) (hchunk : 0 < chunk) (hgroups : groupIds ≠ [])
    (blockHashes : List H) (maxLength : Nat) :
    ChunkSound p blockHashes groupIds blockSize chunk maxLength ↔
    chunk ∣ startBlock blockSize chunk maxLength * blockSize ∨
      (startBlock blockSize chunk maxLength < maxLength / blockSize ∧
        lookup p blockHashes groupIds (blockSize / p.hashBlockSize)
          (startBlock blockSize chunk maxLength) ≠ some none) := by
  unfold ChunkSound
  rw [chunkedLocalHit_eq hblock]
  dsimp only
  generalize hlookup : lookup p blockHashes groupIds (blockSize / p.hashBlockSize) = look
  generalize hstart : startBlock blockSize chunk maxLength = start
  generalize hrun : cachedRun look (maxLength / blockSize - start) start = run
  have hlength := cachedRun_length_le look (maxLength / blockSize - start) start
  have hfound : ∀ j row, run[j]? = some row → (look (start + j)).join = some row := by
    intro j row hrow
    rw [← hrun] at hrow
    exact cachedRun_getElem? hrow
  rw [hrun] at hlength
  cases run with
  | cons row rest =>
    -- a block was found
    have hfirst := hfound 0 row rfl
    rw [length_cons] at hlength
    constructor
    · refine fun _ => .inr ⟨by omega, fun hmiss => ?_⟩
      rw [Nat.add_zero, hmiss] at hfirst
      cases hfirst
    rintro - rows length hhit
    split at hhit
    · cases hhit
    cases hhit
    subst hlookup hstart
    exact chunkVisible_of_run hdvd hblock hnull hchunk hfound
      (by rw [length_cons]; omega) (Nat.succ_pos _)
  | nil =>
    have hstop := @cachedRun_stop look (maxLength / blockSize - start) start
    rw [hrun, length_nil, Nat.add_zero] at hstop
    rw [length_nil, Nat.add_zero, append_nil]
    by_cases hraise : 0 < maxLength / blockSize - start ∧ look start = none
    · rw [if_pos hraise]
      refine ⟨fun _ => .inr ⟨Nat.lt_of_sub_pos hraise.1, ?_⟩,
        fun _ rows length hhit => nomatch hhit⟩
      rw [hraise.2]
      exact nofun
    rw [if_neg hraise, ← chunkVisible_nulls_iff hgroups]
    constructor
    · exact fun hsound => .inl (hsound _ _ rfl)
    rintro (hvisible | ⟨hlt, hfirst⟩) rows length hhit
    · cases hhit
      exact hvisible
    have hlt := Nat.sub_pos_of_lt hlt
    have hnone := hstop hlt
    cases hlook : look start with
    | none => exact absurd ⟨hlt, hlook⟩ hraise
    | some found =>
      rw [hlook] at hnone
      cases found with
      | none => exact absurd hlook hfirst
      | some row => cases hnone

/-- With chunks of whole blocks a hit always sees its chunk. Otherwise it depends on the first block
that is looked up. -/
theorem chunkedLocalHit_sound (hnull : NullUncached p) (hchunk : 0 < chunk)
    (hgroups : groupIds ≠ [])
    (blockHashes : List H) (maxLength : Nat) :
    (blockSize ∣ chunk → ChunkSound p blockHashes groupIds blockSize chunk maxLength) ∧
    (ChunkSound p blockHashes groupIds blockSize chunk maxLength ↔
      chunk ∣ startBlock blockSize chunk maxLength * blockSize ∨
        (startBlock blockSize chunk maxLength < maxLength / blockSize ∧
          lookup p blockHashes groupIds (blockSize / p.hashBlockSize)
            (startBlock blockSize chunk maxLength) ≠ some none)) := by
  have hiff := chunkSound_iff hdvd hblock hnull hchunk hgroups blockHashes maxLength
  refine ⟨fun hwhole => hiff.2 (.inl ?_), hiff⟩
  rw [startBlock, Nat.div_mul_cancel (Nat.dvd_trans hwhole (Nat.dvd_mul_left _ _))]
  exact Nat.dvd_mul_left _ _

end Lookup

/-- No block is cached. -/
def emptyPool : BlockPool Nat := HybridConfig.poolWith 4 []

/-- Chunks of 6 tokens in blocks of 4: with a limit of 8 and nothing cached, the first block is
passed over and the hit is 4 tokens, but the token after it attends to all of them. -/
theorem chunk_not_seen :
    chunkedLocalHit emptyPool [10, 11] 8 [0] 4 6 false 4 = some ([[0]], 4) ∧
      ¬ ChunkVisible emptyPool [10, 11] [0] 4 6 [[0]] 4 := by
  refine ⟨by decide, fun hvisible => ?_⟩
  obtain ⟨row, hrow, hne, -⟩ := hvisible 0 (by decide) (by decide)
  cases hrow
  exact hne 0 (mem_singleton.2 rfl) rfl

/-- One block of four tokens. -/
def oneBlock : BlockPool Nat := HybridConfig.poolWith 4 [(⟨12, 0⟩, 1)]

theorem nullUncached_oneBlock : NullUncached oneBlock := by
  intro key hkey
  by_cases hown : (⟨12, 0⟩ : Key Nat) = key
  · subst hown
    cases hkey
  have hnone : oneBlock.cachedBlockHashToBlock.getOneBlock key = none := by
    simp [oneBlock, HybridConfig.poolWith, BlockHashToBlockMap.getOneBlock, hown]
  rw [hnone] at hkey
  cases hkey

/-- Chunks of 8 tokens in blocks of 4, with the third block cached. -/
theorem chunkedLocalHit_sound_third :
    chunkedLocalHit oneBlock [10, 11, 12] 12 [0] 4 8 false 4 = some ([[0], [0], [1]], 12) ∧
      ChunkVisible oneBlock [10, 11, 12] [0] 4 8 [[0], [0], [1]] 12 :=
  ⟨by decide, (chunkedLocalHit_sound (by decide) (by decide) nullUncached_oneBlock (by decide)
    (by decide) [10, 11, 12] 12).1 (by decide) _ _ (by decide)⟩

end Vllm.Lookup
