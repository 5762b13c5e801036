import Vllm.Library.CeilDiv

/-!
# Cutting prefill chunks for Mamba states

In the "align" cache mode the states of Mamba layers are kept at block
boundaries, so the scheduler cuts a prefill chunk where a state has to be
kept (`Scheduler._mamba_block_aligned_split`). The end of a chunk is first
rounded down to a block boundary unless the chunk finishes the prefill, and
then moved to the earliest *mandatory stop* inside it.
-/

namespace Vllm.Scheduler

open Library List

/-- `get_mamba_prefill_checkpoint_position`. A negative position is cut to 0 in
the source; natural subtraction does the same. -/
def getMambaPrefillCheckpointPosition (numTokens hashBlockSize : Nat) (dropEagleBlock : Bool)
    (numHashLookaheadTokens : Nat) : Nat :=
  let proofLimit :=
    if dropEagleBlock then numTokens else numTokens - max 1 numHashLookaheadTokens
  let checkpointPosition := proofLimit / hashBlockSize * hashBlockSize
  if dropEagleBlock then checkpointPosition - hashBlockSize else checkpointPosition

/-- `is_mamba_prefill_checkpoint_valid`. The two columns may be negative. -/
def isMambaPrefillCheckpointValid (queryStart queryEnd checkpointPosition hashBlockSize
    mambaBlockSize : Nat) (checkpointAlignment : Option Nat) : Bool :=
  match checkpointAlignment with
  | none => false
  | some alignment =>
    let initialStateCol : Int := ((queryStart : Int) - 1) / mambaBlockSize
    let checkpointCol : Int := (cdiv queryEnd mambaBlockSize : Int) - 2
    decide (queryStart % hashBlockSize = 0 ∧ initialStateCol < checkpointCol ∧
      queryStart + hashBlockSize ≤ checkpointPosition ∧
      queryStart < checkpointPosition ∧ checkpointPosition < queryEnd ∧
      (checkpointPosition - queryStart) % alignment = 0)

/-- The scheduler's settings that the cut of a chunk depends on. `blockSize` is
the Mamba block size (`cache_config.block_size`), `schedulerBlockSize` the
alignment of all groups (`Scheduler.block_size`). -/
structure SplitConfig where
  blockSize : Nat
  schedulerBlockSize : Nat
  hashBlockSize : Nat
  blockSize_pos : 0 < blockSize
  hashBlockSize_pos : 0 < hashBlockSize
  useEagleBlockDrop : Bool
  numHashLookaheadTokens : Nat
  mambaPartialCacheHit : Bool
  mambaSharedPrefixCheckpoint : Bool
  mambaHasPrefillCheckpointBlocks : Bool
  mambaPrefillCheckpointAlignment : Option Nat
  maxNumScheduledTokens : Nat
  maxNumBatchedTokens : Nat
  longPrefillTokenThreshold : Nat
  adaptiveLongPrefillThreshold : Bool
  numPrefillLookahead : Nat
  maxModelLen : Nat
  numSampledTokensPerStep : Nat

/-- What the cut reads of a request. -/
structure PrefillRequest where
  numPromptTokens : Nat
  numTokens : Nat
  sharedPrefixBoundary : Nat
  prompt_le : numPromptTokens ≤ numTokens

/-- The end of the part of a request that counts as prefill. A resumed request
replays its output tokens but the last. -/
def PrefillRequest.prefillEnd (r : PrefillRequest) : Nat :=
  max r.numPromptTokens (r.numTokens - 1)

section Split

variable (cfg : SplitConfig) (r : PrefillRequest)

/-- Whether the backend saves the prompt's checkpoint inside the final chunk. -/
def useInternalCheckpoint (start chunkEnd : Nat) : Bool :=
  let ckptBlockSize :=
    if cfg.mambaPartialCacheHit then cfg.hashBlockSize else cfg.schedulerBlockSize
  let checkpointPosition := getMambaPrefillCheckpointPosition r.prefillEnd ckptBlockSize
    cfg.useEagleBlockDrop cfg.numHashLookaheadTokens
  cfg.mambaHasPrefillCheckpointBlocks && decide (r.prefillEnd ≤ chunkEnd) &&
    isMambaPrefillCheckpointValid start chunkEnd checkpointPosition cfg.hashBlockSize
      cfg.blockSize cfg.mambaPrefillCheckpointAlignment

/-- The last block boundary whose state can be kept; none with an internal
checkpoint. -/
def lastCachePosition (internal : Bool) : Nat :=
  if internal then 0
  else getMambaPrefillCheckpointPosition r.numTokens cfg.blockSize cfg.useEagleBlockDrop
    cfg.numHashLookaheadTokens

/-- The hash boundary in the prompt's last block whose state is kept for
sub-block hits. -/
def tailBoundary (internal : Bool) : Nat :=
  if cfg.mambaPartialCacheHit && !internal then
    getMambaPrefillCheckpointPosition r.numPromptTokens cfg.hashBlockSize cfg.useEagleBlockDrop
      cfg.numHashLookaheadTokens
  else 0

/-- The stop for a shared-prefix junction after `start`. -/
def junctionStop (start : Nat) : Nat :=
  let junction := r.sharedPrefixBoundary
  if cfg.mambaSharedPrefixCheckpoint && decide (junction ≤ r.numPromptTokens) then junction
  else start + (junction - start) / cfg.blockSize * cfg.blockSize

/-- The tuple `stops`; 0 stands for no stop. -/
def mandatoryStops (internal : Bool) (start chunkEnd : Nat) : List Nat :=
  [ if start % cfg.blockSize ≠ 0 ∧ internal = false then
      (start / cfg.blockSize + 1) * cfg.blockSize
    else 0,
    lastCachePosition cfg r internal,
    if lastCachePosition cfg r internal < tailBoundary cfg r internal ∧
        tailBoundary cfg r internal < r.numPromptTokens then
      tailBoundary cfg r internal
    else 0,
    if start < r.sharedPrefixBoundary ∧ r.sharedPrefixBoundary < chunkEnd then
      junctionStop cfg r start
    else 0 ]

/-- The largest chunk that a step can have. -/
def maxPrefillTokens : Nat :=
  if 0 < cfg.longPrefillTokenThreshold then
    min cfg.maxNumScheduledTokens cfg.longPrefillTokenThreshold
  else cfg.maxNumScheduledTokens

/-- Rounding the end of a chunk that does not finish the prefill. A block that
is wider than the largest chunk is crossed in steps inside the block. -/
def alignChunkEnd (start chunkEnd : Nat) : Nat :=
  if chunkEnd < r.prefillEnd then
    let alignedEnd := chunkEnd / cfg.blockSize * cfg.blockSize
    if start < alignedEnd ∨ cfg.blockSize ≤ maxPrefillTokens cfg then alignedEnd else chunkEnd
  else chunkEnd

/-- The earliest stop strictly inside the chunk, or its end. -/
def earliestStop (stops : List Nat) (start chunkEnd : Nat) : Nat :=
  ((stops.filter fun s => decide (start < s ∧ s < chunkEnd)).min?).getD chunkEnd

/-- The end of the chunk that `_mamba_block_aligned_split` leaves of
`start..start + numNewTokens`, for a request in prefill. -/
def splitEnd (start numNewTokens : Nat) : Nat :=
  let internal := useInternalCheckpoint cfg r start (start + numNewTokens)
  let chunkEnd := alignChunkEnd cfg r start (start + numNewTokens)
  earliestStop (mandatoryStops cfg r internal start chunkEnd) start chunkEnd

/-- `_mamba_block_aligned_split`, with the position that the chunk starts at. -/
def mambaBlockAlignedSplit (start numNewTokens : Nat) : Nat :=
  if r.prefillEnd ≤ start then numNewTokens
  else splitEnd cfg r start numNewTokens - start

end Split

/-! ## Where a chunk ends -/

section Ends

variable {cfg : SplitConfig} {r : PrefillRequest} {stops : List Nat} {start chunkEnd : Nat}

/-- The earliest stop is a stop inside the chunk, or there is none inside and
it is the end. -/
theorem earliestStop_cases (stops : List Nat) (start chunkEnd : Nat) :
    (earliestStop stops start chunkEnd ∈ stops ∧ start < earliestStop stops start chunkEnd ∧
        earliestStop stops start chunkEnd < chunkEnd ∧
        ∀ s ∈ stops, start < s → s < chunkEnd → earliestStop stops start chunkEnd ≤ s) ∨
      (earliestStop stops start chunkEnd = chunkEnd ∧
        ∀ s ∈ stops, ¬ (start < s ∧ s < chunkEnd)) := by
  unfold earliestStop
  cases hmin : (stops.filter fun s => decide (start < s ∧ s < chunkEnd)).min? with
  | none =>
    simpa [filter_eq_nil_iff] using hmin
  | some m =>
    obtain ⟨hmem, hle⟩ := min?_eq_some_iff.mp hmin
    simp only [mem_filter, decide_eq_true_eq] at hmem hle
    exact .inl ⟨hmem.1, hmem.2.1, hmem.2.2, fun s hs h1 h2 => hle s ⟨hs, h1, h2⟩⟩

theorem earliestStop_le : earliestStop stops start chunkEnd ≤ chunkEnd := by
  rcases earliestStop_cases stops start chunkEnd with
    ⟨-, -, hlt, -⟩ | ⟨heq, -⟩
  · exact Nat.le_of_lt hlt
  · exact Nat.le_of_eq heq

theorem lt_earliestStop (h : start < chunkEnd) : start < earliestStop stops start chunkEnd := by
  rcases earliestStop_cases stops start chunkEnd with
    ⟨-, hlt, -⟩ | ⟨heq, -⟩
  · exact hlt
  · omega

theorem earliestStop_eq_iff :
    earliestStop stops start chunkEnd = chunkEnd ↔
      ∀ s ∈ stops, ¬ (start < s ∧ s < chunkEnd) := by
  rcases earliestStop_cases stops start chunkEnd with
    ⟨hmem, h1, h2, -⟩ | ⟨heq, hnone⟩
  · exact ⟨fun heq => by omega, fun hnone => absurd ⟨h1, h2⟩ (hnone _ hmem)⟩
  · exact ⟨fun _ => hnone, fun _ => heq⟩

theorem alignChunkEnd_le : alignChunkEnd cfg r start chunkEnd ≤ chunkEnd := by
  have := Nat.div_mul_le_self chunkEnd cfg.blockSize
  unfold alignChunkEnd
  split
  · dsimp only
    split <;> omega
  · exact Nat.le_refl _

theorem alignChunkEnd_of_prefillEnd_le (h : r.prefillEnd ≤ chunkEnd) :
    alignChunkEnd cfg r start chunkEnd = chunkEnd := by
  rw [alignChunkEnd, if_neg (Nat.not_lt.mpr h)]

/-- A chunk that is at least a block long keeps tokens when its end is rounded
down. -/
theorem lt_alignChunkEnd (h : start + cfg.blockSize ≤ chunkEnd) :
    start < alignChunkEnd cfg r start chunkEnd := by
  have hpos := cfg.blockSize_pos
  have hlt : start < chunkEnd / cfg.blockSize * cfg.blockSize := by
    have := Nat.lt_div_mul_add hpos (a := chunkEnd)
    omega
  unfold alignChunkEnd
  split
  · rw [if_pos (.inl hlt)]
    exact hlt
  · omega

/-- Where no chunk is as long as a block, rounding never takes all tokens. -/
theorem lt_alignChunkEnd_of_wide (hwide : maxPrefillTokens cfg < cfg.blockSize)
    (h : start < chunkEnd) : start < alignChunkEnd cfg r start chunkEnd := by
  unfold alignChunkEnd
  split
  · dsimp only
    split <;> omega
  · exact h

theorem splitEnd_le (cfg : SplitConfig) (r : PrefillRequest) (start n : Nat) :
    splitEnd cfg r start n ≤ start + n :=
  Nat.le_trans earliestStop_le alignChunkEnd_le

end Ends

end Vllm.Scheduler
