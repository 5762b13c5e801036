import Vllm.Scheduler.AlignedSplit

/-!
# Progress of a prefill

A chunk is cut twice. `_mamba_block_aligned_split` moves its end to a position
where a Mamba state is kept; `_reserve_prefill_lookahead` then keeps the end
out of the last `numPrefillLookahead` tokens, unless the chunk finishes the
prefill. When at most `numPrefillLookahead` tokens are left and the first cut
ends before the last of them, the second cut takes everything the first one
left: the request is `Pinned`, whatever the budget.

`prefill_progress_iff` shows that this is the only way to stop: with a budget
of at least a block and the lookahead, a chunk is positive exactly when the
request is not pinned, and scheduling the request alone, again and again,
finishes it exactly when it never gets to a pinned position. The threshold for
long prefills pins a request only next to others: a step with one eligible
request has none.
-/

namespace Vllm.Scheduler

section Chunk

variable (cfg : SplitConfig) (r : PrefillRequest)

/-- `long_prefill_token_threshold` of a step with `numEligibleReqs` running and
waiting requests. A request that is alone starves nobody, and an adaptive
threshold leaves each request its share of the input budget. -/
def stepThreshold (numEligibleReqs : Nat) : Nat :=
  if 1 < numEligibleReqs ∧ 0 < cfg.longPrefillTokenThreshold then
    if cfg.adaptiveLongPrefillThreshold then
      max cfg.longPrefillTokenThreshold (cfg.maxNumBatchedTokens / numEligibleReqs)
    else cfg.longPrefillTokenThreshold
  else 0

/-- The number of tokens before the cuts, as the running loop of `schedule`
computes it for a request in prefill (without speculative tokens). `budget` is
the smaller one of `token_budget` and `input_budget - draft_slots`. -/
def numNewTokens (numEligibleReqs start budget : Nat) : Nat :=
  let remaining := r.numTokens - start
  let threshold := stepThreshold cfg numEligibleReqs
  let capped := if 0 < threshold ∧ threshold < remaining then threshold else remaining
  min (min capped budget) (cfg.maxModelLen - start - cfg.numSampledTokensPerStep)

/-- `_reserve_prefill_lookahead`. -/
def reservePrefillLookahead (start numNew : Nat) : Nat :=
  let remaining := r.numTokens - start - numNew
  if 0 < remaining ∧ remaining < cfg.numPrefillLookahead then
    numNew - (cfg.numPrefillLookahead - remaining)
  else numNew

/-- The chunk that a request in prefill without encoder inputs gets. -/
def prefillChunk (numEligibleReqs start budget : Nat) : Nat :=
  reservePrefillLookahead cfg r start
    (mambaBlockAlignedSplit cfg r start (numNewTokens cfg r numEligibleReqs start budget))

/-- The position after `n` steps in which the request is the only one. -/
def positionAfter (start : Nat) (budgets : Nat → Nat) : Nat → Nat
  | 0 => start
  | n + 1 =>
    let position := positionAfter start budgets n
    position + prefillChunk cfg r 1 position (budgets n)

/-- A position at which a chunk has to stop lies between `start` and the last
token: the end of a block that `start` is inside of, the last boundary whose
state can be kept, the prompt's tail boundary or a junction. -/
def StopAhead (start : Nat) : Prop :=
  let internal := useInternalCheckpoint cfg r start r.numTokens
  (start % cfg.blockSize ≠ 0 ∧ internal = false ∧
      (start / cfg.blockSize + 1) * cfg.blockSize < r.numTokens) ∨
    (start < lastCachePosition cfg r internal ∧ lastCachePosition cfg r internal < r.numTokens) ∨
    (lastCachePosition cfg r internal < tailBoundary cfg r internal ∧
      start < tailBoundary cfg r internal ∧ tailBoundary cfg r internal < r.numPromptTokens) ∨
    (start < r.sharedPrefixBoundary ∧ r.sharedPrefixBoundary < r.numTokens ∧
      start < junctionStop cfg r start ∧ junctionStop cfg r start < r.numTokens)

/-- At most the lookahead is left, and the step's threshold for long prefills or
a stop ahead cuts the chunk before its end. -/
def Pinned (numEligibleReqs start : Nat) : Prop :=
  let threshold := stepThreshold cfg numEligibleReqs
  start < r.prefillEnd ∧ r.numTokens - start ≤ cfg.numPrefillLookahead ∧
    ((0 < threshold ∧ threshold < r.numTokens - start) ∨ StopAhead cfg r start)

instance (start : Nat) : Decidable (StopAhead cfg r start) :=
  inferInstanceAs (Decidable (_ ∨ _ ∨ _ ∨ _))

instance (numEligibleReqs start : Nat) : Decidable (Pinned cfg r numEligibleReqs start) :=
  inferInstanceAs (Decidable (_ ∧ _ ∧ _))

/-- Blocks of 32 tokens with states at multiples of 16, three lookahead tokens:
the settings of the runs below. -/
def lookaheadConfig : SplitConfig where
  blockSize := 32
  schedulerBlockSize := 32
  hashBlockSize := 16
  blockSize_pos := by decide
  hashBlockSize_pos := by decide
  useEagleBlockDrop := false
  numHashLookaheadTokens := 3
  mambaPartialCacheHit := true
  mambaSharedPrefixCheckpoint := false
  mambaHasPrefillCheckpointBlocks := false
  mambaPrefillCheckpointAlignment := none
  maxNumScheduledTokens := 64
  maxNumBatchedTokens := 64
  longPrefillTokenThreshold := 0
  adaptiveLongPrefillThreshold := false
  numPrefillLookahead := 3
  maxModelLen := 1024
  numSampledTokensPerStep := 1

/-- A fresh prompt of `n` tokens. -/
def promptOf (n : Nat) : PrefillRequest := ⟨n, n, 0, Nat.le_refl n⟩

end Chunk

section Progress

variable {cfg : SplitConfig} {r : PrefillRequest} {numEligibleReqs start budget : Nat}

theorem le_stepThreshold (h : 0 < stepThreshold cfg numEligibleReqs) :
    0 < cfg.longPrefillTokenThreshold ∧
      cfg.longPrefillTokenThreshold ≤ stepThreshold cfg numEligibleReqs := by
  revert h
  unfold stepThreshold
  split
  · rename_i hmany
    refine fun _ => ⟨hmany.2, ?_⟩
    split
    · exact Nat.le_max_left _ _
    · exact Nat.le_refl _
  · exact fun h => absurd h (Nat.lt_irrefl 0)

theorem PrefillRequest.prefillEnd_le : r.prefillEnd ≤ r.numTokens :=
  Nat.max_le.mpr ⟨r.prompt_le, Nat.sub_le _ _⟩

theorem numTokens_le_prefillEnd_succ : r.numTokens ≤ r.prefillEnd + 1 := by
  have : r.numTokens - 1 ≤ r.prefillEnd := Nat.le_max_right _ _
  omega

theorem stopAhead_iff :
    StopAhead cfg r start ↔
      ∃ s ∈ mandatoryStops cfg r (useInternalCheckpoint cfg r start r.numTokens) start r.numTokens,
        start < s ∧ s < r.numTokens := by
  have hle := r.prompt_le
  have hnext : start < (start / cfg.blockSize + 1) * cfg.blockSize := by
    have := Nat.lt_div_mul_add cfg.blockSize_pos (a := start)
    rwa [← Nat.succ_mul] at this
  -- 0 stands for no stop, and it is not after `start`
  have hite : ∀ (p : Prop) [Decidable p] (s : Nat),
      (start < (if p then s else 0) ∧ (if p then s else 0) < r.numTokens) ↔
        p ∧ start < s ∧ s < r.numTokens := by
    intro p _ s
    split <;> simp_all
  simp only [mandatoryStops, List.mem_cons, List.not_mem_nil, or_false, exists_eq_or_imp,
    exists_eq_left, hite, StopAhead]
  refine or_congr ?_ (or_congr Iff.rfl (or_congr ?_ ?_))
  · exact ⟨fun ⟨h1, h2, h3⟩ => ⟨⟨h1, h2⟩, hnext, h3⟩, fun ⟨⟨h1, h2⟩, _, h3⟩ => ⟨h1, h2, h3⟩⟩
  · exact ⟨fun ⟨h1, h2, h3⟩ => ⟨⟨h1, h3⟩, h2, Nat.lt_of_lt_of_le h3 hle⟩,
      fun ⟨⟨h1, h3⟩, h2, _⟩ => ⟨h1, h2, h3⟩⟩
  · exact ⟨fun ⟨h1, h2, h3, h4⟩ => ⟨⟨h1, h2⟩, h3, h4⟩, fun ⟨⟨h1, h2⟩, h3, h4⟩ => ⟨h1, h2, h3, h4⟩⟩

variable (hfit : r.numTokens + cfg.numSampledTokensPerStep ≤ cfg.maxModelLen)

include hfit

theorem numNewTokens_eq (hstart : start < r.numTokens) :
    numNewTokens cfg r numEligibleReqs start budget =
      min (if 0 < stepThreshold cfg numEligibleReqs ∧
          stepThreshold cfg numEligibleReqs < r.numTokens - start then
        stepThreshold cfg numEligibleReqs else r.numTokens - start) budget := by
  unfold numNewTokens
  dsimp only
  split <;> omega

/-- The first cut leaves tokens when the budget covers a block. -/
theorem lt_splitEnd (hstart : start < r.prefillEnd) (hbudget : cfg.blockSize ≤ budget) :
    start < splitEnd cfg r start (numNewTokens cfg r numEligibleReqs start budget) := by
  have hle := r.prefillEnd_le
  refine lt_earliestStop ?_
  rw [numNewTokens_eq hfit (by omega)]
  split
  · rename_i hlong
    -- the split reads the configured threshold, which is not above the step's
    obtain ⟨hset, hle'⟩ := le_stepThreshold hlong.1
    rcases Nat.lt_or_ge (stepThreshold cfg numEligibleReqs) cfg.blockSize with hwide | hblock
    · refine lt_alignChunkEnd_of_wide ?_ (by omega)
      rw [maxPrefillTokens, if_pos hset]
      omega
    · exact lt_alignChunkEnd (by omega)
  · rcases Nat.lt_or_ge (r.numTokens - start) budget with hfin | hcut
    · rw [alignChunkEnd_of_prefillEnd_le (by omega)]
      omega
    · exact lt_alignChunkEnd (by omega)

/-- When at most the lookahead is left, the first cut reaches the end unless
the request is pinned. -/
theorem splitEnd_eq_numTokens_iff (hstart : start < r.prefillEnd)
    (hleft : r.numTokens - start ≤ cfg.numPrefillLookahead)
    (hbudget : cfg.numPrefillLookahead ≤ budget) :
    splitEnd cfg r start (numNewTokens cfg r numEligibleReqs start budget) = r.numTokens ↔
      ¬ Pinned cfg r numEligibleReqs start := by
  have hle := r.prefillEnd_le
  rw [numNewTokens_eq hfit (by omega)]
  by_cases hlong : 0 < stepThreshold cfg numEligibleReqs ∧
      stepThreshold cfg numEligibleReqs < r.numTokens - start
  · rw [if_pos hlong]
    have hcut := splitEnd_le cfg r start (min (stepThreshold cfg numEligibleReqs) budget)
    refine ⟨fun h => by omega, fun h => absurd ⟨hstart, hleft, .inl hlong⟩ h⟩
  rw [if_neg hlong, Nat.min_eq_left (by omega)]
  have hend : start + (r.numTokens - start) = r.numTokens := by omega
  simp only [splitEnd, hend, alignChunkEnd_of_prefillEnd_le hle, earliestStop_eq_iff]
  constructor
  · rintro hnone ⟨-, -, hlong' | hstop⟩
    · exact hlong hlong'
    · obtain ⟨s, hs, hin⟩ := stopAhead_iff.mp hstop
      exact hnone s hs hin
  · exact fun hpin s hs hin =>
      hpin ⟨hstart, hleft, .inr (stopAhead_iff.mpr ⟨s, hs, hin⟩)⟩

/-- A chunk is positive exactly when the request is not pinned. -/
theorem prefillChunk_pos_iff (hstart : start < r.prefillEnd)
    (hbudget : cfg.blockSize + cfg.numPrefillLookahead ≤ budget) :
    0 < prefillChunk cfg r numEligibleReqs start budget ↔
      ¬ Pinned cfg r numEligibleReqs start := by
  have hle := r.prefillEnd_le
  have hlt : start < splitEnd cfg r start (numNewTokens cfg r numEligibleReqs start budget) :=
    lt_splitEnd hfit hstart (by omega)
  have hub : splitEnd cfg r start (numNewTokens cfg r numEligibleReqs start budget) ≤
      r.numTokens := by
    have := splitEnd_le cfg r start (numNewTokens cfg r numEligibleReqs start budget)
    have hnew : numNewTokens cfg r numEligibleReqs start budget ≤ r.numTokens - start := by
      rw [numNewTokens_eq hfit (by omega)]
      split <;> omega
    omega
  rw [prefillChunk, mambaBlockAlignedSplit, if_neg (Nat.not_le.mpr hstart), reservePrefillLookahead]
  rcases Nat.lt_or_ge cfg.numPrefillLookahead (r.numTokens - start) with hmany | hfew
  · have hnot : ¬ Pinned cfg r numEligibleReqs start := fun h => absurd h.2.1 (by omega)
    simp only [hnot, not_false_eq_true, iff_true]
    split <;> omega
  · rw [← splitEnd_eq_numTokens_iff hfit hstart hfew
      (show cfg.numPrefillLookahead ≤ budget by omega)]
    split <;> omega

/-- Past the prefill the one token that may be left is scheduled. -/
theorem prefillChunk_pos_of_prefillEnd_le (hstart : r.prefillEnd ≤ start)
    (hlt : start < r.numTokens) (hbudget : 0 < budget) :
    0 < prefillChunk cfg r numEligibleReqs start budget := by
  have hone := numTokens_le_prefillEnd_succ (r := r)
  have hnew : numNewTokens cfg r numEligibleReqs start budget = 1 := by
    rw [numNewTokens_eq hfit hlt]
    split <;> omega
  rw [prefillChunk, mambaBlockAlignedSplit, if_pos hstart, hnew, reservePrefillLookahead,
    if_neg (by omega)]
  exact Nat.one_pos

variable {budgets : Nat → Nat}
  (hbudgets : ∀ n, cfg.blockSize + cfg.numPrefillLookahead ≤ budgets n) {n : Nat}

include hbudgets

/-- A pinned request does not move again. -/
theorem positionAfter_of_pinned (hpin : Pinned cfg r 1 (positionAfter cfg r start budgets n))
    (m : Nat) :
    positionAfter cfg r start budgets (n + m) = positionAfter cfg r start budgets n := by
  induction m with
  | zero => rfl
  | succ m ih =>
    have hzero :
        prefillChunk cfg r 1 (positionAfter cfg r start budgets n) (budgets (n + m)) = 0 := by
      refine Nat.eq_zero_of_not_pos fun hpos => ?_
      exact (prefillChunk_pos_iff hfit hpin.1 (hbudgets (n + m))).mp hpos hpin
    rw [← Nat.add_assoc, positionAfter, ih, hzero, Nat.add_zero]

/-- Every step of a run that meets no pinned position adds a token. -/
theorem le_positionAfter_of_not_pinned
    (hfree : ∀ n, ¬ Pinned cfg r 1 (positionAfter cfg r start budgets n)) (n : Nat) :
    min (start + n) r.numTokens ≤ positionAfter cfg r start budgets n := by
  have hpos := cfg.blockSize_pos
  induction n with
  | zero => exact Nat.min_le_left _ _
  | succ n ih =>
    rw [positionAfter]
    rcases Nat.lt_or_ge (positionAfter cfg r start budgets n) r.numTokens with hlt | hdone
    · have hchunk : 0 < prefillChunk cfg r 1 (positionAfter cfg r start budgets n) (budgets n) := by
        rcases Nat.lt_or_ge (positionAfter cfg r start budgets n) r.prefillEnd with hin | hout
        · exact (prefillChunk_pos_iff hfit hin (hbudgets n)).mpr (hfree n)
        · exact prefillChunk_pos_of_prefillEnd_le hfit hout hlt
            (Nat.lt_of_lt_of_le (by omega) (hbudgets n))
      omega
    · omega

omit hfit hbudgets in
theorem positionAfter_mono (cfg : SplitConfig) (r : PrefillRequest) (start : Nat)
    (budgets : Nat → Nat) {m : Nat} (h : m ≤ n) :
    positionAfter cfg r start budgets m ≤ positionAfter cfg r start budgets n := by
  induction h with
  | refl => exact Nat.le_refl _
  | step _ ih => exact Nat.le_trans ih (Nat.le_add_right _ _)

/-- A run computes all tokens exactly when it meets no pinned position. -/
theorem exists_numTokens_le_positionAfter_iff :
    (∃ n, r.numTokens ≤ positionAfter cfg r start budgets n) ↔
      ∀ n, ¬ Pinned cfg r 1 (positionAfter cfg r start budgets n) := by
  constructor
  · rintro ⟨n, hn⟩ m hpin
    have hlt : positionAfter cfg r start budgets m < r.numTokens :=
      Nat.lt_of_lt_of_le hpin.1 r.prefillEnd_le
    have hstay := positionAfter_of_pinned hfit hbudgets hpin n
    have hmono := positionAfter_mono cfg r start budgets (Nat.le_add_left n m)
    omega
  · intro hfree
    refine ⟨r.numTokens, ?_⟩
    have := le_positionAfter_of_not_pinned hfit hbudgets hfree r.numTokens
    omega

end Progress

/-! ## The two cuts together -/

/-- A prompt of 65 tokens that resumes at a cached state after 48 tokens. The
first chunk is cut at the block boundary 64 and then, one token before the
end, shortened to end at 62. From there each chunk of two tokens is taken
back. -/
theorem prefill_pinned_at_62 :
    48 < (promptOf 65).prefillEnd ∧
      lookaheadConfig.blockSize + lookaheadConfig.numPrefillLookahead ≤ 64 ∧
      prefillChunk lookaheadConfig (promptOf 65) 1 48 64 = 14 ∧
      prefillChunk lookaheadConfig (promptOf 65) 1 62 64 = 0 ∧
      ∀ n, positionAfter lookaheadConfig (promptOf 65) 48 (fun _ => 64) n < 65 := by
  have hfirst : prefillChunk lookaheadConfig (promptOf 65) 1 48 64 = 14 := by decide
  have hzero : prefillChunk lookaheadConfig (promptOf 65) 1 62 64 = 0 := by decide
  have hstay : ∀ n, positionAfter lookaheadConfig (promptOf 65) 48 (fun _ => 64) n = 48 ∨
      positionAfter lookaheadConfig (promptOf 65) 48 (fun _ => 64) n = 62 := by
    intro n
    induction n with
    | zero => exact .inl rfl
    | succ n ih =>
      rcases ih with h | h
      · exact .inr (by rw [positionAfter, h, hfirst])
      · exact .inr (by rw [positionAfter, h, hzero])
  refine ⟨by decide, by decide, hfirst, hzero, fun n => ?_⟩
  rcases hstay n with h | h <;> omega

/-- With a budget of at least a block and the lookahead in every step, a chunk
is positive exactly when the request is not pinned in a step with that many
eligible requests, and scheduling the request alone computes all its tokens
exactly when it never gets to a position where it is pinned alone. -/
theorem prefill_progress_iff (cfg : SplitConfig) (r : PrefillRequest)
    (hfit : r.numTokens + cfg.numSampledTokensPerStep ≤ cfg.maxModelLen) :
    (∀ numEligibleReqs start budget, start < r.prefillEnd →
        cfg.blockSize + cfg.numPrefillLookahead ≤ budget →
        (0 < prefillChunk cfg r numEligibleReqs start budget ↔
          ¬ Pinned cfg r numEligibleReqs start)) ∧
      ∀ start budgets, (∀ n, cfg.blockSize + cfg.numPrefillLookahead ≤ budgets n) →
        ((∃ n, r.numTokens ≤ positionAfter cfg r start budgets n) ↔
          ∀ n, ¬ Pinned cfg r 1 (positionAfter cfg r start budgets n)) :=
  ⟨fun _ _ _ hstart hbudget => prefillChunk_pos_iff hfit hstart hbudget,
    fun _ _ hbudgets => exists_numTokens_le_positionAfter_iff hfit hbudgets⟩

/-- A prompt of 100 tokens fits, and its first chunk is positive. -/
theorem prefill_progress_iff_prompt_100 :
    (promptOf 100).numTokens + lookaheadConfig.numSampledTokensPerStep ≤
        lookaheadConfig.maxModelLen ∧
      0 < prefillChunk lookaheadConfig (promptOf 100) 1 0 64 :=
  ⟨by decide, ((prefill_progress_iff lookaheadConfig (promptOf 100) (by decide)).1 1 0 64
    (by decide) (by decide)).mpr (by decide)⟩

-- a threshold of 2 pins a prompt of 5 tokens next to another request, but not alone
example :
    let cfg := { lookaheadConfig with longPrefillTokenThreshold := 2 }
    Pinned cfg (promptOf 5) 2 2 ∧ prefillChunk cfg (promptOf 5) 1 0 64 = 5 := by
  decide

end Vllm.Scheduler
