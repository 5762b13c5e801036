import Mathlib.Algebra.Order.BigOperators.Group.List
import Vllm.Offload.Connector.LoadJobs
import Vllm.Offload.Connector.LookupCoverage

/-!
# Loads take only confirmed chunks

A hit of `lookupCompleteChunks` covers every group, and the load that is planned for it
takes only chunks that were answered as hits, exactly if the chunks of every group are
made of whole chunks of the Mamba groups (`lookupSound_iff`): the candidate length is
rounded to the Mamba chunk size before the groups are looked up, and the chunks of
another group can narrow it to a length at which there is no recurrent state.
-/

namespace Vllm.Offload.Connector

open Library SchedulerOffloadConfig List

variable {R H : Type} {g : GroupOffloadConfig} {i : Nat}

/-! ## Plans of loads -/

section Plans

variable {c : SchedulerOffloadConfig} {status : RequestOffloadState H} {answers : LookupLog H}
  {syncLoad : Bool} {size : Nat} {blocks : Nat → List BlockView} {plan : LoadPlan H}

/-- Whether a hit of `size` tokens needs block `j` of a group. -/
def SchedulerOffloadConfig.NeedsBlock (c : SchedulerOffloadConfig) (g : GroupOffloadConfig)
    (size j : Nat) : Prop :=
  match g.kvCacheSpec with
  | .slidingWindow slidingWindow extraRetainedTokens =>
    size < (j + 1) * g.tokensPerBlock + (slidingWindow - 1 + extraRetainedTokens)
  | .mamba _ => (j / c.blocksPerChunk + 1) * g.tokensPerChunk = size
  | _ => True

/-- The blocks of a request that were allocated for a hit of `size` tokens: null where the
hit does not need them. -/
structure AllocatedFor (c : SchedulerOffloadConfig) (status : RequestOffloadState H) (size : Nat)
    (blocks : Nat → List BlockView) : Prop where
  length : ∀ g ∈ c.kvGroupConfigs, cdiv size g.tokensPerBlock ≤ (blocks g.groupIdx).length
  null : ∀ g ∈ c.kvGroupConfigs, ∀ j block, status.numLocallyComputedTokens ≤ j * g.tokensPerBlock →
    j * g.tokensPerBlock < size → (blocks g.groupIdx)[j]? = some block → block.isNull = false →
    c.NeedsBlock g size j

/-- The groups are full attention, sliding window and Mamba groups that cache at block
boundaries. -/
def SchedulerOffloadConfig.Supported (c : SchedulerOffloadConfig) : Prop :=
  ∀ g ∈ c.kvGroupConfigs, match g.kvCacheSpec with
    | .chunkedLocalAttention _ | .mamba false => False
    | _ => True

theorem mem_kvGroupConfigs {group : IndexedGroup} (h : group ∈ c.indexedGroups) :
    group.1 ∈ c.kvGroupConfigs := by
  obtain ⟨g, i⟩ := group
  exact mem_of_getElem? (mem_zipIdx_iff_getElem?.mp h)

theorem tokensPerBlock_pos (h : g ∈ c.kvGroupConfigs) : 0 < g.tokensPerBlock := by
  have hpos := g.tokensPerChunk_pos
  rw [c.tokensPerChunk_eq g h] at hpos
  exact Nat.pos_of_mul_pos_right hpos

/-- The first block of a load is a fresh one, unless there is nothing to load. -/
theorem loadStartGpuBlockIdx_cases (status : RequestOffloadState H) (syncLoad : Bool)
    (g : GroupOffloadConfig) (groupBlocks : List BlockView)
    (numGpuBlocks : Nat) :
    numGpuBlocks ≤ loadStartGpuBlockIdx status g syncLoad groupBlocks numGpuBlocks ∨
      ∃ block, groupBlocks[loadStartGpuBlockIdx status g syncLoad groupBlocks numGpuBlocks]? =
          some block ∧ block.isNull = false ∧
        cdiv status.numLocallyComputedTokens g.tokensPerBlock ≤
          loadStartGpuBlockIdx status g syncLoad groupBlocks numGpuBlocks ∧
        loadStartGpuBlockIdx status g syncLoad groupBlocks numGpuBlocks < numGpuBlocks := by
  simp only [loadStartGpuBlockIdx]
  cases hfind : List.find? _ _ with
  | none => exact .inl (Nat.le_refl _)
  | some j =>
    refine .inr ?_
    have hmem := mem_range'_1.mp (mem_of_find?_eq_some hfind)
    have hfresh := find?_some hfind
    rw [Option.getD_some]
    cases hblock : groupBlocks[j]? with
    | none => rw [hblock] at hfresh; exact nomatch hfresh
    | some block =>
      rw [hblock] at hfresh
      have hnull : block.isNull = false := by
        cases hn : block.isNull with
        | false => rfl
        | true => simp [hn] at hfresh
      exact ⟨block, rfl, hnull, hmem.1, by omega⟩

/-- A block that a hit needs is close enough to its end for the assertion on the blocks of
a window, and the chunks from it on are in reach. -/
theorem needsBlock_spec {j : Nat} (hg : g ∈ c.kvGroupConfigs)
    (hsupported : c.Supported) (hneeds : c.NeedsBlock g size j) :
    (∀ window, g.slidingWindowSizeInChunks = some window →
      cdiv size g.tokensPerBlock - j ≤ window * c.blocksPerChunk + 1) ∧
    ∀ reach, g.reach = some reach →
      size < (j / c.blocksPerChunk + 1) * g.tokensPerChunk + reach := by
  have hpos := tokensPerBlock_pos hg
  have hchunk := c.tokensPerChunk_eq g hg
  -- the block ends within its chunk
  have hend : (j + 1) * g.tokensPerBlock ≤ (j / c.blocksPerChunk + 1) * g.tokensPerChunk := by
    rw [hchunk, Nat.mul_comm g.tokensPerBlock, ← Nat.mul_assoc]
    refine Nat.mul_le_mul_right _ ?_
    have := Nat.lt_div_mul_add c.blocksPerChunk_pos (a := j)
    rw [Nat.add_mul]
    omega
  have hkind := hsupported g hg
  unfold NeedsBlock at hneeds
  cases hspec : g.kvCacheSpec with
  | fullAttention =>
    have hnone : g.slidingWindowSizeInChunks = none := by
      rw [GroupOffloadConfig.slidingWindowSizeInChunks, hspec, getSlidingWindowSizeInChunks]
    rw [GroupOffloadConfig.reach_eq_none_iff.mpr hnone, hnone]
    exact ⟨fun _ hw => (by cases hw), fun _ hr => (by cases hr)⟩
  | chunkedLocalAttention _ => simp [hspec] at hkind
  | slidingWindow window extra =>
    have hreach : g.reach = some (window - 1 + extra) := by
      rw [GroupOffloadConfig.reach, hspec]
    rw [hspec] at hneeds
    refine ⟨fun w hw => ?_, fun reach hr => ?_⟩
    · have hcover := (GroupOffloadConfig.window_covers hw hreach size).1
      have hlt : size < (j + 1 + w * c.blocksPerChunk) * g.tokensPerBlock := by
        rw [hchunk, Nat.mul_comm g.tokensPerBlock, ← Nat.mul_assoc] at hcover
        rw [Nat.add_mul]
        omega
      have := (cdiv_le_iff hpos).mpr (Nat.le_of_lt hlt)
      omega
    · cases hreach.symm.trans hr
      omega
  | mamba align =>
    have hreach : g.reach = some 1 := by rw [GroupOffloadConfig.reach, hspec]
    have hwindow : g.slidingWindowSizeInChunks = some 1 := by
      rw [GroupOffloadConfig.slidingWindowSizeInChunks, hspec, getSlidingWindowSizeInChunks]
    rw [hspec] at hneeds
    refine ⟨fun w hw => ?_, fun reach hr => ?_⟩
    · cases hwindow.symm.trans hw
      have hblocks : cdiv size g.tokensPerBlock =
          (j / c.blocksPerChunk + 1) * c.blocksPerChunk := by
        rw [← hneeds, hchunk, Nat.mul_comm g.tokensPerBlock, ← Nat.mul_assoc, cdiv_mul_self hpos]
      have := Nat.div_mul_le_self j c.blocksPerChunk
      rw [hblocks, Nat.add_mul]
      omega
    · cases hreach.symm.trans hr
      omega

theorem groupLoad_ok (hg : g ∈ c.kvGroupConfigs)
    (hsupported : c.Supported) (halloc : AllocatedFor c status size blocks)
    (haligned : g.tokensPerBlock ∣ status.numLocallyComputedTokens)
    (hcovered : Covered status answers g i size)
    (hkeyed : size ≤ (status.groupStates i).offloadKeys.length * g.tokensPerChunk)
    (htail : status.partialTailBoundary = none) :
    ∃ load, c.groupLoad status syncLoad size (g, i) (blocks g.groupIdx) = .ok load ∧
      ∀ key ∈ load.keys, HitIn answers key := by
  have hpos := tokensPerBlock_pos hg
  have hcpos := g.tokensPerChunk_pos
  simp only [groupLoad, if_neg (Nat.not_lt.mpr (halloc.length g hg)),
    if_neg (not_not.mpr (Nat.mod_eq_zero_of_dvd haligned))]
  generalize hj : loadStartGpuBlockIdx status g syncLoad (blocks g.groupIdx)
    (cdiv size g.tokensPerBlock) = j
  rcases loadStartGpuBlockIdx_cases status syncLoad g
    (blocks g.groupIdx) (cdiv size g.tokensPerBlock) with hnone | ⟨block, hblock, hnull, hlo, hhi⟩
  · rw [hj] at hnone
    simp only [Nat.sub_eq_zero_of_le hnone, if_true]
    rw [if_neg (by simp)]
    exact ⟨_, rfl, nofun⟩
  rw [hj] at hblock hlo hhi
  have hlocal := (cdiv_le_iff hpos).mp hlo
  obtain ⟨hwindow, hreach⟩ := needsBlock_spec hg hsupported
    (halloc.null g hg j block hlocal ((lt_cdiv_iff hpos).mp hhi) hblock hnull)
  rw [if_neg, if_neg (by omega)]
  swap
  · rw [Option.any_eq_true]
    rintro ⟨window, hw, hlt⟩
    exact absurd (of_decide_eq_true hlt) (Nat.not_lt.mpr (hwindow window hw))
  have hkeys := (cdiv_le_iff hcpos).mpr hkeyed
  simp only [groupKeysToLoad, htail, Option.isSome_none, Bool.toNat_false, Nat.sub_zero,
    if_neg (Nat.not_lt.mpr hkeys)]
  refine ⟨_, rfl, fun key hkey => ?_⟩
  obtain ⟨n, hn⟩ := mem_iff_getElem?.mp hkey
  rw [getElem?_drop, getElem?_take] at hn
  split at hn
  · next hlt =>
    have hchunk := c.tokensPerChunk_eq g hg
    have hstart : startChunkIdx status g ≤ j / c.blocksPerChunk := by
      rw [startChunkIdx, hchunk, ← Nat.div_div_eq_div_mul]
      exact Nat.div_le_div_right (Nat.div_le_of_le_mul (Nat.mul_comm _ _ ▸ hlocal))
    have hin : ∀ reach, g.reach = some reach →
        size < (j / c.blocksPerChunk + n + 1) * g.tokensPerChunk + reach := fun reach hr => by
      have hlt := hreach reach hr
      have : (j / c.blocksPerChunk + 1) * g.tokensPerChunk ≤
          (j / c.blocksPerChunk + n + 1) * g.tokensPerChunk := Nat.mul_le_mul_right _ (by omega)
      omega
    obtain ⟨key', hkey', hhit⟩ := hcovered (j / c.blocksPerChunk + n)
      (Nat.le_trans hstart (Nat.le_add_right _ _)) ((lt_cdiv_iff hcpos).mp hlt) hin
    cases hkey'.symm.trans hn
    exact hhit
  · cases hn

/-- What the constructor of `GPULoadStoreSpec` asserts. -/
def LoadPlan.Balanced (plan : LoadPlan H) : Prop :=
  plan.groupSizes.sum = plan.dstBlockIds.length ∧
    plan.blockIndices.length = plan.groupSizes.length

theorem LoadPlan.Balanced.add (h : plan.Balanced) (load : GroupLoad H) :
    (plan.add load).Balanced := by
  unfold LoadPlan.Balanced LoadPlan.add at *
  simp [h.1, h.2]

/-- A plan of which the load of every group takes only keys with `P`. -/
theorem loadPlan_ok {P : OffloadKey H → Prop}
    (h : ∀ group ∈ c.indexedGroups, ∃ load, c.groupLoad status syncLoad size group
      (blocks group.1.groupIdx) = .ok load ∧ ∀ key ∈ load.keys, P key) :
    ∃ plan, c.loadPlan status syncLoad size blocks = .ok plan ∧ plan.Balanced ∧
      ∀ key ∈ plan.keysToLoad, P key := by
  refine foldlM_total (P := fun plan : LoadPlan H => plan.Balanced ∧ ∀ key ∈ plan.keysToLoad, P key)
    (fun group hgroup plan hplan => ?_) ⟨⟨rfl, rfl⟩, nofun⟩
  obtain ⟨load, hload, hkeys⟩ := h group hgroup
  refine ⟨plan.add load, by rw [hload]; rfl, hplan.1.add load, fun key hkey => ?_⟩
  exact (mem_append.mp hkey).elim (hplan.2 key) (hkeys key)

variable [DecidableEq R] [DecidableEq H] {s : OffloadingConnectorScheduler R H} {reqId : R}

theorem updateStateAfterAlloc_ok (numGroups : Nat) {numExternalTokens : Nat}
    (prepareLoad : List (OffloadKey H) → List Nat) (hstatus : s.reqStatus reqId = some status)
    (hjobs : status.transferJobs = []) (htail : status.partialTailBoundary = none)
    (hplan : s.config.loadPlan status (decide (reqId ∈ s.currentBatchSyncLoads))
      (status.numLocallyComputedTokens + numExternalTokens) blocks = .ok plan)
    (hbalanced : plan.Balanced) :
    ∃ s', s.updateStateAfterAlloc reqId blocks numGroups numExternalTokens prepareLoad =
      .ok s' := by
  unfold OffloadingConnectorScheduler.updateStateAfterAlloc
  simp only [hstatus, htail, hplan, Option.any_none, Bool.false_eq_true, if_false]
  split
  · exact ⟨_, rfl⟩
  simp only [Except.bind, GPULoadStoreSpec.new, dif_pos hbalanced.1, dif_pos hbalanced.2, hjobs,
    ne_eq, not_true_eq_false, if_false]
  exact ⟨_, rfl⟩

end Plans

/-! ## Sound lookups -/

section Sound

/-- The keys of a request are those of its block hashes (`update_offload_keys`). -/
def Keyed (c : SchedulerOffloadConfig) (status : RequestOffloadState H) : Prop :=
  ∀ group ∈ c.indexedGroups, (status.groupStates group.2).offloadKeys =
    c.updateOffloadKeys group.1 status.req.blockHashes []

/-- A hit up to `size` whose chunks were answered as hits. -/
structure Confirmed (c : SchedulerOffloadConfig) (status : RequestOffloadState H)
    (answers : LookupLog H) (size : Nat) : Prop where
  fullAttention : ∀ group ∈ c.indexedGroups, group.1.kvCacheSpec = .fullAttention →
    ∀ chunk, status.numLocallyComputedTokens < (chunk + 1) * group.1.tokensPerChunk →
      chunk * group.1.tokensPerChunk < size → HitAt status answers group.2 chunk
  slidingWindow : ∀ group ∈ c.indexedGroups, ∀ window extra,
    group.1.kvCacheSpec = .slidingWindow window extra →
    ∀ chunk, status.numLocallyComputedTokens < (chunk + 1) * group.1.tokensPerChunk →
      chunk * group.1.tokensPerChunk < size →
      size < (chunk + 1) * group.1.tokensPerChunk + (window - 1 + extra) →
      HitAt status answers group.2 chunk
  mamba : ∀ group ∈ c.indexedGroups, group.1.kvCacheSpec = .mamba true →
    ∃ chunk, (chunk + 1) * group.1.tokensPerChunk = size ∧ HitAt status answers group.2 chunk

/-- Every hit of a configuration is confirmed, and its load takes only chunks that were
answered as hits and fails no assertion. -/
def LookupSound (c : SchedulerOffloadConfig) : Prop :=
  ∀ (R H : Type) [DecidableEq R] [DecidableEq H] (s : OffloadingConnectorScheduler R H)
    (reqId : R) (status : RequestOffloadState H) (manager : LookupManager H)
    (maxNumNewTokens : Option Nat) (hit : Nat) (boundary : Option Nat) (p : LookupPass H),
    s.config = c → s.reqStatus reqId = some status → Keyed c status → HitOrMiss manager →
    (∀ g ∈ c.kvGroupConfigs, g.tokensPerBlock ∣ status.numLocallyComputedTokens) →
    c.lookupCompleteChunks manager status (s.chunksBeingLoaded.getD []) maxNumNewTokens =
      .ok (some hit, boundary, p) → 0 < hit →
    Confirmed c status p.answers (status.numLocallyComputedTokens + hit) ∧
    ∀ blocks numGroups prepareLoad,
      AllocatedFor c status (status.numLocallyComputedTokens + hit) blocks →
      status.transferJobs = [] → status.partialTailBoundary = none →
      ∃ plan s', c.loadPlan status (decide (reqId ∈ s.currentBatchSyncLoads))
          (status.numLocallyComputedTokens + hit) blocks = .ok plan ∧
        (∀ key ∈ plan.keysToLoad, HitIn p.answers key) ∧
        s.updateStateAfterAlloc reqId blocks numGroups hit prepareLoad = .ok s'

variable {c : SchedulerOffloadConfig} {manager : LookupManager H}
  {status : RequestOffloadState H} {d : Nat}

theorem roundDown_dvd (x y : Nat) : y ∣ roundDown x y := Nat.dvd_mul_left y (x / y)

/-- The candidate stays a multiple of what divides all chunk sizes. -/
theorem kept_dvd (hd : ∀ g ∈ c.kvGroupConfigs, d ∣ g.tokensPerChunk) :
    Kept c manager status fun _ p => d ∣ p.maxHitSizeTokens where
  restart h := h
  step {bound seen now g i n p p'} hgroup _ _ hdvd hadv := by
    have hg := hd g (mem_kvGroupConfigs hgroup)
    rw [hadv.maxHitSizeTokens, candidate]
    have hmin : ∀ {a b : Nat}, d ∣ a → d ∣ b → d ∣ min a b := fun ha hb => by
      rcases Nat.le_total _ _ with h | h
      · rwa [Nat.min_eq_left h]
      · rwa [Nat.min_eq_right h]
    refine hmin ?_ (Dvd.dvd.mul_right hg _)
    split
    · exact hg.trans (roundDown_dvd _ _)
    · exact hmin hdvd (Dvd.dvd.mul_left hg _)

theorem mambaAlignSize_eq (hg : g ∈ c.kvGroupConfigs)
    (hspec : g.kvCacheSpec = .mamba true) : c.mambaAlignSize = some g.tokensPerChunk := by
  unfold mambaAlignSize
  cases hfind : c.kvGroupConfigs.find? (·.kvCacheSpec == .mamba true) with
  | none => exact absurd (find?_eq_none.mp hfind g hg) (by simp [hspec])
  | some g' =>
    have hspec' : g'.kvCacheSpec = .mamba true := by simpa using find?_some hfind
    rw [Option.map_some, c.mambaAlign_eq g' (mem_of_find?_eq_some hfind) g hg hspec' hspec]

/-- With a Mamba group the first candidate is a multiple of its chunk size. -/
theorem mambaAlignSize_dvd_initial (maxNumNewTokens : Option Nat)
    (hd : c.mambaAlignSize = some d) : d ∣ c.initialMaxHitSizeTokens status maxNumNewTokens := by
  obtain ⟨g, hfind, rfl⟩ := Option.map_eq_some_iff.mp hd
  have hspec : g.kvCacheSpec = .mamba true := by simpa using find?_some hfind
  have hwindows : c.slidingWindowGroups ≠ [] := by
    obtain ⟨i, hi⟩ := mem_iff_getElem?.mp (mem_of_find?_eq_some hfind)
    have hmem : (g, i) ∈ c.indexedGroups := mem_zipIdx_iff_getElem?.mpr hi
    refine ne_nil_of_mem (mem_slidingWindowGroups.mpr ⟨hmem, ?_⟩)
    rw [GroupOffloadConfig.slidingWindowSizeInChunks, hspec]
    rfl
  unfold initialMaxHitSizeTokens
  simp only [if_neg hwindows, hd, Option.elim_some]
  exact roundDown_dvd _ _

/-- A hit ends at the candidate at which every group is covered. -/
theorem SchedulerOffloadConfig.Found.covered
    {Q : List IndexedGroup → LookupPass H → Prop} {p : LookupPass H}
    (h : Found c status Q p) (hpos : 0 < p.numHitTokens) :
    status.numLocallyComputedTokens + p.numHitTokens = p.maxHitSizeTokens ∧
    ∀ group ∈ c.indexedGroups,
      Covered status p.answers group.1 group.2 p.maxHitSizeTokens ∧ p.maxHitSizeTokens ≤
        (status.groupStates group.2).offloadKeys.length * group.1.tokensPerChunk := by
  obtain ⟨bound, seen, now, hp, -, hseen, hwindows, hnil⟩ := h
  constructor
  · have hnum := hp.numHitTokens fun hempty => by
      rw [hp.unseen hempty] at hpos
      exact absurd hpos (Nat.lt_irrefl 0)
    omega
  · intro group hgroup
    refine ⟨?_, hp.keyed group (hseen hgroup)⟩
    cases hwindow : group.1.slidingWindowSizeInChunks with
    | none =>
      exact hp.full group (hseen hgroup) (GroupOffloadConfig.reach_eq_none_iff.mpr hwindow)
    | some window =>
      exact hp.covered hnil group
        (hwindows (mem_slidingWindowGroups.mpr ⟨hgroup, by rw [hwindow]; rfl⟩))

theorem lookupSound_of_dvd (hsupported : c.Supported)
    (hdvd : ∀ g ∈ c.kvGroupConfigs, g.kvCacheSpec = .mamba true →
      ∀ g' ∈ c.kvGroupConfigs, g.tokensPerChunk ∣ g'.tokensPerChunk) : LookupSound c := by
  intro R H _ _ s reqId status manager maxNumNewTokens hit boundary p hconfig hstatus _ hmanager
    haligned hlookup hpos
  have hd : ∀ g ∈ c.kvGroupConfigs, c.mambaAlignSize.getD 1 ∣ g.tokensPerChunk := by
    intro g hg
    cases hsize : c.mambaAlignSize with
    | none => exact Nat.one_dvd _
    | some d =>
      obtain ⟨g', hfind, rfl⟩ := Option.map_eq_some_iff.mp hsize
      exact hdvd g' (mem_of_find?_eq_some hfind) (by simpa using find?_some hfind) g hg
  have hinit : c.mambaAlignSize.getD 1 ∣
      (restart (c.initialPass status maxNumNewTokens)).maxHitSizeTokens := by
    cases hsize : c.mambaAlignSize with
    | none => exact Nat.one_dvd _
    | some d => exact mambaAlignSize_dvd_initial maxNumNewTokens hsize
  obtain ⟨hfound, rfl⟩ := lookupCompleteChunks_cases hmanager (kept_dvd hd) hinit hlookup hpos
  obtain ⟨hend, hcovered⟩ := hfound.covered hpos
  rw [hend]
  have hstart : ∀ {g : GroupOffloadConfig} {chunk : Nat},
      status.numLocallyComputedTokens < (chunk + 1) * g.tokensPerChunk →
      startChunkIdx status g ≤ chunk := fun {g chunk} hlt =>
    Nat.le_of_lt_succ ((Nat.div_lt_iff_lt_mul g.tokensPerChunk_pos).mpr hlt)
  refine ⟨⟨?_, ?_, ?_⟩, ?_⟩
  · intro group hgroup hspec chunk hlocal hlt
    refine (hcovered group hgroup).1 chunk (hstart hlocal) hlt fun reach hreach => ?_
    rw [GroupOffloadConfig.reach, hspec] at hreach
    cases hreach
  · intro group hgroup window extra hspec chunk hlocal hlt hin
    refine (hcovered group hgroup).1 chunk (hstart hlocal) hlt fun reach hreach => ?_
    rw [GroupOffloadConfig.reach, hspec] at hreach
    cases hreach
    exact hin
  · -- the end is a multiple of the chunk size, so that a chunk ends there
    intro group hgroup hspec
    have hg := mem_kvGroupConfigs hgroup
    have hpos := group.1.tokensPerChunk_pos
    obtain ⟨bound, seen, now, hp, hsize, -⟩ := hfound
    rw [mambaAlignSize_eq hg hspec, Option.getD_some] at hsize
    obtain ⟨k, hk⟩ := hsize
    have hkpos : 0 < k := Nat.pos_of_ne_zero fun hzero => by
      rw [hzero] at hk
      omega
    have hlast : (k - 1 + 1) * group.1.tokensPerChunk = p.maxHitSizeTokens := by
      rw [Nat.sub_add_cancel hkpos, hk, Nat.mul_comm]
    refine ⟨k - 1, hlast, (hcovered group hgroup).1 (k - 1) (hstart (by omega)) ?_ ?_⟩
    · rw [← hlast, Nat.add_mul]
      omega
    · intro reach hreach
      rw [GroupOffloadConfig.reach, hspec] at hreach
      cases hreach
      omega
  · intro blocks numGroups prepareLoad halloc hjobs htail
    obtain ⟨plan, hplan, hbalanced, hkeys⟩ : ∃ plan, c.loadPlan status
        (decide (reqId ∈ s.currentBatchSyncLoads)) p.maxHitSizeTokens blocks = .ok plan ∧
        plan.Balanced ∧ ∀ key ∈ plan.keysToLoad, HitIn p.answers key :=
      loadPlan_ok fun group hgroup =>
        groupLoad_ok (mem_kvGroupConfigs hgroup) hsupported halloc
          (haligned group.1 (mem_kvGroupConfigs hgroup)) (hcovered group hgroup).1
          (hcovered group hgroup).2 htail
    subst hconfig
    obtain ⟨s', hs'⟩ := updateStateAfterAlloc_ok numGroups prepareLoad hstatus hjobs
      htail (hend ▸ hplan) hbalanced
    exact ⟨plan, s', hplan, hkeys, hs'⟩

end Sound

/-! ## A hit between two states

With a group whose chunks are not made of whole Mamba chunks there is a request with a hit
that ends where no Mamba chunk ends: that group has a chunk less than the others. -/

section Exact

variable {manager : LookupManager H} {hits misses : List (OffloadKey H)} {answers : LookupLog H}
  (hhits : ∀ key ∈ hits, ∀ answers, manager answers key = .hit) {size : Nat}

include hhits

theorem maximalPrefixLookup_split (hitCount : Nat)
    (hmisses : ∀ key ∈ misses, ∀ answers, manager answers key = .miss) :
    (maximalPrefixLookup manager (hits ++ misses) hitCount false answers).1 =
      some (hitCount + hits.length) := by
  induction hits generalizing hitCount answers with
  | nil =>
    cases misses with
    | nil => rfl
    | cons key misses => simp [maximalPrefixLookup, hmisses key mem_cons_self]
  | cons key hits ih =>
    have hih : (maximalPrefixLookup manager (hits ++ misses) (hitCount + 1) false
        (answers ++ [(key, .hit)])).1 = some _ :=
      ih (fun key hkey => hhits key (mem_cons_of_mem _ hkey)) (hitCount + 1)
    simp only [cons_append, maximalPrefixLookup, hhits key mem_cons_self, hih, length_cons]
    congr 1
    omega

theorem slidingWindowLookup_split {initial : Nat} (hsize : 0 < size) (hinitial : 0 < initial)
    (hmisses : ∀ key ∈ misses, ∀ answers, manager answers key = .miss) :
    (slidingWindowLookup manager (hits ++ misses) size initial answers).1 = some hits.length := by
  -- behind the misses the scan begins anew
  have hscan : ∀ required answers, 0 < required → ∃ answers' required', 0 < required' ∧
      scanWindow manager size (hits ++ misses).reverse ⟨false, false, 0, required⟩ answers =
        scanWindow manager size hits.reverse ⟨false, false, 0, required'⟩ answers' := by
    induction misses using List.reverseRecOn with
    | nil => exact fun required answers hpos => ⟨answers, required, hpos, by simp⟩
    | append_singleton misses key ih =>
      intro required answers _
      obtain ⟨answers', required', hpos', heq⟩ :=
        ih (fun key hkey => hmisses key (mem_append_left _ hkey)) size
          (answers ++ [(key, .miss)]) hsize
      have hkey := hmisses key (mem_append_right _ mem_cons_self) answers
      refine ⟨answers', required', hpos', ?_⟩
      rw [← heq, ← append_assoc, reverse_append, reverse_singleton, singleton_append, scanWindow]
      simp only [hkey, WindowScan.next, if_neg (Nat.ne_of_lt hsize)]
  obtain ⟨answers', required', hpos, heq⟩ := hscan initial answers hinitial
  rw [slidingWindowLookup, if_neg (Nat.pos_iff_ne_zero.mp hinitial)]
  have hresult : (scanWindow manager size hits.reverse ⟨false, false, 0, required'⟩ answers').1 =
      some _ :=
    scanWindow_of_hits hpos fun _ _ _ key hkey => hhits key (mem_of_getElem? hkey)
  rw [← heq] at hresult
  exact hresult

theorem scanGroup_split {status : RequestOffloadState H}
    {unverified : Bool} (misses : List (OffloadKey H))
    (hmisses : ∀ key ∈ misses, ∀ answers, manager answers key = .miss)
    (hkeys : ((status.groupStates i).offloadKeys.take
      (queryChunks status g i size unverified)).drop (startChunkIdx status g) = hits ++ misses) :
    (scanGroup manager status g i size unverified answers).1 = some hits.length := by
  simp only [scanGroup, hkeys]
  cases hwindow : g.slidingWindowSizeInChunks with
  | none =>
    have hprefix : (maximalPrefixLookup manager (hits ++ misses) 0 false answers).1 = some _ :=
      maximalPrefixLookup_split hhits 0 hmisses
    simpa using hprefix
  | some window =>
    obtain ⟨reach, hreach⟩ := GroupOffloadConfig.exists_reach hwindow
    obtain ⟨-, initial, hinitial, hpos, -⟩ := GroupOffloadConfig.window_covers hwindow hreach
      (min size ((queryChunks status g i size unverified - unverified.toNat) * g.tokensPerChunk))
    have hwpos := GroupOffloadConfig.window_pos hwindow
    simp only [hinitial, Option.getD_some]
    exact slidingWindowLookup_split hhits (by omega) (by omega) hmisses

end Exact

section Gap

/-- A request with the block hashes `0, …, n - 1`. -/
def gapStatus (c : SchedulerOffloadConfig) (n : Nat) : RequestOffloadState Nat where
  req :=
    { numTokens := n * c.tokensPerHash
      blockHashes := List.range n }
  groupStates i := match c.kvGroupConfigs[i]? with
    | some g => { offloadKeys := c.updateOffloadKeys g (List.range n) [] }
    | none => {}

/-- A manager with every chunk, but only the first `numChunks` ones of a group. -/
def gapManager (c : SchedulerOffloadConfig) (short : GroupOffloadConfig) (numChunks : Nat) :
    LookupManager Nat := fun _ key =>
  if key.groupIdx = short.groupIdx ∧ numChunks * c.hashesPerChunk short ≤ key.hash then .miss
  else .hit

variable {c : SchedulerOffloadConfig} {g short : GroupOffloadConfig} {i n numChunks : Nat}

theorem hashesPerChunk_mul (hg : g ∈ c.kvGroupConfigs) :
    c.hashesPerChunk g * c.tokensPerHash = g.tokensPerChunk := by
  refine Nat.div_mul_cancel ?_
  rw [c.tokensPerChunk_eq g hg]
  exact Dvd.dvd.mul_right (c.tokensPerHash_dvd g hg) _

theorem hashesPerChunk_pos (hg : g ∈ c.kvGroupConfigs) : 0 < c.hashesPerChunk g :=
  Nat.pos_of_ne_zero fun hzero => by
    have hmul := hashesPerChunk_mul hg
    rw [hzero, Nat.zero_mul] at hmul
    exact absurd hmul (Nat.ne_of_lt g.tokensPerChunk_pos)

theorem updateOffloadKeys_range (hg : g ∈ c.kvGroupConfigs) :
    c.updateOffloadKeys g (List.range n) [] = (List.range (n / c.hashesPerChunk g)).map
      fun chunk => ⟨c.hashesPerChunk g * (chunk + 1) - 1, g.groupIdx⟩ := by
  have hpos := hashesPerChunk_pos hg
  simp only [SchedulerOffloadConfig.updateOffloadKeys, nil_append, length_nil,
    Nat.sub_zero, length_range, ← range_eq_range']
  rw [← filterMap_eq_map]
  refine filterMap_congr fun chunk hchunk => ?_
  have hlt : c.hashesPerChunk g * (chunk + 1) ≤ n := by
    have := (Nat.le_div_iff_mul_le hpos).mp (mem_range.mp hchunk)
    rwa [Nat.mul_comm]
  have hmul : c.hashesPerChunk g ≤ c.hashesPerChunk g * (chunk + 1) :=
    Nat.le_mul_of_pos_right _ (Nat.succ_pos _)
  rw [getElem?_range (by omega)]
  rfl

theorem gapStatus_offloadKeys (hgroup : (g, i) ∈ c.indexedGroups) :
    ((gapStatus c n).groupStates i).offloadKeys = (List.range (n / c.hashesPerChunk g)).map
      fun chunk => ⟨c.hashesPerChunk g * (chunk + 1) - 1, g.groupIdx⟩ := by
  have hget : c.kvGroupConfigs[i]? = some g := mem_zipIdx_iff_getElem?.mp hgroup
  rw [← updateOffloadKeys_range (mem_kvGroupConfigs hgroup)]
  simp only [gapStatus, hget]

theorem gapManager_hitOrMiss : HitOrMiss (gapManager c short numChunks) := fun _ key => by
  unfold gapManager
  split
  · exact .inr rfl
  · exact .inl rfl

/-- The scan of a group finds all its chunks, and those of the short group at most
`numChunks` of them. -/
theorem scanGroup_gap (hshort : short ∈ c.kvGroupConfigs) (hgroup : (g, i) ∈ c.indexedGroups)
    (n numChunks size : Nat) (unverified : Bool) (answers : LookupLog Nat) :
    (scanGroup (gapManager c short numChunks) (gapStatus c n) g i size unverified answers).1 =
      some (if g = short then min numChunks (queryChunks (gapStatus c n) g i size unverified)
        else queryChunks (gapStatus c n) g i size unverified) := by
  have hg : g ∈ c.kvGroupConfigs := mem_kvGroupConfigs hgroup
  have hpos := hashesPerChunk_pos hg
  have hkeys := gapStatus_offloadKeys (n := n) hgroup
  have hquery := queryChunks_le (gapStatus c n) g i size unverified
  rw [hkeys, length_map, length_range] at hquery
  generalize hnum : queryChunks (gapStatus c n) g i size unverified = num at hquery ⊢
  generalize hcount : (if g = short then min numChunks num else num) = count
  have hcount_le : count ≤ num := by
    rw [← hcount]
    split <;> omega
  have hlength : (List.range count |>.map fun chunk : Nat =>
      (⟨c.hashesPerChunk g * (chunk + 1) - 1, g.groupIdx⟩ : OffloadKey Nat)).length = count := by
    simp
  rw [← hlength]
  refine scanGroup_split ?_ ((List.range' count (num - count)).map fun chunk =>
    ⟨c.hashesPerChunk g * (chunk + 1) - 1, g.groupIdx⟩) ?_ ?_
  · intro key hkey _
    obtain ⟨chunk, hchunk, rfl⟩ := mem_map.mp hkey
    refine if_neg fun hmiss => ?_
    obtain rfl := inj_on_of_nodup_map c.groupIdx_nodup hg hshort hmiss.1
    have hlt := mem_range.mp hchunk
    rw [← hcount, if_pos rfl] at hlt
    have hmul : c.hashesPerChunk g * (chunk + 1) ≤ numChunks * c.hashesPerChunk g := by
      rw [Nat.mul_comm numChunks]
      exact Nat.mul_le_mul_left _ (by omega)
    have : 0 < c.hashesPerChunk g * (chunk + 1) := Nat.mul_pos hpos (Nat.succ_pos _)
    simp only at *
    omega
  · intro key hkey _
    obtain ⟨chunk, hchunk, rfl⟩ := mem_map.mp hkey
    have hmem := mem_range'_1.mp hchunk
    have hshortg : g = short := by
      by_contra hne
      rw [if_neg hne] at hcount
      omega
    subst hshortg
    rw [if_pos rfl] at hcount
    have hmul : numChunks * c.hashesPerChunk g ≤ c.hashesPerChunk g * chunk := by
      rw [Nat.mul_comm numChunks]
      exact Nat.mul_le_mul_left _ (by omega)
    refine if_pos ⟨rfl, ?_⟩
    simp only [Nat.mul_add]
    omega
  · rw [hkeys, hnum, startChunkIdx]
    simp only [gapStatus, Nat.zero_div, drop_zero]
    have happend := range'_append_1 (s := 0) (m := count) (n := num - count)
    rw [Nat.zero_add, Nat.add_sub_cancel' hcount_le] at happend
    rw [← map_take, take_range, Nat.min_eq_left hquery, ← map_append,
      range_eq_range', range_eq_range', happend]

/-- The lengths of the run: with `k` chunks of the short group a hit ends at `k` chunks of
it, and all keys of the request reach at least two of its chunks further. -/
structure GapSizes (c : SchedulerOffloadConfig) (short : GroupOffloadConfig)
    (n k : Nat) : Prop where
  mem : short ∈ c.kvGroupConfigs
  le : ∀ g ∈ c.kvGroupConfigs, g.tokensPerChunk ≤ k * short.tokensPerChunk
  room : ∀ g ∈ c.kvGroupConfigs, (k + 2) * short.tokensPerChunk + g.tokensPerChunk ≤
    n / c.hashesPerChunk g * g.tokensPerChunk
  initial : (k + 2) * short.tokensPerChunk ≤ c.initialMaxHitSizeTokens (gapStatus c n) none

variable {k size : Nat} {unverified : Bool} {p : LookupPass Nat} {seen : List IndexedGroup}

section

variable (hgroup : (g, i) ∈ c.indexedGroups)
include hgroup

theorem gapStatus_length :
    ((gapStatus c n).groupStates i).offloadKeys.length = n / c.hashesPerChunk g := by
  rw [gapStatus_offloadKeys hgroup, length_map, length_range]

theorem candidate_gap : candidate (gapStatus c n) g i size =
    min size (n / c.hashesPerChunk g * g.tokensPerChunk) := by
  simp only [candidate, gapStatus_length hgroup]
  rfl

theorem queryChunks_gap :
    queryChunks (gapStatus c n) g i (candidate (gapStatus c n) g i size) unverified =
      min (cdiv (candidate (gapStatus c n) g i size) g.tokensPerChunk + unverified.toNat)
        (n / c.hashesPerChunk g) := by
  rw [queryChunks_eq, gapStatus_length hgroup]

/-- Without a miss the candidate stays, up to the dropped chunk at the end of the keys. -/
theorem narrowedSize_of_all :
    narrowedSize (gapStatus c n) g (candidate (gapStatus c n) g i size)
      (queryChunks (gapStatus c n) g i (candidate (gapStatus c n) g i size) unverified)
      unverified = min (candidate (gapStatus c n) g i size)
        ((n / c.hashesPerChunk g - unverified.toNat) * g.tokensPerChunk) := by
  have hup := (cdiv_le_iff g.tokensPerChunk_pos).mp
    (Nat.le_refl (cdiv (candidate (gapStatus c n) g i size) g.tokensPerChunk))
  have hstart : startChunkIdx (gapStatus c n) g = 0 := Nat.zero_div _
  rw [narrowedSize, hstart, Nat.zero_add, queryChunks_gap hgroup,
    show min (cdiv (candidate (gapStatus c n) g i size) g.tokensPerChunk + unverified.toNat)
        (n / c.hashesPerChunk g) - unverified.toNat =
      min (cdiv (candidate (gapStatus c n) g i size) g.tokensPerChunk)
        (n / c.hashesPerChunk g - unverified.toNat) by omega,
    Nat.mul_comm, ← Nat.mul_min_mul_right]
  omega

end

section Sizes

variable (h : GapSizes c short n k) (hgroup : (g, i) ∈ c.indexedGroups)

include h hgroup

theorem le_length_gap (unverified : Bool) : (k + 2) * short.tokensPerChunk ≤
    (n / c.hashesPerChunk g - unverified.toNat) * g.tokensPerChunk := by
  have hroom := h.room g (mem_kvGroupConfigs hgroup)
  have hu : unverified.toNat ≤ 1 := Bool.toNat_le _
  have hmul : (n / c.hashesPerChunk g - 1) * g.tokensPerChunk ≤
      (n / c.hashesPerChunk g - unverified.toNat) * g.tokensPerChunk :=
    Nat.mul_le_mul_right _ (by omega)
  rw [Nat.sub_mul] at hmul
  omega

theorem narrowedSize_at (hsize : size = k * short.tokensPerChunk) :
    narrowedSize (gapStatus c n) g (candidate (gapStatus c n) g i size)
      (queryChunks (gapStatus c n) g i (candidate (gapStatus c n) g i size) unverified)
      unverified = k * short.tokensPerChunk := by
  have hlen := le_length_gap h hgroup unverified
  have hlen' := le_length_gap h hgroup false
  rw [narrowedSize_of_all hgroup, candidate_gap hgroup]
  rw [Nat.add_mul] at hlen hlen'
  simp only [Bool.toNat_false, Nat.sub_zero] at hlen'
  omega

theorem le_narrowedSize (hsize : (k + 2) * short.tokensPerChunk ≤ size) :
    (k + 2) * short.tokensPerChunk ≤
      narrowedSize (gapStatus c n) g (candidate (gapStatus c n) g i size)
        (queryChunks (gapStatus c n) g i (candidate (gapStatus c n) g i size) unverified)
        unverified := by
  have hlen := le_length_gap h hgroup unverified
  have hlen' := le_length_gap h hgroup false
  rw [narrowedSize_of_all hgroup, candidate_gap hgroup]
  simp only [Bool.toNat_false, Nat.sub_zero] at hlen'
  omega

end Sizes

theorem queryChunks_short_at (h : GapSizes c short n k) (hgroup : (short, i) ∈ c.indexedGroups)
    (unverified : Bool) (hsize : size = k * short.tokensPerChunk) :
    queryChunks (gapStatus c n) short i (candidate (gapStatus c n) short i size) unverified ≤
      k + unverified.toNat := by
  have hlen := le_length_gap h hgroup false
  simp only [Bool.toNat_false, Nat.sub_zero] at hlen
  rw [queryChunks_gap hgroup, candidate_gap hgroup, hsize,
    Nat.min_eq_left (Nat.le_trans (Nat.mul_le_mul_right _ (by omega)) hlen),
    cdiv_mul_self short.tokensPerChunk_pos]
  exact Nat.min_le_left _ _

theorem le_queryChunks_short (h : GapSizes c short n k) (hgroup : (short, i) ∈ c.indexedGroups)
    (unverified : Bool) (hsize : (k + 2) * short.tokensPerChunk ≤ size) :
    k + 2 ≤ queryChunks (gapStatus c n) short i (candidate (gapStatus c n) short i size)
      unverified := by
  have hpos := short.tokensPerChunk_pos
  have hlen := le_length_gap h hgroup false
  simp only [Bool.toNat_false, Nat.sub_zero] at hlen
  have hcdiv : k + 2 ≤ cdiv (candidate (gapStatus c n) short i size) short.tokensPerChunk := by
    rw [← cdiv_mul_self hpos (k + 2)]
    refine cdiv_mono hpos ?_
    rw [candidate_gap hgroup]
    omega
  have := Nat.le_of_mul_le_mul_right hlen hpos
  rw [queryChunks_gap hgroup]
  omega

/-- The candidate of the run: the short group, once it was looked up, has narrowed it to `k`
of its chunks. -/
def GapRun (short : GroupOffloadConfig) (k : Nat)
    (seen : List IndexedGroup) (p : LookupPass Nat) : Prop :=
  VerifiedSeen seen p ∧
  if short ∈ seen.map (·.1) then p.maxHitSizeTokens = k * short.tokensPerChunk
  else (k + 2) * short.tokensPerChunk ≤ p.maxHitSizeTokens

/-- The chunks that the manager of the run has of the short group. -/
abbrev gapChunks (c : SchedulerOffloadConfig) (short : GroupOffloadConfig) (k : Nat) : Nat :=
  k + (c.appliesEagleDrop short).toNat

theorem unverified_le (eagleVerified : List Nat) :
    (c.isEagleUnverified g i eagleVerified).toNat ≤ (c.appliesEagleDrop g).toNat := by
  unfold isEagleUnverified
  cases c.appliesEagleDrop g with
  | false => exact Nat.zero_le _
  | true => exact Bool.toNat_le _

/-- The narrowed candidate after the lookup of a group. -/
theorem GapRun.narrowed {count : Nat} (h : GapSizes c short n k) (hgroup : (g, i) ∈ c.indexedGroups)
    (hseen : seen ⊆ c.indexedGroups) (hrun : GapRun short k seen p)
    (hcount : count = if g = short then min (gapChunks c short k)
        (queryChunks (gapStatus c n) g i (candidate (gapStatus c n) g i p.maxHitSizeTokens)
          (c.isEagleUnverified g i p.eagleVerified))
      else queryChunks (gapStatus c n) g i (candidate (gapStatus c n) g i p.maxHitSizeTokens)
        (c.isEagleUnverified g i p.eagleVerified)) :
    if short ∈ g :: seen.map (·.1) then
      narrowedSize (gapStatus c n) g (candidate (gapStatus c n) g i p.maxHitSizeTokens) count
        (c.isEagleUnverified g i p.eagleVerified) = k * short.tokensPerChunk
    else (k + 2) * short.tokensPerChunk ≤
      narrowedSize (gapStatus c n) g (candidate (gapStatus c n) g i p.maxHitSizeTokens) count
        (c.isEagleUnverified g i p.eagleVerified) := by
  have hu := unverified_le (c := c) (g := g) (i := i) p.eagleVerified
  by_cases hin : short ∈ seen.map (·.1)
  · -- the short group was looked up before, and no group finds less than the candidate
    have hsize := hrun.2
    rw [if_pos hin] at hsize
    rw [if_pos (mem_cons_of_mem _ hin)]
    have hall : count = queryChunks (gapStatus c n) g i
        (candidate (gapStatus c n) g i p.maxHitSizeTokens)
        (c.isEagleUnverified g i p.eagleVerified) := by
      rw [hcount]
      split
      · next heq =>
        subst heq
        have := queryChunks_short_at h hgroup (c.isEagleUnverified g i p.eagleVerified) hsize
        exact Nat.min_eq_right (by simp only [gapChunks]; omega)
      · rfl
    rw [hall]
    exact narrowedSize_at h hgroup hsize
  · have hsize := hrun.2
    rw [if_neg hin] at hsize
    by_cases heq : g = short
    · subst heq
      rw [if_pos mem_cons_self]
      have hunverified : c.isEagleUnverified g i p.eagleVerified = c.appliesEagleDrop g := by
        cases hdrop : c.appliesEagleDrop g with
        | false => rw [isEagleUnverified, hdrop, Bool.false_and]
        | true =>
          refine hrun.1.unverified hseen hgroup (fun hmem => hin ?_) hdrop
          exact mem_map.mpr ⟨_, hmem, rfl⟩
      have hquery := le_queryChunks_short h hgroup (c.isEagleUnverified g i p.eagleVerified) hsize
      have hdrop : (c.appliesEagleDrop g).toNat ≤ 1 := Bool.toNat_le _
      rw [if_pos rfl, Nat.min_eq_left (by simp only [gapChunks]; omega)] at hcount
      have hstart : startChunkIdx (gapStatus c n) g = 0 := Nat.zero_div _
      have hlen := le_length_gap h hgroup false
      rw [narrowedSize, hcount, hunverified, hstart, Nat.zero_add, Nat.add_sub_cancel,
        candidate_gap hgroup, Nat.mul_comm g.tokensPerChunk]
      rw [Nat.add_mul] at hsize hlen
      simp only [Bool.toNat_false, Nat.sub_zero] at hlen
      omega
    · rw [if_neg (by simp [Ne.symm heq, hin]), hcount, if_neg heq]
      exact le_narrowedSize h hgroup hsize

theorem GapRun.le_maxHitSizeTokens
    (hrun : GapRun short k seen p) : k * short.tokensPerChunk ≤ p.maxHitSizeTokens := by
  have hsize := hrun.2
  split at hsize
  · exact Nat.le_of_eq hsize.symm
  · rw [Nat.add_mul] at hsize
    omega

theorem kept_gapRun (h : GapSizes c short n k) :
    Kept c (gapManager c short (gapChunks c short k)) (gapStatus c n) (GapRun short k) where
  restart h := h
  step {bound seen now g i count p p'} hgroup _ hp hrun hadv := by
    have hscan := scanGroup_gap h.mem hgroup n (gapChunks c short k)
      (candidate (gapStatus c n) g i p.maxHitSizeTokens)
      (c.isEagleUnverified g i p.eagleVerified) p.answers
    rw [hadv.scan] at hscan
    refine ⟨hrun.1.step hadv, ?_⟩
    rw [hadv.maxHitSizeTokens]
    exact hrun.narrowed h hgroup hp.seen_subset (Option.some.inj hscan)

/-- The run finds a hit that ends behind `k` chunks of the short group. -/
theorem lookupCompleteChunks_gap (h : GapSizes c short n k) :
    ∃ p, c.lookupCompleteChunks (gapManager c short (gapChunks c short k)) (gapStatus c n) [] none =
      .ok (some (k * short.tokensPerChunk), p.fullAttentionHitBoundary, p) := by
  have hne : c.indexedGroups ≠ [] := by
    obtain ⟨i, hi⟩ := mem_iff_getElem?.mp h.mem
    have hmem : (short, i) ∈ c.indexedGroups := mem_zipIdx_iff_getElem?.mpr hi
    exact ne_nil_of_mem hmem
  have hinit : GapRun short k [] (restart (c.initialPass (gapStatus c n) none)) :=
    ⟨fun _ hmem => (by cases hmem), h.initial⟩
  obtain ⟨p, hlookup, hfound⟩ := lookupCompleteChunks_found gapManager_hitOrMiss (kept_gapRun h)
    (fun {bound seen now g i p} hp hrun hgroup => by
      have hg : g ∈ c.kvGroupConfigs := mem_kvGroupConfigs hgroup
      have hpos := g.tokensPerChunk_pos
      have hle := Nat.le_trans (h.le g hg) hrun.le_maxHitSizeTokens
      have hroom := h.room g hg
      have hnarrowed := hrun.narrowed h hgroup hp.seen_subset rfl
      have hstart : startChunkIdx (gapStatus c n) g = 0 := Nat.zero_div _
      have hcandidate : g.tokensPerChunk ≤ candidate (gapStatus c n) g i p.maxHitSizeTokens := by
        rw [candidate_gap hgroup]
        omega
      refine lookupGroup_again ?_ (by simpa [gapStatus] using hcandidate)
        (scanGroup_gap h.mem hgroup _ _ _ _ _) ?_ ?_
      · rw [gapStatus_length hgroup, ← hashesPerChunk_mul hg]
        simp only [gapStatus, length_range]
        rw [Nat.mul_div_mul_right _ _ c.tokensPerHash_pos]
      all_goals
        generalize (if g = short then _ else _) = count at hnarrowed ⊢
        have hkept : g.tokensPerChunk ≤ narrowedSize (gapStatus c n) g
            (candidate (gapStatus c n) g i p.maxHitSizeTokens) count
            (c.isEagleUnverified g i p.eagleVerified) := by
          have hchunk := h.le g hg
          split at hnarrowed
          · omega
          · rw [Nat.add_mul] at hnarrowed
            omega
      · refine Nat.pos_of_ne_zero fun hzero => ?_
        rw [narrowedSize, hzero, hstart, Nat.zero_sub] at hkept
        omega
      · simpa [gapStatus] using hkept) hinit hne
  obtain ⟨bound, seen, now, hp, hrun, hseen, -⟩ := hfound
  have hmem : short ∈ seen.map (·.1) := by
    obtain ⟨i, hi⟩ := mem_iff_getElem?.mp h.mem
    exact mem_map.mpr ⟨(short, i), hseen (mem_zipIdx_iff_getElem?.mpr hi), rfl⟩
  have hsize := hrun.2
  rw [if_pos hmem] at hsize
  have hnum := hp.numHitTokens fun hnil => by rw [hnil] at hmem; cases hmem
  refine ⟨p, ?_⟩
  rw [hlookup, hnum.1, hsize]
  rfl

theorem sub_lt_roundDown (x : Nat) {y : Nat} (hy : 0 < y) : x < roundDown x y + y := by
  have hmod := Nat.mod_lt x hy
  have hdiv := Nat.div_add_mod' x y
  unfold roundDown
  omega

/-- A request that is long enough for the run. -/
theorem exists_gapSizes {state : GroupOffloadConfig} (hstate : state ∈ c.kvGroupConfigs)
    (hspec : state.kvCacheSpec = .mamba true) (hshort : short ∈ c.kvGroupConfigs) :
    ∃ n k, GapSizes c short n (state.tokensPerChunk * k + 1) := by
  have hsum : ∀ g ∈ c.kvGroupConfigs,
      g.tokensPerChunk ≤ (c.kvGroupConfigs.map (·.tokensPerChunk)).sum := fun g hg =>
    single_le_sum (fun _ _ => Nat.zero_le _) _ (mem_map_of_mem hg)
  generalize (c.kvGroupConfigs.map (·.tokensPerChunk)).sum = total at hsum
  have hspos := short.tokensPerChunk_pos
  have hmpos := state.tokensPerChunk_pos
  generalize hk : state.tokensPerChunk * total + 1 = k
  refine ⟨(k + 2) * short.tokensPerChunk + 2 * total + 1, total, ?_⟩
  rw [hk]
  refine ⟨hshort, ?_, ?_, ?_⟩
  · intro g hg
    have h₁ : total ≤ state.tokensPerChunk * total := Nat.le_mul_of_pos_left _ hmpos
    have h₂ : k ≤ k * short.tokensPerChunk := Nat.le_mul_of_pos_right _ hspos
    have := hsum g hg
    omega
  · intro g hg
    generalize hn : (k + 2) * short.tokensPerChunk + 2 * total + 1 = n
    have hmul := hashesPerChunk_mul hg
    have hpos := hashesPerChunk_pos hg
    have hstride : c.hashesPerChunk g ≤ g.tokensPerChunk :=
      hmul ▸ Nat.le_mul_of_pos_right _ c.tokensPerHash_pos
    have hmod := Nat.mod_lt n hpos
    have hdiv := Nat.div_add_mod' n (c.hashesPerChunk g)
    have hlower : n - c.hashesPerChunk g ≤
        (n / c.hashesPerChunk g * c.hashesPerChunk g) * c.tokensPerHash :=
      Nat.le_trans (by omega) (Nat.le_mul_of_pos_right _ c.tokensPerHash_pos)
    rw [Nat.mul_assoc, hmul] at hlower
    have := hsum g hg
    omega
  · generalize hn : (k + 2) * short.tokensPerChunk + 2 * total + 1 = n
    have htokens : n ≤ n * c.tokensPerHash := Nat.le_mul_of_pos_right _ c.tokensPerHash_pos
    have hround := sub_lt_roundDown (n * c.tokensPerHash - 1) hmpos
    have := hsum state hstate
    simp only [initialMaxHitSizeTokens, gapStatus, Option.elim_none,
      mambaAlignSize_eq hstate hspec, Option.elim_some]
    split <;> omega

end Gap

/-- A lookup is sound for every request and every manager exactly if the chunks of all
groups are made of whole Mamba chunks. -/
theorem lookupSound_iff (c : SchedulerOffloadConfig) (hsupported : c.Supported) :
    LookupSound c ↔ ∀ g ∈ c.kvGroupConfigs, g.kvCacheSpec = .mamba true →
      ∀ g' ∈ c.kvGroupConfigs, g.tokensPerChunk ∣ g'.tokensPerChunk := by
  refine ⟨fun hsound state hstate hspec short hshort => ?_, lookupSound_of_dvd hsupported⟩
  obtain ⟨n, total, hsizes⟩ := exists_gapSizes hstate hspec hshort
  obtain ⟨p, hlookup⟩ := lookupCompleteChunks_gap hsizes
  have hpos : 0 < (state.tokensPerChunk * total + 1) * short.tokensPerChunk :=
    Nat.mul_pos (Nat.succ_pos _) short.tokensPerChunk_pos
  have hkeyed : Keyed c (gapStatus c n) := fun group hgroup => by
    rw [gapStatus_offloadKeys hgroup, ← updateOffloadKeys_range (mem_kvGroupConfigs hgroup)]
    rfl
  obtain ⟨hconfirmed, -⟩ := hsound Unit Nat
    { config := c, reqStatus := fun _ => some (gapStatus c n) } () (gapStatus c n) _ none _ _ p rfl
    rfl hkeyed gapManager_hitOrMiss (fun _ _ => Nat.dvd_zero _) hlookup hpos
  -- a state at the end of the hit would make it a multiple of the Mamba chunk size
  obtain ⟨i, hi⟩ := mem_iff_getElem?.mp hstate
  have hmem : (state, i) ∈ c.indexedGroups := mem_zipIdx_iff_getElem?.mpr hi
  obtain ⟨chunk, hchunk, -⟩ := hconfirmed.mamba (state, i) hmem hspec
  have hdvd : state.tokensPerChunk ∣ (state.tokensPerChunk * total + 1) * short.tokensPerChunk := by
    refine Dvd.intro_left (chunk + 1) (hchunk.trans ?_)
    exact Nat.zero_add _
  rw [Nat.add_mul, Nat.one_mul, Nat.mul_assoc] at hdvd
  exact (Nat.dvd_add_right (Nat.dvd_mul_right _ _)).mp hdvd

/-! ### Two configurations -/

def attentionGroup (tokensPerChunk : Nat) (hpos : 0 < tokensPerChunk) : GroupOffloadConfig where
  groupIdx := 0
  tokensPerBlock := tokensPerChunk
  tokensPerChunk
  kvCacheSpec := .fullAttention
  isEagleGroup := false
  tokensPerChunk_pos := hpos
  sized := trivial

def stateGroup : GroupOffloadConfig where
  groupIdx := 1
  tokensPerBlock := 16
  tokensPerChunk := 16
  kvCacheSpec := .mamba true
  isEagleGroup := false
  tokensPerChunk_pos := Nat.succ_pos _
  sized := trivial

/-- Full attention with chunks of `tokensPerChunk` tokens and a recurrent state every 16. -/
def hybridConfig (tokensPerChunk : Nat) (hpos : 0 < tokensPerChunk) (hdvd : 4 ∣ tokensPerChunk) :
    SchedulerOffloadConfig where
  kvGroupConfigs := [attentionGroup tokensPerChunk hpos, stateGroup]
  blocksPerChunk := 1
  tokensPerHash := 4
  numWorkers := 1
  useLookaheadBlockHashes := false
  blocksPerChunk_pos := Nat.one_pos
  tokensPerHash_pos := Nat.pos_of_dvd_of_pos hdvd hpos
  tokensPerChunk_eq := by simp [attentionGroup, stateGroup]
  groupIdx_nodup := by simp [attentionGroup, stateGroup]
  tokensPerHash_dvd := by
    have hstate : 4 ∣ 16 := by decide
    simp [attentionGroup, stateGroup, hdvd, hstate]
  mambaAlign_eq := by simp [attentionGroup, stateGroup]

theorem lookupSound_sample : LookupSound (hybridConfig 32 (by decide) (by decide)) :=
  (lookupSound_iff _ (by simp [Supported, hybridConfig, attentionGroup, stateGroup])).mpr
    (by simp [hybridConfig, attentionGroup, stateGroup])

/-- Chunks of 4 tokens, of which the manager has five, and every recurrent state: the hit
has 20 tokens, and there is no state behind 20 tokens. -/
theorem hit_without_state :
    let c := hybridConfig 4 (by decide) (by decide)
    ∃ boundary p, c.lookupCompleteChunks (gapManager c (attentionGroup 4 (by decide)) 5)
        (gapStatus c 10) [] none = .ok (some 20, boundary, p) ∧
      ¬ Confirmed c (gapStatus c 10) p.answers 20 := by
  intro c
  have hlookup : (c.lookupCompleteChunks (gapManager c (attentionGroup 4 (by decide)) 5)
      (gapStatus c 10) [] none).map (·.1) = .ok (some 20) := by
    decide +kernel
  obtain ⟨⟨hit, boundary, p⟩, hlookup, rfl⟩ := map_eq_ok.mp hlookup
  refine ⟨boundary, p, hlookup, fun hconfirmed => ?_⟩
  obtain ⟨chunk, hchunk, -⟩ := hconfirmed.mamba (stateGroup, 1) (by simp [c, hybridConfig,
    indexedGroups]) rfl
  have hend : (chunk + 1) * 16 = 20 := hchunk
  omega

end Vllm.Offload.Connector
