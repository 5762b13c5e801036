import Vllm.KVCache.Spending

/-!
# The reservation of prefills in flight

`Scheduler._request_remaining_blocks` estimates the blocks that a request in prefill
still needs. An asynchronous load is admitted only if the blocks that are free cover it
and the estimates of all prefills in flight. The estimate subtracts the length of the
block table from the requirement, which is cut at the admission cap; the table counts
the null blocks that the window has left behind, and blocks that go back to the pool
only when others that share them are done.

`reservation_holds` says when the estimates bound what the prefills take from the pool
until their sequences are computed, so that a request which was admitted beside them is
not preempted for their growth. The run at the end shows an estimate that is too small.
-/

namespace Vllm.KVCache

open Library Pool Pool.BlockPool KVCacheManager List

variable {R H : Type} [DecidableEq R] [DecidableEq H] {numSpecTokens numLookaheadTokens : Nat}

/-! ## The estimate -/

/-- The tokens that need a slot for the whole sequence and, with speculation, the first
decode step. -/
def Config.remainingTokens (cfg : Config) (numSpecTokens numLookaheadTokens numTokens : Nat) :
    Nat :=
  let fullNumTokens := min numTokens cfg.maxModelLen
  if numSpecTokens = 0 then fullNumTokens
  else fullNumTokens + (1 + numSpecTokens + numLookaheadTokens)

/-- `Scheduler._request_remaining_blocks`. -/
def requestRemainingBlocks (cfg : Config) (s : KVCacheManager R H)
    (numSpecTokens numLookaheadTokens : Nat) (req : Request R H) : Except Fault Int :=
  (s.getNumBlocksToAllocate cfg req.requestId (fun _ => []) 0
    ⟨cfg.remainingTokens numSpecTokens numLookaheadTokens req.numTokens, req.numComputedTokens,
      req.numComputedTokens, min req.numTokens cfg.maxModelLen, true,
      max req.numPromptTokens (req.numTokens - 1)⟩).map Prod.fst

/-- `Scheduler._inflight_prefill_reserved_blocks`; the set of prefills comes in some order. -/
def inflightPrefillReservedBlocks (cfg : Config) (s : KVCacheManager R H)
    (numSpecTokens numLookaheadTokens : Nat) (prefills : List (Request R H)) : Except Fault Int :=
  (prefills.mapM (requestRemainingBlocks cfg s numSpecTokens numLookaheadTokens)).map List.sum

/-- The settings of the results below: attention groups with the caps of their specs. -/
structure Windows (cfg : Config) (maxInFlight : Nat) : Prop where
  valid : ∀ g ∈ cfg.groups, g.kind.Valid
  whole : ∀ g ∈ cfg.groups, g.WholeChunks
  attention : ∀ g ∈ cfg.groups, g.kind.isAttention = true
  caps : ∀ g ∈ cfg.groups,
    g.maxAdmissionBlocksPerRequest = g.maxAdmissionBlocks maxInFlight cfg.maxModelLen

/-- The blocks for `numTokens` tokens, cut at the cap if it applies, that a table lacks. -/
def Group.remainingBlocks (g : Group) (applyAdmissionCap : Bool) (numTokens tableLength : Nat) :
    Nat :=
  let required := match applyAdmissionCap, g.maxAdmissionBlocksPerRequest with
    | true, some cap => min (cdiv numTokens g.blockSize) cap
    | _, _ => cdiv numTokens g.blockSize
  required - tableLength

/-- The count of a request without hits, whose tables cover its computed tokens. -/
theorem getNumBlocksToAllocate_of_nil {cfg : Config} {maxInFlight numEncoderTokens : Nat}
    {s : KVCacheManager R H} {r : R} {blocks : Nat → List Nat} {a : SlotArgs}
    (hcfg : Windows cfg maxInFlight) (hblocks : ∀ i < cfg.groups.length, blocks i = [])
    (hcomputed : ∀ i g, cfg.groups[i]? = some g →
      a.totalComputedTokens ≤ ((s.managers i).reqToBlocks r).length * g.blockSize) :
    s.getNumBlocksToAllocate cfg r blocks numEncoderTokens a =
      .ok ((∑ i : Fin cfg.groups.length, (cfg.groups.get i).remainingBlocks a.applyAdmissionCap
        a.numTokens ((s.managers i).reqToBlocks r).length : Nat), s) := by
  refine getNumBlocksToAllocate_eq_sum (fun g i => g.remainingBlocks
    a.applyAdmissionCap a.numTokens ((s.managers i).reqToBlocks r).length) hcfg.attention
    fun g i hg => ?_
  have hskip : g.kind.getNumSkippedTokens a.totalComputedTokens / g.blockSize ≤
      ((s.managers i).reqToBlocks r).length := by
    refine Nat.div_le_of_le_mul ?_
    rw [Nat.mul_comm]
    exact Nat.le_trans (getNumSkippedTokens_le (hcfg.valid g (mem_of_getElem? hg)) _)
      (hcomputed i g hg)
  rw [hblocks i (List.getElem?_eq_some_iff.mp hg).1]
  unfold baseNumBlocksToAllocate Group.remainingBlocks
  simp only [view_mgr, isEmpty_nil, if_true, length_nil, Nat.zero_add, drop_nil,
    Group.hasPartialLocalHit, View.getNumEvictableBlocks, countP_nil, Nat.max_eq_right hskip]
  split <;> rfl

/-! ## Growth -/

namespace ChunkOp

/-- The request `r` stays in prefill: it keeps its blocks, and its chunks bring new tokens
of its `numTokens` tokens only. -/
def Continues (cfg : Config) (r : R) (numTokens numLookaheadTokens : Nat) : ChunkOp R H → Prop
  | .call (.allocateSlots req a) => req.requestId = r → ¬a.Adopts cfg ∧
      req.numComputedTokens + a.numNewTokens ≤ numTokens ∧
      a.numLookaheadTokens ≤ numLookaheadTokens
  | .call (.free r') | .call (.popBlocksForFree r') => r' ≠ r
  | _ => True

end ChunkOp

namespace Chunks

variable {cfg : Config} {maxInFlight size : Nat} {s s' : Chunks R H} {r : R} {i : Nat} {g : Group}
  {numTokens : Nat}

/-- The table is a row of at least `nulls` null blocks, and not longer than it was or than its
tokens need. -/
def Grows (cfg : Config) (g : Group) (numTokens numLookaheadTokens nulls held : Nat)
    (table : List Nat) : Prop :=
  ∃ nulls' held', Row table nulls' held' ∧ nulls ≤ nulls' ∧ nulls' + held' ≤ max (nulls + held)
    (cdiv (min (numTokens + numLookaheadTokens) cfg.maxModelLen) g.blockSize)

omit [DecidableEq R] [DecidableEq H] in
theorem SlotsCall.need_le {req : Request R H} {a : AllocArgs} (hcall : SlotsCall cfg size s req a)
    (hcontinues : (ChunkOp.call (.allocateSlots req a)).Continues cfg req.requestId numTokens
      numLookaheadTokens) :
    a.numTokensNeedSlot cfg req ≤ min (numTokens + numLookaheadTokens) cfg.maxModelLen := by
  obtain ⟨hadopts, hnew, hlookahead⟩ := hcontinues rfl
  obtain ⟨hlocal, hexternal⟩ := hcall.new_of_not_adopts hadopts
  unfold AllocArgs.numTokensNeedSlot AllocArgs.numTokensMainModel AllocArgs.totalComputedTokens
    AllocArgs.numLocalComputedTokens
  omega

/-- An operation that does not end `r` gives blocks back or adds a chunk. -/
theorem exec_row {rs : Finset R} {op : ChunkOp R H}
    (hexact : s.system.Exact cfg rs size) (hop : op.Promised cfg size s)
    (hcontinues : op.Continues cfg r numTokens numLookaheadTokens)
    (hexec : s.exec cfg op = .ok s') (hg : cfg.groups[i]? = some g)
    (hk : g.kind.isAttention = true) {nulls held : Nat} (hrow : Row (s.table i r) nulls held) :
    Grows cfg g numTokens numLookaheadTokens nulls held (s'.table i r) := by
  obtain ⟨hshrinks, -⟩ | ⟨n, rejected, rfl, htable, -⟩ | ⟨-, -, hends⟩ | ⟨req, a, res, rs', rfl,
    rfl, hr, hexact', hres, hsome, htable, -⟩ := exec_cases hexact hop hexec hg hk r
  · obtain ⟨nulls', held', hrow', hle, hlen⟩ := hshrinks nulls held hrow
    exact ⟨nulls', held', hrow', hle, hlen ▸ Nat.le_max_left _ _⟩
  · exact ⟨nulls, held, htable ▸ hrow, Nat.le_refl _, Nat.le_max_left _ _⟩
  · obtain rfl | rfl := hends
    · exact absurd rfl hcontinues
    · exact absurd rfl hcontinues
  · obtain ⟨nulls', held', hrow', hle, -, hlen⟩ :=
      row_allocateSlots hexact' hr hres hsome hg hk (hcontinues rfl).1 hrow
    exact ⟨nulls', held', htable ▸ hrow', hle, hlen ▸ max_le_max (Nat.le_refl _)
      (cdiv_mono g.blockSize_pos (SlotsCall.need_le hop hcontinues))⟩

/-- A call for one of the prefills, or one that takes no block. -/
def GrowthOf (cfg : Config) (prefills : List (Request R H)) (numLookaheadTokens : Nat)
    (op : ChunkOp R H) : Prop :=
  (∀ p ∈ prefills, op.Continues cfg p.requestId p.numTokens numLookaheadTokens) ∧
    ∀ req a, op = .call (.allocateSlots req a) → ∃ p ∈ prefills, p.requestId = req.requestId

/-! ## Payments -/

section Payments

variable {rs ids : Finset R} {prefills : List (Request R H)}
  (hattention : ∀ g ∈ cfg.groups, g.kind.isAttention = true)

omit [DecidableEq H] in
theorem pool_popBlocksForFree {v : View R H} :
    (KVCache.popBlocksForFree g v r).2.pool = v.pool := by
  unfold KVCache.popBlocksForFree mambaPopBlocksForFree
  split
  · split <;> rfl
  · rfl

include hattention

/-- Calls other than `allocate_slots` take no references. -/
theorem refCnt_of_step_le {op : SystemOp R H} {system : System R H}
    (hop : ∀ req a, op ≠ .allocateSlots req a) (hstep : s.system.step cfg op = .ok system)
    (b : Nat) :
    (system.manager.pool.blocks b).refCnt ≤ (s.system.manager.pool.blocks b).refCnt := by
  have hloop : ∀ {m f}, (∀ g ∈ cfg.groups, ∀ i v v', f g i v = .ok v' →
        (v'.pool.blocks b).refCnt ≤ (v.pool.blocks b).refCnt) →
      s.system.manager.forManagers cfg f = .ok m →
      (m.pool.blocks b).refCnt ≤ (s.system.manager.pool.blocks b).refCnt := by
    intro m f hf hm
    refine foldlM_ok_induct (P := fun m₁ : KVCacheManager R H =>
      (m₁.pool.blocks b).refCnt ≤ _) (fun gi hgi m₁ m₂ hm₁ hm₂ => ?_) (Nat.le_refl _) hm
    obtain ⟨v, hv, rfl⟩ := map_eq_ok.mp hm₂
    exact Nat.le_trans (hf _ (mem_of_getElem? (mem_zipIdx_iff_getElem?.mp hgi)) _ _ _ hv) hm₁
  have hlist : ∀ {m : KVCacheManager R H} {lists k},
      System.freeList s.system.manager lists k = .ok m →
      (m.pool.blocks b).refCnt ≤ (s.system.manager.pool.blocks b).refCnt := by
    intro m lists k hm
    unfold System.freeList at hm
    split at hm
    · cases hm
    · obtain ⟨p, hp, rfl⟩ := map_eq_ok.mp hm
      exact refCnt_freeBlocks_le (orFail_eq_ok.mp hp) b
  cases op with
  | allocateSlots req a => exact absurd rfl (hop req a)
  | cacheBlocks req n =>
    obtain ⟨m, hm, rfl⟩ := map_eq_ok.mp hstep
    exact Nat.le_of_eq ((cacheBlocks_same hm).1.refCnt b)
  | removeSkippedBlocks r n =>
    obtain ⟨m, hm, rfl⟩ := map_eq_ok.mp hstep
    exact hloop (fun g hg _ _ _ hv => refCnt_removeSkippedBlocks_le (hattention g hg) hv b) hm
  | free r =>
    obtain ⟨m, hm, rfl⟩ := map_eq_ok.mp hstep
    refine hloop (fun g _ _ v v' hv => ?_) hm
    obtain ⟨p, hp, rfl⟩ := map_eq_ok.mp hv
    exact pool_popBlocksForFree (v := v) ▸ refCnt_freeBlocks_le (orFail_eq_ok.mp hp) b
  | popBlocksForFree r =>
    cases hstep
    refine hloop (fun g _ _ v v' hv => ?_) (forManagers_popBlocksForFree _)
    cases hv
    rw [pool_popBlocksForFree]
  | freePopped k | releaseRetained k =>
    obtain ⟨m, hm, rfl⟩ := map_eq_ok.mp hstep
    exact hlist hm
  | takeKVCacheBlockCopies | newStepStarts =>
    cases hstep
    exact Nat.le_refl _
  | evictBlocks ids =>
    obtain ⟨p, hp, rfl⟩ := map_eq_ok.mp hstep
    exact Nat.le_of_eq ((evictBlocks_steps (orFail_eq_ok.mp hp)).sameRefs.refCnt b)
  | resetPrefixCache =>
    cases hstep
    exact Nat.le_of_eq ((sameRefs_resetPrefixCache _).refCnt b)

/-- The growth of prefills is charged to them. -/
theorem exec_pays {op : ChunkOp R H} (hfull : ∀ i g, cfg.groups[i]? = some g →
      Capped cfg i = false → g.kind = .fullAttention)
    (hids : ∀ r, r ∈ ids ↔ ∃ p ∈ prefills, p.requestId = r)
    (hexact : s.system.Exact cfg rs size) (hquiet : s.system.manager.Quiet cfg)
    (hop : op.Promised cfg size s) (hgrowth : GrowthOf cfg prefills numLookaheadTokens op)
    (hexec : s.exec cfg op = .ok s') :
    Pays cfg ids s.system.manager s'.system.manager := by
  cases op with
  | settle r n rejected =>
    cases hexec
    exact .refl _
  | call op =>
    obtain ⟨rs', hexact', hmem⟩ := exact_request hexact op
    obtain ⟨rs₁, hexact₁⟩ := exec_exact hexact hop hexec
    by_cases halloc : ∃ req a, op = .allocateSlots req a
    · obtain ⟨req, a, rfl⟩ := halloc
      obtain ⟨p, hp, hreq⟩ := hgrowth.2 req a rfl
      obtain ⟨res, hres, rfl⟩ := map_eq_ok.mp hexec
      have hpays := hexact'.allocateSlots_pays hattention hfull (hmem _ rfl)
        ((hids _).mpr ⟨p, hp, hreq⟩) hquiet (hgrowth.1 p hp hreq.symm).1 hres
      split <;> exact hpays
    have hne : ∀ req a, op ≠ .allocateSlots req a := fun req a heq => halloc ⟨req, a, heq⟩
    rw [exec_call hne] at hexec
    obtain ⟨system, hsystem, rfl⟩ := map_eq_ok.mp hexec
    by_cases hremove : ∃ r ∈ ids, ∃ n, op = .removeSkippedBlocks r n
    · obtain ⟨r, hid, n, rfl⟩ := hremove
      obtain ⟨m, hm, rfl⟩ := map_eq_ok.mp hsystem
      exact (hexact'.removeSkippedBlocks_pays hattention hfull (hmem _ rfl) hid hquiet hm).1
    refine .of_refCnt_le hexact hexact₁
      (fun b _ => refCnt_of_step_le hattention hne hsystem b) fun r hr i hi => ?_
    obtain ⟨htable, -⟩ | ⟨⟨n, rfl⟩, -⟩ | ⟨-, -, hends⟩ := (manager_of_step hne hsystem
      (getElem?_eq_getElem hi) (hattention _ (getElem_mem hi)) r).2
    · exact htable
    · exact absurd ⟨r, hr, n, rfl⟩ hremove
    · obtain ⟨p, hp, hreq⟩ := (hids r).mp hr
      obtain rfl | rfl := hends
      · exact absurd hreq.symm (hgrowth.1 p hp)
      · exact absurd hreq.symm (hgrowth.1 p hp)

end Payments

/-! ## Runs -/

/-- The estimate covers a group: the window has left no null block in the table, or the
whole sequence needs no more than the cap or the table. -/
def Covers (g : Group) (numTokens : Nat) (table : List Nat) : Prop :=
  ∀ cap ∈ g.maxAdmissionBlocksPerRequest, heldBlocks table = table.length ∨
    cdiv numTokens g.blockSize ≤ max table.length cap

/-- The estimate for `p`. -/
def estimate (cfg : Config) (numSpecTokens numLookaheadTokens : Nat) (s : Chunks R H)
    (p : Request R H) : Nat :=
  ∑ i : Fin cfg.groups.length, (cfg.groups.get i).remainingBlocks true
    (cfg.remainingTokens numSpecTokens numLookaheadTokens p.numTokens)
    (s.table i p.requestId).length

/-- When the estimates are bounds: they cover every group, and no block of a prefill in a group
with a cap is shared. -/
structure Reservable (cfg : Config) (numSpecTokens numLookaheadTokens : Nat)
    (prefills : List (Request R H)) (s : Chunks R H) : Prop where
  covers : ∀ p ∈ prefills, ∀ i g, cfg.groups[i]? = some g → Covers g
    (cfg.remainingTokens numSpecTokens numLookaheadTokens p.numTokens) (s.table i p.requestId)
  unshared : s.system.manager.Unshared cfg (prefills.map Request.requestId).toFinset

theorem fullAttention_of_uncapped (h : Windows cfg maxInFlight) (hg : cfg.groups[i]? = some g)
    (hcap : Capped cfg i = false) : g.kind = .fullAttention := by
  have hattention := h.attention g (mem_of_getElem? hg)
  rw [Capped, hg, Option.bind_some, h.caps g (mem_of_getElem? hg),
    Group.maxAdmissionBlocks] at hcap
  cases hkind : g.kind <;> simp_all [Kind.isAttention]

/-- What every run keeps. -/
def Kept (cfg : Config) (maxInFlight size : Nat) (s : Chunks R H) : Prop :=
  ((∃ rs, s.system.Exact cfg rs size) ∧ s.Good cfg maxInFlight) ∧ s.system.manager.Quiet cfg

/-- An operation of the scheduler within the tokens in flight. -/
def Scheduled (cfg : Config) (maxInFlight size : Nat) (s : Chunks R H) (op : ChunkOp R H) : Prop :=
  op.Promised cfg size s ∧ op.InFlightWithin maxInFlight

/-- Such an operation that only lets the prefills grow. -/
def Grown (cfg : Config) (maxInFlight size : Nat) (prefills : List (Request R H))
    (numLookaheadTokens : Nat) (s : Chunks R H) (op : ChunkOp R H) : Prop :=
  Scheduled cfg maxInFlight size s op ∧ GrowthOf cfg prefills numLookaheadTokens op

/-- The table of a prefill has become `table'`, and `k` blocks more are within its tokens and
the cap. -/
def Within (cfg : Config) (g : Group) (numTokens numLookaheadTokens : Nat)
    (table table' : List Nat) (k : Nat) : Prop :=
  ∃ nulls held nulls' held', Row table nulls held ∧ Row table' nulls' held' ∧ nulls ≤ nulls' ∧
    nulls' + held' + k ≤ max (nulls + held)
      (cdiv (min (numTokens + numLookaheadTokens) cfg.maxModelLen) g.blockSize) ∧
    ∀ cap ∈ g.maxAdmissionBlocksPerRequest, held' + k ≤ cap

/-- The growth in one group. -/
theorem Within.charge_add_le {k : Nat} {table table' : List Nat}
    (hlookahead : numSpecTokens = 0 → numLookaheadTokens = 0) (hg : cfg.groups[i]? = some g)
    (hcovers : Covers g (cfg.remainingTokens numSpecTokens numLookaheadTokens numTokens) table)
    (h : Within cfg g numTokens numLookaheadTokens table table' k) :
    charge (Capped cfg i) table' + k ≤
      charge (Capped cfg i) table + g.remainingBlocks true
        (cfg.remainingTokens numSpecTokens numLookaheadTokens numTokens) table.length := by
  obtain ⟨nulls, held, nulls', held', hrow, hrow', hle, hlen, hcap⟩ := h
  have hneed : min (numTokens + numLookaheadTokens) cfg.maxModelLen ≤
      cfg.remainingTokens numSpecTokens numLookaheadTokens numTokens := by
    rw [Config.remainingTokens]
    split
    · next hspec => rw [hlookahead hspec, Nat.add_zero]
    · omega
  have hneed := cdiv_mono g.blockSize_pos hneed
  have hlength := hrow.length_eq
  have hlength' := hrow'.length_eq
  have hheld := hrow.heldBlocks_eq
  have hheld' := hrow'.heldBlocks_eq
  unfold charge Capped Group.remainingBlocks
  rw [hg, Option.bind_some]
  cases hmax : g.maxAdmissionBlocksPerRequest with
  | none =>
    simp only [Option.isSome_none, Bool.false_eq_true, if_false]
    omega
  | some cap =>
    have hcap' := hcap cap hmax
    have hcovers' := hcovers cap hmax
    simp only [Option.isSome_some, if_true]
    omega

section Growth

variable {prefills : List (Request R H)} {ids : Finset R} {p : Request R H}

theorem inflightPrefillReservedBlocks_eq (hcfg : Windows cfg maxInFlight)
    (hgood : s.Good cfg maxInFlight)
    (hcomputed : ∀ p ∈ prefills, p.numComputedTokens = s.computed p.requestId) :
    inflightPrefillReservedBlocks cfg s.system.manager numSpecTokens numLookaheadTokens prefills =
      .ok ((prefills.map (estimate cfg numSpecTokens numLookaheadTokens s)).sum : Nat) := by
  refine map_eq_ok.mpr ⟨_, mapM_eq_ok fun p hp => map_eq_ok.mpr ⟨_,
    getNumBlocksToAllocate_of_nil hcfg (fun _ _ => rfl) fun i g hg => ?_, rfl⟩, ?_⟩
  · obtain ⟨nulls, held, hrow, hcover, -, -⟩ :=
      hgood i g hg (hcfg.attention g (mem_of_getElem? hg)) p.requestId
    show p.numComputedTokens ≤ _
    rw [hcomputed p hp]
    exact hrow.length_eq ▸ hcover
  · rw [Nat.cast_list_sum, map_map]
    rfl

theorem exec_kept (hcfg : Windows cfg maxInFlight) {op : ChunkOp R H}
    (h : s.Kept cfg maxInFlight size) (hop : Scheduled cfg maxInFlight size s op)
    (hexec : s.exec cfg op = .ok s') : s'.Kept cfg maxInFlight size := by
  obtain ⟨⟨⟨rs, hexact⟩, hgood⟩, hquiet⟩ := h
  exact ⟨⟨exec_exact hexact hop.1 hexec, exec_good (fun g hg => ⟨hcfg.valid g hg,
    hcfg.whole g hg⟩) hexact hgood hop.1 hop.2 hexec⟩,
    exec_quiet hcfg.attention hexact hquiet hop.1 hexec⟩

theorem reaches_kept (hcfg : Windows cfg maxInFlight) (h : s.Kept cfg maxInFlight size)
    (hrun : Reaches (Scheduled cfg maxInFlight size) (exec cfg) s s') :
    s'.Kept cfg maxInFlight size :=
  hrun.invariant h fun _ _ _ hs hop hexec => exec_kept hcfg hs hop hexec

/-- A call of a running request that finds too few blocks, so that one is preempted. -/
def Preempts (cfg : Config) (s : Chunks R H) (req : Request R H) (a : AllocArgs) : Prop :=
  (a.fullSequenceMustFit = false ∧ req.isWaiting = false ∧ a.reservedBlocks = 0) ∧
    ∃ res, s.system.manager.allocateSlots cfg req a = .ok res ∧ res.1 = none

/-- What such a call has counted. -/
theorem Preempts.counted {req : Request R H} {a : AllocArgs} (h : s.Preempts cfg req a) :
    ∃ m needed, s.system.manager.removeSkippedBlocks cfg req.requestId
        (a.totalComputedTokens cfg req - req.numInFlightTokens) = .ok m ∧
      m.getNumBlocksToAllocate cfg req.requestId a.newComputedBlocks a.numEncoderTokens
        (a.slotArgs cfg req) = .ok needed ∧ (needed.2.pool.getNumFreeBlocks : Int) < needed.1 := by
  obtain ⟨⟨hmust, hwaiting, hreserved⟩, res, hres, hnone⟩ := h
  obtain ⟨-, hmust'⟩ | ⟨m, needed, hskipped, hneeded, ⟨-, hfew⟩ | ⟨-, new, -, hsome, -⟩⟩ :=
    allocateSlots_cases hres
  · cases hmust.symm.trans hmust'
  · rw [AllocArgs.watermarkBlocks, hwaiting, hreserved, Bool.and_false] at hfew
    exact ⟨m, needed, hskipped, hneeded, by simpa using hfew⟩
  · cases hnone.symm.trans hsome

section Call

variable {req : Request R H} {a : AllocArgs} {m : KVCacheManager R H}
  (hcfg : Windows cfg maxInFlight) (h' : s'.Kept cfg maxInFlight size)
  (hcall : SlotsCall cfg size s' req a) (hadopts : ¬a.Adopts cfg)
  (hskipped : s'.system.manager.removeSkippedBlocks cfg req.requestId
    (a.totalComputedTokens cfg req - req.numInFlightTokens) = .ok m)
include hcfg h' hcall hadopts hskipped

theorem getNumBlocksToAllocate_of_new :
    m.getNumBlocksToAllocate cfg req.requestId a.newComputedBlocks a.numEncoderTokens
      (a.slotArgs cfg req) = .ok
        ((∑ i : Fin cfg.groups.length, (cfg.groups.get i).remainingBlocks false
        (a.numTokensNeedSlot cfg req) ((m.managers i).reqToBlocks req.requestId).length : Nat),
        m) := by
  obtain ⟨hlocal, hexternal⟩ := hcall.new_of_not_adopts hadopts
  refine getNumBlocksToAllocate_of_nil hcfg (fun i hi => ?_) fun i g hg => ?_
  · by_contra hne
    exact hadopts (.inl ⟨i, hi, hne⟩)
  · have hk := hcfg.attention g (mem_of_getElem? hg)
    obtain ⟨nulls, held, hrow, hcomputed, -, -⟩ := h'.1.2 i g hg hk req.requestId
    obtain ⟨nulls', held', hrow', -, -, hlen⟩ := row_removeSkippedBlocks hskipped hg hk hrow
    show a.numLocalComputedTokens req + a.numExternalComputedTokens ≤ _
    rw [AllocArgs.numLocalComputedTokens, hlocal, hexternal, hcall.computed,
      hrow'.length_eq, hlen]
    exact hcomputed

omit [DecidableEq H] in
/-- With the blocks that are counted the tables are still within the caps. -/
theorem held_add_remainingBlocks_le (hwithin : (ChunkOp.call (.allocateSlots req a)).InFlightWithin
      maxInFlight) (hg : cfg.groups[i]? = some g) {cap nulls' held' : Nat}
    (hcap : cap ∈ g.maxAdmissionBlocksPerRequest)
    (hrow' : Row ((m.managers i).reqToBlocks req.requestId) nulls' held') :
    held' + g.remainingBlocks false (a.numTokensNeedSlot cfg req) (nulls' + held') ≤ cap := by
  have hin := mem_of_getElem? hg
  have hk := hcfg.attention g hin
  have hfit := h'.1.2 i g hg hk req.requestId
  obtain ⟨nulls, held, hrow, -⟩ := id hfit
  obtain ⟨nulls₁, held₁, hrow₁, -, hskip, hlen⟩ := row_removeSkippedBlocks hskipped hg hk hrow
  have hheld := hrow'.heldBlocks_eq.symm.trans hrow₁.heldBlocks_eq
  have hlength := hrow'.length_eq.symm.trans hrow₁.length_eq
  -- a table as long as the call would make it
  have hfilled : Row (_ ++ List.replicate (cdiv (a.numTokensNeedSlot cfg req) g.blockSize -
      (nulls₁ + held₁)) 1) nulls₁ _ := hrow₁.append fun b hb => by simp [eq_of_mem_replicate hb]
  rw [length_replicate] at hfilled
  obtain ⟨nulls₂, held₂, hrow₂, -, -, hle⟩ := fitting_of_row hcall hwithin (hcfg.valid g hin)
    (hcfg.whole g hin) hfit hadopts hrow hfilled hskip (by omega)
  have := hfilled.heldBlocks_eq.symm.trans hrow₂.heldBlocks_eq
  have := hle cap (hcfg.caps g hin ▸ hcap)
  show held' + (cdiv _ _ - _) ≤ cap
  omega

end Call

section Bound

variable (hcfg : Windows cfg maxInFlight)
  (hlookahead : numSpecTokens = 0 → numLookaheadTokens = 0)
  (hnodup : (prefills.map Request.requestId).Nodup) (h : s.Kept cfg maxInFlight size)
  (hreservable : s.Reservable cfg numSpecTokens numLookaheadTokens prefills)
  (hrun : Reaches (Grown cfg maxInFlight size prefills numLookaheadTokens) (exec cfg) s s')
include hcfg h hrun

/-- The growth of a run is charged to the prefills. -/
theorem reaches_pays : Pays cfg (prefills.map Request.requestId).toFinset
    s.system.manager s'.system.manager := by
  have hinv := hrun.invariant (P := fun s₁ : Chunks R H => s₁.Kept cfg maxInFlight size ∧
    Pays cfg (prefills.map Request.requestId).toFinset s.system.manager
      s₁.system.manager) ⟨h, .refl _⟩ ?_
  · exact hinv.2
  rintro s₁ op s₂ ⟨hkept, hpays⟩ ⟨hop, hgrowth⟩ hexec
  refine ⟨exec_kept hcfg hkept hop hexec, hpays.trans ?_⟩
  obtain ⟨⟨⟨rs, hexact⟩, -⟩, hquiet⟩ := hkept
  exact exec_pays hcfg.attention (fun _ _ => fullAttention_of_uncapped hcfg) (by simp) hexact
    hquiet hop.1 hgrowth hexec

/-- The growth of one prefill in one group. -/
theorem within_later (hp : p ∈ prefills) (hg : cfg.groups[i]? = some g) :
    Within cfg g p.numTokens numLookaheadTokens (s.table i p.requestId)
      (s'.table i p.requestId) 0 := by
  have hmem := mem_of_getElem? hg
  have hk := hcfg.attention g hmem
  obtain ⟨nulls, held, hrow, -⟩ := h.1.2 i g hg hk p.requestId
  have hinv := hrun.invariant (P := fun s₁ : Chunks R H => s₁.Kept cfg maxInFlight size ∧
    Grows cfg g p.numTokens numLookaheadTokens nulls held (s₁.table i p.requestId))
    ⟨h, nulls, held, hrow, Nat.le_refl _, Nat.le_max_left _ _⟩ ?_
  · obtain ⟨h', nulls', held', hrow', hle, hlen⟩ := hinv
    refine ⟨nulls, held, nulls', held', hrow, hrow', hle, hlen, fun cap hcap => ?_⟩
    obtain ⟨nulls₂, held₂, hrow₂, -, -, hheld⟩ := h'.1.2 i g hg hk p.requestId
    rw [Nat.add_zero, ← hrow'.heldBlocks_eq, hrow₂.heldBlocks_eq]
    exact hheld cap (hcfg.caps g hmem ▸ hcap)
  · rintro s₁ op s₂ ⟨hkept, nulls₁, held₁, hrow₁, hle₁, hlen₁⟩ ⟨hop, hgrowth⟩ hexec
    refine ⟨exec_kept hcfg hkept hop hexec, ?_⟩
    obtain ⟨⟨⟨rs, hexact⟩, -⟩, -⟩ := hkept
    obtain ⟨nulls₂, held₂, hrow₂, hle₂, hlen₂⟩ :=
      exec_row hexact hop.1 (hgrowth.1 p hp) hexec hg hk hrow₁
    exact ⟨nulls₂, held₂, hrow₂, Nat.le_trans hle₁ hle₂, by omega⟩

include hlookahead hnodup hreservable

/-- What the prefills have not used of their estimates is still free: `demand` is a part of it
for each of them. -/
theorem numFreeBlocks_add_demand_le (demand : R → Fin cfg.groups.length → Nat)
    (hdemand : ∀ p ∈ prefills, ∀ i : Fin cfg.groups.length,
      Within cfg (cfg.groups.get i) p.numTokens numLookaheadTokens (s.table i p.requestId)
        (s'.table i p.requestId) (demand p.requestId i)) :
    s.system.manager.pool.getNumFreeBlocks +
        (prefills.map fun p => ∑ i, demand p.requestId i).sum ≤
      s'.system.manager.pool.getNumFreeBlocks +
        (prefills.map (estimate cfg numSpecTokens numLookaheadTokens s)).sum := by
  have hle := (reaches_pays hcfg h hrun).free hreservable.unshared
  simp only [charges, Finset.sum_range, List.sum_toFinset _ hnodup, map_map] at hle
  have hsum := sum_le_sum (l := prefills) (f := fun p => ∑ i : Fin cfg.groups.length,
      (charge (Capped cfg i) (s'.table i p.requestId) + demand p.requestId i))
    (g := fun p => ∑ i : Fin cfg.groups.length,
      charge (Capped cfg i) (s.table i p.requestId) +
        estimate cfg numSpecTokens numLookaheadTokens s p) fun p hp => by
    rw [estimate, ← Finset.sum_add_distrib]
    refine Finset.sum_le_sum fun i _ => ?_
    have hg : cfg.groups[i.1]? = some (cfg.groups.get i) := getElem?_eq_getElem i.2
    exact (hdemand p hp i).charge_add_le hlookahead hg (hreservable.covers p hp i _ hg)
  simp only [Finset.sum_add_distrib] at hsum
  rw [sum_map_add, sum_map_add] at hsum
  dsimp only [Function.comp_def] at hle
  simp only [table] at hsum
  omega

/-- The free blocks do not shrink by more than the estimates. -/
theorem numFreeBlocks_le : s.system.manager.pool.getNumFreeBlocks ≤
    s'.system.manager.pool.getNumFreeBlocks +
      (prefills.map (estimate cfg numSpecTokens numLookaheadTokens s)).sum :=
  Nat.le_trans (Nat.le_add_right _ _) (numFreeBlocks_add_demand_le hcfg hlookahead hnodup h
    hreservable hrun (fun _ _ => 0) fun _ hp i =>
      within_later hcfg h hrun hp (getElem?_eq_getElem i.2))

/-- While the free blocks cover the estimates, no call of a prefill preempts. -/
theorem not_preempts
    (hfree : (prefills.map (estimate cfg numSpecTokens numLookaheadTokens s)).sum ≤
      s.system.manager.pool.getNumFreeBlocks)
    {req : Request R H} {a : AllocArgs}
    (hop : Grown cfg maxInFlight size prefills numLookaheadTokens s'
      (.call (.allocateSlots req a))) :
    ¬s'.Preempts cfg req a := by
  intro hpreempts
  obtain ⟨m, needed, hskipped, hneeded, hfew⟩ := hpreempts.counted
  obtain ⟨⟨hcall, hwithin⟩, hgrowth⟩ := hop
  have hcall : SlotsCall cfg size s' req a := hcall
  obtain ⟨p₀, hp₀, hreq⟩ := hgrowth.2 req a rfl
  have hadopts := (hgrowth.1 p₀ hp₀ hreq.symm).1
  have h' := reaches_kept hcfg h (hrun.mono fun _ _ hop => hop.1)
  -- the state behind the first stage of the call is reached by that stage alone
  let s₁ : Chunks R H := { s' with system := { s'.system with manager := m } }
  have hrun₁ : Reaches (Grown cfg maxInFlight size prefills numLookaheadTokens) (exec cfg) s s₁ :=
    hrun.step (a := .call (.removeSkippedBlocks req.requestId _))
      ⟨⟨trivial, trivial⟩, fun _ _ => trivial, fun _ _ heq => by cases heq⟩
      (map_eq_ok.mpr ⟨_, map_eq_ok.mpr ⟨m, hskipped, rfl⟩, rfl⟩)
  rw [getNumBlocksToAllocate_of_new hcfg h' hcall hadopts hskipped] at hneeded
  cases hneeded
  have hle := numFreeBlocks_add_demand_le hcfg hlookahead hnodup h hreservable hrun₁ (fun r i =>
    if r = req.requestId then (cfg.groups.get i).remainingBlocks false (a.numTokensNeedSlot cfg req)
      (s₁.table i r).length else 0) fun p hp i => ?_
  · have hsingle := List.single_le_sum (l := prefills.map fun p =>
      ∑ i : Fin cfg.groups.length, if p.requestId = req.requestId then
        (cfg.groups.get i).remainingBlocks false (a.numTokensNeedSlot cfg req)
          (s₁.table i p.requestId).length else 0)
      (fun _ _ => Nat.zero_le _) _ (mem_map.mpr ⟨p₀, hp₀, rfl⟩)
    simp only [hreq, if_true] at hsingle
    have hfew : m.pool.getNumFreeBlocks < _ := Int.ofNat_lt.mp hfew
    have hle : _ ≤ m.pool.getNumFreeBlocks + _ := hle
    exact absurd (hfew.trans_le hsingle) (by omega)
  have hg : cfg.groups[i.1]? = some (cfg.groups.get i) := getElem?_eq_getElem i.2
  have hlater := within_later hcfg h hrun₁ hp hg
  split
  · rename_i heq
    obtain ⟨nulls, held, nulls', held', hrow, hrow', hnulls, hlen, -⟩ := hlater
    rw [hrow'.length_eq]
    refine ⟨nulls, held, nulls', held', hrow, hrow', hnulls, ?_, fun cap hcap => ?_⟩
    · have hneed := cdiv_mono (cfg.groups.get i).blockSize_pos
        (SlotsCall.need_le hcall (heq ▸ hgrowth.1 p hp))
      show nulls' + held' + (cdiv _ _ - _) ≤ _
      omega
    · rw [heq] at hrow'
      exact held_add_remainingBlocks_le hcfg h' hcall hadopts hskipped hwithin hg hcap hrow'
  · exact hlater

end Bound

/-- A request is admitted with computed blocks, such as those of an asynchronous load. -/
structure Admits (cfg : Config) (maxInFlight size : Nat) (s : Chunks R H) (req : Request R H)
    (a : AllocArgs) (s' : Chunks R H) : Prop where
  scheduled : Scheduled cfg maxInFlight size s (.call (.allocateSlots req a))
  adopts : a.Adopts cfg
  granted : ∃ res, s.system.manager.allocateSlots cfg req a = .ok res ∧ res.1 ≠ none
  exec : s.exec cfg (.call (.allocateSlots req a)) = .ok s'

/-- Behind an admission the reserved blocks are free, and the estimates are the same. -/
theorem Admits.reserved_free (numSpecTokens numLookaheadTokens : Nat) {req : Request R H}
    {a : AllocArgs} (hcfg : Windows cfg maxInFlight)
    (h : s.Kept cfg maxInFlight size) (hadmits : Admits cfg maxInFlight size s req a s')
    (hother : ∀ p ∈ prefills, p.requestId ≠ req.requestId) :
    a.reservedBlocks ≤ s'.system.manager.pool.getNumFreeBlocks ∧
      prefills.map (estimate cfg numSpecTokens numLookaheadTokens s') =
        prefills.map (estimate cfg numSpecTokens numLookaheadTokens s) := by
  obtain ⟨⟨hcall, -⟩, hadopts, ⟨res, hres, hsome⟩, hexec⟩ := hadmits
  have hcall : SlotsCall cfg size s req a := hcall
  obtain ⟨⟨⟨rs, hexact⟩, -⟩, hquiet⟩ := h
  obtain ⟨rs', hexact', hmem⟩ := exact_request hexact (.allocateSlots req a)
  have hmanager : s'.system.manager = res.2 := by
    obtain ⟨res', hres', rfl⟩ := map_eq_ok.mp hexec
    cases hres'.symm.trans hres
    split <;> rfl
  refine ⟨hmanager ▸ (allocateSlots_leaves hcfg.attention hexact' hquiet (hmem _ rfl) hcall
    hres).2 hadopts hsome, map_congr_left fun p hp => Finset.sum_congr rfl fun i _ => ?_⟩
  rw [table, hmanager, (Keeps.allocateSlots (hmem _ rfl) hcall.valid hres).others
    hexact' _ (hother p hp)]
  rfl

/-- In every state that a run as for the cap reaches, the reservation of prefills in flight is a
number. If the estimates cover the prefills and these share no block in a group with a cap, the
free blocks shrink by no more than the reservation in every later state in which only the
prefills have grown. And if this is so when a request was admitted beside the reservation, no
later call for a chunk of a prefill finds too few blocks. -/
theorem reservation_holds {numGpuBlocks hashBlockSize : Nat} {enableCaching : Bool}
    {pool : BlockPool H} (numSpecTokens numLookaheadTokens : Nat) (prefills : List (Request R H))
    (hinit : BlockPool.init numGpuBlocks enableCaching hashBlockSize = some pool)
    (hcfg : Windows cfg maxInFlight) (hlookahead : numSpecTokens = 0 → numLookaheadTokens = 0)
    (hnodup : (prefills.map Request.requestId).Nodup)
    (hrun : Reaches (Scheduled cfg maxInFlight numGpuBlocks) (exec cfg) (Chunks.init pool) s)
    (hcomputed : ∀ p ∈ prefills, p.numComputedTokens = s.computed p.requestId) :
    ∃ n, inflightPrefillReservedBlocks cfg s.system.manager numSpecTokens numLookaheadTokens
        prefills = .ok n ∧
      (s.Reservable cfg numSpecTokens numLookaheadTokens prefills → ∀ s',
        Reaches (Grown cfg maxInFlight numGpuBlocks prefills numLookaheadTokens) (exec cfg) s s' →
        (s.system.manager.pool.getNumFreeBlocks : Int) ≤
          s'.system.manager.pool.getNumFreeBlocks + n) ∧
      ∀ req a s₁, Admits cfg maxInFlight numGpuBlocks s req a s₁ →
        (∀ p ∈ prefills, p.requestId ≠ req.requestId) → n ≤ a.reservedBlocks →
        s₁.Reservable cfg numSpecTokens numLookaheadTokens prefills → ∀ s',
        Reaches (Grown cfg maxInFlight numGpuBlocks prefills numLookaheadTokens) (exec cfg) s₁ s' →
        ∀ req' a', Grown cfg maxInFlight numGpuBlocks prefills numLookaheadTokens s'
          (.call (.allocateSlots req' a')) → ¬s'.Preempts cfg req' a' := by
  have h : s.Kept cfg maxInFlight numGpuBlocks :=
    reaches_kept hcfg ⟨init_good hinit, fun _ _ _ => rfl⟩ hrun
  refine ⟨_, inflightPrefillReservedBlocks_eq hcfg h.1.2 hcomputed,
    fun hreservable s' hlater => ?_, fun req a s₁ hadmits hother hreserved hreservable s' hlater
      req' a' hop => ?_⟩
  · exact_mod_cast numFreeBlocks_le hcfg hlookahead hnodup h hreservable hlater
  · obtain ⟨hfree, hestimates⟩ := hadmits.reserved_free numSpecTokens numLookaheadTokens hcfg
      h hother
    refine not_preempts hcfg hlookahead hnodup (exec_kept hcfg h hadmits.scheduled hadmits.exec)
      hreservable hlater ?_ hop
    rw [hestimates]
    exact_mod_cast hreserved.trans hfree

end Growth

/-! ## A window of two tokens -/

/-- A sliding window of two tokens in blocks of one, with four tokens in flight; the cap
is six. -/
def windowOfTwo : Config := oneWindow (.slidingWindow 2 0) 1 (by decide) 4

/-- A prompt of 32 tokens, with `computed` of them computed and `inFlight` of these in flight. -/
def prompt (computed inFlight : Nat) : Request Bool Nat :=
  ⟨false, 32, 32, computed, inFlight, false, 0, []⟩

def newTokens (n : Nat) : AllocArgs := ⟨n, 0, fun _ => [], 0, 0, false, 0, false, 0, false⟩

/-- Another request that waits, with three tokens to load. -/
def loading : Request Bool Nat := ⟨true, 32, 32, 0, 0, true, 0, []⟩

def threeLoaded (reservedBlocks : Int) : AllocArgs :=
  ⟨0, 0, fun _ => [], 0, 3, true, 0, false, reservedBlocks, true⟩

section Samples

variable {s s' : Chunks Bool Nat} {size computed inFlight n : Nat}

theorem grown_newTokens (hcomputed : s.computed false = computed)
    (hinFlight : s.inFlight false = inFlight) (hn : inFlight + n ≤ 5) (hle : computed + n ≤ 32) :
    Grown windowOfTwo 4 size [prompt computed inFlight] 0 s
      (.call (.allocateSlots (prompt computed inFlight) (newTokens n))) := by
  refine ⟨⟨SlotsCall.of_new hcomputed.symm hinFlight.symm hle rfl rfl rfl, hn⟩, fun p hp => ?_,
    fun req a heq => ⟨_, mem_cons_self, ?_⟩⟩
  · cases mem_singleton.mp hp
    exact fun _ => ⟨by simp [AllocArgs.Adopts, newTokens], hle, Nat.le_refl 0⟩
  · cases heq
    rfl

theorem admits_threeLoaded {reservedBlocks : Int} (hcomputed : s.computed true = 0)
    (hinFlight : s.inFlight true = 0)
    (hfresh : (s.system.manager.managers 0).numCachedBlock true = none ∧ s.table 0 true = [])
    (hgranted : ∃ res, s.system.manager.allocateSlots windowOfTwo loading
      (threeLoaded reservedBlocks) = .ok res ∧ res.1 ≠ none)
    (hexec : s.exec windowOfTwo
      (.call (.allocateSlots loading (threeLoaded reservedBlocks))) = .ok s') :
    Admits windowOfTwo 4 size s loading (threeLoaded reservedBlocks) s' := by
  have hzero : ∀ i < windowOfTwo.groups.length, i = 0 := fun i hi => Nat.lt_one_iff.mp hi
  refine ⟨⟨⟨hcomputed.symm, hinFlight.symm, Nat.le_of_ble_eq_true rfl,
    fun _ => ⟨fun i hi => ?_, fun i hi => ?_⟩, nofun,
    fun _ _ _ _ => ⟨0, 0, .nil, Nat.zero_le _⟩, nofun⟩, Nat.zero_le _⟩,
    .inr (Nat.succ_pos 2), hgranted, hexec⟩
  · exact hzero i hi ▸ hfresh.1
  · exact hzero i hi ▸ hfresh.2

/-- Four of the 32 tokens of a prompt are in flight, and the reservation for it is two blocks. A
load is admitted beside it. Then the next token finds its block. -/
theorem reservation_holds_windowOfTwo :
    ∃ s s₁ : Chunks Bool Nat,
      inflightPrefillReservedBlocks windowOfTwo s.system.manager 0 0 [prompt 4 4] = .ok 2 ∧
      Admits windowOfTwo 4 12 s loading (threeLoaded 2) s₁ ∧
      ¬s₁.Preempts windowOfTwo (prompt 4 4) (newTokens 1) := by
  have hstates : ∃ pool s s₁, BlockPool.init 12 false 1 = some pool ∧
      (Chunks.init pool).exec windowOfTwo
        (.call (.allocateSlots (prompt 0 0) (newTokens 4))) = .ok s ∧
      inflightPrefillReservedBlocks windowOfTwo s.system.manager 0 0 [prompt 4 4] = .ok 2 ∧
      Admits windowOfTwo 4 12 s loading (threeLoaded 2) s₁ ∧ s.computed false = 4 ∧
      s₁.computed false = 4 ∧ s₁.inFlight false = 4 ∧ s₁.table 0 false = [1, 2, 3, 4] ∧
      ∀ b ∈ [1, 2, 3, 4], (s₁.system.manager.pool.blocks b).refCnt ≤ 1 :=
    ⟨_, _, _, rfl, rfl, by decide, admits_threeLoaded rfl rfl ⟨rfl, rfl⟩
      ⟨_, rfl, Option.some_ne_none _⟩ rfl, rfl, rfl, rfl, rfl, by decide⟩
  obtain ⟨pool, s, s₁, hinit, hfirst, hn, hload, hs, hcomputed, hinFlight, htable, hrefs⟩ :=
    hstates
  have hrun : Reaches (Scheduled windowOfTwo 4 12) (exec windowOfTwo) (Chunks.init pool) s :=
    Reaches.refl.step
      (grown_newTokens rfl rfl (by decide : 0 + 4 ≤ 5) (by decide : 0 + 4 ≤ 32)).1 hfirst
  obtain ⟨n, hn', -, hadmitted⟩ := reservation_holds 0 0 [prompt 4 4] hinit
    (by constructor <;> simp [windowOfTwo, oneWindow, Kind.Valid, Group.WholeChunks,
      Kind.isAttention, Group.maxAdmissionBlocks])
    (fun _ => rfl) (nodup_singleton _) hrun (by simpa [prompt] using hs.symm)
  cases hn'.symm.trans hn
  refine ⟨s, s₁, hn, hload, hadmitted loading (threeLoaded 2) s₁ hload (by decide) (by decide)
    ⟨?_, ?_⟩ s₁ .refl _ _ (grown_newTokens hcomputed hinFlight (by decide) (by decide))⟩
  · intro p hp i g hg cap _
    obtain rfl := mem_singleton.mp hp
    obtain rfl : i = 0 := Nat.lt_one_iff.mp (List.getElem?_eq_some_iff.mp hg).1
    exact .inl (show heldBlocks (s₁.table 0 false) = _ from htable ▸ rfl)
  · intro r hr i hi _ b hb _
    obtain rfl : r = false := by simpa [prompt] using hr
    obtain rfl : i = 0 := Nat.lt_one_iff.mp hi
    exact hrefs b (htable ▸ hb)

/-- The estimate is no bound. In a pool of five blocks, after nine of its 32 tokens the prompt
holds two blocks behind seven null ones, three are free, and the reservation is zero. Its next
four tokens take all three. And if a load is admitted beside it, which takes one, they find too
few blocks. -/
theorem growth_above_reservation :
    ∃ (pool : BlockPool Nat) (s s₁ s₂ : Chunks Bool Nat), BlockPool.init 6 false 1 = some pool ∧
      Reaches (Scheduled windowOfTwo 4 6) (exec windowOfTwo) (Chunks.init pool) s ∧
      inflightPrefillReservedBlocks windowOfTwo s.system.manager 0 0 [prompt 9 0] = .ok 0 ∧
      s.system.manager.pool.getNumFreeBlocks = 3 ∧
      (Grown windowOfTwo 4 6 [prompt 9 0] 0 s
          (.call (.allocateSlots (prompt 9 0) (newTokens 4))) ∧
        s.exec windowOfTwo (.call (.allocateSlots (prompt 9 0) (newTokens 4))) = .ok s₁ ∧
        s₁.system.manager.pool.getNumFreeBlocks = 0) ∧
      Admits windowOfTwo 4 6 s loading (threeLoaded 0) s₂ ∧
      Grown windowOfTwo 4 6 [prompt 9 0] 0 s₂
        (.call (.allocateSlots (prompt 9 0) (newTokens 4))) ∧
      s₂.Preempts windowOfTwo (prompt 9 0) (newTokens 4) := by
  have hallowed : Allowed windowOfTwo 6 (·.InFlightWithin 4) [chunk false 0 4 0,
      .settle false 4 0, chunk false 4 4 0, .settle false 4 0, chunk false 8 1 0,
      .settle false 1 0] :=
    .chunk (by decide) (Nat.le_of_ble_eq_true rfl) (.settle trivial
      (.chunk (by decide) (Nat.le_of_ble_eq_true rfl) (.settle trivial
        (.chunk (by decide) (Nat.le_of_ble_eq_true rfl) (.settle trivial .nil)))))
  exact ⟨_, _, _, _, rfl, reaches_of_runChunks rfl hallowed, by decide, by decide,
    ⟨grown_newTokens rfl rfl (by decide) (by decide), rfl, by decide⟩,
    admits_threeLoaded rfl rfl ⟨rfl, rfl⟩ ⟨_, rfl, Option.some_ne_none _⟩ rfl,
    grown_newTokens rfl rfl (by decide) (by decide), ⟨rfl, rfl, rfl⟩, _, rfl, rfl⟩

end Samples

end Chunks

end Vllm.KVCache
