import Vllm.KVCache.Tables

/-!
# The admission cap of window groups

`max_admission_blocks_per_request` of the sliding window and chunked local specs
(`v1/kv_cache_interface.py`) caps what admission reserves for a request, and is meant
as the peak of what the request holds. `Chunks` is the manager together with the
progress of each request as the scheduler counts it: the tokens that are computed once
all steps in flight have run, and those of the steps in flight.

`heldBlocks_le_maxAdmissionBlocks` says when the cap is a peak: lookahead tokens have
to stay within the tokens in flight that the cap was built for, with one token of slack,
and the chunks of chunked local attention have to consist of whole blocks. The run
behind it shows that the slack is used up by three lookahead tokens.
-/

namespace Vllm.KVCache

open Function Library Pool List
open KVCacheManager (AllocArgs)

variable {R H : Type} [DecidableEq R] [DecidableEq H] {a : AllocArgs}
  {maxModelLen : Nat}

/-! ## The cap -/

/-- Windows and chunks are not empty. -/
def Kind.Valid : Kind → Prop
  | .slidingWindow window _ => 0 < window
  | .chunkedLocal chunk => 0 < chunk
  | _ => True

/-- A chunk of chunked local attention consists of whole blocks. -/
def Group.WholeChunks (g : Group) : Prop :=
  match g.kind with
  | .chunkedLocal chunk => g.blockSize ∣ chunk
  | _ => True

/-- `max_admission_blocks_per_request`; other specs have no cap. -/
def Group.maxAdmissionBlocks (g : Group) (maxInFlightTokens maxModelLen : Nat) : Option Nat :=
  match g.kind with
  | .slidingWindow window extra =>
    some (cdiv (min (window - 1 + extra + maxInFlightTokens) maxModelLen) g.blockSize + 1)
  | .chunkedLocal chunk => some (cdiv (min (chunk + maxInFlightTokens) maxModelLen) g.blockSize)
  | _ => none

theorem isAttention_of_maxAdmissionBlocks {g : Group} {maxInFlight cap : Nat}
    (hcap : g.maxAdmissionBlocks maxInFlight maxModelLen = some cap) :
    g.kind.isAttention = true := by
  unfold Group.maxAdmissionBlocks at hcap
  split at hcap
  · rename_i hkind
    rw [hkind]
    rfl
  · rename_i hkind
    rw [hkind]
    rfl
  · cases hcap

theorem getNumSkippedTokens_le {kind : Kind} (hkind : kind.Valid) (n : Nat) :
    kind.getNumSkippedTokens n ≤ n := by
  cases kind with
  | fullAttention => exact Nat.zero_le n
  | slidingWindow window extra =>
    have hpos : 0 < window := hkind
    show n + 1 - window - extra ≤ n
    omega
  | chunkedLocal chunk => exact Nat.div_mul_le_self n chunk
  | mamba params => exact Nat.sub_le n 1
  | crossAttention => exact Nat.zero_le n

theorem getNumSkippedTokens_mono (kind : Kind) {n m : Nat} (h : n ≤ m) :
    kind.getNumSkippedTokens n ≤ kind.getNumSkippedTokens m := by
  cases kind with
  | fullAttention => exact Nat.le_refl 0
  | slidingWindow window extra =>
    show n + 1 - window - extra ≤ m + 1 - window - extra
    omega
  | chunkedLocal chunk => exact Nat.mul_le_mul_right chunk (Nat.div_le_div_right h)
  | mamba params => exact Nat.sub_le_sub_right h 1
  | crossAttention => exact Nat.le_refl 0

/-- The blocks from the window of `processed` on up to `maxInFlight` tokens and one more
behind `processed` are within the cap. -/
theorem cdiv_sub_skipped_le {g : Group} {maxInFlight cap : Nat}
    (hvalid : g.kind.Valid) (hwhole : g.WholeChunks)
    (hcap : g.maxAdmissionBlocks maxInFlight maxModelLen = some cap) (processed : Nat) :
    cdiv (min (processed + maxInFlight + 1) maxModelLen) g.blockSize ≤
      g.kind.getNumSkippedTokens processed / g.blockSize + cap := by
  have hpos := g.blockSize_pos
  rw [cdiv_le_iff hpos, Nat.add_mul]
  unfold Group.maxAdmissionBlocks at hcap
  split at hcap
  · rename_i window extra hkind
    rw [hkind] at hvalid ⊢
    cases hcap
    show _ ≤ (processed + 1 - window - extra) / g.blockSize * g.blockSize + _
    -- the window may start inside of a block, hence the block more
    have hstart := Nat.lt_div_mul_add (a := processed + 1 - window - extra) hpos
    have hcover := (cdiv_le_iff (a := min (window - 1 + extra + maxInFlight) maxModelLen)
      hpos).mp (Nat.le_refl _)
    rw [Nat.add_mul]
    omega
  · rename_i chunk hkind
    unfold Group.WholeChunks at hwhole
    rw [hkind] at hvalid hwhole ⊢
    have hchunk : 0 < chunk := hvalid
    cases hcap
    show _ ≤ processed / chunk * chunk / g.blockSize * g.blockSize + _
    rw [Nat.div_mul_cancel (hwhole.mul_left _)]
    have hstart := Nat.lt_div_mul_add (a := processed) hchunk
    have hcover := (cdiv_le_iff (a := min (chunk + maxInFlight) maxModelLen)
      hpos).mp (Nat.le_refl _)
    omega
  · cases hcap

/-! ## Requests in chunks -/

/-- The system, with `num_computed_tokens` and `num_in_flight_tokens` of each request. -/
structure Chunks (R H : Type) where
  system : System R H
  computed : R → Nat
  inFlight : R → Nat

/-- A call of the manager, or the end of a step that had `n` tokens of `r`: they are not
in flight any more, and those that were `rejected` are to be computed again. -/
inductive ChunkOp (R H : Type) where
  | call (op : SystemOp R H)
  | settle (r : R) (n rejected : Nat)

/-- What the scheduler keeps to when it calls `allocate_slots`. Computed tokens come with
the first call of a request only, local ones with blocks; the blocks of a hit are null
blocks and then cached ones, and no more than the computed tokens need. -/
structure SlotsCall (cfg : Config) (size : Nat) (s : Chunks R H) (req : Request R H)
    (a : AllocArgs) : Prop where
  computed : req.numComputedTokens = s.computed req.requestId
  inFlight : req.numInFlightTokens = s.inFlight req.requestId
  within : a.numLocalComputedTokens req + a.numExternalComputedTokens + a.numNewTokens ≤
    cfg.maxModelLen
  fresh : a.Adopts cfg → s.system.manager.Untracked cfg req.requestId ∧
    ∀ i < cfg.groups.length, (s.system.manager.managers i).reqToBlocks req.requestId = []
  hits : 0 < a.numNewComputedTokens → ∃ i < cfg.groups.length, a.newComputedBlocks i ≠ []
  shape : ∀ i g, cfg.groups[i]? = some g → g.kind.isAttention = true →
    ∃ nulls held, Row (a.newComputedBlocks i) nulls held ∧
      nulls + held ≤ cdiv a.numNewComputedTokens g.blockSize
  valid : ∀ i, ∀ b ∈ a.newComputedBlocks i, b < size

omit [DecidableEq R] [DecidableEq H] in
theorem SlotsCall.new_of_not_adopts {cfg : Config} {size : Nat} {s : Chunks R H}
    {req : Request R H} (h : SlotsCall cfg size s req a) (hadopts : ¬a.Adopts cfg) :
    a.numNewComputedTokens = 0 ∧ a.numExternalComputedTokens = 0 := by
  constructor
  · by_contra hne
    exact hadopts (.inl (h.hits (Nat.pos_of_ne_zero hne)))
  · by_contra hne
    exact hadopts (.inr (Nat.pos_of_ne_zero hne))

omit [DecidableEq R] [DecidableEq H] in
/-- A call for new tokens only. -/
theorem SlotsCall.of_new {cfg : Config} {size : Nat} {s : Chunks R H} {req : Request R H}
    (hcomputed : req.numComputedTokens = s.computed req.requestId)
    (hinFlight : req.numInFlightTokens = s.inFlight req.requestId)
    (hwithin : req.numComputedTokens + a.numNewTokens ≤ cfg.maxModelLen)
    (hblocks : a.newComputedBlocks = fun _ => []) (hlocal : a.numNewComputedTokens = 0)
    (hexternal : a.numExternalComputedTokens = 0) : SlotsCall cfg size s req a where
  computed := hcomputed
  inFlight := hinFlight
  within := by simpa [AllocArgs.numLocalComputedTokens, hlocal, hexternal]
  fresh := by simp [AllocArgs.Adopts, hblocks, hexternal]
  hits := by simp [hlocal]
  shape := fun _ _ _ _ => ⟨0, 0, by rw [hblocks]; exact .nil, Nat.zero_le _⟩
  valid := by simp [hblocks]

namespace ChunkOp

/-- What the scheduler keeps to. -/
def Promised (cfg : Config) (size : Nat) (s : Chunks R H) : ChunkOp R H → Prop
  | .call (.allocateSlots req a) => SlotsCall cfg size s req a
  | .call _ => True
  | .settle r n rejected => rejected ≤ n ∧ n ≤ s.inFlight r

/-- Tokens in flight and lookahead tokens exceed `maxInFlight` by one at most. -/
def InFlightWithin (maxInFlight : Nat) : ChunkOp R H → Prop
  | .call (.allocateSlots req a) =>
    req.numInFlightTokens + a.numNewTokens + a.numLookaheadTokens ≤ maxInFlight + 1
  | _ => True

/-- The tokens in flight stay within `maxInFlight`, the lookahead within its number. -/
def ChunkWithin (maxInFlight numLookahead : Nat) : ChunkOp R H → Prop
  | .call (.allocateSlots req a) =>
    req.numInFlightTokens + a.numNewTokens ≤ maxInFlight ∧ a.numLookaheadTokens ≤ numLookahead
  | _ => True

end ChunkOp

namespace Chunks

variable (cfg : Config)

def init (pool : BlockPool H) : Chunks R H := ⟨.init pool, fun _ => 0, fun _ => 0⟩

/-- The blocks of a request go away with its progress. -/
def computedAfter (s : Chunks R H) : SystemOp R H → R → Nat
  | .free r | .popBlocksForFree r => Function.update s.computed r 0
  | _ => s.computed

def exec (s : Chunks R H) : ChunkOp R H → Except Fault (Chunks R H)
  | .call (.allocateSlots req a) =>
    (s.system.manager.allocateSlots cfg req a).map fun res =>
      let system := { s.system with manager := res.2 }
      if res.1.isSome then
        { system
          computed := Function.update s.computed req.requestId
            (a.totalComputedTokens cfg req + a.numNewTokens)
          inFlight := Function.update s.inFlight req.requestId
            (req.numInFlightTokens + a.numNewTokens) }
      else { s with system }
  | .call op => (s.system.step cfg op).map fun system =>
    { s with system, computed := s.computedAfter op }
  | .settle r n rejected =>
    .ok { s with
      computed := Function.update s.computed r (s.computed r - rejected)
      inFlight := Function.update s.inFlight r (s.inFlight r - n) }

end Chunks

/-! ## What a table holds -/

/-- The table covers the computed tokens, is not longer than the tokens in flight can
make it, and holds no more than the cap. -/
def Fitting (cfg : Config) (maxInFlight : Nat) (g : Group) (table : List Nat)
    (computed inFlight : Nat) : Prop :=
  ∃ nulls held, Row table nulls held ∧ computed ≤ (nulls + held) * g.blockSize ∧
    nulls + held ≤
      cdiv (min (computed - inFlight + maxInFlight + 1) cfg.maxModelLen) g.blockSize ∧
    ∀ cap, g.maxAdmissionBlocks maxInFlight cfg.maxModelLen = some cap → held ≤ cap

namespace Fitting

variable {cfg : Config} {maxInFlight computed inFlight : Nat} {g : Group} {table table' : List Nat}

theorem nil (inFlight : Nat) : Fitting cfg maxInFlight g [] 0 inFlight :=
  ⟨0, 0, .nil, Nat.zero_le _, Nat.zero_le _, fun _ _ => Nat.zero_le _⟩

theorem shrink (h : Fitting cfg maxInFlight g table computed inFlight)
    (hrow : Shrinks table table') : Fitting cfg maxInFlight g table' computed inFlight := by
  obtain ⟨nulls, held, htable, hcomputed, hlen, hcap⟩ := h
  obtain ⟨nulls', held', htable', hle, heq⟩ := hrow nulls held htable
  refine ⟨nulls', held', htable', by rwa [heq], by rwa [heq], fun cap hc => ?_⟩
  have := hcap cap hc
  omega

/-- A step ends. -/
theorem settle {n rejected : Nat} (h : Fitting cfg maxInFlight g table computed inFlight)
    (hle : rejected ≤ n) (hn : n ≤ inFlight) :
    Fitting cfg maxInFlight g table (computed - rejected) (inFlight - n) := by
  obtain ⟨nulls, held, htable, hcomputed, hlen, hcap⟩ := h
  refine ⟨nulls, held, htable, by omega, Nat.le_trans hlen ?_, hcap⟩
  exact cdiv_mono g.blockSize_pos (by omega)

/-- A chunk: the blocks before the window are null, and the blocks reach as far as the
tokens of the chunk and its lookahead. -/
theorem of_row {nulls held need : Nat} (hvalid : g.kind.Valid) (hwhole : g.WholeChunks)
    (hrow : Row table nulls held)
    (hskip : g.kind.getNumSkippedTokens (computed - inFlight) / g.blockSize ≤ nulls)
    (hneed : computed ≤ need) (hcover : cdiv need g.blockSize ≤ nulls + held)
    (hlen : nulls + held ≤
      cdiv (min (computed - inFlight + maxInFlight + 1) cfg.maxModelLen) g.blockSize) :
    Fitting cfg maxInFlight g table computed inFlight := by
  refine ⟨nulls, held, hrow, ?_, hlen, fun cap hc => ?_⟩
  · exact Nat.le_trans hneed ((cdiv_le_iff g.blockSize_pos).mp hcover)
  · have := cdiv_sub_skipped_le hvalid hwhole hc (computed - inFlight)
    omega

end Fitting

/-! ## Runs -/

namespace Chunks

variable {cfg : Config} {maxInFlight size : Nat} {s s' : Chunks R H} {rs : Finset R}
  {allowed : Chunks Unit Nat → ChunkOp Unit Nat → Prop}

/-- The table of request `r` in group `i`. -/
def table (s : Chunks R H) (i : Nat) (r : R) : List Nat :=
  (s.system.manager.managers i).reqToBlocks r

theorem exec_call {op : SystemOp R H} (hop : ∀ req a, op ≠ .allocateSlots req a) :
    s.exec cfg (.call op) = (s.system.step cfg op).map fun system =>
      { s with system, computed := s.computedAfter op } := by
  cases op with
  | allocateSlots req a => exact absurd rfl (hop req a)
  | _ => rfl

omit [DecidableEq H] in
/-- The counts are exact over the requests so far and the one of a call. -/
theorem exact_request (h : s.system.Exact cfg rs size) (op : SystemOp R H) :
    ∃ rs', s.system.Exact cfg rs' size ∧ ∀ r ∈ op.request, r ∈ rs' :=
  ⟨op.request.toList.toFinset ∪ rs, KVCacheManager.Exact.mono h Finset.subset_union_right,
    fun _ hr => Finset.mem_union_left _ (mem_toFinset.mpr (Option.mem_toList.mpr hr))⟩

/-- The counts stay exact. -/
theorem exec_exact {op : ChunkOp R H} (h : s.system.Exact cfg rs size)
    (hop : op.Promised cfg size s) (hexec : s.exec cfg op = .ok s') :
    ∃ rs', s'.system.Exact cfg rs' size := by
  cases op with
  | settle r n rejected =>
    cases hexec
    exact ⟨rs, h⟩
  | call op =>
    obtain ⟨rs', hexact, hmem⟩ := exact_request h op
    cases op with
    | allocateSlots req a =>
      obtain ⟨res, hres, rfl⟩ := map_eq_ok.mp hexec
      refine ⟨_, System.step_exact hexact hmem (SlotsCall.valid hop)
        (map_eq_ok.mpr ⟨res, hres, ?_⟩)⟩
      split <;> rfl
    | _ =>
      rw [exec_call (by simp)] at hexec
      obtain ⟨system, hsystem, rfl⟩ := map_eq_ok.mp hexec
      exact ⟨_, System.step_exact hexact hmem trivial hsystem⟩

/-- Every table of an attention group fits. -/
def Good (cfg : Config) (maxInFlight : Nat) (s : Chunks R H) : Prop :=
  ∀ i g, cfg.groups[i]? = some g → g.kind.isAttention = true → ∀ r,
    Fitting cfg maxInFlight g (s.table i r) (s.computed r) (s.inFlight r)

section Chunk

variable {req : Request R H} {i : Nat} {g : Group} (hcall : SlotsCall cfg size s req a)
  (hwithin : req.numInFlightTokens + a.numNewTokens + a.numLookaheadTokens ≤ maxInFlight + 1)
  (hvalid : g.kind.Valid) (hwhole : g.WholeChunks)
  (h : Fitting cfg maxInFlight g (s.table i req.requestId) (s.computed req.requestId)
    (s.inFlight req.requestId))
include hcall hwithin

omit [DecidableEq R] [DecidableEq H] in
/-- The tokens that need a slot cover the chunk, and stay within the tokens in flight. -/
theorem numTokensNeedSlot_bounds :
    a.totalComputedTokens cfg req =
      a.numLocalComputedTokens req + a.numExternalComputedTokens ∧
    a.totalComputedTokens cfg req + a.numNewTokens ≤ a.numTokensNeedSlot cfg req ∧
    a.numTokensNeedSlot cfg req ≤ min (a.totalComputedTokens cfg req + a.numNewTokens -
      (req.numInFlightTokens + a.numNewTokens) + maxInFlight + 1) cfg.maxModelLen := by
  have hmodel := hcall.within
  unfold AllocArgs.numTokensNeedSlot AllocArgs.numTokensMainModel
    AllocArgs.totalComputedTokens
  omega

include hvalid hwhole h

omit [DecidableEq R] [DecidableEq H] in
/-- A further chunk: the window starts at the processed tokens. -/
theorem fitting_of_row (hadopts : ¬a.Adopts cfg) {nulls held nulls' held' : Nat}
    {table' : List Nat} (hrow : Row (s.table i req.requestId) nulls held)
    (hrow' : Row table' nulls' held')
    (hskip : min (g.kind.getNumSkippedTokens (a.totalComputedTokens cfg req -
      req.numInFlightTokens) / g.blockSize) (nulls + held) ≤ nulls')
    (hlen' : nulls' + held' =
      max (nulls + held) (cdiv (a.numTokensNeedSlot cfg req) g.blockSize)) :
    Fitting cfg maxInFlight g table' (a.totalComputedTokens cfg req + a.numNewTokens)
      (req.numInFlightTokens + a.numNewTokens) := by
  obtain ⟨htotal, hle, hneed⟩ := numTokensNeedSlot_bounds hcall hwithin
  have hprocessed : a.totalComputedTokens cfg req + a.numNewTokens -
      (req.numInFlightTokens + a.numNewTokens) =
        a.totalComputedTokens cfg req - req.numInFlightTokens := Nat.add_sub_add_right _ _ _
  have hnone := hcall.new_of_not_adopts hadopts
  obtain ⟨nulls₀, held₀, hrow₀, hcomputed, hlen, -⟩ := h
  have hlength : nulls₀ + held₀ = nulls + held := hrow₀.length_eq.symm.trans hrow.length_eq
  rw [hlength] at hcomputed hlen
  have htotal' : a.totalComputedTokens cfg req = s.computed req.requestId := by
    rw [htotal, AllocArgs.numLocalComputedTokens, hnone.1, hnone.2,
      hcall.computed, Nat.add_zero]
  refine Fitting.of_row hvalid hwhole hrow' ?_ hle (by omega) ?_
  · rw [hprocessed]
    have hskipLe : g.kind.getNumSkippedTokens
        (a.totalComputedTokens cfg req - req.numInFlightTokens) / g.blockSize ≤ nulls + held := by
      refine Nat.div_le_of_le_mul ?_
      have := getNumSkippedTokens_le hvalid
        (a.totalComputedTokens cfg req - req.numInFlightTokens)
      rw [Nat.mul_comm]
      omega
    omega
  · rw [hlen']
    refine Nat.max_le.mpr ⟨?_, cdiv_mono g.blockSize_pos hneed⟩
    rw [hprocessed, htotal', hcall.inFlight]
    exact hlen

/-- A chunk of request `req` is given its blocks. -/
theorem fitting_allocateSlots {res : Option (List (List Nat)) × KVCacheManager R H}
    (hexact : s.system.Exact cfg rs size) (hr : req.requestId ∈ rs)
    (hres : s.system.manager.allocateSlots cfg req a = .ok res) (hsome : res.1 ≠ none)
    (hg : cfg.groups[i]? = some g) (hk : g.kind.isAttention = true) :
    Fitting cfg maxInFlight g ((res.2.managers i).reqToBlocks req.requestId)
      (a.totalComputedTokens cfg req + a.numNewTokens)
      (req.numInFlightTokens + a.numNewTokens) := by
  have hpos := g.blockSize_pos
  by_cases hadopts : a.Adopts cfg
  · -- the first call of the request: the window starts at all computed tokens
    obtain ⟨htotal, hle, hneed⟩ := numTokensNeedSlot_bounds hcall hwithin
    obtain ⟨huntracked, hempty⟩ := hcall.fresh hadopts
    obtain ⟨nulls, held, hhits, hlen⟩ := hcall.shape i g hg hk
    have hi : i < cfg.groups.length := (List.getElem?_eq_some_iff.mp hg).1
    have hzero : req.numComputedTokens = 0 := by
      obtain ⟨nulls₀, held₀, hrow₀, hcomputed₀, -, -⟩ := h
      have hlen₀ := hrow₀.length_eq
      rw [table, hempty i hi, length_nil] at hlen₀
      rw [← hlen₀, Nat.zero_mul, ← hcall.computed] at hcomputed₀
      exact Nat.le_zero.mp hcomputed₀
    obtain ⟨nulls', held', hrow, hskip, hcover, hlen'⟩ :=
      KVCacheManager.row_allocateSlots_of_adopts hexact hr hres hsome hg hk hcall.valid hadopts
        huntracked hhits
    have hlocal : a.numLocalComputedTokens req = a.numNewComputedTokens := by
      rw [AllocArgs.numLocalComputedTokens, hzero, Nat.zero_add]
    rw [← htotal] at hskip hlen'
    -- nothing reaches further than the slots that are needed
    have hskipped : g.kind.getNumSkippedTokens (a.totalComputedTokens cfg req) / g.blockSize ≤
        cdiv (a.numTokensNeedSlot cfg req) g.blockSize := by
      have hdiv := Nat.div_le_div_right (c := g.blockSize)
        (getNumSkippedTokens_le hvalid (a.totalComputedTokens cfg req))
      exact Nat.le_trans hdiv (Nat.div_le_div_right (by omega))
    have hhitsLen : nulls + held ≤ cdiv (a.numTokensNeedSlot cfg req) g.blockSize :=
      Nat.le_trans hlen (cdiv_mono hpos (by omega))
    have htotalLen : cdiv (a.totalComputedTokens cfg req) g.blockSize ≤
        cdiv (a.numTokensNeedSlot cfg req) g.blockSize :=
      cdiv_mono hpos (by omega)
    refine Fitting.of_row hvalid hwhole hrow ?_ hle hcover ?_
    · refine Nat.le_trans (Nat.div_le_div_right (getNumSkippedTokens_mono _ ?_)) hskip
      omega
    · refine Nat.le_trans ?_ (cdiv_mono hpos hneed)
      omega
  · obtain ⟨nulls, held, hrow, -, -, -⟩ := id h
    obtain ⟨nulls', held', hrow', -, hskip, hlen'⟩ :=
      KVCacheManager.row_allocateSlots hexact hr hres hsome hg hk hadopts hrow
    exact fitting_of_row hcall hwithin hvalid hwhole h hadopts hrow hrow' hskip hlen'

end Chunk

/-- What a call other than `allocate_slots` does to a request in an attention group. No partial
hit comes up, and the table stays, or blocks of it become null, or the request goes away. -/
theorem manager_of_step {op : SystemOp R H} {system : System R H} {i : Nat} {g : Group}
    (hop : ∀ req a, op ≠ .allocateSlots req a) (hstep : s.system.step cfg op = .ok system)
    (hg : cfg.groups[i]? = some g) (hk : g.kind.isAttention = true) (r : R) :
    let m := s.system.manager.managers i
    let m' := system.manager.managers i
    (m.partialHitReqs r = none → m'.partialHitReqs r = none) ∧
    ((m'.reqToBlocks r = m.reqToBlocks r ∧ s.computedAfter op r = s.computed r) ∨
      ((∃ n, op = .removeSkippedBlocks r n) ∧ Shrinks (m.reqToBlocks r) (m'.reqToBlocks r)) ∨
      (m'.reqToBlocks r = [] ∧ s.computedAfter op r = 0 ∧
        (op = .free r ∨ op = .popBlocksForFree r))) := by
  -- a request that goes away, and the others beside it
  have hends : ∀ {r₀ : R} {m m' : Manager R H}, Popped r₀ m m' →
      (m.partialHitReqs r = none → m'.partialHitReqs r = none) ∧
      ((m'.reqToBlocks r = m.reqToBlocks r ∧ update s.computed r₀ 0 r = s.computed r) ∨
        (m'.reqToBlocks r = [] ∧ update s.computed r₀ 0 r = 0 ∧ r₀ = r)) := by
    intro r₀ m m' hpopped
    rw [hpopped.reqToBlocks, hpopped.partialHitReqs]
    by_cases hr : r = r₀
    · subst hr
      exact ⟨fun _ => update_self .., .inr ⟨update_self .., update_self .., rfl⟩⟩
    · exact ⟨fun hnone => (update_of_ne hr ..).trans hnone,
        .inl ⟨update_of_ne hr .., update_of_ne hr ..⟩⟩
  cases op with
  | allocateSlots req a => exact absurd rfl (hop req a)
  | cacheBlocks req n =>
    obtain ⟨m, hm, rfl⟩ := map_eq_ok.mp hstep
    obtain ⟨htables, hwaits⟩ := (KVCacheManager.cacheBlocks_same hm).2 i
    exact ⟨fun hnone => (congrFun (hwaits g hg hk) r).trans hnone,
      .inl ⟨congrFun htables r, rfl⟩⟩
  | removeSkippedBlocks r₀ n =>
    obtain ⟨m, hm, rfl⟩ := map_eq_ok.mp hstep
    obtain ⟨v, v', hmgr, hf, hmgr'⟩ := KVCacheManager.forManagers_at hm hg
    have hset := removeSkippedBlocks_mgr hk hf
    dsimp only
    rw [← hmgr, ← hmgr']
    refine ⟨by rw [hset]; exact id, ?_⟩
    by_cases hr : r = r₀
    · subst hr
      refine .inr (.inl ⟨⟨n, rfl⟩, fun nulls held hrow => ?_⟩)
      exact ⟨_, _, hrow.removeSkippedBlocks hk hf, Nat.le_max_right _ _, by omega⟩
    · refine .inl ⟨?_, rfl⟩
      rw [hset]
      exact update_of_ne hr ..
  | free r₀ =>
    obtain ⟨m, hm, rfl⟩ := map_eq_ok.mp hstep
    obtain ⟨hwaits, hcase⟩ := hends (KVCacheManager.free_at hm hg hk)
    exact ⟨hwaits, hcase.imp id fun ⟨htable, hcomputed, heq⟩ =>
      .inr ⟨htable, hcomputed, .inl (heq ▸ rfl)⟩⟩
  | popBlocksForFree r₀ =>
    cases hstep
    obtain ⟨hwaits, hcase⟩ := hends (s.system.manager.popBlocksForFree_at (r := r₀) hg hk)
    exact ⟨hwaits, hcase.imp id fun ⟨htable, hcomputed, heq⟩ =>
      .inr ⟨htable, hcomputed, .inr (heq ▸ rfl)⟩⟩
  | freePopped k | releaseRetained k =>
    obtain ⟨m, hm, rfl⟩ := map_eq_ok.mp hstep
    dsimp only
    rw [System.freeList_managers hm]
    exact ⟨id, .inl ⟨rfl, rfl⟩⟩
  | takeKVCacheBlockCopies =>
    cases hstep
    simp only [KVCacheManager.takeKVCacheBlockCopies]
    split <;> exact ⟨id, .inl ⟨rfl, rfl⟩⟩
  | evictBlocks ids =>
    obtain ⟨p, -, rfl⟩ := map_eq_ok.mp hstep
    exact ⟨id, .inl ⟨rfl, rfl⟩⟩
  | resetPrefixCache =>
    cases hstep
    exact ⟨id, .inl ⟨rfl, rfl⟩⟩
  | newStepStarts =>
    cases hstep
    simp only [KVCacheManager.newStepStarts, hg, Manager.newStepStarts]
    split <;> exact ⟨id, .inl ⟨rfl, rfl⟩⟩

/-- What an operation does to the table and the progress of a request `r` in an attention group:
blocks become null, a step ends, the request goes away, or a chunk of it is given its blocks. -/
theorem exec_cases {op : ChunkOp R H} {i : Nat} {g : Group} (hexact : s.system.Exact cfg rs size)
    (hop : op.Promised cfg size s) (hexec : s.exec cfg op = .ok s')
    (hg : cfg.groups[i]? = some g) (hk : g.kind.isAttention = true) (r : R) :
    (Shrinks (s.table i r) (s'.table i r) ∧ s'.computed r = s.computed r ∧
      s'.inFlight r = s.inFlight r) ∨
    (∃ n rejected, op = .settle r n rejected ∧ s'.table i r = s.table i r ∧
      s'.computed r = s.computed r - rejected ∧ s'.inFlight r = s.inFlight r - n) ∨
    (s'.table i r = [] ∧ s'.computed r = 0 ∧
      (op = .call (.free r) ∨ op = .call (.popBlocksForFree r))) ∨
    ∃ req a res rs', op = .call (.allocateSlots req a) ∧ r = req.requestId ∧ r ∈ rs' ∧
      s.system.Exact cfg rs' size ∧ s.system.manager.allocateSlots cfg req a = .ok res ∧
      res.1 ≠ none ∧ s'.table i r = (res.2.managers i).reqToBlocks r ∧
      s'.computed r = a.totalComputedTokens cfg req + a.numNewTokens ∧
      s'.inFlight r = req.numInFlightTokens + a.numNewTokens := by
  cases op with
  | settle r₀ n rejected =>
    cases hexec
    by_cases hr : r = r₀
    · subst hr
      exact .inr (.inl ⟨n, rejected, rfl, rfl, update_self .., update_self ..⟩)
    · exact .inl ⟨.of_eq rfl, update_of_ne hr .., update_of_ne hr ..⟩
  | call op =>
    obtain ⟨rs', hexact', hmem⟩ := exact_request hexact op
    by_cases halloc : ∃ req a, op = .allocateSlots req a
    · obtain ⟨req, a, rfl⟩ := halloc
      have hcall : SlotsCall cfg size s req a := hop
      obtain ⟨res, hres, rfl⟩ := map_eq_ok.mp hexec
      by_cases hr : r = req.requestId
      · subst hr
        cases hcase : res.1 with
        | none =>
          exact .inl ⟨KVCacheManager.shrinks_allocateSlots_none hres hcase hg hk, rfl, rfl⟩
        | some new =>
          refine .inr (.inr (.inr ⟨req, a, res, rs', rfl, rfl, hmem _ rfl, hexact', hres, ?_, rfl,
            update_self .., update_self ..⟩))
          exact hcase ▸ Option.some_ne_none new
      · have hothers := (KVCacheManager.Keeps.allocateSlots (hmem _ rfl) hcall.valid hres).others
          hexact' r hr i
        split
        · exact .inl ⟨.of_eq hothers, update_of_ne hr .., update_of_ne hr ..⟩
        · exact .inl ⟨.of_eq hothers, rfl, rfl⟩
    · have hne : ∀ req a, op ≠ .allocateSlots req a := fun req a heq => halloc ⟨req, a, heq⟩
      rw [exec_call hne] at hexec
      obtain ⟨system, hsystem, rfl⟩ := map_eq_ok.mp hexec
      obtain ⟨htable, hcomputed⟩ | ⟨⟨n, rfl⟩, hshrinks⟩ | ⟨htable, hcomputed, hends⟩ :=
        (manager_of_step hne hsystem hg hk r).2
      · exact .inl ⟨.of_eq htable, hcomputed, rfl⟩
      · exact .inl ⟨hshrinks, rfl, rfl⟩
      · exact .inr (.inr (.inl ⟨htable, hcomputed, hends.imp (congrArg _) (congrArg _)⟩))

/-- Every step keeps the tables within the cap. -/
theorem exec_good {op : ChunkOp R H} (hgroups : ∀ g ∈ cfg.groups, g.kind.Valid ∧ g.WholeChunks)
    (hexact : s.system.Exact cfg rs size) (h : s.Good cfg maxInFlight)
    (hop : op.Promised cfg size s) (hwithin : op.InFlightWithin maxInFlight)
    (hexec : s.exec cfg op = .ok s') : s'.Good cfg maxInFlight := by
  intro i g hg hk r
  have hfit := h i g hg hk r
  obtain ⟨hvalid, hwhole⟩ := hgroups g (mem_of_getElem? hg)
  obtain ⟨hshrinks, hcomputed, hinFlight⟩ | ⟨n, rejected, rfl, htable, hcomputed, hinFlight⟩ |
    ⟨htable, hcomputed, -⟩ | ⟨req, a, res, rs', rfl, rfl, hr, hexact', hres, hsome, htable,
      hcomputed, hinFlight⟩ := exec_cases hexact hop hexec hg hk r
  · rw [hcomputed, hinFlight]
    exact hfit.shrink hshrinks
  · rw [htable, hcomputed, hinFlight]
    exact hfit.settle hop.1 hop.2
  · rw [htable, hcomputed]
    exact Fitting.nil _
  · rw [htable, hcomputed, hinFlight]
    exact fitting_allocateSlots hop hwithin hvalid hwhole hfit hexact' hr hres hsome hg hk

/-- What a run keeps. -/
theorem reaches_good (hgroups : ∀ g ∈ cfg.groups, g.kind.Valid ∧ g.WholeChunks)
    (hrun : Reaches (fun s op => op.Promised cfg size s ∧ op.InFlightWithin maxInFlight)
      (exec cfg) s s')
    (h : (∃ rs, s.system.Exact cfg rs size) ∧ s.Good cfg maxInFlight) :
    (∃ rs, s'.system.Exact cfg rs size) ∧ s'.Good cfg maxInFlight := by
  refine hrun.invariant (P := fun s : Chunks R H =>
    (∃ rs, s.system.Exact cfg rs size) ∧ s.Good cfg maxInFlight) h ?_
  rintro s₁ op s₂ ⟨⟨rs, hexact⟩, hgood⟩ ⟨hop, hwithin⟩ hexec
  exact ⟨exec_exact hexact hop hexec, exec_good hgroups hexact hgood hop hwithin hexec⟩

omit [DecidableEq R] [DecidableEq H] in
theorem init_good {hashBlockSize : Nat} {enableCaching : Bool} {pool : BlockPool H}
    (hinit : BlockPool.init size enableCaching hashBlockSize = some pool) :
    (∃ rs, (Chunks.init pool : Chunks R H).system.Exact cfg rs size) ∧
      (Chunks.init pool : Chunks R H).Good cfg maxInFlight :=
  ⟨⟨∅, System.init_exact hinit⟩, fun _ _ _ _ _ => Fitting.nil 0⟩

/-- In every run whose chunks, with the tokens in flight and the lookahead, exceed the
tokens in flight that the cap was built for by one token at most, and with chunked local
attention in whole blocks, no request ever holds more blocks than the cap. -/
theorem heldBlocks_le_maxAdmissionBlocks {numGpuBlocks hashBlockSize i cap : Nat}
    {enableCaching : Bool} {pool : BlockPool H} {g : Group}
    (hinit : BlockPool.init numGpuBlocks enableCaching hashBlockSize = some pool)
    (hvalid : ∀ g ∈ cfg.groups, g.kind.Valid) (hwhole : ∀ g ∈ cfg.groups, g.WholeChunks)
    (hrun : Reaches (fun s op => op.Promised cfg numGpuBlocks s ∧ op.InFlightWithin maxInFlight)
      (exec cfg) (Chunks.init pool) s)
    (hg : cfg.groups[i]? = some g)
    (hcap : g.maxAdmissionBlocks maxInFlight cfg.maxModelLen = some cap) (r : R) :
    heldBlocks (s.table i r) ≤ cap := by
  have hgood := reaches_good (fun g hg => ⟨hvalid g hg, hwhole g hg⟩) hrun (init_good hinit)
  obtain ⟨nulls, held, hrow, -, -, hle⟩ :=
    hgood.2 i g hg (isAttention_of_maxAdmissionBlocks hcap) r
  rw [hrow.heldBlocks_eq]
  exact hle cap hcap

/-! ## Runs of one request -/

/-- One group with models of up to 32 tokens, and the cap for `maxInFlight` tokens. -/
def oneWindow (kind : Kind) (blockSize : Nat) (hpos : 0 < blockSize) (maxInFlight : Nat) : Config :=
  let g : Group := ⟨kind, blockSize, false, none, blockSize, false, false, false, hpos⟩
  { groups := [{ g with maxAdmissionBlocksPerRequest := g.maxAdmissionBlocks maxInFlight 32 }]
    enableCaching := false
    maxModelLen := 32
    watermarkBlocks := 0
    schedulerBlockSize := blockSize
    numHashLookaheadTokens := 0
    retentionInterval := none
    numReprefillableTokens := 0
    dropsEagle := false
    hybrid := false
    enablePartialHashHits := false }

/-- A chunk of `new` tokens of `r` behind `computed` ones, with nothing in flight. -/
def chunk (r : R) (computed new lookahead : Nat) : ChunkOp R Nat :=
  .call (.allocateSlots ⟨r, 32, 32, computed, 0, false, 0, []⟩
    ⟨new, 0, fun _ => [], lookahead, 0, false, 0, false, 0, false⟩)

/-- The part of the promises that depends on the state. -/
def passes (s : Chunks R Nat) : ChunkOp R Nat → Bool
  | .call (.allocateSlots req _) => decide (req.numComputedTokens = s.computed req.requestId ∧
      req.numInFlightTokens = s.inFlight req.requestId)
  | .call _ => true
  | .settle r n rejected => decide (rejected ≤ n ∧ n ≤ s.inFlight r)

/-- Where they pass, the operations keep the promises and are as `within` says. -/
def Allowed (cfg : Config) (size : Nat) (within : ChunkOp R Nat → Prop)
    (ops : List (ChunkOp R Nat)) : Prop :=
  ∀ op ∈ ops, ∀ s, passes s op = true → op.Promised cfg size s ∧ within op

namespace Allowed

variable {within : ChunkOp R Nat → Prop} {ops : List (ChunkOp R Nat)} {r : R}

omit [DecidableEq R]

theorem nil : Allowed cfg size within [] := forall_mem_nil _

theorem chunk {computed new lookahead : Nat} (hle : computed + new ≤ cfg.maxModelLen)
    (hwithin : within (chunk r computed new lookahead)) (h : Allowed cfg size within ops) :
    Allowed cfg size within (Chunks.chunk r computed new lookahead :: ops) := by
  refine forall_mem_cons.mpr ⟨fun s hpasses => ⟨?_, hwithin⟩, h⟩
  have hstate := of_decide_eq_true hpasses
  exact SlotsCall.of_new hstate.1 hstate.2 hle rfl rfl rfl

theorem settle {n rejected : Nat} (hwithin : within (.settle r n rejected))
    (h : Allowed cfg size within ops) :
    Allowed cfg size within (.settle r n rejected :: ops) := by
  refine forall_mem_cons.mpr ⟨fun s hpasses => ⟨?_, hwithin⟩, h⟩
  exact (of_decide_eq_true hpasses : rejected ≤ n ∧ n ≤ s.inFlight r)

end Allowed

/-- A run that stops where a promise is broken. -/
def runChunks (cfg : Config) (s : Chunks R Nat) (ops : List (ChunkOp R Nat)) :
    Option (Chunks R Nat) :=
  (ops.foldlM (fun s op => if passes s op then s.exec cfg op else .error .failed) s).toOption

theorem reaches_of_runChunks {cfg : Config} {ops : List (ChunkOp R Nat)}
    {allowed : Chunks R Nat → ChunkOp R Nat → Prop} {s s' : Chunks R Nat}
    (h : runChunks cfg s ops = some s')
    (hallowed : ∀ op ∈ ops, ∀ s, passes s op = true → allowed s op) :
    Reaches allowed (exec cfg) s s' := by
  unfold runChunks at h
  cases hrun : ops.foldlM (fun s op => if passes s op then s.exec cfg op else .error .failed) s with
  | error e =>
    rw [hrun] at h
    cases h
  | ok s₁ =>
    rw [hrun] at h
    obtain rfl : s₁ = s' := Option.some.inj h
    exact .of_foldlM hallowed hrun

/-- A sliding window of four tokens in blocks of two. -/
def windowOfFour : Config := oneWindow (.slidingWindow 4 0) 2 Nat.two_pos 4

/-- With four tokens in flight and one lookahead token, a request with a window of four
holds as much as the cap allows. -/
theorem heldBlocks_le_maxAdmissionBlocks_windowOfFour :
    ∃ (pool : BlockPool Nat) (s : Chunks Unit Nat), BlockPool.init 12 false 1 = some pool ∧
      Reaches (fun s op => op.Promised windowOfFour 12 s ∧ op.InFlightWithin 4)
        (exec windowOfFour) (Chunks.init pool) s ∧
      heldBlocks (s.table 0 ()) = 5 ∧ heldBlocks (s.table 0 ()) ≤ 5 := by
  have hallowed : Allowed windowOfFour 12 (·.InFlightWithin 4)
      [chunk () 0 4 0, .settle () 4 0, chunk () 4 4 1] :=
    .chunk (by decide) (Nat.le_of_ble_eq_true rfl)
      (.settle trivial (.chunk (by decide) (Nat.le_of_ble_eq_true rfl) .nil))
  obtain ⟨pool, s, hpool, hrun, hheld⟩ : ∃ (pool : BlockPool Nat) (s : Chunks Unit Nat),
      BlockPool.init 12 false 1 = some pool ∧ runChunks windowOfFour (Chunks.init pool)
        [chunk () 0 4 0, .settle () 4 0, chunk () 4 4 1] = some s ∧
      heldBlocks (s.table 0 ()) = 5 := ⟨_, _, rfl, rfl, by decide⟩
  have hrun := reaches_of_runChunks hrun hallowed
  refine ⟨pool, s, hpool, hrun, hheld, ?_⟩
  refine heldBlocks_le_maxAdmissionBlocks hpool ?_ ?_ hrun rfl rfl ()
  · simp [windowOfFour, oneWindow, Kind.Valid]
  · simp [windowOfFour, oneWindow, Group.WholeChunks]

/-- The cap is not a peak. With a window of four, four tokens in flight and three
lookahead tokens, the second chunk makes a request hold six blocks, one more than the
cap. -/
theorem heldBlocks_above_maxAdmissionBlocks :
    ∃ (pool : BlockPool Nat) (s : Chunks Unit Nat), BlockPool.init 12 false 1 = some pool ∧
      Reaches (fun s op => op.Promised windowOfFour 12 s ∧ op.ChunkWithin 4 3)
        (exec windowOfFour) (Chunks.init pool) s ∧
      heldBlocks (s.table 0 ()) = 6 ∧
      windowOfFour.groups.map (·.maxAdmissionBlocks 4 windowOfFour.maxModelLen) = [some 5] := by
  have hallowed : Allowed windowOfFour 12 (·.ChunkWithin 4 3)
      [chunk () 0 4 0, .settle () 4 0, chunk () 4 4 3] :=
    .chunk (by decide) (by simp [chunk, ChunkOp.ChunkWithin])
      (.settle trivial (.chunk (by decide) (by simp [chunk, ChunkOp.ChunkWithin]) .nil))
  exact ⟨_, _, rfl, reaches_of_runChunks rfl hallowed, by decide, rfl⟩

end Chunks

end Vllm.KVCache
