import Vllm.Library.CeilDiv
import Vllm.Library.Stripes

/-!
# Cache slots under decode context parallelism

`ComputeSlotMappingKernel` writes for every scheduled token the cache slot it has on one rank, and
`get_dcp_local_seq_lens` counts the keys of a rank. The kernel works inside virtual blocks of
`B * W` tokens and the count divides the whole sequence; both deal the positions out in turns of
`I`, since `I` divides `B`.
-/

namespace Vllm.Worker

open Library List

/-! ## The kernel -/

def padSlotId : Int := -1

def tritonBlockSize : Nat := 1024

structure CompileKey where
  blockSize : Nat
  worldSize : Nat
  rank : Nat
  interleaveSize : Nat
  blockTableStride : Nat

/-- The scalars and the memory a launch reads; `queryStartLoc` has the prefix sums of the query
lengths. -/
structure LaunchArgs where
  numReqs : Nat
  numTokens : Nat
  maxNumTokens : Nat
  queryStartLoc : Nat → Nat
  positions : Nat → Nat
  blockTable : Nat → Nat
  starts_mono : Monotone queryStartLoc
  starts_le : queryStartLoc numReqs ≤ numTokens

/-- A masked store for each `i` of `range(start, stop, BLOCK_SIZE)`. -/
def storeTiles (value : Nat → Int) (start stop : Nat) (slotMapping : Nat → Int) : Nat → Int :=
  (List.range' start (cdiv (stop - start) tritonBlockSize) tritonBlockSize).foldl
    (fun mem i offset =>
      if (i ≤ offset ∧ offset < i + tritonBlockSize) ∧ offset < stop then value offset
      else mem offset)
    slotMapping

namespace CompileKey

variable (key : CompileKey)

def virtualBlockSize : Nat := key.blockSize * key.worldSize

def virtualBlockOffset (pos : Nat) : Nat :=
  pos - pos / key.virtualBlockSize * key.virtualBlockSize

def isLocal (pos : Nat) : Prop :=
  key.virtualBlockOffset pos / key.interleaveSize % key.worldSize =
    key.rank

instance : DecidablePred key.isLocal := fun _ => Nat.decEq _ _

def localBlockOffset (pos : Nat) : Nat :=
  key.virtualBlockOffset pos / (key.worldSize * key.interleaveSize) *
    key.interleaveSize + key.virtualBlockOffset pos % key.interleaveSize

/-- One lane, on the request's row of the block table. -/
def slotId (row : Nat → Nat) (pos : Nat) : Int :=
  if key.isLocal pos then
    (row (pos / key.virtualBlockSize) * key.blockSize + key.localBlockOffset pos : Nat)
  else padSlotId

def row (args : LaunchArgs) (reqIdx i : Nat) : Nat :=
  args.blockTable (reqIdx * key.blockTableStride + i)

def kernel (args : LaunchArgs) (slotMapping : Nat → Int) (reqIdx : Nat) : Nat → Int :=
  if reqIdx = args.numReqs then
    -- the last program pads the rest
    storeTiles (fun _ => padSlotId) args.numTokens args.maxNumTokens slotMapping
  else
    storeTiles (fun offset => key.slotId (key.row args reqIdx) (args.positions offset))
      (args.queryStartLoc reqIdx) (args.queryStartLoc (reqIdx + 1)) slotMapping

/-- The programs of the grid in some order. -/
def launch (args : LaunchArgs) (order : List Nat) (slotMapping : Nat → Int) : Nat → Int :=
  order.foldl (key.kernel args) slotMapping

end CompileKey

/-- One entry of `get_dcp_local_seq_lens`. The source casts it to `int32`; a sequence has less than
`2 ^ 31` tokens, and no entry is above its length. -/
def dcpLocalSeqLen (dcpSize interleave seqLen rank : Int) : Int :=
  let base := seqLen / interleave / dcpSize * interleave
  let remainder := seqLen - base * dcpSize
  base + min (max (remainder - rank * interleave) 0) interleave

/-- A row for each sequence, with a column for each rank if none is given. -/
def getDcpLocalSeqLens (seqLens : List Int) (dcpSize : Nat) (dcpRank : Option Nat)
    (interleave : Nat) : List (List Int) :=
  seqLens.map fun seqLen =>
    (dcpRank.elim (List.range dcpSize) fun rank => [rank]).map fun (rank : Nat) =>
      dcpLocalSeqLen dcpSize interleave seqLen rank

/-! ## What a launch stores -/

theorem foldl_store {β : Type} {writes : β → Prop} [DecidablePred writes] {o : Nat} {v : Int}
    {store : (Nat → Int) → β → Nat → Int} (l : List β) (mem : Nat → Int)
    (h : ∀ mem, ∀ b ∈ l, store mem b o = if writes b then v else mem o) :
    l.foldl store mem o = if ∃ b ∈ l, writes b then v else mem o := by
  induction l generalizing mem with
  | nil => simp
  | cons b l ih =>
    rw [foldl_cons, ih _ fun mem c hc => h mem c (mem_cons_of_mem _ hc), h mem b mem_cons_self]
    simp only [exists_mem_cons_iff]
    by_cases later : ∃ c ∈ l, writes c
    · rw [if_pos later, if_pos (Or.inr later)]
    · simp only [later, or_false, if_false]

theorem storeTiles_apply (value : Nat → Int) (start stop o : Nat) (mem : Nat → Int) :
    storeTiles value start stop mem o =
      if start ≤ o ∧ o < stop then value o else mem o := by
  have covered : (∃ i ∈ List.range' start (cdiv (stop - start) tritonBlockSize) tritonBlockSize,
      (i ≤ o ∧ o < i + tritonBlockSize) ∧ o < stop) ↔ start ≤ o ∧ o < stop := by
    simp only [mem_range']
    constructor
    · rintro ⟨-, ⟨k, -, rfl⟩, ⟨hi, -⟩, ho⟩
      exact ⟨by omega, ho⟩
    rintro ⟨hstart, hstop⟩
    have tile : tritonBlockSize * ((o - start) / tritonBlockSize) ≤ o - start :=
      Nat.mul_div_le _ _
    have last := Nat.lt_mul_div_succ (o - start) (show 0 < tritonBlockSize by decide)
    rw [Nat.mul_add] at last
    refine ⟨_, ⟨(o - start) / tritonBlockSize, ?_, rfl⟩, by omega, hstop⟩
    rw [lt_cdiv_iff (by decide), Nat.mul_comm]
    omega
  rw [storeTiles, foldl_store _ _ fun mem i _ => rfl]
  simp only [covered]

namespace CompileKey

variable {key : CompileKey} {args : LaunchArgs} {order : List Nat} {req o : Nat}

/-- A token is written by its request's program alone, so the order does not matter. -/
theorem launch_apply (mem : Nat → Int)
    (horder : order.Perm (List.range (args.numReqs + 1))) (hreq : req < args.numReqs)
    (hstart : args.queryStartLoc req ≤ o) (hend : o < args.queryStartLoc (req + 1)) :
    key.launch args order mem o = key.slotId (key.row args req) (args.positions o) := by
  have alone : ∀ mem, ∀ q ∈ order, key.kernel args mem q o =
      if q = req then key.slotId (key.row args req) (args.positions o) else mem o := by
    intro mem q _
    have htokens := args.starts_le
    have hlast := args.starts_mono (show req + 1 ≤ args.numReqs from hreq)
    rw [kernel]
    split
    · rw [storeTiles_apply, if_neg (by omega), if_neg (by omega)]
    rw [storeTiles_apply]
    rcases Nat.lt_trichotomy q req with hq | rfl | hq
    · have hbefore := args.starts_mono (show q + 1 ≤ req from hq)
      rw [if_neg (by omega), if_neg (by omega)]
    · rw [if_pos ⟨hstart, hend⟩, if_pos rfl]
    · have hafter := args.starts_mono (show req + 1 ≤ q from hq)
      rw [if_neg (by omega), if_neg (by omega)]
  have runs : ∃ q ∈ order, q = req := ⟨req, horder.mem_iff.2 (mem_range.2 (by omega)), rfl⟩
  rw [launch, foldl_store order mem alone, if_pos runs]

/-! ## Positions of one rank -/

theorem virtualBlockOffset_eq (pos : Nat) :
    key.virtualBlockOffset pos = pos % key.virtualBlockSize := by
  rw [virtualBlockOffset, Nat.mul_comm, Nat.mod_eq_sub]

variable (key) in
/-- The number of positions below `pos` that the rank of `key` owns. -/
def place (pos : Nat) : Nat :=
  owned key.interleaveSize key.worldSize key.rank pos

variable (key) in
/-- The slot with the number `j` in the blocks of a row. -/
def slotAt (row : Nat → Nat) (j : Nat) : Int :=
  (row (j / key.blockSize) * key.blockSize + j % key.blockSize : Nat)

section

variable (hB : 0 < key.blockSize)
  (hI : key.interleaveSize ∣ key.blockSize)
include hI

theorem isLocal_iff (pos : Nat) : key.isLocal pos ↔
    owner key.interleaveSize key.worldSize pos = key.rank := by
  obtain ⟨c, hc⟩ := hI
  rw [isLocal, owner, virtualBlockOffset_eq, virtualBlockSize, hc, Nat.mul_assoc,
    Nat.mod_mul_right_div_self, Nat.mod_mod_of_dvd _ (Nat.dvd_mul_left _ c)]

include hB

theorem interleave_pos : 0 < key.interleaveSize := Nat.pos_of_dvd_of_pos hI hB

/-- A block has `c` turns of its rank, and the virtual block `c` rounds. -/
theorem place_eq {pos : Nat} (hlocal : key.isLocal pos) :
    key.place pos = pos / key.virtualBlockSize * key.blockSize + key.localBlockOffset pos ∧
      key.localBlockOffset pos < key.blockSize := by
  have hpos := interleave_pos hB hI
  have howner := (isLocal_iff hI pos).1 hlocal
  obtain ⟨c, hc⟩ := hI
  have hsize : key.virtualBlockSize =
      key.interleaveSize * key.worldSize * c := by
    rw [virtualBlockSize, hc, Nat.mul_right_comm]
  have hoffset : key.localBlockOffset pos =
      pos / (key.interleaveSize * key.worldSize) % c *
        key.interleaveSize + pos % key.interleaveSize := by
    rw [localBlockOffset, virtualBlockOffset_eq, hsize, Nat.mul_comm key.worldSize,
      Nat.mod_mul_right_div_self, Nat.mul_assoc, Nat.mod_mul_right_mod]
  rw [place, ← howner, owned_owner hpos, hoffset, hsize, ← Nat.div_div_eq_div_mul pos _ c, hc]
  generalize pos / (key.interleaveSize * key.worldSize) = round
  have hlt := Nat.mod_lt pos hpos
  have hround : round % c < c := Nat.mod_lt _ (Nat.pos_of_mul_pos_left (hc ▸ hB))
  constructor
  · conv_lhs => rw [← Nat.div_add_mod' round c]
    rw [Nat.add_mul, Nat.add_assoc, Nat.mul_assoc, Nat.mul_comm c]
  · have hturn := Nat.mul_le_mul_right key.interleaveSize hround
    rw [Nat.succ_mul, Nat.mul_comm c] at hturn
    omega

omit hI in
theorem slotAt_injOn {row : Nat → Nat} {m : Nat}
    (hrow : Set.InjOn row {i | i * key.blockSize < m}) :
    Set.InjOn (key.slotAt row) {j | j < m} := by
  intro i hi j hj heq
  have hval := Int.ofNat.inj heq
  have hoffset : i % key.blockSize = j % key.blockSize := by
    simpa using congrArg (· % key.blockSize) hval
  have hi' := Nat.div_mul_le_self i key.blockSize
  have hj' := Nat.div_mul_le_self j key.blockSize
  have hblock : i / key.blockSize = j / key.blockSize :=
    hrow (hi'.trans_lt hi) (hj'.trans_lt hj) (Nat.eq_of_mul_eq_mul_right hB (by omega))
  rw [← Nat.div_add_mod i key.blockSize, hblock, hoffset, Nat.div_add_mod]

theorem slotId_eq (row : Nat → Nat) {pos : Nat} (hlocal : key.isLocal pos) :
    key.slotId row pos = key.slotAt row (key.place pos) := by
  obtain ⟨hplace, hlt⟩ := place_eq hB hI hlocal
  rw [slotId, if_pos hlocal, slotAt, hplace, Nat.mul_comm (_ / _), Nat.mul_add_div hB,
    Nat.div_eq_of_lt hlt, Nat.mul_add_mod, Nat.mod_eq_of_lt hlt, Nat.add_zero]

theorem count_isLocal (hr : key.rank < key.worldSize) (n : Nat) :
    Nat.count key.isLocal n = key.place n :=
  count_owner (interleave_pos hB hI) hr (isLocal_iff hI)

/-- The rank's positions below `n` fill the first slots of its blocks, in order. -/
theorem slotId_bijOn (hr : key.rank < key.worldSize) {row : Nat → Nat} {n : Nat}
    (hrow : Set.InjOn row {i | i * key.blockSize < key.place n}) :
    Set.BijOn (key.slotId row) {p | p < n ∧ key.isLocal p}
      (Set.image (key.slotAt row) {j | j < key.place n}) := by
  have below : ∀ p < n, key.isLocal p → key.place p < key.place n := by
    intro p hp hlocal
    simp only [← count_isLocal hB hI hr]
    exact Nat.count_strict_mono hlocal hp
  refine ⟨?_, ?_, ?_⟩
  · rintro p ⟨hp, hlocal⟩
    exact ⟨key.place p, below p hp hlocal, (slotId_eq hB hI row hlocal).symm⟩
  · rintro p ⟨hp, hplocal⟩ q ⟨hq, hqlocal⟩ heq
    rw [slotId_eq hB hI row hplocal, slotId_eq hB hI row hqlocal] at heq
    have hplace := slotAt_injOn hB hrow (below p hp hplocal) (below q hq hqlocal) heq
    rw [← count_isLocal hB hI hr, ← count_isLocal hB hI hr] at hplace
    exact Nat.count_injective hplocal hqlocal hplace
  · rintro - ⟨j, hj, rfl⟩
    rw [← count_isLocal hB hI hr] at hj
    obtain ⟨p, hp, hlocal, rfl⟩ := count_surjective hj
    refine ⟨p, ⟨hp, hlocal⟩, ?_⟩
    rw [slotId_eq hB hI row hlocal, count_isLocal hB hI hr]

end

end CompileKey

/-! ## Local lengths -/

theorem dcpLocalSeqLen_eq (size interleave n rank : Nat) :
    dcpLocalSeqLen size interleave n rank = owned interleave size rank n := by
  have hbase : (n : Int) / interleave / size = (n / (interleave * size) : Nat) := by
    rw [← Nat.div_div_eq_div_mul]
    rfl
  have hparts := Nat.mod_add_div n (interleave * size)
  have hrest : (n : Int) - (n / (interleave * size) : Nat) * interleave * size =
      (n % (interleave * size) : Nat) := by
    rw [Int.mul_assoc, ← Int.natCast_mul interleave, ← Int.natCast_mul, Nat.mul_comm (_ / _)]
    omega
  simp only [dcpLocalSeqLen, hbase, hrest, owned]
  omega

/-! ## The partition -/

/-- Every position is local to one rank; a launch writes there the slot of its place, on the other
ranks the padding; the slots of a rank are distinct and without gaps when its row has no block
twice; and the local lengths count the local positions. -/
theorem contextParallel_partition {key : CompileKey} (hB : 0 < key.blockSize)
    (hI : key.interleaveSize ∣ key.blockSize) (hr : key.rank < key.worldSize) :
    (∀ p, ∃! rank, rank < key.worldSize ∧ ({ key with rank } : CompileKey).isLocal p) ∧
    (∀ args order mem req o, order.Perm (List.range (args.numReqs + 1)) → req < args.numReqs →
      args.queryStartLoc req ≤ o → o < args.queryStartLoc (req + 1) →
      key.launch args order mem o =
        if key.isLocal (args.positions o) then
          key.slotAt (key.row args req) (Nat.count key.isLocal (args.positions o))
        else padSlotId) ∧
    (∀ (row : Nat → Nat) n, Set.InjOn row {i | i * key.blockSize < Nat.count key.isLocal n} →
      Set.BijOn (key.slotId row) {p | p < n ∧ key.isLocal p}
        (Set.image (key.slotAt row) {j | j < Nat.count key.isLocal n})) ∧
    (∀ seqLens : List Nat,
      getDcpLocalSeqLens (seqLens.map (↑)) key.worldSize (some key.rank) key.interleaveSize =
        seqLens.map (fun n => [(Nat.count key.isLocal n : Int)]) ∧
      getDcpLocalSeqLens (seqLens.map (↑)) key.worldSize none key.interleaveSize =
        seqLens.map fun n => (List.range key.worldSize).map fun rank =>
          (Nat.count ({ key with rank } : CompileKey).isLocal n : Int)) ∧
    ∀ n, ∑ rank ∈ Finset.range key.worldSize,
      Nat.count ({ key with rank } : CompileKey).isLocal n = n := by
  have hcount : ∀ rank < key.worldSize, ∀ n,
      Nat.count ({ key with rank } : CompileKey).isLocal n =
        owned key.interleaveSize key.worldSize rank n := fun rank hrank =>
    @CompileKey.count_isLocal { key with rank } hB hI hrank
  refine ⟨?_, ?_, ?_, ?_, ?_⟩
  · intro p
    have hlocal := fun rank => @CompileKey.isLocal_iff { key with rank } hI p
    simp only [hlocal]
    exact ⟨_, ⟨Nat.mod_lt _ (by omega), rfl⟩, fun rank h => h.2.symm⟩
  · intro args order mem req o horder hreq hstart hend
    rw [CompileKey.launch_apply mem horder hreq hstart hend, CompileKey.count_isLocal hB hI hr]
    split
    · exact CompileKey.slotId_eq hB hI _ (by assumption)
    · rw [CompileKey.slotId, if_neg (by assumption)]
  · intro row n
    rw [CompileKey.count_isLocal hB hI hr]
    exact CompileKey.slotId_bijOn hB hI hr
  · intro seqLens
    simp only [getDcpLocalSeqLens, map_map]
    constructor
    · simp [dcpLocalSeqLen_eq, CompileKey.count_isLocal hB hI hr, CompileKey.place]
    · refine map_congr_left fun n _ => map_congr_left fun rank hrank => ?_
      rw [hcount rank (mem_range.1 hrank), dcpLocalSeqLen_eq]
  · intro n
    rw [Finset.sum_congr rfl fun rank hrank => hcount rank (Finset.mem_range.1 hrank) n]
    exact sum_owned (CompileKey.interleave_pos hB hI) (by omega)

/-- Seven tokens of one request, whose first block is 5. -/
def sevenTokens : LaunchArgs where
  numReqs := 1
  numTokens := 7
  maxNumTokens := 8
  queryStartLoc i := 7 * min i 1
  positions o := o
  blockTable _ := 5
  starts_mono _ _ h := Nat.mul_le_mul_left 7 (min_le_min_right 1 h)
  starts_le := Nat.le_refl 7

/-- On the second of two ranks the token at position 6 is the third one, in the slot behind those
of the positions 2 and 3. -/
theorem contextParallel_partition_two : (0 < 4 ∧ 2 ∣ 4 ∧ 1 < 2) ∧
    (⟨4, 2, 1, 2, 8⟩ : CompileKey).launch sevenTokens [1, 0] (fun _ => 0) 6 = 22 ∧
    getDcpLocalSeqLens [7] 2 none 2 = [[4, 3]] ∧
    ∑ rank ∈ Finset.range 2, Nat.count (⟨4, 2, rank, 2, 8⟩ : CompileKey).isLocal 7 = 7 := by
  obtain ⟨-, hlaunch, -, hlens, hsum⟩ := @contextParallel_partition ⟨4, 2, 1, 2, 8⟩ (by decide)
    (by decide) (by decide)
  refine ⟨by decide, ?_, (hlens [7]).2.trans (by decide), hsum 7⟩
  rw [hlaunch sevenTokens [1, 0] (fun _ => 0) 0 6 (by decide) (by decide) (by decide) (by decide)]
  decide

end Vllm.Worker
