import Vllm.Lookup.EagleDrop

/-!
# Stale EAGLE verifications

If a sliding window EAGLE group is not the only EAGLE group besides full
attention, some pool makes the lookup return a length at which the group was
never verified: another group shortens the length in a lookup with drop, and the
group keeps its mark in `eagle_verified`. Together with `dropVerified_of_lone`
this characterises the configurations in which the drop is always verified
(`dropVerified_iff_lone`).

The pools have everything cached but for two groups. When the sliding window
group comes first, two rounds are enough. When a Mamba group comes first it has to
be unmarked in between, which takes four rounds.
-/

namespace Vllm.Lookup

open Library Pool List KVCacheSpec

/-! ## Pools by what they hold for each group -/

/-- A pool that holds, for a group, the prefixes of `b` tokens with `content`. The
hash of a prefix is its number of hash blocks less one. -/
def poolBy (hashBlockSize : Nat) (content : Nat → Nat → Bool) : BlockPool Nat where
  numGpuBlocks := 2
  enableCaching := true
  hashBlockSize := hashBlockSize
  blocks b := ⟨0, none, none, b == 0⟩
  freeBlockQueue := LinkedQueue.ofList [1]
  cachedBlockHashToBlock := ⟨fun key =>
    if content key.groupId ((key.blockHash + 1) * hashBlockSize) then some (.single 1) else none⟩
  cachedBlockHashesByBlock _ := none

@[simp] theorem poolBy_hashBlockSize (hashBlockSize : Nat) (content : Nat → Nat → Bool) :
    (poolBy hashBlockSize content).hashBlockSize = hashBlockSize := rfl

variable {content : Nat → Nat → Bool}

theorem getCachedBlock_poolBy {hashBlockSize : Nat} {h : Nat} {groupIds : List Nat} :
    ((poolBy hashBlockSize content).getCachedBlock h groupIds).isSome = true ↔
      ∀ i ∈ groupIds, content i ((h + 1) * hashBlockSize) = true := by
  unfold BlockPool.getCachedBlock
  induction groupIds with
  | nil => simp
  | cons i rest ih =>
    have hone : (poolBy hashBlockSize content).cachedBlockHashToBlock.getOneBlock ⟨h, i⟩ =
        if content i ((h + 1) * hashBlockSize) then some 1 else none := by
      simp only [poolBy, BlockHashToBlockMap.getOneBlock]
      cases content i ((h + 1) * hashBlockSize) <;> rfl
    rw [mapM_cons, hone, forall_mem_cons, ← ih]
    cases content i ((h + 1) * hashBlockSize) with
    | false => simp
    | true =>
      cases List.mapM (fun g => (poolBy hashBlockSize content).cachedBlockHashToBlock.getOneBlock
        ⟨h, g⟩) rest <;> simp

theorem boundaryCached_poolBy {hashBlockSize : Nat} (hpos : 0 < hashBlockSize)
    {n b : Nat} {groupIds : List Nat} :
    BoundaryCached (poolBy hashBlockSize content) (List.range n) groupIds b ↔
      hashBlockSize ∣ b ∧ 0 < b ∧ b ≤ n * hashBlockSize ∧
        ∀ i ∈ groupIds, content i b = true := by
  unfold BoundaryCached boundaryRow
  rw [poolBy_hashBlockSize]
  by_cases hb : hashBlockSize ∣ b ∧ 0 < b
  · rw [if_pos hb]
    obtain ⟨⟨k, rfl⟩, hb0⟩ := hb
    have hk0 : 0 < k := Nat.pos_of_mul_pos_left hb0
    rw [Nat.mul_div_cancel_left k hpos]
    have hle : hashBlockSize * k ≤ n * hashBlockSize ↔ k ≤ n := by
      rw [Nat.mul_comm]
      exact Nat.mul_le_mul_right_iff hpos
    have hh : (k - 1 + 1) * hashBlockSize = hashBlockSize * k := by
      rw [Nat.sub_add_cancel hk0, Nat.mul_comm]
    simp only [hle, Nat.dvd_mul_right, hb0, true_and]
    by_cases hkn : k ≤ n
    · rw [getElem?_range (by omega), Option.bind_some, getCachedBlock_poolBy, hh]
      simp [hkn]
    · rw [getElem?_eq_none (by simp; omega)]
      simp [hkn]
  · rw [if_neg hb]
    simp only [Option.isSome_none, Bool.false_eq_true, false_iff]
    exact fun h => hb ⟨h.1, h.2.1⟩

namespace HybridConfig

variable {c : HybridConfig} {j x window y i : Nat} {drop : Bool} {st : HitState} {g : SpecGroup}

/-! ## Scale -/

/-- Distances far larger than every window and block: `D` is a multiple of the
alignment and the hashes cover `10 * D` tokens. -/
structure Scale (c : HybridConfig) (D n : Nat) : Prop where
  pos : 0 < D
  align_dvd : c.cacheHitAlignmentTokens ∣ D
  wide : ∀ g ∈ c.attentionGroups, ∀ window, g.spec.kind = .slidingWindow window →
    window + 2 * g.spec.blockSize ≤ D
  hashes : n * c.hashBlockSize = 10 * D

theorem exists_scale (c : HybridConfig) : ∃ D n, Scale c D n := by
  -- a bound for the windows of the groups
  have hbound : ∀ gs : List SpecGroup, ∃ W, ∀ g ∈ gs, ∀ window,
      g.spec.kind = .slidingWindow window → window ≤ W := by
    intro gs
    induction gs with
    | nil => exact ⟨0, fun g hg => absurd hg not_mem_nil⟩
    | cons g gs ih =>
      obtain ⟨W, hW⟩ := ih
      cases hk : g.spec.kind with
      | slidingWindow w =>
        refine ⟨max w W, fun g' hg' window hk' => ?_⟩
        rcases mem_cons.mp hg' with rfl | hg'
        · obtain rfl : w = window := by simpa [hk] using hk'
          exact Nat.le_max_left _ _
        · exact Nat.le_trans (hW g' hg' window hk') (Nat.le_max_right _ _)
      | _ =>
        refine ⟨W, fun g' hg' window hk' => ?_⟩
        rcases mem_cons.mp hg' with rfl | hg'
        · simp [hk] at hk'
        · exact hW g' hg' window hk'
  obtain ⟨W, hW⟩ := hbound c.attentionGroups
  have hpos := c.align_pos
  have hhash : c.hashBlockSize ∣ c.cacheHitAlignmentTokens := by
    obtain ⟨g, hg⟩ := exists_mem_of_ne_nil _ c.attentionGroups_ne_nil
    exact (c.units hg).hash_dvd_align
  refine ⟨c.cacheHitAlignmentTokens * (W + 2),
    10 * (c.cacheHitAlignmentTokens * (W + 2)) / c.hashBlockSize,
    Nat.mul_pos hpos (by omega), Nat.dvd_mul_right _ _, fun g hg window hk => ?_, ?_⟩
  · have hle := Nat.le_of_dvd hpos
      (c.blockSize_dvd_align hg (isSlidingWindow_not_fineGrained hk))
    have hw := hW g hg window hk
    rw [Nat.mul_add]
    have := Nat.le_mul_of_pos_left W hpos
    omega
  · exact Nat.div_mul_cancel (Nat.dvd_mul_left_of_dvd (Nat.dvd_mul_right_of_dvd hhash _) _)

/-- The pool with `content`. -/
abbrev pool (c : HybridConfig) (content : Nat → Nat → Bool) : BlockPool Nat :=
  poolBy c.hashBlockSize content

/-- A lookup of `g` from the length `x` returns the length `y`. -/
def Returns {H : Type} (c : HybridConfig) (p : BlockPool H) (blockHashes : List H) (g : SpecGroup)
    (drop : Bool) (x y : Nat) : Prop :=
  ∃ rows, g.findHit p blockHashes (c.lookupLength blockHashes.length x g drop) drop
    c.cacheHitAlignmentTokens = some (rows, y)

/-- The lengths that occur in the runs below. -/
structure Scale.Good (c : HybridConfig) (D x : Nat) : Prop where
  aligned : c.cacheHitAlignmentTokens ∣ x
  le : D ≤ x
  le_nine : x ≤ 9 * D

/-! ## Lookups in such a pool -/

section Lookups

variable {D n : Nat} (hs : Scale c D n) {content : Nat → Nat → Bool} {g : SpecGroup}
  (hg : g ∈ c.attentionGroups) {P : Nat → Bool}
  (hP : ∀ i ∈ g.groupIds, ∀ b, content i b = P b)
include hs hg

/-- A group whose prefixes are cached by `P`. -/
theorem cached_iff (hP : ∀ i ∈ g.groupIds, ∀ b, content i b = P b) {b : Nat}
    (hb : c.hashBlockSize ∣ b) (hpos : 0 < b) (hle : b ≤ 10 * D) :
    BoundaryCached (c.pool content) (List.range n) g.groupIds b ↔ P b = true := by
  rw [boundaryCached_poolBy c.hash_pos, hs.hashes]
  constructor
  · rintro ⟨-, -, -, hc⟩
    obtain ⟨i, hi⟩ := exists_mem_of_ne_nil _ (c.groupIds_ne_nil hg)
    rw [← hP i hi b]
    exact hc i hi
  · intro hc
    exact ⟨hb, hpos, hle, fun i hi => (hP i hi b).trans hc⟩

theorem blockCached_iff (hP : ∀ i ∈ g.groupIds, ∀ b, content i b = P b)
    (hj : (j + 1) * g.spec.blockSize ≤ 10 * D) :
    BoundaryCached (c.pool content) (List.range n) g.groupIds
      ((j + 1) * g.spec.blockSize) ↔ P ((j + 1) * g.spec.blockSize) = true :=
  cached_iff hs hg hP (Nat.dvd_mul_left_of_dvd (c.units hg).hash_dvd _)
    (Nat.mul_pos (Nat.succ_pos j) (c.units hg).block_pos) hj

theorem lookups_in_range {maxLength : Nat} (hle : maxLength ≤ 10 * D) :
    ∀ j < maxLength / g.spec.blockSize, lookup (c.pool content) (List.range n)
      g.groupIds (g.spec.blockSize / c.hashBlockSize) j ≠ none := by
  have u := c.units hg
  have hdiv : maxLength / c.hashBlockSize ≤ (List.range n).length := by
    rw [length_range]
    exact Nat.le_of_lt_succ ((Nat.div_lt_iff_lt_mul c.hash_pos).mpr (by
      rw [Nat.succ_mul, hs.hashes]
      have := c.hash_pos
      omega))
  intro j hj
  exact lookup_ne_none u hdiv hj

omit hs in
theorem lookupLength_add (hm : g.spec.isMamba = false)
    (hle : x + c.cacheHitAlignmentTokens ≤ n * c.hashBlockSize) :
    c.lookupLength (List.range n).length x g true =
      x + min c.cacheHitAlignmentTokens g.spec.blockSize := by
  rw [lookupLength_drop hm, length_range, dropUnit_eq hg]
  exact Nat.min_eq_left (by omega)

include hP

/-- A sliding window lookup without drop accepts a length whose window is cached. -/
theorem findHit_sliding_keep (hx : Scale.Good c D x) (hk : g.spec.kind = .slidingWindow window)
    (hwin : ∀ b, x < b + D → b ≤ x → P b = true) :
    Returns c (c.pool content) (List.range n) g false x x := by
  have u := c.units hg
  have hle9 := hx.le_nine
  have hdvd := c.blockSize_dvd_align hg (isSlidingWindow_not_fineGrained hk)
  have hwide := hs.wide g hg window hk
  have hlook : ∀ j < x / g.spec.blockSize, lookup (c.pool content) (List.range n)
      g.groupIds (g.spec.blockSize / c.hashBlockSize) j ≠ none :=
    lookups_in_range hs hg (by omega)
  show ∃ rows, g.findHit _ _ x false _ = some (rows, x)
  simp only [SpecGroup.findHit, hk]
  obtain ⟨rows, l, heq, hfloor, -⟩ := slidingWindowHit_spec
    u hdvd hlook window
  obtain rfl : l = x := by
    refine Nat.le_antisymm hfloor.le (hfloor.le_of_valid (Nat.le_refl x) ⟨hx.aligned, ?_⟩)
    obtain ⟨e, rfl⟩ := Nat.dvd_trans hdvd hx.aligned
    intro j hj hw
    rw [Nat.mul_comm] at hj
    have hje : (j + 1) * g.spec.blockSize ≤ e * g.spec.blockSize :=
      Nat.mul_le_mul_right _ (Nat.lt_of_mul_lt_mul_left hj)
    rw [Nat.mul_comm e] at hje
    exact (blockCached_iff hs hg hP (by omega)).mpr (hwin _ (by omega) hje)
  exact ⟨rows, heq⟩

/-- A sliding window lookup with drop returns the last length whose window and next
block are cached. -/
theorem findHit_sliding_drop (hx : x ≤ 9 * D) (hyx : y ≤ x)
    (hy : Scale.Good c D y) (hk : g.spec.kind = .slidingWindow window)
    (hwin : ∀ b, y < b + D → b ≤ y + g.spec.blockSize → P b = true)
    (hend : ∀ b, y + g.spec.blockSize < b → b ≤ x + g.spec.blockSize → P b = false) :
    Returns c (c.pool content) (List.range n) g true x y := by
  have u := c.units hg
  have hle := hy.le
  have hal := Nat.le_of_dvd hs.pos hs.align_dvd
  have hdvd := c.blockSize_dvd_align hg (isSlidingWindow_not_fineGrained hk)
  have hble := Nat.le_of_dvd c.align_pos hdvd
  have hwide := hs.wide g hg window hk
  simp only [Returns, SpecGroup.findHit, hk]
  rw [lookupLength_add hg (by simp [isMamba, hk]) (by rw [hs.hashes]; omega), Nat.min_eq_right hble]
  obtain ⟨e, rfl⟩ := Nat.dvd_trans hdvd hy.aligned
  rw [Nat.mul_comm] at hy hyx hle hwin hend ⊢
  have hpos := u.block_pos
  have hcached : ∀ j ≤ e, e * g.spec.blockSize < (j + 1) * g.spec.blockSize + D →
      BoundaryCached (c.pool content) (List.range n) g.groupIds ((j + 1) * g.spec.blockSize) := by
    intro j hj hw
    have hj1 : (j + 1) * g.spec.blockSize ≤ (e + 1) * g.spec.blockSize :=
      Nat.mul_le_mul_right _ (Nat.succ_le_succ hj)
    rw [Nat.succ_mul e] at hj1
    exact (blockCached_iff hs hg hP (by omega)).mpr (hwin _ hw hj1)
  refine slidingWindowHit_drop_eq u (lookups_in_range hs hg (by omega)) hdvd
    ⟨hy.aligned, e, rfl, ?_, hcached e (Nat.le_refl e) (by rw [Nat.succ_mul]; omega),
      fun j hj hw => hcached j (Nat.le_of_lt hj) (by omega)⟩ (by omega) (fun j hj hj' => ?_)
  · rw [Nat.le_div_iff_mul_le u.block_pos, Nat.succ_mul]
    omega
  · have hlo : (e + 1 + 1) * g.spec.blockSize ≤ (j + 1) * g.spec.blockSize :=
      Nat.mul_le_mul_right _ (Nat.succ_le_succ hj)
    have hhi : (j + 1) * g.spec.blockSize ≤ x + g.spec.blockSize :=
      (Nat.le_div_iff_mul_le u.block_pos).mp hj'
    rw [Nat.succ_mul (e + 1), Nat.succ_mul e] at hlo
    rw [blockCached_iff hs hg hP (by omega), hend _ (by omega) hhi]
    exact Bool.false_ne_true

/-- A Mamba lookup returns the last cached state. -/
theorem findHit_mamba (hx : x ≤ 9 * D) (hyx : y ≤ x) (hy : Scale.Good c D y)
    (hk : g.spec.kind = .mamba) (hstate : P y = true)
    (hend : ∀ b, y < b → b ≤ x → P b = false) (drop : Bool) :
    Returns c (c.pool content) (List.range n) g drop x y := by
  have u := c.units hg
  have hypos : 0 < y := Nat.lt_of_lt_of_le hs.pos hy.le
  have hlen : c.lookupLength (List.range n).length x g drop = x := by
    simp [lookupLength, isMamba, hk]
  have hdiv : x / c.hashBlockSize ≤ (List.range n).length := by
    rw [length_range]
    refine Nat.le_of_mul_le_mul_right ?_ c.hash_pos
    rw [hs.hashes]
    exact Nat.le_trans (Nat.div_mul_le_self _ _) (by omega)
  have hcached : ∀ b, c.cacheHitAlignmentTokens ∣ b → 0 < b → b ≤ x → (BoundaryCached
      (c.pool content) (List.range n) g.groupIds b ↔ P b = true) :=
    fun b hb hpos hle => cached_iff hs hg hP (Nat.dvd_trans u.hash_dvd_align hb) hpos (by omega)
  simp only [Returns, SpecGroup.findHit, hk, hlen]
  obtain ⟨rows, l, heq, hfloor, -⟩ := mambaHit_spec (p := c.pool content) u hdiv
  obtain rfl : l = y := by
    have hge : y ≤ l := hfloor.le_of_valid hyx
      ⟨hy.aligned, .inr ((hcached y hy.aligned hypos hyx).mpr hstate)⟩
    refine Nat.le_antisymm (Nat.le_of_not_lt fun hlt => ?_) hge
    have hno := hend l hlt hfloor.le
    rcases hfloor.valid.2 with h0 | hc
    · omega
    · rw [(hcached l hfloor.valid.1 (by omega) hfloor.le).mp hc] at hno
      cases hno
  exact ⟨rows, heq⟩

variable (hall : ∀ b, P b = true)
include hall

theorem fullValid_of_all (hy : c.hashBlockSize ∣ y) (hle : y ≤ 10 * D) :
    FullValid (c.pool content) (List.range n) g.groupIds g.spec.blockSize y y := by
  have u := c.units hg
  intro j hj
  have hnext : 0 < (j + 1) * g.spec.blockSize := Nat.mul_pos (Nat.succ_pos j) u.block_pos
  refine ⟨min y ((j + 1) * g.spec.blockSize), Nat.le_refl _, Nat.min_le_right _ _,
    Nat.min_le_left _ _, (cached_iff hs hg hP ?_ (by omega) (by omega)).mpr (hall _)⟩
  rcases Nat.le_total y ((j + 1) * g.spec.blockSize) with h | h
  · rwa [Nat.min_eq_left h]
  · rw [Nat.min_eq_right h]
    exact Nat.dvd_mul_left_of_dvd u.hash_dvd _

theorem findHit_full (hx : Scale.Good c D x) (hk : g.spec.kind = .fullAttention) (drop : Bool) :
    Returns c (c.pool content) (List.range n) g drop x x := by
  have u := c.units hg
  have hal := Nat.le_of_dvd hs.pos hs.align_dvd
  have hxle := hx.le_nine
  have hxh : c.hashBlockSize ∣ x := Nat.dvd_trans u.hash_dvd_align hx.aligned
  simp only [Returns, SpecGroup.findHit, hk, Option.some.injEq]
  cases drop with
  | false =>
    refine ⟨_, Prod.ext rfl ?_⟩
    have hfloor : IsFloor (fun l => c.cacheHitAlignmentTokens ∣ l ∧
        FullValid (c.pool content) (List.range n) g.groupIds g.spec.blockSize x l)
        x _ := fullAttentionHit_spec u
    refine Nat.le_antisymm hfloor.le (hfloor.le_of_valid (Nat.le_refl x) ⟨hx.aligned, ?_⟩)
    exact fullValid_of_all hs hg hP hall hxh (by omega)
  | true =>
    refine ⟨_, Prod.ext rfl ?_⟩
    rw [lookupLength_add hg (by simp [isMamba, hk]) (by rw [hs.hashes]; omega)]
    set unit := min c.cacheHitAlignmentTokens g.spec.blockSize with hunit
    have hupos : 0 < unit := by
      have := c.align_pos
      have := u.block_pos
      omega
    have hdvd : unit ∣ x + unit :=
      Nat.dvd_add (Nat.dvd_trans u.unit_dvd_align hx.aligned) (Nat.dvd_refl _)
    have hfound : FullFound (c.pool content) (List.range n) g.groupIds
        g.spec.blockSize c.cacheHitAlignmentTokens (x + unit) _ := fullAttentionFound_spec u
    have hf : (fullAttentionFound (c.pool content) (List.range n) (x + unit)
        g.groupIds g.spec.blockSize c.cacheHitAlignmentTokens).2 = x + unit := by
      refine Nat.le_antisymm hfound.le (hfound.greatest _ (Nat.le_refl _) hdvd ?_)
      exact fullValid_of_all hs hg hP hall (Nat.dvd_add hxh u.hash_dvd_unit) (by omega)
    simp only [fullAttentionHit, hf, Bool.true_and, decide_eq_true_eq, ← hunit]
    rw [if_pos (by omega), Nat.add_sub_cancel, Nat.mod_eq_zero_of_dvd hx.aligned, Nat.sub_zero]

theorem findHit_chunked (hx : Scale.Good c D x) {chunk : Nat}
    (hk : g.spec.kind = .chunkedLocal chunk) (hbs : g.spec.blockSize = c.cacheHitAlignmentTokens) :
    Returns c (c.pool content) (List.range n) g false x x := by
  have u := c.units hg
  have hxle := hx.le_nine
  obtain ⟨e, rfl⟩ := hbs ▸ hx.aligned
  rw [Nat.mul_comm] at hx hxle ⊢
  have hdiv : e * g.spec.blockSize / g.spec.blockSize = e := Nat.mul_div_cancel _ u.block_pos
  show ∃ rows, g.findHit _ _ (e * g.spec.blockSize) false _ = some (rows, e * g.spec.blockSize)
  simp only [SpecGroup.findHit, hk, chunkedLocalHit, hbs, resolveScale_false c.align_pos]
  rw [← hbs, hdiv]
  set start := e * g.spec.blockSize / chunk * chunk / g.spec.blockSize with hstart
  have hse : start ≤ e := by
    have : start ≤ e * g.spec.blockSize / g.spec.blockSize :=
      Nat.div_le_div_right (Nat.div_mul_le_self _ _)
    omega
  -- every block of the chunk is found
  set look := lookup (c.pool content) (List.range n) g.groupIds
    (g.spec.blockSize / (c.pool content).hashBlockSize) with hlook
  have hrun : (cachedRun look (e - start) start).length = e - start := by
    refine Nat.le_antisymm (cachedRun_length_le _ _ _) (Nat.le_of_not_lt fun hlt => ?_)
    have hstop := cachedRun_stop hlt
    rw [lookup_join u.hash_dvd u.block_pos] at hstop
    have hc : BoundaryCached (c.pool content) (List.range n) g.groupIds
        ((start + (cachedRun look (e - start) start).length + 1) * g.spec.blockSize) := by
      refine (blockCached_iff hs hg hP ?_).mpr (hall _)
      have : (start + (cachedRun look (e - start) start).length + 1) * g.spec.blockSize ≤
          e * g.spec.blockSize := Nat.mul_le_mul_right _ (by omega)
      omega
    rw [BoundaryCached, hstop] at hc
    cases hc
  rw [if_neg (by simp), if_neg (by omega)]
  exact ⟨_, by rw [length_append, length_replicate, hrun, Nat.add_sub_cancel' hse]⟩

/-- A group with everything cached accepts every length. -/
theorem findHit_all (hx : Scale.Good c D x) (hok : c.ChunkedOk)
    (hdrop : drop = true → g.useEagle = true) :
    Returns c (c.pool content) (List.range n) g drop x x := by
  cases hk : g.spec.kind with
  | fullAttention => exact findHit_full hs hg hP hall hx hk drop
  | slidingWindow window =>
    cases drop with
    | false => exact findHit_sliding_keep hs hg hP hx hk fun b _ _ => hall b
    | true =>
      exact findHit_sliding_drop hs hg hP hx.le_nine (Nat.le_refl x) hx hk (fun b _ _ => hall b)
        fun b hlo hhi => absurd hhi (Nat.not_le_of_lt hlo)
  | chunkedLocal chunk =>
    obtain ⟨he, hbs⟩ := hok g hg (by simp [isChunkedLocal, hk])
    cases drop with
    | false => exact findHit_chunked hs hg hP hall hx hk hbs
    | true =>
      rw [hdrop rfl] at he
      cases he
  | mamba =>
    exact findHit_mamba hs hg hP hx.le_nine (Nat.le_refl x) hx hk (hall x)
      (fun b hlo hhi => absurd hhi (Nat.not_le_of_lt hlo)) drop

end Lookups

/-! ## Rounds with two groups of interest -/

/-- What is tracked of the state: the length, and whether the spec groups `i` and `j`
are marked as verified. -/
structure At (i j x : Nat) (mi mj : Bool) (st : HitState) : Prop where
  curr : st.currHitLength = x
  reached : ∀ k, (st.hitRows k).isSome = true → x ≤ st.hitLengths k
  first : st.eagleVerified.contains i = mi
  second : st.eagleVerified.contains j = mj

theorem At.symm {mi mj : Bool} (h : At i j x mi mj st) : At j i x mj mi st :=
  ⟨h.curr, h.reached, h.second, h.first⟩

/-- The marks after a lookup from `x` to `y`, of the group itself and of another one. -/
def marks (marked other : Bool) (x y : Nat) : Bool × Bool :=
  if marked && decide (y < x) then (false, false) else (true, other)

@[simp] theorem marks_false (other : Bool) (x y : Nat) : marks false other x y = (true, other) :=
  rfl

theorem marks_of_lt {other : Bool} (h : y < x) : marks true other x y = (false, false) := by
  simp [marks, h]

@[simp] theorem marks_self (marked other : Bool) (x : Nat) :
    marks marked other x x = (true, other) := by
  simp [marks]

section Rounds

variable {H : Type} {p : BlockPool H} {blockHashes : List H} {i j x y : Nat} {mi mj : Bool}
  {st : HitState} {g : SpecGroup} {idx : Nat}

/-- A lookup that is not skipped. -/
theorem groupStep_at (hst : At i j x mi mj st)
    (hnew : g.spec.isFullAttention = true → st.hitRows idx = none)
    (hdrop : (g.useEagle && !st.eagleVerified.contains idx) = drop) (hyx : y ≤ x)
    (hfind : Returns c p blockHashes g drop x y) :
    ∃ st', c.groupStep p blockHashes st g idx = some st' ∧ st'.currHitLength = y ∧
      (∀ k, (st'.hitRows k).isSome = true → y ≤ st'.hitLengths k) ∧
      st'.eagleVerified = if drop then idx :: st.eagleVerified
        else if y < x then [] else st.eagleVerified := by
  obtain ⟨rows, hfind⟩ := hfind
  have hgo : ¬ (g.spec.isFullAttention && (st.hitRows idx).isSome) = true := by
    intro h
    obtain ⟨hf, hsome⟩ := Bool.and_eq_true_iff.mp h
    rw [hnew hf] at hsome
    cases hsome
  unfold groupStep
  rw [if_neg hgo]
  simp only [hdrop, hst.curr, hfind, Option.map_some]
  refine ⟨_, rfl, rfl, fun k hk => ?_, rfl⟩
  by_cases hki : k = idx
  · simp [hki]
  · simp only [Function.update_of_ne hki] at hk ⊢
    exact Nat.le_trans hyx (hst.reached k hk)

/-- A group that accepts the length. -/
theorem groupStep_accept (hst : At i j x mi mj st) (hi : idx ≠ i) (hj : idx ≠ j)
    (hfind : ∀ drop, (drop = true → g.useEagle = true) → Returns c p blockHashes g drop x x) :
    ∃ st', c.groupStep p blockHashes st g idx = some st' ∧ At i j x mi mj st' := by
  by_cases hskip : (g.spec.isFullAttention && (st.hitRows idx).isSome) = true
  · -- a full attention group that was looked up before reaches the length
    have hreach := hst.reached idx (Bool.and_eq_true_iff.mp hskip).2
    refine ⟨_, if_pos hskip, ?_, hst.reached, hst.first, hst.second⟩
    simp only [hst.curr, Nat.min_eq_left hreach]
  have hnew : g.spec.isFullAttention = true → st.hitRows idx = none := fun hf => by
    simpa [hf] using hskip
  obtain ⟨st', hstep, hcurr, hreach, hver⟩ := groupStep_at hst hnew rfl (Nat.le_refl x)
    (hfind _ fun h => (Bool.and_eq_true_iff.mp h).1)
  have hmem : ∀ k, k ≠ idx → st'.eagleVerified.contains k = st.eagleVerified.contains k := by
    intro k hk
    rw [hver, if_neg (Nat.lt_irrefl x)]
    split
    · rw [contains_cons, beq_false_of_ne hk, Bool.false_or]
    · rfl
  exact ⟨st', hstep, hcurr, hreach, (hmem i hi.symm).trans hst.first,
    (hmem j hj.symm).trans hst.second⟩

/-- The step of the first group of interest. -/
theorem groupStep_first (hst : At i j x mi mj st) (hij : j ≠ i)
    (hf : g.spec.isFullAttention = false) (he : g.useEagle = true) (hyx : y ≤ x)
    (hfind : Returns c p blockHashes g (!mi) x y) :
    ∃ st', c.groupStep p blockHashes st g i = some st' ∧
      At i j y (marks mi mj x y).1 (marks mi mj x y).2 st' := by
  obtain ⟨st', hstep, hcurr, hreach, hver⟩ := groupStep_at hst
    (fun h => by rw [hf] at h; cases h) (by rw [he, hst.first, Bool.true_and]) hyx hfind
  refine ⟨st', hstep, hcurr, hreach, ?_, ?_⟩
  all_goals rw [hver]
  · cases mi with
    | false => simp
    | true =>
      by_cases hlt : y < x
      · simp [marks_of_lt hlt, hlt]
      · simpa [marks, hlt] using hst.first
  · cases mi with
    | false => simpa [hij] using hst.second
    | true =>
      by_cases hlt : y < x
      · simp [marks_of_lt hlt, hlt]
      · simpa [marks, hlt] using hst.second

/-- Groups that accept the length. -/
theorem groupPass_accept (gs : List SpecGroup) (n : Nat) (hst : At i j x mi mj st)
    (hi : ∀ k < gs.length, n + k ≠ i) (hj : ∀ k < gs.length, n + k ≠ j)
    (hfind : ∀ g ∈ gs, ∀ drop, (drop = true → g.useEagle = true) →
      Returns c p blockHashes g drop x x) :
    ∃ st', c.groupPass p blockHashes (gs.zipIdx n) st = some st' ∧ At i j x mi mj st' := by
  induction gs generalizing n st with
  | nil => exact ⟨st, rfl, hst⟩
  | cons g gs ih =>
    obtain ⟨st₁, hstep, hst₁⟩ := groupStep_accept hst (hi 0 (Nat.succ_pos _))
      (hj 0 (Nat.succ_pos _)) (hfind g mem_cons_self)
    obtain ⟨st₂, hpass, hst₂⟩ := ih (n + 1) hst₁
      (fun k hk => by have := hi (k + 1) (Nat.succ_lt_succ hk); omega)
      (fun k hk => by have := hj (k + 1) (Nat.succ_lt_succ hk); omega)
      (fun g' hg' => hfind g' (mem_cons_of_mem _ hg'))
    refine ⟨st₂, ?_, hst₂⟩
    rw [zipIdx_cons, groupPass, show c.groupStep p blockHashes st g n = some st₁ from hstep]
    exact hpass

end Rounds

/-! ## Runs with two groups of interest -/

/-- The spec groups with two of them set apart. -/
structure Split (c : HybridConfig) (pre : List SpecGroup) (g₁ : SpecGroup) (mid : List SpecGroup)
    (g₂ : SpecGroup) (post : List SpecGroup) : Prop where
  groups : c.attentionGroups = pre ++ g₁ :: (mid ++ g₂ :: post)
  other₁ : g₁.spec.isFullAttention = false
  other₂ : g₂.spec.isFullAttention = false
  eagle₁ : g₁.useEagle = true
  eagle₂ : g₂.useEagle = true

/-- Everything is cached but for two groups. -/
def twoGroups (g₁ g₂ : SpecGroup) (P₁ P₂ : Nat → Bool) (i b : Nat) : Bool :=
  if g₁.groupIds.contains i then P₁ b else if g₂.groupIds.contains i then P₂ b else true

section Runs

variable {D n : Nat} (hs : Scale c D n) {pre mid post : List SpecGroup} {g₁ g₂ : SpecGroup}
  (sp : Split c pre g₁ mid g₂ post) {P₁ P₂ : Nat → Bool}

namespace Split

include sp

theorem mem₁ : g₁ ∈ c.attentionGroups := by simp [sp.groups]

theorem mem₂ : g₂ ∈ c.attentionGroups := by simp [sp.groups]

theorem not_isSimpleHybrid : c.isSimpleHybrid = false := by
  have hlen : c.attentionGroups.length = pre.length + 1 + mid.length + 1 + post.length := by
    rw [sp.groups]
    simp only [length_append, length_cons]
    omega
  unfold isSimpleHybrid
  cases pre with
  | nil => simp [sp.groups, sp.other₁]
  | cons g pre =>
    rw [length_cons] at hlen
    rw [Bool.and_eq_false_iff, beq_eq_false_iff_ne]
    exact .inl (by omega)

omit sp in
theorem content₁ (hi : i ∈ g₁.groupIds) (b : Nat) : twoGroups g₁ g₂ P₁ P₂ i b = P₁ b := by
  simp [twoGroups, hi]

/-- A group id is in one spec group only. -/
theorem disjoint : (∀ i ∈ g₂.groupIds, i ∉ g₁.groupIds) ∧
    ∀ g ∈ pre ++ mid ++ post, ∀ i ∈ g.groupIds, i ∉ g₁.groupIds ∧ i ∉ g₂.groupIds := by
  have hnodup := c.attentionGroups_nodup
  rw [sp.groups] at hnodup
  simp only [flatMap_append, flatMap_cons, nodup_append, mem_append, mem_flatMap] at hnodup
  obtain ⟨-, ⟨-, ⟨-, ⟨-, -, h₂post⟩, hmid⟩, h₁⟩, hpre⟩ := hnodup
  refine ⟨fun i hi hi' => h₁ i hi' i (.inr (.inl hi)) rfl, fun g hg i hi => ?_⟩
  simp only [mem_append] at hg
  rcases hg with (hg | hg) | hg
  · exact ⟨fun h => hpre i ⟨g, hg, hi⟩ i (.inl h) rfl,
      fun h => hpre i ⟨g, hg, hi⟩ i (.inr (.inr (.inl h))) rfl⟩
  · exact ⟨fun h => h₁ i h i (.inl ⟨g, hg, hi⟩) rfl, fun h => hmid i ⟨g, hg, hi⟩ i (.inl h) rfl⟩
  · exact ⟨fun h => h₁ i h i (.inr (.inr ⟨g, hg, hi⟩)) rfl, fun h => h₂post i h i ⟨g, hg, hi⟩ rfl⟩

theorem content₂ (hi : i ∈ g₂.groupIds) (b : Nat) : twoGroups g₁ g₂ P₁ P₂ i b = P₂ b := by
  simp [twoGroups, hi, sp.disjoint.1 i hi]

theorem content_rest (hg : g ∈ pre ++ mid ++ post)
    (hi : i ∈ g.groupIds) (b : Nat) : twoGroups g₁ g₂ P₁ P₂ i b = true := by
  obtain ⟨h₁, h₂⟩ := sp.disjoint.2 g hg i hi
  simp [twoGroups, h₁, h₂]

end Split

include hs sp

/-- One round: the other groups accept the length. -/
theorem groupPass_two (hok : c.ChunkedOk) {z : Nat} {m₁ m₂ : Bool}
    (hst : At pre.length (pre.length + 1 + mid.length) x m₁ m₂ st)
    (hx : Scale.Good c D x) (hy : Scale.Good c D y) (hz : Scale.Good c D z)
    (hyx : y ≤ x) (hzy : z ≤ y)
    (hfind₁ : Returns c (c.pool (twoGroups g₁ g₂ P₁ P₂)) (List.range n) g₁ (!m₁) x y)
    (hfind₂ : Returns c (c.pool (twoGroups g₁ g₂ P₁ P₂)) (List.range n) g₂
      (!(marks m₁ m₂ x y).2) y z) :
    ∃ st', c.groupPass (c.pool (twoGroups g₁ g₂ P₁ P₂)) (List.range n)
        c.attentionGroups.zipIdx st = some st' ∧
      At pre.length (pre.length + 1 + mid.length) z
        (marks (marks m₁ m₂ x y).2 (marks m₁ m₂ x y).1 y z).2
        (marks (marks m₁ m₂ x y).2 (marks m₁ m₂ x y).1 y z).1 st' := by
  have haccept : ∀ w, Scale.Good c D w → ∀ g ∈ pre ++ mid ++ post, ∀ drop,
      (drop = true → g.useEagle = true) →
        Returns c (c.pool (twoGroups g₁ g₂ P₁ P₂)) (List.range n) g drop w w := by
    intro w hw g hg drop hdrop
    have hmem : g ∈ c.attentionGroups := by
      rw [sp.groups]
      simp only [mem_append, mem_cons] at hg ⊢
      tauto
    exact findHit_all hs hmem (P := fun _ => true) (fun i hi b => sp.content_rest hg hi b)
      (fun _ => rfl) hw hok hdrop
  obtain ⟨st₁, hpre, hst₁⟩ := groupPass_accept pre 0 hst (fun k hk => by omega)
    (fun k hk => by omega) fun g hg => haccept x hx g (by simp [hg])
  obtain ⟨st₂, hstep₁, hst₂⟩ := groupStep_first hst₁ (by omega) sp.other₁ sp.eagle₁ hyx hfind₁
  obtain ⟨st₃, hmid, hst₃⟩ := groupPass_accept mid (pre.length + 1) hst₂
    (fun k hk => by omega) (fun k hk => by omega) fun g hg => haccept y hy g (by simp [hg])
  obtain ⟨st₄, hstep₂, hst₄⟩ := groupStep_first hst₃.symm (by omega) sp.other₂ sp.eagle₂ hzy hfind₂
  obtain ⟨st₅, hpost, hst₅⟩ := groupPass_accept post (pre.length + 1 + mid.length + 1) hst₄.symm
    (fun k hk => by omega) (fun k hk => by omega) fun g hg => haccept z hz g (by simp [hg])
  refine ⟨st₅, ?_, hst₅⟩
  rw [sp.groups, zipIdx_append, groupPass_append, hpre, Option.bind_some, Nat.zero_add,
    zipIdx_cons, groupPass, hstep₁, Option.bind_some, zipIdx_append, groupPass_append,
    hmid, Option.bind_some, zipIdx_cons, groupPass, hstep₂, Option.bind_some, hpost]

end Runs

/-- The call gets to a round that starts with length `x` and marks `m₁` and `m₂`, with
fuel for at least `left` rounds. -/
def Reaches (c : HybridConfig) (n : Nat) (content : Nat → Nat → Bool) (i j max left x : Nat)
    (m₁ m₂ : Bool) : Prop :=
  ∃ st fuel, At i j x m₁ m₂ st ∧ left ≤ fuel ∧
    c.hitLoop (c.pool content) (List.range n) (max + 1) max (.init max) =
      c.hitLoop (c.pool content) (List.range n) fuel x st

section Reaches

variable {n i j max left x z : Nat} {content : Nat → Nat → Bool} {m₁ m₂ m₁' m₂' : Bool}

theorem Reaches.init (hleft : left ≤ max) : Reaches c n content i j max left max false false :=
  ⟨.init max, max + 1, ⟨rfl, fun _ h => (nomatch h), rfl, rfl⟩, Nat.le_succ_of_le hleft, rfl⟩

section

variable (h : Reaches c n content i j max (left + 1) x m₁ m₂)
include h

theorem Reaches.hitLoop_eq :
    ∃ st fuel, At i j x m₁ m₂ st ∧ left ≤ fuel ∧ ∀ st',
      c.groupPass (c.pool content) (List.range n) c.attentionGroups.zipIdx st =
        some st' →
      c.hitLoop (c.pool content) (List.range n) (max + 1) max (.init max) =
        if x ≤ st'.currHitLength then some (x, st')
        else if c.isSimpleHybrid then some (st'.currHitLength, st')
        else c.hitLoop (c.pool content) (List.range n) fuel st'.currHitLength
          st' := by
  obtain ⟨st, fuel, hst, hleft, hloop⟩ := h
  obtain ⟨fuel, rfl⟩ : ∃ f, fuel = f + 1 := ⟨fuel - 1, by omega⟩
  refine ⟨st, fuel, hst, Nat.le_of_succ_le_succ hleft, fun st' hpass => ?_⟩
  have heta : { st with currHitLength := x } = st := by rw [← hst.curr]
  rw [hloop, hitLoop, heta, hpass, Option.bind_some]

/-- A round that shortens the length. -/
theorem Reaches.next (hsimple : c.isSimpleHybrid = false) (hlt : z < x)
    (hpass : ∀ st, At i j x m₁ m₂ st → ∃ st', c.groupPass (c.pool content)
      (List.range n) c.attentionGroups.zipIdx st = some st' ∧ At i j z m₁' m₂' st') :
    Reaches c n content i j max left z m₁' m₂' := by
  obtain ⟨st, fuel, hst, hleft, hround⟩ := h.hitLoop_eq
  obtain ⟨st', hp, hst'⟩ := hpass st hst
  have hloop := hround st' hp
  rw [hst'.curr, if_neg (by omega), hsimple] at hloop
  exact ⟨st', fuel, hst', hleft, hloop⟩

/-- A round that keeps the length ends the call. -/
theorem Reaches.stop
    (hpass : ∀ st, At i j x m₁ m₂ st → ∃ st', c.groupPass (c.pool content)
      (List.range n) c.attentionGroups.zipIdx st = some st' ∧ st'.currHitLength = x) :
    ∃ blocks longer, c.findLongestCacheHit (c.pool content) (List.range n) max =
      some (blocks, x, longer) := by
  obtain ⟨st, fuel, hst, hleft, hround⟩ := h.hitLoop_eq
  obtain ⟨st', hp, hcurr⟩ := hpass st hst
  have hloop := hround st' hp
  rw [hcurr, if_pos (Nat.le_refl x)] at hloop
  rw [findLongestCacheHit, hloop]
  exact ⟨_, _, rfl⟩

end

end Reaches

section Scenarios

variable {D n : Nat} (hs : Scale c D n) (hok : c.ChunkedOk) {pre mid post : List SpecGroup}
  {g₁ g₂ : SpecGroup} (sp : Split c pre g₁ mid g₂ post)
include hs

theorem Scale.good {k : Nat} (hk : 1 ≤ k) (hk' : k ≤ 9) : Scale.Good c D (k * D) :=
  ⟨Nat.dvd_mul_left_of_dvd hs.align_dvd k, Nat.le_mul_of_pos_left D hk,
    Nat.mul_le_mul_right D hk'⟩

theorem Scale.good_self : Scale.Good c D D := by simpa using hs.good (Nat.le_refl 1) (by omega)

/-- The drop of a sliding window group is not verified at a length whose next block
is missing. -/
theorem not_dropVerified (hg : g ∈ c.attentionGroups) (he : g.useEagle = true)
    (hk : g.spec.kind = .slidingWindow window) {P : Nat → Bool}
    (hP : ∀ i ∈ g.groupIds, ∀ b, content i b = P b) (hmiss : P (D + g.spec.blockSize) = false)
    {max : Nat} (hhit : ∃ blocks longer, c.findLongestCacheHit (c.pool content)
      (List.range n) max = some (blocks, D, longer)) :
    ¬ c.DropVerified (c.pool content) (List.range n) max := by
  intro hver
  obtain ⟨blocks, longer, hhit⟩ := hhit
  obtain ⟨b, hlo, hhi, hc⟩ := hver _ _ _ hhit hs.pos g hg he (by simp [isMamba, hk])
  have u := c.units hg
  have hdvd := c.blockSize_dvd_align hg (isSlidingWindow_not_fineGrained hk)
  have hwide := hs.wide g hg window hk
  rw [dropUnit_eq hg, Nat.min_eq_right (Nat.le_of_dvd c.align_pos hdvd)] at hlo
  rw [Nat.succ_mul, Nat.div_mul_cancel (Nat.dvd_trans hdvd hs.align_dvd)] at hhi
  obtain rfl : b = D + g.spec.blockSize := Nat.le_antisymm hhi hlo
  rw [cached_iff hs hg hP (Nat.dvd_add (Nat.dvd_trans u.hash_dvd_align hs.align_dvd) u.hash_dvd)
    (Nat.add_pos_left hs.pos _) (by omega), hmiss] at hc
  cases hc

/-- What a sliding window or Mamba group holds that is cut at `D`, with the block
behind it when the group drops one. -/
def cutAt (D : Nat) (g : SpecGroup) (b : Nat) : Bool :=
  b ≤ D + if g.spec.isMamba then 0 else g.spec.blockSize

/-- Such a group is verified at `D`, and accepts it afterwards. -/
theorem findHit_cutAt (hg : g ∈ c.attentionGroups)
    (hP : ∀ i ∈ g.groupIds, ∀ b, content i b = cutAt D g b)
    (hk : g.spec.isMamba = true ∨ ∃ window, g.spec.kind = .slidingWindow window)
    (hx : Scale.Good c D x) (hkeep : drop = false → x = D) :
    Returns c (c.pool content) (List.range n) g drop x D := by
  have hD := hs.good_self
  rcases hk with hm | ⟨window, hk⟩
  · have hk : g.spec.kind = .mamba := by simpa [isMamba] using hm
    refine findHit_mamba hs hg hP hx.le_nine hx.le hD hk (by simp [cutAt]) (fun b hlo _ => ?_) drop
    simpa [cutAt, hm] using hlo
  have hm : g.spec.isMamba = false := by simp [isMamba, hk]
  cases drop with
  | false =>
    obtain rfl := hkeep rfl
    refine findHit_sliding_keep hs hg hP hx hk fun b _ hb => ?_
    simp only [cutAt, hm, decide_eq_true_eq]
    exact Nat.le_trans hb (Nat.le_add_right _ _)
  | true =>
    refine findHit_sliding_drop hs hg hP hx.le_nine hx.le hD hk (fun b _ hb => ?_)
      (fun b hb _ => ?_)
    · simpa [cutAt, hm] using hb
    · simpa [cutAt, hm] using hb

omit hs in
include hok in
/-- The kinds of the EAGLE groups besides full attention. -/
theorem kind_cases (hg : g ∈ c.attentionGroups) (he : g.useEagle = true)
    (hf : g.spec.isFullAttention = false) :
    g.spec.isMamba = true ∨ ∃ window, g.spec.kind = .slidingWindow window := by
  cases hk : g.spec.kind with
  | fullAttention => simp [isFullAttention, hk] at hf
  | slidingWindow window => exact .inr ⟨window, rfl⟩
  | chunkedLocal chunk =>
    have := (hok g hg (by simp [isChunkedLocal, hk])).1
    rw [he] at this
    cases this
  | mamba => exact .inl (by simp [isMamba, hk])

include hok sp

/-- The sliding window group comes first: it is verified at `3 * D`, then the second
group shortens the length to `D`, and both keep their marks. -/
theorem exists_of_sliding_first (hk : g₁.spec.kind = .slidingWindow window) :
    ∃ content max, ¬ c.DropVerified (c.pool content) (List.range n) max := by
  have hkind := kind_cases hok sp.mem₂ sp.eagle₂ sp.other₂
  have hwide := hs.wide g₁ sp.mem₁ window hk
  have hbpos := (c.units sp.mem₁).block_pos
  have hD := hs.good_self
  have hD3 : Scale.Good c D (3 * D) := hs.good (by omega) (by omega)
  set P₁ : Nat → Bool := fun b => decide (b ≠ D + g₁.spec.blockSize) with hP₁
  set content := twoGroups g₁ g₂ P₁ (cutAt D g₂) with hcontent
  have h₁ : ∀ i ∈ g₁.groupIds, ∀ b, content i b = P₁ b := fun i hi b => Split.content₁ hi b
  have h₂ : ∀ i ∈ g₂.groupIds, ∀ b, content i b = cutAt D g₂ b := fun i hi b => sp.content₂ hi b
  refine ⟨content, 3 * D, not_dropVerified hs sp.mem₁ sp.eagle₁ hk h₁ (by simp [hP₁]) ?_⟩
  have hround₁ : Reaches c n content pre.length (pre.length + 1 + mid.length) (3 * D) 1 D
      true true := by
    refine (Reaches.init (by omega)).next sp.not_isSimpleHybrid (by omega) fun st hst => ?_
    refine groupPass_two hs sp hok hst hD3 hD3 hD (Nat.le_refl _) (by omega) ?_
      (findHit_cutAt hs sp.mem₂ h₂ hkind hD3 nofun)
    refine findHit_sliding_drop hs sp.mem₁ h₁ hD3.le_nine (Nat.le_refl _) hD3 hk
      (fun b hlo _ => ?_) (fun b hlo hhi => by omega)
    simp only [hP₁, decide_eq_true_eq]
    omega
  refine hround₁.stop fun st hst => ?_
  have hkeep := findHit_sliding_keep hs sp.mem₁ h₁ hD hk fun b _ hb => by
    simp only [hP₁, decide_eq_true_eq]
    omega
  obtain ⟨st', hpass, hst'⟩ := groupPass_two hs sp hok hst hD hD hD (Nat.le_refl _) (Nat.le_refl _)
    hkeep (findHit_cutAt hs sp.mem₂ h₂ hkind hD fun _ => rfl)
  exact ⟨st', hpass, hst'.curr⟩

/-- A Mamba group comes first: it loses its mark in the second round, gets it again in
the third, which shortens the length to `D` and leaves the mark of the sliding window
group alone. -/
theorem exists_of_mamba_first (hm : g₁.spec.kind = .mamba)
    (hk : g₂.spec.kind = .slidingWindow window) :
    ∃ content max, ¬ c.DropVerified (c.pool content) (List.range n) max := by
  have hwide := hs.wide g₂ sp.mem₂ window hk
  have hbpos := (c.units sp.mem₂).block_pos
  have hgood : ∀ k, 1 ≤ k → k ≤ 9 → Scale.Good c D (k * D) := fun k => hs.good
  have h9 := hgood 9 (by omega) (by omega)
  have h7 := hgood 7 (by omega) (by omega)
  have h5 := hgood 5 (by omega) (by omega)
  have h3 := hgood 3 (by omega) (by omega)
  have h1 := hgood 1 (by omega) (by omega)
  set P₁ : Nat → Bool := fun b => decide (b = 9 * D ∨ b = 5 * D ∨ b = D) with hP₁
  set P₂ : Nat → Bool := fun b => decide (b ≤ D ∨ 2 * D < b ∧ b ≤ 3 * D + g₂.spec.blockSize ∨
    6 * D < b ∧ b ≤ 7 * D + g₂.spec.blockSize) with hP₂
  set content := twoGroups g₁ g₂ P₁ P₂ with hcontent
  have h₁ : ∀ i ∈ g₁.groupIds, ∀ b, content i b = P₁ b := fun i hi b => Split.content₁ hi b
  have h₂ : ∀ i ∈ g₂.groupIds, ∀ b, content i b = P₂ b := fun i hi b => sp.content₂ hi b
  have hmiss : P₂ (D + g₂.spec.blockSize) = false := by
    simp only [hP₂, decide_eq_false_iff_not]
    omega
  refine ⟨content, 9 * D, not_dropVerified hs sp.mem₂ sp.eagle₂ hk h₂ hmiss ?_⟩
  have hmamba : ∀ k l, k = 9 ∧ l = 9 ∨ k = 7 ∧ l = 5 ∨ k = 3 ∧ l = 1 ∨ k = 1 ∧ l = 1 → ∀ drop,
      Returns c (c.pool content) (List.range n) g₁ drop (k * D) (l * D) := by
    intro k l h drop
    refine findHit_mamba hs sp.mem₁ h₁ (hgood k (by omega) (by omega)).le_nine
      (Nat.mul_le_mul_right D (by omega)) (hgood l (by omega) (by omega)) hm ?_
        (fun b hlo hhi => ?_)
      drop
    · simp only [hP₁, decide_eq_true_eq]
      rcases h with ⟨-, rfl⟩ | ⟨-, rfl⟩ | ⟨-, rfl⟩ | ⟨-, rfl⟩ <;> omega
    · simp only [hP₁, decide_eq_false_iff_not]
      rcases h with ⟨rfl, rfl⟩ | ⟨rfl, rfl⟩ | ⟨rfl, rfl⟩ | ⟨rfl, rfl⟩ <;> omega
  have hsliding : ∀ k l, k = 9 ∧ l = 7 ∨ k = 5 ∧ l = 3 →
      Returns c (c.pool content) (List.range n) g₂ true (k * D) (l * D) := by
    intro k l h
    refine findHit_sliding_drop hs sp.mem₂ h₂ (hgood k (by omega) (by omega)).le_nine
      (Nat.mul_le_mul_right D (by omega)) (hgood l (by omega) (by omega)) hk (fun b hlo hhi => ?_)
      (fun b hlo hhi => ?_)
    · simp only [hP₂, decide_eq_true_eq]
      rcases h with ⟨-, rfl⟩ | ⟨-, rfl⟩ <;> omega
    · simp only [hP₂, decide_eq_false_iff_not]
      rcases h with ⟨rfl, rfl⟩ | ⟨rfl, rfl⟩ <;> omega
  have hkeep := findHit_sliding_keep hs sp.mem₂ h₂ h1 hk fun b _ hb => by
    simp only [hP₂, decide_eq_true_eq]
    omega
  have hround₁ : Reaches c n content pre.length (pre.length + 1 + mid.length) (9 * D) 3 (7 * D)
      true true :=
    (Reaches.init (by omega)).next sp.not_isSimpleHybrid (by omega) fun st hst =>
      groupPass_two hs sp hok hst h9 h9 h7 (Nat.le_refl _) (by omega) (hmamba 9 9 (by omega) _)
        (hsliding 9 7 (by omega))
  -- without drop the Mamba group shortens the length: both marks go
  have hround₂ : Reaches c n content pre.length (pre.length + 1 + mid.length) (9 * D) 2 (3 * D)
      false true := by
    have hlost : marks true true (7 * D) (5 * D) = (false, false) := marks_of_lt (by omega)
    refine hround₁.next sp.not_isSimpleHybrid (by omega) fun st hst => ?_
    have hpass := groupPass_two hs sp hok hst h7 h5 h3 (by omega) (by omega)
      (hmamba 7 5 (by omega) _) (by rw [hlost]; exact hsliding 5 3 (by omega))
    simpa only [hlost, marks_false] using hpass
  have hround₃ : Reaches c n content pre.length (pre.length + 1 + mid.length) (9 * D) 1 (1 * D)
      true true := by
    refine hround₂.next sp.not_isSimpleHybrid (by omega) fun st hst => ?_
    have hpass := groupPass_two hs sp hok hst h3 h1 h1 (by omega) (Nat.le_refl _)
      (hmamba 3 1 (by omega) _) hkeep
    simpa only [marks_false, marks_self] using hpass
  have hend := hround₃.stop fun st hst => by
    obtain ⟨st', hpass, hst'⟩ := groupPass_two hs sp hok hst h1 h1 h1 (Nat.le_refl _)
      (Nat.le_refl _) (hmamba 1 1 (by omega) _) (by rw [marks_self]; exact hkeep)
    exact ⟨st', hpass, hst'.curr⟩
  rwa [Nat.one_mul] at hend

end Scenarios

/-! ## Characterisation -/

/-- Two positions of a list split it. -/
theorem exists_split {gs : List SpecGroup} {a b : SpecGroup} (hi : gs[i]? = some a)
    (hj : gs[j]? = some b) (hij : i < j) : ∃ pre mid post, gs = pre ++ a :: (mid ++ b :: post) := by
  have hcut : ∀ {l : List SpecGroup} {k g}, l[k]? = some g →
      l = l.take k ++ g :: l.drop (k + 1) := by
    intro l k g hk
    obtain ⟨hlt, rfl⟩ := List.getElem?_eq_some_iff.mp hk
    rw [← drop_eq_getElem_cons hlt, take_append_drop]
  have hj' : (gs.drop (i + 1))[j - (i + 1)]? = some b := by
    rw [getElem?_drop, Nat.add_sub_cancel' hij]
    exact hj
  exact ⟨_, _, _, (hcut hi).trans (by rw [← hcut hj'])⟩

/-- The drop of every EAGLE group but Mamba is verified for every pool exactly when a
sliding window EAGLE group is the only EAGLE group besides full attention. -/
theorem dropVerified_iff_lone (c : HybridConfig) (hok : c.ChunkedOk) :
    (∀ (H : Type) (p : BlockPool H), p.hashBlockSize = c.hashBlockSize →
      ∀ blockHashes maxCacheHitLength, c.DropVerified p blockHashes maxCacheHitLength) ↔
      c.Lone := by
  constructor
  · rintro hver ⟨a, i⟩ hi ⟨b, j⟩ hj hij hea heb hka
    by_contra hfb
    have hfb : b.spec.isFullAttention = false := by simpa using hfb
    obtain ⟨window, hka⟩ : ∃ window, a.spec.kind = .slidingWindow window := by
      cases hk : a.spec.kind <;> simp [hk] at hka ⊢
    have hfa : a.spec.isFullAttention = false := by simp [isFullAttention, hka]
    have hi := mem_zipIdx_iff_getElem?.mp hi
    have hj := mem_zipIdx_iff_getElem?.mp hj
    obtain ⟨D, n, hs⟩ := exists_scale c
    -- in each order of the two groups there is a pool without verification
    have hbad : ∃ content max,
        ¬ c.DropVerified (c.pool content) (List.range n) max := by
      rcases Nat.lt_or_gt_of_ne hij with hlt | hgt
      · obtain ⟨pre, mid, post, hgs⟩ := exists_split hi hj hlt
        exact exists_of_sliding_first hs hok ⟨hgs, hfa, hfb, hea, heb⟩ hka
      obtain ⟨pre, mid, post, hgs⟩ := exists_split hj hi hgt
      have sp : Split c pre b mid a post := ⟨hgs, hfb, hfa, heb, hea⟩
      rcases kind_cases hok sp.mem₁ heb hfb with hm | ⟨window', hkb⟩
      · exact exists_of_mamba_first hs hok sp (by simpa [isMamba] using hm) hka
      · exact exists_of_sliding_first hs hok sp hkb
    obtain ⟨content, max, hbad⟩ := hbad
    exact hbad (hver Nat _ rfl _ _)
  · intro hlone H p hp blockHashes maxCacheHitLength
    exact dropVerified_of_lone hp hok hlone _

/-- Full attention and a sliding window of 3 tokens, both with EAGLE. -/
def loneConfig : HybridConfig where
  kvCacheGroups := [⟨⟨.fullAttention, 2, 0⟩, true, true⟩, ⟨⟨.slidingWindow 3, 2, 0⟩, true, true⟩]
  hashBlockSize := 2
  schedulerBlockSize := 2
  dcpWorldSize := 1
  allowPartialHashHits := true
  hash_pos := Nat.two_pos
  scheduler_pos := Nat.two_pos
  hash_dvd := by decide
  scheduler_dvd := by decide
  cacheable := by decide

theorem dropVerified_loneConfig :
    loneConfig.ChunkedOk ∧ ∀ (H : Type) (p : BlockPool H), p.hashBlockSize = 2 →
      ∀ blockHashes maxCacheHitLength,
        loneConfig.DropVerified p blockHashes maxCacheHitLength :=
  have hok : loneConfig.ChunkedOk := by unfold ChunkedOk; decide
  ⟨hok, (dropVerified_iff_lone loneConfig hok).mpr (by unfold Lone; decide)⟩

/-- Full attention and sliding windows of 3 and 5 tokens, all with EAGLE. -/
def twoWindows : HybridConfig where
  kvCacheGroups := [⟨⟨.fullAttention, 2, 0⟩, true, true⟩, ⟨⟨.slidingWindow 3, 2, 0⟩, true, true⟩,
    ⟨⟨.slidingWindow 5, 2, 0⟩, true, true⟩]
  hashBlockSize := 2
  schedulerBlockSize := 2
  dcpWorldSize := 1
  allowPartialHashHits := true
  hash_pos := Nat.two_pos
  scheduler_pos := Nat.two_pos
  hash_dvd := by decide
  scheduler_dvd := by decide
  cacheable := by decide

/-- The first window has all blocks but the third, the second only the first three. -/
def twoWindowsPool : BlockPool Nat :=
  poolBy 2 fun i b => if i = 1 then b ≠ 6 else if i = 2 then b ≤ 6 else true

/-- The first window is verified at 8. The second one then gives 4, which is returned,
although the block from 4 to 6 is missing for the first window. -/
theorem twoWindows_not_dropVerified :
    (twoWindows.findLongestCacheHit twoWindowsPool [0, 1, 2, 3, 4] 8).map (·.2.1) = some 4 ∧
      ⟨⟨.slidingWindow 3, 2, 0⟩, [1], true⟩ ∈ twoWindows.attentionGroups ∧
      (∀ b, BoundaryCached twoWindowsPool [0, 1, 2, 3, 4] [1] b → b ≤ 4 ∨ 6 < b) ∧
      ¬ twoWindows.DropVerified twoWindowsPool [0, 1, 2, 3, 4] 8 := by
  have hhit : (twoWindows.findLongestCacheHit twoWindowsPool [0, 1, 2, 3, 4] 8).map (·.2.1) =
      some 4 := by decide
  have hmem : ⟨⟨.slidingWindow 3, 2, 0⟩, [1], true⟩ ∈ twoWindows.attentionGroups := by decide
  have hmiss : ∀ b, BoundaryCached twoWindowsPool [0, 1, 2, 3, 4] [1] b → b ≤ 4 ∨ 6 < b := by
    intro b hc
    by_contra h
    obtain rfl | rfl : b = 5 ∨ b = 6 := by omega
    all_goals revert hc; decide
  refine ⟨hhit, hmem, hmiss, fun hver => ?_⟩
  obtain ⟨⟨blocks, l, longer⟩, hfind, hl⟩ := Option.map_eq_some_iff.mp hhit
  obtain rfl : l = 4 := hl
  obtain ⟨b, hlo, hhi, hc⟩ := hver blocks 4 longer hfind (by decide) _ hmem rfl rfl
  have hlo : 6 ≤ b := hlo
  have hhi : b ≤ 6 := hhi
  rcases hmiss b hc with h | h <;> omega

end HybridConfig

end Vllm.Lookup
