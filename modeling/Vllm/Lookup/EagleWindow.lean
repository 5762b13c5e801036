import Vllm.Lookup.Longest

/-!
# The longest sliding window hit with EAGLE drop

With EAGLE drop a hit of `m` blocks needs block `m` as well, which is dropped. The scan looks for a
run whose length without its last block is aligned. A run that is too short for the window, because
it starts at the first block, is aligned once more before the drop, and then after it: if hits are
aligned to more than a block this costs a whole alignment unit.
-/

namespace Vllm.Lookup

open Library Pool List

variable {H : Type} {p : BlockPool H} {blockHashes : List H} {groupIds : List Nat}
  {blockSize alignmentTokens window maxLength : Nat} {length : Nat}

/-- A hit of `length` tokens is there with the drop: its last block and the one to be dropped, and
the blocks that overlap the window before the length. -/
def EagleHit (p : BlockPool H) (blockHashes : List H) (groupIds : List Nat)
    (maxLength blockSize window alignmentTokens length : Nat) : Prop :=
  alignmentTokens ∣ length ∧ ∃ m, length = m * blockSize ∧ m + 1 ≤ maxLength / blockSize ∧
    BoundaryCached p blockHashes groupIds ((m + 1) * blockSize) ∧
    ∀ j < m, m * blockSize < (j + 1) * blockSize + (window - 1) →
      BoundaryCached p blockHashes groupIds ((j + 1) * blockSize)

/-- The largest of the lengths, and 0 if there is none. -/
def IsLongestEagleHit (p : BlockPool H) (blockHashes : List H) (groupIds : List Nat)
    (maxLength blockSize window alignmentTokens length : Nat) : Prop :=
  (EagleHit p blockHashes groupIds maxLength blockSize window alignmentTokens length ∨ length = 0) ∧
    ∀ length', EagleHit p blockHashes groupIds maxLength blockSize window alignmentTokens length' →
      length' ≤ length

/-! ## Hits and runs -/

theorem contiguousBlocksForHit_true (window blockSize : Nat) :
    max (contiguousBlocksForHit window blockSize true) 1 = cdiv (window - 1) blockSize + 1 :=
  Nat.max_eq_left (Nat.succ_pos _)

section

variable (u : Units p.hashBlockSize blockSize alignmentTokens)
include u

/-- The blocks that a run behind `m + 1` blocks needs. -/
theorem windowCached_succ_iff (m : Nat) :
    WindowCached (lookup p blockHashes groupIds (blockSize / p.hashBlockSize))
        (cdiv (window - 1) blockSize + 1) (m + 1) ↔
      BoundaryCached p blockHashes groupIds ((m + 1) * blockSize) ∧
        ∀ j < m, m * blockSize < (j + 1) * blockSize + (window - 1) →
          BoundaryCached p blockHashes groupIds ((j + 1) * blockSize) := by
  have hwindow : ∀ j, m + 1 ≤ j + (cdiv (window - 1) blockSize + 1) ↔
      m * blockSize < (j + 1) * blockSize + (window - 1) := by
    intro j
    rw [← Nat.add_assoc, Nat.add_le_add_iff_right, le_add_cdiv_iff u.block_pos]
  unfold WindowCached BoundaryCached
  simp only [lookup_join u.hash_dvd u.block_pos]
  constructor
  · intro h
    exact ⟨h m (Nat.lt_succ_self m) (by omega),
      fun j hj hw => h j (Nat.lt_succ_of_lt hj) ((hwindow j).2 hw)⟩
  · rintro ⟨hlast, hrest⟩ j hj hw
    rcases Nat.eq_or_lt_of_le (Nat.le_of_lt_succ hj) with rfl | hlt
    · exact hlast
    · exact hrest j hlt ((hwindow j).1 hw)

theorem eagleHit_mul_iff (m : Nat) :
    EagleHit p blockHashes groupIds maxLength blockSize window alignmentTokens (m * blockSize) ↔
      RunEnd blockSize alignmentTokens true (m + 1) ∧ m + 1 ≤ maxLength / blockSize ∧
      WindowCached (lookup p blockHashes groupIds (blockSize / p.hashBlockSize))
        (cdiv (window - 1) blockSize + 1) (m + 1) := by
  rw [windowCached_succ_iff u]
  constructor
  · rintro ⟨hal, m', hm, hle, hcached⟩
    obtain rfl := Nat.mul_right_cancel u.block_pos hm
    exact ⟨blocksAligned_iff.2 hal, hle, hcached⟩
  · rintro ⟨hal, hle, hcached⟩
    exact ⟨blocksAligned_iff.1 hal, m, rfl, hle, hcached⟩

omit u in
theorem IsLongestEagleHit.unique {length' : Nat}
    (h : IsLongestEagleHit p blockHashes groupIds maxLength blockSize window alignmentTokens length)
    (h' : IsLongestEagleHit p blockHashes groupIds maxLength blockSize window alignmentTokens
      length') : length = length' := by
  refine Nat.le_antisymm ?_ ?_
  · rcases h.1 with hhit | rfl
    · exact h'.2 _ hhit
    · exact Nat.zero_le _
  · rcases h'.1 with hhit | rfl
    · exact h.2 _ hhit
    · exact Nat.zero_le _

/-- The hashes cover the blocks below the limit just if they cover the last one. -/
theorem lookup_last_iff (n : Nat) :
    (0 < n → lookup p blockHashes groupIds (blockSize / p.hashBlockSize) (n - 1) ≠ none) ↔
      n * (blockSize / p.hashBlockSize) ≤ blockHashes.length := by
  rcases Nat.eq_zero_or_pos n with rfl | hpos
  · simp
  · rw [lookup_ne_none_iff u, Nat.sub_add_cancel hpos]
    exact ⟨fun h => h hpos, fun h _ => h⟩

/-- No index error just if the hashes cover the blocks below the limit. -/
theorem lookups_iff :
    (∀ j < maxLength / blockSize,
      lookup p blockHashes groupIds (blockSize / p.hashBlockSize) j ≠ none) ↔
      maxLength / blockSize * (blockSize / p.hashBlockSize) ≤ blockHashes.length := by
  constructor
  · exact fun h => (lookup_last_iff u _).1 fun hpos => h _ (Nat.sub_lt hpos Nat.one_pos)
  · intro h j hj
    exact (lookup_ne_none_iff u j).2 (Nat.le_trans (Nat.mul_le_mul_right _ hj) h)

end

section Result

variable {found : Bool} {computed : List Row} {null : Row}

/-- The blocks that are left of the run of the scan. -/
def afterDrop (blockSize alignmentTokens : Nat) (found : Bool) (computed : List Row) : List Row :=
  let computed := if found then computed else popUnaligned blockSize alignmentTokens computed
  if true && !computed.isEmpty then popUnaligned blockSize alignmentTokens computed.dropLast
  else computed

/-- What is left after the first alignment loses its last block. -/
theorem length_afterDrop_le_pop (blockSize alignmentTokens : Nat) (found : Bool)
    (computed : List Row) :
    (afterDrop blockSize alignmentTokens found computed).length ≤
      (if found then computed else popUnaligned blockSize alignmentTokens computed).length - 1 := by
  unfold afterDrop
  generalize (if found then computed else popUnaligned blockSize alignmentTokens computed) = rows
  cases rows with
  | nil => exact Nat.le_refl 0
  | cons row rows =>
    exact Nat.le_trans (popUnaligned_length_le _ _ _) (Nat.le_of_eq length_dropLast)

theorem length_afterDrop_le (blockSize alignmentTokens : Nat) (found : Bool)
    (computed : List Row) :
    (afterDrop blockSize alignmentTokens found computed).length ≤ computed.length - 1 := by
  refine Nat.le_trans (length_afterDrop_le_pop _ _ found computed) (Nat.sub_le_sub_right ?_ 1)
  split
  · exact Nat.le_refl _
  · exact popUnaligned_length_le _ _ _

theorem afterDrop_aligned :
    alignmentTokens ∣ (afterDrop blockSize alignmentTokens found computed).length * blockSize := by
  unfold afterDrop
  generalize (if found then computed else popUnaligned blockSize alignmentTokens computed) = rows
  cases rows with
  | nil => simp
  | cons row rows => exact popUnaligned_aligned _

/-- A run keeps all blocks but the last if it is long enough, or if every length is aligned. -/
theorem length_afterDrop (hend : 0 < computed.length →
      RunEnd blockSize alignmentTokens true computed.length)
    (hkeep : found = true ∨ blockSize = alignmentTokens) :
    (afterDrop blockSize alignmentTokens found computed).length = computed.length - 1 := by
  have hdrop : popUnaligned blockSize alignmentTokens computed.dropLast = computed.dropLast := by
    refine popUnaligned_of_aligned fun hpos => ?_
    rw [length_dropLast] at hpos ⊢
    exact hend (by omega)
  have hrun : (if found then computed else popUnaligned blockSize alignmentTokens computed) =
      computed := by
    rcases hkeep with rfl | rfl
    · rfl
    · rw [popUnaligned_of_aligned fun _ => .inl rfl, ite_self]
  rw [afterDrop, hrun, hdrop]
  cases computed with
  | nil => rfl
  | cons row rows => exact length_dropLast

/-- Otherwise it loses a whole alignment unit. -/
theorem length_afterDrop_of_short (hdvd : blockSize ∣ alignmentTokens)
    (hend : RunEnd blockSize alignmentTokens true computed.length)
    (hne : blockSize ≠ alignmentTokens) (hlong : 1 < computed.length) :
    (afterDrop blockSize alignmentTokens false computed).length < computed.length - 1 := by
  have hpop : (popUnaligned blockSize alignmentTokens computed).length < computed.length := by
    refine Nat.lt_of_le_of_ne (popUnaligned_length_le _ _ _) fun hall => hne ?_
    have hal : alignmentTokens ∣ (computed.length - 1) * blockSize := blocksAligned_iff.1 hend
    have hal' : alignmentTokens ∣ computed.length * blockSize := by
      rw [← hall]
      exact popUnaligned_aligned computed
    have hsplit : computed.length * blockSize = (computed.length - 1) * blockSize + blockSize := by
      rw [← Nat.succ_mul, Nat.succ_eq_add_one, Nat.sub_add_cancel (Nat.le_of_lt hlong)]
    rw [hsplit, Nat.dvd_add_right hal] at hal'
    exact Nat.dvd_antisymm hdvd hal'
  have hle : _ ≤ (popUnaligned blockSize alignmentTokens computed).length - 1 :=
    length_afterDrop_le_pop blockSize alignmentTokens false computed
  omega

section Scan

variable (u : Units p.hashBlockSize blockSize alignmentTokens)
  (h : ScanResult (lookup p blockHashes groupIds (blockSize / p.hashBlockSize)) blockSize
    alignmentTokens (contiguousBlocksForHit window blockSize true) (maxLength / blockSize) true
    null found computed)
include u h

/-- The run that the scan ends with is a hit with the block to be dropped. -/
theorem ScanResult.eagleHit (hpos : 0 < computed.length) :
    EagleHit p blockHashes groupIds maxLength blockSize window alignmentTokens
      ((computed.length - 1) * blockSize) := by
  have hlen : computed.length - 1 + 1 = computed.length := Nat.sub_add_cancel hpos
  rw [eagleHit_mul_iff u, hlen, ← contiguousBlocksForHit_true]
  refine ⟨h.runEnd hpos, h.le, fun j hj hw => ?_⟩
  obtain ⟨row, hrow, -⟩ := h.window j hj hw
  rw [hrow]
  rfl

theorem ScanResult.le_of_eagleHit {m : Nat} (hhit : EagleHit p blockHashes groupIds maxLength
    blockSize window alignmentTokens (m * blockSize)) : m + 1 ≤ computed.length := by
  rw [eagleHit_mul_iff u, ← contiguousBlocksForHit_true] at hhit
  obtain ⟨hend, hle, hcached⟩ := hhit
  exact Nat.le_of_not_lt fun hlt => h.above (m + 1) hle hlt hend hcached

theorem ScanResult.isLongest :
    IsLongestEagleHit p blockHashes groupIds maxLength blockSize window alignmentTokens
      ((computed.length - 1) * blockSize) := by
  constructor
  · rcases Nat.eq_zero_or_pos computed.length with hnil | hpos
    · rw [hnil]
      exact .inr (Nat.zero_mul _)
    · exact .inl (h.eagleHit u hpos)
  · intro length' hhit
    obtain ⟨-, m, rfl, -⟩ := id hhit
    exact Nat.mul_le_mul_right _ (Nat.le_sub_of_add_le (h.le_of_eagleHit u hhit))

/-- The scan has found a run that is long enough just if there is a hit that is not shorter than the
window. -/
theorem ScanResult.found_iff :
    found = true ↔ ∃ length, EagleHit p blockHashes groupIds maxLength blockSize window
      alignmentTokens length ∧ window - 1 ≤ length := by
  have hwindow : ∀ m, cdiv (window - 1) blockSize ≤ m ↔ window - 1 ≤ m * blockSize :=
    fun m => cdiv_le_iff u.block_pos
  have hlong := h.long
  have hshort := h.short
  rw [contiguousBlocksForHit_true] at hlong hshort
  constructor
  · intro hfound
    have hlong := hlong hfound
    exact ⟨_, h.eagleHit u (Nat.lt_of_lt_of_le (Nat.succ_pos _) hlong),
      (hwindow _).1 (Nat.le_sub_of_add_le hlong)⟩
  · rintro ⟨length, hhit, hle⟩
    obtain ⟨-, m, rfl, -⟩ := id hhit
    have hm := h.le_of_eagleHit u hhit
    rw [← hwindow] at hle
    cases found with
    | true => rfl
    | false =>
      have hshort := hshort rfl
      omega

/-- What is left of the run is the longest hit just if nothing but the drop was to be done. -/
theorem ScanResult.isLongest_afterDrop_iff (hdvd : blockSize ∣ alignmentTokens) :
    IsLongestEagleHit p blockHashes groupIds maxLength blockSize window alignmentTokens
        ((afterDrop blockSize alignmentTokens found computed).length * blockSize) ↔
      found = true ∨ blockSize = alignmentTokens ∨ computed.length ≤ 1 := by
  have hlongest := h.isLongest u
  constructor
  · intro hafter
    have hlength := Nat.mul_right_cancel u.block_pos (hafter.unique hlongest)
    by_contra hkeep
    simp only [not_or, Bool.not_eq_true, Nat.not_le] at hkeep
    obtain ⟨rfl, hne, hlt⟩ := hkeep
    have hshort := length_afterDrop_of_short hdvd (h.runEnd (Nat.zero_lt_of_lt hlt)) hne hlt
    omega
  · intro hkeep
    have hlength : (afterDrop blockSize alignmentTokens found computed).length =
        computed.length - 1 := by
      rcases hkeep with hfound | heq | hle
      · exact length_afterDrop h.runEnd (.inl hfound)
      · exact length_afterDrop h.runEnd (.inr heq)
      have hdrop := length_afterDrop_le blockSize alignmentTokens found computed
      omega
    rw [hlength]
    exact hlongest

end Scan

section

variable (u : Units p.hashBlockSize blockSize alignmentTokens)
  (hlook : ∀ j < maxLength / blockSize,
    lookup p blockHashes groupIds (blockSize / p.hashBlockSize) j ≠ none)
include u hlook

/-- With the drop, the block behind the hit was found in the pool. -/
theorem slidingWindowHit_drop (window : Nat) :
    ∃ rows l, slidingWindowHit p blockHashes maxLength groupIds blockSize window true
        alignmentTokens = some (rows, l) ∧ alignmentTokens ∣ l ∧
      (l = 0 ∨ l + blockSize ≤ maxLength ∧
        BoundaryCached p blockHashes groupIds (l + blockSize)) := by
  obtain ⟨found, computed, hres, hhit⟩ := slidingWindowHit_scan groupIds u hlook window true
  refine ⟨_, (afterDrop blockSize alignmentTokens found computed).length * blockSize, hhit,
    afterDrop_aligned, ?_⟩
  have hle := length_afterDrop_le blockSize alignmentTokens found computed
  have hlong : found = true → _ := fun hfound => length_afterDrop hres.runEnd (.inl hfound)
  generalize (afterDrop blockSize alignmentTokens found computed).length = n at hle hlong ⊢
  rcases Nat.eq_zero_or_pos n with rfl | hpos
  · exact .inl (Nat.zero_mul _)
  right
  -- a run that is long enough loses its last block only; a shorter one starts at the first block,
  -- so that all its blocks are cached
  have hin : computed.length ≤ n + max (contiguousBlocksForHit window blockSize true) 1 := by
    cases found with
    | false =>
      have := hres.short rfl
      omega
    | true =>
      have := hlong rfl
      omega
  obtain ⟨row, hrow, -⟩ := hres.window n (by omega) hin
  rw [lookup_join u.hash_dvd u.block_pos, Nat.add_mul, Nat.one_mul] at hrow
  refine ⟨?_, by rw [BoundaryCached, hrow]; rfl⟩
  have hblocks : n + 1 ≤ maxLength / blockSize := Nat.le_trans (by omega) hres.le
  rw [Nat.le_div_iff_mul_le u.block_pos, Nat.add_mul, Nat.one_mul] at hblocks
  exact hblocks

/-- With the drop, a hit of `e` blocks that is long enough and has nothing behind it is found. -/
theorem slidingWindowHit_drop_eq (hdvd : blockSize ∣ alignmentTokens) {e : Nat}
    (hhit : EagleHit p blockHashes groupIds maxLength blockSize window alignmentTokens
      (e * blockSize)) (hlong : window - 1 ≤ e * blockSize)
    (hnone : ∀ j, e < j → j < maxLength / blockSize →
      ¬ BoundaryCached p blockHashes groupIds ((j + 1) * blockSize)) :
    ∃ rows, slidingWindowHit p blockHashes maxLength groupIds blockSize window true
      alignmentTokens = some (rows, e * blockSize) := by
  obtain ⟨found, computed, hres, hrun⟩ := slidingWindowHit_scan groupIds u hlook window true
  have hleft := (hres.isLongest_afterDrop_iff u hdvd).2
    (.inl ((hres.found_iff u).2 ⟨_, hhit, hlong⟩))
  have hlongest : IsLongestEagleHit p blockHashes groupIds maxLength blockSize window
      alignmentTokens (e * blockSize) := by
    refine ⟨.inl hhit, ?_⟩
    rintro _ ⟨-, m, rfl, hle, hcached, -⟩
    exact Nat.mul_le_mul_right _ (Nat.le_of_not_lt fun hlt => hnone m hlt hle hcached)
  rw [← hleft.unique hlongest]
  exact ⟨_, hrun⟩

end

end Result

/-- The lookup returns the longest hit just if the hashes cover the limit and, with hits aligned to
more than a block, the longest hit is empty or not shorter than the window. -/
theorem slidingWindowHit_longest_iff (u : Units p.hashBlockSize blockSize alignmentTokens)
    (hdvd : blockSize ∣ alignmentTokens) (blockHashes : List H) (groupIds : List Nat)
    (maxLength window : Nat) :
    (∃ rows length, slidingWindowHit p blockHashes maxLength groupIds blockSize window true
        alignmentTokens = some (rows, length) ∧
      IsLongestEagleHit p blockHashes groupIds maxLength blockSize window alignmentTokens length) ↔
    maxLength / blockSize * (blockSize / p.hashBlockSize) ≤ blockHashes.length ∧
      (blockSize = alignmentTokens ∨
        ∀ length, EagleHit p blockHashes groupIds maxLength blockSize window
          alignmentTokens length →
          0 < length → ∃ length', EagleHit p blockHashes groupIds maxLength blockSize window
            alignmentTokens length' ∧ window - 1 ≤ length') := by
  rw [← lookups_iff u]
  constructor
  · rintro ⟨rows, length, hrun, hlongest⟩
    have hlook := slidingWindowHit_lookups u hrun
    obtain ⟨found, computed, hres, hhit⟩ := slidingWindowHit_scan groupIds u hlook window true
    refine ⟨hlook, ?_⟩
    rw [hhit, Option.some.injEq, Prod.mk.injEq] at hrun
    rw [← hrun.2] at hlongest
    rcases (hres.isLongest_afterDrop_iff u hdvd).1 hlongest with hf | heq | hle
    · exact .inr fun _ _ _ => (hres.found_iff u).1 hf
    · exact .inl heq
    refine .inr fun length hlength hpos => ?_
    obtain ⟨-, m, rfl, -⟩ := id hlength
    have hm := hres.le_of_eagleHit u hlength
    have hzero : m = 0 := by omega
    rw [hzero, Nat.zero_mul] at hpos
    exact absurd hpos (Nat.lt_irrefl 0)
  · rintro ⟨hlook, hcond⟩
    obtain ⟨found, computed, hres, hhit⟩ := slidingWindowHit_scan groupIds u hlook window true
    refine ⟨_, _, hhit, (hres.isLongest_afterDrop_iff u hdvd).2 ?_⟩
    rcases hcond with heq | hall
    · exact .inr (.inl heq)
    by_cases hle : computed.length ≤ 1
    · exact .inr (.inr hle)
    have hpos : 0 < (computed.length - 1) * blockSize :=
      Nat.mul_pos (by omega) u.block_pos
    exact .inl ((hres.found_iff u).2 (hall _ (hres.eagleHit u (by omega)) hpos))

/-- Three blocks of 16 tokens. -/
def threeBlocks : BlockPool Nat :=
  HybridConfig.poolWith 16 [(⟨1, 0⟩, 1), (⟨2, 0⟩, 2), (⟨3, 0⟩, 3)]

/-- A window of 128 tokens and hits aligned to 32: with the three blocks of 48 tokens cached the
first 32 tokens are a hit, but the lookup returns none. -/
theorem short_run_lost :
    slidingWindowHit threeBlocks [1, 2, 3] 48 [0] 16 128 true 32 = some ([], 0) ∧
      EagleHit threeBlocks [1, 2, 3] [0] 48 16 128 32 32 :=
  ⟨by decide +kernel, by decide, 2, rfl, by decide, by decide, by decide⟩

/-- With a window of 17 tokens the same blocks give 32 tokens. -/
theorem slidingWindowHit_longest_narrow :
    Units threeBlocks.hashBlockSize 16 32 ∧ 16 ∣ 32 ∧
      ∃ rows length, slidingWindowHit threeBlocks [1, 2, 3] 48 [0] 16 17 true 32 =
          some (rows, length) ∧ IsLongestEagleHit threeBlocks [1, 2, 3] [0] 48 16 17 32 length := by
  have u : Units threeBlocks.hashBlockSize 16 32 :=
    ⟨by decide, by decide, by decide, by decide, .inr (by decide)⟩
  refine ⟨u, by decide, (slidingWindowHit_longest_iff u (by decide) [1, 2, 3] [0] 48 17).2
    ⟨by decide, .inr fun _ _ _ => ⟨32, ?_, by decide⟩⟩⟩
  exact ⟨by decide, 2, rfl, by decide, by decide, by decide⟩

end Vllm.Lookup
