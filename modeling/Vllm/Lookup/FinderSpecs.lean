import Vllm.Lookup.Finders

/-!
# What the lookups find

Everything is stated with the boundaries of the request's prefix: the hash of
the first `b` tokens, where `b` is a multiple of the hash block size. A lookup
without EAGLE drop finds the largest aligned length at which its attention type
has what it needs:

* `fullAttentionHit_spec`: all blocks up to the length (`FullValid`);
* `slidingWindowHit_spec`: the blocks of the window before it (`SlidingValid`);
* `mambaHit_spec`: the state at it (`MambaValid`).

With EAGLE drop a full attention lookup has also seen the drop unit after the length
(`fullAttentionHit_drop`).
-/

namespace Vllm.Lookup

open Library Pool List

variable {H : Type} (p : BlockPool H) (blockHashes : List H)
  (groupIds : List Nat) {look : Nat → Option (Option Row)} {n i j : Nat} {row : Row}

/-! ## Boundaries -/

/-- The blocks cached for the prefix of `b` tokens, one for each group. Only
non-empty prefixes of whole hash blocks have a hash. -/
def boundaryRow (b : Nat) : Option Row :=
  if p.hashBlockSize ∣ b ∧ 0 < b then
    (blockHashes[b / p.hashBlockSize - 1]?).bind fun h => p.getCachedBlock h groupIds
  else none

/-- The prefix of `b` tokens is cached for every group. -/
def BoundaryCached (b : Nat) : Prop := (boundaryRow p blockHashes groupIds b).isSome = true

instance : DecidablePred (BoundaryCached p blockHashes groupIds) := fun b =>
  inferInstanceAs (Decidable ((boundaryRow p blockHashes groupIds b).isSome = true))

/-- Full attention: each block that covers a part of the first `length` tokens is
cached under a boundary that reaches far enough and is at most `bound`. -/
def FullValid (blockSize bound length : Nat) : Prop :=
  ∀ j, j * blockSize < length → ∃ b, min length ((j + 1) * blockSize) ≤ b ∧
    b ≤ (j + 1) * blockSize ∧ b ≤ bound ∧ BoundaryCached p blockHashes groupIds b

/-- Sliding window: each block that overlaps the last `window - 1` tokens before
the length is cached, and at least the last block. -/
def SlidingValid (blockSize window length : Nat) : Prop :=
  ∀ j, j * blockSize < length → length < (j + 1) * blockSize + max (window - 1) 1 →
    BoundaryCached p blockHashes groupIds ((j + 1) * blockSize)

/-- Mamba: the state at the length is cached. -/
def MambaValid (length : Nat) : Prop := length = 0 ∨ BoundaryCached p blockHashes groupIds length

section Boundaries

variable {p blockHashes groupIds} {blockSize bound bound' length length' : Nat}

theorem FullValid.mono (h : FullValid p blockHashes groupIds blockSize bound length)
    (hl : length' ≤ length) (hb : bound ≤ bound') :
    FullValid p blockHashes groupIds blockSize bound' length' := by
  intro j hj
  obtain ⟨b, hlo, hhi, hbd, hc⟩ := h j (Nat.lt_of_lt_of_le hj hl)
  exact ⟨b, by omega, hhi, Nat.le_trans hbd hb, hc⟩

theorem resolveScale_false (hb : 0 < blockSize) (al : Nat) :
    resolveScale p.hashBlockSize blockSize false al = blockSize / p.hashBlockSize := by
  unfold resolveScale
  split
  · next h => rw [← h, Nat.div_self hb]
  · simp

theorem resolveScale_of_not_fineGrained (hb : 0 < blockSize) {al : Nat}
    (hf : fineGrained al blockSize = false) (s : Bool) :
    resolveScale p.hashBlockSize blockSize s al = blockSize / p.hashBlockSize := by
  unfold resolveScale
  split
  · next h => rw [← h, Nat.div_self hb]
  · simp [hf]

/-- Entry `i` of the view at a block size is the boundary at the end of block `i`. -/
theorem lookup_join (hd : p.hashBlockSize ∣ blockSize) (hb : 0 < blockSize) (i : Nat) :
    (lookup p blockHashes groupIds (blockSize / p.hashBlockSize) i).join =
      boundaryRow p blockHashes groupIds ((i + 1) * blockSize) := by
  have hdvd : p.hashBlockSize ∣ (i + 1) * blockSize := Nat.dvd_mul_left_of_dvd hd _
  have hpos : 0 < (i + 1) * blockSize := Nat.mul_pos (Nat.succ_pos i) hb
  rw [lookup, boundaryRow, if_pos ⟨hdvd, hpos⟩, Nat.mul_div_assoc _ hd]
  cases blockHashes[(i + 1) * (blockSize / p.hashBlockSize) - 1]? <;> rfl

theorem lookup_one_join (hpos : 0 < p.hashBlockSize) (i : Nat) :
    (lookup p blockHashes groupIds 1 i).join =
      boundaryRow p blockHashes groupIds ((i + 1) * p.hashBlockSize) := by
  rw [← lookup_join (Nat.dvd_refl p.hashBlockSize) hpos, Nat.div_self hpos]

/-- A cached boundary is one of the boundaries of the hashes. -/
theorem BoundaryCached.range {b : Nat} (h : BoundaryCached p blockHashes groupIds b) :
    p.hashBlockSize ∣ b ∧ b / p.hashBlockSize ≤ blockHashes.length := by
  unfold BoundaryCached boundaryRow at h
  split at h
  · next hb =>
    cases hh : blockHashes[b / p.hashBlockSize - 1]? with
    | none => simp [hh] at h
    | some x =>
      have := (List.getElem?_eq_some_iff.mp hh).1
      exact ⟨hb.1, by omega⟩
  · cases h

/-- The sizes a lookup works with: hits are aligned to the hash block size, or to
a multiple of the block size. -/
structure Units (hashBlockSize blockSize alignmentTokens : Nat) : Prop where
  hash_pos : 0 < hashBlockSize
  block_pos : 0 < blockSize
  hash_dvd : hashBlockSize ∣ blockSize
  align_pos : 0 < alignmentTokens
  align : alignmentTokens = hashBlockSize ∨ blockSize ∣ alignmentTokens

namespace Units

variable {hashBlockSize alignmentTokens : Nat} (u : Units hashBlockSize blockSize alignmentTokens)
include u

theorem eq_hash (hf : fineGrained alignmentTokens blockSize = true) :
    alignmentTokens = hashBlockSize := by
  rcases u.align with h | h
  · exact h
  have := Nat.le_of_dvd u.align_pos h
  simp only [fineGrained, decide_eq_true_eq] at hf
  omega

theorem block_dvd (hf : fineGrained alignmentTokens blockSize = false) :
    blockSize ∣ alignmentTokens := by
  rcases u.align with rfl | h
  · simp only [fineGrained, decide_eq_false_iff_not, not_and] at hf
    have hle : blockSize ≤ alignmentTokens := by
      by_contra hlt
      exact hf (Nat.lt_of_not_le hlt) (Nat.mod_eq_zero_of_dvd u.hash_dvd)
    exact Nat.le_antisymm (Nat.le_of_dvd u.block_pos u.hash_dvd) hle ▸ Nat.dvd_refl _
  · exact h

theorem hash_dvd_align : hashBlockSize ∣ alignmentTokens := by
  rcases u.align with h | h
  · exact h ▸ Nat.dvd_refl _
  · exact Nat.dvd_trans u.hash_dvd h

/-- The smaller of the two sizes divides both. -/
theorem unit_dvd_align : min alignmentTokens blockSize ∣ alignmentTokens := by
  rcases u.align with h | h
  · exact (Nat.min_eq_left (h ▸ Nat.le_of_dvd u.block_pos u.hash_dvd)).symm ▸ Nat.dvd_refl _
  · rwa [Nat.min_eq_right (Nat.le_of_dvd u.align_pos h)]

theorem unit_dvd_block : min alignmentTokens blockSize ∣ blockSize := by
  rcases u.align with h | h
  · rw [Nat.min_eq_left (h ▸ Nat.le_of_dvd u.block_pos u.hash_dvd)]
    exact h ▸ u.hash_dvd
  · exact (Nat.min_eq_right (Nat.le_of_dvd u.align_pos h)).symm ▸ Nat.dvd_refl _

theorem hash_dvd_unit : hashBlockSize ∣ min alignmentTokens blockSize := by
  rcases Nat.le_total alignmentTokens blockSize with h | h
  · rw [Nat.min_eq_left h]
    exact u.hash_dvd_align
  · rw [Nat.min_eq_right h]
    exact u.hash_dvd

end Units

end Boundaries

/-! ## Full attention -/

theorem cachedRun_length_le (look : Nat → Option (Option Row)) (n i : Nat) :
    (cachedRun look n i).length ≤ n := by
  induction n generalizing i with
  | zero => exact Nat.le_refl 0
  | succ n ih =>
    rw [cachedRun]
    split
    · exact Nat.zero_le _
    · exact Nat.succ_le_succ (ih (i + 1))

theorem cachedRun_getElem?
    (h : (cachedRun look n i)[j]? = some row) : (look (i + j)).join = some row := by
  induction n generalizing i j with
  | zero => simp [cachedRun] at h
  | succ n ih =>
    cases hl : (look i).join with
    | none => simp [cachedRun, hl] at h
    | some r =>
      simp only [cachedRun, hl] at h
      cases j with
      | zero =>
        simp only [getElem?_cons_zero] at h
        rw [Nat.add_zero, hl, h]
      | succ j =>
        rw [← ih h, Nat.add_assoc, Nat.add_comm 1 j]

theorem cachedRun_stop (h : (cachedRun look n i).length < n) :
    (look (i + (cachedRun look n i).length)).join = none := by
  induction n generalizing i with
  | zero => exact absurd h (Nat.not_lt_zero _)
  | succ n ih =>
    cases hl : (look i).join with
    | none => simp [cachedRun, hl]
    | some r =>
      simp only [cachedRun, hl, length_cons] at h ⊢
      have := ih (Nat.lt_of_succ_lt_succ h)
      rwa [Nat.add_assoc, Nat.add_comm 1] at this

/-- The rows of a full attention hit, with the boundaries they are cached under. -/
structure FullRows (blockSize bound length : Nat) (rows : List Row) : Prop where
  length_eq : rows.length = cdiv length blockSize
  cached : ∀ j row, rows[j]? = some row → ∃ b, min length ((j + 1) * blockSize) ≤ b ∧
    b ≤ (j + 1) * blockSize ∧ b ≤ bound ∧ boundaryRow p blockHashes groupIds b = some row

section FullAttention

variable {p blockHashes groupIds} {blockSize alignmentTokens maxLength bound length : Nat}
  {rows : List Row}

theorem FullRows.valid (hb : 0 < blockSize)
    (h : FullRows p blockHashes groupIds blockSize bound length rows) :
    FullValid p blockHashes groupIds blockSize bound length := by
  intro j hj
  have hlt : j < rows.length := by
    rw [h.length_eq]
    exact (lt_cdiv_iff hb).mpr hj
  obtain ⟨b, hlo, hhi, hbd, hrow⟩ := h.cached j rows[j] (getElem?_eq_getElem hlt)
  exact ⟨b, hlo, hhi, hbd, by rw [BoundaryCached, hrow]; rfl⟩

theorem FullRows.mono_bound {bound' : Nat} (hb : bound ≤ bound')
    (h : FullRows p blockHashes groupIds blockSize bound length rows) :
    FullRows p blockHashes groupIds blockSize bound' length rows := by
  refine ⟨h.length_eq, fun j row hj => ?_⟩
  obtain ⟨b, hlo, hhi, hbd, hrow⟩ := h.cached j row hj
  exact ⟨b, hlo, hhi, Nat.le_trans hbd hb, hrow⟩

/-- A valid length lies within the hashes. -/
theorem FullValid.div_le (hb : 0 < blockSize)
    (h : FullValid p blockHashes groupIds blockSize bound length) :
    length / p.hashBlockSize ≤ blockHashes.length := by
  rcases Nat.eq_zero_or_pos length with rfl | hl
  · simp
  -- the block of the last token
  have hlo := Nat.div_mul_le_self (length - 1) blockSize
  have hhi := Nat.lt_div_mul_add (a := length - 1) hb
  obtain ⟨b, hb1, -, -, hc⟩ := h ((length - 1) / blockSize) (by omega)
  have hle : length ≤ b := by
    rw [Nat.add_mul] at hb1
    omega
  exact Nat.le_trans (Nat.div_le_div_right hle) hc.range.2

/-- Rows that are cut to a shorter length still cover it. -/
theorem FullRows.take (hb : 0 < blockSize) {length' : Nat} (hle : length' ≤ length)
    (h : FullRows p blockHashes groupIds blockSize bound length rows) :
    FullRows p blockHashes groupIds blockSize bound length'
      (rows.take (cdiv length' blockSize)) := by
  constructor
  · rw [length_take, h.length_eq]
    exact Nat.min_eq_left (cdiv_mono hb hle)
  intro j row hrow
  rw [getElem?_take] at hrow
  split at hrow
  · obtain ⟨b, hlo, hhi, hbd, hrow⟩ := h.cached j row hrow
    exact ⟨b, by omega, hhi, hbd, hrow⟩
  · cases hrow

/-- What both phases find: nothing longer is valid, and the rows cover it. -/
structure FullFound (p : BlockPool H) (blockHashes : List H) (groupIds : List Nat)
    (blockSize alignmentTokens maxLength : Nat) (found : List Row × Nat) : Prop where
  le : found.2 ≤ maxLength
  rows : FullRows p blockHashes groupIds blockSize maxLength found.2 found.1
  unit_dvd : min alignmentTokens blockSize ∣ found.2
  greatest : ∀ l ≤ maxLength, min alignmentTokens blockSize ∣ l →
    FullValid p blockHashes groupIds blockSize maxLength l → l ≤ found.2

/-- The run of blocks cached in full, with nothing cached in full behind it. -/
theorem cachedRun_spec (hb : 0 < blockSize)
    (hlook : ∀ i, (look i).join = boundaryRow p blockHashes groupIds ((i + 1) * blockSize))
    (maxLength : Nat) :
    let run := cachedRun look (maxLength / blockSize) 0
    run.length * blockSize ≤ maxLength ∧
    (∀ j row, run[j]? = some row → (j + 1) * blockSize ≤ run.length * blockSize ∧
      boundaryRow p blockHashes groupIds ((j + 1) * blockSize) = some row) ∧
    ((run.length + 1) * blockSize ≤ maxLength →
      ¬ BoundaryCached p blockHashes groupIds ((run.length + 1) * blockSize)) := by
  intro run
  refine ⟨?_, fun j row h => ⟨?_, ?_⟩, fun h => ?_⟩
  · calc run.length * blockSize ≤ maxLength / blockSize * blockSize :=
          Nat.mul_le_mul_right _ (cachedRun_length_le look _ 0)
      _ ≤ maxLength := Nat.div_mul_le_self _ _
  · exact Nat.mul_le_mul_right _ (List.getElem?_eq_some_iff.mp h).1
  · rw [← hlook, ← cachedRun_getElem? h, Nat.zero_add]
  · have hstop : (look (0 + run.length)).join = none :=
      cachedRun_stop ((Nat.le_div_iff_mul_le hb).mpr h)
    rw [Nat.zero_add, hlook] at hstop
    rw [BoundaryCached, hstop]
    exact Bool.false_ne_true

/-- The rows of the run alone. -/
theorem fullRows_run (hb : 0 < blockSize) {run : List Row}
    (hrows : ∀ j row, run[j]? = some row → (j + 1) * blockSize ≤ run.length * blockSize ∧
      boundaryRow p blockHashes groupIds ((j + 1) * blockSize) = some row)
    (hle : run.length * blockSize ≤ maxLength) :
    FullRows p blockHashes groupIds blockSize maxLength (run.length * blockSize) run := by
  refine ⟨(cdiv_mul_self hb _).symm, fun j row h => ?_⟩
  obtain ⟨hj, hrow⟩ := hrows j row h
  exact ⟨_, Nat.min_le_right _ _, Nat.le_refl _, Nat.le_trans hj hle, hrow⟩

/-- A valid length ends at most one block behind the run. -/
theorem FullValid.le_run_succ {l : Nat} (hl : l ≤ maxLength)
    (hv : FullValid p blockHashes groupIds blockSize maxLength l)
    (hstop : (n + 1) * blockSize ≤ maxLength →
      ¬ BoundaryCached p blockHashes groupIds ((n + 1) * blockSize)) :
    l < (n + 1) * blockSize ∨ l ≤ n * blockSize := by
  by_contra hcon
  obtain ⟨h1, h2⟩ := not_or.mp hcon
  obtain ⟨b, hlo, hhi, -, hc⟩ := hv n (Nat.lt_of_not_le h2)
  have hb : b = (n + 1) * blockSize := by omega
  exact hstop (by omega) (hb ▸ hc)

variable (u : Units p.hashBlockSize blockSize alignmentTokens)
include u

theorem fullFound_coarse (hf : fineGrained alignmentTokens blockSize = false) :
    FullFound p blockHashes groupIds blockSize alignmentTokens maxLength
      (fullAttentionFound p blockHashes maxLength groupIds blockSize alignmentTokens) := by
  obtain ⟨hle, hrows, hstop⟩ : _ ∧
    (∀ j row, _ → _ ∧ boundaryRow p blockHashes groupIds _ = _) ∧ _ :=
    cachedRun_spec u.block_pos (lookup_join u.hash_dvd u.block_pos) maxLength
  have hdvd := u.block_dvd hf
  simp only [fullAttentionFound, hf, Bool.false_eq_true, if_false,
    resolveScale_of_not_fineGrained u.block_pos hf]
  refine ⟨hle, fullRows_run u.block_pos hrows hle, ?_, fun l hl hal hv => ?_⟩
  · rw [Nat.min_eq_right (Nat.le_of_dvd u.align_pos hdvd)]
    exact Nat.dvd_mul_left _ _
  rcases hv.le_run_succ hl hstop with h | h
  · -- such a length is a number of whole blocks
    rw [Nat.min_eq_right (Nat.le_of_dvd u.align_pos hdvd)] at hal
    obtain ⟨k, rfl⟩ := hal
    rw [Nat.mul_comm] at h ⊢
    exact Nat.mul_le_mul_right _ (Nat.le_of_lt_succ (Nat.lt_of_mul_lt_mul_right h))
  · exact h

theorem fullFound_fine (hf : fineGrained alignmentTokens blockSize = true) :
    FullFound p blockHashes groupIds blockSize alignmentTokens maxLength
      (fullAttentionFound p blockHashes maxLength groupIds blockSize alignmentTokens) := by
  have hal := u.eq_hash hf
  subst hal
  have hpos := u.hash_pos
  have hlt : p.hashBlockSize < blockSize := by
    simp only [fineGrained, decide_eq_true_eq] at hf
    exact hf.1
  obtain ⟨s, hs⟩ := u.hash_dvd
  have hdiv : blockSize / p.hashBlockSize = s := by rw [hs, Nat.mul_div_cancel_left _ hpos]
  obtain ⟨hle, hrows, hstop⟩ : _ ∧
    (∀ j row, _ → _ ∧ boundaryRow p blockHashes groupIds _ = _) ∧ _ :=
    cachedRun_spec u.block_pos (lookup_join u.hash_dvd u.block_pos) maxLength
  simp only [fullAttentionFound, hf, if_true, extendTail, hdiv, lookup_one_join hpos]
  rw [hdiv] at hle hrows hstop
  generalize cachedRun (lookup p blockHashes groupIds s) (maxLength / blockSize) 0 = run
    at hle hrows hstop
  have hfirst : run.length * s * p.hashBlockSize = run.length * blockSize := by
    rw [hs, Nat.mul_comm p.hashBlockSize s, Nat.mul_assoc]
  have hnext : (run.length + 1) * blockSize = (run.length * s + s) * p.hashBlockSize := by
    rw [Nat.add_mul, ← hfirst, Nat.add_mul, hs, Nat.one_mul, Nat.mul_comm s]
  -- a valid length behind the run ends before a cached boundary that is probed
  have hprobed : ∀ l, FullValid p blockHashes groupIds blockSize maxLength l →
      run.length * blockSize < l →
      ∃ j < min (min (run.length * s + s - 1) (maxLength / p.hashBlockSize)) blockHashes.length -
        run.length * s, l ≤ (run.length * s + j + 1) * p.hashBlockSize ∧
        BoundaryCached p blockHashes groupIds ((run.length * s + j + 1) * p.hashBlockSize) := by
    intro l hv hl
    obtain ⟨b, hlo, hhi, hmax, hc⟩ := hv run.length hl
    have hb : b ≠ (run.length + 1) * blockSize := fun hb => hstop (hb ▸ hmax) (hb ▸ hc)
    obtain ⟨⟨k, rfl⟩, hlen⟩ := hc.range
    rw [Nat.mul_div_cancel_left _ hpos] at hlen
    rw [Nat.mul_comm p.hashBlockSize k] at hlo hhi hmax hb hc
    have hk1 : run.length * s < k :=
      Nat.lt_of_mul_lt_mul_right (hfirst ▸ by omega : _ * p.hashBlockSize < _)
    have hk2 : k < run.length * s + s :=
      Nat.lt_of_mul_lt_mul_right (hnext ▸ by omega : _ < _ * p.hashBlockSize)
    have hk3 : k ≤ maxLength / p.hashBlockSize := (Nat.le_div_iff_mul_le hpos).mpr hmax
    obtain ⟨j, rfl⟩ := Nat.exists_eq_add_of_lt hk1
    exact ⟨j, by omega, by omega, hc⟩
  cases hsearch : searchDown (fun j => boundaryRow p blockHashes groupIds
      ((run.length * s + j + 1) * p.hashBlockSize))
      (min (min (run.length * s + s - 1) (maxLength / p.hashBlockSize)) blockHashes.length -
        run.length * s) with
  | none =>
    rw [searchDown_eq_none] at hsearch
    simp only
    refine ⟨hle, fullRows_run u.block_pos hrows hle, ?_, fun l hl hal hv => ?_⟩
    · rw [Nat.min_eq_left (Nat.le_of_lt hlt)]
      exact Nat.dvd_trans u.hash_dvd (Nat.dvd_mul_left _ _)
    by_contra hcon
    obtain ⟨j, hj, -, hc⟩ := hprobed l hv (Nat.lt_of_not_le hcon)
    rw [BoundaryCached, hsearch j hj] at hc
    cases hc
  | some r =>
    obtain ⟨j, row⟩ := r
    obtain ⟨hj, hrow, hmax⟩ := searchDown_eq_some hsearch
    simp only
    have hlo : run.length * blockSize < (run.length * s + j + 1) * p.hashBlockSize := by
      rw [← hfirst]
      exact Nat.mul_lt_mul_of_pos_right (by omega) hpos
    have hhi : (run.length * s + j + 1) * p.hashBlockSize ≤ (run.length + 1) * blockSize := by
      rw [hnext]
      exact Nat.mul_le_mul_right _ (by omega)
    have hbd : (run.length * s + j + 1) * p.hashBlockSize ≤ maxLength :=
      (Nat.le_div_iff_mul_le hpos).mp (by omega)
    refine ⟨hbd, ⟨?_, fun i r hr => ?_⟩, ?_, fun l hl hal hv => ?_⟩
    · rw [length_append, cdiv_eq_succ u.block_pos hlo hhi]
      rfl
    · rcases Nat.lt_or_ge i run.length with hi | hi
      · rw [getElem?_append_left hi] at hr
        obtain ⟨hi', hr'⟩ := hrows i r hr
        exact ⟨_, Nat.min_le_right _ _, Nat.le_refl _, by omega, hr'⟩
      rw [getElem?_append_right hi] at hr
      obtain ⟨hi0, hr0⟩ := List.getElem?_eq_some_iff.mp hr
      have hi' : i = run.length := by
        have : i - run.length < 1 := hi0
        omega
      subst hi'
      simp only [Nat.sub_self, getElem?_cons_zero, Option.some.injEq] at hr
      exact ⟨_, Nat.min_le_left _ _, hhi, hbd, hr ▸ hrow⟩
    · rw [Nat.min_eq_left (Nat.le_of_lt hlt)]
      exact Nat.dvd_mul_left _ _
    · rcases Nat.lt_or_ge (run.length * blockSize) l with hl' | hl'
      · obtain ⟨i, hi, hli, hc⟩ := hprobed l hv hl'
        have hij : i ≤ j := by
          by_contra hcon
          rw [BoundaryCached, hmax i (Nat.lt_of_not_le hcon) hi] at hc
          cases hc
        exact Nat.le_trans hli (Nat.mul_le_mul_right _ (by omega))
      · omega

theorem fullAttentionFound_spec :
    FullFound p blockHashes groupIds blockSize alignmentTokens maxLength
      (fullAttentionFound p blockHashes maxLength groupIds blockSize alignmentTokens) := by
  cases hf : fineGrained alignmentTokens blockSize with
  | true => exact fullFound_fine u hf
  | false => exact fullFound_coarse u hf

/-- A full attention hit is aligned and covered by its rows, with or without the
drop. -/
theorem fullAttentionHit_rows (drop : Bool) :
    let r := fullAttentionHit p blockHashes maxLength groupIds blockSize drop alignmentTokens
    alignmentTokens ∣ r.2 ∧ r.2 ≤ maxLength ∧
      FullRows p blockHashes groupIds blockSize maxLength r.2 r.1 := by
  intro r
  have hfound : FullFound p blockHashes groupIds blockSize alignmentTokens maxLength _ :=
    fullAttentionFound_spec u
  have hle : r.2 ≤ (fullAttentionFound p blockHashes maxLength groupIds blockSize
      alignmentTokens).2 := by
    refine Nat.le_trans (Nat.sub_le _ _) ?_
    split
    · exact Nat.sub_le _ _
    · exact Nat.le_refl _
  exact ⟨Nat.dvd_sub_mod _, Nat.le_trans hle hfound.le, hfound.rows.take u.block_pos hle⟩

theorem fullAttentionHit_spec :
    IsFloor (fun l => alignmentTokens ∣ l ∧
        FullValid p blockHashes groupIds blockSize maxLength l) maxLength
      (fullAttentionHit p blockHashes maxLength groupIds blockSize false alignmentTokens).2 := by
  obtain ⟨hdvd, hle, hrows⟩ : _ ∧ _ ∧ FullRows p blockHashes groupIds blockSize maxLength _ _ :=
    fullAttentionHit_rows u false
  refine ⟨⟨hle, hdvd, hrows.valid u.block_pos⟩, fun l hl => ?_⟩
  have hfound := (fullAttentionFound_spec u).greatest l hl.1
    (Nat.dvd_trans u.unit_dvd_align hl.2.1) hl.2.2
  obtain ⟨k, rfl⟩ := hl.2.1
  have hk : k ≤ (fullAttentionFound p blockHashes maxLength groupIds blockSize
      alignmentTokens).2 / alignmentTokens :=
    (Nat.le_div_iff_mul_le u.align_pos).mpr (by rwa [Nat.mul_comm])
  simp only [fullAttentionHit, Bool.false_and, Bool.false_eq_true, if_false]
  have hmul := Nat.mul_le_mul_left alignmentTokens hk
  have hdiv := Nat.div_add_mod (fullAttentionFound p blockHashes maxLength groupIds blockSize
    alignmentTokens).2 alignmentTokens
  omega

/-- With the drop the hit was valid one drop unit further. -/
theorem fullAttentionHit_drop :
    let r := fullAttentionHit p blockHashes maxLength groupIds blockSize true alignmentTokens
    r.2 = 0 ∨ r.2 + min alignmentTokens blockSize ≤ maxLength ∧
      FullValid p blockHashes groupIds blockSize maxLength
        (r.2 + min alignmentTokens blockSize) := by
  intro r
  have hfound : FullFound p blockHashes groupIds blockSize alignmentTokens maxLength _ :=
    fullAttentionFound_spec u
  set f := (fullAttentionFound p blockHashes maxLength groupIds blockSize alignmentTokens).2
    with hf
  have hr : r.2 = (if 0 < f then f - min alignmentTokens blockSize else f) -
      (if 0 < f then f - min alignmentTokens blockSize else f) % alignmentTokens := by
    simp only [r, fullAttentionHit, Bool.true_and, decide_eq_true_eq, ← hf]
  rcases Nat.eq_zero_or_pos f with h0 | hpos
  · simp [hr, h0]
  right
  rw [if_pos hpos] at hr
  have hunit : min alignmentTokens blockSize ≤ f := Nat.le_of_dvd hpos hfound.unit_dvd
  have hle : r.2 + min alignmentTokens blockSize ≤ f := by omega
  exact ⟨Nat.le_trans hle hfound.le, (hfound.rows.valid u.block_pos).mono hle (Nat.le_refl _)⟩

end FullAttention

/-! ## Sliding window -/

/-- The last `need` of the first `e` blocks are cached. -/
def WindowCached (look : Nat → Option (Option Row)) (need e : Nat) : Prop :=
  ∀ j < e, e ≤ j + need → (look j).join.isSome = true

section Scan

variable {look : Nat → Option (Option Row)} {blockSize alignmentTokens need numBlocks : Nat}
  {drop : Bool} {null : Row} {computed : List Row}

/-- A run may end behind `e` blocks. -/
def RunEnd (blockSize alignmentTokens : Nat) (drop : Bool) (e : Nat) : Prop :=
  BlocksAligned blockSize alignmentTokens (if drop then e - 1 else e)

/-- The scan before it looks at the blocks below `i`, with a run of `n` blocks from
`i` on that is still too short. -/
structure ScanInv (look : Nat → Option (Option Row))
    (blockSize alignmentTokens need numBlocks : Nat)
    (drop : Bool) (null : Row) (i n : Nat) (computed : List Row) : Prop where
  fits : i + n ≤ numBlocks
  length_eq : computed.length = numBlocks
  nulls : ∀ j < i, computed[j]? = some null
  run : ∀ j, i ≤ j → j < i + n → ∃ row, (look j).join = some row ∧ computed[j]? = some row
  short : n < max need 1
  runEnd : 0 < n → RunEnd blockSize alignmentTokens drop (i + n)
  above : ∀ e ≤ numBlocks, i + n < e → RunEnd blockSize alignmentTokens drop e →
    ¬ WindowCached look (max need 1) e

/-- What the scan ends with: the last run that is long enough or starts at the
first block, and no such run behind it. -/
structure ScanResult (look : Nat → Option (Option Row)) (blockSize alignmentTokens need
    numBlocks : Nat) (drop : Bool) (null : Row) (found : Bool) (computed : List Row) : Prop where
  le : computed.length ≤ numBlocks
  nulls : ∀ j, j + max need 1 < computed.length → computed[j]? = some null
  window : ∀ j < computed.length, computed.length ≤ j + max need 1 →
    ∃ row, (look j).join = some row ∧ computed[j]? = some row
  long : found = true → max need 1 ≤ computed.length
  short : found = false → computed.length < max need 1
  runEnd : 0 < computed.length → RunEnd blockSize alignmentTokens drop computed.length
  above : ∀ e ≤ numBlocks, computed.length < e → RunEnd blockSize alignmentTokens drop e →
    ¬ WindowCached look (max need 1) e

theorem ScanInv.init : ScanInv look blockSize alignmentTokens need numBlocks drop null numBlocks 0
    (List.replicate numBlocks null) where
  fits := Nat.le_refl _
  length_eq := length_replicate
  nulls j hj := getElem?_replicate_of_lt hj
  run j hlo hhi := absurd hhi (by omega)
  short := by omega
  runEnd h := absurd h (Nat.lt_irrefl 0)
  above e hle hlt := absurd hlt (by omega)

section

variable (h : ScanInv look blockSize alignmentTokens need numBlocks drop null (i + 1) n computed)
include h

/-- The scan starts over below a block that no run goes through. -/
theorem ScanInv.restart
    (hno : ∀ e, i < e → e ≤ i + 1 + n → RunEnd blockSize alignmentTokens drop e →
      ¬ WindowCached look (max need 1) e) :
    ScanInv look blockSize alignmentTokens need numBlocks drop null i 0 computed where
  fits := by have := h.fits; omega
  length_eq := h.length_eq
  nulls j hj := h.nulls j (Nat.lt_succ_of_lt hj)
  run j hlo hhi := absurd hhi (by omega)
  short := by omega
  runEnd h := absurd h (Nat.lt_irrefl 0)
  above e hle hlt hend := by
    rcases Nat.lt_or_ge (i + 1 + n) e with he | he
    · exact h.above e hle he hend
    · exact hno e hlt he hend

/-- A miss ends every run that would need the block. -/
theorem ScanInv.miss (hm : (look i).join = none) :
    ScanInv look blockSize alignmentTokens need numBlocks drop null i 0 computed := by
  refine h.restart fun e hlt he _ hw => ?_
  have hs := h.short
  have := hw i hlt (by omega)
  rw [hm] at this
  cases this

omit h in
/-- A cached block that no run may end with is passed over. -/
theorem ScanInv.pass
    (h : ScanInv look blockSize alignmentTokens need numBlocks drop null (i + 1) 0 computed)
    (ha : ¬ BlocksAligned blockSize alignmentTokens (if drop then i else i + 1)) :
    ScanInv look blockSize alignmentTokens need numBlocks drop null i 0 computed := by
  refine h.restart fun e hlt he hend => ?_
  obtain rfl : e = i + 1 := Nat.le_antisymm he hlt
  exact absurd hend ha

/-- A cached block goes in front of the run. -/
theorem ScanInv.extend (hrow : (look i).join = some row) :
    (∀ j < i, (computed.set i row)[j]? = some null) ∧
    (∀ j, i ≤ j → j < i + (n + 1) →
      ∃ r, (look j).join = some r ∧ (computed.set i row)[j]? = some r) := by
  have hi : i < computed.length := by
    have := h.fits
    rw [h.length_eq]
    omega
  refine ⟨fun j hj => ?_, fun j hlo hhi => ?_⟩
  · rw [getElem?_set_ne (by omega)]
    exact h.nulls j (by omega)
  · rcases Nat.eq_or_lt_of_le hlo with rfl | hlt
    · exact ⟨row, hrow, getElem?_set_self hi⟩
    · obtain ⟨r, hr, hc⟩ := h.run j hlt (by omega)
      exact ⟨r, hr, by rw [getElem?_set_ne (by omega)]; exact hc⟩

/-- The run that the block at `i` makes longer may end where it ends. -/
theorem ScanInv.runEnd_succ
    (ha : ¬ (n = 0 ∧ ¬ BlocksAligned blockSize alignmentTokens (if drop then i else i + 1))) :
    RunEnd blockSize alignmentTokens drop (i + (n + 1)) := by
  have he : i + (n + 1) = i + 1 + n := by omega
  cases n with
  | zero => exact not_not.mp fun hn => ha ⟨rfl, hn⟩
  | succ n =>
    rw [he]
    exact h.runEnd (Nat.succ_pos n)

end

theorem slidingScan_spec (hlook : ∀ j < i, look j ≠ none)
    (h : ScanInv look blockSize alignmentTokens need numBlocks drop null i n computed) :
    ∃ r, slidingScan look blockSize alignmentTokens need drop i n computed = some r ∧
      ScanResult look blockSize alignmentTokens need numBlocks drop null r.1
        (if r.1 then r.2.2 else r.2.2.take r.2.1) := by
  -- induction on the blocks that are still to be looked at
  induction i generalizing n computed with
  | zero =>
    have hfits := h.fits
    have hlen : (computed.take n).length = n := by
      rw [length_take, h.length_eq]
      omega
    refine ⟨_, rfl, ?_⟩
    simp only [Bool.false_eq_true, if_false]
    have hrun : ∀ j < n, ∃ row, (look j).join = some row ∧ (computed.take n)[j]? = some row := by
      intro j hj
      obtain ⟨row, hr, hc⟩ := h.run j (Nat.zero_le j) (by omega)
      exact ⟨row, hr, by rw [getElem?_take, if_pos hj, hc]⟩
    have hs := h.short
    have hend := h.runEnd
    have habove := h.above
    rw [Nat.zero_add] at hend habove
    constructor <;> rw [hlen]
    · omega
    · omega
    · exact fun j hj _ => hrun j hj
    · exact fun hf => nomatch hf
    · exact fun _ => hs
    · exact hend
    · exact habove
  | succ i ih =>
    have hlook' : ∀ j < i, look j ≠ none := fun j hj => hlook j (Nat.lt_succ_of_lt hj)
    cases hl : look i with
    | none => exact absurd hl (hlook i (Nat.lt_succ_self i))
    | some c =>
      cases c with
      | none =>
        simp only [slidingScan, hl]
        exact ih hlook' (h.miss (by rw [hl]; rfl))
      | some row =>
        have hrow : (look i).join = some row := by rw [hl]; rfl
        obtain ⟨hnulls, hrun⟩ := h.extend hrow
        have hfits := h.fits
        have hshort := h.short
        have habove : ∀ e ≤ numBlocks, i + (n + 1) < e →
            RunEnd blockSize alignmentTokens drop e → ¬ WindowCached look (max need 1) e :=
          fun e hle hlt => h.above e hle (by omega)
        simp only [slidingScan, hl]
        by_cases ha : n = 0 ∧
            ¬ BlocksAligned blockSize alignmentTokens (if drop then i else i + 1)
        · rw [if_pos ha]
          obtain ⟨rfl, ha⟩ := ha
          exact ih hlook' (h.pass ha)
        rw [if_neg ha]
        have hend := h.runEnd_succ ha
        by_cases hneed : need ≤ n + 1
        · rw [if_pos hneed]
          refine ⟨_, rfl, ?_⟩
          simp only [if_true]
          have hlen : ((computed.set i row).take (i + (n + 1))).length = i + (n + 1) := by
            rw [length_take, length_set, h.length_eq]
            omega
          constructor <;> rw [hlen]
          · omega
          · intro j hj
            rw [getElem?_take, if_pos (by omega)]
            exact hnulls j (by omega)
          · intro j hj hw
            rw [getElem?_take, if_pos hj]
            exact hrun j (by omega) hj
          · omega
          · exact fun hf => nomatch hf
          · exact fun _ => hend
          · exact habove
        · rw [if_neg hneed]
          exact ih hlook' ⟨by omega, by rw [length_set]; exact h.length_eq, hnulls, hrun,
            by omega, fun _ => hend, habove⟩

theorem popUnaligned_of_aligned {rows : List Row}
    (h : 0 < rows.length → BlocksAligned blockSize alignmentTokens rows.length) :
    popUnaligned blockSize alignmentTokens rows = rows := by
  refine take_of_length_le ?_
  rcases Nat.eq_zero_or_pos rows.length with h0 | hpos
  · rw [h0]
    exact Nat.zero_le _
  · exact Nat.le_findGreatest (Nat.le_refl _) (h hpos)

theorem blocksAligned_iff :
    BlocksAligned blockSize alignmentTokens n ↔ alignmentTokens ∣ n * blockSize := by
  rw [Nat.dvd_iff_mod_eq_zero]
  refine ⟨fun h => h.elim (fun he => ?_) id, .inr⟩
  rw [he, Nat.mul_mod_left]

theorem popUnaligned_length_le (blockSize alignmentTokens : Nat) (rows : List Row) :
    (popUnaligned blockSize alignmentTokens rows).length ≤ rows.length := by
  exact length_take_le' _ _

theorem popUnaligned_aligned (rows : List Row) :
    alignmentTokens ∣ (popUnaligned blockSize alignmentTokens rows).length * blockSize := by
  have h0 : BlocksAligned blockSize alignmentTokens 0 := .inr (by simp)
  have h := isFloor_findGreatest (BlocksAligned blockSize alignmentTokens) h0 rows.length
  rw [popUnaligned, length_take, Nat.min_eq_left h.le]
  exact blocksAligned_iff.mp h.valid

end Scan

section SlidingWindow

variable {p blockHashes groupIds} {blockSize alignmentTokens window maxLength length : Nat}

/-- The rows of a sliding window hit: the blocks of the window, null before it. -/
structure SlidingRows (p : BlockPool H) (blockHashes : List H) (groupIds : List Nat)
    (blockSize window length : Nat) (rows : List Row) : Prop where
  length_eq : rows.length * blockSize = length
  rows_eq : ∀ j < rows.length, rows[j]? =
    if length < (j + 1) * blockSize + max (window - 1) 1 then
      boundaryRow p blockHashes groupIds ((j + 1) * blockSize)
    else some (nullRow groupIds)

/-- The blocks of the window, counted and by the tokens they overlap. -/
theorem window_iff (hb : 0 < blockSize) (window e j : Nat) :
    e ≤ j + max (cdiv (window - 1) blockSize) 1 ↔
      e * blockSize < (j + 1) * blockSize + max (window - 1) 1 := by
  rw [max_cdiv_one hb, le_add_cdiv_iff hb]

section

variable (u : Units p.hashBlockSize blockSize alignmentTokens)
include u

theorem lookup_ne_none_iff (j : Nat) :
    lookup p blockHashes groupIds (blockSize / p.hashBlockSize) j ≠ none ↔
      (j + 1) * (blockSize / p.hashBlockSize) ≤ blockHashes.length := by
  have hscale : 0 < blockSize / p.hashBlockSize :=
    Nat.div_pos (Nat.le_of_dvd u.block_pos u.hash_dvd) u.hash_pos
  have hpos := Nat.mul_pos (Nat.succ_pos j) hscale
  simp only [lookup, ne_eq, Option.map_eq_none_iff, List.getElem?_eq_none_iff, Nat.not_le]
  exact ⟨fun h => Nat.le_of_pred_lt h, fun h => Nat.sub_one_lt_of_le hpos h⟩

/-- No index error up to a length that the hashes cover. -/
theorem lookup_ne_none (hlen : maxLength / p.hashBlockSize ≤ blockHashes.length)
    (hj : j < maxLength / blockSize) :
    lookup p blockHashes groupIds (blockSize / p.hashBlockSize) j ≠ none := by
  rw [lookup_ne_none_iff u]
  refine Nat.le_trans ?_ hlen
  rw [Nat.le_div_iff_mul_le u.hash_pos, Nat.mul_assoc, Nat.div_mul_cancel u.hash_dvd]
  exact Nat.le_trans (Nat.mul_le_mul_right _ hj) (Nat.div_mul_le_self _ _)

/-- A scan that does not raise has no index error anywhere: it starts at the last
block. -/
theorem slidingWindowHit_lookups {drop : Bool} {r : List Row × Nat}
    (h : slidingWindowHit p blockHashes maxLength groupIds blockSize window drop alignmentTokens =
      some r) :
    ∀ j < maxLength / blockSize,
      lookup p blockHashes groupIds (blockSize / p.hashBlockSize) j ≠ none := by
  intro j hj
  obtain ⟨n, hn⟩ := Nat.exists_eq_add_of_lt (Nat.zero_lt_of_lt hj)
  have htop : lookup p blockHashes groupIds (blockSize / p.hashBlockSize) n ≠ none := by
    intro hnone
    simp [slidingWindowHit, resolveScale_false u.block_pos, hn, slidingScan, hnone] at h
  rw [lookup_ne_none_iff u] at htop ⊢
  exact Nat.le_trans (Nat.mul_le_mul_right _ (by omega)) htop

omit u in
/-- The scan of a sliding window lookup. -/
theorem slidingWindowHit_scan (groupIds : List Nat)
    (u : Units p.hashBlockSize blockSize alignmentTokens)
    (hlook : ∀ j < maxLength / blockSize,
      lookup p blockHashes groupIds (blockSize / p.hashBlockSize) j ≠ none)
    (window : Nat) (drop : Bool) :
    ∃ found computed, ScanResult
      (lookup p blockHashes groupIds (blockSize / p.hashBlockSize)) blockSize alignmentTokens
        (contiguousBlocksForHit window blockSize drop) (maxLength / blockSize) drop
        (nullRow groupIds) found computed ∧
      slidingWindowHit p blockHashes maxLength groupIds blockSize window drop alignmentTokens =
        let computed :=
          if found then computed else popUnaligned blockSize alignmentTokens computed
        let computed :=
          if drop && !computed.isEmpty then
            popUnaligned blockSize alignmentTokens computed.dropLast
          else computed
        some (computed, computed.length * blockSize) := by
  have hinit : ScanInv (lookup p blockHashes groupIds (blockSize / p.hashBlockSize)) blockSize
      alignmentTokens (contiguousBlocksForHit window blockSize drop) (maxLength / blockSize) drop
      (nullRow groupIds) (maxLength / blockSize) 0 _ := ScanInv.init
  obtain ⟨⟨found, n, rows⟩, hscan, hres⟩ := slidingScan_spec hlook hinit
  refine ⟨found, if found then rows else rows.take n, hres, ?_⟩
  simp only [slidingWindowHit, resolveScale_false u.block_pos, hscan, Option.map_some]
  cases found <;> rfl

omit u in
theorem contiguousBlocksForHit_false (window blockSize : Nat) :
    contiguousBlocksForHit window blockSize false = cdiv (window - 1) blockSize := rfl

/-- The counted window of an aligned length is the window of its tokens. -/
theorem windowCached_iff (window e : Nat) :
    WindowCached (lookup p blockHashes groupIds (blockSize / p.hashBlockSize))
        (max (cdiv (window - 1) blockSize) 1) e ↔
      SlidingValid p blockHashes groupIds blockSize window (e * blockSize) := by
  unfold WindowCached SlidingValid BoundaryCached
  simp only [lookup_join u.hash_dvd u.block_pos, window_iff u.block_pos,
    Nat.mul_lt_mul_right u.block_pos]

theorem slidingWindowHit_spec (hdvd : blockSize ∣ alignmentTokens)
    (hlook : ∀ j < maxLength / blockSize,
      lookup p blockHashes groupIds (blockSize / p.hashBlockSize) j ≠ none) (window : Nat) :
    ∃ rows l, slidingWindowHit p blockHashes maxLength groupIds blockSize window false
        alignmentTokens = some (rows, l) ∧
      IsFloor (fun l => alignmentTokens ∣ l ∧
        SlidingValid p blockHashes groupIds blockSize window l) maxLength l ∧
      SlidingRows p blockHashes groupIds blockSize window l rows := by
  obtain ⟨found, computed, hres, hhit⟩ :=
    slidingWindowHit_scan groupIds u hlook window false
  have hend : 0 < computed.length → BlocksAligned blockSize alignmentTokens computed.length :=
    hres.runEnd
  have hal : alignmentTokens ∣ computed.length * blockSize := by
    rcases Nat.eq_zero_or_pos computed.length with h0 | hpos
    · simp [h0]
    · exact blocksAligned_iff.mp (hend hpos)
  simp only [popUnaligned_of_aligned hend, ite_self, Bool.false_and, Bool.false_eq_true,
    if_false] at hhit
  rw [contiguousBlocksForHit_false] at hres
  have hwindow : ∀ j < computed.length, computed.length ≤
      j + max (cdiv (window - 1) blockSize) 1 → ∃ row,
      boundaryRow p blockHashes groupIds ((j + 1) * blockSize) = some row ∧
        computed[j]? = some row := by
    simpa only [lookup_join u.hash_dvd u.block_pos] using hres.window
  refine ⟨computed, _, hhit, ⟨⟨?_, hal, ?_⟩, ?_⟩, rfl, fun j hj => ?_⟩
  · exact Nat.le_trans (Nat.mul_le_mul_right _ hres.le) (Nat.div_mul_le_self _ _)
  · intro j hj hw
    obtain ⟨row, hr, -⟩ := hwindow j (Nat.lt_of_mul_lt_mul_right hj)
      ((window_iff u.block_pos _ _ _).mpr hw)
    rw [BoundaryCached, hr]
    rfl
  · rintro l ⟨hl, hal', hv⟩
    obtain ⟨e, rfl⟩ := Nat.dvd_trans hdvd hal'
    rw [Nat.mul_comm] at hl hal' hv ⊢
    refine Nat.mul_le_mul_right _ (Nat.le_of_not_lt fun hlt => ?_)
    exact hres.above e ((Nat.le_div_iff_mul_le u.block_pos).mpr hl) hlt
      (blocksAligned_iff.mpr hal') ((windowCached_iff u window e).mpr hv)
  · split
    · next hw =>
      obtain ⟨row, hr, hc⟩ := hwindow j hj ((window_iff u.block_pos _ _ _).mpr hw)
      rw [hr, hc]
    · next hw =>
      exact hres.nulls j (Nat.lt_of_not_le fun h => hw ((window_iff u.block_pos _ _ _).mp h))

end

end SlidingWindow

/-! ## Mamba -/

section Mamba

variable {p blockHashes groupIds} {blockSize alignmentTokens maxLength length : Nat}

/-- The rows of a Mamba hit: the block with the state, null before it. -/
structure MambaRows (p : BlockPool H) (blockHashes : List H) (groupIds : List Nat)
    (blockSize length : Nat) (rows : List Row) : Prop where
  length_eq : rows.length = cdiv length blockSize
  rows_eq : ∀ j < rows.length, rows[j]? =
    if length ≤ (j + 1) * blockSize then boundaryRow p blockHashes groupIds length
    else some (nullRow groupIds)

/-- The greatest length with a state, and its rows. -/
def MambaFound (p : BlockPool H) (blockHashes : List H) (groupIds : List Nat)
    (blockSize alignmentTokens maxLength : Nat) (hit : Option (List Row × Nat)) : Prop :=
  ∃ rows l, hit = some (rows, l) ∧
    IsFloor (fun l => alignmentTokens ∣ l ∧ MambaValid p blockHashes groupIds l) maxLength l ∧
    MambaRows p blockHashes groupIds blockSize l rows

theorem MambaRows.nil (hb : 0 < blockSize) : MambaRows p blockHashes groupIds blockSize 0 [] :=
  ⟨(cdiv_zero hb).symm, fun _ h => absurd h (Nat.not_lt_zero _)⟩

theorem mambaRows_stateRows (hb : 0 < blockSize) {blockIdx : Nat}
    (hlo : blockIdx * blockSize < length) (hhi : length ≤ (blockIdx + 1) * blockSize)
    (hrow : boundaryRow p blockHashes groupIds length = some row) :
    MambaRows p blockHashes groupIds blockSize length (stateRows groupIds blockIdx row) := by
  have hlen : (stateRows groupIds blockIdx row).length = blockIdx + 1 := by
    simp [stateRows]
  refine ⟨by rw [hlen, cdiv_eq_succ hb hlo hhi], fun j hj => ?_⟩
  rw [hlen] at hj
  rcases Nat.lt_or_eq_of_le (Nat.le_of_lt_succ hj) with hlt | rfl
  · have hnull : ¬ length ≤ (j + 1) * blockSize := by
      have : (j + 1) * blockSize ≤ blockIdx * blockSize := Nat.mul_le_mul_right _ hlt
      omega
    rw [if_neg hnull, stateRows, getElem?_append_left (by simpa using hlt),
      getElem?_replicate_of_lt hlt]
  · rw [if_pos hhi, hrow, stateRows]
    simp

section

variable (u : Units p.hashBlockSize blockSize alignmentTokens)
include u

/-- A Mamba lookup in steps of `unit` tokens, with the block that holds the state of
each step. -/
theorem mambaHit_of_search {f : Nat → Option Row} {unit : Nat} {blockIdx : Nat → Nat}
    (hidx : ∀ i, blockIdx i * blockSize < (i + 1) * unit ∧
      (i + 1) * unit ≤ (blockIdx i + 1) * blockSize)
    (hrow : ∀ i row, f i = some row →
      boundaryRow p blockHashes groupIds ((i + 1) * unit) = some row)
    (hV : ∀ l ≤ maxLength, 0 < l → (alignmentTokens ∣ l ∧ MambaValid p blockHashes groupIds l ↔
      ∃ i < n, (i + 1) * unit = l ∧ (f i).isSome = true))
    (hle : ∀ i < n, (i + 1) * unit ≤ maxLength) :
    MambaFound p blockHashes groupIds blockSize alignmentTokens maxLength
      (match searchDown f n with
        | some (i, row) => some (stateRows groupIds (blockIdx i) row, (i + 1) * unit)
        | none => some ([], 0)) := by
  have hfloor := isFloor_searchDown ⟨Nat.dvd_zero _, .inl rfl⟩ hV hle
  cases hs : searchDown f n with
  | none =>
    rw [hs] at hfloor
    exact ⟨_, _, rfl, hfloor, .nil u.block_pos⟩
  | some r =>
    rw [hs] at hfloor
    obtain ⟨-, hf, -⟩ := searchDown_eq_some hs
    exact ⟨_, _, rfl, hfloor,
      mambaRows_stateRows u.block_pos (hidx r.1).1 (hidx r.1).2 (hrow r.1 r.2 hf)⟩

theorem mambaHit_fine (hf : fineGrained alignmentTokens blockSize = true) :
    MambaFound p blockHashes groupIds blockSize alignmentTokens maxLength
      (mambaHit p blockHashes maxLength groupIds blockSize alignmentTokens) := by
  have hal := u.eq_hash hf
  subst hal
  have hpos := u.hash_pos
  obtain ⟨s, hs⟩ := u.hash_dvd
  have hs0 : 0 < s := Nat.pos_of_mul_pos_left (hs ▸ u.block_pos)
  have hdiv : blockSize / p.hashBlockSize = s := by rw [hs, Nat.mul_div_cancel_left _ hpos]
  have hmul : ∀ k, k * blockSize = k * s * p.hashBlockSize := by
    intro k
    rw [hs, Nat.mul_comm p.hashBlockSize s, Nat.mul_assoc]
  simp only [mambaHit, hf, if_true, lookup_one_join hpos, hdiv]
  refine mambaHit_of_search u (fun i => ?_) (fun i row h => h) (fun l hl hl0 => ?_)
    (fun i hi => (Nat.le_div_iff_mul_le hpos).mp (by omega))
  · have hlo := Nat.div_mul_le_self i s
    have hhi := Nat.lt_div_mul_add (a := i) hs0
    rw [hmul, hmul, Nat.add_mul (i / s)]
    exact ⟨Nat.mul_lt_mul_of_pos_right (by omega) hpos, Nat.mul_le_mul_right _ (by omega)⟩
  constructor
  · rintro ⟨-, h0 | hc⟩
    · omega
    obtain ⟨⟨k, rfl⟩, hlen⟩ := hc.range
    rw [Nat.mul_div_cancel_left _ hpos] at hlen
    rw [Nat.mul_comm] at hl hl0 hc ⊢
    have hk := (Nat.le_div_iff_mul_le hpos).mpr hl
    have hk0 : 0 < k := Nat.pos_of_mul_pos_right hl0
    exact ⟨k - 1, by omega, by rw [Nat.sub_add_cancel hk0], by
      rw [Nat.sub_add_cancel hk0]; exact hc⟩
  · rintro ⟨i, -, rfl, hc⟩
    exact ⟨Nat.dvd_mul_left _ _, .inr hc⟩

theorem mambaHit_coarse (hf : fineGrained alignmentTokens blockSize = false)
    (hlen : maxLength / p.hashBlockSize ≤ blockHashes.length) :
    MambaFound p blockHashes groupIds blockSize alignmentTokens maxLength
      (mambaHit p blockHashes maxLength groupIds blockSize alignmentTokens) := by
  have hrange : ¬ (0 < maxLength / blockSize ∧
      lookup p blockHashes groupIds (blockSize / p.hashBlockSize)
        (maxLength / blockSize - 1) = none) :=
    fun h => lookup_ne_none u hlen (Nat.sub_lt h.1 Nat.one_pos) h.2
  simp only [mambaHit, hf, Bool.false_eq_true, if_false,
    resolveScale_of_not_fineGrained u.block_pos hf, if_neg hrange,
    lookup_join u.hash_dvd u.block_pos]
  refine mambaHit_of_search u (fun i => ⟨?_, Nat.le_refl _⟩) (fun i row h => ?_)
    (fun l hl hl0 => ?_) (fun i hi => (Nat.le_div_iff_mul_le u.block_pos).mp hi)
  · exact Nat.mul_lt_mul_of_pos_right (Nat.lt_succ_self i) u.block_pos
  · split at h
    · exact h
    · cases h
  constructor
  · rintro ⟨hal, h0 | hc⟩
    · omega
    -- an aligned length is a number of whole blocks
    obtain ⟨k, rfl⟩ := Nat.dvd_trans (u.block_dvd hf) hal
    rw [Nat.mul_comm] at hl hl0 hal hc ⊢
    have hk := (Nat.le_div_iff_mul_le u.block_pos).mpr hl
    have hk0 : 0 < k := Nat.pos_of_mul_pos_right hl0
    refine ⟨k - 1, by omega, by rw [Nat.sub_add_cancel hk0], ?_⟩
    rw [Nat.sub_add_cancel hk0, if_pos (blocksAligned_iff.mpr hal)]
    exact hc
  · rintro ⟨i, -, rfl, hc⟩
    split at hc
    · next ha => exact ⟨blocksAligned_iff.mp ha, .inr hc⟩
    · cases hc

theorem mambaHit_spec (hlen : maxLength / p.hashBlockSize ≤ blockHashes.length) :
    MambaFound p blockHashes groupIds blockSize alignmentTokens maxLength
      (mambaHit p blockHashes maxLength groupIds blockSize alignmentTokens) := by
  cases hf : fineGrained alignmentTokens blockSize with
  | true => exact mambaHit_fine u hf
  | false => exact mambaHit_coarse u hf hlen

end

end Mamba

end Vllm.Lookup
