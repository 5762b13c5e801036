import Vllm.Lookup.EagleWindow

/-!
# Verification of the EAGLE drop

A group that uses EAGLE is looked up one drop unit further than the candidate
length and gives the unit up again, so that the unit behind the hit is known to
be cached. `eagle_verified` remembers which spec groups were looked up like that
"at the current length". It is emptied when a lookup without drop shortens the
length, but not when a lookup with drop does.

* `dropVerified_of_lone`: when a sliding window EAGLE group is the only EAGLE
  group besides full attention, the unit behind the returned length is cached
  for every EAGLE group that is not Mamba.
-/

namespace Vllm.Lookup

open Function Library Pool List KVCacheSpec

variable {H : Type}

namespace HybridConfig

variable {c : HybridConfig} {p : BlockPool H} {blockHashes : List H}
  {maxLength blockSize alignmentTokens window curr n a maxCacheHitLength : Nat}
  {groupIds : List Nat} {r : List Row × Nat} {drop : Bool} {g g' : SpecGroup} {st st' : HitState}

/-! ## What has to be verified -/

/-- The tokens that an EAGLE group drops. -/
def dropUnit (c : HybridConfig) (g : SpecGroup) : Nat :=
  eagleProofMargin g.spec.blockSize c.hashBlockSize
    (c.enablePartialHashHits && g.spec.supportsFineGrainedHashLookup)

/-- The drop unit right behind a length is in a cached block. -/
def DropUnitCached (c : HybridConfig) (p : BlockPool H) (blockHashes : List H) (g : SpecGroup)
    (length : Nat) : Prop :=
  ∃ b, length + c.dropUnit g ≤ b ∧ b ≤ (length / g.spec.blockSize + 1) * g.spec.blockSize ∧
    BoundaryCached p blockHashes g.groupIds b

/-- The drop of every EAGLE group but Mamba is verified at the returned length. -/
def DropVerified (c : HybridConfig) (p : BlockPool H) (blockHashes : List H)
    (maxCacheHitLength : Nat) : Prop :=
  ∀ blocks length longer,
    c.findLongestCacheHit p blockHashes maxCacheHitLength = some (blocks, length, longer) →
    0 < length → ∀ g ∈ c.attentionGroups, g.useEagle = true → g.spec.isMamba = false →
      c.DropUnitCached p blockHashes g length

/-- The assertions of the chunked local lookup, which hold in the first round or the
call fails. -/
def ChunkedOk (c : HybridConfig) : Prop :=
  ∀ g ∈ c.attentionGroups, g.spec.isChunkedLocal = true →
    g.useEagle = false ∧ g.spec.blockSize = c.cacheHitAlignmentTokens

/-- A sliding window EAGLE group is the only EAGLE group besides full attention. -/
def Lone (c : HybridConfig) : Prop :=
  ∀ a ∈ c.attentionGroups.zipIdx, ∀ b ∈ c.attentionGroups.zipIdx, a.2 ≠ b.2 →
    a.1.useEagle = true → b.1.useEagle = true →
    (a.1.spec.kind matches .slidingWindow _) = true → b.1.spec.isFullAttention = true

/-! ## Single lookups -/

theorem mambaHit_aligned_le (u : Units p.hashBlockSize blockSize alignmentTokens)
    (h : mambaHit p blockHashes maxLength groupIds blockSize alignmentTokens = some r) :
    alignmentTokens ∣ r.2 ∧ r.2 ≤ maxLength := by
  unfold mambaHit at h
  split at h
  · simp only at h
    split at h
    · next i row hs =>
      cases h
      have hi := (searchDown_eq_some hs).1
      exact ⟨Nat.dvd_mul_left _ _, (Nat.le_div_iff_mul_le u.align_pos).mp (by omega)⟩
    · cases h
      exact ⟨Nat.dvd_zero _, Nat.zero_le _⟩
  · simp only at h
    split at h
    · cases h
    split at h
    · next i row hs =>
      cases h
      obtain ⟨hi, hf, -⟩ := searchDown_eq_some hs
      refine ⟨?_, (Nat.le_div_iff_mul_le u.block_pos).mp hi⟩
      split at hf
      · next ha => exact blocksAligned_iff.mp ha
      · cases hf
    · cases h
      exact ⟨Nat.dvd_zero _, Nat.zero_le _⟩

theorem chunkedLocalHit_aligned_le {chunk : Nat}
    (h : chunkedLocalHit p blockHashes maxLength groupIds blockSize chunk drop alignmentTokens =
      some r) : alignmentTokens ∣ r.2 ∧ r.2 ≤ maxLength := by
  unfold chunkedLocalHit at h
  split at h
  · cases h
  rename_i hassert
  have hbs : blockSize = alignmentTokens := not_not.mp (not_or.mp hassert).2
  simp only at h
  split at h
  · cases h
  cases h
  refine ⟨hbs ▸ Nat.dvd_mul_left _ _, ?_⟩
  have hstart : maxLength / chunk * chunk / blockSize ≤ maxLength / blockSize :=
    Nat.div_le_div_right (Nat.div_mul_le_self _ _)
  refine Nat.le_trans (Nat.mul_le_mul_right _ ?_) (Nat.div_mul_le_self maxLength blockSize)
  rw [length_append, length_replicate]
  have := cachedRun_length_le (lookup p blockHashes groupIds
    (resolveScale p.hashBlockSize blockSize false alignmentTokens))
    (maxLength / blockSize - maxLength / chunk * chunk / blockSize)
    (maxLength / chunk * chunk / blockSize)
  omega

theorem isSlidingWindow_not_fineGrained (hk : g.spec.kind = .slidingWindow window) :
    g.spec.supportsFineGrainedHashLookup = false := by
  simp [supportsFineGrainedHashLookup, isFullAttention, isMamba, hk]

section

variable (hg : g ∈ c.attentionGroups)
include hg

/-- A lookup returns an aligned length, and no more than it was asked for. -/
theorem findHit_aligned_le (hp : p.hashBlockSize = c.hashBlockSize)
    (h : g.findHit p blockHashes maxLength drop c.cacheHitAlignmentTokens = some r) :
    c.cacheHitAlignmentTokens ∣ r.2 ∧ r.2 ≤ maxLength := by
  have u := c.units hg
  rw [← hp] at u
  unfold SpecGroup.findHit at h
  cases hk : g.spec.kind with
  | fullAttention =>
    rw [hk] at h
    cases h
    obtain ⟨hal, hle, -⟩ := fullAttentionHit_rows u drop
    exact ⟨hal, hle⟩
  | slidingWindow window =>
    rw [hk] at h
    have hlook := slidingWindowHit_lookups u h
    cases drop with
    | false =>
      obtain ⟨rows, l, heq, hfloor, -⟩ := slidingWindowHit_spec u
        (c.blockSize_dvd_align hg (isSlidingWindow_not_fineGrained hk)) hlook window
      cases h.symm.trans heq
      exact ⟨hfloor.valid.1, hfloor.le⟩
    | true =>
      obtain ⟨rows, l, heq, hal, hcase⟩ := slidingWindowHit_drop u hlook window
      cases h.symm.trans heq
      exact ⟨hal, by rcases hcase with h0 | h0 <;> simp only <;> omega⟩
  | chunkedLocal n =>
    rw [hk] at h
    exact chunkedLocalHit_aligned_le h
  | mamba =>
    rw [hk] at h
    exact mambaHit_aligned_le u h

/-- The drop unit of a full attention or sliding window group. -/
theorem dropUnit_eq : c.dropUnit g = min c.cacheHitAlignmentTokens g.spec.blockSize :=
  c.eagleProofMargin_eq hg

/-- A length that is valid one drop unit further has a cached drop unit behind it. -/
theorem dropUnitCached_of_fullValid {bound length : Nat} (hal : c.cacheHitAlignmentTokens ∣ length)
    (hv : FullValid p blockHashes g.groupIds g.spec.blockSize bound (length + c.dropUnit g)) :
    c.DropUnitCached p blockHashes g length := by
  have u := c.units hg
  have hunit := dropUnit_eq hg
  -- the unit divides the length and the block size, so it does not cross a block
  have hdvd : c.dropUnit g ∣ length ∧ c.dropUnit g ∣ g.spec.blockSize := by
    rw [hunit]
    exact ⟨Nat.dvd_trans u.unit_dvd_align hal, u.unit_dvd_block⟩
  have hlo := Nat.div_mul_le_self length g.spec.blockSize
  have hhi := Nat.lt_div_mul_add (a := length) u.block_pos
  have hpos : 0 < c.dropUnit g := Nat.pos_of_dvd_of_pos hdvd.2 u.block_pos
  have hend : length + c.dropUnit g ≤ (length / g.spec.blockSize + 1) * g.spec.blockSize := by
    have hd : c.dropUnit g ∣ (length / g.spec.blockSize + 1) * g.spec.blockSize - length :=
      Nat.dvd_sub (Nat.dvd_mul_left_of_dvd hdvd.2 _) hdvd.1
    rw [Nat.add_mul] at hd ⊢
    have := Nat.le_of_dvd (by omega) hd
    omega
  obtain ⟨b, hb1, hb2, -, hc⟩ := hv (length / g.spec.blockSize) (by omega)
  exact ⟨b, by omega, hb2, hc⟩

omit hg in
/-- What a lookup with drop is asked for. -/
theorem lookupLength_drop (hm : g.spec.isMamba = false) (numHashes curr : Nat) :
    c.lookupLength numHashes curr g true =
      min (curr + c.dropUnit g) (numHashes * c.hashBlockSize) := by
  simp [lookupLength, hm, dropUnit]

/-- A full attention lookup with drop was valid one drop unit further. -/
theorem findHit_drop_full
    (hp : p.hashBlockSize = c.hashBlockSize) (hk : g.spec.kind = .fullAttention)
    (h : g.findHit p blockHashes (c.lookupLength blockHashes.length curr g true) true
      c.cacheHitAlignmentTokens = some r) :
    r.2 ≤ curr ∧ (r.2 = 0 ∨ ∃ bound, FullValid p blockHashes g.groupIds g.spec.blockSize bound
      (r.2 + c.dropUnit g)) := by
  have u := c.units hg
  rw [← hp] at u
  have hmax := lookupLength_drop (c := c) (g := g) (by simp [isMamba, hk])
    blockHashes.length curr
  rw [SpecGroup.findHit, hk] at h
  cases h
  rcases fullAttentionHit_drop u with h0 | ⟨hle, hv⟩
  · exact ⟨by omega, .inl h0⟩
  · rw [← dropUnit_eq hg] at hle hv
    exact ⟨by omega, .inr ⟨_, hv⟩⟩

/-- A sliding window lookup with drop has seen the block behind what it returns. -/
theorem findHit_drop_sliding (hp : p.hashBlockSize = c.hashBlockSize)
    (hk : g.spec.kind = .slidingWindow window)
    (h : g.findHit p blockHashes (c.lookupLength blockHashes.length curr g true) true
      c.cacheHitAlignmentTokens = some r) :
    r.2 ≤ curr ∧ (r.2 = 0 ∨ c.DropUnitCached p blockHashes g r.2) := by
  have u := c.units hg
  have hdvd := c.blockSize_dvd_align hg (isSlidingWindow_not_fineGrained hk)
  have hunit : c.dropUnit g = g.spec.blockSize := by
    rw [dropUnit_eq hg, Nat.min_eq_right (Nat.le_of_dvd c.align_pos hdvd)]
  have hmax := lookupLength_drop (c := c) (g := g) (by simp [isMamba, hk])
    blockHashes.length curr
  rw [← hp] at u
  rw [SpecGroup.findHit, hk] at h
  obtain ⟨rows, l, heq, hal, hcase⟩ := slidingWindowHit_drop u (slidingWindowHit_lookups u h) window
  cases h.symm.trans heq
  rcases hcase with h0 | ⟨hle, hc⟩
  · exact ⟨by simp only at h0 ⊢; omega, .inl h0⟩
  · refine ⟨by simp only; omega, .inr ⟨l + g.spec.blockSize, by simp only [hunit]; omega, ?_, hc⟩⟩
    rw [Nat.add_mul, Nat.one_mul, Nat.div_mul_cancel (Nat.dvd_trans hdvd hal)]

end

/-! ## Rules for the two loops -/

/-- Everything that one spec group can do to the state. -/
theorem groupStep_cases {idx : Nat} (h : c.groupStep p blockHashes st g idx = some st') :
    (g.spec.isFullAttention = true ∧ (st.hitRows idx).isSome = true ∧
      st' = { st with currHitLength := min st.currHitLength (st.hitLengths idx) }) ∨
    ∃ drop r, drop = (g.useEagle && !st.eagleVerified.contains idx) ∧
      (g.spec.isFullAttention = true → st.hitRows idx = none) ∧
      g.findHit p blockHashes (c.lookupLength blockHashes.length st.currHitLength g drop) drop
        c.cacheHitAlignmentTokens = some r ∧
      st' = { currHitLength := r.2
              longestHitLength := max st.longestHitLength r.2
              hitRows := update st.hitRows idx (some r.1)
              hitLengths := update st.hitLengths idx r.2
              eagleVerified :=
                if drop then idx :: st.eagleVerified
                else if r.2 < st.currHitLength then [] else st.eagleVerified } := by
  unfold groupStep at h
  split at h
  · next hcond =>
    obtain ⟨hf, hs⟩ := Bool.and_eq_true_iff.mp hcond
    exact .inl ⟨hf, hs, (Option.some.inj h).symm⟩
  rename_i hcond
  obtain ⟨r, hfind, rfl⟩ := Option.map_eq_some_iff.mp h
  refine .inr ⟨_, r, rfl, fun hf => ?_, hfind, rfl⟩
  simpa [hf] using hcond

/-- Induction over a pass, with the position of the pass. -/
theorem groupPass_induct {P : Nat → HitState → Prop} {gs : List SpecGroup}
    (hstep : ∀ i g st st', gs[i]? = some g → P (n + i) st →
      c.groupStep p blockHashes st g (n + i) = some st' → P (n + i + 1) st')
    (hinit : P n st) (h : c.groupPass p blockHashes (gs.zipIdx n) st = some st') :
    P (n + gs.length) st' := by
  induction gs generalizing n st with
  | nil =>
    cases h
    exact hinit
  | cons g gs ih =>
    obtain ⟨st₁, hs, h⟩ := Option.bind_eq_some_iff.mp h
    rw [length_cons, show n + (gs.length + 1) = n + 1 + gs.length by omega]
    refine ih (fun i g' st st' hi hP hs' => ?_) (hstep 0 g st st₁ rfl hinit hs) h
    rw [show n + 1 + i = n + (i + 1) by omega] at hP hs' ⊢
    exact hstep (i + 1) g' st st' hi hP hs'

/-- Induction over the rounds: `I` holds before each round, and `Q` of what a round
that ends the loop returns. -/
theorem hitLoop_induct {I : HitState → Prop} {Q : Nat → HitState → Prop}
    (hround : ∀ st st', I st →
      c.groupPass p blockHashes c.attentionGroups.zipIdx st = some st' →
      (st.currHitLength ≤ st'.currHitLength → Q st.currHitLength st') ∧
      (st'.currHitLength < st.currHitLength → c.isSimpleHybrid = true →
        Q st'.currHitLength st') ∧
      (st'.currHitLength < st.currHitLength → c.isSimpleHybrid = false → I st'))
    {fuel : Nat} (st : HitState) (hinit : I st) {r : Nat × HitState}
    (h : c.hitLoop p blockHashes fuel st.currHitLength st = some r) : Q r.1 r.2 := by
  induction fuel generalizing st with
  | zero => cases h
  | succ fuel ih =>
    obtain ⟨st', hpass, h⟩ := Option.bind_eq_some_iff.mp h
    obtain ⟨hstop, hsimple, hgo⟩ := hround st st' hinit hpass
    split at h
    · next hle =>
      cases h
      exact hstop hle
    rename_i hlt
    split at h
    · next hs =>
      cases h
      exact hsimple (Nat.lt_of_not_le hlt) hs
    · next hs =>
      exact ih st' (hgo (Nat.lt_of_not_le hlt) (by simpa using hs)) h

/-! ## What holds at every point of the loops -/

/-- Lengths are aligned and no longer than what the looked-up groups returned; a
verified group and the groups before it were looked up. -/
structure Track (c : HybridConfig) (st : HitState) : Prop where
  aligned : ∀ k, c.cacheHitAlignmentTokens ∣ st.hitLengths k
  reached : ∀ k, (st.hitRows k).isSome = true →
    c.cacheHitAlignmentTokens ∣ st.currHitLength ∧ st.currHitLength ≤ st.hitLengths k
  seen : ∀ k ∈ st.eagleVerified, ∀ j ≤ k, (st.hitRows j).isSome = true

/-- The groups before position `n` were looked up. -/
def SeenTo (n : Nat) (st : HitState) : Prop := ∀ j < n, (st.hitRows j).isSome = true

theorem Track.init (maxCacheHitLength : Nat) : Track c (.init maxCacheHitLength) where
  aligned _ := Nat.dvd_zero _
  reached _ h := nomatch h
  seen _ h := nomatch h

/-- A lookup returns at most the candidate length, also with drop. -/
theorem lookup_le (hg : g ∈ c.attentionGroups) (hp : p.hashBlockSize = c.hashBlockSize)
    (h : g.findHit p blockHashes (c.lookupLength blockHashes.length curr g drop) drop
      c.cacheHitAlignmentTokens = some r) : r.2 ≤ curr := by
  have hle := (findHit_aligned_le hg hp h).2
  cases drop with
  | false => exact hle
  | true =>
    cases hk : g.spec.kind with
    | fullAttention => exact (findHit_drop_full hg hp hk h).1
    | slidingWindow window => exact (findHit_drop_sliding hg hp hk h).1
    | chunkedLocal n => simp [SpecGroup.findHit, hk, chunkedLocalHit] at h
    | mamba =>
      rwa [lookupLength, show g.spec.isMamba = true by simp [isMamba, hk]] at hle

theorem Track.step (hp : p.hashBlockSize = c.hashBlockSize)
    (hg : g ∈ c.attentionGroups) (ht : Track c st) (hn : SeenTo n st)
    (h : c.groupStep p blockHashes st g n = some st') :
    Track c st' ∧ SeenTo (n + 1) st' ∧ st'.currHitLength ≤ st.currHitLength := by
  rcases groupStep_cases h with ⟨-, hs, rfl⟩ | ⟨drop, r, -, -, hfind, rfl⟩
  · -- trimming does nothing: the group had reached the candidate
    have heq := Nat.min_eq_left (ht.reached n hs).2
    rw [heq]
    refine ⟨ht, fun j hj => ?_, Nat.le_refl _⟩
    rcases Nat.lt_succ_iff_lt_or_eq.mp hj with hj | rfl
    · exact hn j hj
    · exact hs
  · have hal := (findHit_aligned_le hg hp hfind).1
    have hle := lookup_le hg hp hfind
    have hsome : ∀ j, (st.hitRows j).isSome = true →
        (update st.hitRows n (some r.1) j).isSome = true := by
      intro j hj
      by_cases hjn : j = n
      · rw [hjn, update_self]
        rfl
      · rwa [update_of_ne hjn]
    have hseen : ∀ j < n + 1, (update st.hitRows n (some r.1) j).isSome = true := by
      intro j hj
      rcases Nat.lt_succ_iff_lt_or_eq.mp hj with hj | rfl
      · exact hsome j (hn j hj)
      · simp
    refine ⟨⟨fun k => ?_, fun k hk => ⟨hal, ?_⟩, fun k hk j hj => ?_⟩, hseen, hle⟩
    · by_cases hkn : k = n
      · simpa [hkn] using hal
      · simpa [hkn] using ht.aligned k
    · by_cases hkn : k = n
      · simp [hkn]
      · simp only [update_of_ne hkn] at hk ⊢
        exact Nat.le_trans hle (ht.reached k hk).2
    · split at hk
      · rcases mem_cons.mp hk with rfl | hk
        · exact hseen j (Nat.lt_succ_of_le hj)
        · exact hsome j (ht.seen k hk j hj)
      · split at hk
        · cases hk
        · exact hsome j (ht.seen k hk j hj)

/-! ## Full attention groups -/

/-- The recorded length of a full attention EAGLE group is valid one drop unit
further. -/
def FullVerified (c : HybridConfig) (p : BlockPool H) (blockHashes : List H) (g : SpecGroup)
    (a : Nat) (st : HitState) : Prop :=
  (st.hitRows a).isSome = true → st.hitLengths a = 0 ∨ ∃ bound,
    FullValid p blockHashes g.groupIds g.spec.blockSize bound (st.hitLengths a + c.dropUnit g)

theorem FullVerified.step (hp : p.hashBlockSize = c.hashBlockSize)
     (ha : c.attentionGroups[a]? = some g)
    (hk : g.spec.kind = .fullAttention) (he : g.useEagle = true)
    (hn : c.attentionGroups[n]? = some g') (ht : Track c st)
    (hv : FullVerified c p blockHashes g a st)
    (h : c.groupStep p blockHashes st g' n = some st') : FullVerified c p blockHashes g a st' := by
  rcases groupStep_cases h with ⟨-, -, rfl⟩ | ⟨drop, r, hdrop, hnew, hfind, rfl⟩
  · exact hv
  by_cases hna : a = n
  · subst hna
    cases ha.symm.trans hn
    -- the first lookup of the group, which was not verified before
    have hnone := hnew (by simp [isFullAttention, hk])
    have hfresh : a ∉ st.eagleVerified := by
      intro hmem
      have := ht.seen a hmem a (Nat.le_refl a)
      rw [hnone] at this
      cases this
    have hd : drop = true := by simp [hdrop, he, hfresh]
    rw [hd] at hfind
    intro _
    simp only [update_self]
    exact (findHit_drop_full (mem_of_getElem? ha) hp hk hfind).2
  · intro hs
    simp only [update_of_ne hna] at hs ⊢
    exact hv hs

theorem dropUnitCached_full (hp : p.hashBlockSize = c.hashBlockSize)
    (ha : c.attentionGroups[a]? = some g) (hk : g.spec.kind = .fullAttention)
    (he : g.useEagle = true) {r : Nat × HitState}
    (h : c.hitLoop p blockHashes (maxCacheHitLength + 1) maxCacheHitLength
      (.init maxCacheHitLength) = some r) :
    r.1 = 0 ∨ c.DropUnitCached p blockHashes g r.1 := by
  have hg := mem_of_getElem? ha
  have halt : a < c.attentionGroups.length := (List.getElem?_eq_some_iff.mp ha).1
  refine hitLoop_induct
    (I := fun st => Track c st ∧ FullVerified c p blockHashes g a st)
    (Q := fun l _ => l = 0 ∨ c.DropUnitCached p blockHashes g l)
    (fun st st' hI hpass => ?_) (.init maxCacheHitLength) ⟨.init _, fun hs => nomatch hs⟩ h
  have hP := groupPass_induct (P := fun n s => Track c s ∧
      FullVerified c p blockHashes g a s ∧ SeenTo n s ∧ s.currHitLength ≤ st.currHitLength)
    (fun i g' s s' hi hs hstep => by
      rw [Nat.zero_add] at hs hstep ⊢
      obtain ⟨ht, hv, hn, hle⟩ := hs
      obtain ⟨ht', hn', hle'⟩ := ht.step hp (mem_of_getElem? hi) hn hstep
      exact ⟨ht', hv.step hp ha hk he hi ht hstep, hn', Nat.le_trans hle' hle⟩)
    ⟨hI.1, hI.2, fun j hj => absurd hj (Nat.not_lt_zero j), Nat.le_refl _⟩ hpass
  obtain ⟨ht, hv, hn, hle⟩ := hP
  -- every length below the recorded one is verified
  have hdone : st'.currHitLength = 0 ∨ c.DropUnitCached p blockHashes g st'.currHitLength := by
    have hs := hn a (by omega)
    obtain ⟨hal, hreach⟩ := ht.reached a hs
    rcases hv hs with h0 | ⟨bound, hfv⟩
    · exact .inl (by omega)
    · exact .inr (dropUnitCached_of_fullValid hg hal (hfv.mono (by omega) (Nat.le_refl _)))
  refine ⟨fun hstop => ?_, fun _ _ => hdone, fun _ _ => ⟨ht, hv⟩⟩
  rw [Nat.le_antisymm hstop hle]
  exact hdone

/-! ## A lone sliding window group -/

/-- While the group is verified, the unit behind the candidate length is cached. -/
def SlidingVerified (c : HybridConfig) (p : BlockPool H) (blockHashes : List H) (g : SpecGroup)
    (a : Nat) (st : HitState) : Prop :=
  a ∈ st.eagleVerified → st.currHitLength = 0 ∨ c.DropUnitCached p blockHashes g st.currHitLength

/-- Groups behind a group that is not full attention are not full attention. -/
theorem lt_of_isFullAttention
    (ha : c.attentionGroups[a]? = some g) (hf : g.spec.isFullAttention = false)
    (hn : c.attentionGroups[n]? = some g') (hf' : g'.spec.isFullAttention = true) : n < a := by
  rw [attentionGroups_eq] at ha hn
  have hlt : n < c.fullGroups.length := by
    by_contra hge
    rw [getElem?_append_right (Nat.le_of_not_lt hge)] at hn
    have := (mem_filter.mp (mem_of_getElem? hn)).2
    simp [hf'] at this
  have hge : c.fullGroups.length ≤ a := by
    by_contra hlt'
    rw [getElem?_append_left (Nat.lt_of_not_le hlt')] at ha
    have := (mem_filter.mp (mem_of_getElem? ha)).2
    simp [hf] at this
  omega

section Lone

variable {g g' : SpecGroup} {a n window : Nat} {st st' : HitState}
  (hp : p.hashBlockSize = c.hashBlockSize) (ha : c.attentionGroups[a]? = some g)
  (hk : g.spec.kind = .slidingWindow window) (he : g.useEagle = true)
  (hlone : ∀ k g', c.attentionGroups[k]? = some g' → k ≠ a → g'.useEagle = true →
    g'.spec.isFullAttention = true)
  (hn : c.attentionGroups[n]? = some g') (ht : Track c st)
  (h : c.groupStep p blockHashes st g' n = some st')
include hp ha hk hlone hn ht h

theorem SlidingVerified.step (hv : SlidingVerified c p blockHashes g a st) :
    SlidingVerified c p blockHashes g a st' := by
  have hf : g.spec.isFullAttention = false := by simp [isFullAttention, hk]
  rcases groupStep_cases h with ⟨-, hs, rfl⟩ | ⟨drop, r, hdrop, hnew, hfind, rfl⟩
  · rw [Nat.min_eq_left (ht.reached n hs).2]
    exact hv
  have hle := lookup_le (mem_of_getElem? hn) hp hfind
  intro hmem
  cases drop with
  | true =>
    by_cases hna : a = n
    · subst hna
      cases ha.symm.trans hn
      exact (findHit_drop_sliding (mem_of_getElem? ha) hp hk hfind).2
    -- the only other groups that drop are full attention, and those were looked
    -- up before this group
    have heag : g'.useEagle = true := (Bool.and_eq_true_iff.mp hdrop.symm).1
    have hfull := hlone n g' hn (fun e => hna e.symm) heag
    have hmem' : a ∈ st.eagleVerified := (mem_cons.mp hmem).resolve_left hna
    have hs := ht.seen a hmem' n (Nat.le_of_lt (lt_of_isFullAttention ha hf hn hfull))
    rw [hnew hfull] at hs
    cases hs
  | false =>
    rw [if_neg Bool.false_ne_true] at hmem
    split at hmem
    · cases hmem
    · rw [show r.2 = st.currHitLength by omega]
      exact hv hmem

omit hlone in
include he in
/-- After its own lookup the group is verified unless the length became shorter. -/
theorem mem_eagleVerified_step {x : Nat} (hx : st.currHitLength ≤ x)
    (hmem : a < n → st.currHitLength = x → a ∈ st.eagleVerified) :
    a < n + 1 → st'.currHitLength = x → a ∈ st'.eagleVerified := by
  intro hlt heq
  rcases groupStep_cases h with ⟨hfull, hs, rfl⟩ | ⟨drop, r, hdrop, hnew, hfind, rfl⟩
  · rw [Nat.min_eq_left (ht.reached n hs).2] at heq
    have hf : g.spec.isFullAttention = false := by simp [isFullAttention, hk]
    have := lt_of_isFullAttention ha hf hn hfull
    exact hmem (by omega) heq
  have hle := lookup_le (mem_of_getElem? hn) hp hfind
  simp only at heq ⊢
  have hcurr : st.currHitLength = x := by omega
  have hnlt : ¬ r.2 < st.currHitLength := by omega
  by_cases hna : a = n
  · subst hna
    cases ha.symm.trans hn
    rw [he, Bool.true_and] at hdrop
    cases hc : st.eagleVerified.contains a with
    | false =>
      rw [if_pos (by rw [hdrop, hc]; rfl)]
      exact mem_cons_self
    | true =>
      simp only [hdrop, hc, Bool.not_true, Bool.false_eq_true, if_false, if_neg hnlt]
      simpa using hc
  · have hold := hmem (by omega) hcurr
    rw [if_neg hnlt]
    split
    · exact mem_cons_of_mem _ hold
    · exact hold

omit hp hk hlone ht in
include he in
/-- In a round that starts without verified groups, the group is verified after its
own lookup. -/
theorem mem_eagleVerified_fresh (hlt : ∀ k ∈ st.eagleVerified, k < n) :
    (∀ k ∈ st'.eagleVerified, k < n + 1) ∧
      (n = a → g.spec.isFullAttention = false → a ∈ st'.eagleVerified) := by
  rcases groupStep_cases h with ⟨hfull, hs, rfl⟩ | ⟨drop, r, hdrop, hnew, hfind, rfl⟩
  · refine ⟨fun k hk => Nat.lt_succ_of_lt (hlt k hk), ?_⟩
    rintro rfl hf
    cases ha.symm.trans hn
    rw [hf] at hfull
    cases hfull
  refine ⟨fun k hk => ?_, ?_⟩
  · split at hk
    · rcases mem_cons.mp hk with rfl | hk
      · exact Nat.lt_succ_self k
      · exact Nat.lt_succ_of_lt (hlt k hk)
    · split at hk
      · cases hk
      · exact Nat.lt_succ_of_lt (hlt k hk)
  · rintro rfl hf
    cases ha.symm.trans hn
    have hfresh : n ∉ st.eagleVerified := fun hm => Nat.lt_irrefl n (hlt n hm)
    simp [hdrop, he, hfresh]

end Lone

theorem dropUnitCached_sliding (hp : p.hashBlockSize = c.hashBlockSize)
    (ha : c.attentionGroups[a]? = some g)
    (hk : g.spec.kind = .slidingWindow window) (he : g.useEagle = true)
    (hlone : ∀ k g', c.attentionGroups[k]? = some g' → k ≠ a → g'.useEagle = true →
      g'.spec.isFullAttention = true) {r : Nat × HitState}
    (h : c.hitLoop p blockHashes (maxCacheHitLength + 1) maxCacheHitLength
      (.init maxCacheHitLength) = some r) :
    r.1 = 0 ∨ c.DropUnitCached p blockHashes g r.1 := by
  have hf : g.spec.isFullAttention = false := by simp [isFullAttention, hk]
  have halt : a < c.attentionGroups.length := (List.getElem?_eq_some_iff.mp ha).1
  refine hitLoop_induct
    (I := fun st => Track c st ∧ SlidingVerified c p blockHashes g a st ∧
      (c.isSimpleHybrid = true → st.eagleVerified = []))
    (Q := fun l _ => l = 0 ∨ c.DropUnitCached p blockHashes g l)
    (fun st st' hI hpass => ?_) (.init maxCacheHitLength)
    ⟨.init _, fun hs => (by cases hs), fun _ => rfl⟩ h
  obtain ⟨ht₀, hv₀, hsimple⟩ := hI
  obtain ⟨ht, hv, -, hle, hmem⟩ := groupPass_induct (P := fun n s => Track c s ∧
      SlidingVerified c p blockHashes g a s ∧ SeenTo n s ∧
      s.currHitLength ≤ st.currHitLength ∧
      (a < n → s.currHitLength = st.currHitLength → a ∈ s.eagleVerified))
    (fun i g' s s' hi hs hstep => by
      rw [Nat.zero_add] at hs hstep ⊢
      obtain ⟨ht, hv, hn, hle, hmem⟩ := hs
      obtain ⟨ht', hn', hle'⟩ := ht.step hp (mem_of_getElem? hi) hn hstep
      exact ⟨ht', hv.step hp ha hk hlone hi ht hstep, hn', Nat.le_trans hle' hle,
        mem_eagleVerified_step hp ha hk he hi ht hstep hle hmem⟩)
    ⟨ht₀, hv₀, fun j hj => absurd hj (Nat.not_lt_zero j), Nat.le_refl _,
      fun hlt => absurd hlt (Nat.not_lt_zero a)⟩ hpass
  refine ⟨fun hstop => ?_, fun _ hs => ?_, fun _ hs => ⟨ht, hv, fun hs' => ?_⟩⟩
  · have heq := Nat.le_antisymm hstop hle
    rw [heq]
    exact hv (hmem (by omega) heq.symm)
  · -- in the two-group case the group is the last one of the first round
    refine hv ?_
    have hlen : c.attentionGroups.length = 2 := by
      simpa using (Bool.and_eq_true_iff.mp hs).1
    have hlast : a + 1 = c.attentionGroups.length := by
      have hhead := (Bool.and_eq_true_iff.mp hs).2
      rw [head?_eq_getElem?] at hhead
      cases a with
      | zero =>
        rw [ha, Option.any_some, hf] at hhead
        cases hhead
      | succ a => omega
    have hP := groupPass_induct (P := fun n s =>
        (∀ k ∈ s.eagleVerified, k < n) ∧ (n = a + 1 → a ∈ s.eagleVerified))
      (fun i g' s s' hi hs hstep => by
        rw [Nat.zero_add] at hs hstep ⊢
        obtain ⟨h1, h2⟩ := mem_eagleVerified_fresh ha he hi hstep hs.1
        exact ⟨h1, fun heq => h2 (by omega) hf⟩)
      ⟨fun k hk => by simp [hsimple hs] at hk, fun h0 => by omega⟩ hpass
    exact hP.2 (by omega)
  · rw [hs] at hs'
    cases hs'

/-- With a lone sliding window group every drop is verified at the returned length. -/
theorem dropVerified_of_lone (hp : p.hashBlockSize = c.hashBlockSize) (hok : c.ChunkedOk)
    (hlone : c.Lone) (maxCacheHitLength : Nat) :
    c.DropVerified p blockHashes maxCacheHitLength := by
  intro blocks l longer hfind hl g hg he hm
  obtain ⟨r, hloop, hr⟩ := Option.map_eq_some_iff.mp hfind
  obtain ⟨-, rfl, -⟩ : _ ∧ r.1 = l ∧ _ := by
    simpa only [Prod.mk.injEq] using hr
  obtain ⟨a, ha⟩ := getElem?_of_mem hg
  refine (?_ : r.1 = 0 ∨ c.DropUnitCached p blockHashes g r.1).resolve_left (by omega)
  cases hk : g.spec.kind with
  | fullAttention => exact dropUnitCached_full hp ha hk he hloop
  | slidingWindow window =>
    refine dropUnitCached_sliding hp ha hk he (fun k g' hk' hne he' => ?_) hloop
    refine hlone (g, a) (mem_zipIdx_iff_getElem?.mpr ha) (g', k)
      (mem_zipIdx_iff_getElem?.mpr hk') (fun e => hne e.symm) he he' ?_
    simp [hk]
  | chunkedLocal n =>
    have := (hok g hg (by simp [isChunkedLocal, hk])).1
    rw [he] at this
    cases this
  | mamba => simp [isMamba, hk] at hm

end HybridConfig

end Vllm.Lookup
