import Vllm.Lookup.ChunkedLocal
import Vllm.Lookup.StaleVerification

/-!
# Lookups past the hashes

A request of `n` tokens has a hash for each hash block of its first `n - L` tokens, if a hash covers
`L` more tokens, but is looked up to `n - 1` tokens. Full attention stops at the last hash, and so
does a Mamba lookup at hash boundaries; the EAGLE margin of the hybrid coordinator is cut there. The
other lookups start at the last block below the length, and raise if there is no hash for it.
-/

namespace Vllm.Lookup

open Pool List KVCacheSpec

variable {H : Type} {p : BlockPool H} {blockHashes : List H} {groupIds : List Nat}
  {blockSize alignmentTokens chunk length : Nat} {maxLength numTokens lookahead : Nat}

/-! ## Single lookups -/

section

variable (u : Units p.hashBlockSize blockSize alignmentTokens)
include u

/-- Whole blocks and their hashes. -/
theorem hashes_iff_tokens (n numHashes : Nat) :
    n * (blockSize / p.hashBlockSize) ≤ numHashes ↔
      n * blockSize ≤ numHashes * p.hashBlockSize := by
  conv_rhs => rw [← Nat.div_mul_cancel u.hash_dvd, ← Nat.mul_assoc]
  exact (Nat.mul_le_mul_right_iff u.hash_pos).symm

/-- The hashes reach the last whole block. -/
def Reach (p : BlockPool H) (blockHashes : List H) (blockSize length : Nat) : Prop :=
  length / blockSize * blockSize ≤ blockHashes.length * p.hashBlockSize

theorem reach_iff_lookups :
    Reach p blockHashes blockSize length ↔ ∀ j < length / blockSize,
      lookup p blockHashes groupIds (blockSize / p.hashBlockSize) j ≠ none := by
  rw [lookups_iff u, hashes_iff_tokens u]
  rfl

omit u in
theorem reach_of_le (h : length ≤ blockHashes.length * p.hashBlockSize) :
    Reach p blockHashes blockSize length :=
  Nat.le_trans (Nat.div_mul_le_self _ _) h

theorem slidingWindowHit_isSome_iff
    (hdvd : blockSize ∣ alignmentTokens) (window : Nat) (drop : Bool) :
    (slidingWindowHit p blockHashes length groupIds blockSize window drop alignmentTokens).isSome ↔
      Reach p blockHashes blockSize length := by
  rw [reach_iff_lookups u]
  constructor
  · intro hsome
    obtain ⟨r, hr⟩ := Option.isSome_iff_exists.1 hsome
    exact slidingWindowHit_lookups u hr
  intro hlook
  cases drop with
  | false =>
    obtain ⟨rows, l, hhit, -⟩ := slidingWindowHit_spec u hdvd hlook window
    rw [hhit]
    rfl
  | true =>
    obtain ⟨rows, l, hhit, -⟩ := slidingWindowHit_drop u hlook window
    rw [hhit]
    rfl

theorem mambaHit_isSome_iff (hcoarse : fineGrained alignmentTokens blockSize = false) :
    (mambaHit p blockHashes length groupIds blockSize alignmentTokens).isSome ↔
      Reach p blockHashes blockSize length := by
  have hmamba : (mambaHit p blockHashes length groupIds blockSize alignmentTokens).isSome ↔
      ¬ (0 < length / blockSize ∧ lookup p blockHashes groupIds (blockSize / p.hashBlockSize)
        (length / blockSize - 1) = none) := by
    simp only [mambaHit, hcoarse, Bool.false_eq_true, if_false,
      resolveScale_of_not_fineGrained u.block_pos hcoarse]
    split
    · next hraise => simp [hraise]
    rename_i hok
    refine ⟨fun _ => hok, fun _ => ?_⟩
    split <;> rfl
  rw [hmamba, not_and, Reach, ← hashes_iff_tokens u]
  exact lookup_last_iff u _

/-- A lookup that ends where the chunk of the limit starts looks at nothing. -/
theorem chunkedLocalHit_of_start (hstart : startBlock blockSize chunk length = length / blockSize) :
    chunkedLocalHit p blockHashes length groupIds blockSize chunk false blockSize =
      some (List.replicate (length / blockSize) (nullRow groupIds),
        length / blockSize * blockSize) := by
  rw [chunkedLocalHit_eq u.block_pos]
  simp only [hstart, Nat.sub_self, cachedRun, length_nil, Nat.lt_irrefl, false_and, if_false,
    append_nil, Nat.add_zero]

theorem chunkedLocalHit_isSome_of_reach (hreach : Reach p blockHashes blockSize length) :
    (chunkedLocalHit p blockHashes length groupIds blockSize chunk false blockSize).isSome := by
  have hlook := (@reach_iff_lookups _ _ _ groupIds _ _ _ u).1 hreach
  rw [chunkedLocalHit_eq u.block_pos]
  rw [if_neg]
  · rfl
  · rintro ⟨hlt, hnone⟩
    exact hlook _ (by omega) hnone

/-- Every hash that is looked up is cached. -/
def AllCached (p : BlockPool H) (blockHashes : List H) (groupIds : List Nat) : Prop :=
  ∀ hash ∈ blockHashes, (p.getCachedBlock hash groupIds).isSome = true

omit u in
theorem AllCached.lookup_ne_miss (h : AllCached p blockHashes groupIds) (scaleFactor i : Nat) :
    lookup p blockHashes groupIds scaleFactor i ≠ some none := by
  unfold lookup
  cases hhash : blockHashes[(i + 1) * scaleFactor - 1]? with
  | none => exact nofun
  | some hash =>
    rw [Option.map_some]
    intro hmiss
    have hsome := h hash (mem_of_getElem? hhash)
    rw [Option.some.inj hmiss] at hsome
    cases hsome

/-- With everything cached the lookup goes on to the end of the hashes. -/
theorem chunkedLocalHit_isSome_iff (hall : AllCached p blockHashes groupIds) :
    (chunkedLocalHit p blockHashes length groupIds blockSize chunk false blockSize).isSome ↔
      Reach p blockHashes blockSize length ∨
        startBlock blockSize chunk length = length / blockSize := by
  constructor
  · intro hsome
    have hle : startBlock blockSize chunk length ≤ length / blockSize := startBlock_le
    rcases Nat.eq_or_lt_of_le hle with heq | hlt
    · exact .inr heq
    left
    rw [chunkedLocalHit_eq u.block_pos] at hsome
    have hmiss := hall.lookup_ne_miss (blockSize / p.hashBlockSize)
    dsimp only at hsome
    generalize startBlock blockSize chunk length = start at hlt hsome
    generalize hlookup : lookup p blockHashes groupIds (blockSize / p.hashBlockSize) = look
      at hsome hmiss
    split at hsome
    · cases hsome
    rename_i hok
    -- the run reaches the last block
    have hfull : (cachedRun look (length / blockSize - start) start).length =
        length / blockSize - start := by
      refine Nat.le_antisymm (cachedRun_length_le _ _ _) (Nat.le_of_not_lt fun hshort => ?_)
      have hstop := cachedRun_stop hshort
      refine hok ⟨hshort, ?_⟩
      cases hlook : look (start + (cachedRun look (length / blockSize - start) start).length) with
      | none => rfl
      | some found =>
        rw [hlook] at hstop
        cases found with
        | none => exact absurd hlook (hmiss _)
        | some row => cases hstop
    obtain ⟨row, hrow⟩ : ∃ row, (cachedRun look (length / blockSize - start) start)[length /
        blockSize - start - 1]? = some row := ⟨_, getElem?_eq_getElem (by omega)⟩
    have hlast := cachedRun_getElem? hrow
    rw [Reach, ← hashes_iff_tokens u, ← lookup_last_iff u]
    intro _ hnone
    rw [show start + (length / blockSize - start - 1) = length / blockSize - 1 by omega,
      ← hlookup, hnone] at hlast
    cases hlast
  · rintro (hreach | hstart)
    · exact chunkedLocalHit_isSome_of_reach u hreach
    · rw [chunkedLocalHit_of_start u hstart]
      rfl

/-- A full attention hit ends at a hash. -/
theorem fullAttentionHit_le_hashes (drop : Bool) :
    (fullAttentionHit p blockHashes length groupIds blockSize drop alignmentTokens).2 ≤
      blockHashes.length * p.hashBlockSize := by
  have hrows : FullRows p blockHashes groupIds blockSize length
      (fullAttentionHit p blockHashes length groupIds blockSize drop alignmentTokens).2
      (fullAttentionHit p blockHashes length groupIds blockSize drop alignmentTokens).1 :=
    (fullAttentionHit_rows u drop).2.2
  generalize fullAttentionHit p blockHashes length groupIds blockSize drop alignmentTokens = r
    at hrows
  rcases Nat.eq_zero_or_pos r.2 with hzero | hpos
  · rw [hzero]
    exact Nat.zero_le _
  -- the block of the last token
  have hlast := Nat.div_mul_le_self (r.2 - 1) blockSize
  obtain ⟨b, hlo, -, -, hcached⟩ := hrows.valid u.block_pos ((r.2 - 1) / blockSize) (by omega)
  have hcover : r.2 ≤ ((r.2 - 1) / blockSize + 1) * blockSize := by
    have hlt : r.2 - 1 < ((r.2 - 1) / blockSize + 1) * blockSize :=
      (Nat.div_lt_iff_lt_mul u.block_pos).1 (Nat.lt_add_one _)
    omega
  rw [Nat.min_eq_left hcover] at hlo
  obtain ⟨hdvd, hle⟩ := hcached.range
  refine Nat.le_trans hlo ?_
  rw [← Nat.div_mul_cancel hdvd]
  exact Nat.mul_le_mul_right _ hle

/-- So does a Mamba hit at hash boundaries. -/
theorem mambaHit_fine_le_hashes (hfine : fineGrained alignmentTokens blockSize = true) :
    ∃ r, mambaHit p blockHashes length groupIds blockSize alignmentTokens = some r ∧
      r.2 ≤ blockHashes.length * p.hashBlockSize := by
  obtain ⟨rows, l, hhit, hfloor, -⟩ := @mambaHit_fine H p blockHashes groupIds blockSize
    alignmentTokens length u hfine
  refine ⟨_, hhit, ?_⟩
  rcases hfloor.valid.2 with hzero | hcached
  · rw [hzero]
    exact Nat.zero_le _
  obtain ⟨hdvd, hle⟩ := hcached.range
  show l ≤ _
  rw [← Nat.div_mul_cancel hdvd]
  exact Nat.mul_le_mul_right _ hle

end

/-! ## Spec groups -/

/-- The state after a lookup. -/
def HitState.record (st : HitState) (idx : Nat) (verified : List Nat)
    (r : List Row × Nat) : HitState where
  currHitLength := r.2
  longestHitLength := max st.longestHitLength r.2
  hitRows := Function.update st.hitRows idx (some r.1)
  hitLengths := Function.update st.hitLengths idx r.2
  eagleVerified := verified

@[simp] theorem HitState.record_currHitLength (st : HitState) (idx : Nat) (verified : List Nat)
    (r : List Row × Nat) : (st.record idx verified r).currHitLength = r.2 := rfl

@[simp] theorem HitState.record_hitRows (st : HitState) (idx : Nat) (verified : List Nat)
    (r : List Row × Nat) :
    (st.record idx verified r).hitRows = Function.update st.hitRows idx (some r.1) := rfl

namespace HybridConfig

variable {c : HybridConfig} {g : SpecGroup}

/-- The lookup itself stops at the last hash. -/
def stopsAtHashes (c : HybridConfig) (g : SpecGroup) : Bool :=
  g.spec.isFullAttention ||
    g.spec.isMamba && fineGrained c.cacheHitAlignmentTokens g.spec.blockSize

/-- A lookup that the hashes reach does not raise, and its hit ends at a hash. -/
theorem findHit_of_reach (hp : p.hashBlockSize = c.hashBlockSize) (hok : c.ChunkedOk)
    (hg : g ∈ c.attentionGroups) {drop : Bool} (hdrop : drop = true → g.useEagle = true)
    (hreach : c.stopsAtHashes g = true ∨ Reach p blockHashes g.spec.blockSize length) :
    ∃ r, g.findHit p blockHashes length drop c.cacheHitAlignmentTokens = some r ∧
      r.2 ≤ blockHashes.length * p.hashBlockSize := by
  have u := c.units hg
  rw [← hp] at u
  -- a hit of whole blocks is within the reach
  have hwhole : ∀ r, g.findHit p blockHashes length drop c.cacheHitAlignmentTokens = some r →
      g.spec.blockSize ∣ c.cacheHitAlignmentTokens → Reach p blockHashes g.spec.blockSize length →
      r.2 ≤ blockHashes.length * p.hashBlockSize := by
    intro r hr hdvd hreach
    obtain ⟨hal, hle⟩ := findHit_aligned_le hg hp hr
    refine Nat.le_trans ?_ hreach
    rw [← Nat.div_mul_cancel (Nat.dvd_trans hdvd hal)]
    exact Nat.mul_le_mul_right _ (Nat.div_le_div_right hle)
  cases hk : g.spec.kind with
  | fullAttention =>
    refine ⟨_, by rw [SpecGroup.findHit, hk], ?_⟩
    exact fullAttentionHit_le_hashes u drop
  | slidingWindow window =>
    have hdvd := c.blockSize_dvd_align hg (isSlidingWindow_not_fineGrained hk)
    have hreach := hreach.resolve_left (by
      simp [stopsAtHashes, isFullAttention, isMamba, hk])
    obtain ⟨r, hr⟩ := Option.isSome_iff_exists.1
      ((@slidingWindowHit_isSome_iff _ _ _ g.groupIds _ _ _ u hdvd window drop).2 hreach)
    have hfind : g.findHit p blockHashes length drop c.cacheHitAlignmentTokens = some r := by
      rw [SpecGroup.findHit, hk]
      exact hr
    exact ⟨r, hfind, hwhole r hfind hdvd hreach⟩
  | chunkedLocal chunk =>
    obtain ⟨heagle, hsize⟩ := hok g hg (by simp [isChunkedLocal, hk])
    have hreach := hreach.resolve_left (by
      simp [stopsAtHashes, isFullAttention, isMamba, hk])
    have hfalse : drop = false := by
      rw [← Bool.not_eq_true]
      intro htrue
      rw [hdrop htrue] at heagle
      cases heagle
    subst hfalse
    obtain ⟨r, hr⟩ := Option.isSome_iff_exists.1
      (@chunkedLocalHit_isSome_of_reach _ _ _ g.groupIds _ _ chunk _ u hreach)
    have hfind : g.findHit p blockHashes length false c.cacheHitAlignmentTokens = some r := by
      rw [SpecGroup.findHit, hk, ← hsize]
      exact hr
    exact ⟨r, hfind, hwhole r hfind (hsize ▸ Nat.dvd_refl _) hreach⟩
  | mamba =>
    cases hfine : fineGrained c.cacheHitAlignmentTokens g.spec.blockSize with
    | true =>
      obtain ⟨r, hr, hle⟩ := @mambaHit_fine_le_hashes _ _ blockHashes g.groupIds _ _ length u hfine
      refine ⟨r, ?_, hle⟩
      rw [SpecGroup.findHit, hk]
      exact hr
    | false =>
      have hreach := hreach.resolve_left (by
        simp [stopsAtHashes, isFullAttention, hk, hfine])
      obtain ⟨r, hr⟩ := Option.isSome_iff_exists.1
        ((@mambaHit_isSome_iff _ _ _ g.groupIds _ _ _ u hfine).2 hreach)
      have hfind : g.findHit p blockHashes length drop c.cacheHitAlignmentTokens = some r := by
        rw [SpecGroup.findHit, hk]
        exact hr
      exact ⟨r, hfind, hwhole r hfind (u.block_dvd hfine) hreach⟩

/-! ## Past the hashes -/

/-- Where a pass gets from a length, before anything is known to be cached. -/
inductive Extent
  /-- some pool makes it raise -/
  | raises
  /-- the length is brought within the hashes -/
  | within
  | past (length : Nat)
  deriving DecidableEq

/-- The pass of the spec groups in turn. Only a chunked local lookup can return a length past the
hashes, if the chunk of the limit starts with its last block. -/
def extent (c : HybridConfig) (numHashes : Nat) : List SpecGroup → Nat → Extent
  | [], length => .past length
  | g :: gs, length =>
    if c.stopsAtHashes g || g.useEagle && !g.spec.isMamba ||
        length / g.spec.blockSize * g.spec.blockSize ≤ numHashes * c.hashBlockSize then .within
    else
      match g.spec.kind with
      | .chunkedLocal chunk =>
        if startBlock g.spec.blockSize chunk length = length / g.spec.blockSize then
          extent c numHashes gs (length / g.spec.blockSize * g.spec.blockSize)
        else .raises
      | _ => .raises

/-- No pool makes a lookup raise: the first pass brings the length within the hashes, or no pass
looks at anything. -/
def Bounded (c : HybridConfig) (numHashes maxLength : Nat) : Prop :=
  match extent c numHashes c.attentionGroups maxLength with
  | .raises => False
  | .within => True
  | .past length => extent c numHashes c.attentionGroups length ≠ .raises

/-! ## The loops -/

section Loops

variable (hp : p.hashBlockSize = c.hashBlockSize) (hok : c.ChunkedOk) {st : HitState}
  {gs : List SpecGroup}
include hp hok

/-- A step whose lookup the hashes reach. -/
theorem groupStep_of_reach (hg : g ∈ c.attentionGroups) (idx : Nat)
    (hseen : g.spec.isFullAttention = true → (st.hitRows idx).isSome = true →
      st.currHitLength ≤ blockHashes.length * p.hashBlockSize)
    (hreach : c.stopsAtHashes g = true ∨
      (g.useEagle && !st.eagleVerified.contains idx && !g.spec.isMamba) = true ∨
      Reach p blockHashes g.spec.blockSize st.currHitLength) :
    ∃ st', c.groupStep p blockHashes st g idx = some st' ∧
      st'.currHitLength ≤ blockHashes.length * p.hashBlockSize ∧
      st'.currHitLength ≤ st.currHitLength := by
  by_cases hdone : (g.spec.isFullAttention && (st.hitRows idx).isSome) = true
  · refine ⟨_, if_pos hdone, ?_, Nat.min_le_left _ _⟩
    obtain ⟨hfull, hsome⟩ := Bool.and_eq_true_iff.1 hdone
    exact Nat.le_trans (Nat.min_le_left _ _) (hseen hfull hsome)
  obtain ⟨drop, hdrop⟩ : ∃ drop, drop = (g.useEagle && !st.eagleVerified.contains idx) := ⟨_, rfl⟩
  have hlookup : c.stopsAtHashes g = true ∨ Reach p blockHashes g.spec.blockSize
      (c.lookupLength blockHashes.length st.currHitLength g drop) := by
    unfold lookupLength
    split
    · exact .inr (reach_of_le (Nat.le_trans (Nat.min_le_right _ _) (hp ▸ Nat.le_refl _)))
    rename_i hnodrop
    rcases hreach with hstops | heagle | hreach
    · exact .inl hstops
    · rw [← hdrop] at heagle
      exact absurd heagle hnodrop
    · exact .inr hreach
  obtain ⟨r, hr, hle⟩ := findHit_of_reach hp hok hg
    (fun htrue => (Bool.and_eq_true_iff.1 (hdrop.symm.trans htrue)).1) hlookup
  have hstep : ∃ st', c.groupStep p blockHashes st g idx = some st' ∧
      st'.currHitLength = r.2 := by
    rw [groupStep, if_neg hdone]
    simp only [← hdrop, hr, Option.map_some]
    exact ⟨_, rfl, rfl⟩
  obtain ⟨st', hstep, hlength⟩ := hstep
  refine ⟨st', hstep, ?_, ?_⟩
  · rw [hlength]
    exact hle
  · rw [hlength]
    exact lookup_le hg hp hr

/-- A pass from a length that the hashes reach. -/
theorem groupPass_of_le (hgs : ∀ g ∈ gs, g ∈ c.attentionGroups) (n : Nat)
    (st : HitState) (hle : st.currHitLength ≤ blockHashes.length * p.hashBlockSize) :
    ∃ st', c.groupPass p blockHashes (gs.zipIdx n) st = some st' ∧
      st'.currHitLength ≤ blockHashes.length * p.hashBlockSize ∧
      st'.currHitLength ≤ st.currHitLength := by
  induction gs generalizing n st with
  | nil => exact ⟨st, rfl, hle, Nat.le_refl _⟩
  | cons g gs ih =>
    rw [forall_mem_cons] at hgs
    obtain ⟨st₁, hstep, hle₁, hmono₁⟩ := groupStep_of_reach hp hok hgs.1 n
      (fun _ _ => hle) (.inr (.inr (reach_of_le hle)))
    obtain ⟨st', hpass, hle', hmono⟩ := ih hgs.2 (n + 1) st₁ hle₁
    refine ⟨st', ?_, hle', Nat.le_trans hmono hmono₁⟩
    rw [zipIdx_cons, groupPass, hstep]
    exact hpass

/-- The rounds from a length that the hashes reach. -/
theorem hitLoop_of_le {fuel : Nat} {hitLength : Nat} (hfuel : hitLength < fuel)
    (hle : hitLength ≤ blockHashes.length * p.hashBlockSize) :
    (c.hitLoop p blockHashes fuel hitLength st).isSome = true := by
  induction fuel generalizing st hitLength with
  | zero => exact absurd hfuel (Nat.not_lt_zero _)
  | succ fuel ih =>
    obtain ⟨st', hpass, hle', -⟩ := groupPass_of_le hp hok (fun g hg => hg) 0
      { st with currHitLength := hitLength } hle
    rw [hitLoop, hpass, Option.bind_some]
    split
    · rfl
    split
    · rfl
    · exact ih (by omega) hle'

omit hp hok in
/-- The step of a group that is not an EAGLE group, or is a Mamba group. -/
theorem groupStep_plain (idx : Nat)
    (hfull : g.spec.isFullAttention = false) (heagle : (g.useEagle && !g.spec.isMamba) = false)
    (hver : st.eagleVerified = []) :
    c.groupStep p blockHashes st g idx =
      (g.findHit p blockHashes st.currHitLength g.useEagle c.cacheHitAlignmentTokens).map
        (st.record idx (if g.useEagle then [idx] else [])) := by
  have hlookup : c.lookupLength blockHashes.length st.currHitLength g g.useEagle =
      st.currHitLength := by
    rw [lookupLength, heagle]
    rfl
  unfold groupStep HitState.record
  rw [hfull]
  simp [hver, hlookup]

/-- With everything cached, a lookup that the hashes do not reach raises, but for a chunked local
one that has nothing to look at. -/
theorem findHit_eq_none (hg : g ∈ c.attentionGroups)
    (hall : AllCached p blockHashes g.groupIds) (hstops : c.stopsAtHashes g = false)
    (hreach : ¬ Reach p blockHashes g.spec.blockSize length)
    (hstart : ∀ chunk, g.spec.kind = .chunkedLocal chunk →
      startBlock g.spec.blockSize chunk length ≠ length / g.spec.blockSize) (drop : Bool) :
    g.findHit p blockHashes length drop c.cacheHitAlignmentTokens = none := by
  have u := c.units hg
  rw [← hp] at u
  rw [← Option.not_isSome_iff_eq_none]
  intro hsome
  unfold SpecGroup.findHit at hsome
  cases hk : g.spec.kind with
  | fullAttention => simp [stopsAtHashes, isFullAttention, hk] at hstops
  | slidingWindow window =>
    rw [hk] at hsome
    have hdvd := c.blockSize_dvd_align hg (isSlidingWindow_not_fineGrained hk)
    exact hreach ((slidingWindowHit_isSome_iff u hdvd window drop).1 hsome)
  | chunkedLocal chunk =>
    rw [hk] at hsome
    obtain ⟨-, hsize⟩ := hok g hg (by simp [isChunkedLocal, hk])
    rw [← hsize] at hsome
    cases drop with
    | true => cases hsome
    | false =>
      rcases (chunkedLocalHit_isSome_iff u hall).1 hsome with hr | hs
      · exact hreach hr
      · exact hstart chunk hk hs
  | mamba =>
    rw [hk] at hsome
    have hcoarse : fineGrained c.cacheHitAlignmentTokens g.spec.blockSize = false := by
      simpa [stopsAtHashes, isFullAttention, isMamba, hk] using hstops
    exact hreach ((mambaHit_isSome_iff u hcoarse).1 hsome)

/-- What a pass does, by its extent. -/
theorem groupPass_extent (blockHashes : List H) (hgs : ∀ g ∈ gs, g ∈ c.attentionGroups) (n : Nat)
    (st : HitState) (hver : st.eagleVerified = [])
    (hfresh : ∀ g ∈ gs, g.spec.isFullAttention = true → ∀ k, n ≤ k → st.hitRows k = none) :
    match extent c blockHashes.length gs st.currHitLength with
    | .raises => (∀ g ∈ gs, AllCached p blockHashes g.groupIds) →
        c.groupPass p blockHashes (gs.zipIdx n) st = none
    | .within => ∃ st', c.groupPass p blockHashes (gs.zipIdx n) st = some st' ∧
        st'.currHitLength ≤ blockHashes.length * p.hashBlockSize
    | .past length => ∃ st', c.groupPass p blockHashes (gs.zipIdx n) st = some st' ∧
        st'.currHitLength = length ∧ st'.eagleVerified = [] := by
  induction gs generalizing n st with
  | nil => exact ⟨st, rfl, rfl, hver⟩
  | cons g gs ih =>
    rw [forall_mem_cons] at hgs hfresh
    rw [zipIdx_cons, groupPass]
    by_cases hwithin : (c.stopsAtHashes g || g.useEagle && !g.spec.isMamba ||
        decide (st.currHitLength / g.spec.blockSize * g.spec.blockSize ≤
          blockHashes.length * c.hashBlockSize)) = true
    · have hextent : extent c blockHashes.length (g :: gs) st.currHitLength = .within := by
        rw [extent, if_pos hwithin]
      rw [hextent]
      have hreach : c.stopsAtHashes g = true ∨
          (g.useEagle && !st.eagleVerified.contains n && !g.spec.isMamba) = true ∨
          Reach p blockHashes g.spec.blockSize st.currHitLength := by
        rw [Reach, hp]
        simpa [hver, or_assoc] using hwithin
      obtain ⟨st₁, hstep, hle, -⟩ := groupStep_of_reach hp hok hgs.1 n (fun hfull hsome => by
        rw [hfresh.1 hfull n (Nat.le_refl n)] at hsome
        cases hsome) hreach
      obtain ⟨st', hpass, hle', -⟩ := groupPass_of_le hp hok hgs.2 (n + 1) st₁ hle
      exact ⟨st', by rw [hstep]; exact hpass, hle'⟩
    · have hcond := hwithin
      simp only [Bool.or_eq_true, decide_eq_true_eq, not_or, Bool.not_eq_true] at hcond
      obtain ⟨⟨hstops, heagle⟩, hreach⟩ := hcond
      rw [← hp] at hreach
      have hfull : g.spec.isFullAttention = false := (Bool.or_eq_false_iff.1 hstops).1
      have hplain := @groupStep_plain H p blockHashes c g st n hfull heagle hver
      -- a lookup that does not get by without the hashes
      have hraises : (∀ chunk, g.spec.kind = .chunkedLocal chunk →
            startBlock g.spec.blockSize chunk st.currHitLength ≠
              st.currHitLength / g.spec.blockSize) →
          (∀ g' ∈ g :: gs, AllCached p blockHashes g'.groupIds) →
          ((c.groupStep p blockHashes st g n).bind
            (c.groupPass p blockHashes (gs.zipIdx (n + 1)))) =
            none := by
        intro hstart hall
        rw [hplain, findHit_eq_none hp hok hgs.1 (hall g mem_cons_self) hstops hreach hstart]
        rfl
      cases hk : g.spec.kind with
      | chunkedLocal chunk =>
        obtain ⟨hnoeagle, hsize⟩ := hok g hgs.1 (by simp [isChunkedLocal, hk])
        by_cases hstart : startBlock g.spec.blockSize chunk st.currHitLength =
            st.currHitLength / g.spec.blockSize
        · have hextent : extent c blockHashes.length (g :: gs) st.currHitLength =
              extent c blockHashes.length gs
                (st.currHitLength / g.spec.blockSize * g.spec.blockSize) := by
            rw [extent, if_neg hwithin]
            simp only [hk, if_pos hstart]
          have hfind : g.findHit p blockHashes st.currHitLength false c.cacheHitAlignmentTokens =
              some (List.replicate (st.currHitLength / g.spec.blockSize) (nullRow g.groupIds),
                st.currHitLength / g.spec.blockSize * g.spec.blockSize) := by
            have u := c.units hgs.1
            rw [← hp] at u
            rw [SpecGroup.findHit, hk, ← hsize]
            exact chunkedLocalHit_of_start u hstart
          rw [hnoeagle, hfind, Option.map_some] at hplain
          have hrest := ih hgs.2 (n + 1) (st.record n [] (List.replicate (st.currHitLength /
            g.spec.blockSize) (nullRow g.groupIds), st.currHitLength / g.spec.blockSize *
              g.spec.blockSize)) rfl fun g' hg' hfull' k hk' => by
                rw [HitState.record_hitRows, Function.update_of_ne (by omega)]
                exact hfresh.2 g' hg' hfull' k (by omega)
          rw [hextent, hplain]
          generalize hwhere : extent c blockHashes.length gs
            (st.currHitLength / g.spec.blockSize * g.spec.blockSize) = reached
          rw [HitState.record_currHitLength, hwhere] at hrest
          cases reached with
          | raises => exact fun hall => hrest fun g' hg' => hall g' (mem_cons_of_mem _ hg')
          | within => exact hrest
          | past length => exact hrest
        · have hextent : extent c blockHashes.length (g :: gs) st.currHitLength = .raises := by
            rw [extent, if_neg hwithin]
            simp only [hk, if_neg hstart]
          rw [hextent]
          refine hraises fun chunk' hk' => ?_
          rw [hk] at hk'
          cases hk'
          exact hstart
      | _ =>
        have hextent : extent c blockHashes.length (g :: gs) st.currHitLength = .raises := by
          rw [extent, if_neg hwithin]
          simp only [hk]
        rw [hextent]
        refine hraises fun chunk hk' => ?_
        rw [hk] at hk'
        cases hk'

omit hp in
/-- A pass past the hashes has chunked local groups only. -/
theorem extent_past {numHashes : Nat} (hgs : ∀ g ∈ gs, g ∈ c.attentionGroups) {length length' : Nat}
    (h : extent c numHashes gs length = .past length') :
    (∀ g ∈ gs, g.spec.isFullAttention = false) ∧
      length' = if gs = [] then length
        else length / c.cacheHitAlignmentTokens * c.cacheHitAlignmentTokens := by
  induction gs generalizing length with
  | nil =>
    cases h
    exact ⟨fun g hg => (not_mem_nil hg).elim, rfl⟩
  | cons g gs ih =>
    rw [forall_mem_cons] at hgs
    unfold extent at h
    split at h
    · cases h
    rename_i hcond
    split at h
    · next chunk hk =>
      split at h
      · obtain ⟨-, hsize⟩ := hok g hgs.1 (by simp [isChunkedLocal, hk])
        obtain ⟨hfull, hlength⟩ := ih hgs.2 h
        refine ⟨forall_mem_cons.2 ⟨by simp [isFullAttention, hk], hfull⟩, ?_⟩
        rw [hlength, if_neg (cons_ne_nil g gs), hsize]
        split
        · rfl
        · rw [Nat.mul_div_cancel _ c.align_pos]
      · cases h
    · cases h

/-- What a round does, by the extent of its pass. -/
theorem hitLoop_extent (blockHashes : List H) (fuel : Nat) (st : HitState) (hitLength : Nat)
    (hfuel : hitLength < fuel + 1) (hver : st.eagleVerified = [])
    (hfresh : ∀ g ∈ c.attentionGroups, g.spec.isFullAttention = true → ∀ k, st.hitRows k = none) :
    match extent c blockHashes.length c.attentionGroups hitLength with
    | .raises => (∀ g ∈ c.attentionGroups, AllCached p blockHashes g.groupIds) →
        c.hitLoop p blockHashes (fuel + 1) hitLength st = none
    | .within => (c.hitLoop p blockHashes (fuel + 1) hitLength st).isSome = true
    | .past length => ∃ st', st'.eagleVerified = [] ∧
        c.hitLoop p blockHashes (fuel + 1) hitLength st =
          if hitLength ≤ length then some (hitLength, st')
          else if c.isSimpleHybrid then some (length, st')
          else c.hitLoop p blockHashes fuel length st' := by
  have hpass := groupPass_extent hp hok blockHashes (fun g hg => hg) 0
      { st with currHitLength := hitLength }
    hver fun g hg hfull k _ => hfresh g hg hfull k
  rw [hitLoop]
  cases hextent : extent c blockHashes.length c.attentionGroups hitLength with
  | raises =>
    rw [hextent] at hpass
    intro hall
    rw [hpass hall]
    rfl
  | within =>
    rw [hextent] at hpass
    obtain ⟨st', hrun, hle⟩ := hpass
    rw [hrun]
    show Option.isSome (if _ then _ else _) = true
    split
    · rfl
    split
    · rfl
    · exact hitLoop_of_le hp hok (by omega) hle
  | past length =>
    rw [hextent] at hpass
    obtain ⟨st', hrun, hlength, hver'⟩ := hpass
    refine ⟨st', hver', ?_⟩
    rw [hrun, Option.bind_some, hlength]

/-- The lookup does not raise if the extent of its passes is bounded. -/
theorem findLongestCacheHit_of_bounded (hbounded : c.Bounded blockHashes.length maxLength) :
    (c.findLongestCacheHit p blockHashes maxLength).isSome = true := by
  rw [findLongestCacheHit, Option.isSome_map]
  have hround := hitLoop_extent hp hok blockHashes maxLength (.init maxLength)
    maxLength (Nat.lt_succ_self _) rfl fun _ _ _ _ => rfl
  unfold Bounded at hbounded
  cases hextent : extent c blockHashes.length c.attentionGroups maxLength with
  | raises =>
    rw [hextent] at hbounded
    exact hbounded.elim
  | within =>
    rw [hextent] at hround
    exact hround
  | past length =>
    rw [hextent] at hround hbounded
    obtain ⟨st', hver, hloop⟩ := hround
    rw [hloop]
    obtain ⟨hnofull, hlength⟩ := extent_past hok (fun g hg => hg) hextent
    split
    · rfl
    split
    · rfl
    -- the second round gets no further down, or within the hashes
    obtain ⟨fuel, rfl⟩ : ∃ fuel, maxLength = fuel + 1 := ⟨maxLength - 1, by omega⟩
    have hround := hitLoop_extent hp hok blockHashes fuel st' length
      (by omega) hver fun g hg hfull => by
        rw [hnofull g hg] at hfull
        cases hfull
    cases hagain : extent c blockHashes.length c.attentionGroups length with
    | raises => exact absurd hagain hbounded
    | within =>
      rw [hagain] at hround
      exact hround
    | past length' =>
      rw [hagain] at hround
      obtain ⟨st'', -, hloop'⟩ := hround
      obtain ⟨-, hlength'⟩ := extent_past hok (fun g hg => hg) hagain
      have hfix : length ≤ length' := by
        rw [if_neg c.attentionGroups_ne_nil] at hlength hlength'
        rw [hlength', hlength, Nat.mul_div_cancel _ c.align_pos]
      rw [hloop', if_pos hfix]
      rfl

/-- With everything cached it raises if they are not. -/
theorem bounded_of_findLongestCacheHit
    (hall : ∀ g ∈ c.attentionGroups, AllCached p blockHashes g.groupIds)
    (hsome : (c.findLongestCacheHit p blockHashes maxLength).isSome = true) :
    c.Bounded blockHashes.length maxLength := by
  rw [findLongestCacheHit] at hsome
  have hround := hitLoop_extent hp hok blockHashes maxLength (.init maxLength)
    maxLength (Nat.lt_succ_self _) rfl fun _ _ _ _ => rfl
  unfold Bounded
  cases hextent : extent c blockHashes.length c.attentionGroups maxLength with
  | raises =>
    rw [hextent] at hround
    rw [hround hall] at hsome
    cases hsome
  | within => trivial
  | past length =>
    intro hagain
    rw [hextent] at hround
    obtain ⟨st', hver, hloop⟩ := hround
    obtain ⟨hnofull, hlength⟩ := extent_past hok (fun g hg => hg) hextent
    have hsimple : c.isSimpleHybrid = false := by
      unfold isSimpleHybrid
      cases hgroups : c.attentionGroups with
      | nil => rfl
      | cons g gs => simp [hnofull g (by simp [hgroups])]
    have hlt : ¬ maxLength ≤ length := by
      intro hle
      rw [if_neg c.attentionGroups_ne_nil] at hlength
      have hfloor := Nat.div_mul_le_self maxLength c.cacheHitAlignmentTokens
      rw [show length = maxLength by omega, hextent] at hagain
      cases hagain
    rw [hloop, if_neg hlt, hsimple] at hsome
    obtain ⟨fuel, rfl⟩ : ∃ fuel, maxLength = fuel + 1 := ⟨maxLength - 1, by omega⟩
    have hround := hitLoop_extent hp hok blockHashes fuel st' length
      (by omega) hver fun g hg hfull => by
        rw [hnofull g hg] at hfull
        cases hfull
    rw [hagain] at hround
    simp [hround hall] at hsome

end Loops

/-- With at most one token of lookahead the hashes reach the last block. -/
theorem bounded_of_lookahead_le (hle : lookahead ≤ 1) :
    c.Bounded ((numTokens - lookahead) / c.hashBlockSize) (numTokens - 1) := by
  obtain ⟨g, gs, hgroups⟩ := exists_cons_of_ne_nil c.attentionGroups_ne_nil
  have u := c.units (by rw [hgroups]; exact mem_cons_self)
  have hreach : (numTokens - 1) / g.spec.blockSize * g.spec.blockSize ≤
      (numTokens - lookahead) / c.hashBlockSize * c.hashBlockSize := by
    rw [← Nat.div_mul_cancel (Nat.dvd_trans u.hash_dvd
      (Nat.dvd_mul_left g.spec.blockSize ((numTokens - 1) / g.spec.blockSize)))]
    refine Nat.mul_le_mul_right _ (Nat.div_le_div_right (Nat.le_trans (Nat.div_mul_le_self _ _) ?_))
    omega
  have hextent : extent c ((numTokens - lookahead) / c.hashBlockSize) c.attentionGroups
      (numTokens - 1) = .within := by
    rw [hgroups, extent, if_pos (by simp [hreach])]
  rw [Bounded, hextent]
  trivial

end HybridConfig

/-! ## Coordinators -/

/-- `UnitaryKVCacheCoordinator`: one group, with the hash block size as its block size. -/
structure UnitaryConfig where
  spec : KVCacheSpec
  dropEagle : Bool
  block_pos : 0 < spec.blockSize

namespace UnitaryConfig

variable (c : UnitaryConfig)

def group : SpecGroup := ⟨c.spec, [0], c.dropEagle⟩

def findLongestCacheHit (p : BlockPool H) (blockHashes : List H) (maxCacheHitLength : Nat) :
    Option (List (List Nat) × Nat × Nat) :=
  (c.group.findHit p blockHashes maxCacheHitLength c.dropEagle c.spec.blockSize).map fun r =>
    ([r.1.map (·.getD 0 0)], r.2, 0)

/-- The assertion of the chunked local lookup. -/
def ChunkedOk : Prop := c.spec.isChunkedLocal = true → c.dropEagle = false

/-- The last whole block has a hash, or nothing is looked at. -/
def Bounded (numHashes maxLength : Nat) : Prop :=
  match c.spec.kind with
  | .fullAttention => True
  | .chunkedLocal chunk => maxLength / c.spec.blockSize ≤ numHashes ∨
      startBlock c.spec.blockSize chunk maxLength = maxLength / c.spec.blockSize
  | _ => maxLength / c.spec.blockSize ≤ numHashes

theorem units : Units c.spec.blockSize c.spec.blockSize c.spec.blockSize :=
  ⟨c.block_pos, c.block_pos, Nat.dvd_refl _, c.block_pos, .inl rfl⟩

theorem coarse : fineGrained c.spec.blockSize c.spec.blockSize = false := by
  simp [fineGrained]

variable {c} (hp : p.hashBlockSize = c.spec.blockSize)
include hp

theorem reach_iff : Reach p blockHashes c.spec.blockSize length ↔
    length / c.spec.blockSize ≤ blockHashes.length := by
  rw [Reach, hp, Nat.mul_le_mul_right_iff c.block_pos]

theorem findLongestCacheHit_of_bounded (hok : c.ChunkedOk)
    (hbounded : c.Bounded blockHashes.length maxLength) :
    (c.findLongestCacheHit p blockHashes maxLength).isSome = true := by
  have u := c.units
  nth_rewrite 1 [← hp] at u
  rw [findLongestCacheHit, Option.isSome_map]
  unfold SpecGroup.findHit group
  unfold Bounded at hbounded
  cases hk : c.spec.kind with
  | fullAttention => rfl
  | slidingWindow window =>
    rw [hk] at hbounded
    exact (slidingWindowHit_isSome_iff u (Nat.dvd_refl _) window _).2 ((reach_iff hp).2 hbounded)
  | chunkedLocal chunk =>
    rw [hk] at hbounded
    rw [hok (by simp [isChunkedLocal, hk])]
    rcases hbounded with hle | hstart
    · exact chunkedLocalHit_isSome_of_reach u ((reach_iff hp).2 hle)
    show (chunkedLocalHit _ _ _ _ _ _ _ _).isSome = true
    rw [chunkedLocalHit_of_start u hstart]
    rfl
  | mamba =>
    rw [hk] at hbounded
    exact (mambaHit_isSome_iff u c.coarse).2 ((reach_iff hp).2 hbounded)

theorem bounded_of_findLongestCacheHit (hok : c.ChunkedOk) (hall : AllCached p blockHashes [0])
    (hsome : (c.findLongestCacheHit p blockHashes maxLength).isSome = true) :
    c.Bounded blockHashes.length maxLength := by
  have u := c.units
  nth_rewrite 1 [← hp] at u
  rw [findLongestCacheHit, Option.isSome_map] at hsome
  unfold SpecGroup.findHit group at hsome
  unfold Bounded
  cases hk : c.spec.kind with
  | fullAttention => trivial
  | slidingWindow window =>
    rw [hk] at hsome
    exact (reach_iff hp).1 ((slidingWindowHit_isSome_iff u (Nat.dvd_refl _) window _).1 hsome)
  | chunkedLocal chunk =>
    rw [hk] at hsome
    rw [hok (by simp [isChunkedLocal, hk])] at hsome
    exact ((chunkedLocalHit_isSome_iff u hall).1 hsome).imp (reach_iff hp).1 id
  | mamba =>
    rw [hk] at hsome
    exact (reach_iff hp).1 ((mambaHit_isSome_iff u c.coarse).1 hsome)

end UnitaryConfig

inductive Coordinator
  | unitary (c : UnitaryConfig)
  | hybrid (c : HybridConfig)

namespace Coordinator

def hashBlockSize : Coordinator → Nat
  | unitary c => c.spec.blockSize
  | hybrid c => c.hashBlockSize

def findLongestCacheHit (p : BlockPool H) (blockHashes : List H) (maxCacheHitLength : Nat) :
    Coordinator → Option (List (List Nat) × Nat × Nat)
  | unitary c => c.findLongestCacheHit p blockHashes maxCacheHitLength
  | hybrid c => c.findLongestCacheHit p blockHashes maxCacheHitLength

def ChunkedOk : Coordinator → Prop
  | unitary c => c.ChunkedOk
  | hybrid c => c.ChunkedOk

def Bounded (numHashes maxLength : Nat) : Coordinator → Prop
  | unitary c => c.Bounded numHashes maxLength
  | hybrid c => c.Bounded numHashes maxLength

/-- A request of so many tokens is looked up without an index error, whatever the pool holds. -/
def NeverRaises (c : Coordinator) (numTokens lookahead : Nat) : Prop :=
  ∀ (H : Type) (p : BlockPool H) (blockHashes : List H), p.hashBlockSize = c.hashBlockSize →
    blockHashes.length = (numTokens - lookahead) / c.hashBlockSize →
    (c.findLongestCacheHit p blockHashes (numTokens - 1)).isSome = true

theorem allCached_poolBy (hashBlockSize : Nat) (blockHashes groupIds : List Nat) :
    AllCached (poolBy hashBlockSize fun _ _ => true) blockHashes groupIds :=
  fun _ _ => getCachedBlock_poolBy.2 fun _ _ => rfl

theorem bounded_of_lookahead_le (c : Coordinator) (hle : lookahead ≤ 1) :
    c.Bounded ((numTokens - lookahead) / c.hashBlockSize) (numTokens - 1) := by
  cases c with
  | hybrid c => exact HybridConfig.bounded_of_lookahead_le hle
  | unitary c =>
    have hreach : (numTokens - 1) / c.spec.blockSize ≤ (numTokens - lookahead) / c.spec.blockSize :=
      Nat.div_le_div_right (by omega)
    show UnitaryConfig.Bounded c _ _
    unfold UnitaryConfig.Bounded
    split
    · trivial
    · exact .inl hreach
    · exact hreach

/-- No lookup of a request raises just if every pass is bounded, which is so with at most one token
of lookahead. -/
theorem neverRaises_iff (c : Coordinator) (hok : c.ChunkedOk) (numTokens lookahead : Nat) :
    (c.NeverRaises numTokens lookahead ↔
      c.Bounded ((numTokens - lookahead) / c.hashBlockSize) (numTokens - 1)) ∧
    (lookahead ≤ 1 → c.NeverRaises numTokens lookahead) := by
  have hiff : c.NeverRaises numTokens lookahead ↔
      c.Bounded ((numTokens - lookahead) / c.hashBlockSize) (numTokens - 1) := by
    constructor
    · intro hnever
      have hsome := hnever Nat (poolBy c.hashBlockSize fun _ _ => true)
        (List.range ((numTokens - lookahead) / c.hashBlockSize)) rfl length_range
      cases c with
      | unitary c =>
        have hbounded := UnitaryConfig.bounded_of_findLongestCacheHit rfl hok
          (allCached_poolBy _ _ _) hsome
        rwa [length_range] at hbounded
      | hybrid c =>
        have hbounded := HybridConfig.bounded_of_findLongestCacheHit rfl hok
          (fun g _ => allCached_poolBy _ _ _) hsome
        rwa [length_range] at hbounded
    · intro hbounded H p blockHashes hp hlength
      rw [← hlength] at hbounded
      cases c with
      | unitary c => exact UnitaryConfig.findLongestCacheHit_of_bounded hp hok hbounded
      | hybrid c => exact HybridConfig.findLongestCacheHit_of_bounded hp hok hbounded
  exact ⟨hiff, fun hle => hiff.2 (c.bounded_of_lookahead_le hle)⟩

/-- One group of sliding window layers with blocks of 16 tokens. -/
def windowOnly : Coordinator := .unitary ⟨⟨.slidingWindow 128, 16, 0⟩, false, by decide⟩

/-- With two tokens of lookahead a request of 33 tokens has one hash, but its second block is looked
up. -/
theorem lookup_raises :
    (List.range 1).length = (33 - 2) / 16 ∧
      windowOnly.findLongestCacheHit (poolBy 16 fun _ _ => true) (List.range 1)
        (33 - 1) = none := by
  decide +kernel

theorem neverRaises_windowOnly :
    (windowOnly.NeverRaises 40 2 ↔ windowOnly.Bounded ((40 - 2) / 16) (40 - 1)) ∧
      windowOnly.NeverRaises 40 2 := by
  have hok : windowOnly.ChunkedOk := fun h => nomatch h
  have hbounded : windowOnly.Bounded ((40 - 2) / 16) (40 - 1) := by
    show (40 - 1) / 16 ≤ (40 - 2) / 16
    decide
  exact ⟨(neverRaises_iff windowOnly hok 40 2).1,
    (neverRaises_iff windowOnly hok 40 2).1.2 hbounded⟩

end Coordinator

end Vllm.Lookup
