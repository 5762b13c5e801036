import Vllm.Lookup.Groups

/-!
# The longest common hit

Without EAGLE drop, `findLongestCacheHit` returns the largest aligned length at
which every spec group has what it needs (`findLongestCacheHit_isGreatest`).
Full attention accepts every aligned length up to the one it finds first, so
that later rounds only trim it; the other lookups return the largest length they
accept, so that no common length is ever passed over and a round that changes
nothing has found one.

Two deviations from the plain reading of "every group is cached at `L`" are part
of the statement. A sliding window lookup needs at least one cached block, also
for a window of one token. And a fine-grained full attention lookup only reads
hashes of prefixes up to the length it is asked for: a block that is cached
under a longer prefix does not count (`longer_prefix_not_found`).
-/

namespace Vllm.Lookup

open Function Library Pool List KVCacheSpec

variable {H : Type} {g : SpecGroup} {rows : List Row} {gs : List SpecGroup} {length : Nat}

/-! ## The specification -/

section Spec

variable (p : BlockPool H) (blockHashes : List H)

/-- The full attention groups accept a length. Each one is looked up up to the
length that the ones before it have found. -/
def FullChain (alignmentTokens : Nat) : List SpecGroup → Nat → Nat → Prop
  | [], _, _ => True
  | g :: rest, bound, length =>
    FullValid p blockHashes g.groupIds g.spec.blockSize bound length ∧
    ∀ b, IsFloor (fun l => alignmentTokens ∣ l ∧
        FullValid p blockHashes g.groupIds g.spec.blockSize bound l) bound b →
      FullChain alignmentTokens rest b length

/-- A sliding window or Mamba group accepts a length. -/
def SpecGroup.Accepts (g : SpecGroup) (length : Nat) : Prop :=
  match g.spec.kind with
  | .slidingWindow window =>
    SlidingValid p blockHashes g.groupIds g.spec.blockSize window length
  | .mamba => MambaValid p blockHashes g.groupIds length
  | .fullAttention | .chunkedLocal _ => True

/-- A common hit of all spec groups. -/
structure HybridConfig.CommonHit (c : HybridConfig) (maxCacheHitLength length : Nat) : Prop where
  le : length ≤ maxCacheHitLength
  aligned : c.cacheHitAlignmentTokens ∣ length
  full : FullChain p blockHashes c.cacheHitAlignmentTokens c.fullGroups maxCacheHitLength length
  others : ∀ g ∈ c.otherGroups, g.Accepts p blockHashes length

/-- The block of one group that is cached for the prefix of `b` tokens. -/
def cachedBlock (groupId b : Nat) : Option Nat :=
  if p.hashBlockSize ∣ b ∧ 0 < b then
    (blockHashes[b / p.hashBlockSize - 1]?).bind fun h =>
      p.cachedBlockHashToBlock.getOneBlock ⟨h, groupId⟩
  else none

/-- The blocks of one group for a hit: cached blocks where the attention type needs
them, null blocks elsewhere. -/
def SpecGroup.HitBlocks (g : SpecGroup) (groupId maxCacheHitLength length : Nat)
    (blocks : List Nat) : Prop :=
  match g.spec.kind with
  | .fullAttention =>
    blocks.length = cdiv length g.spec.blockSize ∧
    ∀ j < blocks.length, ∃ b, min length ((j + 1) * g.spec.blockSize) ≤ b ∧
      b ≤ (j + 1) * g.spec.blockSize ∧ b ≤ maxCacheHitLength ∧
      blocks[j]? = cachedBlock p blockHashes groupId b
  | .slidingWindow window =>
    blocks.length * g.spec.blockSize = length ∧
    ∀ j < blocks.length, blocks[j]? =
      if length < (j + 1) * g.spec.blockSize + max (window - 1) 1 then
        cachedBlock p blockHashes groupId ((j + 1) * g.spec.blockSize)
      else some 0
  | .mamba =>
    blocks.length = cdiv length g.spec.blockSize ∧
    ∀ j < blocks.length, blocks[j]? =
      if length ≤ (j + 1) * g.spec.blockSize then cachedBlock p blockHashes groupId length
      else some 0
  | .chunkedLocal _ => True

/-- The rows of a hit of a sliding window or Mamba group. -/
def SpecGroup.HitRows (g : SpecGroup) (length : Nat) (rows : List Row) : Prop :=
  match g.spec.kind with
  | .slidingWindow window =>
    SlidingRows p blockHashes g.groupIds g.spec.blockSize window length rows
  | .mamba => MambaRows p blockHashes g.groupIds g.spec.blockSize length rows
  | .fullAttention | .chunkedLocal _ => True

end Spec

/-! ## One spec group -/

namespace HybridConfig

variable {c : HybridConfig} {p : BlockPool H} {blockHashes : List H} {st st' : HitState}
  {bound top : Nat}

/-- A group that does not drop is looked up at the candidate length. -/
theorem groupStep_lookup (idx : Nat) (he : g.useEagle = false)
    (hnew : g.spec.isFullAttention = true → st.hitRows idx = none) {l : Nat}
    (hfind : g.findHit p blockHashes st.currHitLength false c.cacheHitAlignmentTokens =
      some (rows, l)) :
    ∃ st', c.groupStep p blockHashes st g idx = some st' ∧ st'.currHitLength = l ∧
      st'.hitRows = update st.hitRows idx (some rows) ∧
      st'.hitLengths = update st.hitLengths idx l := by
  have hcond : ¬ (g.spec.isFullAttention && (st.hitRows idx).isSome) = true := by
    intro h
    obtain ⟨hf, hs⟩ := Bool.and_eq_true_iff.mp h
    simp [hnew hf] at hs
  rw [groupStep, if_neg hcond]
  simp only [he, Bool.false_and, lookupLength, Bool.false_eq_true, if_false, hfind,
    Option.map_some]
  exact ⟨_, rfl, rfl, rfl, rfl⟩

/-- A sliding window or Mamba group lowers the candidate to the largest length it
accepts. -/
theorem groupStep_other (hp : p.hashBlockSize = c.hashBlockSize)
    (idx : Nat) (hg : g ∈ c.otherGroups) (he : g.useEagle = false)
    (hkind : g.spec.isChunkedLocal = false)
    (hlen : st.currHitLength / c.hashBlockSize ≤ blockHashes.length) :
    ∃ st' rows, c.groupStep p blockHashes st g idx = some st' ∧
      IsFloor (fun l => c.cacheHitAlignmentTokens ∣ l ∧ g.Accepts p blockHashes l)
        st.currHitLength st'.currHitLength ∧
      g.HitRows p blockHashes st'.currHitLength rows ∧
      st'.hitRows = update st.hitRows idx (some rows) ∧
      st'.hitLengths = update st.hitLengths idx st'.currHitLength := by
  obtain ⟨hmem, hfull⟩ := mem_filter.mp hg
  have u := c.units hmem
  rw [← hp] at u hlen
  have hfind : ∃ rows l, g.findHit p blockHashes st.currHitLength false
      c.cacheHitAlignmentTokens = some (rows, l) ∧
      IsFloor (fun l => c.cacheHitAlignmentTokens ∣ l ∧ g.Accepts p blockHashes l)
        st.currHitLength l ∧ g.HitRows p blockHashes l rows := by
    cases hk : g.spec.kind with
    | fullAttention => simp [isFullAttention, hk] at hfull
    | chunkedLocal n => simp [isChunkedLocal, hk] at hkind
    | slidingWindow window =>
      simp only [SpecGroup.findHit, SpecGroup.Accepts, SpecGroup.HitRows, hk]
      refine slidingWindowHit_spec u (c.blockSize_dvd_align hmem ?_)
        (fun j hj => lookup_ne_none u hlen hj) window
      simp [supportsFineGrainedHashLookup, isFullAttention,
        isMamba, hk]
    | mamba =>
      simp only [SpecGroup.findHit, SpecGroup.Accepts, SpecGroup.HitRows, hk]
      exact mambaHit_spec u hlen
  obtain ⟨rows, l, hfind, hfloor, hrows⟩ := hfind
  have hnew : g.spec.isFullAttention = true → st.hitRows idx = none := by
    intro h
    simp [h] at hfull
  obtain ⟨st', hstep, rfl, hr, hl⟩ := groupStep_lookup idx he hnew hfind
  exact ⟨st', rows, hstep, hfloor, hrows, hr, hl⟩

/-- A full attention group that was not looked up yet. -/
theorem groupStep_full (blockHashes : List H) (hp : p.hashBlockSize = c.hashBlockSize)
     {idx : Nat} (hg : g ∈ c.fullGroups) (he : g.useEagle = false) (hnew : st.hitRows idx = none) :
    ∃ st' rows, c.groupStep p blockHashes st g idx = some st' ∧
      IsFloor (fun l => c.cacheHitAlignmentTokens ∣ l ∧ FullValid p blockHashes g.groupIds
        g.spec.blockSize st.currHitLength l) st.currHitLength st'.currHitLength ∧
      FullRows p blockHashes g.groupIds g.spec.blockSize st.currHitLength st'.currHitLength
        rows ∧
      st'.hitRows = update st.hitRows idx (some rows) ∧
      st'.hitLengths = update st.hitLengths idx st'.currHitLength := by
  obtain ⟨hmem, hfull⟩ := mem_filter.mp hg
  have u := c.units hmem
  rw [← hp] at u
  have hk : g.spec.kind = .fullAttention := by
    simpa [isFullAttention] using hfull
  obtain ⟨st', hstep, hc, hr, hl⟩ := groupStep_lookup idx he (fun _ => hnew)
    (show g.findHit p blockHashes st.currHitLength false c.cacheHitAlignmentTokens =
      some (fullAttentionHit p blockHashes st.currHitLength g.groupIds g.spec.blockSize false
        c.cacheHitAlignmentTokens) by simp only [SpecGroup.findHit, hk])
  refine ⟨st', _, hstep, ?_, ?_, hr, hc ▸ hl⟩
  · rw [hc]
    exact fullAttentionHit_spec u
  · rw [hc]
    exact (fullAttentionHit_rows u false).2.2

/-! ## One round -/

theorem groupPass_append (gs gs' : List (SpecGroup × Nat)) (st : HitState) :
    c.groupPass p blockHashes (gs ++ gs') st =
      (c.groupPass p blockHashes gs st).bind (c.groupPass p blockHashes gs') := by
  induction gs generalizing st with
  | nil => rfl
  | cons g gs ih =>
    rw [cons_append, groupPass, groupPass, Option.bind_assoc]
    congr 1
    exact funext ih

/-- What a pass over sliding window and Mamba groups does. -/
structure OthersPass (c : HybridConfig) (p : BlockPool H) (blockHashes : List H)
    (gs : List SpecGroup) (n : Nat) (st st' : HitState) : Prop where
  le : st'.currHitLength ≤ st.currHitLength
  common_le : ∀ l ≤ st.currHitLength, c.cacheHitAlignmentTokens ∣ l →
    (∀ g ∈ gs, g.Accepts p blockHashes l) → l ≤ st'.currHitLength
  frame : ∀ k < n, st'.hitRows k = st.hitRows k ∧ st'.hitLengths k = st.hitLengths k
  /-- The last group accepts the length, and all do if it did not change. -/
  accepts : ∀ i g, gs[i]? = some g →
    st'.currHitLength = st.currHitLength ∨ i + 1 = gs.length →
    c.cacheHitAlignmentTokens ∣ st'.currHitLength ∧ g.Accepts p blockHashes st'.currHitLength ∧
      ∃ rows, st'.hitRows (n + i) = some rows ∧ g.HitRows p blockHashes st'.currHitLength rows

theorem groupPass_others (hp : p.hashBlockSize = c.hashBlockSize)
    (hgs : ∀ g ∈ gs, g ∈ c.otherGroups ∧ g.useEagle = false ∧
      g.spec.isChunkedLocal = false) (n : Nat)
    (hlen : st.currHitLength / c.hashBlockSize ≤ blockHashes.length) :
    ∃ st', c.groupPass p blockHashes (gs.zipIdx n) st = some st' ∧
      OthersPass c p blockHashes gs n st st' := by
  induction gs generalizing n st with
  | nil =>
    exact ⟨st, rfl, Nat.le_refl _, fun l hl _ _ => hl, fun _ _ => ⟨rfl, rfl⟩,
      fun i g h => by simp at h⟩
  | cons g gs ih =>
    obtain ⟨hg, he, hkind⟩ := hgs g mem_cons_self
    obtain ⟨st₁, rows, hstep, hfloor, hrows, hr, hl⟩ := groupStep_other hp n hg he hkind hlen
    have hlen₁ : st₁.currHitLength / c.hashBlockSize ≤ blockHashes.length :=
      Nat.le_trans (Nat.div_le_div_right hfloor.le) hlen
    obtain ⟨st', hpass, ih⟩ := ih (fun g' h => hgs g' (mem_cons_of_mem g h)) (n + 1) hlen₁
    refine ⟨st', by rw [zipIdx_cons, groupPass, hstep]; exact hpass,
      Nat.le_trans ih.le hfloor.le, fun l hl hal hacc => ?_, fun k hk => ?_,
      fun i g' hi hcase => ?_⟩
    · exact ih.common_le l (hfloor.le_of_valid hl ⟨hal, hacc g mem_cons_self⟩) hal
        fun g' h => hacc g' (mem_cons_of_mem g h)
    · obtain ⟨h1, h2⟩ := ih.frame k (Nat.lt_succ_of_lt hk)
      rw [h1, h2, hr, hl, update_of_ne (Nat.ne_of_lt hk),
        update_of_ne (Nat.ne_of_lt hk)]
      exact ⟨rfl, rfl⟩
    have hle := ih.le
    have hle₁ := hfloor.le
    cases i with
    | zero =>
      obtain rfl : g = g' := by simpa using hi
      -- the groups behind this one did not lower the length
      have heq : st'.currHitLength = st₁.currHitLength := by
        rcases hcase with h | h
        · omega
        have hnil : gs = [] := length_eq_zero_iff.mp (by
          simp only [length_cons] at h
          omega)
        subst hnil
        rw [zipIdx_nil, groupPass, Option.some.injEq] at hpass
        rw [hpass]
      rw [heq, Nat.add_zero, (ih.frame n (Nat.lt_succ_self n)).1, hr, update_self]
      exact ⟨hfloor.valid.1, hfloor.valid.2, rows, rfl, hrows⟩
    | succ i =>
      have hi' : gs[i]? = some g' := by simpa using hi
      rw [show n + (i + 1) = n + 1 + i by omega]
      refine ih.accepts i g' hi' (hcase.imp (fun h => by omega) fun h => ?_)
      simpa using h

/-- The full attention groups with their answers: none is shorter than `length`, and
their rows are cached under boundaries up to `bound`. -/
def FullRecorded (p : BlockPool H) (blockHashes : List H) (gs : List SpecGroup)
    (n bound length : Nat) (st : HitState) : Prop :=
  ∀ i g, gs[i]? = some g → ∃ rows, st.hitRows (n + i) = some rows ∧
    length ≤ st.hitLengths (n + i) ∧
    FullRows p blockHashes g.groupIds g.spec.blockSize bound (st.hitLengths (n + i)) rows

/-- The first pass over the full attention groups: the length it ends with is the
largest one that they all accept, and they accept every aligned length below. -/
theorem groupPass_fulls (blockHashes : List H) (hp : p.hashBlockSize = c.hashBlockSize)
    (hgs : ∀ g ∈ gs, g ∈ c.fullGroups ∧ g.useEagle = false) (n : Nat) (st : HitState)
    (hnew : ∀ k, n ≤ k → st.hitRows k = none) (hbound : st.currHitLength ≤ bound) :
    ∃ st', c.groupPass p blockHashes (gs.zipIdx n) st = some st' ∧
      st'.currHitLength ≤ st.currHitLength ∧
      (gs ≠ [] → c.cacheHitAlignmentTokens ∣ st'.currHitLength ∧
        st'.currHitLength / c.hashBlockSize ≤ blockHashes.length) ∧
      (∀ l ≤ st.currHitLength, c.cacheHitAlignmentTokens ∣ l →
        (FullChain p blockHashes c.cacheHitAlignmentTokens gs st.currHitLength l ↔
          l ≤ st'.currHitLength)) ∧
      (∀ k < n, st'.hitRows k = st.hitRows k ∧ st'.hitLengths k = st.hitLengths k) ∧
      FullRecorded p blockHashes gs n bound st'.currHitLength st' := by
  induction gs generalizing n st with
  | nil =>
    exact ⟨st, rfl, Nat.le_refl _, fun h => absurd rfl h, fun l hl _ => by simp [FullChain, hl],
      fun _ _ => ⟨rfl, rfl⟩, fun i g h => by simp at h⟩
  | cons g gs ih =>
    obtain ⟨hg, he⟩ := hgs g mem_cons_self
    have u := c.units (mem_filter.mp hg).1
    obtain ⟨st₁, rows, hstep, hfloor, hrows, hr, hl⟩ :=
      groupStep_full blockHashes hp hg he (hnew n (Nat.le_refl n))
    have hnew₁ : ∀ k, n + 1 ≤ k → st₁.hitRows k = none := by
      intro k hk
      rw [hr, update_of_ne (by omega)]
      exact hnew k (by omega)
    obtain ⟨st', hpass, hle, hne, hchain, hframe, hrec⟩ :=
      ih (fun g' h => hgs g' (mem_cons_of_mem g h)) (n + 1) st₁ hnew₁
        (Nat.le_trans hfloor.le hbound)
    have hrange : st₁.currHitLength / c.hashBlockSize ≤ blockHashes.length :=
      hp ▸ (hrows.valid u.block_pos).div_le u.block_pos
    refine ⟨st', by rw [zipIdx_cons, groupPass, hstep]; exact hpass,
      Nat.le_trans hle hfloor.le, fun _ => ?_, fun l hl hal => ?_, fun k hk => ?_,
      fun i g' hi => ?_⟩
    · refine ⟨?_, Nat.le_trans (Nat.div_le_div_right hle) hrange⟩
      cases gs with
      | nil =>
        rw [zipIdx_nil, groupPass, Option.some.injEq] at hpass
        exact hpass ▸ hfloor.valid.1
      | cons g' gs => exact (hne (cons_ne_nil _ _)).1
    · -- this group accepts exactly the aligned lengths up to what it found
      have hown : FullValid p blockHashes g.groupIds g.spec.blockSize st.currHitLength l ↔
          l ≤ st₁.currHitLength :=
        ⟨fun hv => hfloor.le_of_valid hl ⟨hal, hv⟩,
          fun hle => hfloor.valid.2.mono hle (Nat.le_refl _)⟩
      rw [FullChain, hown]
      constructor
      · rintro ⟨h1, h2⟩
        exact (hchain l h1 hal).mp (h2 _ hfloor)
      · intro h
        have h1 := Nat.le_trans h hle
        refine ⟨h1, fun b hb => ?_⟩
        rw [hb.unique hfloor]
        exact (hchain l h1 hal).mpr h
    · obtain ⟨h1, h2⟩ := hframe k (Nat.lt_succ_of_lt hk)
      rw [h1, h2, hr, hl, update_of_ne (Nat.ne_of_lt hk),
        update_of_ne (Nat.ne_of_lt hk)]
      exact ⟨rfl, rfl⟩
    · cases i with
      | zero =>
        obtain rfl : g = g' := by simpa using hi
        obtain ⟨h1, h2⟩ := hframe n (Nat.lt_succ_self n)
        rw [Nat.add_zero, h1, h2, hr, hl, update_self, update_self]
        exact ⟨rows, rfl, hle, hrows.mono_bound hbound⟩
      | succ i =>
        rw [show n + (i + 1) = n + 1 + i by omega]
        exact hrec i g' (by simpa using hi)

/-- Once they are recorded, full attention groups do not lower a length that they
all reach. -/
theorem groupPass_recorded (hgs : ∀ g ∈ gs, g ∈ c.fullGroups) (n : Nat)
    (hrec : FullRecorded p blockHashes gs n bound length st) (hle : st.currHitLength ≤ length) :
    c.groupPass p blockHashes (gs.zipIdx n) st = some st := by
  induction gs generalizing n with
  | nil => rfl
  | cons g gs ih =>
    obtain ⟨rows, hr, hl, -⟩ := hrec 0 g rfl
    rw [Nat.add_zero] at hr hl
    have hfull := (mem_filter.mp (hgs g mem_cons_self)).2
    have hstep : c.groupStep p blockHashes st g n = some st := by
      rw [groupStep, if_pos (by rw [hfull, hr]; rfl), Nat.min_eq_left (Nat.le_trans hle hl)]
    rw [zipIdx_cons, groupPass, hstep]
    refine ih (fun g' h => hgs g' (mem_cons_of_mem g h)) (n + 1) fun i g' hi => ?_
    rw [show n + 1 + i = n + (i + 1) by omega]
    exact hrec (i + 1) g' (by simpa using hi)

/-! ## The loop -/

/-- No EAGLE group, and only attention types that the result covers. -/
structure Plain (c : HybridConfig) : Prop where
  noEagle : ∀ g ∈ c.attentionGroups, g.useEagle = false
  noChunked : ∀ g ∈ c.attentionGroups, g.spec.isChunkedLocal = false

theorem Plain.others (h : c.Plain) : ∀ g ∈ c.otherGroups, g ∈ c.otherGroups ∧
    g.useEagle = false ∧ g.spec.isChunkedLocal = false := by
  intro g hg
  have hmem := (mem_filter.mp hg).1
  exact ⟨hg, h.noEagle g hmem, h.noChunked g hmem⟩

theorem zipIdx_attentionGroups : c.attentionGroups.zipIdx =
    c.fullGroups.zipIdx 0 ++ c.otherGroups.zipIdx c.fullGroups.length := by
  rw [attentionGroups_eq, zipIdx_append, Nat.zero_add]

/-- The state in which the loop ends with the length `l`. -/
structure Final (c : HybridConfig) (p : BlockPool H) (blockHashes : List H) (bound top l : Nat)
    (st : HitState) : Prop where
  le : l ≤ top
  aligned : c.cacheHitAlignmentTokens ∣ l
  accepts : ∀ g ∈ c.otherGroups, g.Accepts p blockHashes l
  greatest : ∀ m ≤ top, c.cacheHitAlignmentTokens ∣ m →
    (∀ g ∈ c.otherGroups, g.Accepts p blockHashes m) → m ≤ l
  full : FullRecorded p blockHashes c.fullGroups 0 bound l st
  other : ∀ i g, c.otherGroups[i]? = some g → ∃ rows,
    st.hitRows (c.fullGroups.length + i) = some rows ∧ g.HitRows p blockHashes l rows

/-- In the two-group case there is one group besides full attention. -/
theorem otherGroups_of_isSimpleHybrid (h : c.isSimpleHybrid = true) : c.otherGroups.length ≤ 1 := by
  obtain ⟨h2, hhead⟩ := Bool.and_eq_true_iff.mp h
  have hlen : c.attentionGroups.length = 2 := by simpa using h2
  rw [attentionGroups_eq, length_append] at hlen
  rcases Nat.eq_zero_or_pos c.fullGroups.length with h0 | hpos
  · -- the first group would not be full attention
    rw [attentionGroups_eq, length_eq_zero_iff.mp h0, nil_append] at hhead
    cases ho : c.otherGroups with
    | nil => simp
    | cons g gs =>
      have hg : g ∈ c.otherGroups := by rw [ho]; exact mem_cons_self
      have hfull := (mem_filter.mp hg).2
      simp only [ho, head?_cons, Option.any_some] at hhead
      simp [hhead] at hfull
  · omega

/-- The passes over the other groups leave the full attention answers. -/
theorem FullRecorded.others (h : FullRecorded p blockHashes c.fullGroups 0 bound length st)
    (hpass : OthersPass c p blockHashes c.otherGroups c.fullGroups.length st st') :
    FullRecorded p blockHashes c.fullGroups 0 bound length st' := by
  intro i g hi
  obtain ⟨h1, h2⟩ := hpass.frame (0 + i) (by
    rw [Nat.zero_add]
    exact (List.getElem?_eq_some_iff.mp hi).1)
  rw [h1, h2]
  exact h i g hi

/-- A round ends the loop if no other group lowered the length, or if there is at
most one such group. -/
theorem final_of_round (hrec : FullRecorded p blockHashes c.fullGroups 0 bound top st)
    (htop : st.currHitLength ≤ top)
    (hal : c.otherGroups = [] → c.cacheHitAlignmentTokens ∣ st.currHitLength)
    (hub : ∀ m ≤ top, c.cacheHitAlignmentTokens ∣ m →
      (∀ g ∈ c.otherGroups, g.Accepts p blockHashes m) → m ≤ st.currHitLength)
    (hpass : OthersPass c p blockHashes c.otherGroups c.fullGroups.length st st')
    (hend : st'.currHitLength = st.currHitLength ∨ c.otherGroups.length ≤ 1) :
    Final c p blockHashes bound top st'.currHitLength st' := by
  have hacc : ∀ i g, c.otherGroups[i]? = some g →
      c.cacheHitAlignmentTokens ∣ st'.currHitLength ∧
      g.Accepts p blockHashes st'.currHitLength ∧ ∃ rows,
        st'.hitRows (c.fullGroups.length + i) = some rows ∧
        g.HitRows p blockHashes st'.currHitLength rows := by
    intro i g hi
    refine hpass.accepts i g hi (hend.imp_right fun h => ?_)
    have := (List.getElem?_eq_some_iff.mp hi).1
    omega
  have hle := Nat.le_trans hpass.le htop
  refine ⟨hle, ?_, fun g hg => ?_, fun m hm hal' hm' => ?_, fun i g hi => ?_,
    fun i g hi => (hacc i g hi).2.2⟩
  · cases ho : c.otherGroups with
    | nil =>
      have heq : st'.currHitLength = st.currHitLength :=
        Nat.le_antisymm hpass.le (hpass.common_le _ (Nat.le_refl _) (hal ho) (by simp [ho]))
      exact heq ▸ hal ho
    | cons g gs => exact (hacc 0 g (by simp [ho])).1
  · obtain ⟨i, hi⟩ := getElem?_of_mem hg
    exact (hacc i g hi).2.1
  · exact hpass.common_le m (hub m hm hal' hm') hal' hm'
  · obtain ⟨rows, h1, h2, h3⟩ := hrec.others hpass i g hi
    exact ⟨rows, h1, Nat.le_trans hle h2, h3⟩

/-- The loop, from a round in which the full attention groups leave `st₁`. -/
theorem hitLoop_final (hp : p.hashBlockSize = c.hashBlockSize) (hplain : c.Plain)
    {fuel x : Nat} (st : HitState) {st₁ : HitState}
    (hfull : c.groupPass p blockHashes (c.fullGroups.zipIdx 0) { st with currHitLength := x } =
      some st₁)
    (hx : st₁.currHitLength ≤ x) (htop : st₁.currHitLength ≤ top)
    (hrec : FullRecorded p blockHashes c.fullGroups 0 bound top st₁)
    (hlen : st₁.currHitLength / c.hashBlockSize ≤ blockHashes.length)
    (hal : c.otherGroups = [] → c.cacheHitAlignmentTokens ∣ st₁.currHitLength)
    (hub : ∀ m ≤ top, c.cacheHitAlignmentTokens ∣ m →
      (∀ g ∈ c.otherGroups, g.Accepts p blockHashes m) → m ≤ st₁.currHitLength)
    (hfuel : x ≤ fuel) :
    ∃ l st', c.hitLoop p blockHashes (fuel + 1) x st = some (l, st') ∧
      Final c p blockHashes bound top l st' := by
  -- induction on the fuel: a round that does not end the loop lowers the length
  induction fuel generalizing x st st₁ with
  | zero =>
    obtain ⟨st₂, hothers, hpass⟩ := groupPass_others hp hplain.others c.fullGroups.length hlen
    have heq : st₂.currHitLength = st₁.currHitLength := by
      have := hpass.le
      omega
    refine ⟨x, st₂, ?_, ?_⟩
    · rw [hitLoop, zipIdx_attentionGroups, groupPass_append, hfull, Option.bind_some, hothers,
        Option.bind_some, if_pos (by omega)]
    · rw [show x = st₂.currHitLength by omega]
      exact final_of_round hrec htop hal hub hpass (.inl heq)
  | succ fuel ih =>
    obtain ⟨st₂, hothers, hpass⟩ := groupPass_others hp hplain.others c.fullGroups.length hlen
    have hle := hpass.le
    have hloop : c.hitLoop p blockHashes (fuel + 1 + 1) x st =
        if x ≤ st₂.currHitLength then some (x, st₂)
        else if c.isSimpleHybrid then some (st₂.currHitLength, st₂)
        else c.hitLoop p blockHashes (fuel + 1) st₂.currHitLength st₂ := by
      rw [hitLoop, zipIdx_attentionGroups, groupPass_append, hfull, Option.bind_some, hothers,
        Option.bind_some]
    by_cases hstop : x ≤ st₂.currHitLength
    · rw [if_pos hstop] at hloop
      refine ⟨x, st₂, hloop, ?_⟩
      rw [show x = st₂.currHitLength by omega]
      exact final_of_round hrec htop hal hub hpass (.inl (by omega))
    rw [if_neg hstop] at hloop
    cases hs : c.isSimpleHybrid with
    | true =>
      rw [hs] at hloop
      exact ⟨_, st₂, hloop, final_of_round hrec htop hal hub hpass
        (.inr (otherGroups_of_isSimpleHybrid hs))⟩
    | false =>
      rw [hs] at hloop
      rw [hloop]
      have hrec₂ := hrec.others hpass
      refine ih st₂ (groupPass_recorded (fun g hg => hg) 0 hrec₂ ?_) (Nat.le_refl _) ?_ hrec₂ ?_ ?_
        ?_ (by omega)
      · exact Nat.le_trans hle htop
      · exact Nat.le_trans hle htop
      · exact Nat.le_trans (Nat.div_le_div_right hle) hlen
      · intro ho
        have heq : st₂.currHitLength = st₁.currHitLength :=
          Nat.le_antisymm hle (hpass.common_le _ (Nat.le_refl _) (hal ho) (by simp [ho]))
        exact heq ▸ hal ho
      · exact fun m hm hal' hm' => hpass.common_le m (hub m hm hal' hm') hal' hm'

end HybridConfig

/-! ## The blocks of one group -/

section Columns

variable {p : BlockPool H} {blockHashes : List H} {groupIds : List Nat} {groupId k : Nat}
  {row : Row} {b maxCacheHitLength : Nat}

theorem getD_of_getCachedBlock {h : H} (hrow : p.getCachedBlock h groupIds = some row)
    (hk : groupIds[k]? = some groupId) :
    p.cachedBlockHashToBlock.getOneBlock ⟨h, groupId⟩ = some (row.getD k 0) := by
  unfold BlockPool.getCachedBlock at hrow
  induction groupIds generalizing row k with
  | nil => simp at hk
  | cons g rest ih =>
    simp only [mapM_cons, Option.bind_eq_bind, Option.bind_eq_some_iff, Option.pure_def,
      Option.some.injEq] at hrow
    obtain ⟨b, hb, rest', hrest, rfl⟩ := hrow
    cases k with
    | zero =>
      obtain rfl : g = groupId := by simpa using hk
      exact hb
    | succ k =>
      rw [getD_cons_succ]
      exact ih hrest (by simpa using hk)

theorem cachedBlock_of_boundaryRow
    (hrow : boundaryRow p blockHashes groupIds b = some row) (hk : groupIds[k]? = some groupId) :
    cachedBlock p blockHashes groupId b = some (row.getD k 0) := by
  unfold boundaryRow at hrow
  unfold cachedBlock
  split at hrow
  · next hb =>
    rw [if_pos hb]
    obtain ⟨h, hh, hrow⟩ := Option.bind_eq_some_iff.mp hrow
    rw [hh]
    exact getD_of_getCachedBlock hrow hk
  · cases hrow

theorem nullRow_getD : (nullRow groupIds).getD k 0 = 0 := by
  simp only [nullRow, getD_eq_getElem?_getD, getElem?_map]
  cases groupIds[k]? <;> rfl

/-- The column of a row that is cached or null. -/
theorem column_getElem? {j : Nat} (needed : Prop) [Decidable needed]
    (hk : groupIds[k]? = some groupId) (hj : j < rows.length)
    (hrow : rows[j]? = if needed then boundaryRow p blockHashes groupIds b
      else some (nullRow groupIds)) :
    (rows.map (·.getD k 0))[j]? =
      if needed then cachedBlock p blockHashes groupId b else some 0 := by
  rw [getElem?_map]
  split at hrow
  · next hn =>
    rw [getElem?_eq_getElem hj] at hrow ⊢
    rw [if_pos hn, cachedBlock_of_boundaryRow hrow.symm hk]
    rfl
  · next hn =>
    rw [hrow, if_neg hn, Option.map_some, nullRow_getD]

theorem SpecGroup.hitBlocks_of_hitRows (hfull : g.spec.isFullAttention = false)
    (hrows : g.HitRows p blockHashes length rows) (hk : g.groupIds[k]? = some groupId) :
    g.HitBlocks p blockHashes groupId maxCacheHitLength length (rows.map (·.getD k 0)) := by
  unfold SpecGroup.HitRows at hrows
  unfold SpecGroup.HitBlocks
  cases hkind : g.spec.kind with
  | fullAttention => simp [isFullAttention, hkind] at hfull
  | chunkedLocal n => trivial
  | slidingWindow window | mamba =>
    simp only [hkind] at hrows
    simp only [length_map]
    exact ⟨hrows.length_eq, fun j hj => column_getElem? _ hk hj (hrows.rows_eq j hj)⟩

theorem SpecGroup.hitBlocks_of_fullRows (hfull : g.spec.isFullAttention = true)
    (hrows : FullRows p blockHashes g.groupIds g.spec.blockSize maxCacheHitLength length rows)
    (hk : g.groupIds[k]? = some groupId) :
    g.HitBlocks p blockHashes groupId maxCacheHitLength length (rows.map (·.getD k 0)) := by
  have hkind : g.spec.kind = .fullAttention := by
    simpa [isFullAttention] using hfull
  simp only [SpecGroup.HitBlocks, hkind, length_map]
  refine ⟨hrows.length_eq, fun j hj => ?_⟩
  obtain ⟨b, hlo, hhi, hbd, hrow⟩ := hrows.cached j rows[j] (getElem?_eq_getElem hj)
  refine ⟨b, hlo, hhi, hbd, ?_⟩
  rw [getElem?_map, getElem?_eq_getElem hj, cachedBlock_of_boundaryRow hrow hk]
  rfl

theorem idxOf?_of_nodup {l : List Nat} (hnd : l.Nodup) {a : Nat} (hk : l[k]? = some a) :
    l.idxOf? a = some k := by
  induction l generalizing k with
  | nil => simp at hk
  | cons x l ih =>
    obtain ⟨hx, hnd⟩ := nodup_cons.mp hnd
    rw [idxOf?_cons]
    cases k with
    | zero =>
      obtain rfl : x = a := by simpa using hk
      simp
    | succ k =>
      have hk' : l[k]? = some a := by simpa using hk
      have hne : (x == a) = false := by
        simp only [beq_eq_false_iff_ne]
        rintro rfl
        exact hx (mem_of_getElem? hk')
      simp [hne, ih hnd hk']

/-- A group is found in its own spec group. -/
theorem findSome?_zipIdx {β : Type}
    (hnd : (gs.flatMap (·.groupIds)).Nodup) {i : Nat} (hi : gs[i]? = some g)
    (hk : g.groupIds[k]? = some groupId) (n : Nat) (f : SpecGroup × Nat → Nat → β) :
    (gs.zipIdx n).findSome? (fun g => (g.1.groupIds.idxOf? groupId).map (f g)) =
      some (f (g, n + i) k) := by
  induction gs generalizing i n with
  | nil => simp at hi
  | cons g' gs ih =>
    rw [flatMap_cons, nodup_append] at hnd
    obtain ⟨hnd1, hnd2, hdisj⟩ := hnd
    rw [zipIdx_cons, findSome?_cons]
    cases i with
    | zero =>
      obtain rfl : g' = g := by simpa using hi
      rw [idxOf?_of_nodup hnd1 hk]
      rfl
    | succ i =>
      have hi' : gs[i]? = some g := by simpa using hi
      have hmem : groupId ∈ gs.flatMap (·.groupIds) :=
        mem_flatMap.mpr ⟨g, mem_of_getElem? hi', mem_of_getElem? hk⟩
      have hnone : g'.groupIds.idxOf? groupId = none := by
        rw [idxOf?_eq_none_iff]
        exact fun h => hdisj groupId h groupId hmem rfl
      simp only [hnone, Option.map_none]
      rw [ih hnd2 hi' (n + 1), show n + 1 + i = n + (i + 1) by omega]

end Columns

/-! ## The result -/

namespace HybridConfig

variable (c : HybridConfig) (p : BlockPool H) (blockHashes : List H) (maxCacheHitLength : Nat)

theorem plain_of_groups {c : HybridConfig}
    (heagle : ∀ k ∈ c.kvCacheGroups, k.dropEagle = false)
    (hkind : ∀ k ∈ c.kvCacheGroups, k.spec.isChunkedLocal = false) : c.Plain where
  noEagle g hg := by
    cases he : g.useEagle with
    | false => rfl
    | true =>
      obtain ⟨k, hk, hd⟩ := c.exists_dropEagle hg he
      rw [heagle k hk] at hd
      cases hd
  noChunked g hg := by
    obtain ⟨k, hk, -, hs⟩ := c.exists_kvCacheGroup hg
    rw [hs]
    exact hkind k hk

/-- The loop of a lookup without EAGLE drop. -/
theorem hitLoop_spec (hp : p.hashBlockSize = c.hashBlockSize) (hplain : c.Plain)
    (hlen : maxCacheHitLength / c.hashBlockSize ≤ blockHashes.length ∨ c.fullGroups ≠ []) :
    ∃ l st, c.hitLoop p blockHashes (maxCacheHitLength + 1) maxCacheHitLength
        (.init maxCacheHitLength) = some (l, st) ∧
      IsGreatest {l | c.CommonHit p blockHashes maxCacheHitLength l} l ∧
      ∃ top, Final c p blockHashes maxCacheHitLength top l st := by
  have hfulls : ∀ g ∈ c.fullGroups, g ∈ c.fullGroups ∧ g.useEagle = false :=
    fun g hg => ⟨hg, hplain.noEagle g (mem_filter.mp hg).1⟩
  obtain ⟨st₁, hpass, hle, hne, hchain, -, hrec⟩ := groupPass_fulls blockHashes hp hfulls 0
    (.init maxCacheHitLength) (fun _ _ => rfl) (Nat.le_refl maxCacheHitLength)
  have hlen₁ : st₁.currHitLength / c.hashBlockSize ≤ blockHashes.length := by
    rcases hlen with h | h
    · exact Nat.le_trans (Nat.div_le_div_right hle) h
    · exact (hne h).2
  have hal : c.otherGroups = [] → c.cacheHitAlignmentTokens ∣ st₁.currHitLength := by
    intro ho
    refine (hne fun hf => c.attentionGroups_ne_nil ?_).1
    rw [attentionGroups_eq, hf, ho, nil_append]
  obtain ⟨l, st, hloop, hfinal⟩ := hitLoop_final hp hplain (.init maxCacheHitLength)
    hpass hle (Nat.le_refl _) hrec hlen₁ hal (fun m hm _ _ => hm) (Nat.le_refl maxCacheHitLength)
  refine ⟨l, st, hloop, ⟨?_, fun m hm => ?_⟩, _, hfinal⟩
  · have hl := Nat.le_trans hfinal.le hle
    exact ⟨hl, hfinal.aligned, (hchain l hl hfinal.aligned).mpr hfinal.le, hfinal.accepts⟩
  · exact hfinal.greatest m ((hchain m hm.le hm.aligned).mp hm.full) hm.aligned hm.others

/-- A pool in which exactly the given keys are cached. -/
def poolWith (hashBlockSize : Nat) (cached : List (Key Nat × Nat)) : BlockPool Nat where
  numGpuBlocks := cached.length + 1
  enableCaching := true
  hashBlockSize := hashBlockSize
  blocks b := ⟨0, (cached.find? (·.2 = b)).map (·.1), none, b == 0⟩
  freeBlockQueue := LinkedQueue.ofList (cached.map (·.2))
  cachedBlockHashToBlock := ⟨fun key => (cached.find? (·.1 = key)).map fun e => .single e.2⟩
  cachedBlockHashesByBlock _ := none

/-- Full attention and Mamba in blocks of 4, hashes of 2: hits may end inside a
block. -/
def fineConfig : HybridConfig where
  kvCacheGroups := [⟨⟨.fullAttention, 4, 0⟩, true, false⟩, ⟨⟨.mamba, 4, 0⟩, true, false⟩]
  hashBlockSize := 2
  schedulerBlockSize := 4
  dcpWorldSize := 1
  allowPartialHashHits := true
  hash_pos := by decide
  scheduler_pos := by decide
  hash_dvd := by decide
  scheduler_dvd := by decide
  cacheable := by decide

/-- Both blocks of full attention and the state at 6 are cached. -/
def finePool : BlockPool Nat := poolWith 2 [(⟨11, 0⟩, 1), (⟨13, 0⟩, 2), (⟨12, 1⟩, 3)]

/-- Full attention and a sliding window of one token. -/
def narrowConfig : HybridConfig where
  kvCacheGroups := [⟨⟨.fullAttention, 4, 0⟩, true, false⟩, ⟨⟨.slidingWindow 1, 4, 0⟩, true, false⟩]
  hashBlockSize := 4
  schedulerBlockSize := 4
  dcpWorldSize := 1
  allowPartialHashHits := true
  hash_pos := by decide
  scheduler_pos := by decide
  hash_dvd := by decide
  scheduler_dvd := by decide
  cacheable := by decide

/-- Where the plain reading fails. A request of 8 tokens may hit 7 of them. Both
blocks of full attention are cached, the second one under the prefix of 8, and so
is the state at 6; still the hit is empty, since the second block is only looked
for under the prefix of 6. And a window of one token needs no block at all, but a
lookup without any cached block of its group finds nothing. -/
theorem longer_prefix_not_found :
    ((fineConfig.findLongestCacheHit finePool [10, 11, 12, 13] 7).map (·.2.1) = some 0 ∧
      fineConfig.cacheHitAlignmentTokens ∣ 6 ∧
      BoundaryCached finePool [10, 11, 12, 13] [0] 4 ∧
      BoundaryCached finePool [10, 11, 12, 13] [0] 8 ∧
      MambaValid finePool [10, 11, 12, 13] [1] 6) ∧
    (narrowConfig.findLongestCacheHit (poolWith 4 [(⟨10, 0⟩, 1), (⟨11, 0⟩, 2)]) [10, 11] 8).map
        (·.2.1) = some 0 ∧
      narrowConfig.cacheHitAlignmentTokens ∣ 8 ∧
      BoundaryCached (poolWith 4 [(⟨10, 0⟩, 1), (⟨11, 0⟩, 2)]) [10, 11] [0] 4 ∧
      BoundaryCached (poolWith 4 [(⟨10, 0⟩, 1), (⟨11, 0⟩, 2)]) [10, 11] [0] 8 :=
  ⟨⟨by decide, by decide, by decide, by decide, .inr (by decide)⟩, by decide, by decide,
    by decide, by decide⟩

/-- Full attention, a sliding window of 3 and Mamba in blocks of 4. -/
def mixedConfig : HybridConfig where
  kvCacheGroups := [⟨⟨.mamba, 4, 0⟩, true, false⟩, ⟨⟨.slidingWindow 3, 4, 0⟩, true, false⟩,
    ⟨⟨.fullAttention, 4, 0⟩, true, false⟩]
  hashBlockSize := 2
  schedulerBlockSize := 4
  dcpWorldSize := 1
  allowPartialHashHits := true
  hash_pos := by decide
  scheduler_pos := by decide
  hash_dvd := by decide
  scheduler_dvd := by decide
  cacheable := by decide

def mixedPool : BlockPool Nat :=
  poolWith 2 [(⟨11, 0⟩, 1), (⟨11, 1⟩, 2), (⟨11, 2⟩, 3), (⟨13, 2⟩, 4)]

/-- Without EAGLE drop the lookup returns the largest common hit, and for each group
the blocks of that hit. -/
theorem findLongestCacheHit_isGreatest (hp : p.hashBlockSize = c.hashBlockSize)
    (heagle : ∀ k ∈ c.kvCacheGroups, k.dropEagle = false)
    (hkind : ∀ k ∈ c.kvCacheGroups, k.spec.isChunkedLocal = false)
    (hlen : maxCacheHitLength / c.hashBlockSize ≤ blockHashes.length ∨ c.fullGroups ≠ []) :
    ∃ blocks l longer,
      c.findLongestCacheHit p blockHashes maxCacheHitLength = some (blocks, l, longer) ∧
      IsGreatest {l | c.CommonHit p blockHashes maxCacheHitLength l} l ∧
      ∀ g ∈ c.attentionGroups, ∀ groupId ∈ g.groupIds, ∃ bs, blocks[groupId]? = some bs ∧
        g.HitBlocks p blockHashes groupId maxCacheHitLength l bs := by
  obtain ⟨l, st, hloop, hgreatest, top, hfinal⟩ :=
    c.hitLoop_spec p blockHashes maxCacheHitLength hp (plain_of_groups heagle hkind) hlen
  refine ⟨_, l, _, by rw [findLongestCacheHit, hloop]; rfl, hgreatest,
    fun g hg groupId hid => ⟨c.hitBlocks l st groupId, ?_, ?_⟩⟩
  · simp [c.groupId_lt hg hid]
  obtain ⟨k, hk⟩ := getElem?_of_mem hid
  obtain ⟨i, hi⟩ := getElem?_of_mem hg
  rw [hitBlocks, findSome?_zipIdx c.attentionGroups_nodup hi hk 0,
    Nat.zero_add]
  rw [attentionGroups_eq] at hi
  rcases Nat.lt_or_ge i c.fullGroups.length with hlt | hge
  · rw [getElem?_append_left hlt] at hi
    have hf := (mem_filter.mp (mem_of_getElem? hi)).2
    have u := c.units hg
    obtain ⟨rows, hrow, hle, hrows⟩ := hfinal.full i g hi
    rw [Nat.zero_add] at hrow hle hrows
    simp only [finalRows, hrow, Option.getD_some, hf, if_true]
    exact SpecGroup.hitBlocks_of_fullRows hf (hrows.take u.block_pos hle) hk
  · rw [getElem?_append_right hge] at hi
    have hf := (mem_filter.mp (mem_of_getElem? hi)).2
    rw [Bool.not_eq_true'] at hf
    obtain ⟨rows, hrow, hrows⟩ := hfinal.other _ g hi
    rw [Nat.add_sub_cancel' hge] at hrow
    simp only [finalRows, hrow, Option.getD_some, hf, Bool.false_eq_true, if_false]
    exact SpecGroup.hitBlocks_of_hitRows hf hrows hk

/-- A request of 8 tokens: the state at 4 and the first blocks of full attention and
of the sliding window are cached. -/
theorem findLongestCacheHit_isGreatest_half :
    ∃ blocks l longer, mixedConfig.findLongestCacheHit mixedPool [10, 11, 12, 13] 7 =
        some (blocks, l, longer) ∧
      IsGreatest {l | mixedConfig.CommonHit mixedPool [10, 11, 12, 13] 7 l} l ∧
      ∀ g ∈ mixedConfig.attentionGroups, ∀ groupId ∈ g.groupIds, ∃ bs,
        blocks[groupId]? = some bs ∧
          g.HitBlocks mixedPool [10, 11, 12, 13] groupId 7 l bs :=
  findLongestCacheHit_isGreatest mixedConfig mixedPool [10, 11, 12, 13] 7 rfl (by decide)
    (by decide) (.inl (by decide))

end HybridConfig

end Vllm.Lookup
