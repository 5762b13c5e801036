import Vllm.Offload.Connector.LookupSound

/-!
# The dropped chunk of an EAGLE group

With legacy block hashes an EAGLE group is looked up one chunk past the candidate and
drops that chunk again. A candidate that another EAGLE group narrows does not undo this,
so that the chunk behind the returned hit is confirmed for full attention groups and for
a sliding window group that is the only EAGLE group of that kind (`eagle_drop_confirmed`),
and only behind some longer candidate otherwise.
-/

namespace Vllm.Offload.Connector

open Library SchedulerOffloadConfig List

variable {R H : Type} {c : SchedulerOffloadConfig} {manager : LookupManager H}
  {status : RequestOffloadState H} {g : GroupOffloadConfig} {i : Nat}

/-! ## Every group at some candidate, full attention at the last one -/

/-- What the lookups of the EAGLE groups have confirmed about the dropped chunks. -/
structure Dropped (c : SchedulerOffloadConfig) (status : RequestOffloadState H)
    (seen : List IndexedGroup) (p : LookupPass H) : Prop where
  verifiedSeen : VerifiedSeen seen p
  full : ∀ group ∈ seen, c.appliesEagleDrop group.1 = true → group.1.reach = none →
    ∀ size, status.numLocallyComputedTokens ≤ size → size ≤ p.maxHitSizeTokens →
      HitAt status p.answers group.2 (cdiv size group.1.tokensPerChunk)
  some : ∀ group ∈ seen, c.appliesEagleDrop group.1 = true →
    ∃ size, p.maxHitSizeTokens ≤ size ∧
      HitAt status p.answers group.2 (cdiv size group.1.tokensPerChunk)

theorem kept_dropped : Kept c manager status (Dropped c status) where
  restart h := ⟨h.verifiedSeen, h.full, h.some⟩
  step {bound seen now g i n p p'} hgroup _ hp h hadv := by
    refine ⟨h.verifiedSeen.step hadv, ?_, ?_⟩
    · intro group hmem heagle hreach size hlo hhi
      by_cases hseen : group ∈ seen
      · exact (h.full group hseen heagle hreach size hlo (Nat.le_trans hhi hadv.le)).mono
          hadv.answers
      obtain rfl := (mem_cons.mp hmem).resolve_right hseen
      rw [hadv.maxHitSizeTokens] at hhi
      exact hadv.scanned.hit_cdiv_le hadv.pos
        (h.verifiedSeen.unverified hp.seen_subset hgroup hseen heagle) hreach hlo hhi
    · intro group hmem heagle
      by_cases hseen : group ∈ seen
      · obtain ⟨size, hle, hhit⟩ := h.some group hseen heagle
        exact ⟨size, Nat.le_trans hadv.le hle, hhit.mono hadv.answers⟩
      obtain rfl := (mem_cons.mp hmem).resolve_right hseen
      refine ⟨p'.maxHitSizeTokens, Nat.le_refl _, ?_⟩
      rw [hadv.maxHitSizeTokens]
      exact hadv.scanned.hit_cdiv hadv.pos
        (h.verifiedSeen.unverified hp.seen_subset hgroup hseen heagle)

/-! ## A lone sliding window group -/

section Lone

variable {answer : OffloadKey H → LookupResult} {answers : LookupLog H}

/-- The answers of a manager that does not change during the call. -/
def Truthful (answer : OffloadKey H → LookupResult) (answers : LookupLog H) : Prop :=
  ∀ entry ∈ answers, entry.2 = answer entry.1

theorem Truthful.append (h : Truthful answer answers) (key : OffloadKey H) :
    Truthful answer (answers ++ [(key, answer key)]) := by
  intro entry hentry
  rcases mem_append.mp hentry with hentry | hentry
  · exact h entry hentry
  · rw [mem_singleton.mp hentry]

variable (hstable : ∀ answers key, manager answers key = answer key) {keys : List (OffloadKey H)}
  {size : Nat}

include hstable

theorem maximalPrefixLookup_truthful {hitCount : Nat} {deferred : Bool}
    (h : Truthful answer answers) :
    Truthful answer (maximalPrefixLookup manager keys hitCount deferred answers).2 := by
  induction keys generalizing hitCount deferred answers with
  | nil => exact h
  | cons key keys ih =>
    have hnext := h.append key
    simp only [maximalPrefixLookup, hstable]
    split
    · exact ih hnext
    · exact ih hnext
    · exact ih hnext
    · exact hnext

theorem scanWindow_truthful {w : WindowScan} (h : Truthful answer answers) :
    Truthful answer (scanWindow manager size keys w answers).2 := by
  induction keys generalizing w answers with
  | nil => exact h
  | cons key keys ih =>
    have hnext := h.append key
    simp only [scanWindow, hstable]
    split
    · exact hnext
    · exact ih hnext

theorem scanGroup_truthful (status : RequestOffloadState H) (g : GroupOffloadConfig)
    (i size : Nat) (unverified : Bool) (h : Truthful answer answers) :
    Truthful answer (scanGroup manager status g i size unverified answers).2 := by
  simp only [scanGroup]
  split
  · exact maximalPrefixLookup_truthful hstable h
  · exact scanWindow_truthful hstable h

omit hstable

/-- The group has confirmed the window of a load of `size` tokens and the chunk behind it. -/
structure Settled (status : RequestOffloadState H) (g : GroupOffloadConfig) (i : Nat)
    (answers : LookupLog H) (size : Nat) : Prop where
  next : HitAt status answers i (cdiv size g.tokensPerChunk)
  window : ∀ chunk, startChunkIdx status g ≤ chunk → chunk < cdiv size g.tokensPerChunk →
    (∀ window, g.loadWindowSizeInChunks size = some window →
      cdiv size g.tokensPerChunk ≤ chunk + window) → HitAt status answers i chunk
  candidate_eq : candidate status g i size = size

theorem Settled.mono {answers' : LookupLog H}
    (h : Settled status g i answers size) (hsub : answers ⊆ answers') :
    Settled status g i answers' size :=
  ⟨h.next.mono hsub, fun chunk hstart hlt hw => (h.window chunk hstart hlt hw).mono hsub,
    h.candidate_eq⟩

variable {n : Nat} {p p' : LookupPass H}

/-- The lookup that drops the last chunk settles the group. -/
theorem Settled.of_unverified (hadv : Advances c manager status g i n p p')
    (hunverified : c.isEagleUnverified g i p.eagleVerified = true) :
    Settled status g i p'.answers p'.maxHitSizeTokens := by
  have hend := hadv.scanned.cdiv_narrowedSize hadv.pos
  refine ⟨?_, fun chunk hstart hlt hw => ?_, ?_⟩
  · rw [hadv.maxHitSizeTokens]
    exact hadv.scanned.hit_cdiv hadv.pos hunverified
  · rw [hadv.maxHitSizeTokens] at hlt hw
    refine hadv.scanned.hit_of_lt hadv.pos hstart (by omega) fun window hload => ?_
    have := hw window hload
    omega
  -- the narrowed length respects the keys and the rounding for a limited load
  have hle := hadv.le_keys
  unfold candidate
  simp only [Nat.min_eq_left hle]
  split
  · next hload =>
    obtain ⟨k, hk⟩ : g.tokensPerChunk ∣ p'.maxHitSizeTokens := by
      rw [hadv.maxHitSizeTokens, narrowedSize, candidate, if_pos hload, roundDown,
        Nat.mul_comm _ g.tokensPerChunk, Nat.mul_min_mul_left]
      exact Nat.dvd_mul_right _ _
    rw [hk, roundDown, Nat.mul_div_cancel_left _ g.tokensPerChunk_pos, Nat.mul_comm]
  · rfl

include hstable in
/-- A settled group keeps its candidate when it is looked up again. -/
theorem Settled.maxHitSizeTokens_eq (h : Settled status g i p.answers p.maxHitSizeTokens)
    (htruthful : Truthful answer p.answers) (hwindow : g.slidingWindowSizeInChunks.isSome = true)
    (hadv : Advances c manager status g i n p p')
    (hverified : c.isEagleUnverified g i p.eagleVerified = false) :
    p'.maxHitSizeTokens = p.maxHitSizeTokens := by
  have hpos := g.tokensPerChunk_pos
  have hkeys := (candidate_le status g i p.maxHitSizeTokens).2
  rw [h.candidate_eq] at hkeys
  have hup := (cdiv_le_iff hpos).mp (Nat.le_refl (cdiv p.maxHitSizeTokens g.tokensPerChunk))
  have hquery : queryChunks status g i p.maxHitSizeTokens false =
      cdiv p.maxHitSizeTokens g.tokensPerChunk := by
    rw [queryChunks_eq, Bool.toNat_false, Nat.add_zero]
    exact Nat.min_eq_left ((cdiv_le_iff hpos).mpr hkeys)
  have hscan := hadv.scan
  have hle := hadv.scanned.le
  rw [h.candidate_eq, hverified] at hscan hle
  rw [hquery] at hle
  have hnpos := hadv.pos
  suffices hn : startChunkIdx status g + n = cdiv p.maxHitSizeTokens g.tokensPerChunk by
    rw [hadv.maxHitSizeTokens, h.candidate_eq, hverified, narrowedSize, Bool.toNat_false,
      Nat.sub_zero, hn, Nat.mul_comm]
    exact Nat.min_eq_left hup
  obtain ⟨window, hw⟩ := Option.isSome_iff_exists.mp hwindow
  obtain ⟨reach, hreach⟩ := GroupOffloadConfig.exists_reach hw
  obtain ⟨-, initial, hinitial, hipos, -⟩ := GroupOffloadConfig.window_covers hw hreach
    p.maxHitSizeTokens
  simp only [scanGroup, hw, hquery, Bool.toNat_false, Nat.sub_zero, Nat.min_eq_left hup, hinitial,
    Option.getD_some, Nat.add_zero, slidingWindowLookup, if_neg (Nat.pos_iff_ne_zero.mp hipos)]
    at hscan
  have hlen : (((status.groupStates i).offloadKeys.take
      (cdiv p.maxHitSizeTokens g.tokensPerChunk)).drop (startChunkIdx status g)).length =
        cdiv p.maxHitSizeTokens g.tokensPerChunk - startChunkIdx status g := by
    rw [length_drop, length_take, Nat.min_eq_left ((cdiv_le_iff hpos).mpr hkeys)]
  have hall : (scanWindow manager window (((status.groupStates i).offloadKeys.take
      (cdiv p.maxHitSizeTokens g.tokensPerChunk)).drop (startChunkIdx status g)).reverse
      ⟨false, false, 0, initial⟩ p.answers).1 = some _ :=
    scanWindow_of_hits hipos fun j hj hin key hkey answers => by
      rw [hlen] at hj hin
      obtain ⟨key', hkey', hhit⟩ := h.window (startChunkIdx status g + j) (Nat.le_add_right _ _)
        (by omega) fun w hload => by
          cases hload.symm.trans hinitial
          omega
      rw [getElem?_drop, getElem?_take, if_pos (by omega), hkey'] at hkey
      cases hkey
      rw [hstable]
      exact (htruthful _ hhit).symm
  rw [hscan, hlen] at hall
  have := Option.some.inj hall
  omega

/-- The variables while the group at place `i` is the only sliding window group that drops
a chunk. -/
structure LoneRun (status : RequestOffloadState H) (answer : OffloadKey H → LookupResult)
    (g : GroupOffloadConfig) (i : Nat) (seen : List IndexedGroup) (p : LookupPass H) : Prop where
  verifiedSeen : VerifiedSeen seen p
  truthful : Truthful answer p.answers
  settled : i ∈ p.eagleVerified → Settled status g i p.answers p.maxHitSizeTokens

include hstable in
theorem kept_loneRun (hgroup : (g, i) ∈ c.indexedGroups)
    (hwindow : g.slidingWindowSizeInChunks.isSome = true) (heagle : c.appliesEagleDrop g = true)
    (hlone : ∀ group ∈ c.indexedGroups, c.appliesEagleDrop group.1 = true →
      group.1.slidingWindowSizeInChunks.isSome = true → group = (g, i)) :
    Kept c manager status (LoneRun status answer g i) where
  restart h := ⟨h.verifiedSeen, h.truthful, h.settled⟩
  step {bound seen now g' i' n p p'} hgroup' horder hp h hadv := by
    refine ⟨h.verifiedSeen.step hadv, ?_, fun hin => ?_⟩
    · have := scanGroup_truthful hstable status g' i'
        (candidate status g' i' p.maxHitSizeTokens)
        (c.isEagleUnverified g' i' p.eagleVerified) h.truthful
      rwa [hadv.scan] at this
    by_cases hself : i' = i
    · subst hself
      obtain rfl := eq_of_mem_indexedGroups hgroup' hgroup
      cases hunverified : c.isEagleUnverified g i' p.eagleVerified with
      | true => exact .of_unverified hadv hunverified
      | false =>
        have hbefore : i' ∈ p.eagleVerified := by
          simpa [isEagleUnverified, heagle] using hunverified
        have hsettled := h.settled hbefore
        rw [hsettled.maxHitSizeTokens_eq hstable h.truthful hwindow hadv hunverified]
        exact hsettled.mono hadv.answers
    · rw [hadv.eagleVerified] at hin
      split at hin
      · cases hin
      next hkeep =>
      have hbefore : i ∈ p.eagleVerified := by
        split at hin
        · exact (mem_cons.mp hin).resolve_left (Ne.symm hself)
        · exact hin
      obtain ⟨g₁, hseen⟩ := h.verifiedSeen i hbefore
      obtain rfl := eq_of_mem_indexedGroups hgroup (hp.seen_subset hseen)
      -- only a full attention group could narrow the candidate, and these come first
      cases hdrop : c.appliesEagleDrop g' with
      | true =>
        have hfull : g'.slidingWindowSizeInChunks = none := by
          cases hw : g'.slidingWindowSizeInChunks with
          | none => rfl
          | some w =>
            have heq := hlone (g', i') hgroup' hdrop (by rw [hw]; rfl)
            exact absurd (congrArg Prod.snd heq) hself
        rw [horder _ hseen hfull] at hwindow
        cases hwindow
      | false =>
        have hnum := hp.numHitTokens (ne_nil_of_mem hseen)
        have hsame : p'.maxHitSizeTokens = p.maxHitSizeTokens := by
          have hle := hadv.le
          have hnot : ¬ p'.numHitTokens < p.numHitTokens := fun hlt => hkeep ⟨hlt, hdrop⟩
          rw [hadv.numHitTokens, hnum.1] at hnot
          omega
        rw [hsame]
        exact (h.settled hbefore).mono hadv.answers

end Lone

variable [DecidableEq H] {chunksBeingLoaded : List (OffloadKey H)} {maxNumNewTokens : Option Nat}
  {hit : Nat} {boundary : Option Nat} {p : LookupPass H}

/-- The chunk behind a hit was confirmed for an EAGLE group with full attention, and for a
sliding window group that is the only EAGLE group without full attention if the answers of
the manager do not change during the call. For any EAGLE group the chunk behind some
candidate that is not shorter was confirmed. -/
theorem eagle_drop_confirmed (hlegacy : c.useLookaheadBlockHashes = false)
    (hmanager : HitOrMiss manager)
    (hlookup : c.lookupCompleteChunks manager status chunksBeingLoaded maxNumNewTokens =
      .ok (some hit, boundary, p)) (hpos : 0 < hit) :
    ∀ group ∈ c.indexedGroups, group.1.isEagleGroup = true →
      (group.1.kvCacheSpec = .fullAttention → HitAt status p.answers group.2
        (cdiv (status.numLocallyComputedTokens + hit) group.1.tokensPerChunk)) ∧
      ((∀ group' ∈ c.indexedGroups, group'.1.isEagleGroup = true →
          group'.1.kvCacheSpec ≠ .fullAttention → group' = group) →
        (∃ answer : OffloadKey H → LookupResult, ∀ answers key, manager answers key = answer key) →
        HitAt status p.answers group.2
          (cdiv (status.numLocallyComputedTokens + hit) group.1.tokensPerChunk)) ∧
      ∃ size, status.numLocallyComputedTokens + hit ≤ size ∧
        HitAt status p.answers group.2 (cdiv size group.1.tokensPerChunk) := by
  have hdrop : ∀ {g : GroupOffloadConfig}, c.appliesEagleDrop g = g.isEagleGroup := by
    simp [appliesEagleDrop, hlegacy]
  obtain ⟨hfound, rfl⟩ := lookupCompleteChunks_cases hmanager kept_dropped
    ⟨fun _ h => (by cases h), fun _ h => (by cases h), fun _ h => (by cases h)⟩ hlookup hpos
  obtain ⟨hend, -⟩ := hfound.covered hpos
  obtain ⟨bound, seen, now, hp, hdropped, hseen, -⟩ := hfound
  rw [hend]
  intro group hgroup heagle
  have hfull : group.1.kvCacheSpec = .fullAttention → HitAt status p.answers group.2
      (cdiv p.maxHitSizeTokens group.1.tokensPerChunk) := fun hspec =>
    hdropped.full group (hseen hgroup) (hdrop.trans heagle)
      (by rw [GroupOffloadConfig.reach, hspec]) _ (by omega) (Nat.le_refl _)
  refine ⟨hfull, fun hlone hanswer => ?_, hdropped.some group (hseen hgroup) (hdrop.trans heagle)⟩
  by_cases hspec : group.1.kvCacheSpec = .fullAttention
  · exact hfull hspec
  have hnotFull : ∀ {g : GroupOffloadConfig}, g.kvCacheSpec ≠ .fullAttention ↔
      g.slidingWindowSizeInChunks.isSome = true := by
    intro g
    unfold GroupOffloadConfig.slidingWindowSizeInChunks getSlidingWindowSizeInChunks
    cases g.kvCacheSpec <;> simp
  obtain ⟨answer, hstable⟩ := hanswer
  have hwindow := hnotFull.mp hspec
  have hkept : Kept c manager status (LoneRun status answer group.1 group.2) :=
    kept_loneRun hstable hgroup hwindow (hdrop.trans heagle)
      fun group' hgroup' heagle' hwindow' =>
        hlone group' hgroup' (hdrop.symm.trans heagle') (hnotFull.mpr hwindow')
  obtain ⟨⟨_, _, now, hp, hrun, -, hwindows, hnil⟩, -⟩ :=
    lookupCompleteChunks_cases hmanager hkept
      ⟨fun _ h => (by cases h), fun _ h => (by cases h), fun h => (by cases h)⟩ hlookup hpos
  have hnow := hwindows (mem_slidingWindowGroups.mpr ⟨hgroup, hwindow⟩)
  exact (hrun.settled (hp.verified hnil group hnow hwindow (hdrop.trans heagle))).next

/-! ### Two sliding window groups -/

/-- A sliding window group with windows of one chunk of two tokens. -/
def windowGroup (groupIdx : Nat) (isEagleGroup : Bool) : GroupOffloadConfig where
  groupIdx
  tokensPerBlock := 2
  tokensPerChunk := 2
  kvCacheSpec := .slidingWindow 2 0
  isEagleGroup
  tokensPerChunk_pos := Nat.two_pos
  sized := Nat.two_pos

def twoWindowsConfig (isEagleGroup : Bool) : SchedulerOffloadConfig where
  kvGroupConfigs := [windowGroup 0 true, windowGroup 1 isEagleGroup]
  blocksPerChunk := 1
  tokensPerHash := 2
  numWorkers := 1
  useLookaheadBlockHashes := false
  blocksPerChunk_pos := Nat.one_pos
  tokensPerHash_pos := Nat.two_pos
  tokensPerChunk_eq := by simp [windowGroup]
  groupIdx_nodup := by simp [windowGroup]
  tokensPerHash_dvd := by simp [windowGroup]
  mambaAlign_eq := by simp [windowGroup]

/-- The chunks of group 0 and of group 1 that the manager has. -/
def twoWindowsManager (chunks chunks' : List Nat) : LookupManager Nat := fun _ key =>
  if key.hash ∈ (if key.groupIdx = 0 then chunks else chunks') then .hit else .miss

theorem twoWindowsManager_hitOrMiss (chunks chunks' : List Nat) :
    HitOrMiss (twoWindowsManager chunks chunks') := fun _ key => by
  by_cases h : key.hash ∈ (if key.groupIdx = 0 then chunks else chunks')
  · exact .inl (if_pos h)
  · exact .inr (if_neg h)

theorem eagle_drop_confirmed_sample :
    ∃ boundary p, (twoWindowsConfig false).lookupCompleteChunks (twoWindowsManager [1, 2, 4, 5] [1])
        (gapStatus (twoWindowsConfig false) 6) [] none = .ok (some 4, boundary, p) ∧
      HitAt (gapStatus (twoWindowsConfig false) 6) p.answers 0 2 := by
  have hlookup : ((twoWindowsConfig false).lookupCompleteChunks
      (twoWindowsManager [1, 2, 4, 5] [1]) (gapStatus (twoWindowsConfig false) 6) [] none).map
        (·.1) = .ok (some 4) := by
    decide +kernel
  obtain ⟨⟨hit, boundary, p⟩, hlookup, rfl⟩ := map_eq_ok.mp hlookup
  refine ⟨boundary, p, hlookup, ?_⟩
  exact ((eagle_drop_confirmed rfl (twoWindowsManager_hitOrMiss _ _) hlookup (by decide)
    (windowGroup 0 true, 0) (by simp [twoWindowsConfig, indexedGroups]) rfl).2.1
      (by simp [twoWindowsConfig, indexedGroups, windowGroup]) ⟨_, fun _ _ => rfl⟩)

/-- Two EAGLE groups: the second one narrows the candidate to 4 tokens, the first one is
not looked up with a chunk more again, and its chunk behind these 4 tokens is missing. -/
theorem dropped_chunk_missing :
    ∃ boundary p, (twoWindowsConfig true).lookupCompleteChunks (twoWindowsManager [1, 4, 5] [1, 2])
        (gapStatus (twoWindowsConfig true) 6) [] none = .ok (some 4, boundary, p) ∧
      ¬ HitAt (gapStatus (twoWindowsConfig true) 6) p.answers 0 2 := by
  have hlookup : ((twoWindowsConfig true).lookupCompleteChunks
      (twoWindowsManager [1, 4, 5] [1, 2]) (gapStatus (twoWindowsConfig true) 6) [] none).map
        (fun r => (r.1, decide ((⟨2, 0⟩, LookupResult.hit) ∈ r.2.2.answers))) =
          .ok (some 4, false) := by
    decide +kernel
  obtain ⟨⟨hit, boundary, p⟩, hlookup, heq⟩ := map_eq_ok.mp hlookup
  simp only [Prod.mk.injEq, decide_eq_false_iff_not] at heq
  obtain ⟨rfl, hmiss⟩ := heq
  refine ⟨boundary, p, hlookup, ?_⟩
  rintro ⟨key, hkey, hhit⟩
  have hthird : ((gapStatus (twoWindowsConfig true) 6).groupStates 0).offloadKeys[2]? =
      some ⟨2, 0⟩ := by
    decide +kernel
  cases hthird.symm.trans hkey
  exact hmiss hhit

end Vllm.Offload.Connector
