import Vllm.Offload.Connector.ChunkLookup

/-!
# What a lookup of complete chunks has confirmed

For a manager that answers only hits and misses: after each group its chunks in reach of
the candidate length are hits (`Covered`), and an iteration that narrows the candidate
behind a sliding window group is followed by another one, so that the returned length is
covered for every group.
-/

namespace Vllm.Offload.Connector

open Library SchedulerOffloadConfig List

variable {R H : Type} {answers : LookupLog H}

/-- The manager neither defers a lookup nor answers with a chunk that is not ready. -/
def HitOrMiss (manager : LookupManager H) : Prop :=
  ∀ answers key, manager answers key = .hit ∨ manager answers key = .miss

/-- The manager has answered that the key is a hit. -/
def HitIn (answers : LookupLog H) (key : OffloadKey H) : Prop := (key, .hit) ∈ answers

theorem HitIn.mono {answers' : LookupLog H} {key : OffloadKey H}
    (h : HitIn answers key) (hsub : answers ⊆ answers') : HitIn answers' key := hsub h

/-! ## Scans -/

section Scans

variable {manager : LookupManager H} (hmanager : HitOrMiss manager) (keys : List (OffloadKey H))

include hmanager

theorem maximalPrefixLookup_spec (hitCount : Nat) (answers : LookupLog H) :
    ∃ n answers', maximalPrefixLookup manager keys hitCount false answers =
        (some (hitCount + n), answers') ∧ n ≤ keys.length ∧ answers ⊆ answers' ∧
      ∀ j < n, ∀ key, keys[j]? = some key → HitIn answers' key := by
  induction keys generalizing hitCount answers with
  | nil => exact ⟨0, answers, rfl, Nat.le_refl _, List.Subset.refl _, nofun⟩
  | cons key keys ih =>
    cases hmanager answers key with
    | inl hhit =>
      obtain ⟨n, answers', heq, hn, hsub, hhits⟩ :=
        ih (hitCount + 1) (answers ++ [(key, .hit)])
      refine ⟨n + 1, answers', ?_, Nat.succ_le_succ hn, ?_, ?_⟩
      · simp only [maximalPrefixLookup, hhit, heq, Nat.add_assoc, Nat.add_comm 1]
      · exact List.Subset.trans (subset_append_left _ _) hsub
      intro j hj k hk
      cases j with
      | zero =>
        cases hk
        exact hsub (mem_append_right _ mem_cons_self)
      | succ j => exact hhits j (Nat.lt_of_succ_lt_succ hj) k hk
    | inr hmiss =>
      refine ⟨0, answers ++ [(key, .miss)], ?_, Nat.zero_le _, subset_append_left _ _, nofun⟩
      simp only [maximalPrefixLookup, hmiss, Bool.false_eq_true, if_false, Nat.add_zero]

/-- A scan ends at the right edge of the run it is in, with as many hits as that run
needs, or behind a miss with a whole window of hits. -/
theorem scanWindow_spec (size hits required : Nat) (answers : LookupLog H) :
    ∃ n answers', scanWindow manager size keys.reverse ⟨false, false, hits, required⟩ answers =
        (some n, answers') ∧ answers ⊆ answers' ∧
      ((n = keys.length + hits ∧ ∀ j < keys.length, n ≤ j + required →
          ∀ key, keys[j]? = some key → HitIn answers' key) ∨
        (n < keys.length ∧ ∀ j < n, n ≤ j + size →
          ∀ key, keys[j]? = some key → HitIn answers' key)) := by
  induction keys using List.reverseRecOn generalizing hits required answers with
  | nil => exact ⟨hits, answers, rfl, List.Subset.refl _, .inl ⟨by simp, nofun⟩⟩
  | append_singleton keys key ih =>
    have hlength : (keys ++ [key]).length = keys.length + 1 := by simp
    have hbelow : ∀ j, j < keys.length → (keys ++ [key])[j]? = keys[j]? := fun j hj =>
      getElem?_append_left hj
    simp only [reverse_append, reverse_singleton, singleton_append, scanWindow,
      length_reverse, hlength]
    cases hmanager answers key with
    | inl hhit =>
      simp only [hhit, WindowScan.next]
      have hlast : ∀ answers', answers ++ [(key, LookupResult.hit)] ⊆ answers' →
          ∀ j, keys.length ≤ j → ∀ k, (keys ++ [key])[j]? = some k → HitIn answers' k := by
        intro answers' hsub j hj k hk
        have hjk : j = keys.length := by
          have := (List.getElem?_eq_some_iff.mp hk).1
          omega
        subst hjk
        obtain rfl : key = k := by simpa using hk
        exact hsub (mem_append_right _ mem_cons_self)
      split
      · refine ⟨keys.length + required, _, rfl, subset_append_left _ _, .inl ⟨?_, ?_⟩⟩
        · omega
        · intro j _ hn
          exact hlast _ (List.Subset.refl _) j (by omega)
      obtain ⟨n, answers', heq, hsub, hcase⟩ :=
        ih (hits + 1) required (answers ++ [(key, .hit)])
      refine ⟨n, answers', heq, List.Subset.trans (subset_append_left _ _) hsub, ?_⟩
      cases hcase with
      | inl h =>
        refine .inl ⟨by omega, fun j hj hn k hk => ?_⟩
        rcases Nat.lt_or_ge j keys.length with hlt | hge
        · exact h.2 j hlt hn k (hbelow j hlt ▸ hk)
        · exact hlast answers' hsub j hge k hk
      | inr h =>
        exact .inr ⟨by omega, fun j hj hn k hk =>
          h.2 j hj hn k (hbelow j (Nat.lt_trans hj h.1) ▸ hk)⟩
    | inr hmiss =>
      simp only [hmiss, WindowScan.next]
      split
      · refine ⟨keys.length + size, _, rfl, subset_append_left _ _, .inr ⟨?_, ?_⟩⟩
        · omega
        · intro j hj hn
          exact absurd hn (by omega)
      · obtain ⟨n, answers', heq, hsub, hcase⟩ := ih 0 size (answers ++ [(key, .miss)])
        refine ⟨n, answers', heq, List.Subset.trans (subset_append_left _ _) hsub, .inr ?_⟩
        cases hcase with
        | inl h =>
          exact ⟨by omega, fun j hj hn k hk =>
            h.2 j (by omega) hn k (hbelow j (by omega) ▸ hk)⟩
        | inr h =>
          exact ⟨by omega, fun j hj hn k hk =>
            h.2 j hj hn k (hbelow j (Nat.lt_trans hj h.1) ▸ hk)⟩

omit hmanager in
/-- A scan whose next keys are hits stays in its run. -/
theorem scanWindow_of_hits {keys : List (OffloadKey H)} {size hits required : Nat}
    (hlt : hits < required) (hhits : ∀ j < keys.length, keys.length + hits ≤ j + required →
      ∀ key, keys[j]? = some key → ∀ answers, manager answers key = .hit) :
    (scanWindow manager size keys.reverse ⟨false, false, hits, required⟩ answers).1 =
      some (keys.length + hits) := by
  induction keys using List.reverseRecOn generalizing hits answers with
  | nil => simp [scanWindow, WindowScan.result]
  | append_singleton keys key ih =>
    rw [length_append, length_singleton] at hhits
    have hkey := hhits keys.length (by omega) (by omega) key (by simp) answers
    simp only [reverse_append, reverse_singleton, singleton_append, scanWindow,
      hkey, WindowScan.next, length_reverse, length_append, length_singleton]
    split
    · simp only [WindowScan.result, Bool.or_self, Bool.false_eq_true, if_false, Option.some.injEq]
      omega
    rw [ih (by omega) fun j hj hwindow k hk =>
      hhits j (by omega) (by omega) k (by rwa [getElem?_append_left hj])]
    congr 1
    omega

/-- The window that ends where the lookup says consists of hits; at the right end of the
keys it is the initial window. -/
theorem slidingWindowLookup_spec (size initial : Nat)
    (answers : LookupLog H) (hinitial : 0 < initial) :
    ∃ n answers', slidingWindowLookup manager keys size initial answers = (some n, answers') ∧
      n ≤ keys.length ∧ answers ⊆ answers' ∧
      ∀ j < n, n ≤ j + (if n = keys.length then initial else size) →
        ∀ key, keys[j]? = some key → HitIn answers' key := by
  obtain ⟨n, answers', heq, hsub, hcase⟩ :=
    scanWindow_spec hmanager keys size 0 initial answers
  refine ⟨n, answers', ?_, ?_, hsub, ?_⟩
  · rw [slidingWindowLookup, if_neg (Nat.pos_iff_ne_zero.mp hinitial)]
    exact heq
  · omega
  intro j hj hn k hk
  cases hcase with
  | inl h =>
    rw [if_pos (by omega)] at hn
    exact h.2 j (by omega) hn k hk
  | inr h =>
    rw [if_neg (Nat.ne_of_lt h.1)] at hn
    exact h.2 j hj hn k hk

end Scans

/-! ## The chunks in reach of a length -/

namespace GroupOffloadConfig

variable (g : GroupOffloadConfig)

/-- The tokens before the end of a hit whose KV the group still needs; `none` for all of
them. A recurrent state is the one at the last token. -/
def reach : Option Nat :=
  match g.kvCacheSpec with
  | .fullAttention => none
  | .slidingWindow slidingWindow extraRetainedTokens =>
    some (slidingWindow - 1 + extraRetainedTokens)
  | .chunkedLocalAttention _ | .mamba _ => some 1

/-- The tokens between a length and the next multiple of the chunk size. -/
def padding (size : Nat) : Nat := (g.tokensPerChunk - size % g.tokensPerChunk) % g.tokensPerChunk

theorem cdiv_mul_tokensPerChunk (size : Nat) :
    cdiv size g.tokensPerChunk * g.tokensPerChunk = size + g.padding size :=
  cdiv_mul_eq g.tokensPerChunk_pos size

theorem padding_lt (size : Nat) : g.padding size < g.tokensPerChunk :=
  Nat.mod_lt _ g.tokensPerChunk_pos

variable {g} {window reach : Nat}

theorem reach_eq_none_iff : g.reach = none ↔ g.slidingWindowSizeInChunks = none := by
  unfold GroupOffloadConfig.reach slidingWindowSizeInChunks getSlidingWindowSizeInChunks
  cases g.kvCacheSpec <;> simp

section

variable (hwindow : g.slidingWindowSizeInChunks = some window)
include hwindow

theorem exists_reach : ∃ reach, g.reach = some reach := by
  refine Option.ne_none_iff_exists'.mp fun h => ?_
  rw [reach_eq_none_iff.mp h] at hwindow
  cases hwindow

theorem window_pos : 0 < window := by
  have hpos := g.tokensPerChunk_pos
  have hsized := g.sized
  unfold slidingWindowSizeInChunks getSlidingWindowSizeInChunks at hwindow
  unfold KVCacheSpec.Sized at hsized
  split at hwindow
  · next w _ heq =>
    rw [heq] at hsized
    cases hwindow
    have : 0 < cdiv w g.tokensPerChunk := (lt_cdiv_iff hpos).mpr (by simpa using hsized)
    omega
  · next size heq =>
    rw [heq] at hsized
    cases hwindow
    exact (lt_cdiv_iff hpos).mpr (by simpa using hsized)
  · cases hwindow
    exact Nat.one_pos
  · cases hwindow

/-- The window of a group covers its reach before a multiple of the chunk size, and the
window of a load before any length. -/
theorem window_covers (hreach : g.reach = some reach) (size : Nat) :
    reach ≤ window * g.tokensPerChunk ∧ ∃ initial, g.loadWindowSizeInChunks size = some initial ∧
      0 < initial ∧ reach + g.padding size ≤ initial * g.tokensPerChunk ∧
      (g.padding size = 0 → initial = window) := by
  have hpos := g.tokensPerChunk_pos
  have hwpos := window_pos hwindow
  have hpad := g.padding_lt size
  have hwhole : g.tokensPerChunk ≤ window * g.tokensPerChunk := Nat.le_mul_of_pos_left _ hwpos
  unfold GroupOffloadConfig.reach at hreach
  unfold loadWindowSizeInChunks
  split at hreach
  · cases hreach
  · next w extra heq =>
    cases hreach
    have hw : window = max (cdiv w g.tokensPerChunk) (cdiv (w - 1 + extra) g.tokensPerChunk) := by
      rw [slidingWindowSizeInChunks, heq] at hwindow
      exact (Option.some.inj hwindow).symm
    have hle : w - 1 + extra ≤ window * g.tokensPerChunk :=
      (cdiv_le_iff hpos).mp (hw ▸ Nat.le_max_right _ _)
    simp only [heq, hwindow, Option.map_some]
    refine ⟨hle, _, rfl, Nat.lt_of_lt_of_le hwpos (Nat.le_max_left _ _),
      (cdiv_le_iff hpos).mp (Nat.le_max_right _ _), fun hzero => ?_⟩
    unfold padding at hzero
    rw [hzero]
    exact Nat.max_eq_left ((cdiv_le_iff hpos).mpr hle)
  · next heq =>
    cases hreach
    simp only [heq, hwindow]
    exact ⟨by omega, window, rfl, hwpos, by omega, fun _ => rfl⟩
  · next heq =>
    cases hreach
    simp only [heq, hwindow]
    exact ⟨by omega, window, rfl, hwpos, by omega, fun _ => rfl⟩

end

end GroupOffloadConfig

section Coverage

variable (status : RequestOffloadState H) (answers : LookupLog H)

/-- The manager has answered that chunk `chunk` of a group is a hit. -/
def HitAt (i chunk : Nat) : Prop :=
  ∃ key, (status.groupStates i).offloadKeys[chunk]? = some key ∧ HitIn answers key

/-- Every chunk behind the local prefix that a hit of `size` tokens needs is a hit. -/
def Covered (g : GroupOffloadConfig) (i size : Nat) : Prop :=
  ∀ chunk, startChunkIdx status g ≤ chunk →
    chunk * g.tokensPerChunk < size →
    (∀ reach, g.reach = some reach → size < (chunk + 1) * g.tokensPerChunk + reach) →
    HitAt status answers i chunk

variable {status answers} {answers' : LookupLog H} {i chunk size size' : Nat}
  {g : GroupOffloadConfig}

theorem HitAt.mono (h : HitAt status answers i chunk) (hsub : answers ⊆ answers') :
    HitAt status answers' i chunk :=
  let ⟨key, hkey, hhit⟩ := h
  ⟨key, hkey, hhit.mono hsub⟩

theorem Covered.mono (h : Covered status answers g i size) (hsub : answers ⊆ answers') :
    Covered status answers' g i size :=
  fun chunk hstart hlt hreach => (h chunk hstart hlt hreach).mono hsub

/-- For full attention a shorter hit needs fewer chunks. -/
theorem Covered.shorten (h : Covered status answers g i size) (hreach : g.reach = none)
    (hle : size' ≤ size) : Covered status answers g i size' := fun chunk hstart hlt _ =>
  h chunk hstart (Nat.lt_of_lt_of_le hlt hle) fun r hr => by rw [hreach] at hr; exact nomatch hr

end Coverage

/-! ## One group -/

section Group

variable {manager : LookupManager H} {status : RequestOffloadState H} {g : GroupOffloadConfig}
  {i size n : Nat} {unverified : Bool} {answers answers' : LookupLog H}

/-- The hits of a scan that ended behind `n` chunks. -/
structure Scanned (status : RequestOffloadState H) (g : GroupOffloadConfig) (i size : Nat)
    (unverified : Bool) (answers : LookupLog H) (n : Nat) : Prop where
  le : startChunkIdx status g + n ≤
    max (startChunkIdx status g) (queryChunks status g i size unverified)
  hit : ∀ chunk, startChunkIdx status g ≤ chunk → chunk < startChunkIdx status g + n →
    (∀ window, g.slidingWindowSizeInChunks = some window →
      startChunkIdx status g + n ≤ chunk + unverified.toNat +
        (if startChunkIdx status g + n = queryChunks status g i size unverified then
          (g.loadWindowSizeInChunks (min size ((queryChunks status g i size unverified -
            unverified.toNat) * g.tokensPerChunk))).getD 0
        else window)) →
    HitAt status answers i chunk

theorem queryChunks_le (status : RequestOffloadState H) (g : GroupOffloadConfig)
    (i size : Nat) (unverified : Bool) : queryChunks status g i size unverified ≤
      (status.groupStates i).offloadKeys.length :=
  Nat.min_le_right _ _

theorem scanGroup_spec (hmanager : HitOrMiss manager) (status : RequestOffloadState H)
    (g : GroupOffloadConfig) (i size : Nat) (unverified : Bool) (answers : LookupLog H) :
    ∃ n answers', scanGroup manager status g i size unverified answers = (some n, answers') ∧
      answers ⊆ answers' ∧ Scanned status g i size unverified answers' n := by
  have hquery := queryChunks_le status g i size unverified
  generalize hkeys : ((status.groupStates i).offloadKeys.take
    (queryChunks status g i size unverified)).drop (startChunkIdx status g) = keys
  have hlength : keys.length = queryChunks status g i size unverified - startChunkIdx status g := by
    rw [← hkeys, length_drop, length_take, Nat.min_eq_left hquery]
  -- a chunk of the scan, in the keys of the group
  have hslice : ∀ chunk, startChunkIdx status g ≤ chunk →
      chunk < queryChunks status g i size unverified →
      keys[chunk - startChunkIdx status g]? = (status.groupStates i).offloadKeys[chunk]? := by
    intro chunk hstart hlt
    rw [← hkeys, getElem?_drop, Nat.add_sub_cancel' hstart, getElem?_take, if_pos hlt]
  have hfound : ∀ answers' chunk, startChunkIdx status g ≤ chunk →
      chunk < queryChunks status g i size unverified →
      (∀ key, keys[chunk - startChunkIdx status g]? = some key → HitIn answers' key) →
      HitAt status answers' i chunk := by
    intro answers' chunk hstart hlt hhit
    have hin : chunk < (status.groupStates i).offloadKeys.length := Nat.lt_of_lt_of_le hlt hquery
    have hkey := getElem?_eq_getElem hin
    exact ⟨_, hkey, hhit _ ((hslice chunk hstart hlt).trans hkey)⟩
  simp only [scanGroup, hkeys]
  cases hwindow : g.slidingWindowSizeInChunks with
  | none =>
    obtain ⟨n, answers', heq, hn, hsub, hhits⟩ :=
      maximalPrefixLookup_spec hmanager keys 0 answers
    refine ⟨n, answers', by simpa using heq, hsub, by omega, fun chunk hstart hlt _ => ?_⟩
    exact hfound answers' chunk hstart (by omega) (hhits _ (by omega))
  | some window =>
    obtain ⟨initial, hinitial, hpos⟩ : ∃ initial, g.loadWindowSizeInChunks
        (min size ((queryChunks status g i size unverified - unverified.toNat) *
          g.tokensPerChunk)) = some initial ∧ 0 < initial := by
      obtain ⟨reach, hreach⟩ := GroupOffloadConfig.exists_reach hwindow
      obtain ⟨-, initial, heq, hpos, -⟩ := GroupOffloadConfig.window_covers hwindow hreach _
      exact ⟨initial, heq, hpos⟩
    obtain ⟨n, answers', heq, hn, hsub, hhits⟩ := slidingWindowLookup_spec hmanager keys
      (window + unverified.toNat) (initial + unverified.toNat) answers (by omega)
    simp only [hinitial, Option.getD_some]
    refine ⟨n, answers', heq, hsub, by omega, fun chunk hstart hlt hw => ?_⟩
    refine hfound answers' chunk hstart (by omega) (hhits _ (by omega) ?_)
    have hw := hw window hwindow
    by_cases hall : n = keys.length
    · rw [if_pos hall]
      rw [if_pos (by omega), hinitial, Option.getD_some] at hw
      omega
    · rw [if_neg hall]
      rw [if_neg (by omega)] at hw
      omega

theorem queryChunks_eq : queryChunks status g i size unverified =
    min (cdiv size g.tokensPerChunk + unverified.toNat)
      (status.groupStates i).offloadKeys.length := by
  have hpos := g.tokensPerChunk_pos
  cases unverified with
  | false => rfl
  | true =>
    simp only [queryChunks, if_true, cdiv_min_mul hpos, cdiv_add_self hpos, Bool.toNat_true,
      Nat.min_assoc, Nat.min_self]

/-- The length that a scan leaves of a candidate. -/
def narrowedSize (status : RequestOffloadState H) (g : GroupOffloadConfig) (size n : Nat)
    (unverified : Bool) : Nat :=
  min size (g.tokensPerChunk * (startChunkIdx status g + (n - unverified.toNat)))

namespace Scanned

variable (h : Scanned status g i size unverified answers n) (hn : 0 < n)

include h hn

/-- The narrowed length ends in the last chunk of the scan, without the dropped one. -/
theorem cdiv_narrowedSize : cdiv (narrowedSize status g size n unverified) g.tokensPerChunk +
    unverified.toNat = startChunkIdx status g + n := by
  have hle := h.le
  rw [queryChunks_eq] at hle
  have hu : unverified.toNat ≤ 1 := Bool.toNat_le unverified
  rw [narrowedSize, Nat.mul_comm, cdiv_min_mul g.tokensPerChunk_pos]
  omega

/-- Either the scan has kept the candidate, or the narrowed length is a multiple of the
chunk size. -/
theorem narrowedSize_cases :
    (startChunkIdx status g + n = queryChunks status g i size unverified ∧
      narrowedSize status g size n unverified = min size
        ((queryChunks status g i size unverified - unverified.toNat) * g.tokensPerChunk)) ∨
    (startChunkIdx status g + n ≠ queryChunks status g i size unverified ∧
      g.padding (narrowedSize status g size n unverified) = 0) := by
  have hle := h.le
  have hu : unverified.toNat ≤ 1 := Bool.toNat_le unverified
  have hquery : queryChunks status g i size unverified = _ := queryChunks_eq
  by_cases hall : startChunkIdx status g + n = queryChunks status g i size unverified
  · refine .inl ⟨hall, ?_⟩
    rw [narrowedSize, ← hall, Nat.mul_comm, ← Nat.add_sub_assoc (by omega)]
  have hlt : startChunkIdx status g + (n - unverified.toNat) < cdiv size g.tokensPerChunk := by
    omega
  have hmul : narrowedSize status g size n unverified =
      (startChunkIdx status g + (n - unverified.toNat)) * g.tokensPerChunk := by
    rw [narrowedSize, Nat.mul_comm]
    exact Nat.min_eq_right (Nat.le_of_lt ((lt_cdiv_iff g.tokensPerChunk_pos).mp hlt))
  refine .inr ⟨hall, ?_⟩
  rw [GroupOffloadConfig.padding, hmul, Nat.mul_mod_left, Nat.sub_zero, Nat.mod_self]

/-- The window of a load at the narrowed length consists of hits. -/
theorem hit_of_lt {chunk : Nat} (hstart : startChunkIdx status g ≤ chunk)
    (hlt : chunk < startChunkIdx status g + n)
    (hwindow : ∀ window, g.loadWindowSizeInChunks (narrowedSize status g size n unverified) =
      some window → startChunkIdx status g + n ≤ chunk + unverified.toNat + window) :
    HitAt status answers i chunk := by
  refine h.hit chunk hstart hlt fun window hw => ?_
  obtain ⟨reach, hreach⟩ := GroupOffloadConfig.exists_reach hw
  obtain ⟨-, initial, hload, -, -, hzero⟩ := GroupOffloadConfig.window_covers hw hreach
    (narrowedSize status g size n unverified)
  rcases h.narrowedSize_cases hn with ⟨hall, heq⟩ | ⟨hall, hpad⟩
  · rw [if_pos hall, ← heq, hload]
    exact hwindow initial hload
  · rw [if_neg hall, ← hzero hpad]
    exact hwindow initial hload

theorem covered : Covered status answers g i (narrowedSize status g size n unverified) := by
  have hpos := g.tokensPerChunk_pos
  have hend := h.cdiv_narrowedSize hn
  intro chunk hstart hlt hreach
  have hchunk := (lt_cdiv_iff hpos).mpr hlt
  refine h.hit_of_lt hn hstart (by omega) fun window hload => ?_
  cases hw : g.slidingWindowSizeInChunks with
  | none =>
    have hnone : g.loadWindowSizeInChunks (narrowedSize status g size n unverified) = none := by
      unfold GroupOffloadConfig.loadWindowSizeInChunks
      split <;> simp [hw]
    rw [hnone] at hload
    cases hload
  | some w =>
    obtain ⟨reach, hr⟩ := GroupOffloadConfig.exists_reach hw
    obtain ⟨-, initial, hload', -, hcover, -⟩ := GroupOffloadConfig.window_covers hw hr
      (narrowedSize status g size n unverified)
    obtain rfl : initial = window := Option.some.inj (hload'.symm.trans hload)
    -- the last chunk begins before the end of the window that begins behind `chunk`
    have hmul : cdiv (narrowedSize status g size n unverified) g.tokensPerChunk *
        g.tokensPerChunk < (chunk + 1 + initial) * g.tokensPerChunk := by
      rw [g.cdiv_mul_tokensPerChunk, Nat.add_mul]
      have := hreach reach hr
      omega
    have := Nat.lt_of_mul_lt_mul_right hmul
    omega

/-- An EAGLE group that drops its last chunk has confirmed the chunk behind the narrowed
length. -/
theorem hit_cdiv (hverified : unverified = true) :
    HitAt status answers i (cdiv (narrowedSize status g size n unverified) g.tokensPerChunk) := by
  have hend := h.cdiv_narrowedSize hn
  rw [hverified, Bool.toNat_true] at hend
  refine h.hit_of_lt hn (by rw [hverified]; omega) (by rw [hverified]; omega)
    fun window _ => ?_
  rw [hverified, Bool.toNat_true]
  omega

/-- For full attention, at every shorter length too. -/
theorem hit_cdiv_le (hverified : unverified = true) (hreach : g.reach = none) {size' : Nat}
    (hlocal : status.numLocallyComputedTokens ≤ size')
    (hle : size' ≤ narrowedSize status g size n unverified) :
    HitAt status answers i (cdiv size' g.tokensPerChunk) := by
  have hpos := g.tokensPerChunk_pos
  have hend := h.cdiv_narrowedSize hn
  have hmono := cdiv_mono hpos hle
  have hstart : startChunkIdx status g ≤ cdiv size' g.tokensPerChunk :=
    Nat.le_trans (Nat.div_le_div_right hlocal) (div_le_cdiv hpos)
  rw [hverified, Bool.toNat_true] at hend
  rw [hverified] at hmono
  refine h.hit _ hstart (by omega) fun window hw => ?_
  rw [GroupOffloadConfig.reach_eq_none_iff.mp hreach] at hw
  cases hw

end Scanned

end Group

namespace SchedulerOffloadConfig

section Loops

variable {c : SchedulerOffloadConfig} {manager : LookupManager H}
  {status : RequestOffloadState H} {g : GroupOffloadConfig} {i n : Nat}
  {p p' : LookupPass H} {next : Next (LookupPass H)} {group : IndexedGroup}

/-- What the lookup of a group does to the variables of the loops, unless the call
returns 0. -/
structure Advances (c : SchedulerOffloadConfig) (manager : LookupManager H)
    (status : RequestOffloadState H) (g : GroupOffloadConfig) (i n : Nat)
    (p p' : LookupPass H) : Prop where
  pos : 0 < n
  scan : scanGroup manager status g i (candidate status g i p.maxHitSizeTokens)
    (c.isEagleUnverified g i p.eagleVerified) p.answers = (some n, p'.answers)
  scanned : Scanned status g i (candidate status g i p.maxHitSizeTokens)
    (c.isEagleUnverified g i p.eagleVerified) p'.answers n
  answers : p.answers ⊆ p'.answers
  maxHitSizeTokens : p'.maxHitSizeTokens = narrowedSize status g
    (candidate status g i p.maxHitSizeTokens) n (c.isEagleUnverified g i p.eagleVerified)
  numHitTokens : p'.numHitTokens = p'.maxHitSizeTokens - status.numLocallyComputedTokens
  le_numHitTokens : g.tokensPerChunk ≤ p'.numHitTokens
  lookedUpSlidingWindow :
    p'.lookedUpSlidingWindow = (p.lookedUpSlidingWindow || g.slidingWindowSizeInChunks.isSome)
  lookupGroups : p'.lookupGroups =
    if p'.numHitTokens < p.numHitTokens ∧ p.lookedUpSlidingWindow = true ∧ p.lookupGroups = []
    then c.slidingWindowGroups else p.lookupGroups
  eagleVerified : p'.eagleVerified =
    if p'.numHitTokens < p.numHitTokens ∧ c.appliesEagleDrop g = false
    then [] else if c.isEagleUnverified g i p.eagleVerified then i :: p.eagleVerified
    else p.eagleVerified
  deferLookup : p'.deferLookup = false
  missed : p'.missed = p.missed

theorem scheduleLookups_eq {applyEagleDrop : Bool} {new : Nat} (hdefer : p.deferLookup = false) :
    c.scheduleLookups applyEagleDrop new p = { p with
      eagleVerified := if new < p.numHitTokens ∧ applyEagleDrop = false then []
        else p.eagleVerified
      lookupGroups := if new < p.numHitTokens ∧ p.lookedUpSlidingWindow = true ∧
          p.lookupGroups = [] then c.slidingWindowGroups else p.lookupGroups } := by
  unfold scheduleLookups
  by_cases hlt : new < p.numHitTokens
  · cases applyEagleDrop <;> cases hlooked : p.lookedUpSlidingWindow <;>
      cases hgroups : p.lookupGroups <;> simp [hlt, hdefer]
  · simp [hlt]

theorem lookupGroup_cases (hmanager : HitOrMiss manager) (hdefer : p.deferLookup = false)
    (h : c.lookupGroup manager status (g, i) p = .ok next) :
    (∃ p', next = .done p' ∧ p'.missed = true) ∨
      ∃ n p', next = .again p' ∧ Advances c manager status g i n p p' := by
  unfold lookupGroup at h
  obtain ⟨n, answers', heq, hsub, hscanned⟩ := scanGroup_spec hmanager status g i
    (candidate status g i p.maxHitSizeTokens) (c.isEagleUnverified g i p.eagleVerified) p.answers
  simp only [heq] at h
  split at h
  · cases h
  split at h
  · cases h
    exact .inl ⟨_, rfl, rfl⟩
  split at h
  · cases h
    exact .inl ⟨_, rfl, rfl⟩
  split at h
  · cases h
    exact .inl ⟨_, rfl, rfl⟩
  rename_i hn hle
  cases h
  refine .inr ⟨n, _, rfl, ?_⟩
  rw [scheduleLookups_eq
    (p := applyHits status g i _ (c.recordScan status g i _ _ answers' p) (some n)) hdefer]
  exact
    { pos := Nat.pos_of_ne_zero fun hzero => hn (by rw [hzero])
      scan := heq
      scanned := hscanned
      answers := hsub
      maxHitSizeTokens := rfl
      numHitTokens := rfl
      le_numHitTokens := Nat.le_of_not_lt hle
      lookedUpSlidingWindow := rfl
      lookupGroups := rfl
      eagleVerified := rfl
      deferLookup := hdefer
      missed := rfl }

/-- The lookup of a group that finds at least one chunk. -/
theorem lookupGroup_again (hkeys : status.req.blockHashes.length * c.tokensPerHash /
      g.tokensPerChunk ≤ (status.groupStates i).offloadKeys.length)
    (hsize : status.numLocallyComputedTokens + g.tokensPerChunk ≤
      candidate status g i p.maxHitSizeTokens)
    (hscan : (scanGroup manager status g i (candidate status g i p.maxHitSizeTokens)
      (c.isEagleUnverified g i p.eagleVerified) p.answers).1 = some n) (hn : 0 < n)
    (hle : status.numLocallyComputedTokens + g.tokensPerChunk ≤ narrowedSize status g
      (candidate status g i p.maxHitSizeTokens) n (c.isEagleUnverified g i p.eagleVerified)) :
    ∃ p', c.lookupGroup manager status (g, i) p = .ok (.again p') := by
  obtain ⟨answers', heq⟩ : ∃ answers', scanGroup manager status g i
      (candidate status g i p.maxHitSizeTokens) (c.isEagleUnverified g i p.eagleVerified)
      p.answers = (some n, answers') := ⟨_, Prod.ext hscan rfl⟩
  unfold lookupGroup
  simp only [heq, if_neg (Nat.not_lt.mpr hkeys), if_neg (Nat.not_lt.mpr hsize)]
  rw [if_neg (by simpa using Nat.pos_iff_ne_zero.mp hn), if_neg]
  · exact ⟨_, rfl⟩
  · unfold narrowedSize at hle
    show ¬ min _ _ - _ < _
    simp only [recordScan]
    omega

theorem candidate_le (status : RequestOffloadState H) (g : GroupOffloadConfig) (i size : Nat) :
    candidate status g i size ≤ size ∧ candidate status g i size ≤
      (status.groupStates i).offloadKeys.length * g.tokensPerChunk := by
  unfold candidate
  have hround := Nat.div_mul_le_self
    (min size ((status.groupStates i).offloadKeys.length * g.tokensPerChunk)) g.tokensPerChunk
  simp only [roundDown]
  split <;> omega

namespace Advances

variable (h : Advances c manager status g i n p p')

include h

theorem le : p'.maxHitSizeTokens ≤ p.maxHitSizeTokens := by
  rw [h.maxHitSizeTokens]
  exact Nat.le_trans (Nat.min_le_left _ _) (candidate_le status g i _).1

theorem le_keys : p'.maxHitSizeTokens ≤
    (status.groupStates i).offloadKeys.length * g.tokensPerChunk := by
  rw [h.maxHitSizeTokens]
  exact Nat.le_trans (Nat.min_le_left _ _) (candidate_le status g i _).2

theorem local_lt : status.numLocallyComputedTokens < p'.maxHitSizeTokens := by
  have hle := h.le_numHitTokens
  have hpos := g.tokensPerChunk_pos
  rw [h.numHitTokens] at hle
  omega

theorem covered : Covered status p'.answers g i p'.maxHitSizeTokens := by
  rw [h.maxHitSizeTokens]
  exact h.scanned.covered h.pos

end Advances

theorem mem_slidingWindowGroups : group ∈ c.slidingWindowGroups ↔
    group ∈ c.indexedGroups ∧ group.1.slidingWindowSizeInChunks.isSome = true := by
  simp [slidingWindowGroups]

theorem mem_lookupGroups : group ∈ c.lookupGroups ↔ group ∈ c.indexedGroups := by
  rw [lookupGroups, mem_append, mem_slidingWindowGroups, fullAttentionGroups,
    mem_filter]
  cases h : group.1.slidingWindowSizeInChunks <;> simp [h]

/-- The variables in an iteration that began with the candidate `bound`, after the groups
`now` of it and the groups `seen` of the call. -/
structure Progress (c : SchedulerOffloadConfig) (status : RequestOffloadState H) (bound : Nat)
    (seen now : List IndexedGroup) (p : LookupPass H) : Prop where
  deferLookup : p.deferLookup = false
  missed : p.missed = false
  le_bound : p.maxHitSizeTokens ≤ bound
  now_subset : now ⊆ seen
  seen_subset : seen ⊆ c.indexedGroups
  unseen : seen = [] → p.numHitTokens = 0
  numHitTokens : seen ≠ [] →
    p.numHitTokens = p.maxHitSizeTokens - status.numLocallyComputedTokens ∧
      status.numLocallyComputedTokens < p.maxHitSizeTokens
  keyed : ∀ group ∈ seen, p.maxHitSizeTokens ≤
    (status.groupStates group.2).offloadKeys.length * group.1.tokensPerChunk
  /-- full attention groups stay covered -/
  full : ∀ group ∈ seen, group.1.reach = none →
    Covered status p.answers group.1 group.2 p.maxHitSizeTokens
  lookedUp : ∀ group ∈ now, group.1.slidingWindowSizeInChunks.isSome = true →
    p.lookedUpSlidingWindow = true
  lookupGroups : p.lookupGroups = [] ∨
    p.lookupGroups = c.slidingWindowGroups ∧ p.maxHitSizeTokens < bound
  /-- unless there is another iteration, no group of this one has to be looked up again -/
  covered : p.lookupGroups = [] → ∀ group ∈ now,
    Covered status p.answers group.1 group.2 p.maxHitSizeTokens
  verified : p.lookupGroups = [] → ∀ group ∈ now,
    group.1.slidingWindowSizeInChunks.isSome = true → c.appliesEagleDrop group.1 = true →
    group.2 ∈ p.eagleVerified

namespace Progress

variable {bound : Nat} {seen now : List IndexedGroup}

/-- A group that narrows the candidate behind a sliding window group makes another
iteration necessary. -/
theorem again_of_lt (hp : Progress c status bound seen now p)
    (h : Advances c manager status g i n p p')
    (hnow : group ∈ now) (hwindow : group.1.slidingWindowSizeInChunks.isSome = true)
    (hlt : p'.maxHitSizeTokens < p.maxHitSizeTokens) : p'.lookupGroups ≠ [] := by
  have hseen := hp.now_subset hnow
  have hnum := hp.numHitTokens (ne_nil_of_mem hseen)
  have hshrink : p'.numHitTokens < p.numHitTokens := by
    rw [h.numHitTokens]
    omega
  have hne : c.slidingWindowGroups ≠ [] :=
    ne_nil_of_mem (mem_slidingWindowGroups.mpr ⟨hp.seen_subset hseen, hwindow⟩)
  rw [h.lookupGroups]
  split
  · exact hne
  rename_i hnot
  intro hnil
  exact hnot ⟨hshrink, hp.lookedUp group hnow hwindow, hnil⟩

/-- If there is no other iteration, a sliding window group of this one has been looked up
at the present candidate. -/
theorem eq_of_nil (hp : Progress c status bound seen now p)
    (h : Advances c manager status g i n p p')
    (hnil : p'.lookupGroups = []) (hnow : group ∈ now)
    (hwindow : group.1.slidingWindowSizeInChunks.isSome = true) :
    p'.maxHitSizeTokens = p.maxHitSizeTokens ∧ p.lookupGroups = [] := by
  refine ⟨Nat.le_antisymm h.le (Nat.le_of_not_lt fun hlt =>
    hp.again_of_lt h hnow hwindow hlt hnil), ?_⟩
  rw [h.lookupGroups] at hnil
  split at hnil
  · next hall => exact hall.2.2
  · exact hnil

theorem step (hp : Progress c status bound seen now p) (h : Advances c manager status g i n p p')
    (hgroup : (g, i) ∈ c.indexedGroups) :
    Progress c status bound ((g, i) :: seen) ((g, i) :: now) p' where
  deferLookup := h.deferLookup
  missed := h.missed.trans hp.missed
  le_bound := Nat.le_trans h.le hp.le_bound
  now_subset := cons_subset_cons _ hp.now_subset
  seen_subset := cons_subset.mpr ⟨hgroup, hp.seen_subset⟩
  unseen := nofun
  numHitTokens _ := ⟨h.numHitTokens, h.local_lt⟩
  keyed group hmem := by
    rcases mem_cons.mp hmem with rfl | hmem
    · exact h.le_keys
    · exact Nat.le_trans h.le (hp.keyed group hmem)
  full group hmem hreach := by
    rcases mem_cons.mp hmem with rfl | hmem
    · exact h.covered
    · exact ((hp.full group hmem hreach).shorten hreach h.le).mono h.answers
  lookedUp group hmem hwindow := by
    rw [h.lookedUpSlidingWindow]
    rcases mem_cons.mp hmem with rfl | hmem
    · rw [hwindow, Bool.or_true]
    · rw [hp.lookedUp group hmem hwindow, Bool.true_or]
  lookupGroups := by
    have hle := h.le
    rw [h.lookupGroups]
    split
    · next hall =>
      refine .inr ⟨rfl, ?_⟩
      have hlt := hall.1
      have hbound := hp.le_bound
      by_cases hseen : seen = []
      · rw [hp.unseen hseen] at hlt
        exact absurd hlt (Nat.not_lt_zero _)
      · rw [h.numHitTokens, (hp.numHitTokens hseen).1] at hlt
        omega
    · exact hp.lookupGroups.imp_right fun hbefore => ⟨hbefore.1, by omega⟩
  covered hnil group hmem := by
    rcases mem_cons.mp hmem with rfl | hmem
    · exact h.covered
    cases hwindow : group.1.slidingWindowSizeInChunks with
    | none =>
      have hreach := GroupOffloadConfig.reach_eq_none_iff.mpr hwindow
      exact ((hp.full group (hp.now_subset hmem) hreach).shorten hreach h.le).mono h.answers
    | some window =>
      obtain ⟨heq, hbefore⟩ := hp.eq_of_nil h hnil hmem (by rw [hwindow]; rfl)
      rw [heq]
      exact (hp.covered hbefore group hmem).mono h.answers
  verified hnil group hmem hwindow heagle := by
    rw [h.eagleVerified]
    rcases mem_cons.mp hmem with rfl | hmem
    · rw [if_neg (fun hall => by rw [hall.2] at heagle; exact nomatch heagle)]
      split
      · exact mem_cons_self
      · next hverified =>
        simpa [isEagleUnverified, heagle] using hverified
    · obtain ⟨heq, hbefore⟩ := hp.eq_of_nil h hnil hmem hwindow
      have hin := hp.verified hbefore group hmem hwindow heagle
      have hnum := hp.numHitTokens (ne_nil_of_mem (hp.now_subset hmem))
      rw [if_neg (fun hall => by rw [h.numHitTokens, heq] at hall; omega)]
      split
      · exact mem_cons_of_mem _ hin
      · exact hin

end Progress

/-- The variables at the start of an iteration. -/
def restart (p : LookupPass H) : LookupPass H :=
  { p with lookedUpSlidingWindow := false, lookupGroups := [] }

/-- The variables when the call begins. -/
def initialPass (c : SchedulerOffloadConfig) (status : RequestOffloadState H)
    (maxNumNewTokens : Option Nat) : LookupPass H where
  maxHitSizeTokens := c.initialMaxHitSizeTokens status maxNumNewTokens
  lookupGroups := c.lookupGroups

/-- No full attention group is looked up behind a sliding window group. -/
def FullFirst (group group' : IndexedGroup) : Prop :=
  group'.1.slidingWindowSizeInChunks = none → group.1.slidingWindowSizeInChunks = none

/-- A property of the variables that each lookup of a group and each new iteration keeps. -/
structure Kept (c : SchedulerOffloadConfig) (manager : LookupManager H)
    (status : RequestOffloadState H) (Q : List IndexedGroup → LookupPass H → Prop) : Prop where
  step : ∀ {bound seen now g i n p p'}, (g, i) ∈ c.indexedGroups →
    (∀ group ∈ seen, FullFirst group (g, i)) → Progress c status bound seen now p → Q seen p →
    Advances c manager status g i n p p' → Q ((g, i) :: seen) p'
  restart : ∀ {seen p}, Q seen p → Q seen (restart p)

variable {Q : List IndexedGroup → LookupPass H → Prop} {bound : Nat}
  {groups seen now : List IndexedGroup}

theorem lookupIteration_cases (hmanager : HitOrMiss manager) (hQ : Kept c manager status Q)
    (hsub : groups ⊆ c.indexedGroups) (horder : groups.Pairwise FullFirst)
    (hseen : ∀ group ∈ seen, ∀ group' ∈ groups, FullFirst group group')
    (hp : Progress c status bound seen now p) (hq : Q seen p)
    (h : c.lookupIteration manager status groups p = .ok next) :
    (∃ p', next = .done p' ∧ p'.missed = true) ∨
      ∃ p', next = .again p' ∧
        Progress c status bound (groups.reverse ++ seen) (groups.reverse ++ now) p' ∧
        Q (groups.reverse ++ seen) p' := by
  induction groups generalizing seen now p with
  | nil =>
    cases h
    exact .inr ⟨p, rfl, hp, hq⟩
  | cons group groups ih =>
    obtain ⟨g, i⟩ := group
    obtain ⟨next₁, hnext₁, h⟩ := bind_eq_ok.mp h
    have hmem := hsub mem_cons_self
    rcases lookupGroup_cases hmanager hp.deferLookup hnext₁ with
      ⟨p₁, rfl, hmissed⟩ | ⟨n, p₁, rfl, hadv⟩
    · cases h
      exact .inl ⟨p₁, rfl, hmissed⟩
    have horder := pairwise_cons.mp horder
    have hnext := ih (fun group hg => hsub (mem_cons_of_mem _ hg)) horder.2
      (fun group hg group' hg' => (mem_cons.mp hg).elim
        (fun heq => heq ▸ horder.1 group' hg')
        (fun hg => hseen group hg group' (mem_cons_of_mem _ hg')))
      (hp.step hadv hmem)
      (hQ.step hmem (fun group hg => hseen group hg (g, i) mem_cons_self) hp hq hadv) h
    simpa using hnext

theorem lookupGroups_fullFirst : c.lookupGroups.Pairwise FullFirst := by
  have hfull : ∀ group ∈ c.fullAttentionGroups, group.1.slidingWindowSizeInChunks = none :=
    fun group hg => by simpa using (mem_filter.mp hg).2
  have hwindow : ∀ group ∈ c.slidingWindowGroups, ¬ group.1.slidingWindowSizeInChunks = none :=
    fun group hg => by
      have := (mem_slidingWindowGroups.mp hg).2
      intro hnone
      rw [hnone] at this
      cases this
  refine pairwise_append.mpr ⟨?_, ?_, fun group hg _ _ _ => hfull group hg⟩
  · exact pairwise_of_forall_mem_list fun group hg _ _ _ => hfull group hg
  · exact pairwise_of_forall_mem_list fun _ _ group' hg' hnone => absurd hnone (hwindow group' hg')

/-- What holds between the iterations. -/
def Between (c : SchedulerOffloadConfig) (status : RequestOffloadState H)
    (Q : List IndexedGroup → LookupPass H → Prop) (p : LookupPass H) : Prop :=
  ∃ seen, Progress c status p.maxHitSizeTokens seen [] (restart p) ∧ Q seen (restart p) ∧
    (p.lookupGroups = c.lookupGroups ∧ seen = [] ∨
      p.lookupGroups = c.slidingWindowGroups ∧ c.indexedGroups ⊆ seen)

theorem order_of_between (hgroups : p.lookupGroups = c.lookupGroups ∧ seen = [] ∨
      p.lookupGroups = c.slidingWindowGroups ∧ c.indexedGroups ⊆ seen) :
    p.lookupGroups ⊆ c.indexedGroups ∧ p.lookupGroups.Pairwise FullFirst ∧
      ∀ group ∈ seen, ∀ group' ∈ p.lookupGroups, FullFirst group group' := by
  rcases hgroups with ⟨heq, rfl⟩ | ⟨heq, _⟩
  · exact ⟨fun group hg => mem_lookupGroups.mp (heq ▸ hg), heq ▸ lookupGroups_fullFirst, nofun⟩
  refine ⟨fun group hg => (mem_slidingWindowGroups.mp (heq ▸ hg)).1,
    heq ▸ (pairwise_append.mp lookupGroups_fullFirst).2.1, ?_⟩
  intro group _ group' hg' hnone
  have hwindow := (mem_slidingWindowGroups.mp (heq ▸ hg')).2
  rw [hnone] at hwindow
  cases hwindow

/-- What holds when the loops have found a hit. -/
def Found (c : SchedulerOffloadConfig) (status : RequestOffloadState H)
    (Q : List IndexedGroup → LookupPass H → Prop) (p : LookupPass H) : Prop :=
  ∃ bound seen now, Progress c status bound seen now p ∧ Q seen p ∧ c.indexedGroups ⊆ seen ∧
    c.slidingWindowGroups ⊆ now ∧ p.lookupGroups = []

theorem lookupPass_cases (hmanager : HitOrMiss manager) (hQ : Kept c manager status Q)
    (hp : Between c status Q p) (h : c.lookupPass manager status p = .ok next) :
    (∃ p', next = .done p' ∧ (p'.missed = true ∨ Found c status Q p')) ∨
      ∃ p', next = .again p' ∧ Between c status Q p' ∧
        p'.maxHitSizeTokens < p.maxHitSizeTokens := by
  obtain ⟨seen, hprogress, hq, hgroups⟩ := hp
  obtain ⟨next₁, hnext₁, hnext⟩ := map_eq_ok.mp h
  obtain ⟨hsub, horder, hseen⟩ := order_of_between hgroups
  rcases lookupIteration_cases hmanager hQ hsub horder hseen hprogress hq hnext₁ with
    ⟨p', rfl, hmissed⟩ | ⟨p', rfl, hafter, hq'⟩
  · exact .inl ⟨p', hnext.symm, .inl hmissed⟩
  -- the groups of the call are now all seen
  have hall : c.indexedGroups ⊆ p.lookupGroups.reverse ++ seen := by
    intro group hg
    rcases hgroups with ⟨heq, _⟩ | ⟨_, hsub⟩
    · exact mem_append_left _ (mem_reverse.mpr (heq ▸ mem_lookupGroups.mpr hg))
    · exact mem_append_right _ (hsub hg)
  have hwindows : c.slidingWindowGroups ⊆ p.lookupGroups.reverse ++ [] := by
    intro group hg
    refine mem_append_left _ (mem_reverse.mpr ?_)
    rcases hgroups with ⟨heq, _⟩ | ⟨heq, _⟩
    · exact heq ▸ mem_lookupGroups.mpr (mem_slidingWindowGroups.mp hg).1
    · exact heq ▸ hg
  cases hempty : p'.lookupGroups.isEmpty with
  | true =>
    refine .inl ⟨p', by simpa [hempty] using hnext.symm, .inr
      ⟨_, _, _, hafter, hq', hall, hwindows, List.isEmpty_iff.mp hempty⟩⟩
  | false =>
    refine .inr ⟨p', by simpa [hempty] using hnext.symm, ?_⟩
    rcases hafter.lookupGroups with hnil | ⟨heq, hlt⟩
    · rw [hnil] at hempty
      cases hempty
    refine ⟨⟨_, ?_, hQ.restart hq', .inr ⟨heq, hall⟩⟩, hlt⟩
    exact { hafter with
      le_bound := Nat.le_refl _
      now_subset := nofun
      lookedUp := nofun
      lookupGroups := .inl rfl
      covered := nofun
      verified := nofun }

theorem between_initialPass (maxNumNewTokens : Option Nat)
    (hq : Q [] (restart (c.initialPass status maxNumNewTokens))) :
    Between c status Q (c.initialPass status maxNumNewTokens) := by
  refine ⟨[], ?_, hq, .inl ⟨rfl, rfl⟩⟩
  exact {
    deferLookup := rfl
    missed := rfl
    le_bound := Nat.le_refl _
    now_subset := nofun
    seen_subset := nofun
    unseen := fun _ => rfl
    numHitTokens := fun h => absurd rfl h
    keyed := nofun
    full := nofun
    lookedUp := nofun
    lookupGroups := .inl rfl
    covered := nofun
    verified := nofun }

variable [DecidableEq H] {chunksBeingLoaded : List (OffloadKey H)} {maxNumNewTokens : Option Nat}
  {hit : Nat} {boundary : Option Nat}

/-- A hit is the candidate that the loops have found. -/
theorem lookupCompleteChunks_cases (hmanager : HitOrMiss manager) (hQ : Kept c manager status Q)
    (hq : Q [] (restart (c.initialPass status maxNumNewTokens)))
    (h : c.lookupCompleteChunks manager status chunksBeingLoaded maxNumNewTokens =
      .ok (some hit, boundary, p)) (hpos : 0 < hit) :
    Found c status Q p ∧ hit = p.numHitTokens := by
  obtain ⟨p₁, hrun, heq⟩ := map_eq_ok.mp h
  have hnum : p₁ = p ∧ p.missed = false ∧ hit = p.numHitTokens := by
    split at heq
    · simp only [Prod.mk.injEq, Option.some.injEq] at heq
      exact absurd heq.1 (by omega)
    split at heq
    · cases heq
    rename_i hmissed _
    obtain ⟨rfl, -, rfl⟩ := heq
    exact ⟨rfl, Bool.eq_false_iff.mpr hmissed, rfl⟩
  obtain ⟨rfl, hmissed, hhit⟩ := hnum
  refine ⟨?_, hhit⟩
  split at hrun
  · -- without groups there is no hit
    cases hrun
    exact absurd hhit (Nat.ne_of_gt hpos)
  obtain ⟨p₁, hbetween, hdone⟩ := loop_done (P := Between c status Q) (·.maxHitSizeTokens)
    (fun p p' hp hagain => by
      rcases lookupPass_cases hmanager hQ hp hagain with ⟨p₂, heq, _⟩ | ⟨p₂, heq, hp', hlt⟩
      · cases heq
      · cases heq
        exact ⟨hp', hlt⟩)
    (between_initialPass maxNumNewTokens hq) (Nat.lt_succ_self _) hrun
  rcases lookupPass_cases hmanager hQ hbetween hdone with ⟨p₂, heq, hfound⟩ | ⟨p₂, heq, _⟩
  · cases heq
    exact hfound.resolve_left (by rw [hmissed]; exact Bool.false_ne_true)
  · cases heq

variable (hmanager : HitOrMiss manager) (hQ : Kept c manager status Q)
  (hgo : ∀ {bound seen now g i p}, Progress c status bound seen now p → Q seen p →
    (g, i) ∈ c.indexedGroups → ∃ p', c.lookupGroup manager status (g, i) p = .ok (.again p'))
include hmanager hQ hgo

omit [DecidableEq H] in
/-- An iteration in which every group finds at least one chunk. -/
theorem lookupIteration_again (hsub : groups ⊆ c.indexedGroups) (horder : groups.Pairwise FullFirst)
    (hseen : ∀ group ∈ seen, ∀ group' ∈ groups, FullFirst group group')
    (hp : Progress c status bound seen now p) (hq : Q seen p) :
    ∃ p', c.lookupIteration manager status groups p = .ok (.again p') := by
  induction groups generalizing seen now p with
  | nil => exact ⟨p, rfl⟩
  | cons group groups ih =>
    obtain ⟨g, i⟩ := group
    have hmem := hsub mem_cons_self
    obtain ⟨p₁, hp₁⟩ := hgo hp hq hmem
    have horder := pairwise_cons.mp horder
    rcases lookupGroup_cases hmanager hp.deferLookup hp₁ with ⟨_, heq, _⟩ | ⟨n, p₂, heq, hadv⟩
    · cases heq
    cases heq
    obtain ⟨p₃, hp₃⟩ := ih (fun group hg => hsub (mem_cons_of_mem _ hg)) horder.2
      (fun group hg group' hg' => (mem_cons.mp hg).elim
        (fun heq => heq ▸ horder.1 group' hg')
        (fun hg => hseen group hg group' (mem_cons_of_mem _ hg')))
      (hp.step hadv hmem)
      (hQ.step hmem (fun group hg => hseen group hg (g, i) mem_cons_self) hp hq hadv)
    exact ⟨p₃, by rw [lookupIteration, hp₁]; exact hp₃⟩

/-- A lookup in which every group finds at least one chunk. -/
theorem lookupCompleteChunks_found
    (hq : Q [] (restart (c.initialPass status maxNumNewTokens))) (hne : c.indexedGroups ≠ []) :
    ∃ p, c.lookupCompleteChunks manager status [] maxNumNewTokens =
      .ok (some p.numHitTokens, p.fullAttentionHitBoundary, p) ∧ Found c status Q p := by
  have hpass : ∀ p, Between c status Q p → ∃ next, c.lookupPass manager status p = .ok next ∧
      (∀ p', next = .again p' → Between c status Q p' ∧
        p'.maxHitSizeTokens < p.maxHitSizeTokens) ∧
      ∀ p', next = .done p' → Found c status Q p' := by
    intro p hp
    obtain ⟨seen, hprogress, hq, hgroups⟩ := id hp
    obtain ⟨hsub, horder, hseen⟩ := order_of_between hgroups
    obtain ⟨p', hp'⟩ := lookupIteration_again hmanager hQ hgo hsub horder hseen hprogress hq
    have hpass : c.lookupPass manager status p =
        .ok (if p'.lookupGroups.isEmpty then .done p' else .again p') :=
      map_eq_ok.mpr ⟨_, hp', rfl⟩
    have hmissed : p'.missed = false := by
      rcases lookupIteration_cases hmanager hQ hsub horder hseen hprogress hq hp' with
        ⟨_, heq, _⟩ | ⟨p₁, heq, hafter, _⟩
      · cases heq
      · cases heq
        exact hafter.missed
    refine ⟨_, hpass, fun p₁ hp₁ => ?_, fun p₁ hp₁ => ?_⟩
    · rcases lookupPass_cases hmanager hQ hp hpass with ⟨_, heq, _⟩ | ⟨_, heq, hafter⟩
      · cases heq.symm.trans hp₁
      · cases heq.symm.trans hp₁
        exact hafter
    · rcases lookupPass_cases hmanager hQ hp hpass with ⟨_, heq, hafter⟩ | ⟨_, heq, _⟩
      · cases heq.symm.trans hp₁
        refine hafter.resolve_left fun hm => ?_
        split at hp₁
        · cases hp₁
          cases hmissed.symm.trans hm
        · cases hp₁
      · cases heq.symm.trans hp₁
  obtain ⟨p, hrun⟩ : ∃ p, loop (c.lookupPass manager status)
      (c.initialMaxHitSizeTokens status maxNumNewTokens + 1)
      (c.initialPass status maxNumNewTokens) = .ok p := loop_ok (P := Between c status Q)
    (fun p hp =>
      let ⟨next, hnext, hagain, _⟩ := hpass p hp
      ⟨next, hnext, fun p' hp' => (hagain p' hp').1⟩)
    (between_initialPass maxNumNewTokens hq)
  obtain ⟨p₁, hbetween, hdone⟩ := loop_done (P := Between c status Q) (·.maxHitSizeTokens)
    (fun p p' hp hagain => by
      obtain ⟨next, hnext, hafter, _⟩ := hpass p hp
      exact hafter p' (Except.ok.inj (hnext.symm.trans hagain)))
    (between_initialPass maxNumNewTokens hq) (Nat.lt_succ_self _) hrun
  obtain ⟨next, hnext, -, hfound⟩ := hpass p₁ hbetween
  have hfound := hfound p (Except.ok.inj (hnext.symm.trans hdone))
  refine ⟨p, ?_, hfound⟩
  obtain ⟨_, _, _, hp, _⟩ := hfound
  have hempty : c.lookupGroups.isEmpty = false := by
    obtain ⟨group, hgroup⟩ := exists_mem_of_ne_nil _ hne
    exact isEmpty_eq_false_iff.mpr (ne_nil_of_mem (mem_lookupGroups.mpr hgroup))
  refine map_eq_ok.mpr ⟨p, ?_, ?_⟩
  · rw [hempty]
    exact hrun
  · simp [hp.missed, hp.deferLookup, hitBeingLoaded]

end Loops

end SchedulerOffloadConfig

/-! ## Dropped chunks -/

section Dropped

variable {c : SchedulerOffloadConfig} {manager : LookupManager H}
  {status : RequestOffloadState H} {g : GroupOffloadConfig} {i : Nat} {seen : List IndexedGroup}
  {p : LookupPass H}

theorem eq_of_mem_indexedGroups {g' : GroupOffloadConfig} (h : (g, i) ∈ c.indexedGroups)
    (h' : (g', i) ∈ c.indexedGroups) : g' = g := by
  have hget : c.kvGroupConfigs[i]? = some g := mem_zipIdx_iff_getElem?.mp h
  have hget' : c.kvGroupConfigs[i]? = some g' := mem_zipIdx_iff_getElem?.mp h'
  exact Option.some.inj (hget'.symm.trans hget)

/-- Every group that has dropped a chunk was looked up. -/
def VerifiedSeen (seen : List IndexedGroup) (p : LookupPass H) : Prop :=
  ∀ i ∈ p.eagleVerified, ∃ g, (g, i) ∈ seen

theorem VerifiedSeen.step {n : Nat} {p' : LookupPass H}
    (h : VerifiedSeen seen p) (hadv : Advances c manager status g i n p p') :
    VerifiedSeen ((g, i) :: seen) p' := by
  intro j hj
  rw [hadv.eagleVerified] at hj
  split at hj
  · cases hj
  split at hj
  · rcases mem_cons.mp hj with rfl | hj
    · exact ⟨g, mem_cons_self⟩
    · exact (h j hj).imp fun _ => mem_cons_of_mem _
  · exact (h j hj).imp fun _ => mem_cons_of_mem _

/-- The first lookup of an EAGLE group drops its last chunk. -/
theorem VerifiedSeen.unverified
    (h : VerifiedSeen seen p) (hseen : seen ⊆ c.indexedGroups) (hgroup : (g, i) ∈ c.indexedGroups)
    (hnew : (g, i) ∉ seen) (heagle : c.appliesEagleDrop g = true) :
    c.isEagleUnverified g i p.eagleVerified = true := by
  have hnot : p.eagleVerified.contains i = false := by
    rw [Bool.eq_false_iff]
    intro hcontains
    obtain ⟨g', hg'⟩ := h i (by simpa using hcontains)
    exact hnew (eq_of_mem_indexedGroups hgroup (hseen hg') ▸ hg')
  rw [isEagleUnverified, heagle, hnot]
  rfl

end Dropped

end Vllm.Offload.Connector
