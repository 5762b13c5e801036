import Vllm.Hashing.Incremental

/-!
# What equal block hashes say

With an injective hash function, two requests with a common block hash agree
on everything the chain covers: tokens, LoRA adapter, cache salt and embedding
digests (`blocks_agree`). Multimodal inputs are the exception. The key loop
leaves a block at the first feature that goes on after the block's window, so
a feature listed behind one that overlaps it can be left out of the block it
starts in. Whether that happens is a matter of the placeholder ranges alone:
`Visible` says it does not, and `blockHash_sound_iff` shows that equal hashes
mean equal multimodal inputs for the layouts in a set exactly when every
layout in the set is visible.

Layouts without overlap are visible (`visible_of_nonOverlapping`). A video and
its audio track at the same placeholders are not (`audio_of_video_not_keyed`).
-/

namespace Vllm.Hashing

open List

/-! ## Reading a chain -/

section Reading

variable {D E : Type} {cfg : HasherConfig D E} {r : RequestInputs E} {toks : List Int}
  {hs : List D}

/-- What is hashed as the parent of block `k`. -/
def parentAt (cfg : HasherConfig D E) (hs : List D) : Nat → D
  | 0 => noneHash cfg
  | k + 1 => (hs[k]?).getD (noneHash cfg)

theorem getLast?_eq_parent (htruthy : ∀ x, cfg.truthy (cfg.cachingHashFn x) = true)
    (h : HashChain cfg r toks hs) (tokens : List Int) (extra : BlockExtra D) :
    hashBlockTokens cfg hs.getLast? tokens extra =
      cfg.cachingHashFn (.block (parentAt cfg hs hs.length) tokens extra) := by
  cases h with
  | nil => rfl
  | @snoc hs c _ _ _ =>
    simp [hashBlockTokens, parentAt, blockHashAt, htruthy]

/-- The hash of block `k` in a chain, with what it was computed from. -/
theorem HashChain.getElem? (htruthy : ∀ x, cfg.truthy (cfg.cachingHashFn x) = true)
    (h : HashChain cfg r toks hs) {k : Nat} {d : D} (hk : hs[k]? = some d) :
    ∃ c, CursorOk r.mmFeatures (k * cfg.hashBlockSize) c ∧
      windowEnd cfg (k * cfg.hashBlockSize) ≤ toks.length ∧
      d = cfg.cachingHashFn (.block (parentAt cfg hs k)
        (slice toks (k * cfg.hashBlockSize) ((k + 1) * cfg.hashBlockSize))
        (blockExtraKeys cfg r toks (k * cfg.hashBlockSize) c).1) := by
  induction h with
  | nil => simp at hk
  | @snoc hs c h hc hlen ih =>
    have hparent : ∀ {m : Nat} (d' : D), m ≤ hs.length →
        parentAt cfg (hs ++ [d']) m = parentAt cfg hs m := by
      intro m d' hm
      cases m with
      | zero => rfl
      | succ m => simp [parentAt, getElem?_append_left (show m < hs.length by omega)]
    rcases Nat.lt_or_ge k hs.length with hlt | hge
    · rw [getElem?_append_left hlt] at hk
      obtain ⟨c', hc', hlen', rfl⟩ := ih hk
      exact ⟨c', hc', hlen', by rw [hparent _ (Nat.le_of_lt hlt)]⟩
    obtain rfl : k = hs.length := by
      have := (List.getElem?_eq_some_iff.mp hk).1
      simp at this
      omega
    simp only [getElem?_concat_length, Option.some.injEq] at hk
    refine ⟨c, hc, hlen, ?_⟩
    rw [hparent _ (Nat.le_refl _), ← hk, blockHashAt, getLast?_eq_parent htruthy h]

end Reading

/-! ## Keys and what they come from -/

section Keys

variable {D E : Type} {cfg : HasherConfig D E} {key : ExtraKey D}

/-- The extra keys of a block before they are packed into an optional tuple. -/
def extraKeyList (cfg : HasherConfig D E) (r : RequestInputs E) (mm : List (ExtraKey D))
    (s e : Nat) : List (ExtraKey D) :=
  genLoRAExtraHashKeys r ++ mm ++ genCacheSaltKeys r s ++ genPromptEmbedsExtraHashKeys cfg r s e

theorem joinExtraKeys_inj {r r' : RequestInputs E} {mm mm' : List (ExtraKey D)} {s e : Nat}
    (h : joinExtraKeys cfg r mm s e = joinExtraKeys cfg r' mm' s e) :
    extraKeyList cfg r mm s e = extraKeyList cfg r' mm' s e := by
  change (if (extraKeyList cfg r mm s e).isEmpty then none else some _) =
    (if (extraKeyList cfg r' mm' s e).isEmpty then none else some _) at h
  split at h <;> split at h
  · rename_i h1 h2
    rw [List.isEmpty_iff.mp h1, List.isEmpty_iff.mp h2]
  · simp at h
  · simp at h
  · exact Option.some.inj h

theorem mm_of_mem_genMMLoop {s e c : Nat} {fs : List MultiModalFeatureSpec}
    (h : key ∈ (genMMLoop s e fs c).1) :
    ∃ f ∈ fs, key = .mm f.identifier ((f.mmPosition.offset : Int) - s) := by
  induction fs generalizing c with
  | nil => simp [genMMLoop] at h
  | cons f fs ih =>
    have hrest : key ∈ (genMMLoop s e fs (c + 1)).1 →
        ∃ g ∈ f :: fs, key = .mm g.identifier ((g.mmPosition.offset : Int) - s) := by
      intro hmem
      obtain ⟨g, hg, heq⟩ := ih hmem
      exact ⟨g, mem_cons_of_mem f hg, heq⟩
    simp only [genMMLoop] at h
    split at h
    · split at h
      · exact hrest h
      · split at h
        · rcases mem_cons.mp h with rfl | hmem
          · exact ⟨f, mem_cons_self, rfl⟩
          · exact hrest hmem
        · exact ⟨f, mem_cons_self, mem_singleton.mp h⟩
    · simp at h

/-- Every multimodal key of a block comes from a feature. -/
theorem mm_of_mem_mmKeys {r : RequestInputs E} {s c : Nat} (h : key ∈ mmKeys cfg r s c) :
    ∃ f ∈ r.mmFeatures, key = .mm f.identifier ((f.mmPosition.offset : Int) - s) := by
  unfold mmKeys genMMExtraHashKeys at h
  split at h
  · simp at h
  split at h
  · simp at h
  · obtain ⟨f, hf, heq⟩ := mm_of_mem_genMMLoop h
    exact ⟨f, mem_of_mem_drop hf, heq⟩

theorem not_mem_mmKeys {r : RequestInputs E} {s c : Nat} (key : ExtraKey D)
    (hkey : ∀ id off, key ≠ .mm id off) : key ∉ mmKeys cfg r s c := by
  intro hmem
  obtain ⟨f, -, heq⟩ := mm_of_mem_mmKeys hmem
  exact hkey _ _ heq

theorem mem_genLoRAExtraHashKeys {r : RequestInputs E} : key ∈ genLoRAExtraHashKeys r ↔
      ∃ l, r.loraRequest = some l ∧ key = .lora l.loraName l.loraPath := by
  unfold genLoRAExtraHashKeys
  cases r.loraRequest <;> simp

theorem mem_genCacheSaltKeys {r : RequestInputs E} {s : Nat} :
    key ∈ genCacheSaltKeys r s ↔ s = 0 ∧ ∃ t, r.cacheSalt = some t ∧ key = .cacheSalt t := by
  unfold genCacheSaltKeys
  cases hsalt : r.cacheSalt with
  | none => simp
  | some t =>
    have hne : t ≠ "" := fun h => r.cacheSalt_ne (h ▸ hsalt)
    by_cases hs : s = 0 <;> simp [hne]

theorem mem_genPromptEmbedsExtraHashKeys {r : RequestInputs E} {s e : Nat} :
    key ∈ genPromptEmbedsExtraHashKeys cfg r s e ↔
      ∃ rows, r.promptEmbeds = some rows ∧
        key = .promptEmbeds (cfg.embedsDigest (slice rows s e)) := by
  unfold genPromptEmbedsExtraHashKeys
  cases r.promptEmbeds <;> simp

theorem mem_extraKeyList {r : RequestInputs E} {mm : List (ExtraKey D)} {s e : Nat} :
    key ∈ extraKeyList cfg r mm s e ↔
      (∃ l, r.loraRequest = some l ∧ key = .lora l.loraName l.loraPath) ∨ key ∈ mm ∨
      (s = 0 ∧ ∃ t, r.cacheSalt = some t ∧ key = .cacheSalt t) ∨
      ∃ rows, r.promptEmbeds = some rows ∧
        key = .promptEmbeds (cfg.embedsDigest (slice rows s e)) := by
  simp only [extraKeyList, mem_append, mem_genLoRAExtraHashKeys, mem_genCacheSaltKeys,
    mem_genPromptEmbedsExtraHashKeys, or_assoc]

/-- The digest of the prompt embeddings that block `k` is hashed with. -/
def embedsKeyAt (cfg : HasherConfig D E) (r : RequestInputs E) (k : Nat) : Option D :=
  r.promptEmbeds.map fun rows => cfg.embedsDigest
    (slice rows (k * cfg.hashBlockSize) (windowEnd cfg (k * cfg.hashBlockSize)))

section SameKeys

variable {r r' : RequestInputs E} {s c c' : Nat}
  (h : extraKeyList cfg r (mmKeys cfg r s c) s (windowEnd cfg s) =
    extraKeyList cfg r' (mmKeys cfg r' s c') s (windowEnd cfg s))

include h

theorem mem_iff_of_extraKeyList_eq (key : ExtraKey D) :
    key ∈ extraKeyList cfg r (mmKeys cfg r s c) s (windowEnd cfg s) ↔
      key ∈ extraKeyList cfg r' (mmKeys cfg r' s c') s (windowEnd cfg s) := by
  rw [h]

theorem mmKeys_subset_of_extraKeyList_eq {id : String} {off : Int}
    (hmem : .mm id off ∈ mmKeys cfg r s c) : .mm id off ∈ mmKeys cfg r' s c' := by
  have := (mem_iff_of_extraKeyList_eq h (.mm id off)).mp
    (mem_extraKeyList.mpr (.inr (.inl hmem)))
  simpa [mem_extraKeyList] using this

theorem loraRequest_eq_of_extraKeyList_eq : r.loraRequest = r'.loraRequest := by
  have hlora : ∀ (q : RequestInputs E) (d : Nat) (l : LoRARequest),
      .lora l.loraName l.loraPath ∈ extraKeyList cfg q (mmKeys cfg q s d) s (windowEnd cfg s) ↔
        q.loraRequest = some l := by
    intro q d l
    simp only [mem_extraKeyList, not_mem_mmKeys (.lora l.loraName l.loraPath) (by simp),
      ExtraKey.lora.injEq, reduceCtorEq, and_false, exists_false, or_false]
    exact ⟨fun ⟨l', hl', hn, hp⟩ => by rw [hl']; cases l; cases l'; simp_all,
      fun hl => ⟨l, hl, rfl, rfl⟩⟩
  exact Option.ext fun l =>
    ((hlora r c l).symm.trans (mem_iff_of_extraKeyList_eq h _)).trans (hlora r' c' l)

theorem cacheSalt_eq_of_extraKeyList_eq (hs : s = 0) : r.cacheSalt = r'.cacheSalt := by
  have hsalt : ∀ (q : RequestInputs E) (d : Nat) (t : String),
      .cacheSalt t ∈ extraKeyList cfg q (mmKeys cfg q s d) s (windowEnd cfg s) ↔
        q.cacheSalt = some t := by
    intro q d t
    simp [mem_extraKeyList, not_mem_mmKeys (.cacheSalt t), hs]
  exact Option.ext fun t =>
    ((hsalt r c t).symm.trans (mem_iff_of_extraKeyList_eq h _)).trans (hsalt r' c' t)

theorem embedsDigest_eq_of_extraKeyList_eq :
    r.promptEmbeds.map (fun rows => cfg.embedsDigest (slice rows s (windowEnd cfg s))) =
      r'.promptEmbeds.map (fun rows => cfg.embedsDigest (slice rows s (windowEnd cfg s))) := by
  have hembeds : ∀ (q : RequestInputs E) (d : Nat) (x : D),
      .promptEmbeds x ∈ extraKeyList cfg q (mmKeys cfg q s d) s (windowEnd cfg s) ↔
        q.promptEmbeds.map (fun rows => cfg.embedsDigest (slice rows s (windowEnd cfg s))) =
          some x := by
    intro q d x
    simp [mem_extraKeyList, not_mem_mmKeys (.promptEmbeds x), @eq_comm _ x]
  exact Option.ext fun x =>
    ((hembeds r c x).symm.trans (mem_iff_of_extraKeyList_eq h _)).trans (hembeds r' c' x)

end SameKeys

end Keys

/-! ## Layouts -/

/-- Placeholder ranges as a request lists them: sorted by offset, as the input
processor leaves them. They may overlap. -/
structure MMLayout where
  ranges : List PlaceholderRange
  sorted : ranges.Pairwise (fun p q => p.offset ≤ q.offset)

/-- The first block whose hash has to know of a range when a hash speaks for
`reach` positions after its block. -/
def firstBlock {D E : Type} (cfg : HasherConfig D E) (reach : Nat) (p : PlaceholderRange) : Nat :=
  (p.offset - reach) / cfg.hashBlockSize

/-- No range goes on after the window of the first block of a range listed
behind it. -/
def Visible {D E : Type} (cfg : HasherConfig D E) (reach : Nat)
    (ranges : List PlaceholderRange) : Prop :=
  ranges.Pairwise fun p q => p.stop ≤ windowEnd cfg (firstBlock cfg reach q * cfg.hashBlockSize)

instance {D E : Type} (cfg : HasherConfig D E) (reach : Nat) (ranges : List PlaceholderRange) :
    Decidable (Visible cfg reach ranges) :=
  inferInstanceAs (Decidable (List.Pairwise _ ranges))

def RequestInputs.ranges {E : Type} (r : RequestInputs E) : List PlaceholderRange :=
  r.mmFeatures.map (·.mmPosition)

section Layouts

variable {D E : Type} {cfg : HasherConfig D E} {r : RequestInputs E} {reach : Nat}

theorem firstBlock_mul_le (cfg : HasherConfig D E) (reach : Nat) (p : PlaceholderRange) :
    firstBlock cfg reach p * cfg.hashBlockSize ≤ p.offset :=
  Nat.le_trans (Nat.div_mul_le_self _ _) (Nat.sub_le _ _)

theorem offset_lt_of_firstBlock (cfg : HasherConfig D E) (reach : Nat) (p : PlaceholderRange) :
    p.offset < (firstBlock cfg reach p + 1) * cfg.hashBlockSize + reach := by
  have := Nat.lt_div_mul_add cfg.hashBlockSize_pos (a := p.offset - reach)
  rw [firstBlock, Nat.succ_mul]
  omega

theorem offset_lt_windowEnd (hreach : reach ≤ cfg.numHashLookaheadTokens) (p : PlaceholderRange) :
    p.offset < windowEnd cfg (firstBlock cfg reach p * cfg.hashBlockSize) := by
  have := offset_lt_of_firstBlock cfg reach p
  rw [Nat.succ_mul] at this
  unfold windowEnd
  omega

/-- The loop reaches a feature in its window when every feature listed before
it ends in the window. -/
theorem mem_genMMLoop {s e c : Nat} {pre post : List MultiModalFeatureSpec}
    {f : MultiModalFeatureSpec} (hpre : ∀ g ∈ pre, g.mmPosition.stop ≤ e)
    (hoff : f.mmPosition.offset < e) (hstop : s < f.mmPosition.stop) :
    ExtraKey.mm (B := D) f.identifier ((f.mmPosition.offset : Int) - s) ∈
      (genMMLoop s e (pre ++ f :: post) c).1 := by
  induction pre generalizing c with
  | nil =>
    simp only [nil_append, genMMLoop, hoff, if_true, Nat.not_le.mpr hstop, if_false]
    split <;> simp
  | cons g pre ih =>
    have hg := hpre g mem_cons_self
    have hrest := ih (c := c + 1) fun g' hg' => hpre g' (mem_cons_of_mem g hg')
    have hgoff : g.mmPosition.offset < e := Nat.lt_of_lt_of_le g.mmPosition.offset_lt_stop hg
    simp only [cons_append, genMMLoop, hgoff, if_true, hg]
    split
    · exact hrest
    · exact mem_cons_of_mem _ hrest

/-- In a visible layout a feature is keyed in the first block that has to know
of it. -/
theorem mem_mmKeys_firstBlock (hreach : reach ≤ cfg.numHashLookaheadTokens)
    (hsorted : r.ranges.Pairwise (fun p q => p.offset ≤ q.offset))
    (hvis : Visible cfg reach r.ranges) {f : MultiModalFeatureSpec} (hf : f ∈ r.mmFeatures)
    {c : Nat}
    (hc : CursorOk r.mmFeatures (firstBlock cfg reach f.mmPosition * cfg.hashBlockSize) c) :
    ExtraKey.mm f.identifier ((f.mmPosition.offset : Int) -
        (firstBlock cfg reach f.mmPosition * cfg.hashBlockSize : Nat)) ∈
      mmKeys cfg r (firstBlock cfg reach f.mmPosition * cfg.hashBlockSize) c := by
  have hstart := firstBlock_mul_le cfg reach f.mmPosition
  have hwindow := offset_lt_windowEnd hreach f.mmPosition
  have hstop := Nat.lt_of_le_of_lt hstart f.mmPosition.offset_lt_stop
  have hsorted' := pairwise_iff_getElem.mp (pairwise_map.mp hsorted)
  have hvis' := pairwise_iff_getElem.mp (pairwise_map.mp hvis)
  obtain ⟨m, hm, rfl⟩ := getElem_of_mem hf
  generalize hs : firstBlock cfg reach r.mmFeatures[m].mmPosition * cfg.hashBlockSize = s at *
  -- the cursor has not passed `f`: the feature before it starts before the block
  have hcm : c ≤ m := by
    rcases hc with rfl | ⟨g, hg, hgs⟩
    · exact Nat.zero_le m
    by_contra hlt
    obtain ⟨hc', rfl⟩ := List.getElem?_eq_some_iff.mp hg
    have hg' := r.mmFeatures[c - 1].mmPosition.offset_lt_stop
    rcases Nat.lt_or_ge m (c - 1) with hlt' | hge
    · have := hsorted' m (c - 1) hm hc' hlt'
      omega
    · obtain rfl : m = c - 1 := by omega
      omega
  have hlast : ∀ last, r.mmFeatures.getLast? = some last → s < last.mmPosition.stop := by
    intro last hl
    rw [getLast?_eq_getElem?] at hl
    obtain ⟨hl', rfl⟩ := List.getElem?_eq_some_iff.mp hl
    have := r.mmFeatures[r.mmFeatures.length - 1].mmPosition.offset_lt_stop
    rcases Nat.lt_or_ge m (r.mmFeatures.length - 1) with hlt | hge
    · have := hsorted' m (r.mmFeatures.length - 1) hm hl' hlt
      omega
    · obtain rfl : m = r.mmFeatures.length - 1 := by omega
      exact hstop
  have hdrop : r.mmFeatures.drop c =
      (r.mmFeatures.drop c).take (m - c) ++ r.mmFeatures[m] :: r.mmFeatures.drop (m + 1) := by
    conv_lhs => rw [← take_append_drop (m - c) (r.mmFeatures.drop c)]
    rw [drop_drop, Nat.add_sub_cancel' hcm, drop_eq_getElem_cons hm]
  unfold mmKeys genMMExtraHashKeys
  split
  · rename_i hnil
    simp [getLast?_eq_none_iff.mp hnil] at hm
  rename_i last hl
  rw [if_neg (Nat.not_le.mpr (hlast last hl)), hdrop]
  refine mem_genMMLoop (fun g hg => ?_) hwindow hstop
  obtain ⟨i, hi, rfl⟩ := getElem_of_mem hg
  simp only [length_take, length_drop] at hi
  have := hvis' (c + i) m (by omega) hm (by omega)
  simpa [hs] using this

end Layouts

/-! ## Agreement -/

section Agreement

variable {D E : Type} (cfg : HasherConfig D E)

/-- `r` has a feature with this identifier at this offset that overlaps the
positions below `pos`. -/
def HasFeature (r : RequestInputs E) (pos : Nat) (identifier : String) (offset : Nat) : Prop :=
  ∃ f ∈ r.mmFeatures, f.identifier = identifier ∧ f.mmPosition.offset = offset ∧ offset < pos

/-- The requests agree on what block `i` and the blocks before it stand for.
Multimodal inputs are compared up to `reach` positions after block `i`. -/
structure Agree (reach : Nat) (a b : Request D E) (i : Nat) : Prop where
  tokens : a.allTokenIds.take (windowEnd cfg (i * cfg.hashBlockSize)) =
    b.allTokenIds.take (windowEnd cfg (i * cfg.hashBlockSize))
  covered : windowEnd cfg (i * cfg.hashBlockSize) ≤ a.numTokens ∧
    windowEnd cfg (i * cfg.hashBlockSize) ≤ b.numTokens
  lora : a.loraRequest = b.loraRequest
  salt : a.cacheSalt = b.cacheSalt
  embeds : ∀ k ≤ i, embedsKeyAt cfg a.toRequestInputs k = embedsKeyAt cfg b.toRequestInputs k
  features : ∀ identifier offset,
    HasFeature a.toRequestInputs ((i + 1) * cfg.hashBlockSize + reach) identifier offset ↔
      HasFeature b.toRequestInputs ((i + 1) * cfg.hashBlockSize + reach) identifier offset

/-- What one block of two chains has in common when its hashes are equal. -/
structure BlockAgrees (a b : Request D E) (k : Nat) : Prop where
  tokens : slice a.allTokenIds (k * cfg.hashBlockSize) ((k + 1) * cfg.hashBlockSize) =
    slice b.allTokenIds (k * cfg.hashBlockSize) ((k + 1) * cfg.hashBlockSize)
  lookahead : slice a.allTokenIds ((k + 1) * cfg.hashBlockSize)
      (windowEnd cfg (k * cfg.hashBlockSize)) =
    slice b.allTokenIds ((k + 1) * cfg.hashBlockSize) (windowEnd cfg (k * cfg.hashBlockSize))
  covered : windowEnd cfg (k * cfg.hashBlockSize) ≤ a.numTokens ∧
    windowEnd cfg (k * cfg.hashBlockSize) ≤ b.numTokens
  keys : ∃ c c', CursorOk a.mmFeatures (k * cfg.hashBlockSize) c ∧
    CursorOk b.mmFeatures (k * cfg.hashBlockSize) c' ∧
    extraKeyList cfg a.toRequestInputs
        (mmKeys cfg a.toRequestInputs (k * cfg.hashBlockSize) c) (k * cfg.hashBlockSize)
        (windowEnd cfg (k * cfg.hashBlockSize)) =
      extraKeyList cfg b.toRequestInputs
        (mmKeys cfg b.toRequestInputs (k * cfg.hashBlockSize) c') (k * cfg.hashBlockSize)
        (windowEnd cfg (k * cfg.hashBlockSize))

variable {cfg} {a b : Request D E}

theorem BlockAgrees.symm {k : Nat} (h : BlockAgrees cfg a b k) : BlockAgrees cfg b a k := by
  obtain ⟨htoks, hlook, hcov, c, c', hc, hc', hkeys⟩ := h
  exact ⟨htoks.symm, hlook.symm, hcov.symm, c', c, hc', hc, hkeys.symm⟩

theorem slice_self {α : Type} (xs : List α) (n : Nat) : slice xs n n = [] := by
  simp [slice]

theorem wrapExtra_inj {keys keys' : Option (List (ExtraKey D))} {xs ys : List Int} {n : Nat}
    (h : wrapExtra cfg keys (slice xs n (n + cfg.numHashLookaheadTokens)) =
      wrapExtra cfg keys' (slice ys n (n + cfg.numHashLookaheadTokens))) :
    keys = keys' ∧
      slice xs n (n + cfg.numHashLookaheadTokens) =
        slice ys n (n + cfg.numHashLookaheadTokens) := by
  unfold wrapExtra at h
  split at h
  · simpa using h
  rename_i hzero
  simp only [ne_eq, Decidable.not_not] at hzero
  refine ⟨by simpa using h, ?_⟩
  rw [hzero, Nat.add_zero, slice_self, slice_self]

variable (hinj : Function.Injective cfg.cachingHashFn)
  (htruthy : ∀ x, cfg.truthy (cfg.cachingHashFn x) = true)

include hinj htruthy

theorem blockAgrees_of_getElem?_eq (ha : Hashed cfg a) (hb : Hashed cfg b) {k : Nat} {d : D}
    (hak : a.blockHashes[k]? = some d) (hbk : b.blockHashes[k]? = some d) :
    BlockAgrees cfg a b k := by
  obtain ⟨c, hc, hlen, hd⟩ := ha.chain.getElem? htruthy hak
  obtain ⟨c', hc', hlen', hd'⟩ := hb.chain.getElem? htruthy hbk
  obtain ⟨-, htoks, hextra⟩ := HashInput.block.inj (hinj (hd.symm.trans hd'))
  rw [blockExtraKeys_fst, blockExtraKeys_fst] at hextra
  obtain ⟨hkeys, hlook⟩ := wrapExtra_inj hextra
  rw [← Nat.succ_mul] at hlook
  exact {
    tokens := htoks
    lookahead := by rw [windowEnd, ← Nat.succ_mul]; exact hlook
    covered := ⟨hlen, hlen'⟩
    keys := ⟨c, c', hc, hc', joinExtraKeys_inj hkeys⟩ }

/-- Equal hashes stand at equal positions, and the hashes before them are
equal. The induction runs down the chain: a first block has `NONE_HASH` as its
parent, which is not the hash of a block. -/
theorem getElem?_eq_of_le (ha : Hashed cfg a) (hb : Hashed cfg b) {i j : Nat} {d : D}
    (hai : a.blockHashes[i]? = some d) (hbj : b.blockHashes[j]? = some d) :
    i = j ∧ ∀ k ≤ i, a.blockHashes[k]? = b.blockHashes[k]? := by
  -- the hash of a block that has a successor in the chain
  have hprev : ∀ {r : Request D E} {n : Nat} {x : D}, Hashed cfg r →
      r.blockHashes[n + 1]? = some x →
      ∃ y, r.blockHashes[n]? = some y ∧ parentAt cfg r.blockHashes (n + 1) = y ∧
        y ≠ noneHash cfg := by
    intro r n x hr hx
    have hlt := (List.getElem?_eq_some_iff.mp hx).1
    have hy : r.blockHashes[n]? = some r.blockHashes[n] := getElem?_eq_getElem (by omega)
    obtain ⟨c, -, -, hd⟩ := hr.chain.getElem? htruthy hy
    refine ⟨_, hy, by simp [parentAt, hy], fun hnone => ?_⟩
    rw [hd] at hnone
    cases hinj hnone
  induction i generalizing j d with
  | zero =>
    obtain ⟨c, -, -, hd⟩ := ha.chain.getElem? htruthy hai
    obtain ⟨c', -, -, hd'⟩ := hb.chain.getElem? htruthy hbj
    have hparent := (HashInput.block.inj (hinj (hd.symm.trans hd'))).1
    cases j with
    | zero =>
      refine ⟨rfl, fun k hk => ?_⟩
      obtain rfl := Nat.le_zero.mp hk
      rw [hai, hbj]
    | succ j =>
      obtain ⟨y, -, hy, hne⟩ := hprev hb hbj
      exact absurd (hy.symm.trans hparent.symm) hne
  | succ i ih =>
    obtain ⟨c, -, -, hd⟩ := ha.chain.getElem? htruthy hai
    obtain ⟨c', -, -, hd'⟩ := hb.chain.getElem? htruthy hbj
    have hparent := (HashInput.block.inj (hinj (hd.symm.trans hd'))).1
    obtain ⟨x, hxi, hx, hxne⟩ := hprev ha hai
    cases j with
    | zero => exact absurd (hx.symm.trans hparent) hxne
    | succ j =>
      obtain ⟨y, hyj, hy, -⟩ := hprev hb hbj
      obtain rfl : x = y := hx.symm.trans (hparent.trans hy)
      obtain ⟨rfl, hle⟩ := ih hxi hyj
      refine ⟨rfl, fun k hk => ?_⟩
      rcases Nat.lt_or_ge k (i + 1) with hlt | hge
      · exact hle k (by omega)
      · obtain rfl : k = i + 1 := by omega
        rw [hai, hbj]

/-- Equal hashes stand at equal positions, and every block up to there agrees. -/
theorem blocks_agree (ha : Hashed cfg a) (hb : Hashed cfg b) {i j : Nat} {d : D}
    (hai : a.blockHashes[i]? = some d) (hbj : b.blockHashes[j]? = some d) :
    i = j ∧ ∀ k ≤ i, BlockAgrees cfg a b k := by
  obtain ⟨rfl, hle⟩ := getElem?_eq_of_le hinj htruthy ha hb hai hbj
  refine ⟨rfl, fun k hk => ?_⟩
  have hlt : k < a.blockHashes.length := by
    have := (List.getElem?_eq_some_iff.mp hai).1
    omega
  have hak : a.blockHashes[k]? = some a.blockHashes[k] := getElem?_eq_getElem hlt
  exact blockAgrees_of_getElem?_eq hinj htruthy ha hb hak (hle k hk ▸ hak)

omit hinj htruthy in
theorem take_eq_of_blocks {i : Nat} (h : ∀ k < i, BlockAgrees cfg a b k) :
    a.allTokenIds.take (i * cfg.hashBlockSize) = b.allTokenIds.take (i * cfg.hashBlockSize) := by
  induction i with
  | zero => simp
  | succ i ih =>
    have hi := (h i (Nat.lt_succ_self i)).tokens
    have hsub : (i + 1) * cfg.hashBlockSize - i * cfg.hashBlockSize = cfg.hashBlockSize := by
      rw [Nat.succ_mul]; omega
    simp only [slice, hsub] at hi
    rw [Nat.succ_mul, take_add, take_add, hi, ih fun k hk => h k (by omega)]

omit hinj htruthy in
theorem hasFeature_of_blocks {reach i : Nat} (hreach : reach ≤ cfg.numHashLookaheadTokens)
    (hsorted : a.ranges.Pairwise (fun p q => p.offset ≤ q.offset))
    (hvis : Visible cfg reach a.ranges) (h : ∀ k ≤ i, BlockAgrees cfg a b k)
    {identifier : String} {offset : Nat}
    (hf : HasFeature a.toRequestInputs ((i + 1) * cfg.hashBlockSize + reach) identifier offset) :
    HasFeature b.toRequestInputs ((i + 1) * cfg.hashBlockSize + reach) identifier offset := by
  obtain ⟨f, hmem, rfl, rfl, hlt⟩ := hf
  have hk : firstBlock cfg reach f.mmPosition ≤ i := by
    have hpos : 0 < (i + 1) * cfg.hashBlockSize :=
      Nat.mul_pos (Nat.succ_pos i) cfg.hashBlockSize_pos
    have := Nat.div_lt_of_lt_mul (m := f.mmPosition.offset - reach) (n := cfg.hashBlockSize)
      (k := i + 1) (by rw [Nat.mul_comm]; omega)
    unfold firstBlock
    omega
  obtain ⟨c, c', hc, -, hkeys⟩ := (h _ hk).keys
  have hkey := mem_mmKeys_firstBlock hreach hsorted hvis hmem hc
  obtain ⟨g, hg, heq⟩ := mm_of_mem_mmKeys (mmKeys_subset_of_extraKeyList_eq hkeys hkey)
  obtain ⟨hid, hoff⟩ := ExtraKey.mm.inj heq
  exact ⟨g, hg, hid.symm, by omega, hlt⟩

/-- Agreement block by block adds up to agreement of the requests. -/
theorem agree_of_visible {reach : Nat} (hreach : reach ≤ cfg.numHashLookaheadTokens)
    {l l' : MMLayout} (hl : a.ranges = l.ranges) (hl' : b.ranges = l'.ranges)
    (hvis : Visible cfg reach l.ranges) (hvis' : Visible cfg reach l'.ranges)
    (ha : Hashed cfg a) (hb : Hashed cfg b) {i j : Nat} {d : D}
    (hai : a.blockHashes[i]? = some d) (hbj : b.blockHashes[j]? = some d) :
    i = j ∧ Agree cfg reach a b i := by
  obtain ⟨rfl, hblocks⟩ := blocks_agree hinj htruthy ha hb hai hbj
  obtain ⟨c, c', -, -, hkeys0⟩ := (hblocks 0 (Nat.zero_le i)).keys
  refine ⟨rfl, ?_, (hblocks i (Nat.le_refl i)).covered, loraRequest_eq_of_extraKeyList_eq hkeys0,
    cacheSalt_eq_of_extraKeyList_eq hkeys0 (Nat.zero_mul _), fun k hk => ?_,
    fun identifier offset => ⟨?_, ?_⟩⟩
  · have htake := take_eq_of_blocks (i := i + 1) fun k hk => hblocks k (by omega)
    have hlook := (hblocks i (Nat.le_refl i)).lookahead
    have hend : windowEnd cfg (i * cfg.hashBlockSize) =
        (i + 1) * cfg.hashBlockSize + cfg.numHashLookaheadTokens := by
      rw [windowEnd, Nat.succ_mul]
    rw [hend] at hlook ⊢
    simp only [slice, Nat.add_sub_cancel_left] at hlook
    rw [take_add, take_add, htake, hlook]
  · obtain ⟨c, c', -, -, hkeys⟩ := (hblocks k hk).keys
    exact embedsDigest_eq_of_extraKeyList_eq hkeys
  · exact hasFeature_of_blocks hreach (hl ▸ l.sorted) (hl ▸ hvis) hblocks
  · exact hasFeature_of_blocks hreach (hl' ▸ l'.sorted) (hl' ▸ hvis') fun k hk =>
      (hblocks k hk).symm

end Agreement

/-! ## A hidden feature -/

section Hidden

variable {D E : Type} {s e c n : Nat} {fs fs' : List MultiModalFeatureSpec}
  {g : MultiModalFeatureSpec} (cfg : HasherConfig D E)

/-- The loop does not look behind a feature that goes on after the window. -/
theorem genMMLoop_hidden (hse : s ≤ e) (htake : fs.take (n + 1) = fs'.take (n + 1))
    (hg : fs[n]? = some g) (hlong : e < g.mmPosition.stop) :
    genMMLoop (B := D) s e fs c = genMMLoop s e fs' c ∧
      (genMMLoop (B := D) s e fs c).2 ≤ c + n := by
  induction n generalizing fs fs' c with
  | zero =>
    cases fs with
    | nil => simp at hg
    | cons f fs =>
      cases fs' with
      | nil => simp at htake
      | cons f' fs' =>
        obtain rfl : f = f' := by simpa using htake
        obtain rfl : f = g := by simpa using hg
        have h1 : ¬ f.mmPosition.stop ≤ s := by omega
        have h2 : ¬ f.mmPosition.stop ≤ e := by omega
        simp only [genMMLoop, h1, h2, if_false]
        split <;> simp
  | succ n ih =>
    cases fs with
    | nil => simp at hg
    | cons f fs =>
      cases fs' with
      | nil => simp at htake
      | cons f' fs' =>
        obtain ⟨rfl, htake'⟩ : f = f' ∧ fs.take (n + 1) = fs'.take (n + 1) := by
          simpa using htake
        obtain ⟨heq, hle⟩ := ih (c := c + 1) htake' (by simpa using hg)
        have hle' : (genMMLoop (B := D) s e fs (c + 1)).2 ≤ c + (n + 1) := by omega
        simp only [genMMLoop, ← heq]
        refine ⟨trivial, ?_⟩
        split
        · split
          · exact hle'
          · split
            · exact hle'
            · simp
        · simp

theorem genMMExtraHashKeys_hidden (hse : s ≤ e)
    (hpos : fs.map (·.mmPosition) = fs'.map (·.mmPosition))
    (htake : fs.take (n + 1) = fs'.take (n + 1)) (hg : fs[n]? = some g)
    (hlong : e < g.mmPosition.stop) (hc : c ≤ n) :
    genMMExtraHashKeys (B := D) fs s e c = genMMExtraHashKeys fs' s e c ∧
      (genMMExtraHashKeys (B := D) fs s e c).2 ≤ n := by
  have hlast : fs.getLast?.map (·.mmPosition) = fs'.getLast?.map (·.mmPosition) := by
    rw [← getLast?_map, ← getLast?_map, hpos]
  have hdrop : (fs.drop c).take (n - c + 1) = (fs'.drop c).take (n - c + 1) := by
    have := congrArg (List.drop c) htake
    rwa [drop_take, drop_take, show n + 1 - c = n - c + 1 by omega] at this
  have hg' : (fs.drop c)[n - c]? = some g := by
    rw [getElem?_drop, Nat.add_sub_cancel' hc, hg]
  obtain ⟨heq, hle⟩ := genMMLoop_hidden (D := D) (c := c) hse hdrop hg' hlong
  unfold genMMExtraHashKeys
  cases hl : fs.getLast? with
  | none => simp [getLast?_eq_none_iff.mp hl] at hg
  | some last =>
    rw [hl] at hlast
    cases hl' : fs'.getLast? with
    | none => simp [hl'] at hlast
    | some last' =>
      obtain hlast' : last.mmPosition = last'.mmPosition := by simpa [hl'] using hlast
      simp only [hlast', ← heq, true_and]
      split
      · exact hc
      · omega

theorem rewindMMIdx_le (pos c : Nat) : rewindMMIdx fs pos c ≤ c := by
  induction c with
  | zero => exact Nat.le_refl 0
  | succ c ih =>
    simp only [rewindMMIdx]
    split
    · exact Nat.le_refl _
    split
    · exact Nat.le_refl _
    · omega

theorem rewindMMIdx_congr (hpos : fs.map (·.mmPosition) = fs'.map (·.mmPosition)) (pos c : Nat) :
    rewindMMIdx fs pos c = rewindMMIdx fs' pos c := by
  induction c with
  | zero => rfl
  | succ c ih =>
    have hget : fs[c]?.map (·.mmPosition) = fs'[c]?.map (·.mmPosition) := by
      rw [← getElem?_map, ← getElem?_map, hpos]
    simp only [rewindMMIdx]
    cases hf : fs[c]? with
    | none =>
      have : fs'[c]? = none := by simpa [hf] using hget.symm
      rw [this]
    | some f =>
      rw [hf] at hget
      cases hf' : fs'[c]? with
      | none => simp [hf'] at hget
      | some f' =>
        have : f.mmPosition = f'.mmPosition := by simpa [hf'] using hget
        simp only [this, ih]

/-- A change of features behind one that goes on after the window changes
nothing in the hash of the block. -/
theorem blockExtraKeys_hidden {r : RequestInputs E}
    (hpos : r.mmFeatures.map (·.mmPosition) = fs'.map (·.mmPosition))
    (htake : r.mmFeatures.take (n + 1) = fs'.take (n + 1)) (hg : r.mmFeatures[n]? = some g)
    (hlong : windowEnd cfg s < g.mmPosition.stop) (hc : c ≤ n) (toks : List Int) :
    blockExtraKeys cfg r toks s c = blockExtraKeys cfg { r with mmFeatures := fs' } toks s c ∧
      (blockExtraKeys cfg r toks s c).2 ≤ n := by
  unfold blockExtraKeys generateLookaheadBlockHashExtraKeys generateBlockHashExtraKeys
  by_cases hL : cfg.numHashLookaheadTokens = 0
  · obtain ⟨heq, hle⟩ := genMMExtraHashKeys_hidden (D := D) (s := s)
      (e := s + cfg.hashBlockSize) (by omega) hpos htake hg
      (by rwa [windowEnd, hL, Nat.add_zero] at hlong) hc
    simp only [hL, ne_eq, not_true_eq_false, if_false, ← heq]
    exact ⟨rfl, hle⟩
  · obtain ⟨heq, hle⟩ := genMMExtraHashKeys_hidden (D := D) (s := s)
      (e := s + cfg.hashBlockSize + cfg.numHashLookaheadTokens) (by omega) hpos htake hg
      hlong hc
    simp only [hL, ne_eq, not_false_eq_true, if_true, ← heq, ← rewindMMIdx_congr hpos]
    exact ⟨rfl, Nat.le_trans (rewindMMIdx_le _ _) hle⟩

theorem hashLoop_hidden {r : RequestInputs E} (fs' : List MultiModalFeatureSpec) (toks : List Int)
    (hpos : r.mmFeatures.map (·.mmPosition) = fs'.map (·.mmPosition))
    (htake : r.mmFeatures.take (n + 1) = fs'.take (n + 1)) (hg : r.mmFeatures[n]? = some g)
    (hlong : toks.length < g.mmPosition.stop) (fuel : Nat) (prev : Option D)
    (hc : c ≤ n) :
    hashLoop cfg r toks fuel s c prev =
      hashLoop cfg { r with mmFeatures := fs' } toks fuel s c prev := by
  induction fuel generalizing s c prev with
  | zero => rfl
  | succ fuel ih =>
    simp only [hashLoop]
    split
    · rfl
    obtain ⟨heq, hle⟩ := blockExtraKeys_hidden (s := s) cfg hpos htake hg
      (by unfold windowEnd; omega) hc toks
    rw [← heq, ih _ hle]

/-- Give the features of a layout their identifiers. -/
def labelled (ids : Nat → String) (ranges : List PlaceholderRange) : RequestInputs E where
  mmFeatures := ranges.mapIdx fun i p => ⟨ids i, p⟩
  loraRequest := none
  cacheSalt := none
  cacheSalt_ne := nofun
  promptEmbeds := none

theorem labelled_ranges (ids : Nat → String) (ranges : List PlaceholderRange) :
    (labelled (E := E) ids ranges).ranges = ranges := by
  refine ext_getElem? fun i => ?_
  simp only [RequestInputs.ranges, labelled, getElem?_map, getElem?_mapIdx, Option.map_map]
  cases ranges[i]? <;> rfl

/-- In a layout that is not visible, some feature can be exchanged without a
change of the hashes up to the block that has to know of it. -/
theorem exists_same_hash_of_not_visible {reach : Nat}
    {ranges : List PlaceholderRange} (hvis : ¬ Visible cfg reach ranges) :
    ∃ (a b : Request D E) (i : Nat) (d : D), Hashed cfg a ∧ Hashed cfg b ∧
      a.ranges = ranges ∧ b.ranges = ranges ∧
      a.blockHashes[i]? = some d ∧ b.blockHashes[i]? = some d ∧ ¬ Agree cfg reach a b i := by
  obtain ⟨m, q, hm, hq, hmq, hlong⟩ : ∃ (m q : Nat) (hm : m < ranges.length)
      (hq : q < ranges.length), m < q ∧
        windowEnd cfg (firstBlock cfg reach ranges[q] * cfg.hashBlockSize) < ranges[m].stop := by
    by_contra hall
    refine hvis (pairwise_iff_getElem.mpr fun m q hm hq hmq => ?_)
    exact Nat.le_of_not_lt fun hlt => hall ⟨m, q, hm, hq, hmq, hlt⟩
  generalize hi : firstBlock cfg reach ranges[q] = i at hlong
  -- the same features, the one at `q` under another identifier
  let ids : Nat → String := fun j => if j = q then "b" else "a"
  let toks : List Int := List.replicate (windowEnd cfg (i * cfg.hashBlockSize)) 0
  let a : Request D E := Request.new cfg (labelled (fun _ => "a") ranges) toks
  let b : Request D E := Request.new cfg (labelled ids ranges) toks
  have hlen : a.blockHashes.length = i + 1 := by
    have hnew : Hashed cfg a := .new _ _
    have hnum : a.numTokens = windowEnd cfg (i * cfg.hashBlockSize) := length_replicate
    rw [hnew.length_blockHashes, hnum, windowEnd, Nat.add_sub_cancel, ← Nat.succ_mul,
      Nat.mul_div_cancel _ cfg.hashBlockSize_pos]
  have hsame : a.blockHashes = b.blockHashes := by
    have hloop := hashLoop_hidden (s := 0) cfg
      (g := ⟨"a", ranges[m]⟩)
      (labelled (E := E) ids ranges).mmFeatures toks
      ((labelled_ranges _ ranges).trans (labelled_ranges ids ranges).symm)
      (ext_getElem? fun j => by
        simp only [labelled, getElem?_take, getElem?_mapIdx, ids]
        split
        · rw [if_neg (show j ≠ q by omega)]
        · rfl)
      (by simp [labelled]) (by simpa [toks] using hlong) toks.length none (Nat.zero_le m)
    simp only [a, b, Request.new, Request.updateBlockHashes, requestBlockHasher, nil_append,
      length_nil, Nat.zero_mul, getLast?_nil, initialMMIdx, Nat.lt_irrefl, false_and,
      if_false, Request.numTokens]
    split
    · rfl
    · cases (labelled (E := E) (fun _ => "a") ranges).mmFeatures.getLast? <;>
        cases (labelled ids ranges).mmFeatures.getLast? <;> exact hloop
  refine ⟨a, b, i, a.blockHashes[i], .new _ _, .new _ _, labelled_ranges _ _, labelled_ranges _ _,
    getElem?_eq_getElem _, ?_, fun hagree => ?_⟩
  · rw [← hsame]
    exact getElem?_eq_getElem _
  have hoff := offset_lt_of_firstBlock cfg reach ranges[q]
  rw [hi] at hoff
  obtain ⟨f, hf, hid, -⟩ := (hagree.features "b" ranges[q].offset).mpr
    ⟨⟨"b", ranges[q]⟩, mem_iff_getElem?.mpr ⟨q, by
      simp [b, Request.new, Request.updateBlockHashes, labelled, ids]⟩, rfl, rfl, hoff⟩
  obtain ⟨j, hj⟩ := getElem?_of_mem hf
  simp only [a, Request.new, Request.updateBlockHashes, labelled, getElem?_mapIdx,
    Option.map_eq_some_iff] at hj
  obtain ⟨p, -, rfl⟩ := hj
  exact absurd hid (show "a" ≠ "b" by decide)

end Hidden

/-! ## Soundness of the hashes -/

section Sound

variable {D E : Type} (cfg : HasherConfig D E)

/-- Equal block hashes of requests whose multimodal inputs have one of these
layouts stand at equal positions and mean that the requests agree. -/
def HashSound (reach : Nat) (layouts : Set MMLayout) : Prop :=
  ∀ (a b : Request D E) (l l' : MMLayout), Hashed cfg a → Hashed cfg b →
    l ∈ layouts → l' ∈ layouts → a.ranges = l.ranges → b.ranges = l'.ranges →
    ∀ (i j : Nat) (d : D), a.blockHashes[i]? = some d → b.blockHashes[j]? = some d →
      i = j ∧ Agree cfg reach a b i

/-- A video and the audio taken from it sit at the same placeholders. The
video goes on after the first block, so the audio is not in the block's keys,
and requests with different audio share the block's hash. -/
theorem audio_of_video_not_keyed :
    ∃ (a b : Request FreeDigest Int) (l : MMLayout) (d : FreeDigest),
      a = Request.new (freeConfig 2 (by decide) 0)
        (mmInputs [⟨"video", 0, 4, by decide⟩, ⟨"audio", 0, 4, by decide⟩]) [7, 7, 7, 7] ∧
      b = Request.new (freeConfig 2 (by decide) 0)
        (mmInputs [⟨"video", 0, 4, by decide⟩, ⟨"other", 0, 4, by decide⟩]) [7, 7, 7, 7] ∧
      a.ranges = l.ranges ∧ b.ranges = l.ranges ∧
      a.blockHashes[0]? = some d ∧ b.blockHashes[0]? = some d ∧
      ¬ Agree (freeConfig 2 (by decide) 0) 0 a b 0 := by
  refine ⟨_, _, ⟨[⟨0, 4, by decide⟩, ⟨0, 4, by decide⟩], by decide⟩, _, rfl, rfl, rfl, rfl, rfl,
    rfl, fun hagree => ?_⟩
  obtain ⟨f, hf, hid, -⟩ := (hagree.features "other" 0).mpr
    ⟨⟨"other", 0, 4, by decide⟩, by decide, rfl, rfl, by decide⟩
  have : ∀ g ∈ (mmInputs [⟨"video", 0, 4, by decide⟩, ⟨"audio", 0, 4, by decide⟩]).mmFeatures,
      g.identifier ≠ "other" := by decide
  exact this f hf hid

/-- With an injective hash function, equal block hashes mean equal contents for
all requests with the given layouts exactly when every layout is visible. This
holds for multimodal inputs compared up to any `reach` within the lookahead,
from the block's own positions only (`0`) to all that its hash covers. -/
theorem blockHash_sound_iff (hinj : Function.Injective cfg.cachingHashFn)
    (htruthy : ∀ x, cfg.truthy (cfg.cachingHashFn x) = true) {reach : Nat}
    (hreach : reach ≤ cfg.numHashLookaheadTokens) (layouts : Set MMLayout) :
    HashSound cfg reach layouts ↔ ∀ l ∈ layouts, Visible cfg reach l.ranges := by
  constructor
  · intro hsound l hl
    by_contra hvis
    obtain ⟨a, b, i, d, ha, hb, hra, hrb, hai, hbi, hnot⟩ :=
      exists_same_hash_of_not_visible cfg hvis
    exact hnot (hsound a b l l ha hb hl hl hra hrb i i d hai hbi).2
  · intro hvis a b l l' ha hb hl hl' hra hrb i j d hai hbj
    exact agree_of_visible hinj htruthy hreach hra hrb (hvis l hl) (hvis l' hl') ha hb hai hbj

/-- Free digests have no collisions, so hashing two images side by side in
blocks of two with one lookahead token is sound. -/
theorem blockHash_sound_iff_two_images :
    Function.Injective (freeConfig 2 (by decide) 1).cachingHashFn ∧
      HashSound (freeConfig 2 (by decide) 1) 1
        {⟨[⟨1, 2, by decide⟩, ⟨4, 3, by decide⟩], by decide⟩} := by
  have hinj : Function.Injective (freeConfig 2 (by decide) 1).cachingHashFn :=
    fun _ _ h => FreeDigest.of.inj h
  refine ⟨hinj, (blockHash_sound_iff _ hinj (fun _ => rfl) (by decide) _).mpr ?_⟩
  rintro l rfl
  decide

end Sound

end Vllm.Hashing
