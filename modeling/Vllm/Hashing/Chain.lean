import Vllm.Hashing.Basic

/-!
# The chain of block hashes

What the hasher computes, said once. A list of block hashes is a `HashChain`
when each hash covers the hash before it, its block's tokens and the extra
keys found from *some* cursor that is not too far (`CursorOk`): the feature
just before the cursor ends by the start of the block. Both ways of getting a
cursor (bisection on resumption, carrying and rewinding inside a call) give
such a cursor, so every call of the hasher extends a chain to a chain
(`hashChain_updateBlockHashes`), and so every request that was created and
appended to has one (`Hashed.chain`).
-/

namespace Vllm.Hashing

open Library List

/-! ## The cursor -/

/-- The cursor is at the start of the list, or the feature before it ends by
`pos`. Nothing is assumed of the features further left. -/
def CursorOk (fs : List MultiModalFeatureSpec) (pos c : Nat) : Prop :=
  c = 0 ∨ ∃ f, fs[c - 1]? = some f ∧ f.mmPosition.stop ≤ pos

theorem CursorOk.mono {fs : List MultiModalFeatureSpec} {pos pos' c : Nat}
    (h : CursorOk fs pos c) (hle : pos ≤ pos') : CursorOk fs pos' c := by
  rcases h with rfl | ⟨f, hf, hstop⟩
  · exact .inl rfl
  · exact .inr ⟨f, hf, Nat.le_trans hstop hle⟩

theorem initialMMIdx_cursorOk (fs : List MultiModalFeatureSpec) (pos : Nat) :
    CursorOk fs pos (initialMMIdx fs pos) := by
  unfold initialMMIdx
  split
  · exact .inl rfl
  split
  · rcases Nat.eq_zero_or_pos (getMMFeaturesInWindowLo fs pos) with h0 | hpos
    · exact .inl h0
    have hbelow := bisectLeft_below_pred hpos
    split at hbelow
    · simp at hbelow
    · rename_i f hf
      exact .inr ⟨f, hf, Nat.le_of_lt_succ (by simpa using hbelow)⟩
  · exact .inl rfl

section Cursor

variable {B : Type} {fs : List MultiModalFeatureSpec} {s e c : Nat}

/-- The feature before the cursor that the loop returns ends by the end of the
window, unless the loop did not move. -/
theorem genMMLoop_cursor (fs : List MultiModalFeatureSpec) (c : Nat) (hse : s ≤ e) :
    (genMMLoop (B := B) s e (fs.drop c) c).2 = c ∨
      ∃ f, fs[(genMMLoop (B := B) s e (fs.drop c) c).2 - 1]? = some f ∧
        f.mmPosition.stop ≤ e := by
  generalize hrest : fs.drop c = rest
  induction rest generalizing c with
  | nil => exact .inl rfl
  | cons f rest ih =>
    have hget : fs[c]? = some f := by
      rw [← head?_drop, hrest, head?_cons]
    have hdrop : fs.drop (c + 1) = rest := by
      rw [← tail_drop, hrest, tail_cons]
    have hstep : f.mmPosition.stop ≤ e →
        ∃ g, fs[(genMMLoop (B := B) s e rest (c + 1)).2 - 1]? = some g ∧
          g.mmPosition.stop ≤ e := by
      intro hstop
      rcases ih (c + 1) hdrop with hstay | hmoved
      · exact ⟨f, by rw [hstay]; simpa using hget, hstop⟩
      · exact hmoved
    simp only [genMMLoop]
    split
    · split
      · rename_i hpassed
        exact .inr (hstep (Nat.le_trans hpassed hse))
      · split
        · rename_i hin
          exact .inr (hstep hin)
        · exact .inl rfl
    · exact .inl rfl

theorem genMMExtraHashKeys_cursorOk (hse : s ≤ e) (h : CursorOk fs s c) :
    CursorOk fs e (genMMExtraHashKeys (B := B) fs s e c).2 := by
  unfold genMMExtraHashKeys
  split
  · exact h.mono hse
  split
  · exact h.mono hse
  rcases genMMLoop_cursor fs c hse with hstay | hmoved
  · rw [hstay]
    exact h.mono hse
  · exact .inr hmoved

/-- Rewinding stops at the start or behind a feature that ends by `pos`. -/
theorem rewindMMIdx_cursorOk {pos : Nat} (h : CursorOk fs e c) :
    CursorOk fs pos (rewindMMIdx fs pos c) := by
  have hlen : c ≤ fs.length := by
    rcases h with rfl | ⟨f, hf, -⟩
    · exact Nat.zero_le _
    · have := (List.getElem?_eq_some_iff.mp hf).1
      omega
  clear h
  induction c with
  | zero => exact .inl rfl
  | succ c ih =>
    have hget : fs[c]? = some fs[c] := getElem?_eq_getElem (by omega)
    simp only [rewindMMIdx, hget]
    split
    · rename_i hstop
      exact .inr ⟨_, hget, hstop⟩
    · exact ih (by omega)

end Cursor

/-! ## One block -/

section Block

variable {B E : Type} (cfg : HasherConfig B E) (r : RequestInputs E)

/-- The end of what the hash of the block at `startTokenIdx` covers. -/
def windowEnd (startTokenIdx : Nat) : Nat :=
  startTokenIdx + cfg.hashBlockSize + cfg.numHashLookaheadTokens

/-- The multimodal keys of the block at `startTokenIdx`, from the cursor `c`. -/
def mmKeys (startTokenIdx c : Nat) : List (ExtraKey B) :=
  (genMMExtraHashKeys r.mmFeatures startTokenIdx (windowEnd cfg startTokenIdx) c).1

/-- Package the keys of a block with its lookahead tokens. -/
def wrapExtra (keys : Option (List (ExtraKey B))) (tokens : List Int) : BlockExtra B :=
  if cfg.numHashLookaheadTokens ≠ 0 then .lookahead keys tokens else .plain keys

/-- With a lookahead or without, a block's extra keys are read in the window
up to `windowEnd`. -/
theorem blockExtraKeys_fst (toks : List Int) (s c : Nat) :
    (blockExtraKeys cfg r toks s c).1 =
      wrapExtra cfg (joinExtraKeys cfg r (mmKeys cfg r s c) s (windowEnd cfg s))
        (slice toks (s + cfg.hashBlockSize) (windowEnd cfg s)) := by
  have hone : cfg.numHashLookaheadTokens = 1 →
      toks[s + cfg.hashBlockSize]?.toList =
        slice toks (s + cfg.hashBlockSize) (windowEnd cfg s) := by
    intro h
    simp only [slice, windowEnd, h, Nat.add_sub_cancel_left]
    rw [take_one, head?_drop]
  unfold blockExtraKeys wrapExtra
  by_cases hL : cfg.numHashLookaheadTokens = 0
  · simp [hL, generateBlockHashExtraKeys, mmKeys, windowEnd]
  by_cases h1 : cfg.numHashLookaheadTokens = 1
  · simp [hone h1, h1, generateLookaheadBlockHashExtraKeys, generateBlockHashExtraKeys,
      mmKeys, windowEnd]
  · simp [hL, h1, generateLookaheadBlockHashExtraKeys, generateBlockHashExtraKeys,
      mmKeys, windowEnd]

theorem blockExtraKeys_cursorOk (toks : List Int) {s c : Nat} (h : CursorOk r.mmFeatures s c) :
    CursorOk r.mmFeatures (s + cfg.hashBlockSize) (blockExtraKeys cfg r toks s c).2 := by
  unfold blockExtraKeys
  split
  · exact rewindMMIdx_cursorOk (genMMExtraHashKeys_cursorOk (by omega) h)
  · exact genMMExtraHashKeys_cursorOk (by omega) h

/-- The hash of block `k` when its keys are found from the cursor `c`. -/
def blockHashAt (toks : List Int) (k c : Nat) (prev : Option B) : B :=
  hashBlockTokens cfg prev (slice toks (k * cfg.hashBlockSize) ((k + 1) * cfg.hashBlockSize))
    (blockExtraKeys cfg r toks (k * cfg.hashBlockSize) c).1

end Block

/-! ## Chains -/

section Chains

variable {B E : Type} (cfg : HasherConfig B E)

/-- `hs` hashes the first `hs.length` blocks of `toks`, each from some cursor
that is not too far. -/
inductive HashChain (r : RequestInputs E) (toks : List Int) : List B → Prop
  | nil : HashChain r toks []
  | snoc {hs : List B} {c : Nat} :
      HashChain r toks hs →
      CursorOk r.mmFeatures (hs.length * cfg.hashBlockSize) c →
      windowEnd cfg (hs.length * cfg.hashBlockSize) ≤ toks.length →
      HashChain r toks (hs ++ [blockHashAt cfg r toks hs.length c hs.getLast?])

/-- The requests that arise: created from a prompt, then appended to. -/
inductive Hashed : Request B E → Prop
  | new (inputs : RequestInputs E) (prompt : List Int) : Hashed (Request.new cfg inputs prompt)
  | append {r : Request B E} (toks : List Int) :
      Hashed r → Hashed (r.appendOutputTokenIds cfg toks)

variable {cfg} {r : RequestInputs E} {toks : List Int} {hs : List B}

theorem HashChain.hashLoop {fuel c : Nat} (h : HashChain cfg r toks hs)
    (hc : CursorOk r.mmFeatures (hs.length * cfg.hashBlockSize) c) :
    HashChain cfg r toks
      (hs ++ Hashing.hashLoop cfg r toks fuel (hs.length * cfg.hashBlockSize) c hs.getLast?) := by
  induction fuel generalizing hs c with
  | zero => simpa [Hashing.hashLoop] using h
  | succ fuel ih =>
    simp only [Hashing.hashLoop]
    split
    · simpa using h
    have hsnoc := h.snoc hc (by unfold windowEnd; omega)
    have hnext := blockExtraKeys_cursorOk cfg r toks hc
    have hmul : (hs.length + 1) * cfg.hashBlockSize =
        hs.length * cfg.hashBlockSize + cfg.hashBlockSize := Nat.succ_mul _ _
    have := ih hsnoc
      (by simpa [hmul] using hnext)
    simpa [blockHashAt, hmul] using this

/-- A call of the hasher extends a chain to a chain. -/
theorem hashChain_updateBlockHashes {r : Request B E}
    (h : HashChain cfg r.toRequestInputs r.allTokenIds r.blockHashes) :
    HashChain cfg r.toRequestInputs r.allTokenIds (r.updateBlockHashes cfg).blockHashes := by
  simp only [Request.updateBlockHashes, requestBlockHasher]
  split
  · simpa using h
  · exact h.hashLoop (initialMMIdx_cursorOk _ _)

theorem slice_append_of_le {α : Type} {xs ys : List α} {i j : Nat} (h : j ≤ xs.length) :
    slice (xs ++ ys) i j = slice xs i j := by
  unfold slice
  rw [drop_append, take_append_of_le_length]
  simp; omega

/-- A hash covers tokens that are there, so later tokens do not change it. -/
theorem HashChain.append_tokens (h : HashChain cfg r toks hs) (more : List Int) :
    HashChain cfg r (toks ++ more) hs := by
  induction h with
  | nil => exact .nil
  | @snoc hs c _ hc hlen ih =>
    have hmul : (hs.length + 1) * cfg.hashBlockSize =
        hs.length * cfg.hashBlockSize + cfg.hashBlockSize := Nat.succ_mul _ _
    have hhash : blockHashAt cfg r toks hs.length c hs.getLast? =
        blockHashAt cfg r (toks ++ more) hs.length c hs.getLast? := by
      unfold blockHashAt
      rw [blockExtraKeys_fst, blockExtraKeys_fst, slice_append_of_le hlen,
        slice_append_of_le (by unfold windowEnd at hlen; omega)]
    rw [hhash]
    exact ih.snoc hc (by rw [length_append]; omega)

/-- The hashes of every request are a chain over its tokens. -/
theorem Hashed.chain {r : Request B E} (h : Hashed cfg r) :
    HashChain cfg r.toRequestInputs r.allTokenIds r.blockHashes := by
  induction h with
  | new inputs prompt =>
    exact hashChain_updateBlockHashes
      (r := { toRequestInputs := inputs, allTokenIds := prompt, blockHashes := [] }) .nil
  | @append r toks _ ih =>
    exact hashChain_updateBlockHashes
      (r := { r with allTokenIds := r.allTokenIds ++ toks }) (ih.append_tokens toks)

/-! ## How many hashes -/

theorem hashLoop_length {fuel start c : Nat} {prev : Option B}
    (hfuel : toks.length < start + fuel + 1) :
    (Hashing.hashLoop cfg r toks fuel start c prev).length =
      (toks.length - cfg.numHashLookaheadTokens - start) / cfg.hashBlockSize := by
  have hpos := cfg.hashBlockSize_pos
  induction fuel generalizing start c prev with
  | zero =>
    have : toks.length - cfg.numHashLookaheadTokens - start = 0 := by omega
    simp [Hashing.hashLoop, this]
  | succ fuel ih =>
    simp only [Hashing.hashLoop]
    split
    · rw [Nat.div_eq_of_lt (by omega), length_nil]
    rw [length_cons, ih (by omega)]
    have hsub : toks.length - cfg.numHashLookaheadTokens - start =
        toks.length - cfg.numHashLookaheadTokens - (start + cfg.hashBlockSize) +
          cfg.hashBlockSize := by omega
    rw [hsub, Nat.add_div_right _ hpos]

/-- After an update every block that is complete, lookahead included, has its
hash. -/
theorem updateBlockHashes_length {r : Request B E}
    (h : HashChain cfg r.toRequestInputs r.allTokenIds r.blockHashes) :
    (r.updateBlockHashes cfg).blockHashes.length =
      (r.numTokens - cfg.numHashLookaheadTokens) / cfg.hashBlockSize := by
  have hpos := cfg.hashBlockSize_pos
  have hle : r.blockHashes.length * cfg.hashBlockSize ≤
      r.numTokens - cfg.numHashLookaheadTokens := by
    generalize r.blockHashes = hs at h
    cases h with
    | nil => simp
    | @snoc hs c _ _ hlen =>
      simp only [length_append, length_singleton, Nat.succ_mul, windowEnd,
        Request.numTokens] at hlen ⊢
      omega
  have hsplit : (r.numTokens - cfg.numHashLookaheadTokens) / cfg.hashBlockSize =
      r.blockHashes.length +
        (r.numTokens - cfg.numHashLookaheadTokens -
          r.blockHashes.length * cfg.hashBlockSize) / cfg.hashBlockSize := by
    conv_lhs => rw [← Nat.sub_add_cancel hle, Nat.add_mul_div_right _ _ hpos]
    exact Nat.add_comm _ _
  simp only [Request.updateBlockHashes, requestBlockHasher, length_append]
  rw [hsplit]
  congr 1
  split
  · rw [length_nil, Nat.div_eq_of_lt]
    omega
  · exact hashLoop_length (by simp only [Request.numTokens]; omega)

theorem Hashed.length_blockHashes {r : Request B E} (h : Hashed cfg r) :
    r.blockHashes.length = (r.numTokens - cfg.numHashLookaheadTokens) / cfg.hashBlockSize := by
  cases h with
  | new inputs prompt => exact updateBlockHashes_length .nil
  | append toks h => exact updateBlockHashes_length (h.chain.append_tokens toks)

end Chains

end Vllm.Hashing
