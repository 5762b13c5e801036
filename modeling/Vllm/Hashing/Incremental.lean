import Vllm.Hashing.Chain

/-!
# Hashing as tokens arrive

When the multimodal features of a request do not overlap, the keys of a block
are the features that meet its window, whichever cursor they were looked up
from (`mmKeys_eq_windowKeys`). A chain is then determined by its length
(`HashChain.unique`), and a request that was extended call by call has the
hashes of a request that was created with all its tokens
(`blockHashes_appends_eq_new`).
-/

namespace Vllm.Hashing

open List

/-- The features are sorted by offset and do not overlap. -/
def NonOverlapping (fs : List MultiModalFeatureSpec) : Prop :=
  fs.Pairwise (fun f g => f.mmPosition.stop ≤ g.mmPosition.offset)

instance (fs : List MultiModalFeatureSpec) : Decidable (NonOverlapping fs) :=
  inferInstanceAs (Decidable (List.Pairwise _ fs))

section WindowKeys

variable {B E : Type} {s e c : Nat} {fs : List MultiModalFeatureSpec} {f : MultiModalFeatureSpec}

/-- The keys of the features that meet `[s, e)`. -/
def windowKeys (s e : Nat) (fs : List MultiModalFeatureSpec) : List (ExtraKey B) :=
  (fs.filter (fun f => decide (f.mmPosition.offset < e ∧ s < f.mmPosition.stop))).map
    (fun f => .mm f.identifier ((f.mmPosition.offset : Int) - s))

theorem windowKeys_cons (s e : Nat) (f : MultiModalFeatureSpec) (fs : List MultiModalFeatureSpec) :
    windowKeys (B := B) s e (f :: fs) =
      if f.mmPosition.offset < e ∧ s < f.mmPosition.stop then
        .mm f.identifier ((f.mmPosition.offset : Int) - s) :: windowKeys s e fs
      else windowKeys s e fs := by
  by_cases h : f.mmPosition.offset < e ∧ s < f.mmPosition.stop
  · simp [windowKeys, h]
  · rw [if_neg h, windowKeys, filter_cons_of_neg (by simpa using h)]
    rfl

theorem windowKeys_eq_nil (h : ∀ f ∈ fs, e ≤ f.mmPosition.offset ∨ f.mmPosition.stop ≤ s) :
    windowKeys (B := B) s e fs = [] := by
  simp only [windowKeys, map_eq_nil_iff, filter_eq_nil_iff, decide_eq_true_eq]
  intro f hf
  have := h f hf
  omega

theorem genMMLoop_eq_windowKeys (hfs : NonOverlapping fs) (c : Nat) :
    (genMMLoop (B := B) s e fs c).1 = windowKeys s e fs := by
  induction fs generalizing c with
  | nil => rfl
  | cons f fs ih =>
    obtain ⟨hhead, htail⟩ := pairwise_cons.mp hfs
    have hlt := f.mmPosition.offset_lt_stop
    -- the loop stops early only where every later feature starts after the window
    have hrest : e ≤ f.mmPosition.stop → windowKeys (B := B) s e fs = [] := by
      intro hle
      exact windowKeys_eq_nil fun g hg => .inl (Nat.le_trans hle (hhead g hg))
    simp only [genMMLoop]
    split
    · rename_i hoff
      split
      · rw [ih htail, windowKeys_cons, if_neg (by omega)]
      rename_i hmeets
      have hcons := windowKeys_cons (B := B) s e f fs
      rw [if_pos ⟨hoff, Nat.lt_of_not_le hmeets⟩] at hcons
      rw [hcons]
      split
      · rw [ih htail]
      · rw [hrest (by omega)]
    · rw [windowKeys_cons, if_neg (by omega), hrest (by omega)]

/-- In a list of features that do not overlap, what lies before a good cursor
has ended. -/
theorem NonOverlapping.stop_le_of_lt (hfs : NonOverlapping fs)
    {pos i : Nat} (hc : CursorOk fs pos c) (hi : i < c)
    (hf : fs[i]? = some f) : f.mmPosition.stop ≤ pos := by
  rcases hc with rfl | ⟨g, hg, hstop⟩
  · omega
  obtain ⟨hi', rfl⟩ := List.getElem?_eq_some_iff.mp hf
  obtain ⟨hc', rfl⟩ := List.getElem?_eq_some_iff.mp hg
  rcases Nat.lt_or_ge i (c - 1) with hlt | hge
  · have hle := pairwise_iff_getElem.mp hfs i (c - 1) hi' hc' hlt
    have := fs[c - 1].mmPosition.offset_lt_stop
    omega
  · obtain rfl : i = c - 1 := by omega
    exact hstop

theorem NonOverlapping.stop_le_last (hfs : NonOverlapping fs)
    {last : MultiModalFeatureSpec} (hlast : fs.getLast? = some last)
    (hf : f ∈ fs) : f.mmPosition.stop ≤ last.mmPosition.stop := by
  obtain ⟨i, hi⟩ := getElem?_of_mem hf
  have hlast' : fs[fs.length - 1]? = some last := by rw [← getLast?_eq_getElem?, hlast]
  refine hfs.stop_le_of_lt (.inr ⟨last, hlast', Nat.le_refl _⟩) ?_ hi
  exact (List.getElem?_eq_some_iff.mp hi).1

theorem genMMExtraHashKeys_eq_windowKeys (hfs : NonOverlapping fs) (hc : CursorOk fs s c) :
    (genMMExtraHashKeys (B := B) fs s e c).1 = windowKeys s e fs := by
  unfold genMMExtraHashKeys
  split
  · rename_i hnil
    rw [getLast?_eq_none_iff.mp hnil]
    rfl
  rename_i last hlast
  split
  · rename_i hend
    exact (windowKeys_eq_nil fun f hf =>
      .inr (Nat.le_trans (hfs.stop_le_last hlast hf) hend)).symm
  have hbefore : windowKeys (B := B) s e (fs.take c) = [] := by
    refine windowKeys_eq_nil fun f hf => .inr ?_
    obtain ⟨i, hi⟩ := getElem?_of_mem hf
    rw [getElem?_take] at hi
    split at hi
    · exact hfs.stop_le_of_lt hc ‹_› hi
    · simp at hi
  have hsplit : windowKeys (B := B) s e fs =
      windowKeys s e (fs.take c) ++ windowKeys s e (fs.drop c) := by
    simp only [windowKeys, ← map_append, ← filter_append, take_append_drop]
  rw [hsplit, hbefore]
  exact genMMLoop_eq_windowKeys (hfs.sublist (drop_sublist c fs)) c

variable {cfg : HasherConfig B E} {r : RequestInputs E}

theorem mmKeys_eq_windowKeys (hfs : NonOverlapping r.mmFeatures) (hc : CursorOk r.mmFeatures s c) :
    mmKeys cfg r s c = windowKeys s (windowEnd cfg s) r.mmFeatures :=
  genMMExtraHashKeys_eq_windowKeys hfs hc

/-- Without overlaps, a chain is determined by how many blocks it covers. -/
theorem HashChain.unique (hfs : NonOverlapping r.mmFeatures) {toks : List Int} {hs hs' : List B}
    (h : HashChain cfg r toks hs) (h' : HashChain cfg r toks hs')
    (hlen : hs.length = hs'.length) : hs = hs' := by
  induction h generalizing hs' with
  | nil => exact (eq_nil_of_length_eq_zero hlen.symm).symm
  | @snoc hs c _ hc _ ih =>
    cases h' with
    | nil => simp at hlen
    | @snoc hs' c' h' hc' _ =>
      obtain rfl := ih h' (by simpa using hlen)
      have hkeys : blockHashAt cfg r toks hs.length c hs.getLast? =
          blockHashAt cfg r toks hs.length c' hs.getLast? := by
        unfold blockHashAt
        rw [blockExtraKeys_fst, blockExtraKeys_fst, mmKeys_eq_windowKeys hfs hc,
          mmKeys_eq_windowKeys hfs hc']
      rw [hkeys]

end WindowKeys

/-! ## Appending -/

section Appends

variable {B E : Type} (cfg : HasherConfig B E)

/-- Successive calls of `append_output_token_ids`. -/
def appendAll (r : Request B E) (outputs : List (List Int)) : Request B E :=
  outputs.foldl (fun r toks => r.appendOutputTokenIds cfg toks) r

theorem appendAll_hashed {r : Request B E} (h : Hashed cfg r) (outputs : List (List Int)) :
    Hashed cfg (appendAll cfg r outputs) := by
  induction outputs generalizing r with
  | nil => exact h
  | cons toks outputs ih => exact ih (.append toks h)

theorem appendAll_toRequestInputs (r : Request B E) (outputs : List (List Int)) :
    (appendAll cfg r outputs).toRequestInputs = r.toRequestInputs := by
  induction outputs generalizing r with
  | nil => rfl
  | cons toks outputs ih => exact ih _

theorem appendAll_allTokenIds (r : Request B E) (outputs : List (List Int)) :
    (appendAll cfg r outputs).allTokenIds = r.allTokenIds ++ outputs.flatten := by
  induction outputs generalizing r with
  | nil => simp [appendAll]
  | cons toks outputs ih =>
    have := ih (r.appendOutputTokenIds cfg toks)
    simpa [appendAll, Request.appendOutputTokenIds, Request.updateBlockHashes] using this

/-- Hashing a prompt and then each batch of output tokens as it arrives gives
the hashes of the complete token sequence hashed in one call, one for each
block that is complete with its lookahead. -/
theorem blockHashes_appends_eq_new (inputs : RequestInputs E)
    (hfs : NonOverlapping inputs.mmFeatures) (prompt : List Int) (outputs : List (List Int)) :
    (appendAll cfg (Request.new cfg inputs prompt) outputs).blockHashes =
        (Request.new cfg inputs (prompt ++ outputs.flatten)).blockHashes ∧
      (appendAll cfg (Request.new cfg inputs prompt) outputs).blockHashes.length =
        ((prompt ++ outputs.flatten).length - cfg.numHashLookaheadTokens) /
          cfg.hashBlockSize := by
  have hinc : Hashed cfg (appendAll cfg (Request.new cfg inputs prompt) outputs) :=
    appendAll_hashed cfg (.new inputs prompt) outputs
  have hnew : Hashed cfg (Request.new cfg inputs (prompt ++ outputs.flatten)) := .new _ _
  have hinputs := appendAll_toRequestInputs cfg (Request.new cfg inputs prompt) outputs
  have htoks : (appendAll cfg (Request.new cfg inputs prompt) outputs).allTokenIds =
      prompt ++ outputs.flatten := appendAll_allTokenIds cfg _ _
  have hlen := hinc.length_blockHashes
  rw [Request.numTokens, htoks] at hlen
  refine ⟨?_, hlen⟩
  have hchain := hinc.chain
  rw [hinputs, htoks] at hchain
  exact hchain.unique hfs hnew.chain (hlen.trans hnew.length_blockHashes.symm)

/-- Two images in a prompt of seven tokens, hashed in blocks of two with one
lookahead token while three outputs arrive one by one. -/
theorem blockHashes_appends_eq_new_two_images :
    NonOverlapping [⟨"a", 1, 2, by decide⟩, ⟨"b", 4, 3, by decide⟩] ∧
      (appendAll (freeConfig 2 (by decide) 1)
          (Request.new (freeConfig 2 (by decide) 1)
            (mmInputs [⟨"a", 1, 2, by decide⟩, ⟨"b", 4, 3, by decide⟩]) [1, 2, 3, 4, 5, 6, 7])
          [[8], [9], [10]]).blockHashes =
        (Request.new (freeConfig 2 (by decide) 1)
          (mmInputs [⟨"a", 1, 2, by decide⟩, ⟨"b", 4, 3, by decide⟩])
          [1, 2, 3, 4, 5, 6, 7, 8, 9, 10]).blockHashes :=
  ⟨by decide, (blockHashes_appends_eq_new _ _ (by decide) _ [[8], [9], [10]]).1⟩

end Appends

end Vllm.Hashing
