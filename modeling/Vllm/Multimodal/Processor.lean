import Vllm.Library.Fallible
import Vllm.Multimodal.Cache

/-!
# Merging cached and processed items

`_cached_apply_hf_processor` of `BaseMultiModalProcessor` (`multimodal/processing/processor.py`)
with a sender cache: the items that are not cached are processed, and then merged with
the cached ones. A request with passthrough data goes to `_apply_hf_processor`, which asks no
cache. The processor itself is a parameter that maps the data of an item to the item and its
prompt updates.
-/

namespace Vllm.Multimodal

open Library List

variable {M H I P D : Type} [DecidableEq M] [DecidableEq H]

/-- `d.get(modality, [])`. -/
def getList {α : Type} (d : List (M × List α)) (modality : M) : List α :=
  ((d.find? (·.1 = modality)).map (·.2)).getD []

theorem getList_map {α β : Type} {entries : List (M × α)} (hnodup : (entries.map Prod.fst).Nodup)
    (f : M × α → List β) {modality : M} {a : α} (h : (modality, a) ∈ entries) :
    getList (entries.map fun e => (e.1, f e)) modality = f (modality, a) := by
  induction entries with
  | nil => cases h
  | cons e entries ih =>
    rw [map_cons, nodup_cons] at hnodup
    unfold getList
    by_cases he : e.1 = modality
    · have heq : e = (modality, a) := by
        rcases mem_cons.mp h with rfl | hin
        · rfl
        · exact absurd (he ▸ mem_map_of_mem hin) hnodup.1
      simp [heq]
    · have hin : (modality, a) ∈ entries :=
        (mem_cons.mp h).resolve_left fun heq => he (heq ▸ rfl)
      simpa [he, getList] using ih hnodup.2 hin

/-- The data of the items of a modality that are not cached. -/
def missingData (cache : SenderCache H P) (hashes : List H) (data : List (Option D)) :
    Except Fault (List D) :=
  (hashes.zipIdx.filter fun entry => !cache.contains entry.1).mapM fun (_, idx) =>
    match data[idx]? with
    | some (some item) => .ok item
    | some none => .error .valueError
    | none => .error .indexError

/-- `_get_cache_missing_items`: which items are cached, and the data of the others. -/
def getCacheMissingItems (cache : SenderCache H P) (mmDataItems : M → List (Option D))
    (mmHashes : Dict M (List H)) : Except Fault (List (M × List Bool) × List (M × List D)) :=
  let mmIsCached := mmHashes.entries.map fun (modality, hashes) =>
    (modality, hashes.map cache.contains)
  (mmHashes.entries.mapM fun (modality, hashes) =>
    (missingData cache hashes (mmDataItems modality)).map (modality, ·)).map (mmIsCached, ·)

/-- `_recompute_cached_prompt_update`. -/
def recomputeCachedPromptUpdate (update : ResolvedPromptUpdate P) (newItemIdx : Nat) :
    ResolvedPromptUpdate P :=
  { update with itemIdx := newItemIdx }

/-- The items of a modality merged so far. -/
structure MergeState (H I P : Type) where
  cache : SenderCache H P
  missingNextIdx : Nat := 0
  merged : List (Option I × List (ResolvedPromptUpdate P)) := []

/-- One item of the loop of `_merge_mm_kwargs`. -/
def mergeItem (itemSize : I → Nat) (cachedItems : H → Option (ProcessedItem I P))
    (isCached : List Bool) (missing : List (ProcessedItem I P)) (st : MergeState H I P)
    (entry : H × Nat) : Except Fault (MergeState H I P) :=
  let (itemHash, itemIdx) := entry
  let update (item : Option (ProcessedItem I P)) (missingNextIdx : Nat) :=
    (SenderCache.getAndUpdateItem itemSize st.cache item itemHash).map
      fun ((kwargs, updates), cache) =>
        { cache, missingNextIdx
          merged := st.merged ++
            [(kwargs, updates.map (recomputeCachedPromptUpdate · itemIdx))] }
  match isCached[itemIdx]? with
  | none => .error .indexError
  | some true => update (cachedItems itemHash) st.missingNextIdx
  | some false => match missing[st.missingNextIdx]? with
    | none => .error .indexError
    | some item => update (some item) (st.missingNextIdx + 1)

theorem mergeItem_cases {itemSize : I → Nat} {cachedItems : H → Option (ProcessedItem I P)}
    {isCached : List Bool} {missing : List (ProcessedItem I P)} {st st' : MergeState H I P}
    {itemHash : H} {itemIdx : Nat}
    (hok : mergeItem itemSize cachedItems isCached missing st (itemHash, itemIdx) = .ok st') :
    ∃ item kwargs updates cache next,
      SenderCache.getAndUpdateItem itemSize st.cache item itemHash =
        .ok ((kwargs, updates), cache) ∧
      st' = ⟨cache, next, st.merged ++
        [(kwargs, updates.map (recomputeCachedPromptUpdate · itemIdx))]⟩ := by
  unfold mergeItem at hok
  cases hcached : isCached[itemIdx]? with
  | none =>
    simp only [hcached] at hok
    cases hok
  | some cached =>
    simp only [hcached] at hok
    cases cached with
    | true =>
      obtain ⟨⟨⟨kwargs, updates⟩, cache⟩, hitem, rfl⟩ := map_eq_ok.mp hok
      exact ⟨_, kwargs, updates, cache, _, hitem, rfl⟩
    | false =>
      cases hmissing : missing[st.missingNextIdx]? with
      | none =>
        simp only [hmissing] at hok
        cases hok
      | some item =>
        simp only [hmissing] at hok
        obtain ⟨⟨⟨kwargs, updates⟩, cache⟩, hitem, rfl⟩ := map_eq_ok.mp hok
        exact ⟨_, kwargs, updates, cache, _, hitem, rfl⟩

/-- `_merge_mm_kwargs`; the missing items come with their prompt updates. -/
def mergeMMKwargs (itemSize : I → Nat) (cache : SenderCache H P) (mmHashes : Dict M (List H))
    (mmIsCached : List (M × List Bool)) (mmMissing : List (M × List (ProcessedItem I P))) :
    Except Fault (List (M × List (Option I × List (ResolvedPromptUpdate P))) × SenderCache H P) :=
  let cachedItems := SenderCache.getCachedItem cache
  let cache := (mmHashes.entries.flatMap (·.2)).foldl LRUCache.touch cache
  mmHashes.entries.foldlM
    (fun (merged, cache) (modality, hashes) =>
      (hashes.zipIdx.foldlM (mergeItem itemSize cachedItems (getList mmIsCached modality)
        (getList mmMissing modality)) { cache }).map fun st =>
      (merged ++ [(modality, st.merged)], st.cache))
    ([], cache)

/-- `_cached_apply_hf_processor` after its first branch, up to the merged items: there is no
passthrough data. -/
def cachedApplyHfProcessor (itemSize : I → Nat) (process : M → D → ProcessedItem I P)
    (cache : SenderCache H P) (mmDataItems : M → List (Option D)) (mmHashes : Dict M (List H)) :
    Except Fault (List (M × List (Option I × List (ResolvedPromptUpdate P))) × SenderCache H P) :=
  (getCacheMissingItems cache mmDataItems mmHashes).bind fun (mmIsCached, mmMissingData) =>
  mergeMMKwargs itemSize cache mmHashes mmIsCached
    (mmMissingData.map fun (modality, data) => (modality, data.map (process modality)))

end Vllm.Multimodal
