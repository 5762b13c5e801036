import Vllm.Multimodal.Processor

/-!
# Merging with a full cache

Whether an item is cached is decided before any of them is inserted, and an insertion
evicts the keys that were used least recently. `merge_returns_iff` says which requests
are merged: those whose cached items each fit together with the distinct items that the
merge uses between their last use and their turn.
-/

namespace Vllm.Multimodal

open Library LRUCache

variable {M H I P D : Type} [DecidableEq H]

/-- The item and the contents of the prompt updates that belong to a hash. -/
structure Content (H I P : Type) where
  item : H → I
  updates : H → List P

/-- `x` is the item of the hash with its prompt updates. -/
def Content.Owns (content : Content H I P) (h : H) (x : ProcessedItem I P) : Prop :=
  x.1 = content.item h ∧ x.2.map (·.content) = content.updates h

/-- A sender cache that holds under each hash what belongs to it. -/
structure Faithful (itemSize : I → Nat) (content : Content H I P) (capacity : Nat)
    (cache : SenderCache H P) : Prop where
  getsizeof : cache.getsizeof = (·.itemSize)
  capacity : cache.capacity = capacity
  sized : cache.Sized fun h => itemSize (content.item h)
  updates : ∀ h v, cache.items.get? h = some v →
    v.promptUpdates.map (·.content) = content.updates h

variable {itemSize : I → Nat} {content : Content H I P} {capacity : Nat} {cache : SenderCache H P}
  {h : H} {α β : Type} {hashes start : List H}

/-- The keys after a use of the hash, as an abstract cache has them. -/
abbrev use (itemSize : I → Nat) (content : Content H I P) (capacity : Nat) :
    List H → H → List H :=
  Recency.access (fun h => itemSize (content.item h)) capacity

section

variable (hcache : Faithful itemSize content capacity cache)
include hcache

theorem Faithful.touch (h : H) : Faithful itemSize content capacity (cache.touch h) where
  getsizeof := hcache.getsizeof
  capacity := hcache.capacity
  sized := hcache.sized.touch h
  updates := fun k v hget => hcache.updates k v (by simpa using hget)

theorem Faithful.foldl_touch (hashes : List H) :
    Faithful itemSize content capacity (hashes.foldl LRUCache.touch cache) ∧
      (hashes.foldl LRUCache.touch cache).order = hashes.foldl Recency.touch cache.order := by
  induction hashes generalizing cache with
  | nil => exact ⟨hcache, rfl⟩
  | cons h hashes ih =>
    have hrest := ih (hcache.touch h)
    rw [order_touch] at hrest
    exact hrest

/-- An item is served exactly if it is cached or its data is at hand. -/
theorem getAndUpdateItem_spec
    {mmItem : Option (ProcessedItem I P)} (hitem : ∀ x ∈ mmItem, content.Owns h x) :
    ((∃ r, SenderCache.getAndUpdateItem itemSize cache mmItem h = .ok r) ↔
      (mmItem = none → h ∈ cache.order)) ∧
    ∀ kwargs updates cache',
      SenderCache.getAndUpdateItem itemSize cache mmItem h = .ok ((kwargs, updates), cache') →
      Faithful itemSize content capacity cache' ∧
        cache'.order = use itemSize content capacity cache.order h ∧
        updates.map (·.content) = content.updates h := by
  unfold SenderCache.getAndUpdateItem LRUCache.get use Recency.access
  have htouch := order_touch cache h
  unfold Recency.touch at htouch
  cases hget : cache.items.get? h with
  | some v =>
    have hin : h ∈ cache.order := by simp [← contains_iff, contains, hget]
    rw [if_pos hin] at htouch
    refine ⟨⟨fun _ _ => hin, fun _ => ⟨_, rfl⟩⟩, fun kwargs updates cache' hok => ?_⟩
    obtain ⟨⟨-, rfl⟩, rfl⟩ := hok
    exact ⟨hcache.touch h, by rw [htouch, if_pos hin], hcache.updates h v hget⟩
  | none =>
    have hout : h ∉ cache.order := by simp [← contains_iff, contains, hget]
    rw [if_neg hout] at htouch
    cases mmItem with
    | none =>
      refine ⟨⟨?_, fun hin => absurd (hin rfl) hout⟩, ?_⟩
      · rintro ⟨r, hr⟩
        cases hr
      · intro kwargs updates cache' hok
        cases hok
    | some x =>
      obtain ⟨hx, hupdates⟩ := hitem x rfl
      refine ⟨⟨fun _ hnone => (by cases hnone), fun _ => ⟨_, rfl⟩⟩,
        fun kwargs updates cache' hok => ?_⟩
      obtain ⟨⟨-, rfl⟩, rfl⟩ := hok
      have htouched := hcache.touch h
      have hsize : (cache.touch h).getsizeof ⟨itemSize x.1, x.2⟩ = itemSize (content.item h) := by
        rw [htouched.getsizeof, hx]
      refine ⟨⟨?_, ?_, htouched.sized.putIfFits hsize, ?_⟩, ?_, hupdates⟩
      · rw [getsizeof_putIfFits, htouched.getsizeof]
      · rw [capacity_putIfFits, htouched.capacity]
      · intro k v hput
        rcases get?_putIfFits hput with hold | ⟨rfl, rfl⟩
        · exact htouched.updates k v hold
        · exact hupdates
      · rw [order_putIfFits htouched.sized (by simpa using hget) hsize, htouch, if_neg hout,
          htouched.capacity]

end

/-! ## The items of one modality -/

/-- The prompt updates of an item, for its place in the request. -/
def placedUpdates (content : Content H I P) (entry : H × Nat) : List (ResolvedPromptUpdate P) :=
  (content.updates entry.1).map (⟨entry.2, ·⟩)

theorem map_recompute {updates : List (ResolvedPromptUpdate P)} {contents : List P}
    (h : updates.map (·.content) = contents) (idx : Nat) :
    updates.map (recomputeCachedPromptUpdate · idx) = contents.map (⟨idx, ·⟩) := by
  rw [← h, List.map_map]
  rfl

theorem exists_getElem?_of_forall₂ {r : α → β → Prop} {l₁ l₂ : List α} {a : α}
    {l : List β} (h : List.Forall₂ r (l₁ ++ a :: l₂) l) : ∃ b, l[l₁.length]? = some b ∧ r a b := by
  induction l₁ generalizing l with
  | nil =>
    cases h with
    | cons hr _ => exact ⟨_, rfl, hr⟩
  | cons x l₁ ih =>
    cases h with
    | cons _ hrest =>
      obtain ⟨b, hb, hr⟩ := ih hrest
      exact ⟨b, by simpa using hb, hr⟩

/-- The state of the merge of a modality after the items in `done`. -/
structure Merging (itemSize : I → Nat) (content : Content H I P) (capacity : Nat)
    (start order : List H) (done : List (H × Nat)) (st : MergeState H I P) : Prop where
  faithful : Faithful itemSize content capacity st.cache
  order_eq : st.cache.order = (done.map Prod.fst).foldl (use itemSize content capacity) order
  missing_eq : st.missingNextIdx = ((done.map Prod.fst).filter (· ∉ start)).length
  updates_eq : st.merged.map Prod.snd = done.map (placedUpdates content)

omit [DecidableEq H] in
theorem zipIdx_split {done : List (H × Nat)} {idx : Nat}
    {rest : List (H × Nat)} (hsplit : hashes.zipIdx = done ++ (h, idx) :: rest) :
    hashes = done.map Prod.fst ++ h :: rest.map Prod.fst ∧ hashes[idx]? = some h := by
  refine ⟨?_, ?_⟩
  · have := congrArg (List.map Prod.fst) hsplit
    simpa [List.zipIdx_map_fst] using this
  · have hmem : (h, idx) ∈ hashes.zipIdx := hsplit ▸ List.mem_append_right _ List.mem_cons_self
    exact List.mem_zipIdx_iff_getElem?.mp hmem

/-- The state after the item with the number `idx` is served. -/
def MergeState.append (st : MergeState H I P) (next idx : Nat)
    (served : (Option I × List (ResolvedPromptUpdate P)) × SenderCache H P) : MergeState H I P where
  cache := served.2
  missingNextIdx := next
  merged := st.merged ++ [(served.1.1, served.1.2.map (recomputeCachedPromptUpdate · idx))]

/-- The items of a modality are merged exactly if each one that was cached still is when
its turn comes. -/
theorem mergeModality_spec {order : List H} {missing : List (ProcessedItem I P)}
    (hcache : Faithful itemSize content capacity cache) (horder : cache.order = order)
    (hmissing : List.Forall₂ content.Owns (hashes.filter (· ∉ start)) missing) :
    ((∃ st, hashes.zipIdx.foldlM (mergeItem itemSize (fun _ => none)
        (hashes.map fun h => decide (h ∈ start)) missing) { cache } = .ok st) ↔
      ∀ done h rest, hashes = done ++ h :: rest → h ∈ start →
        h ∈ done.foldl (use itemSize content capacity) order) ∧
    ∀ st, hashes.zipIdx.foldlM (mergeItem itemSize (fun _ => none)
        (hashes.map fun h => decide (h ∈ start)) missing) { cache } = .ok st →
      Merging itemSize content capacity start order hashes.zipIdx st := by
  have hloop := foldlM_guarded (l := hashes.zipIdx) (s := { cache })
    (f := mergeItem itemSize (fun _ => none) (hashes.map fun h => decide (h ∈ start)) missing)
    (P := Merging itemSize content capacity start order)
    (G := fun done entry => entry.1 ∈ start →
      entry.1 ∈ (done.map Prod.fst).foldl (use itemSize content capacity) order) ?_
    ⟨hcache, horder, rfl, rfl⟩
  · refine ⟨hloop.1.trans ⟨fun hguard done h rest hsplit hin => ?_,
      fun hguard done entry rest hsplit hin => ?_⟩, hloop.2⟩
    · have hzip : hashes.zipIdx = done.zipIdx ++ (h, done.length) :: rest.zipIdx
          (done.length + 1) := by
        rw [hsplit, List.zipIdx_append]
        simp
      have := hguard _ _ _ hzip hin
      simpa [List.zipIdx_map_fst] using this
    · exact hguard _ entry.1 _ (zipIdx_split hsplit).1 hin
  · rintro done ⟨h, idx⟩ rest hsplit st hst
    obtain ⟨hhashes, hidx⟩ := zipIdx_split hsplit
    have hcached : (hashes.map fun h => decide (h ∈ start))[idx]? = some (decide (h ∈ start)) := by
      rw [List.getElem?_map, hidx]
      rfl
    -- what remains of either branch once its item is known
    have hserve : ∀ mmItem next, (∀ x ∈ mmItem, content.Owns h x) →
        next = (((done ++ [(h, idx)]).map Prod.fst).filter (· ∉ start)).length →
        ((∃ st', ((SenderCache.getAndUpdateItem itemSize st.cache mmItem h).map
            (st.append next idx)) = .ok st') ↔
          (mmItem = none → h ∈ st.cache.order)) ∧
        ∀ st', ((SenderCache.getAndUpdateItem itemSize st.cache mmItem h).map
            (st.append next idx)) = .ok st' →
          Merging itemSize content capacity start order (done ++ [(h, idx)]) st' := by
      intro mmItem next hitem hnext
      obtain ⟨hiff, hspec⟩ := getAndUpdateItem_spec hst.faithful hitem
      refine ⟨Iff.trans ⟨?_, ?_⟩ hiff, fun st' hok => ?_⟩
      · rintro ⟨st', hok⟩
        obtain ⟨r, hr, -⟩ := map_eq_ok.mp hok
        exact ⟨r, hr⟩
      · rintro ⟨r, hr⟩
        exact ⟨_, map_eq_ok.mpr ⟨r, hr, rfl⟩⟩
      obtain ⟨⟨⟨kwargs, updates⟩, cache'⟩, hr, rfl⟩ := map_eq_ok.mp hok
      obtain ⟨hfaithful, horder', hupdates⟩ := hspec kwargs updates cache' hr
      refine ⟨hfaithful, ?_, hnext, ?_⟩
      · show cache'.order = _
        rw [horder', hst.order_eq, List.map_append, List.foldl_append]
        rfl
      · show List.map Prod.snd (st.merged ++ _) = _
        rw [List.map_append, hst.updates_eq, List.map_append, map_recompute hupdates]
        rfl
    unfold mergeItem
    simp only [hcached]
    by_cases hin : h ∈ start
    · simp only [hin, decide_true, forall_const]
      obtain ⟨hiff, hspec⟩ := hserve none st.missingNextIdx (fun _ hx => (by cases hx)) (by
        rw [hst.missing_eq, List.map_append]
        simp [hin])
      rw [← hst.order_eq]
      exact ⟨hiff.trans (by simp), hspec⟩
    have hfilter : hashes.filter (· ∉ start) =
        (done.map Prod.fst).filter (· ∉ start) ++ h :: (rest.map Prod.fst).filter (· ∉ start) := by
      rw [hhashes, List.filter_append, List.filter_cons_of_pos (by simpa using hin)]
    rw [hfilter] at hmissing
    obtain ⟨x, hx, howns⟩ := exists_getElem?_of_forall₂ hmissing
    rw [← hst.missing_eq] at hx
    simp only [hin, decide_false, hx, IsEmpty.forall_iff]
    obtain ⟨hiff, hspec⟩ := hserve (some x) (st.missingNextIdx + 1)
      (fun y hy => Option.mem_some_iff.mp hy ▸ howns) (by
        rw [hst.missing_eq, List.map_append]
        simp [hin])
    exact ⟨hiff.trans (by simp), hspec⟩

/-! ## The items of a request -/

section Request

variable [DecidableEq M] {mmHashes : Dict M (List H)}

/-- The data of each item is given, and processing it yields what belongs to its hash. -/
def Provided (content : Content H I P) (process : M → D → ProcessedItem I P)
    (mmDataItems : M → List (Option D)) (mmHashes : Dict M (List H)) : Prop :=
  ∀ modality hashes, (modality, hashes) ∈ mmHashes.entries →
    ∃ data, mmDataItems modality = data.map some ∧
      List.Forall₂ (fun h d => content.Owns h (process modality d)) hashes data

/-- The hashes of a request in the order of the merge. -/
def allHashes (mmHashes : Dict M (List H)) : List H := mmHashes.entries.flatMap (·.2)

/-- The prompt updates of each item are those of its hash. -/
def RightUpdates (content : Content H I P) (mmHashes : Dict M (List H))
    (merged : List (M × List (Option I × List (ResolvedPromptUpdate P)))) : Prop :=
  merged.map (fun (modality, items) => (modality, items.map Prod.snd)) =
    mmHashes.entries.map fun (modality, hashes) =>
      (modality, hashes.zipIdx.map (placedUpdates content))

/-- Each item that is cached at the start fits together with the distinct items used
between its last use, when all of them are touched or when it is merged, and its turn. -/
def Survives (size : H → Nat) (capacity : Nat) (start hashes : List H) : Prop :=
  ∀ done h rest, hashes = done ++ h :: rest → h ∈ start →
    size h + ∑ x ∈ Recency.accessed size capacity
      (Recency.since h (hashes.filter (· ∈ start) ++ done)), size x ≤ capacity

/-- The data that `missing_data` takes for an entry. -/
def itemAt (data : List (Option D)) (entry : H × Nat) : Except Fault D :=
  match data[entry.2]? with
  | some (some item) => .ok item
  | some none => .error .valueError
  | none => .error .indexError

theorem missingData_spec {r : H → D → Prop} {data : List D}
    (cache : SenderCache H P) (h : List.Forall₂ r hashes data) :
    ∃ missing, missingData cache hashes (data.map some) = .ok missing ∧
      List.Forall₂ r (hashes.filter (· ∉ cache.order)) missing := by
  -- the indices are those of the whole list, so that the items before are kept in front
  suffices hgen : ∀ before : List (Option D), ∃ missing,
      ((hashes.zipIdx before.length).filter fun entry => !cache.contains entry.1).mapM
        (itemAt (before ++ data.map some)) = .ok missing ∧
      List.Forall₂ r (hashes.filter (· ∉ cache.order)) missing from hgen []
  induction h with
  | nil => exact fun _ => ⟨[], rfl, .nil⟩
  | @cons h d hashes data hr hrest ih =>
    intro before
    obtain ⟨missing, hok, hforall⟩ := ih (before ++ [some d])
    have hdata : before ++ [some d] ++ data.map some = before ++ (d :: data).map some := by
      simp
    rw [List.length_append, List.length_singleton, hdata] at hok
    rw [List.zipIdx_cons]
    by_cases hin : h ∈ cache.order
    · rw [List.filter_cons_of_neg (by simpa [contains_eq] using hin),
        List.filter_cons_of_neg (by simpa using hin)]
      exact ⟨missing, hok, hforall⟩
    rw [List.filter_cons_of_pos (by simpa [contains_eq] using hin),
      List.filter_cons_of_pos (by simpa using hin)]
    refine ⟨d :: missing, ?_, .cons hr hforall⟩
    rw [List.mapM_cons, hok]
    simp only [itemAt, List.getElem?_append_right (Nat.le_refl _), Nat.sub_self, List.map_cons,
      List.getElem?_cons_zero]
    rfl

theorem exists_of_flatMap_eq {l : List β} {f : β → List α} {done rest : List α} {a : α}
    (h : l.flatMap f = done ++ a :: rest) : ∃ l₁ b l₂ d r, l = l₁ ++ b :: l₂ ∧
      f b = d ++ a :: r ∧ done = l₁.flatMap f ++ d := by
  induction l generalizing done with
  | nil => simp at h
  | cons b l ih =>
    rw [List.flatMap_cons, List.append_eq_append_iff] at h
    rcases h with ⟨d, rfl, hrest⟩ | ⟨r, hb, hrest⟩
    · obtain ⟨l₁, c, l₂, d', r, rfl, hc, hd⟩ := ih hrest
      refine ⟨b :: l₁, c, l₂, d', r, rfl, hc, ?_⟩
      rw [hd, List.flatMap_cons, List.append_assoc]
    cases r with
    | nil =>
      have htail : l.flatMap f = [] ++ a :: rest := hrest.symm
      obtain ⟨l₁, c, l₂, d', r, rfl, hc, hd⟩ := ih htail
      refine ⟨b :: l₁, c, l₂, d', r, rfl, hc, ?_⟩
      rw [List.flatMap_cons, List.append_assoc, ← hd, hb, List.append_nil, List.append_nil]
    | cons x r =>
      cases hrest
      exact ⟨[], b, l, done, r, rfl, hb, rfl⟩

theorem mergeMMKwargs_spec {mmMissing : List (M × List (ProcessedItem I P))}
    (hcache : Faithful itemSize content capacity cache)
    (hmissing : ∀ modality hashes, (modality, hashes) ∈ mmHashes.entries →
      List.Forall₂ content.Owns (hashes.filter (· ∉ cache.order)) (getList mmMissing modality)) :
    ((∃ r, mergeMMKwargs itemSize cache mmHashes (mmHashes.entries.map fun (modality, hashes) =>
        (modality, hashes.map cache.contains)) mmMissing = .ok r) ↔
      ∀ done h rest, allHashes mmHashes = done ++ h :: rest → h ∈ cache.order →
        h ∈ done.foldl (use itemSize content capacity)
          ((allHashes mmHashes).foldl Recency.touch cache.order)) ∧
    ∀ merged cache', mergeMMKwargs itemSize cache mmHashes
        (mmHashes.entries.map fun (modality, hashes) => (modality, hashes.map cache.contains))
        mmMissing = .ok (merged, cache') →
      Faithful itemSize content capacity cache' ∧
        cache'.order = (allHashes mmHashes).foldl (use itemSize content capacity)
          ((allHashes mmHashes).foldl Recency.touch cache.order) ∧
        RightUpdates content mmHashes merged := by
  obtain ⟨htouched, horder⟩ := hcache.foldl_touch (allHashes mmHashes)
  have hloop := foldlM_guarded (l := mmHashes.entries)
    (s := (([] : List (M × List (Option I × List (ResolvedPromptUpdate P)))),
      (allHashes mmHashes).foldl LRUCache.touch cache))
    (f := fun (merged, cache₁) (modality, hashes) =>
      (hashes.zipIdx.foldlM (mergeItem itemSize (SenderCache.getCachedItem cache)
        (getList (mmHashes.entries.map fun (modality, hashes) =>
          (modality, hashes.map cache.contains)) modality)
        (getList mmMissing modality)) { cache := cache₁ }).map fun st =>
      (merged ++ [(modality, st.merged)], st.cache))
    (P := fun done s => Faithful itemSize content capacity s.2 ∧
      s.2.order = (done.flatMap (·.2)).foldl (use itemSize content capacity)
        ((allHashes mmHashes).foldl Recency.touch cache.order) ∧
      s.1.map (fun (modality, items) => (modality, items.map Prod.snd)) =
        done.map fun (modality, hashes) =>
          (modality, hashes.zipIdx.map (placedUpdates content)))
    (G := fun done e => ∀ d h r, e.2 = d ++ h :: r → h ∈ cache.order →
      h ∈ d.foldl (use itemSize content capacity)
        ((done.flatMap (·.2)).foldl (use itemSize content capacity)
          ((allHashes mmHashes).foldl Recency.touch cache.order))) ?_
    ⟨htouched, horder, rfl⟩
  · refine ⟨hloop.1.trans ⟨fun h => ?_, fun h => ?_⟩, fun merged cache' hok => hloop.2 _ hok⟩
    · intro done x rest hsplit hin
      obtain ⟨l₁, e, l₂, d, r, hl, he, rfl⟩ := exists_of_flatMap_eq hsplit
      rw [List.foldl_append]
      exact h l₁ e l₂ hl d x r he hin
    · intro done e rest hsplit d x r he hin
      rw [← List.foldl_append]
      refine h (done.flatMap (·.2) ++ d) x (r ++ rest.flatMap (·.2)) ?_ hin
      rw [allHashes, hsplit, List.flatMap_append, List.flatMap_cons, he]
      simp
  · rintro done ⟨modality, hashes⟩ rest hsplit ⟨merged, cache₁⟩ ⟨hfaithful, horder₁, hmerged⟩
    have hmem : (modality, hashes) ∈ mmHashes.entries :=
      hsplit ▸ List.mem_append_right _ List.mem_cons_self
    have hcached : getList (mmHashes.entries.map fun (modality, hashes) =>
        (modality, hashes.map cache.contains)) modality =
        hashes.map fun h => decide (h ∈ cache.order) := by
      refine (getList_map mmHashes.nodup (fun e => e.2.map cache.contains) hmem).trans ?_
      exact List.map_congr_left fun h _ => contains_eq cache h
    obtain ⟨hiff, hspec⟩ := mergeModality_spec hfaithful horder₁ (hmissing modality hashes hmem)
    simp only [hcached]
    refine ⟨Iff.trans ⟨?_, ?_⟩ hiff, fun s' hok => ?_⟩
    · rintro ⟨s', hok⟩
      obtain ⟨st, hst, -⟩ := map_eq_ok.mp hok
      exact ⟨st, hst⟩
    · rintro ⟨st, hst⟩
      exact ⟨_, map_eq_ok.mpr ⟨st, hst, rfl⟩⟩
    obtain ⟨st, hst, rfl⟩ := map_eq_ok.mp hok
    have hend := hspec st hst
    refine ⟨hend.faithful, ?_, ?_⟩
    · rw [hend.order_eq, List.flatMap_append]
      simp
    · rw [List.map_append, hmerged, List.map_append, List.map_singleton, List.map_singleton,
        hend.updates_eq]

theorem survives_iff {size : H → Nat} (hheld : Recency.Held size capacity start) (hashes : List H) :
    Survives size capacity start hashes ↔ ∀ done h rest, hashes = done ++ h :: rest → h ∈ start →
      h ∈ done.foldl (Recency.access size capacity) (hashes.foldl Recency.touch start) := by
  refine forall₂_congr fun done h => forall₂_congr fun rest hsplit => forall_congr' fun hin => ?_
  have htouched : h ∈ hashes.filter (· ∈ start) :=
    List.mem_filter.mpr ⟨hsplit ▸ List.mem_append_right _ List.mem_cons_self, by simpa using hin⟩
  rw [Recency.foldl_touch_eq size capacity, ← List.foldl_append]
  exact (Recency.mem_foldl_access_iff hheld (List.mem_append_left _ htouched)
    (hheld.le hin)).symm

/-- The items that are not cached are processed, and nothing else can fail before the merge. -/
theorem cachedApplyHfProcessor_eq {process : M → D → ProcessedItem I P}
    {mmDataItems : M → List (Option D)} (itemSize : I → Nat) (cache : SenderCache H P)
    (hdata : Provided content process mmDataItems mmHashes) :
    ∃ mmMissing, (∀ modality hashes, (modality, hashes) ∈ mmHashes.entries →
        List.Forall₂ content.Owns (hashes.filter (· ∉ cache.order))
          (getList mmMissing modality)) ∧
      cachedApplyHfProcessor itemSize process cache mmDataItems mmHashes =
        mergeMMKwargs itemSize cache mmHashes (mmHashes.entries.map fun (modality, hashes) =>
          (modality, hashes.map cache.contains)) mmMissing := by
  let missing (e : M × List H) : List D :=
    (missingData cache e.2 (mmDataItems e.1)).toOption.getD []
  have hmissing : ∀ e ∈ mmHashes.entries, missingData cache e.2 (mmDataItems e.1) =
      .ok (missing e) ∧ List.Forall₂ content.Owns (e.2.filter (· ∉ cache.order))
        ((missing e).map (process e.1)) := by
    intro e he
    obtain ⟨data, heq, hforall⟩ := hdata e.1 e.2 he
    obtain ⟨found, hok, howned⟩ := missingData_spec cache hforall
    have hfound : missing e = found := by
      show (missingData cache e.2 (mmDataItems e.1)).toOption.getD [] = found
      rw [heq, hok]
      rfl
    rw [hfound, heq]
    exact ⟨hok, List.forall₂_map_right_iff.mpr howned⟩
  have hitems : getCacheMissingItems cache mmDataItems mmHashes =
      .ok ((mmHashes.entries.map fun (modality, hashes) => (modality, hashes.map cache.contains)),
        mmHashes.entries.map fun e => (e.1, missing e)) := by
    unfold getCacheMissingItems
    rw [mapM_eq_ok fun e he => ?_]
    · rfl
    · show (missingData cache e.2 (mmDataItems e.1)).map (e.1, ·) = .ok (e.1, missing e)
      rw [(hmissing e he).1]
      rfl
  refine ⟨mmHashes.entries.map fun e => (e.1, (missing e).map (process e.1)),
    fun modality hashes hmem => ?_, ?_⟩
  · rw [getList_map mmHashes.nodup (fun e => (missing e).map (process e.1)) hmem]
    exact (hmissing _ hmem).2
  · unfold cachedApplyHfProcessor
    rw [hitems]
    show mergeMMKwargs _ _ _ _ (List.map _ (List.map _ _)) = _
    rw [List.map_map]
    rfl

/-- A request is merged, with the prompt updates of each item, exactly if its cached items
survive until their turn. -/
theorem merge_returns_iff {process : M → D → ProcessedItem I P}
    {mmDataItems : M → List (Option D)} {mmHashes : Dict M (List H)}
    (hcache : Faithful itemSize content capacity cache)
    (hdata : Provided content process mmDataItems mmHashes) :
    (∃ merged cache', cachedApplyHfProcessor itemSize process cache mmDataItems mmHashes =
        .ok (merged, cache') ∧ RightUpdates content mmHashes merged) ↔
      Survives (fun h => itemSize (content.item h)) capacity cache.order (allHashes mmHashes) := by
  obtain ⟨mmMissing, hmissing, happly⟩ :=
    cachedApplyHfProcessor_eq itemSize cache hdata
  obtain ⟨hiff, hspec⟩ := mergeMMKwargs_spec hcache hmissing
  have hheld : Recency.Held (fun h => itemSize (content.item h)) capacity cache.order :=
    hcache.capacity ▸ held hcache.sized
  rw [happly, survives_iff hheld, ← hiff]
  constructor
  · rintro ⟨merged, cache', hok, -⟩
    exact ⟨_, hok⟩
  · rintro ⟨⟨merged, cache'⟩, hok⟩
    exact ⟨merged, cache', hok, (hspec merged cache' hok).2.2⟩

/-- Items of size 6 and a cache for 10 that holds the one of hash 1. -/
def fullCache : SenderCache Nat Nat := (SenderCache.new 10).putIfFits 1 ⟨6, [⟨0, 1⟩]⟩

def sixes : Content Nat Nat Nat := ⟨fun _ => 6, fun h => [h]⟩

def processSix (_modality : Unit) (h : Nat) : ProcessedItem Nat Nat := (6, [⟨0, h⟩])

/-- A request with the images of the hashes `hashes`. -/
def images (hashes : List Nat) : Dict Unit (List Nat) := ⟨[((), hashes)], List.nodup_singleton _⟩

theorem fullCache_faithful : Faithful id sixes 10 fullCache where
  getsizeof := rfl
  capacity := rfl
  sized := fun h v hget => by
    rcases get?_putIfFits hget with hnew | ⟨rfl, rfl⟩
    · cases hnew
    · rfl
  updates := fun h v hget => by
    rcases get?_putIfFits hget with hnew | ⟨rfl, rfl⟩
    · cases hnew
    · rfl

theorem images_provided (hashes : List Nat) :
    Provided sixes processSix (fun _ => hashes.map some) (images hashes) := by
  rintro modality hs hmem
  obtain ⟨rfl, rfl⟩ := Prod.mk.inj (List.mem_singleton.mp hmem)
  exact ⟨hs, rfl, List.forall₂_same.mpr fun h _ => ⟨rfl, rfl⟩⟩

theorem merge_returns_iff_sample :
    Faithful id sixes 10 fullCache ∧
    Provided sixes processSix (fun _ => [1, 2].map some) (images [1, 2]) ∧
    ((∃ merged cache', cachedApplyHfProcessor id processSix fullCache (fun _ => [1, 2].map some)
        (images [1, 2]) = .ok (merged, cache') ∧ RightUpdates sixes (images [1, 2]) merged) ↔
      Survives (fun _ => 6) 10 fullCache.order [1, 2]) :=
  ⟨fullCache_faithful, images_provided _, merge_returns_iff fullCache_faithful (images_provided _)⟩

/-- The new image is inserted first and evicts the cached one. -/
theorem full_cache_assertion_fails :
    (cachedApplyHfProcessor id processSix fullCache (fun _ => [2, 1].map some)
      (images [2, 1])).map Prod.fst = .error .assertionError := rfl

end Request

end Vllm.Multimodal
