import Vllm.Offload.CPUPool

/-!
# Runs of calls on the CPU pool

`Usage` is a pool with the stores and loads that its callers have not completed. A run
is any sequence of calls with distinct keys in each offer. Every state that a run
reaches is safe (`PoolSafe`): the chunk ids are partitioned, what a transfer uses is
neither evicted nor handed out, the counters are right, and a call that its caller may
make returns.
-/

namespace Vllm.Offload

open Library LawfulCachePolicy CPUOffloadingManager List

/-- The pool, and its uncompleted stores and loads with their chunks. -/
structure Usage (R K π : Type) where
  manager : CPUOffloadingManager R K π
  stores : List (K × Nat) := []
  loads : List (K × Nat) := []

inductive Call (R K : Type)
  | prepareStore (keys : List K) (ctx : ReqContext R K)
  | completeStore (keys : List K) (success : Bool)
  | prepareLoad (keys : List K) (ctx : ReqContext R K) (recordAccess : Bool)
  | completeLoad (keys : List K)
  | lookup (key : K)
  | onNewRequest (ctx : ReqContext R K)
  | onRequestFinished (ctx : ReqContext R K)
  | deferWriteRelease (keys : List K)
  | releaseDeferredWrite (chunkIds : List Nat)
  | resetCache

/-- The keys within one offer are distinct. -/
def Call.Distinct {R K : Type} : Call R K → Prop
  | .prepareStore keys _ => keys.Nodup
  | _ => True

instance {R K : Type} [DecidableEq K] (call : Call R K) : Decidable call.Distinct := by
  cases call <;> unfold Call.Distinct <;> infer_instance

section Runs

variable {R K π : Type} [DecidableEq R] [DecidableEq K] [CachePolicy π R K] (groupIdx : K → Nat)

/-- A call on the pool, with what it makes of the uncompleted stores and loads. No caller
completes a job from before a reset. -/
def Usage.exec (u : Usage R K π) : Call R K → Except Fault (Usage R K π)
  | .prepareStore keys ctx => (u.manager.prepareStore groupIdx keys ctx).map fun
    | (none, m) => { u with manager := m }
    | (some out, m) =>
      { u with manager := m, stores := u.stores ++ out.keysToStore.zip out.chunkIds }
  | .completeStore keys success => (u.manager.completeStore keys success).map fun m =>
    { u with manager := m, stores := keys.foldl finishStore u.stores }
  | .prepareLoad keys ctx recordAccess =>
    (u.manager.prepareLoad groupIdx keys ctx recordAccess).map fun (chunkIds, m) =>
      { u with manager := m, loads := u.loads ++ keys.zip chunkIds }
  | .completeLoad keys => (u.manager.completeLoad keys).map fun m =>
    { u with manager := m, loads := keys.foldl finishLoad u.loads }
  | .lookup _ => .ok u
  | .onNewRequest ctx => .ok { u with manager := u.manager.onNewRequest ctx }
  | .onRequestFinished ctx => (u.manager.onRequestFinished ctx).map fun m =>
    { u with manager := m }
  | .deferWriteRelease keys => (u.manager.deferWriteRelease keys).map fun (_, m) =>
    { u with manager := m, stores := keys.foldl finishStore u.stores }
  | .releaseDeferredWrite chunkIds => (u.manager.releaseDeferredWrite chunkIds).map fun m =>
    { u with manager := m }
  | .resetCache => u.manager.resetCache.map fun m => { manager := m }

/-- What the caller of a method has to ensure. -/
def Call.Contract (u : Usage R K π) : Call R K → Prop
  | .prepareStore keys ctx =>
    keys.Nodup ∧ (u.manager.getRequestCacheAccess ctx.reqId).finished = false
  | .prepareLoad keys ctx recordAccess => (∀ key ∈ keys, u.manager.lookup key = .hit) ∧
    (recordAccess → (u.manager.getRequestCacheAccess ctx.reqId).finished = false)
  | .completeLoad keys => keys.Subperm (u.loads.map Prod.fst)
  | .deferWriteRelease keys => keys.Nodup ∧ ∀ key ∈ keys, key ∈ u.stores.map Prod.fst
  | .releaseDeferredWrite chunkIds =>
    chunkIds.Nodup ∧ ∀ i ∈ chunkIds, i ∈ u.manager.deferredReleaseChunkIds
  | .resetCache => u.manager.deferredReleaseChunkIds = []
  | _ => True

end Runs

section Calls

variable {R K π : Type} [DecidableEq K] [CachePolicy π R K] [LawfulCachePolicy π]
  {groupIdx : K → Nat} {m m' : CPUOffloadingManager R K π} {stores loads : List (K × Nat)}
  {keys : List K} {ctx : ReqContext R K} {ids : List Nat} {recordAccess success : Bool} {key k : K}

/-! ## Each call keeps the pool consistent -/

section

variable (h : Consistent m stores loads)
include h

theorem Consistent.pinChunks
    (hpin : m.pinChunks keys = .ok (ids, m')) : Consistent m' stores (loads ++ keys.zip ids) := by
  have hstep : ∀ key ∈ keys, ∀ (s s' : List Nat × CPUOffloadingManager R K π) (done : List K),
      s.1.length = done.length ∧ Consistent s.2 stores (loads ++ done.zip s.1) →
      ((s.2.pinChunk key).map fun r => (s.1 ++ [r.1], r.2)) = .ok s' →
      s'.1.length = (done ++ [key]).length ∧
        Consistent s'.2 stores (loads ++ (done ++ [key]).zip s'.1) := by
    rintro key - ⟨ids, m⟩ s' done ⟨hlength, hm⟩ hs'
    obtain ⟨⟨chunkId, m₁⟩, hpin, rfl⟩ := map_eq_ok.mp hs'
    refine ⟨by simpa using hlength, ?_⟩
    rw [zip_append hlength.symm, ← append_assoc]
    exact hm.pinChunk hpin
  have hall := foldlM_ok_follow
    (P := fun (s : List Nat × CPUOffloadingManager R K π) (done : List K) =>
      s.1.length = done.length ∧ Consistent s.2 stores (loads ++ done.zip s.1))
    (t := []) hstep (by simpa using h) hpin
  rw [foldl_append_eq_append, ← flatMap_def, flatMap_singleton'] at hall
  exact hall.2

theorem Consistent.prepareLoad [DecidableEq R]
    (hload : m.prepareLoad groupIdx keys ctx recordAccess = .ok (ids, m')) :
    Consistent m' stores (loads ++ keys.zip ids) := by
  obtain ⟨⟨ids', m₁⟩, hpin, hload⟩ := bind_eq_ok.mp hload
  obtain ⟨m₂, hrecord, heq⟩ := map_eq_ok.mp hload
  cases heq
  have hpinned := h.pinChunks hpin
  split at hrecord
  · exact hpinned.of_same (recordRequestCacheAccess_same hpinned.valid hrecord)
  · cases hrecord
    exact hpinned

theorem Consistent.completeLoad
    (hload : m.completeLoad keys = .ok m') : Consistent m' stores (keys.foldl finishLoad loads) :=
  foldlM_ok_follow (P := fun m loads => Consistent m stores loads)
    (fun _ _ _ _ _ hm hunpin => hm.unpinChunk hunpin) h hload

theorem Consistent.completeStore (hstore : m.completeStore keys success = .ok m') :
    Consistent m' (keys.foldl finishStore stores) loads :=
  foldlM_ok_follow (P := fun m stores => Consistent m stores loads)
    (fun _ _ _ _ _ hm hsettle => hm.settleChunk hsettle) h hstore

theorem Consistent.deferWriteRelease (hdefer : m.deferWriteRelease keys = .ok (ids, m')) :
    Consistent m' (keys.foldl finishStore stores) loads := by
  refine foldlM_ok_follow (P := fun (s : List Nat × CPUOffloadingManager R K π) stores =>
    Consistent s.2 stores loads) (fun key _ s s' stores hs hs' => ?_) h hdefer
  obtain ⟨⟨chunkId, m₁⟩, hdefer, rfl⟩ := map_eq_ok.mp hs'
  exact hs.deferChunk hdefer

theorem Consistent.releaseDeferredWrite
    (hrelease : m.releaseDeferredWrite ids = .ok m') : Consistent m' stores loads :=
  foldlM_ok_induct (P := fun m => Consistent m stores loads)
    (fun _ _ _ _ hm hchunk => hm.releaseChunk hchunk) h hrelease

omit h in
theorem Consistent.resetCache (hreset : m.resetCache = .ok m') : Consistent m' [] [] := by
  unfold CPUOffloadingManager.resetCache at hreset
  split at hreset
  · cases hreset
  rename_i hdeferred
  cases hreset
  obtain ⟨hvalid, hempty⟩ := LawfulCachePolicy.clear m.policy
  have hdeferred : m.deferredReleaseChunkIds = [] := not_not.mp hdeferred
  refine ⟨hvalid, Nat.zero_le _, ?_, ?_, ?_, ?_, ?_, nofun⟩
  · simp [hempty, hdeferred, chunkIds]
  · simp [hempty, numWithRefCnt]
  · simp [hempty, hdeferred, numWithRefCnt]
  · simp [hempty]
  · simp [hempty]

omit h [DecidableEq K] in
theorem get_none_of_sub {p p' : π} {victims : List (K × ChunkStatus)} (hvalid : Valid p)
    (hvalid' : Valid p') (hperm : (residents p).Perm (victims ++ residents p'))
    (h : CachePolicy.get p key = none) : CachePolicy.get p' key = none := by
  refine Option.eq_none_iff_forall_ne_some.mpr fun c hget => ?_
  have hin := (LawfulCachePolicy.get_iff hvalid').mp hget
  have hold := (LawfulCachePolicy.get_iff hvalid).mpr
    (hperm.mem_iff.mpr (mem_append_right _ hin))
  cases h.symm.trans hold

/-- What `prepare_store` does: it is refused and only what is known of the requests
changes, or the keys that are not resident get chunks. -/
theorem prepareStore_cases [DecidableEq R] {out : Option (PrepareStoreOutput K)}
    (hnodup : keys.Nodup) (hstore : m.prepareStore groupIdx keys ctx = .ok (out, m')) :
    (out = none ∧ SamePool m m') ∨
    ∃ o, out = some o ∧ o.chunkIds.length = o.keysToStore.length ∧ o.keysToStore.Nodup ∧
      m'.deferredReleaseChunkIds = m.deferredReleaseChunkIds ∧
      (∀ key ∈ o.keysToStore, CachePolicy.get m.policy key = none) ∧
      (∀ key ∈ o.evictedKeys, ∃ c, (key, c) ∈ residents m.policy ∧ c.refCnt = 0 ∧ key ∉ keys) ∧
      Consistent m' (stores ++ o.keysToStore.zip o.chunkIds) loads := by
  obtain ⟨⟨keysToStore, m₁⟩, hadmits, hstore⟩ := bind_eq_ok.mp hstore
  obtain ⟨hsame, hsub, hnew⟩ := admitKeys_spec h.valid hadmits
  have h₁ := h.of_same hsame
  have hnew₁ : ∀ key ∈ keysToStore, CachePolicy.get m₁.policy key = none := by
    intro key hkey
    rw [hsame.get_eq h.valid]
    exact hnew key hkey
  dsimp only at hstore
  split at hstore
  · cases hstore
    refine .inr ⟨_, rfl, rfl, nodup_nil, hsame.deferred, nofun, nofun, ?_⟩
    simpa using h₁
  obtain ⟨⟨evictedKeys, m₂⟩, hroom, hput⟩ := bind_eq_ok.mp hstore
  rcases makeRoom_cases h₁.valid hroom with ⟨rfl, rfl, -⟩ | ⟨rfl, hsame₂⟩ |
    ⟨victims, policy, rfl, hvalid, hperm, -, hidle, rfl⟩
  · obtain ⟨⟨ids, m₃⟩, hplace, heq⟩ := map_eq_ok.mp hput
    cases heq
    obtain ⟨hlength, hdeferred, h₃⟩ :=
      placeChunks_cases h₁ (hsub.nodup hnodup) hnew₁ hplace
    exact .inr ⟨_, rfl, hlength, hsub.nodup hnodup, hdeferred.trans hsame.deferred, hnew, nofun, h₃⟩
  · cases hput
    exact .inl ⟨rfl, hsame.trans hsame₂⟩
  · obtain ⟨⟨ids, m₃⟩, hplace, heq⟩ := map_eq_ok.mp hput
    cases heq
    have h₂ := h₁.evict hvalid hperm fun e he => (hidle e he).1
    obtain ⟨hlength, hdeferred, h₃⟩ := placeChunks_cases h₂ (hsub.nodup hnodup)
      (fun key hkey => get_none_of_sub h₁.valid hvalid hperm (hnew₁ key hkey)) hplace
    refine .inr ⟨_, rfl, hlength, hsub.nodup hnodup, hdeferred.trans hsame.deferred, hnew,
      fun key hkey => ?_, h₃⟩
    obtain ⟨⟨k, c⟩, hin, rfl⟩ := mem_map.mp hkey
    obtain ⟨hzero, hout⟩ := hidle _ hin
    refine ⟨c, ?_, hzero, by simpa using hout⟩
    exact hsame.residents.mem_iff.mp (hperm.mem_iff.mpr (mem_append_left _ hin))

/-! ## Calls that keep their contract return -/

omit h [DecidableEq K] [LawfulCachePolicy π] in
theorem lookup_hit (h : m.lookup key = .hit) :
    ∃ c, CachePolicy.get m.policy key = some c ∧ 0 ≤ c.refCnt := by
  unfold CPUOffloadingManager.lookup at h
  cases hget : CachePolicy.get m.policy key with
  | none => simp [hget] at h
  | some c =>
    refine ⟨c, rfl, ?_⟩
    by_contra hneg
    simp [hget, ChunkStatus.isReady, hneg] at h

theorem Consistent.pinChunk_total {c : ChunkStatus}
    (hget : CachePolicy.get m.policy key = some c) (hready : 0 ≤ c.refCnt) :
    ∃ r, m.pinChunk key = .ok r := by
  have hmem := h.get_iff.mp hget
  unfold CPUOffloadingManager.pinChunk
  simp only [hget, ChunkStatus.isReady, decide_eq_true hready, Bool.not_true, Bool.false_eq_true,
    if_false]
  by_cases hzero : c.refCnt = 0
  · obtain ⟨policy, hmark, -⟩ := pin h.valid hmem hzero
    have hpos : 0 < numWithRefCnt 0 (residents m.policy) :=
      countP_pos_iff.mpr ⟨_, hmem, decide_eq_true hzero⟩
    have hevictable := h.evictable
    have hnonneg : ¬ m.numEvictableCacheChunks - 1 < 0 := by omega
    exact ⟨_, by simp only [if_pos hzero, hmark, Except.bind, if_neg hnonneg]; rfl⟩
  · exact ⟨_, by simp only [if_neg hzero]; rfl⟩

/-- A chunk that can be read stays so when one is pinned. -/
theorem Consistent.ready_of_pinChunk {r : Nat × CPUOffloadingManager R K π}
    (hpin : m.pinChunk key = .ok r) (hk : ∃ c, CachePolicy.get m.policy k = some c ∧ 0 ≤ c.refCnt) :
    ∃ c, CachePolicy.get r.2.policy k = some c ∧ 0 ≤ c.refCnt := by
  obtain ⟨c', hget', hready'⟩ := hk
  obtain ⟨chunkId, m'⟩ := r
  obtain ⟨c, hget, hready, -, hcases⟩ := pinChunk_cases hpin
  have hmem := h.get_iff.mp hget
  have hres : ∃ n : Int, 0 ≤ n ∧ Valid m'.policy ∧ Replaces (residents m.policy)
      (residents m'.policy) key c ⟨n, c.chunkId⟩ := by
    rcases hcases with ⟨hzero, policy, hmark, heq⟩ | ⟨hne, heq⟩
    · obtain ⟨policy', hmark', hvalid, hreplaces⟩ := pin h.valid hmem hzero
      cases hmark.symm.trans hmark'
      rw [heq]
      exact ⟨1, by decide, hvalid, hreplaces⟩
    · obtain ⟨hvalid, hreplaces⟩ := recount (n := c.refCnt + 1) h.valid hmem hne (by omega)
      rw [heq]
      exact ⟨_, by omega, hvalid, hreplaces⟩
  obtain ⟨n, hn, hvalid, hreplaces⟩ := hres
  have hmem_iff := fun d => hreplaces.mem_iff (k := k) (d := d) (nodup h.valid)
  by_cases hkey : k = key
  · exact ⟨⟨n, c.chunkId⟩, (LawfulCachePolicy.get_iff hvalid).mpr ((hmem_iff _).mpr
      (.inl ⟨hkey, rfl⟩)), hn⟩
  · exact ⟨c', (LawfulCachePolicy.get_iff hvalid).mpr ((hmem_iff _).mpr
      (.inr ⟨hkey, h.get_iff.mp hget'⟩)), hready'⟩

theorem Consistent.pinChunks_total
    (hready : ∀ key ∈ keys, ∃ c, CachePolicy.get m.policy key = some c ∧ 0 ≤ c.refCnt) :
    ∃ r, m.pinChunks keys = .ok r ∧
      (r.2.access = m.access ∧ r.2.cacheGeneration = m.cacheGeneration) := by
  have hstep : ∀ key ∈ keys, ∀ s : List Nat × CPUOffloadingManager R K π,
      ((∃ loads, Consistent s.2 stores loads) ∧
        (∀ key ∈ keys, ∃ c, CachePolicy.get s.2.policy key = some c ∧ 0 ≤ c.refCnt) ∧
        s.2.access = m.access ∧ s.2.cacheGeneration = m.cacheGeneration) →
      ∃ s', ((s.2.pinChunk key).map fun r => (s.1 ++ [r.1], r.2)) = .ok s' ∧
        (∃ loads, Consistent s'.2 stores loads) ∧
        (∀ key ∈ keys, ∃ c, CachePolicy.get s'.2.policy key = some c ∧ 0 ≤ c.refCnt) ∧
        s'.2.access = m.access ∧ s'.2.cacheGeneration = m.cacheGeneration := by
    rintro key hkey ⟨ids, m₁⟩ ⟨⟨loads, h₁⟩, hready₁, haccess, hgeneration⟩
    obtain ⟨c, hget, hc⟩ := hready₁ key hkey
    obtain ⟨⟨chunkId, m₂⟩, hpin⟩ := h₁.pinChunk_total hget hc
    refine ⟨_, map_eq_ok.mpr ⟨_, hpin, rfl⟩, ⟨_, h₁.pinChunk hpin⟩,
      fun k hk => h₁.ready_of_pinChunk hpin (hready₁ k hk), ?_⟩
    obtain ⟨-, -, -, -, ⟨-, -, -, rfl⟩ | ⟨-, rfl⟩⟩ := pinChunk_cases hpin
    · exact ⟨haccess, hgeneration⟩
    · exact ⟨haccess, hgeneration⟩
  obtain ⟨r, hr, -, -, hframe⟩ := foldlM_total (s := ([], m)) hstep ⟨⟨loads, h⟩, hready, rfl, rfl⟩
  exact ⟨r, hr, hframe⟩

theorem Consistent.unpinChunk_total
    (hkey : key ∈ loads.map Prod.fst) : ∃ m', m.unpinChunk key = .ok m' := by
  obtain ⟨e, he, rfl⟩ := mem_map.mp hkey
  obtain ⟨n, hne, hmem⟩ := h.loaded e he
  have hcount := h.read _ _ _ hmem hne
  have hpos : 0 < loads.count (e.1, e.2) := count_pos_iff.mpr he
  have hget := h.get_iff.mpr hmem
  unfold CPUOffloadingManager.unpinChunk
  simp only [hget, if_neg (by omega : ¬ n ≤ 0)]
  split
  · next hone =>
    obtain ⟨policy, hmark, -⟩ := unpin h.valid hmem (show n ≠ 0 by omega)
    exact ⟨_, map_eq_ok.mpr ⟨policy, by rw [hone]; exact hmark, rfl⟩⟩
  · exact ⟨_, rfl⟩

omit h in
theorem finishLoad_map_fst (loads : List (K × Nat)) (key : K) :
    (finishLoad loads key).map Prod.fst = (loads.map Prod.fst).erase key := by
  induction loads with
  | nil => rfl
  | cons e loads ih =>
    unfold finishLoad at ih ⊢
    rw [eraseP_cons, map_cons, erase_cons]
    by_cases hk : e.1 = key
    · simp [hk]
    · simp [hk, ih]

theorem Consistent.completeLoad_total
    (hkeys : keys.Subperm (loads.map Prod.fst)) : ∃ m', m.completeLoad keys = .ok m' := by
  induction keys generalizing m loads with
  | nil => exact ⟨m, rfl⟩
  | cons key keys ih =>
    obtain ⟨m₁, hunpin⟩ := h.unpinChunk_total (hkeys.subset mem_cons_self)
    obtain ⟨m₂, hrest⟩ := ih (h.unpinChunk hunpin) (by
      rw [finishLoad_map_fst]
      simpa using hkeys.erase key)
    refine ⟨m₂, ?_⟩
    show List.foldlM _ _ _ = _
    rw [foldlM_cons, hunpin]
    exact hrest

theorem Consistent.completeStore_total : ∃ m', m.completeStore keys success = .ok m' := by
  have hstep : ∀ key ∈ keys, ∀ m : CPUOffloadingManager R K π,
      (∃ stores, Consistent m stores loads) →
      ∃ m', m.settleChunk success key = .ok m' ∧ ∃ stores, Consistent m' stores loads := by
    rintro key - m ⟨stores, h⟩
    have hok : ∃ m', m.settleChunk success key = .ok m' := by
      unfold CPUOffloadingManager.settleChunk
      cases hget : CachePolicy.get m.policy key with
      | none => exact ⟨_, rfl⟩
      | some c =>
        have hmem := h.get_iff.mp hget
        dsimp only
        split
        · exact ⟨_, rfl⟩
        rename_i hready
        have hne : c.refCnt ≠ 0 := by
          intro hzero
          simp [ChunkStatus.isReady, hzero] at hready
        split
        · obtain ⟨policy, hmark, -⟩ := unpin h.valid hmem hne
          exact ⟨_, map_eq_ok.mpr ⟨policy, hmark, rfl⟩⟩
        · obtain ⟨policy, hremove, -⟩ := LawfulCachePolicy.remove h.valid hmem hne
          exact ⟨_, map_eq_ok.mpr ⟨policy, hremove, rfl⟩⟩
    obtain ⟨m', hsettle⟩ := hok
    exact ⟨m', hsettle, _, h.settleChunk hsettle⟩
  obtain ⟨m', hm', -⟩ := foldlM_total hstep ⟨stores, h⟩
  exact ⟨m', hm'⟩

omit h in
theorem finishStore_keys :
    k ∈ (finishStore stores key).map Prod.fst ↔ k ∈ stores.map Prod.fst ∧ k ≠ key := by
  simp only [mem_map, Prod.exists, exists_and_right, exists_eq_right, mem_finishStore]

theorem Consistent.deferChunk_total
    (hkey : key ∈ stores.map Prod.fst) : ∃ r, m.deferChunk key = .ok r := by
  obtain ⟨e, he, rfl⟩ := mem_map.mp hkey
  have hmem := (h.written _ _).mp he
  have hget := h.get_iff.mpr hmem
  obtain ⟨policy, hremove, -⟩ := LawfulCachePolicy.remove h.valid hmem (by simp)
  unfold CPUOffloadingManager.deferChunk
  simp only [hget]
  exact ⟨_, map_eq_ok.mpr ⟨policy, hremove, rfl⟩⟩

theorem Consistent.deferWriteRelease_total (hnodup : keys.Nodup)
    (hkeys : ∀ key ∈ keys, key ∈ stores.map Prod.fst) : ∃ r, m.deferWriteRelease keys = .ok r := by
  suffices hall : ∀ ids, ∃ r, keys.foldlM (fun (s : List Nat × CPUOffloadingManager R K π) key =>
      (s.2.deferChunk key).map fun r => (s.1 ++ [r.1], r.2)) (ids, m) = .ok r from
    hall []
  induction keys generalizing m stores with
  | nil => exact fun ids => ⟨_, rfl⟩
  | cons key keys ih =>
    intro ids
    rw [nodup_cons] at hnodup
    obtain ⟨⟨chunkId, m₁⟩, hdefer⟩ := h.deferChunk_total (hkeys key mem_cons_self)
    obtain ⟨r, hrest⟩ := ih (h.deferChunk hdefer) hnodup.2 (fun k hk =>
      finishStore_keys.mpr ⟨hkeys k (mem_cons_of_mem _ hk), fun heq => hnodup.1 (heq ▸ hk)⟩)
      (ids ++ [chunkId])
    refine ⟨r, ?_⟩
    rw [foldlM_cons, hdefer]
    exact hrest

omit h [DecidableEq K] [CachePolicy π R K] [LawfulCachePolicy π] in
theorem releaseDeferredWrite_total (hnodup : ids.Nodup)
    (hids : ∀ i ∈ ids, i ∈ m.deferredReleaseChunkIds) :
    ∃ m', m.releaseDeferredWrite ids = .ok m' := by
  induction ids generalizing m with
  | nil => exact ⟨_, rfl⟩
  | cons i ids ih =>
    rw [nodup_cons] at hnodup
    obtain ⟨m₁, hm₁⟩ : ∃ m₁, m.releaseChunk i = .ok m₁ := by
      unfold CPUOffloadingManager.releaseChunk
      rw [if_neg (not_not.mpr (hids i mem_cons_self))]
      exact ⟨_, rfl⟩
    have hleft : m₁.deferredReleaseChunkIds = m.deferredReleaseChunkIds.erase i := by
      rw [(releaseChunk_cases hm₁).2]
    obtain ⟨m₂, hrest⟩ := ih (m := m₁) hnodup.2 fun j hj => by
      rw [hleft, mem_erase_of_ne (ne_of_mem_of_not_mem hj hnodup.1)]
      exact hids j (mem_cons_of_mem _ hj)
    refine ⟨m₂, ?_⟩
    show List.foldlM _ _ _ = _
    rw [foldlM_cons, hm₁]
    exact hrest

theorem Consistent.prepareLoad_total [DecidableEq R] (hready : ∀ key ∈ keys, m.lookup key = .hit)
    (hlive : recordAccess → (m.getRequestCacheAccess ctx.reqId).finished = false) :
    ∃ r, m.prepareLoad groupIdx keys ctx recordAccess = .ok r := by
  obtain ⟨⟨ids, m₁⟩, hpin, haccess, hgeneration⟩ :=
    h.pinChunks_total fun key hkey => lookup_hit (hready key hkey)
  unfold CPUOffloadingManager.prepareLoad
  rw [hpin]
  cases recordAccess with
  | false => exact ⟨_, rfl⟩
  | true =>
    have hlive₁ : (m₁.getRequestCacheAccess ctx.reqId).finished = false := by
      unfold getRequestCacheAccess at hlive ⊢
      rw [haccess, hgeneration]
      exact hlive rfl
    obtain ⟨m₂, hrecord⟩ : ∃ m₂, m₁.recordRequestCacheAccess groupIdx keys ctx keys = .ok m₂ :=
      recordRequestCacheAccess_total (h.pinChunks hpin).valid hlive₁
    exact ⟨_, map_eq_ok.mpr ⟨m₂, hrecord, rfl⟩⟩

theorem Consistent.prepareStore_total [DecidableEq R] (hnodup : keys.Nodup)
    (hlive : (m.getRequestCacheAccess ctx.reqId).finished = false) :
    ∃ r, m.prepareStore groupIdx keys ctx = .ok r := by
  obtain ⟨⟨keysToStore, m₁⟩, hadmits⟩ : ∃ r, m.admitKeys groupIdx keys ctx = .ok r :=
    admitKeys_total h.valid hlive
  obtain ⟨hsame, hsub, hnew⟩ := admitKeys_spec h.valid hadmits
  have h₁ := h.of_same hsame
  have hnew₁ : ∀ key ∈ keysToStore, CachePolicy.get m₁.policy key = none := by
    intro key hkey
    rw [hsame.get_eq h.valid]
    exact hnew key hkey
  unfold CPUOffloadingManager.prepareStore
  rw [hadmits]
  simp only [Except.bind]
  split
  · exact ⟨_, rfl⟩
  obtain ⟨⟨evictedKeys, m₂⟩, hroom⟩ := makeRoom_total h₁ keysToStore.length keys.toFinset
  rw [hroom]
  rcases makeRoom_cases h₁.valid hroom with ⟨rfl, rfl, hfree⟩ | ⟨rfl, hsame₂⟩ |
    ⟨victims, policy, rfl, hvalid, hperm, hlength, hidle, rfl⟩
  · obtain ⟨r, hplace⟩ : ∃ r, placeChunks _ keysToStore ctx = .ok r :=
      placeChunks_total h₁ hfree (hsub.nodup hnodup) hnew₁
    exact ⟨_, map_eq_ok.mpr ⟨r, hplace, rfl⟩⟩
  · exact ⟨_, rfl⟩
  have hfree : (keysToStore.length : Int) ≤ getNumFreeChunks { m₁ with
      policy := policy
      numEvictableCacheChunks := m₁.numEvictableCacheChunks - victims.length
      freeList := m₁.freeList ++ chunkIds victims } := by
    unfold getNumFreeChunks at hlength ⊢
    simp only [chunkIds, length_append, length_map]
    omega
  obtain ⟨r, hplace⟩ : ∃ r, placeChunks _ keysToStore ctx = .ok r := placeChunks_total
    (h₁.evict hvalid hperm fun e he => (hidle e he).1) hfree (hsub.nodup hnodup)
    fun key hkey => get_none_of_sub h₁.valid hvalid hperm (hnew₁ key hkey)
  exact ⟨_, map_eq_ok.mpr ⟨r, hplace, rfl⟩⟩

end

end Calls

section Safety

variable {R K π : Type} [DecidableEq R] [DecidableEq K] [CachePolicy π R K] [LawfulCachePolicy π]
  (groupIdx : K → Nat)

/-- The free list with the chunks that were never allocated. -/
def CPUOffloadingManager.freeChunks (m : CPUOffloadingManager R K π) : List Nat :=
  m.freeList ++ List.range' m.numAllocatedChunks (m.numChunks - m.numAllocatedChunks)

/-- What holds of a pool and its uncompleted stores and loads in every state of a run. -/
structure PoolSafe (u : Usage R K π) : Prop where
  /-- Every chunk is free, or held by one key, or its release is deferred. -/
  partitioned : (u.manager.freeChunks ++ (chunkIds (residents u.manager.policy) ++
    u.manager.deferredReleaseChunkIds)).Perm (List.range u.manager.numChunks)
  storing : ∀ e ∈ u.stores, CachePolicy.get u.manager.policy e.1 = some ⟨-1, e.2⟩
  /-- A chunk that is read is pinned once for every load. -/
  loading : ∀ e ∈ u.loads, CachePolicy.get u.manager.policy e.1 = some ⟨u.loads.count e, e.2⟩
  /-- A chunk with a reference is in use. -/
  referenced : ∀ key c, CachePolicy.get u.manager.policy key = some c → c.refCnt ≠ 0 →
    (key, c.chunkId) ∈ u.stores ++ u.loads
  evictable : u.manager.numEvictableCacheChunks = numWithRefCnt 0 (residents u.manager.policy)
  writePending : u.manager.numWritePendingChunks =
    numWithRefCnt (-1) (residents u.manager.policy) + u.manager.deferredReleaseChunkIds.length
  /-- A store that is refused leaves the keys and the free chunks. -/
  refused : ∀ keys ctx m', keys.Nodup →
    u.manager.prepareStore groupIdx keys ctx = .ok (none, m') →
    (residents m'.policy).Perm (residents u.manager.policy) ∧
      m'.freeList = u.manager.freeList ∧ m'.numAllocatedChunks = u.manager.numAllocatedChunks
  /-- What is in use is neither evicted nor handed out. -/
  granted : ∀ keys ctx out m', keys.Nodup →
    u.manager.prepareStore groupIdx keys ctx = .ok (some out, m') →
    out.chunkIds.Nodup ∧ out.chunkIds.length = out.keysToStore.length ∧
      (∀ e ∈ u.stores ++ u.loads, e.1 ∉ out.evictedKeys ∧ e.2 ∉ out.chunkIds) ∧
      ∀ i ∈ u.manager.deferredReleaseChunkIds, i ∉ out.chunkIds
  /-- A call that its caller may make returns. -/
  returns : ∀ call : Call R K, call.Contract u → ∃ u', u.exec groupIdx call = .ok u'

variable {groupIdx} {u u' : Usage R K π} {m : CPUOffloadingManager R K π}
  {stores loads : List (K × Nat)} {numChunks storeThreshold maxTrackerSize : Nat} {policy : π}

omit [DecidableEq R] in
/-- What is in use is resident, with a reference. -/
theorem Consistent.in_use (h : Consistent m stores loads) {e : K × Nat} (he : e ∈ stores ++ loads) :
    ∃ n : Int, n ≠ 0 ∧ (e.1, ⟨n, e.2⟩) ∈ residents m.policy := by
  rcases mem_append.mp he with he | he
  · exact ⟨-1, by decide, (h.written _ _).mp he⟩
  obtain ⟨n, hne, hmem⟩ := h.loaded e he
  have hcount := h.read _ _ _ hmem hne
  have hpos : 0 < loads.count (e.1, e.2) := count_pos_iff.mpr he
  exact ⟨n, by omega, hmem⟩

theorem Consistent.granted {m' : CPUOffloadingManager R K π}
    {keys : List K} {ctx : ReqContext R K} {out : PrepareStoreOutput K}
    (h : Consistent m stores loads) (hnodup : keys.Nodup)
    (hstore : m.prepareStore groupIdx keys ctx = .ok (some out, m')) :
    out.chunkIds.Nodup ∧ out.chunkIds.length = out.keysToStore.length ∧
      (∀ e ∈ stores ++ loads, e.1 ∉ out.evictedKeys ∧ e.2 ∉ out.chunkIds) ∧
      ∀ i ∈ m.deferredReleaseChunkIds, i ∉ out.chunkIds := by
  rcases prepareStore_cases h hnodup hstore with ⟨hnone, -⟩ |
    ⟨o, heq, hlength, hkeys, hdeferred, hnew, hevicted, h'⟩
  · cases hnone
  cases heq
  have hsnd : (out.keysToStore.zip out.chunkIds).map Prod.snd = out.chunkIds :=
    map_snd_zip hlength.le
  have hids : ∀ i ∈ out.chunkIds, ∃ k ∈ out.keysToStore, (k, ⟨-1, i⟩) ∈ residents m'.policy := by
    intro i hi
    rw [← hsnd] at hi
    obtain ⟨⟨k, i⟩, hin, rfl⟩ := mem_map.mp hi
    exact ⟨k, (of_mem_zip hin).1, (h'.written _ _).mp (mem_append_right _ hin)⟩
  refine ⟨?_, hlength, fun e he => ⟨fun hin => ?_, fun hin => ?_⟩, fun i hi hin => ?_⟩
  · have hzip : (out.keysToStore.zip out.chunkIds).Nodup :=
      List.Nodup.of_map Prod.fst (by rwa [map_fst_zip hlength.ge])
    rw [← hsnd]
    refine List.Nodup.map_on ?_ hzip
    rintro ⟨k, i⟩ hin ⟨k', i'⟩ hin' (rfl : i = i')
    have hres := (h'.written _ _).mp (mem_append_right _ hin)
    have hres' := (h'.written _ _).mp (mem_append_right _ hin')
    exact Prod.ext (h'.owner_unique hres hres' rfl) rfl
  · obtain ⟨n, hne, hmem⟩ := h.in_use he
    obtain ⟨c, hc, hzero, -⟩ := hevicted e.1 hin
    obtain rfl := h.unique hmem hc
    exact hne hzero
  · obtain ⟨k, hk, hres⟩ := hids e.2 hin
    have hin' : e ∈ (stores ++ out.keysToStore.zip out.chunkIds) ++ loads := by
      rcases mem_append.mp he with he | he
      · exact mem_append_left _ (mem_append_left _ he)
      · exact mem_append_right _ he
    obtain ⟨n', -, hmem'⟩ := h'.in_use hin'
    obtain ⟨n, -, hmem⟩ := h.in_use he
    obtain rfl := h'.owner_unique hmem' hres rfl
    cases (hnew _ hk).symm.trans (h.get_iff.mpr hmem)
  · obtain ⟨k, -, hres⟩ := hids i hin
    exact h'.not_deferred hres (hdeferred ▸ hi)

omit [DecidableEq R] in
theorem Consistent.partitioned
    (h : Consistent m stores loads) : (m.freeChunks ++ (chunkIds (residents m.policy) ++
      m.deferredReleaseChunkIds)).Perm (List.range m.numChunks) := by
  rw [← Nat.add_sub_cancel' h.allocated, range_append]
  refine perm_iff_count.mpr fun i => ?_
  have hold := h.split.count_eq i
  simp only [freeChunks, count_append] at hold ⊢
  omega

theorem Consistent.returns (h : Consistent u.manager u.stores u.loads) (call : Call R K)
    (hcontract : call.Contract u) : ∃ u', u.exec groupIdx call = .ok u' := by
  have hmap : ∀ {α : Type} {x : Except Fault α} {f : α → Usage R K π}, (∃ a, x = .ok a) →
      ∃ u', x.map f = .ok u' := by
    rintro α x f ⟨a, rfl⟩
    exact ⟨f a, rfl⟩
  cases call with
  | prepareStore keys ctx => exact hmap (h.prepareStore_total hcontract.1 hcontract.2)
  | completeStore keys success => exact hmap h.completeStore_total
  | prepareLoad keys ctx recordAccess =>
    exact hmap (h.prepareLoad_total hcontract.1 hcontract.2)
  | completeLoad keys => exact hmap (h.completeLoad_total hcontract)
  | lookup key => exact ⟨u, rfl⟩
  | onNewRequest ctx => exact ⟨_, rfl⟩
  | onRequestFinished ctx => exact hmap (onRequestFinished_total h.valid)
  | deferWriteRelease keys => exact hmap (h.deferWriteRelease_total hcontract.1 hcontract.2)
  | releaseDeferredWrite chunkIds =>
    exact hmap (releaseDeferredWrite_total hcontract.1 hcontract.2)
  | resetCache =>
    have hdeferred : u.manager.deferredReleaseChunkIds = [] := hcontract
    refine hmap ?_
    unfold CPUOffloadingManager.resetCache
    rw [if_neg (not_not.mpr hdeferred)]
    exact ⟨_, rfl⟩

theorem Consistent.safe (h : Consistent u.manager u.stores u.loads) : PoolSafe groupIdx u where
  partitioned := h.partitioned
  storing e he := h.get_iff.mpr ((h.written _ _).mp he)
  loading e he := by
    obtain ⟨n, hne, hmem⟩ := h.loaded e he
    obtain rfl := h.read _ _ _ hmem hne
    exact h.get_iff.mpr hmem
  referenced key c hget hne := by
    have hmem := h.get_iff.mp hget
    rcases h.refCnt_cases hmem with hwriting | hcount
    · exact mem_append_left _ ((h.written _ _).mpr (hwriting ▸ hmem))
    · refine mem_append_right _ (count_pos_iff.mp ?_)
      omega
  evictable := h.evictable
  writePending := h.pending
  refused keys ctx m' hnodup hstore := by
    rcases prepareStore_cases h hnodup hstore with ⟨-, hsame⟩ | ⟨o, heq, -⟩
    · exact ⟨hsame.residents, hsame.freeList, hsame.numAllocatedChunks⟩
    · cases heq
  granted keys ctx out m' hnodup hstore := h.granted hnodup hstore
  returns := h.returns

theorem Usage.exec_consistent {call : Call R K} (h : Consistent u.manager u.stores u.loads)
    (hdistinct : call.Distinct) (hexec : u.exec groupIdx call = .ok u') :
    Consistent u'.manager u'.stores u'.loads := by
  cases call with
  | prepareStore keys ctx =>
    obtain ⟨⟨out, m'⟩, hstore, rfl⟩ := map_eq_ok.mp hexec
    rcases prepareStore_cases h hdistinct hstore with ⟨rfl, hsame⟩ | ⟨o, rfl, -, -, -, -, -, h'⟩
    · exact h.of_same hsame
    · exact h'
  | completeStore keys success =>
    obtain ⟨m', hstore, rfl⟩ := map_eq_ok.mp hexec
    exact h.completeStore hstore
  | prepareLoad keys ctx recordAccess =>
    obtain ⟨⟨ids, m'⟩, hload, rfl⟩ := map_eq_ok.mp hexec
    exact h.prepareLoad hload
  | completeLoad keys =>
    obtain ⟨m', hload, rfl⟩ := map_eq_ok.mp hexec
    exact h.completeLoad hload
  | lookup key =>
    cases hexec
    exact h
  | onNewRequest ctx =>
    cases hexec
    exact h.of_same (.of_policy h.valid (List.Perm.refl _) _ _)
  | onRequestFinished ctx =>
    obtain ⟨m', hfinish, rfl⟩ := map_eq_ok.mp hexec
    exact h.of_same (onRequestFinished_same h.valid hfinish)
  | deferWriteRelease keys =>
    obtain ⟨⟨ids, m'⟩, hdefer, rfl⟩ := map_eq_ok.mp hexec
    exact h.deferWriteRelease hdefer
  | releaseDeferredWrite chunkIds =>
    obtain ⟨m', hrelease, rfl⟩ := map_eq_ok.mp hexec
    exact h.releaseDeferredWrite hrelease
  | resetCache =>
    obtain ⟨m', hreset, rfl⟩ := map_eq_ok.mp hexec
    exact Consistent.resetCache hreset

omit [DecidableEq R] in
theorem Consistent.init (hvalid : Valid policy) (hempty : residents policy = []) :
    Consistent (R := R) (.init numChunks storeThreshold maxTrackerSize policy) [] [] := by
  refine ⟨hvalid, Nat.zero_le _, ?_, ?_, ?_, ?_, ?_, nofun⟩
  · simp [CPUOffloadingManager.init, hempty, chunkIds]
  · simp [CPUOffloadingManager.init, hempty, numWithRefCnt]
  · simp [CPUOffloadingManager.init, hempty, numWithRefCnt]
  · simp [CPUOffloadingManager.init, hempty]
  · simp [CPUOffloadingManager.init, hempty]

/-- A run from an empty pool is safe in every state that it reaches. -/
theorem PoolSafe.of_run (hvalid : Valid policy) (hempty : residents policy = [])
    (h : Reaches (fun _ call => Call.Distinct call) (Usage.exec groupIdx)
      { manager := .init numChunks storeThreshold maxTrackerSize policy } u) :
    PoolSafe groupIdx u := by
  exact Consistent.safe (h.invariant (P := fun u => Consistent u.manager u.stores u.loads)
    (.init hvalid hempty) fun _ _ _ hu hdistinct hexec => Usage.exec_consistent hu hdistinct hexec)

end Safety

section Policies

variable {R K : Type} [DecidableEq R] [DecidableEq K] [LT K] [DecidableLT K]

theorem lru_init_valid : LawfulCachePolicy.Valid (LRUCachePolicy.init (R := R) (K := K)) :=
  ⟨nofun, nodup_nil, fun _ => ⟨nofun, nofun⟩⟩

omit [DecidableEq R] [LT K] [DecidableLT K] in
theorem arc_init_valid {cacheCapacity : Nat} :
    LawfulCachePolicy.Valid (ARCCachePolicy.init (R := R) (K := K) cacheCapacity) :=
  (LawfulCachePolicy.clear (ARCCachePolicy.init (R := R) (K := K) cacheCapacity)).1

/-- With either policy, every state that calls reach from an empty pool is safe. -/
theorem cpu_pool_safe (groupIdx : K → Nat) (numChunks storeThreshold maxTrackerSize : Nat) :
    (∀ u : Usage R K (LRUCachePolicy R K),
      Reaches (fun _ call => Call.Distinct call) (Usage.exec groupIdx)
        { manager := .init numChunks storeThreshold maxTrackerSize .init } u →
      PoolSafe groupIdx u) ∧
    ∀ u : Usage R K (ARCCachePolicy R K),
      Reaches (fun _ call => Call.Distinct call) (Usage.exec groupIdx)
        { manager := .init numChunks storeThreshold maxTrackerSize (.init numChunks) } u →
      PoolSafe groupIdx u := by
  exact ⟨fun u h => .of_run lru_init_valid rfl h, fun u h => .of_run arc_init_valid rfl h⟩

/-- A list of calls. -/
def runCalls {R K π : Type} [DecidableEq R] [DecidableEq K] [CachePolicy π R K] (groupIdx : K → Nat)
    (u : Usage R K π) (calls : List (Call R K)) : Except Fault (Usage R K π) :=
  calls.foldlM (fun u call =>
    if decide call.Distinct then u.exec groupIdx call else .error .assertionError) u

/-- Two keys are stored in a pool of two chunks, one of them is read, and a third key takes
the chunk of the other one. -/
def sampleCalls : List (Call Nat Nat) :=
  [.prepareStore [10, 11] ⟨0, fun _ => none⟩, .completeStore [10, 11] true,
    .prepareLoad [10] ⟨0, fun _ => none⟩ true, .prepareStore [12] ⟨1, fun _ => none⟩]

theorem cpu_pool_safe_sample :
    (∃ u : Usage Nat Nat (LRUCachePolicy Nat Nat), u.stores = [(12, 1)] ∧ u.loads = [(10, 0)] ∧
      PoolSafe id u) ∧
    ∃ u : Usage Nat Nat (ARCCachePolicy Nat Nat), u.stores = [(12, 1)] ∧ u.loads = [(10, 0)] ∧
      PoolSafe id u := by
  have hrun : ∀ {π : Type} [CachePolicy π Nat Nat] (u₀ : Usage Nat Nat π),
      (runCalls id u₀ sampleCalls).toOption.map (fun u => (u.stores, u.loads)) =
        some ([(12, 1)], [(10, 0)]) →
      ∃ u, Reaches (fun _ call => Call.Distinct call) (Usage.exec id) u₀ u ∧
        u.stores = [(12, 1)] ∧ u.loads = [(10, 0)] := by
    intro π _ u₀ h
    cases hcalls : runCalls id u₀ sampleCalls with
    | error e =>
      rw [hcalls] at h
      cases h
    | ok u =>
      refine ⟨u, Reaches.of_foldlM (fun call _ _ hcheck => of_decide_eq_true hcheck) hcalls, ?_⟩
      rw [hcalls] at h
      exact Prod.mk.inj (Option.some.inj h)
  obtain ⟨u, hu, hstores, hloads⟩ := hrun
    { manager := .init 2 0 8 (LRUCachePolicy.init (R := Nat) (K := Nat)) } (by decide +kernel)
  obtain ⟨u', hu', hstores', hloads'⟩ := hrun
    { manager := .init 2 0 8 (ARCCachePolicy.init (K := Nat) 2) } (by decide +kernel)
  exact ⟨⟨u, hstores, hloads, (cpu_pool_safe id 2 0 8).1 u hu⟩,
    ⟨u', hstores', hloads', (cpu_pool_safe id 2 0 8).2 u' hu'⟩⟩

end Policies

end Vllm.Offload
