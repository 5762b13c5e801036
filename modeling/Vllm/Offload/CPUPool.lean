import Vllm.Offload.CPUManager
import Vllm.Offload.PolicyLaws

/-!
# Who owns a chunk of the pool

In every state that calls reach, the chunk ids are split between the free list, the
keys of the policy and the chunks whose release is deferred. `Consistent` says this
together with the two counters, and it ties the reference counts to the stores and
loads that are not complete: a chunk that a transfer still uses stays with its key.
-/

namespace Vllm.Offload

open Library List

/-! ## Changes of the chunks that a policy holds -/

variable {d : ChunkStatus}

section Lists

variable {K : Type} {l l' : List (K × ChunkStatus)} {key : K} {c c' : ChunkStatus}

/-- The chunks of a list of keys. -/
def chunkIds (l : List (K × ChunkStatus)) : List Nat := l.map fun e => e.2.chunkId

/-- The number of chunks with the reference count `n`. -/
def numWithRefCnt (n : Int) (l : List (K × ChunkStatus)) : Nat :=
  l.countP fun e => decide (e.2.refCnt = n)

theorem numWithRefCnt_cons (n : Int) (e : K × ChunkStatus) (l : List (K × ChunkStatus)) :
    numWithRefCnt n (e :: l) = numWithRefCnt n l + (decide (e.2.refCnt = n)).toNat := by
  unfold numWithRefCnt
  rw [countP_cons]
  cases decide (e.2.refCnt = n) <;> rfl

theorem numWithRefCnt_singleton (n : Int) (e : K × ChunkStatus) :
    numWithRefCnt n [e] = (decide (e.2.refCnt = n)).toNat := by
  rw [numWithRefCnt_cons]
  exact Nat.zero_add _

theorem numWithRefCnt_perm (n : Int) (h : l.Perm l') : numWithRefCnt n l = numWithRefCnt n l' :=
  h.countP_eq _

theorem Replaces.mem_iff (h : Replaces l l' key c c') (hnodup : (l.map Prod.fst).Nodup) {k : K}
    : (k, d) ∈ l' ↔ (k = key ∧ d = c') ∨ (k ≠ key ∧ (k, d) ∈ l) := by
  obtain ⟨rest, hold, hnew⟩ := h
  rw [(hold.map Prod.fst).nodup_iff, map_cons, nodup_cons] at hnodup
  have hother : ∀ d, (key, d) ∉ rest := fun d hmem => hnodup.1 (mem_map.mpr ⟨_, hmem, rfl⟩)
  rw [hnew.mem_iff, hold.mem_iff, mem_cons, mem_cons]
  by_cases hk : k = key
  · subst hk
    simp [hother]
  · simp [hk]

end Lists

section Pool

variable {R K π : Type} [DecidableEq K] [CachePolicy π R K]
  [LawfulCachePolicy π]

open LawfulCachePolicy CPUOffloadingManager

/-- The pool with the stores and loads that are not complete, each with its chunk. -/
structure Consistent (m : CPUOffloadingManager R K π) (stores loads : List (K × Nat)) : Prop where
  valid : Valid m.policy
  allocated : m.numAllocatedChunks ≤ m.numChunks
  split : (m.freeList ++ (chunkIds (residents m.policy) ++ m.deferredReleaseChunkIds)).Perm
    (List.range m.numAllocatedChunks)
  evictable : m.numEvictableCacheChunks = numWithRefCnt 0 (residents m.policy)
  pending : m.numWritePendingChunks =
    numWithRefCnt (-1) (residents m.policy) + m.deferredReleaseChunkIds.length
  written : ∀ k c, (k, c) ∈ stores ↔ (k, ⟨-1, c⟩) ∈ residents m.policy
  read : ∀ (k : K) (n : Int) (c : Nat), (k, ⟨n, c⟩) ∈ residents m.policy → n ≠ -1 →
    n = loads.count (k, c)
  loaded : ∀ e ∈ loads, ∃ n : Int, n ≠ -1 ∧ (e.1, ⟨n, e.2⟩) ∈ residents m.policy

variable {m m' : CPUOffloadingManager R K π} {stores loads : List (K × Nat)} {key : K}
  {c : ChunkStatus} {policy : π} {chunkId : Nat} {success : Bool} {freeList ids : List Nat}
  {keysToStore : List K} {keys : List K}

section

variable (h : Consistent m stores loads)
include h

theorem Consistent.get_iff :
    CachePolicy.get m.policy key = some c ↔ (key, c) ∈ residents m.policy :=
  LawfulCachePolicy.get_iff h.valid

theorem Consistent.unique
    (hc : (key, c) ∈ residents m.policy) (hd : (key, d) ∈ residents m.policy) : c = d :=
  Option.some.inj ((h.get_iff.mpr hc).symm.trans (h.get_iff.mpr hd))

/-- The chunks `old` give way to `new`, with what the counters, the free chunks and the transfers
have to do. -/
theorem Consistent.exchange (old new rest : List (K × ChunkStatus)) {deferred : List Nat}
    {numAllocated : Nat} {evictable pending : Int} {stores' loads' : List (K × Nat)}
    {access : R → Option (CacheAccess K)} (hvalid : Valid policy)
    (hold : (residents m.policy).Perm (old ++ rest)) (hnew : (residents policy).Perm (new ++ rest))
    (hallocated : numAllocated ≤ m.numChunks)
    (hsplit : ∀ owned : List Nat,
      (chunkIds old ++ (m.freeList ++ m.deferredReleaseChunkIds) ++ owned).Perm
        (List.range m.numAllocatedChunks) →
      (chunkIds new ++ (freeList ++ deferred) ++ owned).Perm (List.range numAllocated))
    (hevictable : evictable + numWithRefCnt 0 old =
      m.numEvictableCacheChunks + numWithRefCnt 0 new)
    (hpending : pending + numWithRefCnt (-1) old + m.deferredReleaseChunkIds.length =
      m.numWritePendingChunks + numWithRefCnt (-1) new + deferred.length)
    (hwritten : ∀ k i, (k, i) ∈ stores' ↔
      (k, ⟨-1, i⟩) ∈ new ∨ (k, i) ∈ stores ∧ k ∉ old.map Prod.fst)
    (hread : ∀ k (n : Int) i, (k, ⟨n, i⟩) ∈ new → n ≠ -1 → n = loads'.count (k, i))
    (hother : ∀ k i, k ∉ old.map Prod.fst → loads'.count (k, i) = loads.count (k, i))
    (hloaded : ∀ e ∈ loads', (∃ n : Int, n ≠ -1 ∧ (e.1, ⟨n, e.2⟩) ∈ new) ∨
      e ∈ loads ∧ e.1 ∉ old.map Prod.fst) :
    Consistent { m with
      policy := policy
      access := access
      freeList := freeList
      deferredReleaseChunkIds := deferred
      numAllocatedChunks := numAllocated
      numEvictableCacheChunks := evictable
      numWritePendingChunks := pending } stores' loads' := by
  have hnodup := nodup h.valid
  rw [(hold.map Prod.fst).nodup_iff, map_append, nodup_append] at hnodup
  have hmem : ∀ k d, (k, d) ∈ residents policy ↔
      (k, d) ∈ new ∨ (k, d) ∈ residents m.policy ∧ k ∉ old.map Prod.fst := by
    intro k d
    rw [hnew.mem_iff, hold.mem_iff, mem_append, mem_append]
    refine or_congr_right ⟨fun hin => ⟨.inr hin, fun hk => ?_⟩, fun hin => ?_⟩
    · exact hnodup.2.2 k hk k (mem_map_of_mem hin) rfl
    · exact hin.1.resolve_left fun hk => hin.2 (mem_map_of_mem hk)
  have hcounts : ∀ n, numWithRefCnt n (residents policy) + numWithRefCnt n old =
      numWithRefCnt n (residents m.policy) + numWithRefCnt n new := by
    intro n
    rw [numWithRefCnt_perm n hold, numWithRefCnt_perm n hnew]
    simp only [numWithRefCnt, countP_append]
    omega
  refine ⟨hvalid, hallocated, ?_, ?_, ?_, ?_, ?_, ?_⟩
  · have hids₁ := fun i => (hold.map fun e => e.2.chunkId).count_eq i
    have hids₂ := fun i => (hnew.map fun e => e.2.chunkId).count_eq i
    have hrange := hsplit (chunkIds rest)
    simp only [perm_iff_count, chunkIds, map_append, count_append] at hids₁ hids₂ hrange ⊢
    intro i
    rw [← hrange fun i => ?_, hids₂]
    · omega
    · rw [← h.split.count_eq i]
      simp only [chunkIds, count_append, hids₁]
      omega
  · have hsame := h.evictable
    have hcount := hcounts 0
    show evictable = numWithRefCnt 0 (residents policy)
    omega
  · have hsame := h.pending
    have hcount := hcounts (-1)
    show pending = numWithRefCnt (-1) (residents policy) + deferred.length
    omega
  · intro k i
    show _ ↔ (k, ⟨-1, i⟩) ∈ residents policy
    rw [hwritten, hmem, h.written]
  · intro k n i hin hne
    rcases (hmem _ _).mp hin with hin | ⟨hin, hk⟩
    · exact hread k n i hin hne
    · rw [hother k i hk]
      exact h.read k n i hin hne
  · intro e he
    rcases hloaded e he with ⟨n, hne, hin⟩ | ⟨hin, hk⟩
    · exact ⟨n, hne, (hmem _ _).mpr (.inl hin)⟩
    · obtain ⟨n, hne, hres⟩ := h.loaded e hin
      exact ⟨n, hne, (hmem _ _).mpr (.inr ⟨hres, hk⟩)⟩

/-! ## Loads -/

omit h in
theorem count_append_singleton (l : List (K × Nat)) (a b : K × Nat) :
    (l ++ [a]).count b = l.count b + if a = b then 1 else 0 := by
  rw [count_append, count_singleton]
  by_cases hab : a = b <;> simp [hab]

theorem Consistent.refCnt_cases (hmem : (key, c) ∈ residents m.policy) :
    c.refCnt = -1 ∨ c.refCnt = loads.count (key, c.chunkId) := by
  by_cases hne : c.refCnt = -1
  · exact .inl hne
  · exact .inr (h.read key c.refCnt c.chunkId hmem hne)

/-- A load that is not complete reads the chunk of its key. -/
theorem Consistent.load_chunk {e : K × Nat} (he : e ∈ loads)
    (hmem : (e.1, c) ∈ residents m.policy) : c.refCnt ≠ -1 ∧ e.2 = c.chunkId := by
  obtain ⟨n, hne, hres⟩ := h.loaded e he
  obtain rfl := h.unique hmem hres
  exact ⟨hne, rfl⟩

theorem Consistent.not_written (hmem : (key, c) ∈ residents m.policy) (hne : c.refCnt ≠ -1)
    (i : Nat) : (key, i) ∉ stores :=
  fun hin => hne (congrArg ChunkStatus.refCnt (h.unique hmem ((h.written key i).mp hin)))

/-- The references of a chunk that is not being written follow the loads. -/
theorem Consistent.reread {evictable n : Int} {loads' : List (K × Nat)}
    (hmem : (key, c) ∈ residents m.policy) (hne : c.refCnt ≠ -1) (hvalid : Valid policy)
    (hreplaces : Replaces (residents m.policy) (residents policy) key c ⟨n, c.chunkId⟩)
    (hn : n ≠ -1) (hevictable : evictable + (decide (c.refCnt = 0)).toNat =
      m.numEvictableCacheChunks + (decide (n = 0)).toNat)
    (hcount : n = loads'.count (key, c.chunkId))
    (hother : ∀ k i, k ≠ key → loads'.count (k, i) = loads.count (k, i))
    (hchunk : ∀ e ∈ loads', e.1 = key → e.2 = c.chunkId) :
    Consistent { m with policy := policy, numEvictableCacheChunks := evictable } stores loads' := by
  obtain ⟨rest, hold, hnew⟩ := hreplaces
  refine h.exchange [(key, c)] [(key, ⟨n, c.chunkId⟩)] rest hvalid hold hnew h.allocated
    (fun _ hids => hids) ?_ ?_ (fun k i => ?_) ?_ (fun k i hk => hother k i (by simpa using hk)) ?_
  · rw [numWithRefCnt_singleton, numWithRefCnt_singleton]
    exact hevictable
  · rw [numWithRefCnt_singleton, numWithRefCnt_singleton, decide_eq_false hne, decide_eq_false hn]
  · have hout := h.not_written hmem hne i
    by_cases hk : k = key
    · simp [hk, hout, hn.symm]
    · simp [hk]
  · intro k n' i hin _
    cases mem_singleton.mp hin
    exact hcount
  · intro e he
    by_cases hk : e.1 = key
    · exact .inl ⟨n, hn, mem_singleton.mpr (by rw [hk, hchunk e he hk])⟩
    · refine .inr ⟨?_, by simpa using hk⟩
      rw [← count_pos_iff] at he ⊢
      rw [← hother e.1 e.2 hk]
      exact he

omit h in
omit [LawfulCachePolicy π] [DecidableEq K] in
theorem pinChunk_cases (h : m.pinChunk key = .ok (chunkId, m')) :
    ∃ c, CachePolicy.get m.policy key = some c ∧ 0 ≤ c.refCnt ∧ chunkId = c.chunkId ∧
      ((c.refCnt = 0 ∧ ∃ policy, CachePolicy.markNonEvictable m.policy key = .ok policy ∧
          m' = { m with
            policy := CachePolicy.setRefCnt policy key 1
            numEvictableCacheChunks := m.numEvictableCacheChunks - 1 }) ∨
        (c.refCnt ≠ 0 ∧
          m' = { m with policy := CachePolicy.setRefCnt m.policy key (c.refCnt + 1) })) := by
  unfold pinChunk at h
  split at h
  · cases h
  rename_i c hget
  split at h
  · cases h
  rename_i hready
  have hready : 0 ≤ c.refCnt := by simpa [ChunkStatus.isReady] using hready
  obtain ⟨m₁, hm₁, heq⟩ := map_eq_ok.mp h
  cases heq
  refine ⟨c, hget, hready, rfl, ?_⟩
  split at hm₁
  · next hzero =>
    obtain ⟨policy, hmark, hm₁⟩ := bind_eq_ok.mp hm₁
    split at hm₁
    · cases hm₁
    · cases hm₁
      exact .inl ⟨hzero, policy, hmark, by rw [hzero]; rfl⟩
  · next hne =>
    cases hm₁
    exact .inr ⟨hne, rfl⟩

theorem Consistent.pinChunk (hpin : m.pinChunk key = .ok (chunkId, m')) :
    Consistent m' stores (loads ++ [(key, chunkId)]) := by
  obtain ⟨c, hget, hready, rfl, hcases⟩ := pinChunk_cases hpin
  have hmem := h.get_iff.mp hget
  have hcount : c.refCnt = loads.count (key, c.chunkId) :=
    (h.refCnt_cases hmem).resolve_left (by omega)
  have hnew : (loads ++ [(key, c.chunkId)]).count (key, c.chunkId) =
      loads.count (key, c.chunkId) + 1 := by
    rw [count_append_singleton, if_pos rfl]
  have hother : ∀ k i, k ≠ key →
      (loads ++ [(key, c.chunkId)]).count (k, i) = loads.count (k, i) := by
    intro k i hk
    rw [count_append_singleton, if_neg (fun heq => hk (congrArg Prod.fst heq).symm), Nat.add_zero]
  have hchunk : ∀ e ∈ loads ++ [(key, c.chunkId)], e.1 = key → e.2 = c.chunkId := by
    intro e he hk
    rcases mem_append.mp he with he | he
    · exact (h.load_chunk he (hk ▸ hmem)).2
    · rw [mem_singleton.mp he]
  rcases hcases with ⟨hzero, policy, hmark, rfl⟩ | ⟨hne, rfl⟩
  · obtain ⟨policy', hmark', hvalid, hreplaces⟩ := pin h.valid hmem hzero
    cases hmark.symm.trans hmark'
    exact h.reread hmem (by omega) hvalid hreplaces (by decide) (by simp [hzero]) (by omega)
      hother hchunk
  · obtain ⟨hvalid, hreplaces⟩ := recount (n := c.refCnt + 1) h.valid hmem hne (by omega)
    refine h.reread hmem (by omega) hvalid hreplaces (by omega) ?_ (by omega) hother hchunk
    rw [decide_eq_false hne, decide_eq_false (by omega : ¬ c.refCnt + 1 = 0)]

/-- One load of `key` is complete. -/
def finishLoad (loads : List (K × Nat)) (key : K) : List (K × Nat) :=
  loads.eraseP fun e => decide (e.1 = key)

omit h in
theorem finishLoad_eq_erase {i : Nat} (loads : List (K × Nat))
    (h : ∀ e ∈ loads, e.1 = key → e.2 = i) : finishLoad loads key = loads.erase (key, i) := by
  induction loads with
  | nil => rfl
  | cons e loads ih =>
    unfold finishLoad at ih ⊢
    rw [eraseP_cons, erase_cons, ih fun e he => h e (mem_cons_of_mem _ he)]
    by_cases hk : e.1 = key
    · have hpair : e = (key, i) := Prod.ext hk (h e mem_cons_self hk)
      simp [hpair]
    · have hne : e ≠ (key, i) := fun heq => hk (congrArg Prod.fst heq)
      simp [hk, hne]

omit h in
omit [LawfulCachePolicy π] [DecidableEq K] in
theorem unpinChunk_cases (h : m.unpinChunk key = .ok m') :
    ∃ c, CachePolicy.get m.policy key = some c ∧ 0 < c.refCnt ∧
      ((c.refCnt = 1 ∧ ∃ policy,
          CachePolicy.markEvictable (CachePolicy.setRefCnt m.policy key 0) key = .ok policy ∧
          m' = { m with
            policy := policy
            numEvictableCacheChunks := m.numEvictableCacheChunks + 1 }) ∨
        (c.refCnt ≠ 1 ∧
          m' = { m with policy := CachePolicy.setRefCnt m.policy key (c.refCnt - 1) })) := by
  unfold unpinChunk at h
  split at h
  · cases h
  rename_i c hget
  split at h
  · cases h
  rename_i hpos
  refine ⟨c, hget, by omega, ?_⟩
  split at h
  · next hone =>
    obtain ⟨policy, hmark, rfl⟩ := map_eq_ok.mp h
    rw [hone] at hmark
    exact .inl ⟨by omega, policy, hmark, rfl⟩
  · next hne =>
    cases h
    exact .inr ⟨by omega, rfl⟩

theorem Consistent.unpinChunk (hunpin : m.unpinChunk key = .ok m') :
    Consistent m' stores (finishLoad loads key) := by
  obtain ⟨c, hget, hpos, hcases⟩ := unpinChunk_cases hunpin
  have hmem := h.get_iff.mp hget
  have hcount : c.refCnt = loads.count (key, c.chunkId) :=
    (h.refCnt_cases hmem).resolve_left (by omega)
  have hchunk : ∀ e ∈ loads, e.1 = key → e.2 = c.chunkId :=
    fun e he hk => (h.load_chunk he (hk ▸ hmem)).2
  rw [finishLoad_eq_erase loads hchunk]
  have hless : (loads.erase (key, c.chunkId)).count (key, c.chunkId) =
      loads.count (key, c.chunkId) - 1 := count_erase_self
  have hother : ∀ k i, k ≠ key →
      (loads.erase (key, c.chunkId)).count (k, i) = loads.count (k, i) := by
    intro k i hk
    exact count_erase_of_ne fun heq => hk (congrArg Prod.fst heq)
  have hchunk' : ∀ e ∈ loads.erase (key, c.chunkId), e.1 = key → e.2 = c.chunkId :=
    fun e he hk => hchunk e (mem_of_mem_erase he) hk
  rcases hcases with ⟨hone, policy, hmark, rfl⟩ | ⟨hne, rfl⟩
  · obtain ⟨policy', hmark', hvalid, hreplaces⟩ := unpin h.valid hmem (by omega)
    cases hmark.symm.trans hmark'
    exact h.reread hmem (by omega) hvalid hreplaces (by decide) (by simp [hone]) (by omega)
      hother hchunk'
  · obtain ⟨hvalid, hreplaces⟩ := recount (n := c.refCnt - 1) h.valid hmem (by omega) (by omega)
    refine h.reread hmem (by omega) hvalid hreplaces (by omega) ?_ (by omega) hother hchunk'
    rw [decide_eq_false (by omega : ¬ c.refCnt = 0),
      decide_eq_false (by omega : ¬ c.refCnt - 1 = 0)]

/-! ## Stores -/

/-- The store of `key` is complete. -/
def finishStore (stores : List (K × Nat)) (key : K) : List (K × Nat) :=
  stores.filter fun e => decide (e.1 ≠ key)

omit h in
theorem mem_finishStore {k : K} {i : Nat} :
    (k, i) ∈ finishStore stores key ↔ (k, i) ∈ stores ∧ k ≠ key := by
  simp [finishStore]

omit h in
omit [LawfulCachePolicy π] [DecidableEq K] in
theorem settleChunk_cases (h : m.settleChunk success key = .ok m') :
    (m' = m ∧ ∀ c, CachePolicy.get m.policy key = some c → 0 ≤ c.refCnt) ∨
    ∃ c, CachePolicy.get m.policy key = some c ∧ c.refCnt < 0 ∧
      ((success = true ∧ ∃ policy,
          CachePolicy.markEvictable (CachePolicy.setRefCnt m.policy key 0) key = .ok policy ∧
          m' = { m with
            policy := policy
            numWritePendingChunks := m.numWritePendingChunks - 1
            numEvictableCacheChunks := m.numEvictableCacheChunks + 1 }) ∨
        (success = false ∧ ∃ policy, CachePolicy.remove m.policy key = .ok policy ∧
          m' = { m with
            policy := policy
            numWritePendingChunks := m.numWritePendingChunks - 1
            freeList := m.freeList ++ [c.chunkId] })) := by
  unfold settleChunk at h
  cases hget : CachePolicy.get m.policy key with
  | none =>
    simp only [hget] at h
    exact .inl ⟨(Except.ok.inj h).symm, nofun⟩
  | some c =>
    simp only [hget] at h
    split at h
    · next hready =>
      refine .inl ⟨(Except.ok.inj h).symm, ?_⟩
      rintro c' ⟨rfl⟩
      simpa [ChunkStatus.isReady] using hready
    · next hready =>
      have hneg : c.refCnt < 0 := by simpa [ChunkStatus.isReady] using hready
      refine .inr ⟨c, rfl, hneg, ?_⟩
      cases success with
      | true =>
        obtain ⟨policy, hmark, rfl⟩ := map_eq_ok.mp h
        exact .inl ⟨rfl, policy, hmark, rfl⟩
      | false =>
        obtain ⟨policy, hremove, rfl⟩ := map_eq_ok.mp h
        exact .inr ⟨rfl, policy, hremove, rfl⟩

theorem Consistent.writing (hmem : (key, c) ∈ residents m.policy)
    (hneg : c.refCnt < 0) : c.refCnt = -1 :=
  (h.refCnt_cases hmem).resolve_right (by omega)

theorem Consistent.not_loaded (hmem : (key, c) ∈ residents m.policy) (hwriting : c.refCnt = -1) :
    ∀ e ∈ loads, e.1 ∉ [(key, c)].map Prod.fst := by
  intro e he hk
  rw [map_singleton, mem_singleton] at hk
  exact (h.load_chunk he (hk ▸ hmem)).1 hwriting

/-- A chunk that is being written leaves the policy: for the free list, or for the
chunks whose release is deferred. -/
theorem Consistent.remove {deferred : List Nat} {pending : Int}
    (hmem : (key, c) ∈ residents m.policy) (hwriting : c.refCnt = -1)
    (hvalid : Valid policy) (hperm : (residents m.policy).Perm ((key, c) :: residents policy))
    (hsplit : (freeList ++ deferred).Perm
      (c.chunkId :: (m.freeList ++ m.deferredReleaseChunkIds)))
    (hpending : pending + 1 + m.deferredReleaseChunkIds.length =
      m.numWritePendingChunks + deferred.length) :
    Consistent { m with
      policy := policy
      freeList := freeList
      deferredReleaseChunkIds := deferred
      numWritePendingChunks := pending } (finishStore stores key) loads := by
  refine h.exchange [(key, c)] [] (residents policy) hvalid hperm (List.Perm.refl _) h.allocated
    (fun owned hids => (hsplit.append_right owned).trans hids) ?_ ?_ (fun k i => ?_) nofun
    (fun _ _ _ => rfl) fun e he => .inr ⟨he, h.not_loaded hmem hwriting e he⟩
  · rw [numWithRefCnt_singleton, hwriting]
    rfl
  · rw [numWithRefCnt_singleton, hwriting]
    simp [numWithRefCnt]
    omega
  · rw [mem_finishStore]
    simp

theorem Consistent.settleChunk
    (hsettle : m.settleChunk success key = .ok m') :
    Consistent m' (finishStore stores key) loads := by
  rcases settleChunk_cases hsettle with ⟨rfl, hready⟩ | ⟨c, hget, hneg, hcases⟩
  · have hsame : finishStore stores key = stores := by
      refine filter_eq_self.mpr fun e he => ?_
      have hne : e.1 ≠ key := by
        rintro rfl
        have hget := h.get_iff.mpr ((h.written e.1 e.2).mp he)
        exact absurd (hready _ hget) (by simp)
      simpa using hne
    rw [hsame]
    exact h
  · have hmem := h.get_iff.mp hget
    have hwriting := h.writing hmem hneg
    rcases hcases with ⟨-, policy, hmark, rfl⟩ | ⟨-, policy, hremove, rfl⟩
    · obtain ⟨policy', hmark', hvalid, hreplaces⟩ := unpin h.valid hmem (by omega)
      cases hmark.symm.trans hmark'
      have hout := h.not_loaded hmem hwriting
      obtain ⟨rest, hold, hnew⟩ := hreplaces
      refine h.exchange [(key, c)] [(key, ⟨0, c.chunkId⟩)] rest hvalid hold hnew h.allocated
        (fun _ hids => hids) ?_ ?_ (fun k i => ?_) ?_ (fun _ _ _ => rfl)
        fun e he => .inr ⟨he, hout e he⟩
      · simp [numWithRefCnt_singleton, hwriting]
      · simp [numWithRefCnt_singleton, hwriting]
      · rw [mem_finishStore]
        simp
      · intro k n i hin _
        cases mem_singleton.mp hin
        rw [count_eq_zero.mpr fun hin => hout _ hin mem_cons_self]
        rfl
    · obtain ⟨policy', hremove', hvalid, hperm⟩ := LawfulCachePolicy.remove h.valid hmem (by omega)
      cases hremove.symm.trans hremove'
      refine h.remove hmem hwriting hvalid hperm ?_ (by omega)
      rw [append_assoc]
      exact perm_middle

theorem Consistent.ids_nodup :
    (m.freeList ++ (chunkIds (residents m.policy) ++ m.deferredReleaseChunkIds)).Nodup :=
  h.split.nodup_iff.mpr nodup_range

/-- Two keys never share a chunk. -/
theorem Consistent.owner_unique {k k' : K} {c c' : ChunkStatus}
    (hc : (k, c) ∈ residents m.policy) (hc' : (k', c') ∈ residents m.policy)
    (hid : c.chunkId = c'.chunkId) : k = k' := by
  have hnodup := (nodup_append.mp (nodup_append.mp h.ids_nodup).2.1).1
  exact congrArg Prod.fst (inj_on_of_nodup_map hnodup hc hc' hid)

/-- A chunk whose release is deferred has no key. -/
theorem Consistent.not_deferred
    (hmem : (key, c) ∈ residents m.policy) : c.chunkId ∉ m.deferredReleaseChunkIds := by
  have hdisjoint := (nodup_append.mp (nodup_append.mp h.ids_nodup).2.1).2.2
  exact fun hin => hdisjoint _ (mem_map.mpr ⟨_, hmem, rfl⟩) _ hin rfl

omit h in
omit [LawfulCachePolicy π] [DecidableEq K] in
theorem deferChunk_cases (h : m.deferChunk key = .ok (chunkId, m')) :
    ∃ c policy, CachePolicy.get m.policy key = some c ∧ c.refCnt < 0 ∧ chunkId = c.chunkId ∧
      CachePolicy.remove m.policy key = .ok policy ∧
      m' = { m with
        policy := policy
        deferredReleaseChunkIds := m.deferredReleaseChunkIds.insert c.chunkId } := by
  unfold deferChunk at h
  split at h
  · cases h
  rename_i c hget
  split at h
  · cases h
  rename_i hready
  obtain ⟨policy, hremove, heq⟩ := map_eq_ok.mp h
  cases heq
  exact ⟨c, policy, hget, by simpa [ChunkStatus.isReady] using hready, rfl, hremove, rfl⟩

theorem Consistent.deferChunk (hdefer : m.deferChunk key = .ok (chunkId, m')) :
    Consistent m' (finishStore stores key) loads := by
  obtain ⟨c, policy, hget, hneg, rfl, hremove, rfl⟩ := deferChunk_cases hdefer
  have hmem := h.get_iff.mp hget
  have hwriting := h.writing hmem hneg
  obtain ⟨policy', hremove', hvalid, hperm⟩ := LawfulCachePolicy.remove h.valid hmem (by omega)
  cases hremove.symm.trans hremove'
  have hout := h.not_deferred hmem
  refine h.remove hmem hwriting hvalid hperm ?_ ?_
  · rw [insert_of_not_mem hout]
    exact perm_middle
  · rw [insert_of_not_mem hout, length_cons]
    omega

omit h in
omit [LawfulCachePolicy π] [DecidableEq K] [CachePolicy π R K] in
theorem releaseChunk_cases (h : m.releaseChunk chunkId = .ok m') :
    chunkId ∈ m.deferredReleaseChunkIds ∧ m' = { m with
      deferredReleaseChunkIds := m.deferredReleaseChunkIds.erase chunkId
      numWritePendingChunks := m.numWritePendingChunks - 1
      freeList := m.freeList ++ [chunkId] } := by
  unfold releaseChunk at h
  split at h
  · cases h
  · next hin => exact ⟨not_not.mp hin, (Except.ok.inj h).symm⟩

theorem Consistent.releaseChunk
    (hrelease : m.releaseChunk chunkId = .ok m') : Consistent m' stores loads := by
  obtain ⟨hin, rfl⟩ := releaseChunk_cases hrelease
  have herase := perm_cons_erase hin
  refine ⟨h.valid, h.allocated, ?_, h.evictable, ?_, h.written, h.read, h.loaded⟩
  · refine List.Perm.trans (perm_iff_count.mpr fun i => ?_) h.split
    have hcount := herase.count_eq i
    simp only [count_append, count_cons, count_nil] at hcount ⊢
    omega
  · have hpending := h.pending
    have hlength := herase.length_eq
    rw [length_cons] at hlength
    show m.numWritePendingChunks - 1 = numWithRefCnt (-1) (residents m.policy) +
      ((m.deferredReleaseChunkIds.erase chunkId).length : Int)
    omega

end

/-! ## Room for new chunks -/

/-- The second pool holds the chunks of the first one, and differs in what it knows of the
requests only. -/
structure SamePool (m m' : CPUOffloadingManager R K π) : Prop where
  valid : Valid m'.policy
  residents : (residents m'.policy).Perm (residents m.policy)
  numChunks : m'.numChunks = m.numChunks
  numAllocatedChunks : m'.numAllocatedChunks = m.numAllocatedChunks
  freeList : m'.freeList = m.freeList
  evictable : m'.numEvictableCacheChunks = m.numEvictableCacheChunks
  pending : m'.numWritePendingChunks = m.numWritePendingChunks
  deferred : m'.deferredReleaseChunkIds = m.deferredReleaseChunkIds

omit [DecidableEq K] in
theorem SamePool.of_policy (hvalid : Valid policy)
    (hperm : (LawfulCachePolicy.residents policy).Perm (LawfulCachePolicy.residents m.policy))
    (counts : Option (Dict K Nat)) (access : R → Option (CacheAccess K)) :
    SamePool m { m with policy := policy, counts := counts, access := access } :=
  ⟨hvalid, hperm, rfl, rfl, rfl, rfl, rfl, rfl⟩

omit [DecidableEq K] in
theorem SamePool.trans {m₁ m₂ m₃ : CPUOffloadingManager R K π} (h : SamePool m₁ m₂)
    (h' : SamePool m₂ m₃) : SamePool m₁ m₃ where
  valid := h'.valid
  residents := h'.residents.trans h.residents
  numChunks := h'.numChunks.trans h.numChunks
  numAllocatedChunks := h'.numAllocatedChunks.trans h.numAllocatedChunks
  freeList := h'.freeList.trans h.freeList
  evictable := h'.evictable.trans h.evictable
  pending := h'.pending.trans h.pending
  deferred := h'.deferred.trans h.deferred

omit [DecidableEq K] in
theorem SamePool.get_eq (h : SamePool m m') (hvalid : Valid m.policy) (key : K) :
    CachePolicy.get m'.policy key = CachePolicy.get m.policy key := by
  ext c
  rw [LawfulCachePolicy.get_iff h.valid, LawfulCachePolicy.get_iff hvalid, h.residents.mem_iff]

theorem Consistent.of_same (h : Consistent m stores loads) (hsame : SamePool m m') :
    Consistent m' stores loads := by
  have hids : (chunkIds (residents m'.policy)).Perm (chunkIds (residents m.policy)) :=
    hsame.residents.map _
  refine ⟨hsame.valid, ?_, ?_, ?_, ?_, ?_, ?_, ?_⟩
  · rw [hsame.numAllocatedChunks, hsame.numChunks]
    exact h.allocated
  · rw [hsame.freeList, hsame.deferred, hsame.numAllocatedChunks]
    exact ((hids.append_right _).append_left _).trans h.split
  · rw [hsame.evictable, numWithRefCnt_perm 0 hsame.residents]
    exact h.evictable
  · rw [hsame.pending, hsame.deferred, numWithRefCnt_perm (-1) hsame.residents]
    exact h.pending
  · intro k i
    rw [h.written, hsame.residents.mem_iff]
  · intro k n i hin hne
    exact h.read k n i (hsame.residents.mem_iff.mp hin) hne
  · intro e he
    obtain ⟨n, hne, hin⟩ := h.loaded e he
    exact ⟨n, hne, hsame.residents.mem_iff.mpr hin⟩

theorem observeKeys_total (groupIdx : K → Nat) (keys : List K) {state : CacheAccess K}
    (h : state.finished = false) :
    ∃ r, CPUOffloadingManager.observeKeys groupIdx keys state = .ok r := by
  have hstep : ∀ key ∈ keys, ∀ r : CacheAccess K × List K, r.1.finished = false →
      ∃ r', (if key ∈ r.1.seenKeys then Except.ok (ε := Fault) (r.1, r.2)
        else if r.1.finished then .error .assertionError
        else .ok ({ r.1 with
          keyGroups := r.1.keyGroups.insert (groupIdx key)
            ((r.1.keyGroups.get? (groupIdx key)).getD [] ++ [key])
          seenKeys := insert key r.1.seenKeys }, r.2 ++ [key])) = .ok r' ∧
        r'.1.finished = false := by
    intro key _ r hr
    split
    · exact ⟨_, rfl, hr⟩
    · rw [hr]
      exact ⟨_, rfl, hr⟩
  obtain ⟨r, hr, -⟩ := foldlM_total (s := (state, [])) hstep h
  exact ⟨r, hr⟩

omit [DecidableEq K] [CachePolicy π R K] [LawfulCachePolicy π] in
theorem getRequestCacheAccess_generation (m : CPUOffloadingManager R K π) (r : R) :
    (m.getRequestCacheAccess r).cacheGeneration = m.cacheGeneration := by
  unfold getRequestCacheAccess
  split
  · split
    · assumption
    · rfl
  · rfl

section Access

variable [DecidableEq R] {groupIdx : K → Nat} {keys reusedKeys : List K} {ctx : ReqContext R K}

section

variable (hvalid : Valid m.policy)
include hvalid

theorem recordRequestCacheAccess_same
    (h : m.recordRequestCacheAccess groupIdx keys ctx reusedKeys = .ok m') : SamePool m m' := by
  obtain ⟨⟨state, newKeys⟩, -, h⟩ := bind_eq_ok.mp h
  obtain ⟨policy, hpolicy, rfl⟩ := map_eq_ok.mp h
  split at hpolicy
  · cases hpolicy
    exact .of_policy hvalid (List.Perm.refl _) _ _
  obtain ⟨policy', haccess, hvalid', hperm⟩ :=
    LawfulCachePolicy.onRequestAccess newKeys ctx hvalid
  cases hpolicy.symm.trans haccess
  exact .of_policy hvalid' hperm _ _

theorem recordRequestCacheAccess_total
    (hlive : (m.getRequestCacheAccess ctx.reqId).finished = false) :
    ∃ m', m.recordRequestCacheAccess groupIdx keys ctx reusedKeys = .ok m' := by
  obtain ⟨⟨state, newKeys⟩, hobserve⟩ := observeKeys_total groupIdx keys hlive
  unfold CPUOffloadingManager.recordRequestCacheAccess
  rw [hobserve]
  by_cases hnew : newKeys = []
  · exact ⟨_, by simp only [Except.bind, if_pos hnew]; rfl⟩
  · obtain ⟨policy', haccess, -⟩ := LawfulCachePolicy.onRequestAccess newKeys ctx hvalid
    exact ⟨_, by simp only [Except.bind, if_neg hnew, haccess]; rfl⟩

theorem onRequestFinished_same (h : m.onRequestFinished ctx = .ok m') : SamePool m m' := by
  unfold CPUOffloadingManager.onRequestFinished at h
  split at h
  · cases h
    exact .of_policy hvalid (List.Perm.refl _) _ _
  split at h
  · cases h
    exact .of_policy hvalid (List.Perm.refl _) _ _
  obtain ⟨policy, hpolicy, rfl⟩ := map_eq_ok.mp h
  obtain ⟨policy', hfinished, hvalid', hperm⟩ :=
    LawfulCachePolicy.onRequestFinished _ _ _ ctx hvalid
  cases hpolicy.symm.trans hfinished
  exact .of_policy hvalid' hperm _ _

theorem onRequestFinished_total : ∃ m', m.onRequestFinished ctx = .ok m' := by
  unfold CPUOffloadingManager.onRequestFinished
  split
  · exact ⟨_, rfl⟩
  split
  · exact ⟨_, rfl⟩
  · obtain ⟨policy', hfinished, -⟩ := LawfulCachePolicy.onRequestFinished _ _ _ ctx hvalid
    exact ⟨_, map_eq_ok.mpr ⟨_, hfinished, rfl⟩⟩

omit [DecidableEq R] [DecidableEq K] in
theorem storeMisses_same (misses : List K) (counts : Option (Dict K Nat))
    (access : R → Option (CacheAccess K)) :
    SamePool m { m with
      policy := if misses = [] then m.policy else CachePolicy.onStoreMiss m.policy misses
      counts := counts
      access := access } := by
  split
  · exact .of_policy hvalid (List.Perm.refl _) _ _
  · obtain ⟨hvalid', hperm⟩ := LawfulCachePolicy.onStoreMiss misses hvalid
    exact .of_policy hvalid' hperm _ _

theorem admitKeys_spec (h : m.admitKeys groupIdx keys ctx = .ok (keysToStore, m')) :
    SamePool m m' ∧ keysToStore.Sublist keys ∧
      ∀ key ∈ keysToStore, CachePolicy.get m.policy key = none := by
  obtain ⟨m₂, hrecord, heq⟩ := map_eq_ok.mp h
  cases heq
  have hsame := storeMisses_same hvalid
  have hmissing : (keys.filter fun key => (CachePolicy.get m.policy key).isNone).Sublist keys :=
    filter_sublist
  have hnone : ∀ key ∈ keys.filter fun key => (CachePolicy.get m.policy key).isNone,
      CachePolicy.get m.policy key = none := by
    intro key hkey
    simpa using (mem_filter.mp hkey).2
  refine ⟨(hsame _ _ _).trans (recordRequestCacheAccess_same (hsame _ _ _).valid hrecord), ?_⟩
  split
  · exact ⟨hmissing, hnone⟩
  · exact ⟨filter_sublist.trans hmissing, fun key hkey => hnone key (mem_filter.mp hkey).1⟩

theorem admitKeys_total (hlive : (m.getRequestCacheAccess ctx.reqId).finished = false) :
    ∃ r, m.admitKeys groupIdx keys ctx = .ok r := by
  have hkept : ∀ (policy : π) counts (state : CacheAccess K), Valid policy →
      state.cacheGeneration = m.cacheGeneration → state.finished = false → ∀ keys reused, ∃ m',
        recordRequestCacheAccess groupIdx (setAccess { m with
          policy := policy, counts := counts } ctx.reqId state) keys ctx reused = .ok m' := by
    intro policy counts state hvalid hgeneration hfinished keys reused
    refine recordRequestCacheAccess_total hvalid ?_
    simp [setAccess, getRequestCacheAccess, hgeneration, hfinished]
  have hgeneration := getRequestCacheAccess_generation m ctx.reqId
  refine ⟨_, map_eq_ok.mpr ⟨_, (hkept _ _ _ ?_ ?_ ?_ _ _).choose_spec, rfl⟩⟩
  · exact (storeMisses_same hvalid _ none fun _ => none).valid
  · split <;> exact hgeneration
  · split <;> exact hlive

end

end Access

omit [LawfulCachePolicy π] [DecidableEq K] [CachePolicy π R K] in
theorem freeChunks_eq (evicted : List (K × ChunkStatus)) (m : CPUOffloadingManager R K π) :
    evicted.foldl (fun m e => m.freeChunk e.2.chunkId) m =
      { m with freeList := m.freeList ++ chunkIds evicted } := by
  induction evicted generalizing m with
  | nil => simp [chunkIds]
  | cons e evicted ih =>
    rw [foldl_cons, ih]
    simp [chunkIds, freeChunk]

/-- Chunks without a reference leave the policy for the free list. -/
theorem Consistent.evict {victims : List (K × ChunkStatus)}
    (h : Consistent m stores loads) (hvalid : Valid policy)
    (hperm : (residents m.policy).Perm (victims ++ residents policy))
    (hidle : ∀ e ∈ victims, e.2.refCnt = 0) :
    Consistent { m with
      policy := policy
      numEvictableCacheChunks := m.numEvictableCacheChunks - victims.length
      freeList := m.freeList ++ chunkIds victims } stores loads := by
  have hkeep : ∀ k d, (k, d) ∈ residents m.policy → d.refCnt ≠ 0 → k ∉ victims.map Prod.fst := by
    intro k d hin hne hk
    obtain ⟨⟨_, d'⟩, hd', rfl⟩ := mem_map.mp hk
    rw [h.unique hin (hperm.mem_iff.mpr (mem_append_left _ hd'))] at hne
    exact hne (hidle _ hd')
  refine h.exchange victims [] (residents policy) hvalid hperm (List.Perm.refl _) h.allocated
    (fun owned hids => ?_) ?_ ?_ (fun k i => ?_) nofun (fun _ _ _ => rfl) fun e he => .inr ⟨he, ?_⟩
  · refine List.Perm.trans (perm_iff_count.mpr fun i => ?_) hids
    simp only [count_append, chunkIds, map_nil, count_nil]
    omega
  · have hzero : numWithRefCnt 0 victims = victims.length :=
      countP_eq_length.mpr fun e he => decide_eq_true (hidle e he)
    rw [hzero, Int.sub_add_cancel]
    exact (Int.add_zero _).symm
  · have hzero : numWithRefCnt (-1) victims = 0 := by
      refine countP_eq_zero.mpr fun e he => ?_
      simp [hidle e he]
    rw [hzero]
    rfl
  · simp only [not_mem_nil, false_or]
    exact ⟨fun hin => ⟨hin, hkeep k _ ((h.written k i).mp hin) (by simp)⟩, fun hin => hin.1⟩
  · obtain ⟨n, hne, hin⟩ := h.loaded e he
    have hcount := h.read _ _ _ hin hne
    have hpos : 0 < loads.count (e.1, e.2) := count_pos_iff.mpr he
    exact hkeep _ _ hin (by simp only; omega)

omit [DecidableEq K] in
/-- What `makeRoom` does: there is room, or there is none and nothing has changed, or
chunks without a reference have left. -/
theorem makeRoom_cases {n : Nat} {protectedKeys : Finset K} {evictedKeys : Option (List K)}
    (hvalid : Valid m.policy) (h : m.makeRoom n protectedKeys = .ok (evictedKeys, m')) :
    (evictedKeys = some [] ∧ m' = m ∧ (n : Int) ≤ m.getNumFreeChunks) ∨
    (evictedKeys = none ∧ SamePool m m') ∨
    ∃ victims policy, evictedKeys = some (victims.map Prod.fst) ∧ Valid policy ∧
      (residents m.policy).Perm (victims ++ residents policy) ∧
      (victims.length : Int) = n - m.getNumFreeChunks ∧
      (∀ e ∈ victims, e.2.refCnt = 0 ∧ e.1 ∉ protectedKeys) ∧
      m' = { m with
        policy := policy
        numEvictableCacheChunks := m.numEvictableCacheChunks - victims.length
        freeList := m.freeList ++ chunkIds victims } := by
  unfold makeRoom at h
  dsimp only at h
  split at h
  · cases h
    exact .inl ⟨rfl, rfl, by omega⟩
  split at h
  · cases h
    exact .inr (.inl ⟨rfl, .of_policy hvalid (List.Perm.refl _) _ _⟩)
  obtain ⟨⟨victims, policy⟩, hevict, h⟩ := bind_eq_ok.mp h
  obtain ⟨victims', policy', hevict', hvalid', hperm, hvictims⟩ :=
    LawfulCachePolicy.evict (n - m.getNumFreeChunks).toNat protectedKeys hvalid
  cases hevict.symm.trans hevict'
  cases victims with
  | none =>
    cases h
    exact .inr (.inl ⟨rfl, .of_policy hvalid' hperm.symm _ _⟩)
  | some victims =>
    obtain ⟨hlength, hidle⟩ := hvictims victims rfl
    dsimp only at h
    split at h
    · cases h
    cases h
    refine .inr (.inr ⟨victims, policy, rfl, hvalid', hperm, by omega, hidle, ?_⟩)
    rw [freeChunks_eq]

theorem makeRoom_total (h : Consistent m stores loads) (n : Nat) (protectedKeys : Finset K) :
    ∃ r, m.makeRoom n protectedKeys = .ok r := by
  unfold makeRoom
  dsimp only
  split
  · exact ⟨_, rfl⟩
  split
  · exact ⟨_, rfl⟩
  obtain ⟨victims, policy, hevict, hvalid, hperm, hvictims⟩ :=
    LawfulCachePolicy.evict (n - m.getNumFreeChunks).toNat protectedKeys h.valid
  rw [hevict]
  cases victims with
  | none => exact ⟨_, rfl⟩
  | some victims =>
    obtain ⟨hlength, hidle⟩ := hvictims victims rfl
    simp only [Except.bind]
    rw [if_neg (by omega)]
    exact ⟨_, rfl⟩

/-! ## New chunks -/

theorem take_append_take_reverse_perm {α : Type} (l : List α) (n : Nat) :
    (l.reverse.take n ++ l.take (l.length - n)).Perm l := by
  rw [take_reverse]
  refine (perm_append_comm).trans ?_
  refine ((reverse_perm _).append_left _).trans ?_
  rw [take_append_drop]

theorem range_append (a b : Nat) : List.range (a + b) = List.range a ++ List.range' a b := by
  rw [range_eq_range', range_eq_range', ← range'_append_1, Nat.zero_add]

omit [LawfulCachePolicy π] [DecidableEq K] [CachePolicy π R K] in
theorem allocateChunks_cases {n : Nat} {chunks : List ChunkStatus}
    (hallocated : m.numAllocatedChunks ≤ m.numChunks)
    (h : m.allocateChunks n = .ok (chunks, m')) :
    ∃ ids freeList numAllocated, chunks = ids.map ChunkStatus.new ∧ ids.length = n ∧
      numAllocated ≤ m.numChunks ∧
      (∀ owned : List Nat, (m.freeList ++ owned).Perm (List.range m.numAllocatedChunks) →
        (ids ++ (freeList ++ owned)).Perm (List.range numAllocated)) ∧
      m' = { m with
        numAllocatedChunks := numAllocated
        freeList := freeList } := by
  unfold allocateChunks at h
  dsimp only at h
  split at h
  · cases h
  rename_i henough
  cases h
  refine ⟨_, _, _, rfl, ?_, ?_, ?_, rfl⟩
  · rw [length_append, length_range', length_take, length_reverse]
    omega
  · omega
  intro owned hperm
  rw [range_append]
  refine perm_iff_count.mpr fun i => ?_
  have hfree := (take_append_take_reverse_perm m.freeList
    (n - min n (m.numChunks - m.numAllocatedChunks))).count_eq i
  have hold := hperm.count_eq i
  simp only [count_append] at hfree hold ⊢
  omega

omit [DecidableEq K] [CachePolicy π R K] [LawfulCachePolicy π] in
theorem allocateChunks_total {n : Nat} (hallocated : m.numAllocatedChunks ≤ m.numChunks)
    (h : (n : Int) ≤ m.getNumFreeChunks) : ∃ r, m.allocateChunks n = .ok r := by
  unfold allocateChunks getNumFreeChunks at *
  rw [if_neg (by omega)]
  exact ⟨_, rfl⟩

omit [DecidableEq K] in
theorem insertChunks_ok (ctx : ReqContext R K) (l : List (K × ChunkStatus))
    {p : π} (hvalid : Valid p)
    (hnodup : (l.map Prod.fst).Nodup)
    (hnew : ∀ e ∈ l, CachePolicy.get p e.1 = none ∧ e.2.refCnt ≠ 0) :
    ∃ p', l.foldlM (fun p e => CachePolicy.insert p e.1 e.2 ctx) p = .ok p' ∧ Valid p' ∧
      (residents p').Perm (l ++ residents p) := by
  induction l generalizing p with
  | nil => exact ⟨p, rfl, hvalid, List.Perm.refl _⟩
  | cons e l ih =>
    obtain ⟨hnone, href⟩ := hnew e mem_cons_self
    obtain ⟨p₁, hinsert, hvalid₁, hperm₁⟩ := LawfulCachePolicy.insert ctx hvalid hnone href
    rw [map_cons, nodup_cons] at hnodup
    have hnew₁ : ∀ e' ∈ l, CachePolicy.get p₁ e'.1 = none ∧ e'.2.refCnt ≠ 0 := by
      intro e' he'
      obtain ⟨hnone', href'⟩ := hnew e' (mem_cons_of_mem _ he')
      refine ⟨Option.eq_none_iff_forall_ne_some.mpr fun c hget => ?_, href'⟩
      have hin := hperm₁.mem_iff.mp ((LawfulCachePolicy.get_iff hvalid₁).mp hget)
      rcases mem_cons.mp hin with heq | hin
      · exact hnodup.1 (mem_map.mpr ⟨e', he', (Prod.mk.inj heq).1⟩)
      · rw [(LawfulCachePolicy.get_iff hvalid).mpr hin] at hnone'
        cases hnone'
    obtain ⟨p₂, hfold, hvalid₂, hperm₂⟩ := ih hvalid₁ hnodup.2 hnew₁
    refine ⟨p₂, ?_, hvalid₂, ?_⟩
    · rw [foldlM_cons, hinsert]
      exact hfold
    · exact hperm₂.trans ((hperm₁.append_left l).trans perm_middle)

omit [DecidableEq K] in
theorem mem_zip_new {k : K} :
    (k, d) ∈ keys.zip (ids.map ChunkStatus.new) ↔ ∃ i, d = ⟨-1, i⟩ ∧ (k, i) ∈ keys.zip ids := by
  rw [zip_map_right, mem_map]
  constructor
  · rintro ⟨⟨k', i⟩, hin, heq⟩
    cases heq
    exact ⟨i, rfl, hin⟩
  · rintro ⟨i, rfl, hin⟩
    exact ⟨(k, i), hin, rfl⟩

omit [DecidableEq K] in
theorem insertNew_ok (ctx : ReqContext R K) {p : π}
    (hvalid : Valid p) (hlength : ids.length = keys.length) (hnodup : keys.Nodup)
    (hnew : ∀ key ∈ keys, CachePolicy.get p key = none) :
    ∃ p', (keys.zip (ids.map ChunkStatus.new)).foldlM
        (fun p e => CachePolicy.insert p e.1 e.2 ctx) p = .ok p' ∧ Valid p' ∧
      (residents p').Perm (keys.zip (ids.map ChunkStatus.new) ++ residents p) := by
  have hkeys : (keys.zip (ids.map ChunkStatus.new)).map Prod.fst = keys :=
    map_fst_zip (by rw [length_map, hlength])
  refine insertChunks_ok ctx _ hvalid (by rwa [hkeys]) ?_
  rintro ⟨k, d⟩ hin
  obtain ⟨i, rfl, hin⟩ := mem_zip_new.mp hin
  exact ⟨hnew k (of_mem_zip hin).1, by simp⟩

omit [DecidableEq K] in
theorem numWithRefCnt_zip_new (n : Int) (keys : List K) (ids : List Nat)
    (hlength : ids.length = keys.length) :
    numWithRefCnt n (keys.zip (ids.map ChunkStatus.new)) = if n = -1 then keys.length else 0 := by
  split
  · next hn =>
    have hall : ∀ e ∈ keys.zip (ids.map ChunkStatus.new), decide (e.2.refCnt = n) = true := by
      rintro ⟨k, d⟩ hin
      obtain ⟨i, rfl, -⟩ := mem_zip_new.mp hin
      simp [hn]
    rw [numWithRefCnt, countP_eq_length.mpr hall]
    simp [hlength]
  · next hn =>
    refine countP_eq_zero.mpr ?_
    rintro ⟨k, d⟩ hin
    obtain ⟨i, rfl, -⟩ := mem_zip_new.mp hin
    simpa using Ne.symm hn

/-- Keys that the policy does not hold enter it with free chunks, to be written. -/
theorem Consistent.insert
    {numAllocated : Nat} (access : R → Option (CacheAccess K)) (h : Consistent m stores loads)
    (hlength : ids.length = keys.length) (hvalid : Valid policy)
    (hperm : (residents policy).Perm (keys.zip (ids.map ChunkStatus.new) ++ residents m.policy))
    (hallocated : numAllocated ≤ m.numChunks)
    (hsplit : (ids ++ (freeList ++ (chunkIds (residents m.policy) ++
      m.deferredReleaseChunkIds))).Perm (List.range numAllocated)) :
    Consistent { m with
      policy := policy
      access := access
      freeList := freeList
      numAllocatedChunks := numAllocated
      numWritePendingChunks := m.numWritePendingChunks + keys.length }
      (stores ++ keys.zip ids) loads := by
  have hids : chunkIds (keys.zip (ids.map ChunkStatus.new)) = ids := by
    rw [chunkIds, zip_map_right, map_map]
    exact map_snd_zip hlength.le
  refine h.exchange [] (keys.zip (ids.map ChunkStatus.new)) (residents m.policy) hvalid
    (List.Perm.refl _) hperm hallocated (fun owned hrange => ?_) ?_ ?_ (fun k i => ?_) ?_
    (fun _ _ _ => rfl) fun e he => .inr ⟨he, by simp⟩
  · refine List.Perm.trans (perm_iff_count.mpr fun i => ?_) hsplit
    have hcount := (hrange.trans h.split.symm).count_eq i
    rw [hids]
    simp only [count_append, chunkIds, map_nil, count_nil] at hcount ⊢
    omega
  · rw [numWithRefCnt_zip_new 0 keys ids hlength, if_neg (by decide)]
    rfl
  · rw [numWithRefCnt_zip_new (-1) keys ids hlength, if_pos rfl]
    simp [numWithRefCnt]
  · rw [mem_append, mem_zip_new, or_comm]
    simp
  · intro k n i hin hne
    obtain ⟨i', heq, -⟩ := mem_zip_new.mp hin
    exact absurd (ChunkStatus.mk.inj heq).1 hne

theorem placeChunks_cases [DecidableEq R] {ctx : ReqContext R K}
    (h : Consistent m stores loads) (hnodup : keysToStore.Nodup)
    (hnew : ∀ key ∈ keysToStore, CachePolicy.get m.policy key = none)
    (hplace : m.placeChunks keysToStore ctx = .ok (ids, m')) :
    ids.length = keysToStore.length ∧
      m'.deferredReleaseChunkIds = m.deferredReleaseChunkIds ∧
      Consistent m' (stores ++ keysToStore.zip ids) loads := by
  obtain ⟨⟨chunks, m₁⟩, halloc, hplace⟩ := bind_eq_ok.mp hplace
  obtain ⟨ids', freeList, numAllocated, rfl, hlength, hle, hperm, rfl⟩ :=
    allocateChunks_cases h.allocated halloc
  dsimp only at hplace
  split at hplace
  · cases hplace
  obtain ⟨policy, hfold, heq⟩ := map_eq_ok.mp hplace
  obtain ⟨hids, rfl⟩ := Prod.mk.inj heq
  have hids : ids' = ids := by
    rw [← hids, map_map]
    exact (map_id _).symm
  subst hids
  obtain ⟨policy', hfold', hvalid, hres⟩ := insertNew_ok ctx h.valid hlength hnodup hnew
  cases hfold.symm.trans hfold'
  exact ⟨hlength, rfl, h.insert _ hlength hvalid hres hle (hperm _ h.split)⟩

theorem placeChunks_total [DecidableEq R] {ctx : ReqContext R K}
    (h : Consistent m stores loads) (hroom : (keysToStore.length : Int) ≤ m.getNumFreeChunks)
    (hnodup : keysToStore.Nodup)
    (hnew : ∀ key ∈ keysToStore, CachePolicy.get m.policy key = none) :
    ∃ r, m.placeChunks keysToStore ctx = .ok r := by
  obtain ⟨⟨chunks, m₁⟩, halloc⟩ := allocateChunks_total h.allocated hroom
  obtain ⟨ids, freeList, numAllocated, rfl, hlength, -, -, rfl⟩ :=
    allocateChunks_cases h.allocated halloc
  obtain ⟨policy, hfold, -⟩ := insertNew_ok ctx h.valid hlength hnodup hnew
  unfold placeChunks
  rw [halloc]
  simp only [Except.bind, length_map, hlength, ne_eq, not_true_eq_false, if_false, hfold]
  exact ⟨_, rfl⟩

end Pool

end Vllm.Offload
