import Vllm.Offload.Policies

/-!
# What the manager relies on in a cache policy

`LawfulCachePolicy` says what each call of a policy does to the chunks that it holds.
A policy lists the chunks that it holds (`residents`), and a call is described by how
that list changes up to its order: a chunk enters, leaves or gets another reference
count, and an eviction takes out chunks without a reference only. Both policies are
lawful.
-/

namespace Vllm.Offload

open Library List

/-- One chunk of `l` gets another status, up to the order. -/
def Replaces {K : Type} (l l' : List (K × ChunkStatus)) (key : K) (c c' : ChunkStatus) : Prop :=
  ∃ rest, l.Perm ((key, c) :: rest) ∧ l'.Perm ((key, c') :: rest)

/-- The write of another status into a dictionary of chunks. -/
theorem Replaces.of_insert {K : Type} [DecidableEq K] {d : Dict K ChunkStatus} {key : K}
    {c : ChunkStatus} (h : d.get? key = some c) (c' : ChunkStatus) :
    Replaces d.entries (d.insert key c').entries key c c' :=
  ⟨_, Dict.perm_cons_erase h, d.insert_perm_cons_erase key c'⟩

class LawfulCachePolicy (π : Type) {R K : outParam Type} [CachePolicy π R K] where
  Valid : π → Prop
  /-- The chunks that the policy holds, with their keys. -/
  residents : π → List (K × ChunkStatus)
  nodup {p : π} : Valid p → ((residents p).map Prod.fst).Nodup
  get_iff {p : π} {key : K} {c : ChunkStatus} : Valid p →
    (CachePolicy.get p key = some c ↔ (key, c) ∈ residents p)
  /-- A chunk without a reference gets its first one. -/
  pin {p : π} {key : K} {c : ChunkStatus} : Valid p → (key, c) ∈ residents p → c.refCnt = 0 →
    ∃ p', CachePolicy.markNonEvictable p key = .ok p' ∧ Valid (CachePolicy.setRefCnt p' key 1) ∧
      Replaces (residents p) (residents (CachePolicy.setRefCnt p' key 1)) key c ⟨1, c.chunkId⟩
  recount {p : π} {key : K} {c : ChunkStatus} {n : Int} : Valid p → (key, c) ∈ residents p →
    c.refCnt ≠ 0 → n ≠ 0 → Valid (CachePolicy.setRefCnt p key n) ∧
      Replaces (residents p) (residents (CachePolicy.setRefCnt p key n)) key c ⟨n, c.chunkId⟩
  /-- A chunk loses its last reference, or its write is complete. -/
  unpin {p : π} {key : K} {c : ChunkStatus} : Valid p → (key, c) ∈ residents p → c.refCnt ≠ 0 →
    ∃ p', CachePolicy.markEvictable (CachePolicy.setRefCnt p key 0) key = .ok p' ∧ Valid p' ∧
      Replaces (residents p) (residents p') key c ⟨0, c.chunkId⟩
  insert {p : π} {key : K} {c : ChunkStatus} (ctx : ReqContext R K) : Valid p →
    CachePolicy.get p key = none → c.refCnt ≠ 0 →
    ∃ p', CachePolicy.insert p key c ctx = .ok p' ∧ Valid p' ∧
      (residents p').Perm ((key, c) :: residents p)
  remove {p : π} {key : K} {c : ChunkStatus} : Valid p → (key, c) ∈ residents p → c.refCnt ≠ 0 →
    ∃ p', CachePolicy.remove p key = .ok p' ∧ Valid p' ∧
      (residents p).Perm ((key, c) :: residents p')
  onStoreMiss {p : π} (keys : List K) : Valid p → Valid (CachePolicy.onStoreMiss p keys) ∧
    (residents (CachePolicy.onStoreMiss p keys)).Perm (residents p)
  onRequestAccess {p : π} (keys : List K) (ctx : ReqContext R K) : Valid p →
    ∃ p', CachePolicy.onRequestAccess p keys ctx = .ok p' ∧ Valid p' ∧
      (residents p').Perm (residents p)
  onRequestFinished {p : π} (keyGroups : List (List K)) (inserted reused : Finset K)
    (ctx : ReqContext R K) : Valid p →
    ∃ p', CachePolicy.onRequestFinished p keyGroups inserted reused ctx = .ok p' ∧ Valid p' ∧
      (residents p').Perm (residents p)
  /-- All or nothing: `n` chunks without a reference leave, or none does. -/
  evict {p : π} (n : Nat) (protectedKeys : Finset K) : Valid p →
    ∃ victims p', CachePolicy.evict p n protectedKeys = .ok (victims, p') ∧ Valid p' ∧
      (residents p).Perm (victims.getD [] ++ residents p') ∧
      ∀ l ∈ victims, l.length = n ∧ ∀ e ∈ l, e.2.refCnt = 0 ∧ e.1 ∉ protectedKeys
  clear (p : π) : Valid (CachePolicy.clear p) ∧ residents (CachePolicy.clear p) = []

/-! ## LRU -/

namespace LRUCachePolicy

variable {R K : Type} [DecidableEq K] {p p' : LRUCachePolicy R K} {key : K}
  {c : ChunkStatus} {acc : LRUCachePolicy R K × List K}

/-- Every chunk has a rank, and the evictable keys are those without a reference. -/
structure Valid (p : LRUCachePolicy R K) : Prop where
  ranked : ∀ key ∈ p.chunks.keys, (p.ranks.get? key).isSome
  evictable_nodup : p.evictable.Nodup
  mem_evictable : ∀ key, key ∈ p.evictable ↔ ∃ c, p.chunks.get? key = some c ∧ c.refCnt = 0

theorem Valid.ranked_of_evictable (h : p.Valid) (hkey : key ∈ p.evictable) :
    (p.ranks.get? key).isSome := by
  obtain ⟨c, hget, -⟩ := (h.mem_evictable key).mp hkey
  refine h.ranked key ?_
  rw [Dict.mem_keys_iff, hget]
  rfl

/-! ### Changes of the heap -/

theorem entryOf_ok (h : (p.ranks.get? key).isSome) : ∃ e, p.entryOf key = .ok e := by
  unfold entryOf
  obtain ⟨rank, hrank⟩ := Option.isSome_iff_exists.mp h
  exact ⟨(rank, key), by rw [hrank]⟩

theorem pushEvictable_ok (h : (p.ranks.get? key).isSome) :
    ∃ heap, p.pushEvictable key = .ok { p with heap := heap } := by
  obtain ⟨e, he⟩ := entryOf_ok h
  exact ⟨e :: p.heap, by rw [pushEvictable, he]; rfl⟩

theorem rebuildHeap_ok (h : ∀ key ∈ p.evictable, (p.ranks.get? key).isSome) :
    ∃ heap, p.rebuildHeap = .ok { p with heap := heap } := by
  obtain ⟨heap, hheap⟩ := mapM_total fun key hkey => entryOf_ok (h key hkey)
  exact ⟨heap, by rw [rebuildHeap, hheap]; rfl⟩

theorem maybeCompactHeap_ok (h : ∀ key ∈ p.evictable, (p.ranks.get? key).isSome) :
    ∃ heap, p.maybeCompactHeap = .ok { p with heap := heap } := by
  unfold maybeCompactHeap
  split
  · exact ⟨p.heap, rfl⟩
  · exact rebuildHeap_ok h

theorem pushEvictables_ok (keys : List K) (p : LRUCachePolicy R K)
    (h : ∀ key ∈ keys, (p.ranks.get? key).isSome) :
    ∃ heap, keys.foldlM pushEvictable p = .ok { p with heap := heap } := by
  have hstep : ∀ key ∈ keys, ∀ p' : LRUCachePolicy R K, (∃ heap, p' = { p with heap := heap }) →
      ∃ p'', p'.pushEvictable key = .ok p'' ∧ ∃ heap, p'' = { p with heap := heap } := by
    rintro key hkey _ ⟨heap, rfl⟩
    obtain ⟨heap', hpush⟩ := pushEvictable_ok (p := { p with heap := heap }) (h key hkey)
    exact ⟨_, hpush, heap', rfl⟩
  obtain ⟨p', hfold, heap, rfl⟩ := foldlM_total hstep ⟨p.heap, rfl⟩
  exact ⟨heap, hfold⟩

theorem updateHeap_ok (keys : List K) (hkeys : ∀ key ∈ keys, (p.ranks.get? key).isSome)
    (h : ∀ key ∈ p.evictable, (p.ranks.get? key).isSome) :
    ∃ heap, p.updateHeap keys = .ok { p with heap := heap } := by
  unfold updateHeap
  split
  · exact ⟨p.heap, rfl⟩
  split
  · exact rebuildHeap_ok h
  obtain ⟨heap, hpush⟩ := pushEvictables_ok keys p hkeys
  obtain ⟨heap', hcompact⟩ := maybeCompactHeap_ok (p := { p with heap := heap }) h
  exact ⟨heap', by rw [hpush]; exact hcompact⟩

/-! ### The calls -/

theorem setRefCnt_of_get (h : p.chunks.get? key = some c) (n : Int) :
    p.setRefCnt key n = { p with chunks := p.chunks.insert key { c with refCnt := n } } := by
  simp [setRefCnt, h]

theorem mem_keys_insert_of_get {d : Dict K ChunkStatus} (h : d.get? key = some c)
    (c' : ChunkStatus) (k : K) : k ∈ (d.insert key c').keys ↔ k ∈ d.keys := by
  rw [Dict.mem_keys_iff, Dict.mem_keys_iff, Dict.get?_insert]
  by_cases hk : k = key
  · simp [hk, h]
  · simp [hk]

/-- The reference count of one chunk changes and the evictable keys with it. -/
theorem Valid.setStatus (h : p.Valid) (hget : p.chunks.get? key = some c) (c' : ChunkStatus)
    {evictable : List K} {heap : List (HeapEntry K)} (hnodup : evictable.Nodup)
    (hmem : ∀ k, k ∈ evictable ↔ if k = key then c'.refCnt = 0 else k ∈ p.evictable) :
    Valid { p with chunks := p.chunks.insert key c', evictable := evictable, heap := heap } where
  ranked k hk := h.ranked k ((mem_keys_insert_of_get hget c' k).mp hk)
  evictable_nodup := hnodup
  mem_evictable k := by
    show k ∈ evictable ↔ ∃ c, (p.chunks.insert key c').get? k = some c ∧ c.refCnt = 0
    rw [hmem, Dict.get?_insert]
    by_cases hk : k = key
    · simp [hk]
    · simp [hk, h.mem_evictable]

theorem pin_valid (h : p.Valid) (hget : p.chunks.get? key = some c) (hzero : c.refCnt = 0) :
    ∃ p', p.markNonEvictable key = .ok p' ∧ (p'.setRefCnt key 1).Valid ∧
      (p'.setRefCnt key 1).chunks = p.chunks.insert key ⟨1, c.chunkId⟩ := by
  have hmem : key ∈ p.evictable := (h.mem_evictable key).mpr ⟨c, hget, hzero⟩
  refine ⟨{ p with evictable := p.evictable.erase key }, by rw [markNonEvictable, if_pos hmem], ?_⟩
  rw [setRefCnt_of_get (p := { p with evictable := p.evictable.erase key }) hget]
  refine ⟨h.setStatus hget ⟨1, c.chunkId⟩ (h.evictable_nodup.erase key) fun k => ?_, rfl⟩
  rw [h.evictable_nodup.mem_erase_iff]
  by_cases hk : k = key <;> simp [hk]

theorem recount_valid (h : p.Valid) (hget : p.chunks.get? key = some c) (hne : c.refCnt ≠ 0)
    {n : Int} (hn : n ≠ 0) : (p.setRefCnt key n).Valid ∧
      (p.setRefCnt key n).chunks = p.chunks.insert key ⟨n, c.chunkId⟩ := by
  rw [setRefCnt_of_get hget]
  refine ⟨h.setStatus hget ⟨n, c.chunkId⟩ h.evictable_nodup fun k => ?_, rfl⟩
  by_cases hk : k = key
  · simp [hk, hn, h.mem_evictable, hget, hne]
  · simp [hk]

theorem unpin_valid (h : p.Valid) (hget : p.chunks.get? key = some c) :
    ∃ p', (p.setRefCnt key 0).markEvictable key = .ok p' ∧ p'.Valid ∧
      p'.chunks = p.chunks.insert key ⟨0, c.chunkId⟩ := by
  have hkey : (p.ranks.get? key).isSome := h.ranked key (by rw [Dict.mem_keys_iff, hget]; rfl)
  rw [setRefCnt_of_get hget]
  obtain ⟨heap, hpush⟩ := pushEvictable_ok (p := { p with
    chunks := p.chunks.insert key ⟨0, c.chunkId⟩, evictable := p.evictable.insert key }) hkey
  obtain ⟨heap', hcompact⟩ := maybeCompactHeap_ok (p := { p with
      chunks := p.chunks.insert key ⟨0, c.chunkId⟩
      evictable := p.evictable.insert key
      heap := heap }) (fun k hk => by
    rcases mem_insert_iff.mp hk with rfl | hk
    · exact hkey
    · exact h.ranked_of_evictable hk)
  refine ⟨{ p with
      chunks := p.chunks.insert key ⟨0, c.chunkId⟩
      evictable := p.evictable.insert key
      heap := heap' }, ?_, ?_, rfl⟩
  · rw [markEvictable, hpush]
    exact hcompact
  · refine h.setStatus hget ⟨0, c.chunkId⟩ (h.evictable_nodup.insert) fun k => ?_
    by_cases hk : k = key <;> simp [hk]

omit [DecidableEq K] in
theorem getRequestRank_frame [DecidableEq R] (p : LRUCachePolicy R K) (r : R) : ∃ next ranks,
    (p.getRequestRank r).2 = { p with nextRank := next, requestRanks := ranks } := by
  unfold getRequestRank
  split
  · split <;> exact ⟨_, _, rfl⟩
  · exact ⟨_, _, rfl⟩

omit [DecidableEq K] in
theorem insertRank_frame [DecidableEq R] (p : LRUCachePolicy R K) (key : K) (ctx : ReqContext R K) :
    ∃ next ranks, (p.insertRank key ctx).2 =
      { p with nextRank := next, requestRanks := ranks } := by
  unfold insertRank
  split
  · exact ⟨_, _, rfl⟩
  · exact p.getRequestRank_frame ctx.reqId

theorem insert_valid [DecidableEq R] (h : p.Valid) (hget : p.chunks.get? key = none)
    (hne : c.refCnt ≠ 0) (ctx : ReqContext R K) :
    ∃ p', p.insert key c ctx = .ok p' ∧ p'.Valid ∧ p'.chunks = p.chunks.insert key c := by
  obtain ⟨next, ranks, hrank⟩ :=
    insertRank_frame { p with chunks := p.chunks.insert key c } key ctx
  unfold insert
  simp only [hrank, hne, if_false]
  refine ⟨_, rfl, ⟨?_, h.evictable_nodup, ?_⟩, rfl⟩
  · intro k hk
    rw [Dict.mem_keys_iff, Dict.get?_insert] at hk
    show ((p.ranks.insert key _).get? k).isSome
    rw [Dict.get?_insert]
    by_cases heq : k = key
    · simp [heq]
    · rw [if_neg heq] at hk ⊢
      exact h.ranked k (Dict.mem_keys_iff.mpr hk)
  · intro k
    show k ∈ p.evictable ↔ ∃ c', (p.chunks.insert key c).get? k = some c' ∧ c'.refCnt = 0
    rw [h.mem_evictable, Dict.get?_insert]
    by_cases hk : k = key
    · simp [hk, hget, hne]
    · simp [hk]

/-- A key leaves the policy. -/
theorem Valid.drop (h : p.Valid) (key : K) (heap : List (HeapEntry K)) :
    Valid { p with
      chunks := p.chunks.erase key
      ranks := p.ranks.erase key
      evictable := p.evictable.erase key
      heap := heap } where
  ranked k hk := by
    rw [Dict.mem_keys_iff, Dict.get?_erase] at hk
    show ((p.ranks.erase key).get? k).isSome
    rw [Dict.get?_erase]
    by_cases heq : k = key
    · simp [heq] at hk
    · rw [if_neg heq] at hk ⊢
      exact h.ranked k (Dict.mem_keys_iff.mpr hk)
  evictable_nodup := h.evictable_nodup.erase key
  mem_evictable k := by
    show k ∈ p.evictable.erase key ↔ ∃ c, (p.chunks.erase key).get? k = some c ∧ c.refCnt = 0
    rw [h.evictable_nodup.mem_erase_iff, h.mem_evictable, Dict.get?_erase]
    by_cases hk : k = key <;> simp [hk]

theorem remove_valid (h : p.Valid) (hget : p.chunks.get? key = some c) :
    ∃ p', p.remove key = .ok p' ∧ p'.Valid ∧ p'.chunks = p.chunks.erase key := by
  have hkey : key ∈ p.chunks.keys := by rw [Dict.mem_keys_iff, hget]; rfl
  refine ⟨_, by rw [remove, if_neg (not_not.mpr hkey)], h.drop key p.heap, rfl⟩

/-! ### Ranks -/

/-- What a change of ranks leaves alone. -/
def Reranks (p p' : LRUCachePolicy R K) : Prop :=
  p'.chunks = p.chunks ∧ p'.evictable = p.evictable ∧
    ∀ k, (p.ranks.get? k).isSome → (p'.ranks.get? k).isSome

theorem Reranks.refl (p : LRUCachePolicy R K) : Reranks p p := ⟨rfl, rfl, fun _ h => h⟩

theorem Reranks.trans {p₁ p₂ : LRUCachePolicy R K} (h : Reranks p p₁) (h' : Reranks p₁ p₂) :
    Reranks p p₂ :=
  ⟨h'.1.trans h.1, h'.2.1.trans h.2.1, fun k hk => h'.2.2 k (h.2.2 k hk)⟩

theorem Reranks.valid (h : Reranks p p') (hp : p.Valid) : p'.Valid where
  ranked k hk := h.2.2 k (hp.ranked k (h.1 ▸ hk))
  evictable_nodup := by rw [h.2.1]; exact hp.evictable_nodup
  mem_evictable k := by rw [h.2.1, h.1]; exact hp.mem_evictable k

theorem isSome_get?_insert {V : Type} (d : Dict K V) (v : V) {k : K} (h : (d.get? k).isSome) :
    ((d.insert key v).get? k).isSome := by
  rw [Dict.get?_insert]
  split
  · rfl
  · exact h

theorem getRequestRank_reranks [DecidableEq R] (p : LRUCachePolicy R K) (r : R) :
    Reranks p (p.getRequestRank r).2 := by
  obtain ⟨next, ranks, hrank⟩ := p.getRequestRank_frame r
  rw [hrank]
  exact ⟨rfl, rfl, fun _ h => h⟩

/-- The policy and the keys to push again, on the way through a change of ranks. -/
def Pushes (p : LRUCachePolicy R K) (acc : LRUCachePolicy R K × List K) : Prop :=
  Reranks p acc.1 ∧ ∀ k ∈ acc.2, k ∈ p.evictable

theorem Pushes.updateHeap (h : Pushes p acc) (hp : p.Valid) :
    ∃ p', acc.1.updateHeap acc.2 = .ok p' ∧ p'.Valid ∧ p'.chunks = p.chunks := by
  have hacc := h.1.valid hp
  obtain ⟨heap, hheap⟩ := updateHeap_ok acc.2
    (fun k hk => hacc.ranked_of_evictable (h.1.2.1 ▸ h.2 k hk))
    fun k hk => hacc.ranked_of_evictable hk
  exact ⟨_, hheap, ⟨hacc.ranked, hacc.evictable_nodup, hacc.mem_evictable⟩, h.1.1⟩

theorem assignNewRanks_pushes (p : LRUCachePolicy R K) (keys : List K) :
    Pushes p (p.assignNewRanks keys) := by
  refine List.foldlRecOn keys _ (motive := Pushes p) ⟨Reranks.refl p, nofun⟩ ?_
  intro acc hacc key hkey
  simp only [assignNewRank]
  by_cases hin : key ∈ acc.1.chunks.keys
  · simp only [hin, not_true, if_false]
    refine ⟨hacc.1.trans ⟨rfl, rfl, fun k hk => isSome_get?_insert _ _ hk⟩, ?_⟩
    intro k hk
    split at hk
    · next hevictable =>
      rcases mem_append.mp hk with hk | hk
      · exact hacc.2 k hk
      have hevictable : key ∈ acc.1.evictable := by simpa using hevictable
      rw [mem_singleton.mp hk, ← hacc.1.2.1]
      exact hevictable
    · exact hacc.2 k hk
  · simp only [hin, not_false_eq_true, if_true]
    exact hacc

theorem accessKey_pushes {requestRank : Nat} {ctx : ReqContext R K}
    (hp : p.Valid) (hacc : Pushes p acc) (key : K) :
    ∃ acc', accessKey requestRank ctx acc key = .ok acc' ∧ Pushes p acc' := by
  unfold accessKey
  cases ctx.position key with
  | none => exact ⟨acc, rfl, hacc⟩
  | some position =>
    simp only
    split
    · exact ⟨acc, rfl, hacc⟩
    rename_i hin
    obtain ⟨rank, hrank⟩ := Option.isSome_iff_exists.mp
      ((hacc.1.valid hp).ranked key (not_not.mp hin))
    simp only [hrank]
    split
    · refine ⟨_, rfl, hacc.1.trans ⟨rfl, rfl, fun k hk => isSome_get?_insert _ _ hk⟩, ?_⟩
      intro k hk
      split at hk
      · next hevictable =>
        rcases mem_append.mp hk with hk | hk
        · exact hacc.2 k hk
        · rw [mem_singleton.mp hk, ← hacc.1.2.1]
          exact hevictable
      · exact hacc.2 k hk
    · exact ⟨acc, rfl, hacc⟩

theorem onRequestAccess_valid [DecidableEq R] (h : p.Valid) (keys : List K) (ctx : ReqContext R K) :
    ∃ p', p.onRequestAccess keys ctx = .ok p' ∧ p'.Valid ∧ p'.chunks = p.chunks := by
  have hstart : Pushes p ((p.getRequestRank ctx.reqId).2, []) :=
    ⟨getRequestRank_reranks p ctx.reqId, nofun⟩
  obtain ⟨acc, hacc, hpushes⟩ := foldlM_total (P := Pushes p)
    (fun key _ acc hacc => accessKey_pushes h hacc key) hstart
  obtain ⟨p', hheap, hvalid, hchunks⟩ := hpushes.updateHeap h
  exact ⟨p', by rw [onRequestAccess]; simp only; rw [hacc]; exact hheap, hvalid, hchunks⟩

theorem onRequestFinished_valid (h : p.Valid) (keyGroups : List (List K)) (ctx : ReqContext R K) :
    ∃ p', p.onRequestFinished keyGroups ctx = .ok p' ∧ p'.Valid ∧ p'.chunks = p.chunks :=
  (assignNewRanks_pushes p _).updateHeap h

/-! ### Eviction -/

/-- The victims leave the chunks. -/
theorem dropKeys_valid (victims : List (K × ChunkStatus)) (p : LRUCachePolicy R K) (h : p.Valid)
    (hnodup : (victims.map Prod.fst).Nodup) (hget : ∀ e ∈ victims, p.chunks.get? e.1 = some e.2) :
    ((victims.map Prod.fst).foldl dropKey p).Valid ∧
      p.chunks.entries.Perm (victims ++
        ((victims.map Prod.fst).foldl dropKey p).chunks.entries) := by
  induction victims generalizing p with
  | nil => exact ⟨h, List.Perm.refl _⟩
  | cons e victims ih =>
    obtain ⟨hout, hnodup⟩ := nodup_cons.mp hnodup
    have hdrop : (p.dropKey e.1).Valid := h.drop e.1 p.heap
    have hother : ∀ e' ∈ victims, (p.dropKey e.1).chunks.get? e'.1 = some e'.2 := by
      intro e' he'
      have hne : e'.1 ≠ e.1 := fun heq => hout (heq ▸ mem_map_of_mem he')
      show (p.chunks.erase e.1).get? e'.1 = some e'.2
      rw [Dict.get?_erase_of_ne _ hne]
      exact hget e' (mem_cons_of_mem _ he')
    obtain ⟨hvalid, hperm⟩ := ih (p.dropKey e.1) hdrop hnodup hother
    exact ⟨hvalid, (Dict.perm_cons_erase (hget e mem_cons_self)).trans (hperm.cons e)⟩

section Evict

variable [LT K] [DecidableLT K] {n : Nat} {protectedKeys : Finset K}

/-- What the loop of `evict` has selected. -/
structure Selects (p : LRUCachePolicy R K) (protectedKeys : Finset K)
    (sel : Selection K) : Prop where
  nodup : (sel.selected.map fun e => e.1.2).Nodup
  held : ∀ e ∈ sel.selected, p.chunks.get? e.1.2 = some e.2 ∧ e.2.refCnt = 0 ∧
    e.1.2 ∉ protectedKeys

theorem selectBody_selects (h : p.Valid) {sel : Selection K} (hsel : Selects p protectedKeys sel)
    (hn : sel.selected.length ≤ n) :
    ∃ next, p.selectBody n protectedKeys sel = .ok next ∧
      Selects p protectedKeys next.state ∧ next.state.selected.length ≤ n := by
  unfold selectBody
  split
  · exact ⟨_, rfl, hsel, hn⟩
  split
  · exact ⟨_, rfl, hsel, hn⟩
  rename_i entry heap hpop
  simp only
  split
  · exact ⟨_, rfl, ⟨hsel.nodup, hsel.held⟩, hn⟩
  rename_i hcurrent
  split
  · exact ⟨_, rfl, ⟨hsel.nodup, hsel.held⟩, hn⟩
  rename_i hnew
  split
  · exact ⟨_, rfl, ⟨hsel.nodup, hsel.held⟩, hn⟩
  rename_i hfree
  have hmem : entry.2 ∈ p.evictable := by
    simp only [isCurrent, Bool.not_eq_false, Bool.and_eq_true, decide_eq_true_eq,
      Bool.not_eq_eq_eq_not, Bool.not_true] at hcurrent
    simpa using hcurrent.1
  obtain ⟨c, hget, hzero⟩ := (h.mem_evictable entry.2).mp hmem
  simp only [hget, hzero, ne_eq, not_true, if_false]
  refine ⟨_, rfl, ⟨?_, ?_⟩, ?_⟩
  · show ((sel.selected ++ [(entry, c)]).map fun e => e.1.2).Nodup
    rw [map_append]
    exact nodup_append'.mpr ⟨hsel.nodup, nodup_singleton _, disjoint_singleton.mpr hnew⟩
  · intro e he
    rcases mem_append.mp he with he | he
    · exact hsel.held e he
    · obtain rfl := mem_singleton.mp he
      exact ⟨hget, hzero, hfree⟩
  · show (sel.selected ++ [(entry, c)]).length ≤ n
    rw [length_append, length_singleton]
    omega

theorem select_selects (h : p.Valid) (n : Nat) (protectedKeys : Finset K) :
    ∃ sel, p.select n protectedKeys = .ok sel ∧ Selects p protectedKeys sel ∧
      sel.selected.length ≤ n :=
  loop_total (P := fun sel => Selects p protectedKeys sel ∧ sel.selected.length ≤ n)
    (fun _ hsel => selectBody_selects h hsel.1 hsel.2)
    ⟨⟨nodup_nil, nofun⟩, Nat.zero_le n⟩

theorem evict_valid (h : p.Valid) (n : Nat) (protectedKeys : Finset K) :
    ∃ victims p', p.evict n protectedKeys = .ok (victims, p') ∧ p'.Valid ∧
      p.chunks.entries.Perm (victims.getD [] ++ p'.chunks.entries) ∧
      ∀ l ∈ victims, l.length = n ∧ ∀ e ∈ l, e.2.refCnt = 0 ∧ e.1 ∉ protectedKeys := by
  unfold evict
  split
  · next hn =>
    refine ⟨_, _, rfl, h, List.Perm.refl _, ?_⟩
    rintro l ⟨rfl⟩
    exact ⟨hn.symm, nofun⟩
  obtain ⟨sel, hsel, hselects, hlen⟩ := select_selects h n protectedKeys
  rw [hsel]
  simp only [Except.bind]
  split
  · exact ⟨none, _, rfl, ⟨h.ranked, h.evictable_nodup, h.mem_evictable⟩, List.Perm.refl _, nofun⟩
  have hvalid : Valid { p with heap := sel.deferred ++ sel.heap } :=
    ⟨h.ranked, h.evictable_nodup, h.mem_evictable⟩
  obtain ⟨hdrop, hperm⟩ := dropKeys_valid (sel.selected.map fun e => (e.1.2, e.2)) _ hvalid
    (by rw [map_map]; exact hselects.nodup) (by
      intro e he
      obtain ⟨e', he', rfl⟩ := mem_map.mp he
      exact (hselects.held e' he').1)
  obtain ⟨heap, hcompact⟩ := maybeCompactHeap_ok fun k hk => hdrop.ranked_of_evictable hk
  rw [hcompact]
  refine ⟨_, _, rfl, ⟨hdrop.ranked, hdrop.evictable_nodup, hdrop.mem_evictable⟩, hperm, ?_⟩
  rintro l ⟨rfl⟩
  refine ⟨by rw [length_map]; omega, ?_⟩
  intro e he
  obtain ⟨e', he', rfl⟩ := mem_map.mp he
  exact (hselects.held e' he').2

end Evict

instance [DecidableEq R] [LT K] [DecidableLT K] : LawfulCachePolicy (LRUCachePolicy R K) where
  Valid := Valid
  residents p := p.chunks.entries
  nodup {p} _ := p.chunks.nodup
  get_iff _ := Dict.mem_entries_iff.symm
  pin h hmem hzero := by
    have hget := Dict.mem_entries_iff.mp hmem
    obtain ⟨p', hmark, hvalid, hchunks⟩ := pin_valid h hget hzero
    refine ⟨p', hmark, hvalid, ?_⟩
    show Replaces _ (setRefCnt _ _ _).chunks.entries _ _ _
    rw [hchunks]
    exact Replaces.of_insert hget _
  recount h hmem hne hn := by
    have hget := Dict.mem_entries_iff.mp hmem
    obtain ⟨hvalid, hchunks⟩ := recount_valid h hget hne hn
    refine ⟨hvalid, ?_⟩
    show Replaces _ (setRefCnt _ _ _).chunks.entries _ _ _
    rw [hchunks]
    exact Replaces.of_insert hget _
  unpin h hmem _ := by
    have hget := Dict.mem_entries_iff.mp hmem
    obtain ⟨p', hmark, hvalid, hchunks⟩ := unpin_valid h hget
    refine ⟨p', hmark, hvalid, ?_⟩
    rw [hchunks]
    exact Replaces.of_insert hget _
  insert ctx h hget hne := by
    obtain ⟨p', hinsert, hvalid, hchunks⟩ := insert_valid h hget hne ctx
    refine ⟨p', hinsert, hvalid, ?_⟩
    rw [hchunks]
    exact Dict.insert_perm_cons hget _
  remove h hmem _ := by
    have hget := Dict.mem_entries_iff.mp hmem
    obtain ⟨p', hremove, hvalid, hchunks⟩ := remove_valid h hget
    refine ⟨p', hremove, hvalid, ?_⟩
    rw [hchunks]
    exact Dict.perm_cons_erase hget
  onStoreMiss _ h := ⟨h, List.Perm.refl _⟩
  onRequestAccess keys ctx h := by
    obtain ⟨p', haccess, hvalid, hchunks⟩ := onRequestAccess_valid h keys ctx
    exact ⟨p', haccess, hvalid, by rw [hchunks]⟩
  onRequestFinished keyGroups _ _ ctx h := by
    obtain ⟨p', hfinished, hvalid, hchunks⟩ := onRequestFinished_valid h keyGroups ctx
    exact ⟨p', hfinished, hvalid, by rw [hchunks]⟩
  evict n protectedKeys h := evict_valid h n protectedKeys
  clear p := ⟨⟨nofun, List.nodup_nil, fun key => by simp [CachePolicy.clear, clear]⟩, rfl⟩

end LRUCachePolicy

/-! ## ARC -/

namespace ARCCachePolicy

variable {R K : Type} [DecidableEq K] {p p' : ARCCachePolicy R K} {key : K} {c : ChunkStatus}

/-- No key is in both lists. -/
def Valid (p : ARCCachePolicy R K) : Prop := ∀ key, p.t1.get? key = none ∨ p.t2.get? key = none

def residents (p : ARCCachePolicy R K) : List (K × ChunkStatus) := p.t1.entries ++ p.t2.entries

theorem mem_residents : (key, c) ∈ p.residents ↔
    p.t1.get? key = some c ∨ p.t2.get? key = some c := by
  rw [residents, mem_append, Dict.mem_entries_iff, Dict.mem_entries_iff]

section

variable (h : p.Valid)
include h

theorem get_eq_some : p.get key = some c ↔ (key, c) ∈ p.residents := by
  rw [mem_residents]
  unfold get
  rcases h key with hnone | hnone
  · simp [hnone]
  · cases hget : p.t1.get? key <;> simp [hnone]

theorem residents_nodup : (p.residents.map Prod.fst).Nodup := by
  rw [residents, map_append]
  refine nodup_append'.mpr ⟨p.t1.nodup, p.t2.nodup, ?_⟩
  intro key h1 h2
  have h1 : (p.t1.get? key).isSome := Dict.mem_keys_iff.mp h1
  have h2 : (p.t2.get? key).isSome := Dict.mem_keys_iff.mp h2
  rcases h key with hnone | hnone
  · rw [hnone] at h1
    cases h1
  · rw [hnone] at h2
    cases h2

theorem setRefCnt_valid (hmem : (key, c) ∈ p.residents) (n : Int) :
    (p.setRefCnt key n).Valid ∧
      Replaces p.residents (p.setRefCnt key n).residents key c ⟨n, c.chunkId⟩ := by
  rcases mem_residents.mp hmem with hget | hget
  · have hset : p.setRefCnt key n = { p with t1 := p.t1.insert key ⟨n, c.chunkId⟩ } := by
      simp [setRefCnt, hget]
    rw [hset]
    constructor
    · intro k
      rw [Dict.get?_insert]
      by_cases hk : k = key
      · subst hk
        exact .inr ((h k).resolve_left (by simp [hget]))
      · simpa [hk] using h k
    · obtain ⟨rest, hold, hnew⟩ := Replaces.of_insert hget ⟨n, c.chunkId⟩
      exact ⟨rest ++ p.t2.entries, hold.append_right _, hnew.append_right _⟩
  · have hnone := (h key).resolve_right (by simp [hget])
    have hset : p.setRefCnt key n = { p with t2 := p.t2.insert key ⟨n, c.chunkId⟩ } := by
      simp [setRefCnt, hget, hnone]
    rw [hset]
    constructor
    · intro k
      rw [Dict.get?_insert]
      by_cases hk : k = key
      · subst hk
        exact .inl hnone
      · simpa [hk] using h k
    · obtain ⟨rest, hold, hnew⟩ := Replaces.of_insert hget ⟨n, c.chunkId⟩
      refine ⟨p.t1.entries ++ rest, ?_, ?_⟩
      · exact (hold.append_left _).trans perm_middle
      · exact (hnew.append_left _).trans perm_middle

theorem insert_valid (hget : p.get key = none) :
    (p.insert key c).Valid ∧ (p.insert key c).residents.Perm ((key, c) :: p.residents) := by
  have hnone : p.t1.get? key = none ∧ p.t2.get? key = none := by
    unfold get at hget
    cases h1 : p.t1.get? key with
    | none => exact ⟨rfl, by simpa [h1] using hget⟩
    | some c => simp [h1] at hget
  constructor
  · intro k
    show (p.t1.insert key c).get? k = none ∨ p.t2.get? k = none
    rw [Dict.get?_insert]
    by_cases hk : k = key
    · subst hk
      exact .inr hnone.2
    · simpa [hk] using h k
  · exact (Dict.insert_perm_cons hnone.1 c).append_right p.t2.entries

theorem erase_t1 (hget : p.t1.get? key = some c) (ht1 : p'.t1 = p.t1.erase key)
    (ht2 : p'.t2 = p.t2) : p'.Valid ∧ p.residents.Perm ((key, c) :: p'.residents) := by
  constructor
  · intro k
    rw [ht1, ht2, Dict.get?_erase]
    by_cases hk : k = key
    · exact .inl (if_pos hk)
    · simpa [hk] using h k
  · unfold residents
    rw [ht1, ht2]
    exact (Dict.perm_cons_erase hget).append_right p.t2.entries

theorem erase_t2 (hget : p.t2.get? key = some c) (ht1 : p'.t1 = p.t1)
    (ht2 : p'.t2 = p.t2.erase key) : p'.Valid ∧ p.residents.Perm ((key, c) :: p'.residents) := by
  constructor
  · intro k
    rw [ht1, ht2, Dict.get?_erase]
    by_cases hk : k = key
    · exact .inr (if_pos hk)
    · simpa [hk] using h k
  · unfold residents
    rw [ht1, ht2]
    exact ((Dict.perm_cons_erase hget).append_left p.t1.entries).trans perm_middle

theorem remove_valid (hmem : (key, c) ∈ p.residents) :
    (p.remove key).Valid ∧ p.residents.Perm ((key, c) :: (p.remove key).residents) := by
  unfold remove
  rcases mem_residents.mp hmem with hget | hget
  · rw [if_pos (by rw [Dict.mem_keys_iff, hget]; rfl)]
    exact erase_t1 h hget rfl rfl
  have hnone := (h key).resolve_right (by simp [hget])
  rw [if_neg (by rw [Dict.mem_keys_iff, hnone]; exact nofun)]
  exact erase_t2 h hget rfl rfl

/-! ### Changes of order -/

/-- The policy holds the same chunks, in another order or in the other list. -/
def Reorders (p p' : ARCCachePolicy R K) : Prop := p'.Valid ∧ p'.residents.Perm p.residents

theorem adaptToGhostHit_reorders (key : K) : Reorders p (p.adaptToGhostHit key) := by
  unfold adaptToGhostHit
  split
  · exact ⟨h, List.Perm.refl _⟩
  · split <;> exact ⟨h, List.Perm.refl _⟩

theorem moveToEnd_t1 (key : K) : Reorders p { p with t1 := p.t1.moveToEnd key } :=
  ⟨fun k => by simpa using h k,
    (Dict.perm_of_get?_eq fun k => p.t1.get?_moveToEnd key k).append_right p.t2.entries⟩

theorem moveToEnd_t2 (key : K) : Reorders p { p with t2 := p.t2.moveToEnd key } :=
  ⟨fun k => by simpa using h k,
    (Dict.perm_of_get?_eq fun k => p.t2.get?_moveToEnd key k).append_left p.t1.entries⟩

theorem finishKey_reorders (inserted reused : Finset K) (key : K) :
    Reorders p (p.finishKey inserted reused key) := by
  unfold finishKey
  split
  · split
    · exact moveToEnd_t1 h key
    · exact moveToEnd_t2 h key
  split
  · split
    · next c hget =>
      have hnone : p.t2.get? key = none := (h key).resolve_left (by simp [hget])
      constructor
      · intro k
        show (p.t1.erase key).get? k = none ∨ (p.t2.insert key c).get? k = none
        rw [Dict.get?_erase, Dict.get?_insert]
        by_cases hk : k = key
        · exact .inl (if_pos hk)
        · simpa [hk] using h k
      · show ((p.t1.erase key).entries ++ (p.t2.insert key c).entries).Perm _
        refine ((Dict.insert_perm_cons hnone c).append_left _).trans ?_
        exact perm_middle.trans ((Dict.perm_cons_erase hget).symm.append_right _)
    · exact moveToEnd_t2 h key
  · exact ⟨h, List.Perm.refl _⟩

end

theorem foldl_reorders {f : ARCCachePolicy R K → K → ARCCachePolicy R K}
    (hf : ∀ p : ARCCachePolicy R K, p.Valid → ∀ key, Reorders p (f p key)) (keys : List K)
    (h : p.Valid) : Reorders p (keys.foldl f p) := by
  refine List.foldlRecOn keys f (motive := Reorders p) ⟨h, List.Perm.refl _⟩ ?_
  intro p' hp' key _
  obtain ⟨hvalid, hperm⟩ := hf p' hp'.1 key
  exact ⟨hvalid, hperm.trans hp'.2⟩

/-! ### Eviction -/

variable {protectedKeys : Finset K} {sc sc' : Scan K} {target : Int}

/-- The next candidate of a scan has no reference and is not protected. -/
theorem nextCandidate_spec (protectedKeys : Finset K) (l : List (K × ChunkStatus)) :
    ((nextCandidate protectedKeys l).1.toList ++ (nextCandidate protectedKeys l).2).Sublist l ∧
      ∀ e ∈ (nextCandidate protectedKeys l).1, e.2.refCnt = 0 ∧ e.1 ∉ protectedKeys := by
  induction l with
  | nil => exact ⟨List.Sublist.refl _, nofun⟩
  | cons e l ih =>
    unfold nextCandidate
    split
    · next hfree =>
      refine ⟨List.Sublist.refl _, ?_⟩
      rintro e' ⟨rfl⟩
      exact hfree
    · exact ⟨ih.1.cons e, ih.2⟩

/-- What the scans of `evict` have taken, and what is left of them. -/
structure Scans (p : ARCCachePolicy R K) (protectedKeys : Finset K) (sc : Scan K) : Prop where
  t1 : sc.t1.Sublist p.t1.entries
  t2 : sc.t2.Sublist p.t2.entries
  taken : (sc.candidates.map Prod.fst ++ (sc.t1 ++ sc.t2)).Subperm p.residents
  held : ∀ x ∈ sc.candidates, (if x.2 then p.t1 else p.t2).get? x.1.1 = some x.1.2 ∧
    x.1.2.refCnt = 0 ∧ x.1.1 ∉ protectedKeys

section

variable (h : Scans p protectedKeys sc)
include h

/-- One more candidate, which is held by the list that it was taken from. -/
theorem Scans.held_concat {e : K × ChunkStatus}
    {inT1 : Bool} (hget : (if inT1 then p.t1 else p.t2).get? e.1 = some e.2)
    (hfree : e.2.refCnt = 0 ∧ e.1 ∉ protectedKeys) :
    ∀ x ∈ sc.candidates ++ [(e, inT1)], (if x.2 then p.t1 else p.t2).get? x.1.1 = some x.1.2 ∧
      x.1.2.refCnt = 0 ∧ x.1.1 ∉ protectedKeys := by
  intro x hx
  rcases mem_append.mp hx with hx | hx
  · exact h.held x hx
  · obtain rfl := mem_singleton.mp hx
    exact ⟨hget, hfree⟩

theorem fromT1_scans :
    Scans p protectedKeys (sc.fromT1 protectedKeys).2 ∧
      (sc.fromT1 protectedKeys).2.candidates.length =
        sc.candidates.length + (sc.fromT1 protectedKeys).1.toNat := by
  obtain ⟨hsub, hfree⟩ := nextCandidate_spec protectedKeys sc.t1
  unfold Scan.fromT1
  cases hnext : nextCandidate protectedKeys sc.t1 with
  | mk found rest =>
    rw [hnext] at hsub hfree
    cases found with
    | none =>
      have hrest : rest.Sublist sc.t1 := hsub
      refine ⟨⟨hrest.trans h.t1, h.t2, ?_, h.held⟩, rfl⟩
      exact (((hrest.append_right sc.t2).append_left _).subperm).trans h.taken
    | some e =>
      have hrest : (e :: rest).Sublist sc.t1 := hsub
      refine ⟨⟨((sublist_cons_self e rest).trans hrest).trans h.t1, h.t2, ?_, ?_⟩, ?_⟩
      · show ((sc.candidates ++ [(e, true)]).map Prod.fst ++ (rest ++ sc.t2)).Subperm p.residents
        rw [map_append, append_assoc]
        exact (((hrest.append_right sc.t2).append_left _).subperm).trans h.taken
      · have hmem := h.t1.subset (hrest.subset mem_cons_self)
        exact h.held_concat (Dict.mem_entries_iff.mp hmem) (hfree e rfl)
      · simp

theorem fromT2_scans :
    Scans p protectedKeys (sc.fromT2 protectedKeys).2 ∧
      (sc.fromT2 protectedKeys).2.candidates.length =
        sc.candidates.length + (sc.fromT2 protectedKeys).1.toNat := by
  obtain ⟨hsub, hfree⟩ := nextCandidate_spec protectedKeys sc.t2
  unfold Scan.fromT2
  cases hnext : nextCandidate protectedKeys sc.t2 with
  | mk found rest =>
    rw [hnext] at hsub hfree
    cases found with
    | none =>
      have hrest : rest.Sublist sc.t2 := hsub
      refine ⟨⟨h.t1, hrest.trans h.t2, ?_, h.held⟩, rfl⟩
      exact (((hrest.append_left sc.t1).append_left _).subperm).trans h.taken
    | some e =>
      have hrest : (e :: rest).Sublist sc.t2 := hsub
      refine ⟨⟨h.t1, ((sublist_cons_self e rest).trans hrest).trans h.t2, ?_, ?_⟩, ?_⟩
      · show ((sc.candidates ++ [(e, false)]).map Prod.fst ++ (sc.t1 ++ rest)).Subperm p.residents
        rw [map_append, append_assoc]
        have hperm : (e :: (sc.t1 ++ rest)).Perm (sc.t1 ++ (e :: rest)) := perm_middle.symm
        exact ((hperm.append_left _).subperm.trans
          ((hrest.append_left sc.t1).append_left _).subperm).trans h.taken
      · have hmem := h.t2.subset (hrest.subset mem_cons_self)
        exact h.held_concat (Dict.mem_entries_iff.mp hmem) (hfree e rfl)
      · simp

theorem pass_scans (hpass : sc.pass target protectedKeys = some sc') :
    Scans p protectedKeys sc' ∧ sc'.candidates.length = sc.candidates.length + 1 := by
  unfold Scan.pass at hpass
  -- the first scan of `t1` may be left out
  obtain ⟨found, sc₁, heq, h₁, hlen₁⟩ : ∃ found sc₁,
      (if target ≤ sc.virtualT1Size then sc.fromT1 protectedKeys else (false, sc)) = (found, sc₁) ∧
      Scans p protectedKeys sc₁ ∧ sc₁.candidates.length = sc.candidates.length + found.toNat := by
    split
    · exact ⟨_, _, rfl, fromT1_scans h⟩
    · exact ⟨false, sc, rfl, h, rfl⟩
  rw [heq] at hpass
  cases found with
  | true =>
    cases hpass
    exact ⟨h₁, hlen₁⟩
  | false =>
    obtain ⟨h₂, hlen₂⟩ := fromT2_scans h₁
    cases hfound : (sc₁.fromT2 protectedKeys).1 with
    | true =>
      simp only [hfound, Bool.false_eq_true, if_false, if_true, Option.some.injEq] at hpass
      subst hpass
      rw [hfound, hlen₁] at hlen₂
      exact ⟨h₂, hlen₂⟩
    | false =>
      obtain ⟨h₃, hlen₃⟩ := fromT1_scans h₂
      simp only [hfound, Bool.false_eq_true, if_false] at hpass
      split at hpass
      · next hlast =>
        cases hpass
        rw [hlast, hlen₂, hfound, hlen₁] at hlen₃
        exact ⟨h₃, hlen₃⟩
      · cases hpass

theorem passes_scans {n : Nat} (hpasses : Scan.passes target protectedKeys n sc = some sc') :
    Scans p protectedKeys sc' ∧ sc'.candidates.length = sc.candidates.length + n := by
  induction n generalizing sc with
  | zero =>
    cases hpasses
    exact ⟨h, rfl⟩
  | succ n ih =>
    obtain ⟨sc₁, hpass, hrest⟩ := Option.bind_eq_some_iff.mp hpasses
    obtain ⟨h₁, hlen₁⟩ := pass_scans h hpass
    obtain ⟨h₂, hlen₂⟩ := ih h₁ hrest
    exact ⟨h₂, by omega⟩

end

theorem moveToGhost_valid (h : p.Valid) (x : (K × ChunkStatus) × Bool)
    (hget : (if x.2 then p.t1 else p.t2).get? x.1.1 = some x.1.2) :
    (p.moveToGhost x).Valid ∧ p.residents.Perm (x.1 :: (p.moveToGhost x).residents) := by
  unfold moveToGhost
  split
  · next hflag =>
    rw [if_pos hflag] at hget
    exact erase_t1 h hget rfl rfl
  · next hflag =>
    rw [if_neg hflag] at hget
    exact erase_t2 h hget rfl rfl

theorem moveToGhost_get? {x y : (K × ChunkStatus) × Bool} (hne : y.1.1 ≠ x.1.1) :
    (if y.2 then (p.moveToGhost x).t1 else (p.moveToGhost x).t2).get? y.1.1 =
      (if y.2 then p.t1 else p.t2).get? y.1.1 := by
  unfold moveToGhost
  cases x.2 <;> cases y.2 <;> simp [Dict.get?_erase_of_ne _ hne]

/-- The candidates leave the two lists. -/
theorem moveToGhosts_valid (candidates : List ((K × ChunkStatus) × Bool)) (p : ARCCachePolicy R K)
    (h : p.Valid) (hnodup : (candidates.map fun x => x.1.1).Nodup)
    (hget : ∀ x ∈ candidates, (if x.2 then p.t1 else p.t2).get? x.1.1 = some x.1.2) :
    (candidates.foldl moveToGhost p).Valid ∧
      p.residents.Perm (candidates.map Prod.fst ++ (candidates.foldl moveToGhost p).residents) := by
  induction candidates generalizing p with
  | nil => exact ⟨h, List.Perm.refl _⟩
  | cons x candidates ih =>
    obtain ⟨hout, hnodup⟩ := nodup_cons.mp hnodup
    obtain ⟨hvalid, hperm⟩ := moveToGhost_valid h x (hget x mem_cons_self)
    obtain ⟨hvalid', hperm'⟩ := ih (p.moveToGhost x) hvalid hnodup fun y hy => by
      have hne : y.1.1 ≠ x.1.1 := by
        intro heq
        exact hout (mem_map.mpr ⟨y, hy, heq⟩)
      rw [moveToGhost_get? hne]
      exact hget y (mem_cons_of_mem _ hy)
    exact ⟨hvalid', hperm.trans (hperm'.cons x.1)⟩

theorem Scans.nodup (hscans : Scans p protectedKeys sc) (h : p.Valid) :
    (sc.candidates.map fun x => x.1.1).Nodup := by
  obtain ⟨l, hperm, hsub⟩ : (sc.candidates.map Prod.fst).Subperm p.residents :=
    (sublist_append_left _ _).subperm.trans hscans.taken
  have hnodup := (residents_nodup h).sublist (hsub.map Prod.fst)
  rw [(hperm.map Prod.fst).nodup_iff, map_map] at hnodup
  exact hnodup

theorem evict_valid (h : p.Valid) (n : Nat) (protectedKeys : Finset K) :
    (p.evict n protectedKeys).2.Valid ∧
      p.residents.Perm ((p.evict n protectedKeys).1.getD [] ++
        (p.evict n protectedKeys).2.residents) ∧
      ∀ l ∈ (p.evict n protectedKeys).1, l.length = n ∧
        ∀ e ∈ l, e.2.refCnt = 0 ∧ e.1 ∉ protectedKeys := by
  unfold evict
  split
  · next hn =>
    refine ⟨h, List.Perm.refl _, ?_⟩
    rintro l ⟨rfl⟩
    exact ⟨hn.symm, nofun⟩
  simp only
  split
  · exact ⟨h, List.Perm.refl _, nofun⟩
  rename_i sc hpasses
  have hstart : Scans p protectedKeys ⟨p.t1.entries, p.t2.entries, p.t1.keys.length, []⟩ :=
    ⟨List.Sublist.refl _, List.Sublist.refl _, List.Subperm.refl _, nofun⟩
  obtain ⟨hscans, hlen⟩ := passes_scans hstart hpasses
  obtain ⟨hvalid, hperm⟩ := moveToGhosts_valid sc.candidates p h (hscans.nodup h)
    fun x hx => (hscans.held x hx).1
  refine ⟨hvalid, hperm, ?_⟩
  rintro l ⟨rfl⟩
  refine ⟨by rw [length_map, hlen]; exact Nat.zero_add n, ?_⟩
  intro e he
  obtain ⟨x, hx, rfl⟩ := mem_map.mp he
  exact (hscans.held x hx).2

instance : LawfulCachePolicy (ARCCachePolicy R K) where
  Valid := Valid
  residents := residents
  nodup := residents_nodup
  get_iff := get_eq_some
  pin h hmem _ := ⟨_, rfl, setRefCnt_valid h hmem 1⟩
  recount h hmem _ _ := setRefCnt_valid h hmem _
  unpin h hmem _ := ⟨_, rfl, setRefCnt_valid h hmem 0⟩
  insert _ h hget _ := ⟨_, rfl, insert_valid h hget⟩
  remove h hmem _ := ⟨_, rfl, remove_valid h hmem⟩
  onStoreMiss _ h := foldl_reorders (fun _ hp key => adaptToGhostHit_reorders hp key) _ h
  onRequestAccess _ _ h := ⟨_, rfl, h, List.Perm.refl _⟩
  onRequestFinished _ inserted reused _ h :=
    ⟨_, rfl, foldl_reorders (fun _ hp key => finishKey_reorders hp inserted reused key) _ h⟩
  evict n protectedKeys h := ⟨_, _, rfl, evict_valid h n protectedKeys⟩
  clear _ := ⟨fun _ => .inl rfl, rfl⟩

end ARCCachePolicy

end Vllm.Offload
