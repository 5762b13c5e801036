import Mathlib.Data.Prod.Lex
import Vllm.Offload.PolicyLaws

/-!
# The lazy heap of the LRU policy

`LRUCachePolicy` (`v1/kv_offload/cpu/policies/lru.py`) leaves entries in its heap when a
key is pinned, evicted or gets another rank, and drops them when they are popped. What
keeps `evict` exact is that every evictable key has an entry with its current rank
(`Covered`). Each call keeps it, so an eviction takes the first `n` keys of the sorted
list of the evictable keys (`exactVictims`) in every state that the calls reach.
-/

namespace Vllm.Offload.LRUCachePolicy

open Library List

/-! ## Entries with the current rank -/

section Covered

variable {R K : Type} [DecidableEq K] {p p' : LRUCachePolicy R K} {key : K}
  {keys : List K}

/-- Every evictable key outside `keys` has an entry with its current rank. -/
def CoveredBut (p : LRUCachePolicy R K) (keys : List K) : Prop :=
  ∀ key ∈ p.evictable, key ∉ keys → ∀ rank, p.ranks.get? key = some rank → (rank, key) ∈ p.heap

def Covered (p : LRUCachePolicy R K) : Prop := p.CoveredBut []

theorem entryOf_eq_ok {e : HeapEntry K} :
    p.entryOf key = .ok e ↔ p.ranks.get? key = some e.1 ∧ e.2 = key := by
  unfold entryOf
  cases p.ranks.get? key with
  | none => simp
  | some rank =>
    constructor
    · intro h
      cases h
      exact ⟨rfl, rfl⟩
    · rintro ⟨hrank, rfl⟩
      rw [Option.some.inj hrank]

theorem pushEvictable_eq_ok (h : p.pushEvictable key = .ok p') :
    ∃ rank, p.ranks.get? key = some rank ∧ p' = { p with heap := (rank, key) :: p.heap } := by
  obtain ⟨⟨rank, _⟩, hentry, rfl⟩ := map_eq_ok.mp h
  obtain ⟨hrank, rfl⟩ := entryOf_eq_ok.mp hentry
  exact ⟨rank, hrank, rfl⟩

/-- A heap that is rebuilt has the current entry of every evictable key. -/
theorem rebuildHeap_covered (h : p.rebuildHeap = .ok p') :
    p'.Covered ∧ ∃ heap, p' = { p with heap := heap } := by
  obtain ⟨heap, hheap, rfl⟩ := map_eq_ok.mp h
  refine ⟨?_, heap, rfl⟩
  intro key hkey _ rank hrank
  obtain ⟨e, he, hentry⟩ := exists_related (mapM_ok_iff.mp hheap).flip hkey
  obtain ⟨hrank', rfl⟩ := entryOf_eq_ok.mp hentry
  rw [hrank] at hrank'
  rw [Option.some.inj hrank']
  exact he

theorem maybeCompactHeap_covered (hp : p.Covered) (h : p.maybeCompactHeap = .ok p') :
    p'.Covered ∧ ∃ heap, p' = { p with heap := heap } := by
  unfold maybeCompactHeap at h
  split at h
  · cases h
    exact ⟨hp, p.heap, rfl⟩
  · exact rebuildHeap_covered h

/-- The entries of the pushed keys join the heap. -/
theorem pushEvictables_eq_ok (h : keys.foldlM pushEvictable p = .ok p') :
    ∃ heap, p' = { p with heap := heap } ∧ p.heap ⊆ heap ∧
      ∀ key ∈ keys, ∀ rank, p.ranks.get? key = some rank → (rank, key) ∈ heap := by
  induction keys generalizing p with
  | nil =>
    obtain rfl := Except.ok.inj h
    exact ⟨p.heap, rfl, fun _ he => he, nofun⟩
  | cons key keys ih =>
    obtain ⟨p₁, hpush, h⟩ := bind_eq_ok.mp h
    obtain ⟨rank, hrank, rfl⟩ := pushEvictable_eq_ok hpush
    obtain ⟨heap, rfl, hsub, hkeys⟩ := ih h
    refine ⟨heap, rfl, fun e he => hsub (mem_cons_of_mem _ he), ?_⟩
    intro k hk rank' hrank'
    cases hk with
    | head =>
      rw [hrank] at hrank'
      rw [← Option.some.inj hrank']
      exact hsub mem_cons_self
    | tail _ hk => exact hkeys k hk rank' hrank'

theorem updateHeap_covered (hp : p.CoveredBut keys) (h : p.updateHeap keys = .ok p') :
    p'.Covered ∧ ∃ heap, p' = { p with heap := heap } := by
  unfold updateHeap at h
  split at h
  · next hnil =>
    cases h
    rw [hnil] at hp
    exact ⟨hp, p.heap, rfl⟩
  · split at h
    · exact rebuildHeap_covered h
    obtain ⟨p₁, hpush, hcompact⟩ := bind_eq_ok.mp h
    obtain ⟨heap, rfl, hsub, hkeys⟩ := pushEvictables_eq_ok hpush
    have hcovered : Covered { p with heap := heap } := by
      intro key hkey _ rank hrank
      by_cases hin : key ∈ keys
      · exact hkeys key hin rank hrank
      · exact hsub (hp key hkey hin rank hrank)
    obtain ⟨hcovered, heap', rfl⟩ := maybeCompactHeap_covered hcovered hcompact
    exact ⟨hcovered, heap', rfl⟩

/-- A new rank for one key, which is pushed again if it is evictable. -/
theorem CoveredBut.rerank (hp : p.CoveredBut keys) (key : K) (rank : Int × Int) (next : Nat)
    {keys' : List K} (hsub : keys ⊆ keys') (hkey : key ∈ p.evictable → key ∈ keys') :
    CoveredBut { p with ranks := p.ranks.insert key rank, nextRank := next } keys' := by
  intro k hk hout rank' hrank'
  have hne : k ≠ key := by
    rintro rfl
    exact hout (hkey hk)
  rw [Dict.get?_insert, if_neg hne] at hrank'
  exact hp k hk (fun hin => hout (hsub hin)) rank' hrank'

theorem assignNewRanks_covered (hp : p.Covered) (keys : List K) :
    (p.assignNewRanks keys).1.CoveredBut (p.assignNewRanks keys).2 := by
  refine List.foldlRecOn keys _
    (motive := fun acc : LRUCachePolicy R K × List K => acc.1.CoveredBut acc.2) hp ?_
  intro acc hacc key _
  simp only [assignNewRank]
  by_cases hin : key ∈ acc.1.chunks.keys
  · simp only [hin, not_true, if_false]
    by_cases hevictable : key ∈ acc.1.evictable
    · simp only [hevictable, decide_true, if_true]
      exact hacc.rerank key _ _ (subset_append_left _ _) fun _ => by simp
    · simp only [hevictable, decide_false, Bool.false_eq_true, if_false]
      exact hacc.rerank key _ _ (List.Subset.refl _) fun h => absurd h hevictable
  · simp only [hin, not_false_eq_true, if_true]
    exact hacc

theorem accessKey_covered {requestRank : Nat} {ctx : ReqContext R K}
    {acc acc' : LRUCachePolicy R K × List K} (hacc : acc.1.CoveredBut acc.2)
    (h : accessKey requestRank ctx acc key = .ok acc') : acc'.1.CoveredBut acc'.2 := by
  unfold accessKey at h
  cases hposition : ctx.position key with
  | none =>
    rw [hposition] at h
    cases h
    exact hacc
  | some position =>
    rw [hposition] at h
    dsimp only at h
    split at h
    · cases h
      exact hacc
    split at h
    · cases h
    split at h
    · cases h
      by_cases hevictable : key ∈ acc.1.evictable
      · rw [if_pos hevictable]
        exact hacc.rerank key _ _ (subset_append_left _ _) fun _ => by simp
      · rw [if_neg hevictable]
        exact hacc.rerank key _ _ (List.Subset.refl _) fun h => absurd h hevictable
    · cases h
      exact hacc

theorem getRequestRank_covered [DecidableEq R] (hp : p.Covered) (r : R) :
    (p.getRequestRank r).2.Covered := by
  obtain ⟨next, ranks, hrank⟩ := p.getRequestRank_frame r
  rw [hrank]
  exact hp

theorem onRequestAccess_covered [DecidableEq R] {ctx : ReqContext R K} (hp : p.Covered)
    (h : p.onRequestAccess keys ctx = .ok p') : p'.Covered := by
  obtain ⟨acc, hacc, hheap⟩ := bind_eq_ok.mp h
  have hstart : (p.getRequestRank ctx.reqId).2.CoveredBut [] := getRequestRank_covered hp ctx.reqId
  have hcovered : acc.1.CoveredBut acc.2 := by
    refine foldlM_ok_induct (P := fun acc : LRUCachePolicy R K × List K => acc.1.CoveredBut acc.2)
      ?_ ?_ hacc
    · intro key _ acc acc' hacc h
      exact accessKey_covered hacc h
    · exact hstart
  exact (updateHeap_covered hcovered hheap).1

theorem onRequestFinished_covered {keyGroups : List (List K)} {ctx : ReqContext R K}
    (hp : p.Covered) (h : p.onRequestFinished keyGroups ctx = .ok p') : p'.Covered :=
  (updateHeap_covered (assignNewRanks_covered hp _) h).1

end Covered

/-! ## What an eviction selects -/

section Selection

variable {R K : Type} [LinearOrder K] {p p' : LRUCachePolicy R K} {n : Nat}
  {protectedKeys : Finset K} {sel sel' : Selection K} {entry : HeapEntry K}

/-- An entry in the order of the tuples of the source. -/
def lexOf (e : HeapEntry K) : (ℤ ×ₗ ℤ) ×ₗ K := toLex (toLex e.1, e.2)

omit [LinearOrder K] in
theorem lexOf_injective : Function.Injective (lexOf : HeapEntry K → (ℤ ×ₗ ℤ) ×ₗ K) :=
  fun _ _ h => h

theorem entryLt_iff (a b : HeapEntry K) : entryLt a b = true ↔ lexOf a < lexOf b := by
  have hrank : rankLt a.1 b.1 = true ↔ toLex a.1 < toLex b.1 := by
    simp [rankLt, Prod.Lex.toLex_lt_toLex]
  rw [lexOf, lexOf, Prod.Lex.toLex_lt_toLex, ← hrank]
  simp [entryLt]

theorem isCurrent_iff {e : HeapEntry K} :
    p.isCurrent e = true ↔ e.2 ∈ p.evictable ∧ p.ranks.get? e.2 = some e.1 := by
  simp [isCurrent]

/-- What one more pass of the selection does. -/
theorem selectBody_again (h : p.selectBody n protectedKeys sel = .ok (.again sel')) :
    sel.selected.length < n ∧ ∃ entry heap, popLeast entryLt sel.heap = some (entry, heap) ∧
      ((p.isCurrent entry = false ∧ sel' = { sel with heap := heap }) ∨
      (p.isCurrent entry = true ∧ entry.2 ∈ sel.selected.map (fun e => e.1.2) ∧
        sel' = { sel with heap := heap }) ∨
      (p.isCurrent entry = true ∧ entry.2 ∈ protectedKeys ∧
        sel' = { sel with heap := heap, deferred := sel.deferred ++ [entry] }) ∨
      (p.isCurrent entry = true ∧ entry.2 ∉ sel.selected.map (fun e => e.1.2) ∧
        entry.2 ∉ protectedKeys ∧ ∃ chunk,
        sel' = { sel with heap := heap, selected := sel.selected ++ [(entry, chunk)] })) := by
  unfold selectBody at h
  split at h
  · cases h
  rename_i hless
  refine ⟨not_le.mp hless, ?_⟩
  split at h
  · cases h
  rename_i entry heap hpop
  refine ⟨entry, heap, hpop, ?_⟩
  dsimp only at h
  split at h
  · next hstale =>
    cases h
    exact .inl ⟨by simpa using hstale, rfl⟩
  rename_i hcurrent
  have hcurrent : p.isCurrent entry = true := by simpa using hcurrent
  split at h
  · next hselected =>
    cases h
    exact .inr (.inl ⟨hcurrent, hselected, rfl⟩)
  rename_i hnew
  split at h
  · next hprotected =>
    cases h
    exact .inr (.inr (.inl ⟨hcurrent, hprotected, rfl⟩))
  rename_i hfree
  split at h
  · cases h
  rename_i chunk _
  split at h
  · cases h
  · cases h
    exact .inr (.inr (.inr ⟨hcurrent, hnew, hfree, chunk, rfl⟩))

theorem selectBody_done (h : p.selectBody n protectedKeys sel = .ok (.done sel')) :
    sel' = sel ∧ (n ≤ sel.selected.length ∨ sel.heap = []) := by
  unfold selectBody at h
  split at h
  · next hfull =>
    cases h
    exact ⟨rfl, .inl hfull⟩
  split at h
  · next hpop =>
    cases h
    exact ⟨rfl, .inr (popLeast_eq_none.mp hpop)⟩
  dsimp only at h
  split at h
  · cases h
  split at h
  · cases h
  split at h
  · cases h
  split at h
  · cases h
  · split at h <;> cases h

/-- The selection on its way through the heap: no current entry is lost, and what is
selected comes in increasing order before what is left. -/
structure Sweeps (p : LRUCachePolicy R K) (protectedKeys : Finset K) (sel : Selection K) :
    Prop where
  kept : ∀ e ∈ p.heap, p.isCurrent e = true →
    e ∈ sel.heap ∨ e ∈ sel.deferred ∨ e ∈ sel.selected.map Prod.fst
  deferred : ∀ e ∈ sel.deferred, e.2 ∈ protectedKeys
  current : ∀ e ∈ sel.selected, p.isCurrent e.1 = true
  increasing : sel.selected.Pairwise fun a b => lexOf a.1 < lexOf b.1
  below : ∀ e ∈ sel.selected, ∀ e' ∈ sel.heap, lexOf e.1 ≤ lexOf e'

theorem Sweeps.start (p : LRUCachePolicy R K) (protectedKeys : Finset K) :
    Sweeps p protectedKeys { heap := p.heap } :=
  ⟨fun _ he _ => .inl he, nofun, nofun, .nil, nofun⟩

/-- Two current entries of one key are equal. -/
theorem eq_of_isCurrent {e e' : HeapEntry K} (h : p.isCurrent e = true)
    (h' : p.isCurrent e' = true) (hkey : e.2 = e'.2) : e = e' := by
  have hrank := (isCurrent_iff.mp h).2
  rw [hkey, (isCurrent_iff.mp h').2] at hrank
  exact Prod.ext (Option.some.inj hrank).symm hkey

/-- An entry that is dropped from the heap, when it is stale or kept elsewhere. -/
theorem Sweeps.pop (h : Sweeps p protectedKeys sel)
    {heap deferred : List (HeapEntry K)} (hpop : popLeast entryLt sel.heap = some (entry, heap))
    (hsub : sel.deferred ⊆ deferred)
    (hentry : p.isCurrent entry = true → entry ∈ deferred ∨ entry ∈ sel.selected.map Prod.fst)
    (hdeferred : ∀ e ∈ deferred, e.2 ∈ protectedKeys) :
    Sweeps p protectedKeys { sel with heap := heap, deferred := deferred } where
  kept e he hcurrent := by
    rcases h.kept e he hcurrent with hin | hin | hin
    · cases (popLeast_perm hpop).mem_iff.mpr hin with
      | head => exact .inr (hentry hcurrent)
      | tail _ hin => exact .inl hin
    · exact .inr (.inl (hsub hin))
    · exact .inr (.inr hin)
  deferred := hdeferred
  current := h.current
  increasing := h.increasing
  below e he e' he' := h.below e he e' ((popLeast_perm hpop).mem_iff.mp (.tail _ he'))

/-- The least entry joins the selection. -/
theorem Sweeps.take (h : Sweeps p protectedKeys sel)
    {heap : List (HeapEntry K)} (hpop : popLeast entryLt sel.heap = some (entry, heap))
    (hcurrent : p.isCurrent entry = true) (hnew : entry.2 ∉ sel.selected.map fun e => e.1.2)
    (chunk : ChunkStatus) :
    Sweeps p protectedKeys
      { sel with heap := heap, selected := sel.selected ++ [(entry, chunk)] } where
  kept e he hcurrent' := by
    rw [map_append, mem_append]
    rcases h.kept e he hcurrent' with hin | hin | hin
    · cases (popLeast_perm hpop).mem_iff.mpr hin with
      | head => exact .inr (.inr (.inr mem_cons_self))
      | tail _ hin => exact .inl hin
    · exact .inr (.inl hin)
    · exact .inr (.inr (.inl hin))
  deferred := h.deferred
  current e he := by
    rcases mem_append.mp he with he | he
    · exact h.current e he
    · rw [mem_singleton.mp he]
      exact hcurrent
  increasing := by
    refine pairwise_append.mpr ⟨h.increasing, pairwise_singleton _ _, ?_⟩
    intro e he e' he'
    rw [mem_singleton.mp he']
    have hle := h.below e he entry ((popLeast_perm hpop).mem_iff.mp mem_cons_self)
    refine lt_of_le_of_ne hle fun heq => hnew (mem_map.mpr ⟨e, he, ?_⟩)
    rw [lexOf_injective heq]
  below e he e' he' := by
    rcases mem_append.mp he with he | he
    · exact h.below e he e' ((popLeast_perm hpop).mem_iff.mp (.tail _ he'))
    · rw [mem_singleton.mp he]
      exact popLeast_le entryLt_iff hpop e' he'

theorem Sweeps.again (h : Sweeps p protectedKeys sel)
    (hbody : p.selectBody n protectedKeys sel = .ok (.again sel')) :
    Sweeps p protectedKeys sel' ∧ sel'.heap.length < sel.heap.length := by
  obtain ⟨-, entry, heap, hpop, hcases⟩ := selectBody_again hbody
  have hlength : heap.length < sel.heap.length := by
    rw [← (popLeast_perm hpop).length_eq]
    exact Nat.lt_succ_self _
  rcases hcases with ⟨hstale, rfl⟩ | ⟨hcurrent, hselected, rfl⟩ | ⟨-, hprotected, rfl⟩ |
    ⟨hcurrent, hnew, -, chunk, rfl⟩
  · refine ⟨h.pop hpop (List.Subset.refl _) (fun hcurrent => ?_) h.deferred, hlength⟩
    rw [hstale] at hcurrent
    cases hcurrent
  · -- a second entry of a selected key is the entry that was selected
    refine ⟨h.pop hpop (List.Subset.refl _) (fun _ => .inr ?_) h.deferred, hlength⟩
    obtain ⟨e, he, hkey⟩ := mem_map.mp hselected
    exact mem_map.mpr ⟨e, he, eq_of_isCurrent (h.current e he) hcurrent hkey⟩
  · refine ⟨h.pop hpop (subset_append_left _ _) (fun _ => .inl (by simp)) ?_, hlength⟩
    intro e he
    rcases mem_append.mp he with he | he
    · exact h.deferred e he
    · rw [mem_singleton.mp he]
      exact hprotected
  · exact ⟨h.take hpop hcurrent hnew chunk, hlength⟩

theorem select_sweeps (h : p.select n protectedKeys = .ok sel) :
    Sweeps p protectedKeys sel ∧ (n ≤ sel.selected.length ∨ sel.heap = []) := by
  obtain ⟨sel', hsweeps, hdone⟩ := loop_done (P := Sweeps p protectedKeys)
    (fun sel => sel.heap.length) (fun _ _ hsel hbody => hsel.again hbody)
    (Sweeps.start p protectedKeys) (Nat.lt_succ_self _) h
  obtain ⟨rfl, hend⟩ := selectBody_done hdone
  exact ⟨hsweeps, hend⟩

end Selection

/-! ## Exact eviction -/

section Exact

variable {R K : Type} [LinearOrder K] {p p' : LRUCachePolicy R K} {n : Nat}
  {protectedKeys : Finset K} {sel : Selection K}

/-- The rank of a key; a key without one is not in the policy. -/
def rankOf (p : LRUCachePolicy R K) (key : K) : Int × Int := (p.ranks.get? key).getD (0, 0)

def candidates (p : LRUCachePolicy R K) (protectedKeys : Finset K) : List K :=
  p.evictable.filter (· ∉ protectedKeys)

/-- The evictable keys that are not protected, by rank and key. -/
def evictionOrder (p : LRUCachePolicy R K) (protectedKeys : Finset K) : List K :=
  (p.candidates protectedKeys).insertionSort fun a b =>
    lexOf (p.rankOf a, a) ≤ lexOf (p.rankOf b, b)

/-- What an exact eviction takes: the first `n` keys of the order, if there are as many. -/
def exactVictims (p : LRUCachePolicy R K) (n : Nat) (protectedKeys : Finset K) :
    Option (List K) :=
  if (p.candidates protectedKeys).length < n then none
  else some ((p.evictionOrder protectedKeys).take n)

/-- `p'` holds what `p` holds without `keys`. -/
structure Without (p p' : LRUCachePolicy R K) (keys : List K) : Prop where
  chunks : ∀ key, p'.chunks.get? key = if key ∈ keys then none else p.chunks.get? key
  ranks : ∀ key, p'.ranks.get? key = if key ∈ keys then none else p.ranks.get? key
  evictable : ∀ key, key ∈ p'.evictable ↔ key ∈ p.evictable ∧ key ∉ keys

theorem Without.refl (p : LRUCachePolicy R K) (heap : List (HeapEntry K)) :
    Without p { p with heap := heap } [] :=
  ⟨fun _ => rfl, fun _ => rfl, fun _ => ⟨fun h => ⟨h, nofun⟩, And.left⟩⟩

theorem dropKeys_without (keys : List K) (hp : p.evictable.Nodup) :
    Without p (keys.foldl dropKey p) keys ∧ (keys.foldl dropKey p).heap = p.heap := by
  induction keys generalizing p with
  | nil => exact ⟨Without.refl p p.heap, rfl⟩
  | cons key keys ih =>
    have hnodup : (p.dropKey key).evictable.Nodup := hp.erase key
    obtain ⟨⟨hchunks, hranks, hevictable⟩, hheap⟩ := ih hnodup
    refine ⟨⟨?_, ?_, ?_⟩, hheap⟩
    · intro k
      have hdrop : (p.dropKey key).chunks.get? k = if k = key then none else p.chunks.get? k :=
        Dict.get?_erase _ _ _
      rw [foldl_cons, hchunks, hdrop]
      by_cases hk : k = key <;> simp [hk]
    · intro k
      have hdrop : (p.dropKey key).ranks.get? k = if k = key then none else p.ranks.get? k :=
        Dict.get?_erase _ _ _
      rw [foldl_cons, hranks, hdrop]
      by_cases hk : k = key <;> simp [hk]
    · intro k
      have hdrop : k ∈ (p.dropKey key).evictable ↔ k ≠ key ∧ k ∈ p.evictable :=
        hp.mem_erase_iff
      grind

theorem rankOf_of_isCurrent {e : HeapEntry K} (h : p.isCurrent e = true) : p.rankOf e.2 = e.1 := by
  rw [rankOf, (isCurrent_iff.mp h).2]
  rfl

/-- The entry of an evictable key. -/
theorem Covered.mem_heap (hc : p.Covered) (h : p.Valid) {key : K} (hkey : key ∈ p.evictable) :
    (p.rankOf key, key) ∈ p.heap ∧ p.isCurrent (p.rankOf key, key) = true := by
  obtain ⟨rank, hrank⟩ := Option.isSome_iff_exists.mp (h.ranked_of_evictable hkey)
  have heq : p.rankOf key = rank := by
    rw [rankOf, hrank]
    rfl
  rw [heq]
  exact ⟨hc key hkey not_mem_nil rank hrank, isCurrent_iff.mpr ⟨hkey, hrank⟩⟩

section

variable (h : Sweeps p protectedKeys sel)
include h

theorem Sweeps.mem_candidates (hsel : Selects p protectedKeys sel) :
    sel.selected.map (fun e => e.1.2) ⊆ p.candidates protectedKeys := by
  intro key hkey
  obtain ⟨e, he, rfl⟩ := mem_map.mp hkey
  have hevictable := (isCurrent_iff.mp (h.current e he)).1
  exact mem_filter.mpr ⟨hevictable, decide_eq_true (hsel.held e he).2.2⟩

/-- A candidate that is not selected is still in the heap. -/
theorem Sweeps.mem_heap (hp : p.Valid) (hc : p.Covered) {key : K}
    (hkey : key ∈ p.candidates protectedKeys) (hout : key ∉ sel.selected.map fun e => e.1.2) :
    (p.rankOf key, key) ∈ sel.heap := by
  obtain ⟨hevictable, hfree⟩ := mem_filter.mp hkey
  obtain ⟨hheap, hcurrent⟩ := hc.mem_heap hp hevictable
  rcases h.kept _ hheap hcurrent with hin | hin | hin
  · exact hin
  · exact absurd (h.deferred _ hin) (of_decide_eq_true hfree)
  · obtain ⟨e, he, heq⟩ := mem_map.mp hin
    exact absurd (mem_map.mpr ⟨e, he, by rw [heq]⟩) hout

/-- The selection is the start of the order of the candidates. -/
theorem Sweeps.take_eq (hsel : Selects p protectedKeys sel) (hp : p.Valid) (hc : p.Covered) :
    (p.evictionOrder protectedKeys).take sel.selected.length =
      sel.selected.map fun e => e.1.2 := by
  have hlex : ∀ e ∈ sel.selected, lexOf (p.rankOf e.1.2, e.1.2) = lexOf e.1 := by
    intro e he
    rw [rankOf_of_isCurrent (h.current e he)]
  have hinjective : Function.Injective fun key => lexOf (p.rankOf key, key) :=
    fun _ _ heq => (Prod.mk.inj (lexOf_injective heq)).2
  have htake := take_insertionSort_eq hinjective (hp.evictable_nodup.filter _)
    (h.mem_candidates hsel) ?_ ?_
  · rw [length_map] at htake
    exact htake
  · refine pairwise_map.mpr (h.increasing.imp_of_mem fun {a b} ha hb hlt => ?_)
    rw [hlex a ha, hlex b hb]
    exact hlt
  · intro key hkey key' hkey' hout
    obtain ⟨e, he, rfl⟩ := mem_map.mp hkey
    rw [hlex e he]
    exact h.below e he _ (h.mem_heap hp hc hkey' hout)

/-- There are too few candidates just when the selection falls short. -/
theorem Sweeps.length_lt_iff (hsel : Selects p protectedKeys sel) (hp : p.Valid) (hc : p.Covered)
    (hend : n ≤ sel.selected.length ∨ sel.heap = []) :
    (p.candidates protectedKeys).length < n ↔ sel.selected.length < n := by
  have hle := ((hsel.nodup).subperm (h.mem_candidates hsel)).length_le
  rw [length_map] at hle
  refine ⟨hle.trans_lt, fun hless => ?_⟩
  have hempty : sel.heap = [] := hend.resolve_left (not_le.mpr hless)
  have hsub : p.candidates protectedKeys ⊆ sel.selected.map fun e => e.1.2 := by
    intro key hkey
    by_contra hout
    have hin := h.mem_heap hp hc hkey hout
    rw [hempty] at hin
    exact not_mem_nil hin
  have hge := ((hp.evictable_nodup.filter _).subperm hsub).length_le
  rw [length_map] at hge
  exact lt_of_le_of_lt hge hless

/-- The heap after an eviction covers the keys that stay. -/
theorem Sweeps.covered (hc : p.Covered) (hwithout : Without p p' (sel.selected.map fun e => e.1.2))
    (hheap : p'.heap = sel.deferred ++ sel.heap) : p'.Covered := by
  intro key hkey _ rank hrank
  obtain ⟨hevictable, hout⟩ := (hwithout.evictable key).mp hkey
  rw [hwithout.ranks, if_neg hout] at hrank
  rw [hheap, mem_append]
  rcases h.kept _ (hc key hevictable not_mem_nil rank hrank)
    (isCurrent_iff.mpr ⟨hevictable, hrank⟩) with hin | hin | hin
  · exact .inr hin
  · exact .inl hin
  · obtain ⟨e, he, heq⟩ := mem_map.mp hin
    exact absurd (mem_map.mpr ⟨e, he, by rw [heq]⟩) hout

end

/-- An eviction from a covered heap is the exact one, and leaves a covered heap. -/
theorem evict_of_covered (hp : p.Valid) (hc : p.Covered) (n : Nat) (protectedKeys : Finset K) :
    ∃ victims p', p.evict n protectedKeys = .ok (victims, p') ∧
      victims.map (fun l => l.map Prod.fst) = p.exactVictims n protectedKeys ∧
      (∀ l ∈ victims, ∀ e ∈ l, p.chunks.get? e.1 = some e.2) ∧
      Without p p' ((victims.getD []).map Prod.fst) ∧ p'.Covered := by
  unfold evict exactVictims
  split
  · next hzero =>
    refine ⟨_, _, rfl, ?_, ?_, Without.refl p p.heap, hc⟩
    · rw [hzero]
      rfl
    · rintro l ⟨rfl⟩ e he
      exact absurd he not_mem_nil
  obtain ⟨sel, hselect, hsel, hlength⟩ := select_selects hp n protectedKeys
  obtain ⟨hsweeps, hend⟩ := select_sweeps hselect
  rw [hselect]
  simp only [Except.bind, hsweeps.length_lt_iff hsel hp hc hend]
  split
  · refine ⟨none, _, rfl, rfl, nofun, Without.refl p _, ?_⟩
    intro key hkey _ rank hrank
    have hkept := hsweeps.kept _ (hc key hkey not_mem_nil rank hrank)
      (isCurrent_iff.mpr ⟨hkey, hrank⟩)
    show (rank, key) ∈ sel.selected.map Prod.fst ++ sel.deferred ++ sel.heap
    rw [mem_append, mem_append]
    tauto
  · next henough =>
    have hn : sel.selected.length = n := Nat.le_antisymm hlength (not_lt.mp henough)
    have hkeys : (sel.selected.map fun e => (e.1.2, e.2)).map Prod.fst =
        sel.selected.map fun e => e.1.2 := map_map
    obtain ⟨hdrop, hheap⟩ := dropKeys_without (sel.selected.map fun e => e.1.2)
      (p := { p with heap := sel.deferred ++ sel.heap }) hp.evictable_nodup
    have hwithout : Without p _ _ := ⟨hdrop.chunks, hdrop.ranks, hdrop.evictable⟩
    have hcovered := hsweeps.covered hc hwithout hheap
    obtain ⟨heap, hcompact⟩ := maybeCompactHeap_ok fun key hkey => by
      obtain ⟨hevictable, hout⟩ := (hwithout.evictable key).mp hkey
      rw [hwithout.ranks, if_neg hout]
      exact hp.ranked_of_evictable hevictable
    rw [hkeys, hcompact]
    refine ⟨_, _, rfl, ?_, ?_, ?_, (maybeCompactHeap_covered hcovered hcompact).1⟩
    · rw [Option.map_some, hkeys, ← hsweeps.take_eq hsel hp hc, hn]
    · rintro l ⟨rfl⟩ e he
      obtain ⟨e', he', rfl⟩ := mem_map.mp he
      exact (hsel.held e' he').1
    · rw [Option.getD_some, hkeys]
      exact ⟨hwithout.chunks, hwithout.ranks, hwithout.evictable⟩

end Exact

/-! ## Runs -/

/-- The calls of a policy. A write of `ref_cnt` that makes a chunk evictable or not comes
with the call that says so. -/
inductive Call (R K : Type)
  | insert (key : K) (chunk : ChunkStatus) (ctx : ReqContext R K)
  | remove (key : K)
  | onRequestAccess (keys : List K) (ctx : ReqContext R K)
  | onRequestFinished (keyGroups : List (List K)) (ctx : ReqContext R K)
  /-- `mark_non_evictable` and `chunk.ref_cnt = n` -/
  | markNonEvictable (key : K) (n : Int)
  /-- `chunk.ref_cnt = 0` and `mark_evictable` -/
  | markEvictable (key : K)
  | setRefCnt (key : K) (n : Int)
  | clear
  | evict (n : Nat) (protectedKeys : Finset K)
  /-- another policy writes its rank into the context of the request -/
  | forgetRank (reqId : R)

section Runs

variable {R K : Type} [DecidableEq K] {p p' : LRUCachePolicy R K} {key : K}
  {chunk : ChunkStatus} {n : Int}

/-- The write that a call comes with is a transition from or to 0, or is not one. -/
def Call.allowed (p : LRUCachePolicy R K) : Call R K → Prop
  | .insert key chunk _ => key ∈ p.evictable → chunk.refCnt = 0
  | .markNonEvictable key n => (∃ c ∈ p.chunks.get? key, c.refCnt = 0) ∧ n ≠ 0
  | .markEvictable key => ∃ c ∈ p.chunks.get? key, c.refCnt ≠ 0
  | .setRefCnt key n => ∃ c ∈ p.chunks.get? key, (c.refCnt = 0 ↔ n = 0)
  | _ => True

instance (p : LRUCachePolicy R K) : (call : Call R K) → Decidable (call.allowed p)
  | .insert key chunk _ => inferInstanceAs (Decidable (key ∈ p.evictable → chunk.refCnt = 0))
  | .markNonEvictable key n =>
    inferInstanceAs (Decidable ((∃ c ∈ p.chunks.get? key, c.refCnt = 0) ∧ n ≠ 0))
  | .markEvictable key => inferInstanceAs (Decidable (∃ c ∈ p.chunks.get? key, c.refCnt ≠ 0))
  | .setRefCnt key n =>
    inferInstanceAs (Decidable (∃ c ∈ p.chunks.get? key, (c.refCnt = 0 ↔ n = 0)))
  | .remove _ | .onRequestAccess _ _ | .onRequestFinished _ _ | .clear | .evict _ _
  | .forgetRank _ => .isTrue trivial

def Call.exec [DecidableEq R] [LT K] [DecidableLT K] (p : LRUCachePolicy R K) :
    Call R K → Except Fault (LRUCachePolicy R K)
  | .insert key chunk ctx => p.insert key chunk ctx
  | .remove key => p.remove key
  | .onRequestAccess keys ctx => p.onRequestAccess keys ctx
  | .onRequestFinished keyGroups ctx => p.onRequestFinished keyGroups ctx
  | .markNonEvictable key n => (p.markNonEvictable key).map fun p => p.setRefCnt key n
  | .markEvictable key => (p.setRefCnt key 0).markEvictable key
  | .setRefCnt key n => .ok (p.setRefCnt key n)
  | .clear => .ok p.clear
  | .evict n protectedKeys => (p.evict n protectedKeys).map Prod.snd
  | .forgetRank reqId => .ok { p with requestRanks := Function.update p.requestRanks reqId none }

/-- What an insertion changes. -/
theorem insert_eq_ok [DecidableEq R] {ctx : ReqContext R K} (h : p.insert key chunk ctx = .ok p') :
    ∃ rank next requestRanks, p' = { p with
      chunks := p.chunks.insert key chunk
      ranks := p.ranks.insert key rank
      evictable := if chunk.refCnt = 0 then p.evictable.insert key else p.evictable
      heap := if chunk.refCnt = 0 then (rank, key) :: p.heap else p.heap
      nextRank := next
      requestRanks := requestRanks } := by
  obtain ⟨next, requestRanks, hrank⟩ :=
    insertRank_frame { p with chunks := p.chunks.insert key chunk } key ctx
  unfold insert at h
  simp only [hrank] at h
  refine ⟨(insertRank { p with chunks := p.chunks.insert key chunk } key ctx).1, next,
    requestRanks, ?_⟩
  by_cases hzero : chunk.refCnt = 0
  · simp only [hzero, if_true] at h ⊢
    obtain ⟨rank, hget, rfl⟩ := pushEvictable_eq_ok h
    rw [Dict.get?_insert_self] at hget
    rw [← Option.some.inj hget]
  · simp only [hzero, if_false] at h ⊢
    exact (Except.ok.inj h).symm

theorem insert_keeps [DecidableEq R] {ctx : ReqContext R K} (hp : p.Valid) (hc : p.Covered)
    (hallowed : key ∈ p.evictable → chunk.refCnt = 0) (h : p.insert key chunk ctx = .ok p') :
    p'.Valid ∧ p'.Covered := by
  obtain ⟨rank, next, requestRanks, rfl⟩ := insert_eq_ok h
  have hmem : ∀ k, k ∈ (if chunk.refCnt = 0 then p.evictable.insert key else p.evictable) ↔
      if k = key then chunk.refCnt = 0 else k ∈ p.evictable := by
    intro k
    by_cases hzero : chunk.refCnt = 0 <;> by_cases hk : k = key
    · simp [hzero, hk]
    · simp [hzero, hk]
    · simp only [hzero, hk, if_true, if_false, iff_false]
      exact fun hin => hzero (hallowed hin)
    · simp [hzero, hk]
  refine ⟨⟨?_, ?_, ?_⟩, ?_⟩
  · intro k hk
    show ((p.ranks.insert key rank).get? k).isSome
    rw [Dict.mem_keys_iff, Dict.get?_insert] at hk
    rw [Dict.get?_insert]
    by_cases heq : k = key
    · simp [heq]
    · rw [if_neg heq] at hk ⊢
      exact hp.ranked k (Dict.mem_keys_iff.mpr hk)
  · show (if chunk.refCnt = 0 then p.evictable.insert key else p.evictable).Nodup
    split
    · exact hp.evictable_nodup.insert
    · exact hp.evictable_nodup
  · intro k
    show k ∈ (if chunk.refCnt = 0 then p.evictable.insert key else p.evictable) ↔
      ∃ c, (p.chunks.insert key chunk).get? k = some c ∧ c.refCnt = 0
    rw [hmem, Dict.get?_insert]
    by_cases hk : k = key
    · simp [hk]
    · simp [hk, hp.mem_evictable]
  · intro k hk _ rank' hrank'
    have hk := (hmem k).mp hk
    rw [Dict.get?_insert] at hrank'
    show (rank', k) ∈ if chunk.refCnt = 0 then (rank, key) :: p.heap else p.heap
    by_cases heq : k = key
    · rw [if_pos heq] at hk hrank'
      rw [if_pos hk, heq, Option.some.inj hrank']
      exact mem_cons_self
    rw [if_neg heq] at hk hrank'
    have hin := hc k hk not_mem_nil rank' hrank'
    split
    · exact mem_cons_of_mem _ hin
    · exact hin

theorem empty_valid (hchunks : p.chunks = .empty) (hevictable : p.evictable = []) : p.Valid where
  ranked key hkey := by
    rw [hchunks] at hkey
    cases hkey
  evictable_nodup := by
    rw [hevictable]
    exact nodup_nil
  mem_evictable key := by
    rw [hchunks, hevictable]
    simp

theorem remove_keeps (hp : p.Valid) (hc : p.Covered) (h : p.remove key = .ok p') :
    p'.Valid ∧ p'.Covered := by
  unfold remove at h
  split at h
  · cases h
  cases h
  refine ⟨hp.drop key p.heap, ?_⟩
  intro k hk _ rank hrank
  exact hc k (mem_of_mem_erase hk) not_mem_nil rank (Dict.get?_erase_eq_some.mp hrank).2

theorem markNonEvictable_keeps (hp : p.Valid) (hc : p.Covered) {c : ChunkStatus}
    (hget : p.chunks.get? key = some c) (hn : n ≠ 0)
    (h : (p.markNonEvictable key).map (fun p => p.setRefCnt key n) = .ok p') :
    p'.Valid ∧ p'.Covered := by
  obtain ⟨p₁, hmark, rfl⟩ := map_eq_ok.mp h
  unfold markNonEvictable at hmark
  split at hmark
  · cases hmark
    rw [setRefCnt_of_get (p := { p with evictable := p.evictable.erase key }) hget]
    refine ⟨hp.setStatus hget _ (hp.evictable_nodup.erase key) fun k => ?_, ?_⟩
    · rw [hp.evictable_nodup.mem_erase_iff]
      by_cases hk : k = key <;> simp [hn]
    · intro k hk _ rank hrank
      exact hc k (mem_of_mem_erase hk) not_mem_nil rank hrank
  · cases hmark

theorem markEvictable_keeps (hp : p.Valid) (hc : p.Covered) {c : ChunkStatus}
    (hget : p.chunks.get? key = some c)
    (h : (p.setRefCnt key 0).markEvictable key = .ok p') : p'.Valid ∧ p'.Covered := by
  obtain ⟨p₁, hunpin, hvalid, -⟩ := unpin_valid hp hget
  rw [h] at hunpin
  cases hunpin
  refine ⟨hvalid, ?_⟩
  rw [setRefCnt_of_get hget] at h
  obtain ⟨p₁, hpush, hcompact⟩ := bind_eq_ok.mp h
  obtain ⟨rank, hrank, rfl⟩ := pushEvictable_eq_ok hpush
  refine (maybeCompactHeap_covered ?_ hcompact).1
  intro k hk _ rank' hrank'
  rcases mem_insert_iff.mp hk with rfl | hk
  · have heq : some rank = some rank' := hrank.symm.trans hrank'
    rw [Option.some.inj heq]
    exact mem_cons_self
  · exact mem_cons_of_mem _ (hc k hk not_mem_nil rank' hrank')

theorem setRefCnt_keeps (hp : p.Valid) (hc : p.Covered) {c : ChunkStatus}
    (hget : p.chunks.get? key = some c) (hn : c.refCnt = 0 ↔ n = 0) :
    (p.setRefCnt key n).Valid ∧ (p.setRefCnt key n).Covered := by
  rw [setRefCnt_of_get hget]
  refine ⟨hp.setStatus hget _ hp.evictable_nodup fun k => ?_, hc⟩
  by_cases hk : k = key
  · simp [hk, hp.mem_evictable, hget, hn]
  · simp [hk]

end Runs

section Theorem

variable {R K : Type} [DecidableEq R] [LinearOrder K] {p p' : LRUCachePolicy R K}

theorem Call.exec_keeps {call : Call R K} (hp : p.Valid ∧ p.Covered) (hallowed : call.allowed p)
    (h : call.exec p = .ok p') : p'.Valid ∧ p'.Covered := by
  obtain ⟨hp, hc⟩ := hp
  cases call with
  | insert key chunk ctx => exact insert_keeps hp hc hallowed h
  | remove key => exact remove_keeps hp hc h
  | onRequestAccess keys ctx =>
    obtain ⟨p₁, haccess, hvalid, -⟩ := onRequestAccess_valid hp keys ctx
    have heq : Except.ok p₁ = Except.ok p' := haccess.symm.trans h
    rw [← Except.ok.inj heq]
    exact ⟨hvalid, onRequestAccess_covered hc haccess⟩
  | onRequestFinished keyGroups ctx =>
    obtain ⟨p₁, hfinished, hvalid, -⟩ := onRequestFinished_valid hp keyGroups ctx
    have heq : Except.ok p₁ = Except.ok p' := hfinished.symm.trans h
    rw [← Except.ok.inj heq]
    exact ⟨hvalid, onRequestFinished_covered hc hfinished⟩
  | markNonEvictable key n =>
    obtain ⟨⟨c, hget, -⟩, hn⟩ := hallowed
    exact markNonEvictable_keeps hp hc hget hn h
  | markEvictable key =>
    obtain ⟨c, hget, -⟩ := hallowed
    exact markEvictable_keeps hp hc hget h
  | setRefCnt key n =>
    obtain ⟨c, hget, hn⟩ := hallowed
    cases h
    exact setRefCnt_keeps hp hc hget hn
  | clear =>
    cases h
    exact ⟨empty_valid rfl rfl, nofun⟩
  | evict n protectedKeys =>
    obtain ⟨⟨victims, p₁⟩, hevict, rfl⟩ := map_eq_ok.mp h
    obtain ⟨victims', p₂, hevict', hvalid, -⟩ := evict_valid hp n protectedKeys
    obtain ⟨victims'', p₃, hevict'', -, -, -, hcovered⟩ := evict_of_covered hp hc n protectedKeys
    rw [hevict] at hevict' hevict''
    cases hevict'
    cases hevict''
    exact ⟨hvalid, hcovered⟩
  | forgetRank reqId =>
    cases h
    exact ⟨⟨hp.ranked, hp.evictable_nodup, hp.mem_evictable⟩, hc⟩

/-- In every state that the calls reach, an eviction returns the first keys of the order of
the evictable keys that are not protected and takes out just these, or returns nothing and
takes out none because there are too few. -/
theorem evict_exact (h : Reaches Call.allowed Call.exec init p) (n : Nat)
    (protectedKeys : Finset K) :
    ∃ victims p', p.evict n protectedKeys = .ok (victims, p') ∧
      victims.map (fun l => l.map Prod.fst) = p.exactVictims n protectedKeys ∧
      (∀ l ∈ victims, ∀ e ∈ l, p.chunks.get? e.1 = some e.2) ∧
      Without p p' ((victims.getD []).map Prod.fst) := by
  obtain ⟨hp, hc⟩ := h.invariant ⟨empty_valid rfl rfl, nofun⟩ fun _ _ _ hs hallowed hexec =>
    Call.exec_keeps hs hallowed hexec
  obtain ⟨victims, p', hevict, hexact, hheld, hwithout, -⟩ :=
    evict_of_covered hp hc n protectedKeys
  exact ⟨victims, p', hevict, hexact, hheld, hwithout⟩

/-- Two chunks become evictable, the older one is loaded once and read by its request
again, and a third one stays in its write. -/
def threeChunks : List (Call Nat Nat) :=
  let ctx : ReqContext Nat Nat := ⟨0, fun _ => none⟩
  [.insert 7 (.new 0) ctx, .insert 5 (.new 1) ctx, .insert 9 (.new 2) ctx, .markEvictable 7,
    .markEvictable 5, .markNonEvictable 7 1, .markEvictable 7, .onRequestFinished [[7]] ctx]

/-- The chunk whose rank has not changed leaves first. -/
theorem evict_exact_threeChunks :
    ∃ p : LRUCachePolicy Nat Nat, Reaches Call.allowed Call.exec init p ∧
      ∃ victims p', p.evict 1 ∅ = .ok (victims, p') ∧
        victims.map (fun l => l.map Prod.fst) = some [5] ∧
        Without p p' ((victims.getD []).map Prod.fst) := by
  obtain ⟨p, hrun, hexact⟩ : ∃ p : LRUCachePolicy Nat Nat, threeChunks.foldlM (fun p call =>
      if decide (call.allowed p) then call.exec p else .error .keyError) init = .ok p ∧
      p.exactVictims 1 ∅ = some [5] := ⟨_, rfl, by decide +kernel⟩
  have hreaches : Reaches Call.allowed Call.exec init p :=
    Reaches.of_foldlM (fun _ _ _ h => of_decide_eq_true h) hrun
  obtain ⟨victims, p', hevict, hvictims, -, hwithout⟩ := evict_exact hreaches 1 ∅
  exact ⟨p, hreaches, victims, p', hevict, hvictims.trans hexact, hwithout⟩

end Theorem

end Vllm.Offload.LRUCachePolicy
