import Vllm.Offload.PoolRuns

/-!
# The lists of the ARC policy

`ARCCachePolicy` (`v1/kv_offload/cpu/policies/arc.py`) keeps two lists of chunks and two
ghost lists of keys that left them. `Arranged` says how the four lists and the adaptive
target stand to each other, and each call of the policy keeps it. An eviction moves `n`
chunks without a reference to the ghost lists, or leaves the policy as it is because
there are too few (`evict_exact_or_none`).

The calls that `CPUOffloadingManager` makes are recorded by a policy that remembers its
past (`Traced`), so that what holds after each of them is said of a run of the manager.
-/

namespace Vllm.Offload

open Library List

namespace ARCCachePolicy

variable {R K : Type} [DecidableEq K] {p p' : ARCCachePolicy R K} {key : K} {c : ChunkStatus}
  {capacity : Nat} {protectedKeys : Finset K} {x : (K × ChunkStatus) × Bool}
  {l : List ((K × ChunkStatus) × Bool)} {sc : Scan K}

/-! ## The four lists -/

def ListsDisjoint (p : ARCCachePolicy R K) : Prop :=
  [p.t1.keys, p.t2.keys, p.b1.keys, p.b2.keys].Pairwise List.Disjoint

omit [DecidableEq K] in
theorem listsDisjoint_iff : p.ListsDisjoint ↔ ∀ key,
    (key ∈ p.t1.keys → key ∉ p.t2.keys ∧ key ∉ p.b1.keys ∧ key ∉ p.b2.keys) ∧
    (key ∈ p.t2.keys → key ∉ p.b1.keys ∧ key ∉ p.b2.keys) ∧
    (key ∈ p.b1.keys → key ∉ p.b2.keys) := by
  simp only [ListsDisjoint, pairwise_cons, mem_cons, not_mem_nil, or_false,
    forall_eq_or_imp, forall_eq, List.Disjoint, List.Pairwise.nil, and_true, false_imp_iff,
    implies_true]
  constructor
  · rintro ⟨⟨h12, h1b1, h1b2⟩, ⟨h2b1, h2b2⟩, hb⟩ key
    exact ⟨fun h => ⟨h12 h, h1b1 h, h1b2 h⟩, fun h => ⟨h2b1 h, h2b2 h⟩, fun h => hb h⟩
  · intro h
    exact ⟨⟨fun k hk => ((h k).1 hk).1, fun k hk => ((h k).1 hk).2.1, fun k hk => ((h k).1 hk).2.2⟩,
      ⟨fun k hk => ((h k).2.1 hk).1, fun k hk => ((h k).2.1 hk).2⟩, fun k hk => (h k).2.2 hk⟩

def size (p : ARCCachePolicy R K) : Nat := p.t1.keys.length + p.t2.keys.length

/-- The ghost lists and the target fit the capacity, and the four lists share no key. -/
structure Arranged (p : ARCCachePolicy R K) (capacity : Nat) : Prop where
  cacheCapacity : p.cacheCapacity = capacity
  disjoint : p.ListsDisjoint
  ghost1 : p.b1.keys.length ≤ capacity
  ghost2 : p.b2.keys.length ≤ capacity
  target_nonneg : 0 ≤ p.targetT1Size
  target_le : p.targetT1Size ≤ capacity

omit [DecidableEq K] in
theorem size_eq (p : ARCCachePolicy R K) : p.size = p.residents.length := by
  rw [size, residents, length_append, Dict.keys, Dict.keys, length_map, length_map]

section

variable (h : p.Arranged capacity)
include h

theorem Arranged.valid : p.Valid := by
  intro key
  by_cases hin : key ∈ p.t1.keys
  · exact .inr (Dict.get?_eq_none_of_notMem ((listsDisjoint_iff.mp h.disjoint key).1 hin).1)
  · exact .inl (Dict.get?_eq_none_of_notMem hin)

omit [DecidableEq K] in
/-- No list gets a key and the target stays. -/
theorem Arranged.mono (hcapacity : p'.cacheCapacity = p.cacheCapacity)
    (htarget : p'.targetT1Size = p.targetT1Size)
    (ht1 : p'.t1.keys ⊆ p.t1.keys) (ht2 : p'.t2.keys ⊆ p.t2.keys) (hb1 : p'.b1 = p.b1)
    (hb2 : p'.b2 = p.b2) : p'.Arranged capacity where
  cacheCapacity := hcapacity.trans h.cacheCapacity
  disjoint := by
    rw [listsDisjoint_iff, hb1, hb2]
    intro key
    obtain ⟨h1, h2, hb⟩ := listsDisjoint_iff.mp h.disjoint key
    exact ⟨fun hin => ⟨fun hin' => (h1 (ht1 hin)).1 (ht2 hin'), (h1 (ht1 hin)).2⟩,
      fun hin => h2 (ht2 hin), hb⟩
  ghost1 := hb1 ▸ h.ghost1
  ghost2 := hb2 ▸ h.ghost2
  target_nonneg := htarget ▸ h.target_nonneg
  target_le := htarget ▸ h.target_le

omit h [DecidableEq K] in
theorem arranged_init (capacity : Nat) :
    (init capacity : ARCCachePolicy R K).Arranged capacity where
  cacheCapacity := rfl
  disjoint := listsDisjoint_iff.mpr fun _ => ⟨nofun, nofun, nofun⟩
  ghost1 := Nat.zero_le _
  ghost2 := Nat.zero_le _
  target_nonneg := le_refl _
  target_le := Nat.cast_nonneg capacity

omit [DecidableEq K] in
theorem Arranged.clear : p.clear.Arranged capacity := by
  rw [ARCCachePolicy.clear, h.cacheCapacity]
  exact arranged_init capacity

theorem Arranged.setRefCnt (key : K) (n : Int) : (p.setRefCnt key n).Arranged capacity := by
  unfold ARCCachePolicy.setRefCnt
  split
  · next hget =>
    refine h.mono rfl rfl (fun k hk => ?_) (List.Subset.refl _) rfl rfl
    rcases Dict.mem_keys_insert.mp hk with rfl | hk
    · exact Dict.mem_keys_iff.mpr (by simp [hget])
    · exact hk
  · next hget =>
    refine h.mono rfl rfl (List.Subset.refl _) (fun k hk => ?_) rfl rfl
    rcases Dict.mem_keys_insert.mp hk with rfl | hk
    · exact Dict.mem_keys_iff.mpr (by simp [hget])
    · exact hk
  · exact h

theorem size_setRefCnt (hget : p.get key = some c) (n : Int) :
    (p.setRefCnt key n).size = p.size := by
  obtain ⟨-, rest, hold, hnew⟩ := setRefCnt_valid h.valid ((get_eq_some h.valid).mp hget) n
  rw [size_eq, size_eq, hold.length_eq, hnew.length_eq, length_cons, length_cons]

theorem Arranged.insert (hout : key ∉ p.t2.keys) (c : ChunkStatus) :
    (p.insert key c).Arranged capacity where
  cacheCapacity := h.cacheCapacity
  disjoint := by
    rw [listsDisjoint_iff]
    intro k
    obtain ⟨h1, h2, hb⟩ := listsDisjoint_iff.mp h.disjoint k
    simp only [ARCCachePolicy.insert, Dict.mem_keys_insert, Dict.mem_keys_erase]
    by_cases hk : k = key
    · subst hk
      exact ⟨fun _ => ⟨hout, fun hin => hin.1 rfl, fun hin => hin.1 rfl⟩,
        fun hin => absurd hin hout,
        fun hin => absurd rfl hin.1⟩
    exact ⟨fun hin => ⟨(h1 (hin.resolve_left hk)).1,
        fun hin' => (h1 (hin.resolve_left hk)).2.1 hin'.2,
        fun hin' => (h1 (hin.resolve_left hk)).2.2 hin'.2⟩,
      fun hin => ⟨fun hin' => (h2 hin).1 hin'.2, fun hin' => (h2 hin).2 hin'.2⟩,
      fun hin hin' => hb hin.2 hin'.2⟩
  ghost1 := (p.b1.length_keys_erase_le key).trans h.ghost1
  ghost2 := (p.b2.length_keys_erase_le key).trans h.ghost2
  target_nonneg := h.target_nonneg
  target_le := h.target_le

omit h in
theorem size_insert_le (p : ARCCachePolicy R K) (key : K) (c : ChunkStatus) :
    (p.insert key c).size ≤ p.size + 1 := by
  have hle := p.t1.length_keys_insert_le key c
  show (p.t1.insert key c).keys.length + p.t2.keys.length ≤ p.size + 1
  rw [size]
  omega

theorem Arranged.remove (key : K) : (p.remove key).Arranged capacity := by
  unfold ARCCachePolicy.remove
  split
  · exact h.mono rfl rfl (fun k hk => (Dict.mem_keys_erase.mp hk).2) (List.Subset.refl _) rfl rfl
  · exact h.mono rfl rfl (List.Subset.refl _) (fun k hk => (Dict.mem_keys_erase.mp hk).2) rfl rfl

theorem size_remove (hget : p.get key = some c) : (p.remove key).size + 1 = p.size := by
  obtain ⟨-, hperm⟩ := remove_valid h.valid ((get_eq_some h.valid).mp hget)
  rw [size_eq, size_eq, hperm.length_eq, length_cons]

omit [DecidableEq K] in
/-- A key of a ghost list moves to its end. -/
theorem Arranged.retarget {target : Rat} {b1 b2 : Dict K Unit}
    (hb1 : ∀ k, k ∈ b1.keys ↔ k ∈ p.b1.keys) (hb2 : ∀ k, k ∈ b2.keys ↔ k ∈ p.b2.keys)
    (hlength1 : b1.keys.length = p.b1.keys.length) (hlength2 : b2.keys.length = p.b2.keys.length)
    (hnonneg : 0 ≤ target) (hle : target ≤ capacity) :
    Arranged ({ p with targetT1Size := target, b1 := b1, b2 := b2 } : ARCCachePolicy R K)
      capacity where
  cacheCapacity := h.cacheCapacity
  disjoint := by
    rw [listsDisjoint_iff]
    intro k
    simp only [hb1, hb2]
    exact listsDisjoint_iff.mp h.disjoint k
  ghost1 := hlength1.trans_le h.ghost1
  ghost2 := hlength2.trans_le h.ghost2
  target_nonneg := hnonneg
  target_le := hle

theorem Arranged.adaptToGhostHit (key : K) : (p.adaptToGhostHit key).Arranged capacity := by
  have hcap : (0 : Rat) ≤ capacity := Nat.cast_nonneg capacity
  have hnonneg := h.target_nonneg
  have hle := h.target_le
  unfold ARCCachePolicy.adaptToGhostHit
  split
  · refine h.retarget (fun k => Dict.mem_keys_moveToEnd) (fun _ => Iff.rfl)
      (p.b1.length_keys_moveToEnd key) rfl ?_ ?_
    · rw [h.cacheCapacity]
      refine le_min (add_nonneg hnonneg ?_) hcap
      exact zero_le_one.trans (le_max_left _ _)
    · rw [h.cacheCapacity]
      exact min_le_right _ _
  · split
    · refine h.retarget (fun _ => Iff.rfl) (fun k => Dict.mem_keys_moveToEnd) rfl
        (p.b2.length_keys_moveToEnd key) (le_max_right _ _) (max_le ?_ hcap)
      have hpos : (0 : Rat) ≤ max 1 ((p.b1.keys.length : Rat) / p.b2.keys.length) :=
        zero_le_one.trans (le_max_left _ _)
      linarith
    · exact h

theorem Arranged.onStoreMiss (keys : List K) : (p.onStoreMiss keys).Arranged capacity :=
  List.foldlRecOn keys.reverse _ (motive := fun p : ARCCachePolicy R K => p.Arranged capacity) h
    fun _ hp key _ => hp.adaptToGhostHit key

theorem Arranged.finishKey (inserted reused : Finset K) (key : K) :
    (p.finishKey inserted reused key).Arranged capacity := by
  have hmove1 : Arranged ({ p with t1 := p.t1.moveToEnd key } : ARCCachePolicy R K) capacity :=
    h.mono rfl rfl (fun k hk => Dict.mem_keys_moveToEnd.mp hk) (List.Subset.refl _) rfl rfl
  have hmove2 : Arranged ({ p with t2 := p.t2.moveToEnd key } : ARCCachePolicy R K) capacity :=
    h.mono rfl rfl (List.Subset.refl _) (fun k hk => Dict.mem_keys_moveToEnd.mp hk) rfl rfl
  unfold ARCCachePolicy.finishKey
  split
  · split
    · exact hmove1
    · exact hmove2
  split
  · split
    · next c hget =>
      have hin : key ∈ p.t1.keys := Dict.mem_keys_iff.mpr (by simp [hget])
      refine ⟨h.cacheCapacity, ?_, h.ghost1, h.ghost2, h.target_nonneg, h.target_le⟩
      rw [listsDisjoint_iff]
      intro k
      obtain ⟨h1, h2, hb⟩ := listsDisjoint_iff.mp h.disjoint k
      simp only [Dict.mem_keys_insert, Dict.mem_keys_erase]
      refine ⟨fun hin' => ⟨fun hin'' => ?_, (h1 hin'.2).2⟩, fun hin' => ?_, hb⟩
      · exact (h1 hin'.2).1 (hin''.resolve_left hin'.1)
      · rcases hin' with rfl | hin'
        · exact (h1 hin).2
        · exact h2 hin'
    · exact hmove2
  · exact h

theorem Arranged.onRequestFinished (keyGroups : List (List K))
    (inserted reused : Finset K) (ctx : ReqContext R K) :
    (p.onRequestFinished keyGroups inserted reused ctx).Arranged capacity :=
  List.foldlRecOn _ _ (motive := fun p : ARCCachePolicy R K => p.Arranged capacity) h
    fun _ hp key _ => hp.finishKey inserted reused key

theorem size_onStoreMiss (keys : List K) : (p.onStoreMiss keys).size = p.size := by
  rw [size_eq, size_eq]
  exact (foldl_reorders (fun _ hp key => adaptToGhostHit_reorders hp key) _ h.valid).2.length_eq

end

theorem get_onStoreMiss (p : ARCCachePolicy R K) (keys : List K) (key : K) :
    (p.onStoreMiss keys).get key = p.get key := by
  refine List.foldlRecOn keys.reverse _
    (motive := fun q : ARCCachePolicy R K => q.get key = p.get key) rfl ?_
  intro q hq k _
  rw [← hq]
  unfold adaptToGhostHit
  split
  · rfl
  · split <;> rfl

theorem notMem_t2_of_get (h : p.get key = none) : key ∉ p.t2.keys := by
  intro hin
  obtain ⟨c, hc⟩ := Option.isSome_iff_exists.mp (Dict.mem_keys_iff.mp hin)
  unfold get at h
  cases h1 : p.t1.get? key <;> simp [hc] at h

theorem size_onRequestFinished (h : p.Arranged capacity) (keyGroups : List (List K))
    (inserted reused : Finset K) (ctx : ReqContext R K) :
    (p.onRequestFinished keyGroups inserted reused ctx).size = p.size := by
  rw [size_eq, size_eq]
  exact (foldl_reorders (fun _ hp key => finishKey_reorders hp inserted reused key) _
    h.valid).2.length_eq

/-! ## Eviction -/

/-- The chunks that may go. -/
def candidates (p : ARCCachePolicy R K) (protectedKeys : Finset K) : List (K × ChunkStatus) :=
  p.residents.filter fun e => e.2.refCnt = 0 ∧ e.1 ∉ protectedKeys

/-- How many chunks of a scan may go. -/
def numFree (protectedKeys : Finset K) (l : List (K × ChunkStatus)) : Nat :=
  l.countP fun e => e.2.refCnt = 0 ∧ e.1 ∉ protectedKeys

theorem numFree_nextCandidate (protectedKeys : Finset K) (l : List (K × ChunkStatus)) :
    numFree protectedKeys l = numFree protectedKeys (nextCandidate protectedKeys l).2 +
      (nextCandidate protectedKeys l).1.isSome.toNat ∧
    ((nextCandidate protectedKeys l).1 = none → numFree protectedKeys l = 0) := by
  induction l with
  | nil => exact ⟨rfl, fun _ => rfl⟩
  | cons e l ih =>
    unfold nextCandidate
    by_cases hfree : e.2.refCnt = 0 ∧ e.1 ∉ protectedKeys
    · rw [if_pos hfree]
      exact ⟨by simp [numFree, hfree], fun hnone => by cases hnone⟩
    rw [if_neg hfree]
    have hskip : numFree protectedKeys (e :: l) = numFree protectedKeys l :=
      countP_cons_of_neg (by simpa using hfree)
    rw [hskip]
    exact ih

/-- How many chunks the two scans have left. -/
def Scan.left (sc : Scan K) (protectedKeys : Finset K) : Nat :=
  numFree protectedKeys sc.t1 + numFree protectedKeys sc.t2

theorem left_fromT1 (sc : Scan K) (protectedKeys : Finset K) :
    sc.left protectedKeys = (sc.fromT1 protectedKeys).2.left protectedKeys +
      (sc.fromT1 protectedKeys).1.toNat ∧
    ((sc.fromT1 protectedKeys).1 = false → numFree protectedKeys sc.t1 = 0) ∧
    (sc.fromT1 protectedKeys).2.t2 = sc.t2 := by
  obtain ⟨hcount, hnone⟩ := numFree_nextCandidate protectedKeys sc.t1
  unfold Scan.fromT1 Scan.left
  cases hnext : nextCandidate protectedKeys sc.t1 with
  | mk found rest =>
    rw [hnext] at hcount hnone
    cases found with
    | none =>
      refine ⟨?_, fun _ => hnone rfl, rfl⟩
      simpa using hcount
    | some e =>
      refine ⟨?_, nofun, rfl⟩
      simp only [Option.isSome_some, Bool.toNat_true] at hcount ⊢
      omega

theorem left_fromT2 (sc : Scan K) (protectedKeys : Finset K) :
    sc.left protectedKeys = (sc.fromT2 protectedKeys).2.left protectedKeys +
      (sc.fromT2 protectedKeys).1.toNat ∧
    ((sc.fromT2 protectedKeys).1 = false → numFree protectedKeys sc.t2 = 0) ∧
    (sc.fromT2 protectedKeys).2.t1 = sc.t1 := by
  obtain ⟨hcount, hnone⟩ := numFree_nextCandidate protectedKeys sc.t2
  unfold Scan.fromT2 Scan.left
  cases hnext : nextCandidate protectedKeys sc.t2 with
  | mk found rest =>
    rw [hnext] at hcount hnone
    cases found with
    | none =>
      refine ⟨?_, fun _ => hnone rfl, rfl⟩
      simpa using hcount
    | some e =>
      refine ⟨?_, nofun, rfl⟩
      simp only [Option.isSome_some, Bool.toNat_true] at hcount ⊢
      omega

/-- A pass takes one chunk, or there is none left. -/
theorem left_pass (sc : Scan K) (target : Int) (protectedKeys : Finset K) :
    (sc.pass target protectedKeys = none ∧ sc.left protectedKeys = 0) ∨
      ∃ sc', sc.pass target protectedKeys = some sc' ∧
        sc.left protectedKeys = sc'.left protectedKeys + 1 := by
  unfold Scan.pass
  obtain ⟨found, sc₁, heq, hleft₁⟩ : ∃ found sc₁,
      (if target ≤ sc.virtualT1Size then sc.fromT1 protectedKeys else (false, sc)) = (found, sc₁) ∧
      sc.left protectedKeys = sc₁.left protectedKeys + found.toNat := by
    split
    · exact ⟨_, _, rfl, (left_fromT1 sc protectedKeys).1⟩
    · exact ⟨false, sc, rfl, rfl⟩
  rw [heq]
  simp only
  cases found with
  | true => exact .inr ⟨sc₁, rfl, hleft₁⟩
  | false =>
    obtain ⟨hleft₂, hnone₂, ht1⟩ := left_fromT2 sc₁ protectedKeys
    cases hfound : (sc₁.fromT2 protectedKeys).1 with
    | true =>
      rw [hfound] at hleft₂
      exact .inr ⟨_, rfl, hleft₁.trans hleft₂⟩
    | false =>
      obtain ⟨hleft₃, hnone₃, -⟩ := left_fromT1 (sc₁.fromT2 protectedKeys).2 protectedKeys
      rw [hfound] at hleft₂
      simp only [Bool.false_eq_true, if_false, Bool.toNat_false, Nat.add_zero] at *
      cases hlast : ((sc₁.fromT2 protectedKeys).2.fromT1 protectedKeys).1 with
      | true =>
        rw [hlast] at hleft₃
        exact .inr ⟨_, rfl, (hleft₁.trans hleft₂).trans hleft₃⟩
      | false =>
        refine .inl ⟨rfl, ?_⟩
        rw [hleft₁]
        unfold Scan.left
        rw [hnone₂ hfound, ← ht1, hnone₃ hlast]

/-- The passes fail just when there are too few chunks. -/
theorem passes_eq_none (target : Int) (protectedKeys : Finset K) (n : Nat) (sc : Scan K) :
    Scan.passes target protectedKeys n sc = none ↔ sc.left protectedKeys < n := by
  induction n generalizing sc with
  | zero => exact ⟨nofun, fun h => absurd h (Nat.not_lt_zero _)⟩
  | succ n ih =>
    unfold Scan.passes
    rcases left_pass sc target protectedKeys with ⟨hpass, hleft⟩ | ⟨sc', hpass, hleft⟩
    · rw [hpass, hleft]
      exact ⟨fun _ => Nat.succ_pos n, fun _ => rfl⟩
    · rw [hpass, Option.bind_some, ih, hleft]
      exact Nat.succ_lt_succ_iff.symm

/-- `victims` go from their list to its ghost list. -/
structure Evicts (p p' : ARCCachePolicy R K) (victims : List (K × ChunkStatus)) : Prop where
  t1 : ∀ key, p'.t1.get? key = if key ∈ victims.map Prod.fst then none else p.t1.get? key
  t2 : ∀ key, p'.t2.get? key = if key ∈ victims.map Prod.fst then none else p.t2.get? key
  ghost1 : ∀ e ∈ victims, p.t1.get? e.1 = some e.2 → e.1 ∈ p'.b1.keys
  ghost2 : ∀ e ∈ victims, p.t2.get? e.1 = some e.2 → e.1 ∈ p'.b2.keys

/-- The keys of the candidates from one of the lists. -/
def keysFrom (fromT1 : Bool) (l : List ((K × ChunkStatus) × Bool)) : List K :=
  (l.filter fun x => x.2 = fromT1).map fun x => x.1.1

/-- What the candidates leave. -/
structure Ghosted (p p' : ARCCachePolicy R K) (l : List ((K × ChunkStatus) × Bool)) : Prop where
  cacheCapacity : p'.cacheCapacity = p.cacheCapacity
  target : p'.targetT1Size = p.targetT1Size
  disjoint : p'.ListsDisjoint
  t1 : ∀ key, p'.t1.get? key = if key ∈ l.map (fun x => x.1.1) then none else p.t1.get? key
  t2 : ∀ key, p'.t2.get? key = if key ∈ l.map (fun x => x.1.1) then none else p.t2.get? key
  b1 : p'.b1.keys = p.b1.keys ++ keysFrom true l
  b2 : p'.b2.keys = p.b2.keys ++ keysFrom false l

theorem moveToGhost_ghosted (h : p.ListsDisjoint) (x : (K × ChunkStatus) × Bool)
    (hin : x.1.1 ∈ (if x.2 then p.t1 else p.t2).keys) : Ghosted p (p.moveToGhost x) [x] := by
  obtain ⟨⟨key, c⟩, fromT1⟩ := x
  have hkey := listsDisjoint_iff.mp h key
  cases fromT1 with
  | true =>
    obtain ⟨hout2, houtb1, houtb2⟩ := hkey.1 hin
    refine ⟨rfl, rfl, ?_, ?_, ?_, Dict.keys_insert_of_notMem houtb1 _, (append_nil _).symm⟩
    · rw [listsDisjoint_iff]
      intro k
      obtain ⟨h1, h2, hb⟩ := listsDisjoint_iff.mp h k
      simp only [moveToGhost, if_true, Dict.mem_keys_insert, Dict.mem_keys_erase]
      grind
    · intro k
      show (p.t1.erase key).get? k = _
      rw [Dict.get?_erase]
      simp
    · intro k
      show p.t2.get? k = _
      by_cases hk : k = key
      · simp [hk, Dict.get?_eq_none_of_notMem hout2]
      · simp [hk]
  | false =>
    obtain ⟨houtb1, houtb2⟩ := hkey.2.1 hin
    have hout1 : key ∉ p.t1.keys := fun hin1 => (hkey.1 hin1).1 hin
    refine ⟨rfl, rfl, ?_, ?_, ?_, (append_nil _).symm, Dict.keys_insert_of_notMem houtb2 _⟩
    · rw [listsDisjoint_iff]
      intro k
      obtain ⟨h1, h2, hb⟩ := listsDisjoint_iff.mp h k
      simp only [moveToGhost, Bool.false_eq_true, if_false, Dict.mem_keys_insert,
        Dict.mem_keys_erase]
      grind
    · intro k
      show p.t1.get? k = _
      by_cases hk : k = key
      · simp [hk, Dict.get?_eq_none_of_notMem hout1]
      · simp [hk]
    · intro k
      show (p.t2.erase key).get? k = _
      rw [Dict.get?_erase]
      simp

theorem Ghosted.cons {p₁ : ARCCachePolicy R K} (h : Ghosted p p₁ [x]) (h' : Ghosted p₁ p' l) :
    Ghosted p p' (x :: l) where
  cacheCapacity := h'.cacheCapacity.trans h.cacheCapacity
  target := h'.target.trans h.target
  disjoint := h'.disjoint
  t1 key := by
    rw [h'.t1, h.t1, map_cons, map_cons]
    simp only [map_nil, mem_cons, not_mem_nil, or_false]
    by_cases hk : key = x.1.1 <;> simp only [hk, true_or, false_or, if_true, if_false, ite_self]
  t2 key := by
    rw [h'.t2, h.t2, map_cons, map_cons]
    simp only [map_nil, mem_cons, not_mem_nil, or_false]
    by_cases hk : key = x.1.1 <;> simp only [hk, true_or, false_or, if_true, if_false, ite_self]
  b1 := by
    rw [h'.b1, h.b1]
    cases hx : x.2 <;> simp [keysFrom, hx]
  b2 := by
    rw [h'.b2, h.b2]
    cases hx : x.2 <;> simp [keysFrom, hx]

theorem moveToGhosts_ghosted (l : List ((K × ChunkStatus) × Bool)) (p : ARCCachePolicy R K)
    (h : p.ListsDisjoint) (hnodup : (l.map fun x => x.1.1).Nodup)
    (hget : ∀ x ∈ l, (if x.2 then p.t1 else p.t2).get? x.1.1 = some x.1.2) :
    Ghosted p (l.foldl moveToGhost p) l := by
  induction l generalizing p with
  | nil =>
    exact ⟨rfl, rfl, h, fun _ => rfl, fun _ => rfl, (append_nil _).symm, (append_nil _).symm⟩
  | cons x l ih =>
    obtain ⟨hout, hnodup⟩ := nodup_cons.mp hnodup
    have hin : x.1.1 ∈ (if x.2 then p.t1 else p.t2).keys :=
      Dict.mem_keys_iff.mpr (by rw [hget x mem_cons_self]; rfl)
    have hfirst := moveToGhost_ghosted h x hin
    refine hfirst.cons (ih (p.moveToGhost x) hfirst.disjoint hnodup fun y hy => ?_)
    have hne : y.1.1 ≠ x.1.1 := fun heq => hout (mem_map.mpr ⟨y, hy, heq⟩)
    rw [moveToGhost_get? hne]
    exact hget y (mem_cons_of_mem _ hy)

omit [DecidableEq K] in
/-- The oldest keys of a ghost list go, those that came last stay. -/
theorem mem_dropOldest {d : Dict K Unit} {old new : List K} (hkeys : d.keys = old ++ new)
    (hle : new.length ≤ capacity) {key : K} (hkey : key ∈ new) :
    key ∈ (d.dropOldest (d.keys.length - capacity)).keys := by
  have hdrop : (d.dropOldest (d.keys.length - capacity)).keys =
      d.keys.drop (d.keys.length - capacity) := map_drop
  rw [hdrop, hkeys, drop_append_of_le_length]
  · exact mem_append_right _ hkey
  · rw [length_append]
    omega

omit [DecidableEq K] in
theorem keys_dropOldest_sub (d : Dict K Unit) (n : Nat) : (d.dropOldest n).keys ⊆ d.keys :=
  (drop_sublist n d.entries).map Prod.fst |>.subset

omit [DecidableEq K] in
theorem length_keys_dropOldest (d : Dict K Unit) (capacity : Nat) :
    (d.dropOldest (d.keys.length - capacity)).keys.length ≤ capacity := by
  have hdrop : (d.dropOldest (d.keys.length - capacity)).keys =
      d.keys.drop (d.keys.length - capacity) := map_drop
  rw [hdrop, length_drop]
  omega

/-- The last step of an eviction bounds the ghost lists. -/
theorem Ghosted.trim (hg : Ghosted p p' l) (h : p.Arranged capacity) : Arranged ({ p' with
      b1 := p'.b1.dropOldest (p'.b1.keys.length - p'.cacheCapacity)
      b2 := p'.b2.dropOldest (p'.b2.keys.length - p'.cacheCapacity) } : ARCCachePolicy R K)
      capacity where
  cacheCapacity := hg.cacheCapacity.trans h.cacheCapacity
  disjoint := by
    rw [listsDisjoint_iff]
    intro k
    obtain ⟨h1, h2, hb⟩ := listsDisjoint_iff.mp hg.disjoint k
    have hb1 := @keys_dropOldest_sub K p'.b1 (p'.b1.keys.length - p'.cacheCapacity) k
    have hb2 := @keys_dropOldest_sub K p'.b2 (p'.b2.keys.length - p'.cacheCapacity) k
    exact ⟨fun hin => ⟨(h1 hin).1, fun hin' => (h1 hin).2.1 (hb1 hin'),
        fun hin' => (h1 hin).2.2 (hb2 hin')⟩,
      fun hin => ⟨fun hin' => (h2 hin).1 (hb1 hin'), fun hin' => (h2 hin).2 (hb2 hin')⟩,
      fun hin hin' => hb (hb1 hin) (hb2 hin')⟩
  ghost1 := by
    rw [hg.cacheCapacity, h.cacheCapacity]
    exact length_keys_dropOldest _ _
  ghost2 := by
    rw [hg.cacheCapacity, h.cacheCapacity]
    exact length_keys_dropOldest _ _
  target_nonneg := by
    rw [hg.target]
    exact h.target_nonneg
  target_le := by
    rw [hg.target]
    exact h.target_le

/-- `n` chunks that may go are moved to the ghost list of their origin, or there are fewer
and the policy stays as it is. -/
def EvictsExactly (p : ARCCachePolicy R K) (n : Nat) (protectedKeys : Finset K) : Prop :=
  if (p.candidates protectedKeys).length < n then p.evict n protectedKeys = (none, p)
  else ∃ victims p', p.evict n protectedKeys = (some victims, p') ∧ victims.length = n ∧
    (victims.map Prod.fst).Nodup ∧ victims ⊆ p.candidates protectedKeys ∧ Evicts p p' victims

theorem left_start (p : ARCCachePolicy R K) (protectedKeys : Finset K) :
    Scan.left ⟨p.t1.entries, p.t2.entries, p.t1.keys.length, []⟩ protectedKeys =
      (p.candidates protectedKeys).length := by
  rw [candidates, ← countP_eq_length_filter, residents, countP_append]
  rfl

theorem Scans.origin (hscans : Scans p protectedKeys sc) (h : p.Valid) (hx : x ∈ sc.candidates) :
    x.2 = (p.t1.get? x.1.1).isSome := by
  have hget := (hscans.held x hx).1
  cases hfrom : x.2 with
  | true =>
    rw [hfrom, if_pos rfl] at hget
    rw [hget]
    rfl
  | false =>
    rw [hfrom, if_neg Bool.false_ne_true] at hget
    rw [(h x.1.1).resolve_right (by simp [hget])]
    rfl

/-- The ghost lists have room for all candidates. -/
theorem Scans.evicts (hscans : Scans p protectedKeys sc) (h : p.Arranged capacity)
    (hsize : p.size ≤ capacity) (hg : Ghosted p p' sc.candidates) :
    Evicts p { p' with
      b1 := p'.b1.dropOldest (p'.b1.keys.length - p'.cacheCapacity)
      b2 := p'.b2.dropOldest (p'.b2.keys.length - p'.cacheCapacity) }
      (sc.candidates.map Prod.fst) := by
  have hkeys : (sc.candidates.map Prod.fst).map Prod.fst =
      sc.candidates.map fun x => x.1.1 := map_map
  have hle : ∀ fromT1, (keysFrom fromT1 sc.candidates).length ≤ p'.cacheCapacity := by
    intro fromT1
    have hsub : (sc.candidates.map Prod.fst).Subperm p.residents :=
      (sublist_append_left _ _).subperm.trans hscans.taken
    have hlength := hsub.length_le
    rw [length_map, ← size_eq] at hlength
    rw [keysFrom, length_map, hg.cacheCapacity, h.cacheCapacity]
    exact (length_filter_le _ _).trans (hlength.trans hsize)
  have hmem : ∀ x ∈ sc.candidates, x.1.1 ∈ keysFrom x.2 sc.candidates := fun x hx =>
    mem_map.mpr ⟨x, mem_filter.mpr ⟨hx, decide_eq_true rfl⟩, rfl⟩
  refine ⟨by rw [hkeys]; exact hg.t1, by rw [hkeys]; exact hg.t2, ?_, ?_⟩
  · intro e he hget
    obtain ⟨x, hx, rfl⟩ := mem_map.mp he
    have hin := hmem x hx
    rw [hscans.origin h.valid hx, hget] at hin
    exact mem_dropOldest hg.b1 (hle true) hin
  · intro e he hget
    obtain ⟨x, hx, rfl⟩ := mem_map.mp he
    have hin := hmem x hx
    rw [hscans.origin h.valid hx, (h.valid x.1.1).resolve_right (by simp [hget])] at hin
    exact mem_dropOldest hg.b2 (hle false) hin

theorem Arranged.evict (h : p.Arranged capacity) (hsize : p.size ≤ capacity) (n : Nat)
    (protectedKeys : Finset K) :
    (p.evict n protectedKeys).2.Arranged capacity ∧ p.EvictsExactly n protectedKeys := by
  unfold EvictsExactly ARCCachePolicy.evict
  split
  · next hzero =>
    rw [if_neg (by omega)]
    refine ⟨h, [], p, rfl, hzero.symm, nodup_nil, nil_subset _, ?_⟩
    exact ⟨fun _ => rfl, fun _ => rfl, nofun, nofun⟩
  dsimp only
  cases hpasses : Scan.passes p.targetT1Size.floor protectedKeys n
      ⟨p.t1.entries, p.t2.entries, p.t1.keys.length, []⟩ with
  | none =>
    rw [passes_eq_none, left_start] at hpasses
    rw [if_pos hpasses]
    exact ⟨h, rfl⟩
  | some sc =>
    have henough : ¬ (p.candidates protectedKeys).length < n := by
      rw [← left_start, ← passes_eq_none p.targetT1Size.floor, hpasses]
      exact nofun
    rw [if_neg henough]
    have hstart : Scans p protectedKeys ⟨p.t1.entries, p.t2.entries, p.t1.keys.length, []⟩ :=
      ⟨List.Sublist.refl _, List.Sublist.refl _, List.Subperm.refl _, nofun⟩
    obtain ⟨hscans, hlength⟩ := passes_scans hstart hpasses
    have hnodup := hscans.nodup h.valid
    have hg := moveToGhosts_ghosted sc.candidates p h.disjoint hnodup
      fun x hx => (hscans.held x hx).1
    refine ⟨hg.trim h, _, _, rfl, ?_, ?_, ?_, ?_⟩
    · rw [length_map, hlength]
      exact Nat.zero_add n
    · rw [map_map]
      exact hnodup
    · intro e he
      obtain ⟨x, hx, rfl⟩ := mem_map.mp he
      obtain ⟨hget, hfree⟩ := hscans.held x hx
      refine mem_filter.mpr ⟨mem_residents.mpr ?_, decide_eq_true hfree⟩
      cases hx : x.2 <;> simp only [hx] at hget
      · exact .inr hget
      · exact .inl hget
    · exact hscans.evicts h hsize hg

end ARCCachePolicy

/-! ## The calls of the manager -/

/-- A policy with the states before its last call, the latest one first. -/
structure Traced (π : Type) where
  current : π
  past : List π := []

namespace Traced

variable {π R K : Type}

def states (t : Traced π) : List π := t.current :: t.past

def push (t : Traced π) (p : π) : Traced π := ⟨p, t.states⟩

instance [CachePolicy π R K] : CachePolicy (Traced π) R K where
  get t := CachePolicy.get t.current
  setRefCnt t key n := t.push (CachePolicy.setRefCnt t.current key n)
  insert t key chunk ctx := (CachePolicy.insert t.current key chunk ctx).map t.push
  remove t key := (CachePolicy.remove t.current key).map t.push
  onStoreMiss t keys := t.push (CachePolicy.onStoreMiss t.current keys)
  onRequestAccess t keys ctx := (CachePolicy.onRequestAccess t.current keys ctx).map t.push
  onRequestFinished t keyGroups inserted reused ctx :=
    (CachePolicy.onRequestFinished t.current keyGroups inserted reused ctx).map t.push
  evict t n protectedKeys := (CachePolicy.evict t.current n protectedKeys).map fun r =>
    (r.1, t.push r.2)
  clear t := t.push (CachePolicy.clear t.current)
  markEvictable t key := (CachePolicy.markEvictable t.current key).map t.push
  markNonEvictable t key := (CachePolicy.markNonEvictable t.current key).map t.push

end Traced

section Runs

variable {R K : Type} [DecidableEq R] [DecidableEq K] {groupIdx : K → Nat}

/-- Every state of the policy is arranged and fits with what is outside of it. -/
structure Fits (t : Traced (ARCCachePolicy R K)) (capacity outside : Nat) : Prop where
  arranged : ∀ p ∈ t.states, p.Arranged capacity ∧ p.size ≤ capacity
  room : t.current.size + outside ≤ capacity

variable {t t' : Traced (ARCCachePolicy R K)} {capacity outside outside' : Nat}
  {p : ARCCachePolicy R K} {ctx : ReqContext R K} {protectedKeys : Finset K}

section

variable (h : Fits t capacity outside)
include h

omit [DecidableEq R] [DecidableEq K] in
theorem Fits.current : t.current.Arranged capacity := (h.arranged t.current mem_cons_self).1

omit [DecidableEq R] [DecidableEq K] in
theorem Fits.push (harranged : p.Arranged capacity) (hroom : p.size + outside' ≤ capacity) :
    Fits (t.push p) capacity outside' := by
  refine ⟨fun q hq => ?_, hroom⟩
  cases hq with
  | head => exact ⟨harranged, (Nat.le_add_right _ _).trans hroom⟩
  | tail _ hq => exact h.arranged q hq

omit [DecidableEq R] [DecidableEq K] in
theorem Fits.weaken (hle : outside' ≤ outside) : Fits t capacity outside' :=
  ⟨h.arranged, (Nat.add_le_add_left hle _).trans h.room⟩

omit [DecidableEq R] [DecidableEq K] in
/-- A call that moves no chunk. -/
theorem Fits.same (harranged : p.Arranged capacity) (hsize : p.size = t.current.size) :
    Fits (t.push p) capacity outside :=
  h.push harranged (by rw [hsize]; exact h.room)

omit [DecidableEq R] in
theorem Fits.setRefCnt {key : K} {c : ChunkStatus}
    (hget : CachePolicy.get t key = some c) (n : Int) :
    Fits (CachePolicy.setRefCnt t key n) capacity outside :=
  h.same (h.current.setRefCnt key n) (ARCCachePolicy.size_setRefCnt h.current hget n)

omit [DecidableEq R] in
theorem Fits.markEvictable {key : K}
    (hmark : CachePolicy.markEvictable t key = .ok t') : Fits t' capacity outside := by
  cases hmark
  exact h.same h.current rfl

omit [DecidableEq R] in
theorem Fits.markNonEvictable {key : K} (hmark : CachePolicy.markNonEvictable t key = .ok t') :
    Fits t' capacity outside ∧ t'.current = t.current := by
  cases hmark
  exact ⟨h.same h.current rfl, rfl⟩

omit [DecidableEq R] in
theorem Fits.remove {key : K} {c : ChunkStatus}
    (hget : CachePolicy.get t key = some c) (hremove : CachePolicy.remove t key = .ok t') :
    Fits t' capacity (outside + 1) := by
  cases hremove
  have hsize := ARCCachePolicy.size_remove h.current hget
  have hroom := h.room
  exact h.push (h.current.remove key) (by omega)

omit [DecidableEq R] in
theorem Fits.onStoreMiss (keys : List K) : Fits (CachePolicy.onStoreMiss t keys) capacity outside :=
  h.same (h.current.onStoreMiss keys) (ARCCachePolicy.size_onStoreMiss h.current keys)

omit [DecidableEq R] in
theorem Fits.onRequestAccess {keys : List K}
    (haccess : CachePolicy.onRequestAccess t keys ctx = .ok t') : Fits t' capacity outside := by
  cases haccess
  exact h.same h.current rfl

omit [DecidableEq R] in
theorem Fits.onRequestFinished {keyGroups : List (List K)} {inserted reused : Finset K}
    (hfinish : CachePolicy.onRequestFinished t keyGroups inserted reused ctx = .ok t') :
    Fits t' capacity outside := by
  cases hfinish
  exact h.same (h.current.onRequestFinished keyGroups inserted reused ctx)
    (ARCCachePolicy.size_onRequestFinished h.current keyGroups inserted reused ctx)

omit [DecidableEq R] in
theorem Fits.evict {n : Nat} {victims : Option (List (K × ChunkStatus))}
    (hevict : CachePolicy.evict t n protectedKeys = .ok (victims, t')) :
    Fits t' capacity (outside + (victims.getD []).length) ∧
      ∀ key, CachePolicy.get t key = none → CachePolicy.get t' key = none := by
  cases hevict
  have hsize := (h.arranged t.current mem_cons_self).2
  obtain ⟨hvalid, hperm, -⟩ := ARCCachePolicy.evict_valid h.current.valid n protectedKeys
  have hlength := hperm.length_eq
  rw [length_append, ← ARCCachePolicy.size_eq, ← ARCCachePolicy.size_eq] at hlength
  have hroom := h.room
  refine ⟨h.push (h.current.evict hsize n protectedKeys).1 ?_, fun key hnone => ?_⟩
  · show (t.current.evict n protectedKeys).2.size +
      (outside + ((t.current.evict n protectedKeys).1.getD []).length) ≤ capacity
    omega
  · refine Option.eq_none_iff_forall_ne_some.mpr fun c hget => ?_
    have hin := (ARCCachePolicy.get_eq_some hvalid).mp hget
    have hold := (ARCCachePolicy.get_eq_some h.current.valid).mpr
      (hperm.mem_iff.mpr (mem_append_right _ hin))
    cases hnone.symm.trans hold

omit [DecidableEq R] in
/-- New chunks for keys that are in no list, given from outside. -/
theorem Fits.insertAll (l : List (K × ChunkStatus))
    (hnew : ∀ e ∈ l, e.1 ∉ t.current.t2.keys) (houtside : outside' + l.length ≤ outside)
    (hinsert : l.foldlM (fun t e => CachePolicy.insert t e.1 e.2 ctx) t = .ok t') :
    Fits t' capacity outside' := by
  induction l generalizing t outside with
  | nil =>
    cases hinsert
    have hroom := h.room
    exact ⟨h.arranged, by omega⟩
  | cons e l ih =>
    rw [foldlM_cons] at hinsert
    obtain ⟨t₁, hfirst, hrest⟩ := bind_eq_ok.mp hinsert
    cases hfirst
    rw [length_cons] at houtside
    have hroom := h.room
    have hsize := t.current.size_insert_le e.1 e.2
    have hpush : Fits (t.push (t.current.insert e.1 e.2)) capacity (outside - 1) :=
      h.push (h.current.insert (hnew e mem_cons_self) e.2) (by omega)
    exact ih hpush (fun e' he' => hnew e' (mem_cons_of_mem _ he')) (by omega) hrest

end

/-- The chunks that are not with a key: free, deferred or never allocated. -/
def CPUOffloadingManager.numOutside {π : Type} (m : CPUOffloadingManager R K π) : Nat :=
  m.freeList.length + m.deferredReleaseChunkIds.length + (m.numChunks - m.numAllocatedChunks)

/-- The policy of the manager fits the pool. -/
structure InPool (m : CPUOffloadingManager R K (Traced (ARCCachePolicy R K))) (capacity : Nat) :
    Prop where
  numChunks : m.numChunks = capacity
  fits : Fits m.policy capacity m.numOutside

variable {m m' : CPUOffloadingManager R K (Traced (ARCCachePolicy R K))} {key : K} {keys : List K}
  {ctx : ReqContext R K} {chunkIds : List Nat} {keysToStore : List K}

section

variable (h : InPool m capacity)
include h

omit [DecidableEq R] [DecidableEq K] in
/-- A change of the policy that moves no chunk. -/
theorem InPool.of_fits
    (hchunks : m'.numChunks = m.numChunks) (hfits : Fits m'.policy capacity outside')
    (houtside : m'.numOutside ≤ outside') : InPool m' capacity :=
  ⟨hchunks.trans h.numChunks, hfits.weaken houtside⟩

omit [DecidableEq R] in
theorem InPool.pinChunk {chunkId : Nat}
    (hpin : m.pinChunk key = .ok (chunkId, m')) : InPool m' capacity := by
  obtain ⟨c, hget, -, -, hcases⟩ := pinChunk_cases hpin
  rcases hcases with ⟨-, policy, hmark, rfl⟩ | ⟨-, rfl⟩
  · obtain ⟨hfits, hcurrent⟩ := h.fits.markNonEvictable hmark
    have hget' : CachePolicy.get policy key = some c := by
      show CachePolicy.get policy.current key = some c
      rw [hcurrent]
      exact hget
    exact h.of_fits rfl (hfits.setRefCnt hget' 1) (Nat.le_refl _)
  · exact h.of_fits rfl (h.fits.setRefCnt hget _) (Nat.le_refl _)

omit [DecidableEq R] in
theorem InPool.unpinChunk (hunpin : m.unpinChunk key = .ok m') : InPool m' capacity := by
  obtain ⟨c, hget, -, hcases⟩ := unpinChunk_cases hunpin
  rcases hcases with ⟨-, policy, hmark, rfl⟩ | ⟨-, rfl⟩
  · exact h.of_fits rfl ((h.fits.setRefCnt hget 0).markEvictable hmark) (Nat.le_refl _)
  · exact h.of_fits rfl (h.fits.setRefCnt hget _) (Nat.le_refl _)

omit [DecidableEq R] in
theorem InPool.settleChunk {success : Bool}
    (hsettle : m.settleChunk success key = .ok m') : InPool m' capacity := by
  rcases settleChunk_cases hsettle with ⟨rfl, -⟩ | ⟨c, hget, -, hcases⟩
  · exact h
  rcases hcases with ⟨-, policy, hmark, rfl⟩ | ⟨-, policy, hremove, rfl⟩
  · exact h.of_fits rfl ((h.fits.setRefCnt hget 0).markEvictable hmark) (Nat.le_refl _)
  refine h.of_fits rfl (h.fits.remove hget hremove) ?_
  simp only [CPUOffloadingManager.numOutside, length_append, length_singleton]
  omega

omit [DecidableEq R] in
theorem InPool.deferChunk {chunkId : Nat}
    (hdefer : m.deferChunk key = .ok (chunkId, m')) : InPool m' capacity := by
  obtain ⟨c, policy, hget, -, -, hremove, rfl⟩ := deferChunk_cases hdefer
  refine h.of_fits rfl (h.fits.remove hget hremove) ?_
  have hle : (m.deferredReleaseChunkIds.insert c.chunkId).length ≤
      m.deferredReleaseChunkIds.length + 1 := by
    rw [length_insert]
    split <;> omega
  simp only [CPUOffloadingManager.numOutside]
  omega

omit [DecidableEq R] [DecidableEq K] in
theorem InPool.releaseChunk {chunkId : Nat}
    (hrelease : m.releaseChunk chunkId = .ok m') : InPool m' capacity := by
  obtain ⟨hin, rfl⟩ := releaseChunk_cases hrelease
  refine h.of_fits rfl h.fits ?_
  have hpos := length_pos_of_mem hin
  simp only [CPUOffloadingManager.numOutside, length_append, length_singleton,
    length_erase_of_mem hin]
  omega

theorem InPool.recordRequestCacheAccess {reusedKeys : List K}
    (hrecord : m.recordRequestCacheAccess groupIdx keys ctx reusedKeys = .ok m') :
    InPool m' capacity ∧ m'.policy.current = m.policy.current := by
  obtain ⟨⟨state, newKeys⟩, -, hrecord⟩ := bind_eq_ok.mp hrecord
  obtain ⟨policy, hpolicy, rfl⟩ := map_eq_ok.mp hrecord
  split at hpolicy
  · cases hpolicy
    exact ⟨h.of_fits rfl h.fits (Nat.le_refl _), rfl⟩
  have hfits := h.fits.onRequestAccess hpolicy
  cases hpolicy
  exact ⟨h.of_fits rfl hfits (Nat.le_refl _), rfl⟩

theorem InPool.prepareLoad {recordAccess : Bool}
    (hload : m.prepareLoad groupIdx keys ctx recordAccess = .ok (chunkIds, m')) :
    InPool m' capacity := by
  obtain ⟨⟨ids, m₁⟩, hpin, hload⟩ := bind_eq_ok.mp hload
  obtain ⟨m₂, hrecord, heq⟩ := map_eq_ok.mp hload
  cases heq
  have hpinned : InPool m₁ capacity := by
    refine foldlM_ok_induct (P := fun s : List Nat × CPUOffloadingManager R K _ =>
      InPool s.2 capacity) ?_ h hpin
    rintro key - ⟨ids, m⟩ s' hm hs'
    obtain ⟨⟨chunkId, m'⟩, hpin, rfl⟩ := map_eq_ok.mp hs'
    exact hm.pinChunk hpin
  split at hrecord
  · exact (hpinned.recordRequestCacheAccess hrecord).1
  · cases hrecord
    exact hpinned

omit [DecidableEq R] in
theorem InPool.deferWriteRelease
    (hdefer : m.deferWriteRelease keys = .ok (chunkIds, m')) : InPool m' capacity := by
  refine foldlM_ok_induct (P := fun s : List Nat × CPUOffloadingManager R K _ =>
    InPool s.2 capacity) ?_ h hdefer
  rintro key - ⟨ids, m⟩ s' hm hs'
  obtain ⟨⟨chunkId, m'⟩, hdefer, rfl⟩ := map_eq_ok.mp hs'
  exact hm.deferChunk hdefer

theorem InPool.onRequestFinished
    (hfinish : m.onRequestFinished ctx = .ok m') : InPool m' capacity := by
  unfold CPUOffloadingManager.onRequestFinished at hfinish
  split at hfinish
  · cases hfinish
    exact h
  split at hfinish
  · cases hfinish
    exact h
  · obtain ⟨policy, hpolicy, rfl⟩ := map_eq_ok.mp hfinish
    exact h.of_fits rfl (h.fits.onRequestFinished hpolicy) (Nat.le_refl _)

omit [DecidableEq R] in
theorem InPool.resetCache (hreset : m.resetCache = .ok m') : InPool m' capacity := by
  unfold CPUOffloadingManager.resetCache at hreset
  split at hreset
  · cases hreset
  rename_i hdeferred
  cases hreset
  have hempty : m.deferredReleaseChunkIds = [] := not_not.mp hdeferred
  have hcleared : Fits (CachePolicy.clear m.policy) capacity capacity :=
    h.fits.push h.fits.current.clear (Nat.zero_add capacity).le
  refine h.of_fits rfl hcleared ?_
  rw [← h.numChunks]
  simp [CPUOffloadingManager.numOutside, hempty]

theorem InPool.admitKeys (hadmitted : m.admitKeys groupIdx keys ctx = .ok (keysToStore, m')) :
    InPool m' capacity ∧ ∀ key ∈ keysToStore, CachePolicy.get m'.policy key = none := by
  obtain ⟨m₂, hrecord, heq⟩ := map_eq_ok.mp hadmitted
  obtain ⟨rfl, rfl⟩ := Prod.mk.inj heq
  have hmisses : ∀ misses : List K, ∀ counts access, InPool { m with
      policy := if misses = [] then m.policy else CachePolicy.onStoreMiss m.policy misses
      counts := counts
      access := access } capacity := by
    intro misses counts access
    split
    · exact h.of_fits rfl h.fits (Nat.le_refl _)
    · exact h.of_fits rfl (h.fits.onStoreMiss misses) (Nat.le_refl _)
  have hget : ∀ (misses : List K) key, CachePolicy.get
      (if misses = [] then m.policy else CachePolicy.onStoreMiss m.policy misses) key =
      CachePolicy.get m.policy key := by
    intro misses key
    split
    · rfl
    · exact m.policy.current.get_onStoreMiss misses key
  obtain ⟨hpool, hcurrent⟩ := (hmisses _ _ _).recordRequestCacheAccess hrecord
  refine ⟨hpool, fun key hkey => ?_⟩
  have hmissing : (CachePolicy.get m.policy key).isNone := by
    split at hkey
    · simpa using (mem_filter.mp hkey).2
    · simpa using (mem_filter.mp (mem_filter.mp hkey).1).2
  show CachePolicy.get m₂.policy.current key = none
  rw [hcurrent]
  exact (hget _ key).trans (Option.isNone_iff_eq_none.mp hmissing)

omit [DecidableEq R] in
theorem InPool.makeRoom {n : Nat} {evictedKeys : Option (List K)}
    (hroom : m.makeRoom n protectedKeys = .ok (evictedKeys, m')) :
    InPool m' capacity ∧
      ∀ key, CachePolicy.get m.policy key = none → CachePolicy.get m'.policy key = none := by
  unfold CPUOffloadingManager.makeRoom at hroom
  dsimp only at hroom
  split at hroom
  · cases hroom
    exact ⟨h, fun _ hnone => hnone⟩
  split at hroom
  · cases hroom
    exact ⟨h, fun _ hnone => hnone⟩
  obtain ⟨⟨victims, policy⟩, hevict, hroom⟩ := bind_eq_ok.mp hroom
  obtain ⟨hfits, hnone⟩ := h.fits.evict hevict
  cases victims with
  | none =>
    cases hroom
    exact ⟨h.of_fits rfl hfits (Nat.le_refl _), hnone⟩
  | some victims =>
    dsimp only at hroom
    split at hroom
    · cases hroom
    cases hroom
    rw [freeChunks_eq]
    refine ⟨h.of_fits rfl hfits ?_, hnone⟩
    simp only [CPUOffloadingManager.numOutside, chunkIds, length_append,
      length_map, Option.getD_some]
    omega

theorem InPool.placeChunks (hnew : ∀ key ∈ keysToStore, CachePolicy.get m.policy key = none)
    (hplace : m.placeChunks keysToStore ctx = .ok (chunkIds, m')) : InPool m' capacity := by
  obtain ⟨⟨chunks, m₁⟩, halloc, hplace⟩ := bind_eq_ok.mp hplace
  unfold CPUOffloadingManager.allocateChunks at halloc
  dsimp only at halloc hplace
  split at halloc
  · cases halloc
  obtain ⟨hchunks, rfl⟩ := Prod.mk.inj (Except.ok.inj halloc)
  split at hplace
  · cases hplace
  rename_i hlength
  obtain ⟨policy, hinsert, heq⟩ := map_eq_ok.mp hplace
  cases heq
  have hzip : (keysToStore.zip chunks).length = keysToStore.length := by
    rw [length_zip, not_not.mp hlength, Nat.min_self]
  refine h.of_fits rfl (h.fits.insertAll (keysToStore.zip chunks) (fun e he => ?_) ?_ hinsert)
    (Nat.le_refl _)
  · exact ARCCachePolicy.notMem_t2_of_get (hnew e.1 (of_mem_zip he).1)
  · simp only [CPUOffloadingManager.numOutside, CPUOffloadingManager.setAccess, length_take]
    omega

theorem InPool.prepareStore {out : Option (PrepareStoreOutput K)}
    (hstore : m.prepareStore groupIdx keys ctx = .ok (out, m')) : InPool m' capacity := by
  obtain ⟨⟨keysToStore, m₁⟩, hadmitted, hstore⟩ := bind_eq_ok.mp hstore
  obtain ⟨hpool₁, hnew⟩ := h.admitKeys hadmitted
  dsimp only at hstore
  split at hstore
  · cases hstore
    exact hpool₁
  obtain ⟨⟨evictedKeys, m₂⟩, hroom, hstore⟩ := bind_eq_ok.mp hstore
  obtain ⟨hpool₂, hnone⟩ := hpool₁.makeRoom hroom
  cases evictedKeys with
  | none =>
    cases hstore
    exact hpool₂
  | some evictedKeys =>
    obtain ⟨⟨ids, m₃⟩, hplace, heq⟩ := map_eq_ok.mp hstore
    cases heq
    exact hpool₂.placeChunks (fun key hkey => hnone key (hnew key hkey)) hplace

end

theorem Usage.exec_inPool {u u' : Usage R K (Traced (ARCCachePolicy R K))} {call : Call R K}
    (h : InPool u.manager capacity) (hexec : u.exec groupIdx call = .ok u') :
    InPool u'.manager capacity := by
  cases call with
  | prepareStore keys ctx =>
    obtain ⟨⟨out, m'⟩, hstore, rfl⟩ := map_eq_ok.mp hexec
    cases out <;> exact h.prepareStore hstore
  | completeStore keys success =>
    obtain ⟨m', hstore, rfl⟩ := map_eq_ok.mp hexec
    exact foldlM_ok_induct
      (P := fun m : CPUOffloadingManager R K (Traced (ARCCachePolicy R K)) => InPool m capacity)
      (fun _ _ _ _ hm hsettle => hm.settleChunk hsettle) h hstore
  | prepareLoad keys ctx recordAccess =>
    obtain ⟨⟨ids, m'⟩, hload, rfl⟩ := map_eq_ok.mp hexec
    exact h.prepareLoad hload
  | completeLoad keys =>
    obtain ⟨m', hload, rfl⟩ := map_eq_ok.mp hexec
    exact foldlM_ok_induct
      (P := fun m : CPUOffloadingManager R K (Traced (ARCCachePolicy R K)) => InPool m capacity)
      (fun _ _ _ _ hm hunpin => hm.unpinChunk hunpin) h hload
  | lookup key =>
    cases hexec
    exact h
  | onNewRequest ctx =>
    cases hexec
    exact h.of_fits rfl h.fits (Nat.le_refl _)
  | onRequestFinished ctx =>
    obtain ⟨m', hfinish, rfl⟩ := map_eq_ok.mp hexec
    exact h.onRequestFinished hfinish
  | deferWriteRelease keys =>
    obtain ⟨⟨ids, m'⟩, hdefer, rfl⟩ := map_eq_ok.mp hexec
    exact h.deferWriteRelease hdefer
  | releaseDeferredWrite chunkIds =>
    obtain ⟨m', hrelease, rfl⟩ := map_eq_ok.mp hexec
    exact foldlM_ok_induct
      (P := fun m : CPUOffloadingManager R K (Traced (ARCCachePolicy R K)) => InPool m capacity)
      (fun _ _ _ _ hm hrelease => hm.releaseChunk hrelease) h hrelease
  | resetCache =>
    obtain ⟨m', hreset, rfl⟩ := map_eq_ok.mp hexec
    exact h.resetCache hreset

/-- After every call that the manager makes of the policy, the four lists share no key, they
and the target fit the capacity, and an eviction would be exact. -/
theorem arc_lists_arranged (groupIdx : K → Nat) (numChunks storeThreshold maxTrackerSize : Nat)
    (u : Usage R K (Traced (ARCCachePolicy R K)))
    (h : Reaches (fun _ _ => True) (Usage.exec groupIdx)
      { manager := .init numChunks storeThreshold maxTrackerSize ⟨.init numChunks, []⟩ } u) :
    ∀ p ∈ u.manager.policy.states, p.Arranged numChunks ∧
      p.t1.keys.length + p.t2.keys.length ≤ numChunks ∧
      ∀ n protectedKeys, p.EvictsExactly n protectedKeys := by
  have hinit : InPool (R := R) (K := K)
      (.init numChunks storeThreshold maxTrackerSize ⟨.init numChunks, []⟩) numChunks := by
    refine ⟨rfl, ⟨fun p hp => ?_, ?_⟩⟩
    · rw [mem_singleton.mp hp]
      exact ⟨ARCCachePolicy.arranged_init numChunks, Nat.zero_le _⟩
    · show 0 + (0 + 0 + (numChunks - 0)) ≤ numChunks
      omega
  have hpool : InPool u.manager numChunks := h.invariant
    (P := fun u : Usage R K (Traced (ARCCachePolicy R K)) => InPool u.manager numChunks) hinit
    fun _ _ _ hu _ hexec => Usage.exec_inPool hu hexec
  intro p hp
  obtain ⟨harranged, hsize⟩ := hpool.fits.arranged p hp
  exact ⟨harranged, hsize, fun n protectedKeys => (harranged.evict hsize n protectedKeys).2⟩

/-- In the run of the sample, the key that leaves is in the ghost list of its origin. -/
theorem arc_lists_arranged_sample :
    ∃ u : Usage Nat Nat (Traced (ARCCachePolicy Nat Nat)),
      u.manager.policy.current.b1.keys = [11] ∧
      ∀ p ∈ u.manager.policy.states, p.Arranged 2 ∧ p.t1.keys.length + p.t2.keys.length ≤ 2 ∧
        ∀ n protectedKeys, p.EvictsExactly n protectedKeys := by
  obtain ⟨u, hcalls, hghost⟩ : ∃ u : Usage Nat Nat (Traced (ARCCachePolicy Nat Nat)),
      runCalls id { manager := .init 2 1 4 ⟨.init 2, []⟩ } sampleCalls = .ok u ∧
      u.manager.policy.current.b1.keys = [11] := ⟨_, rfl, rfl⟩
  have hreaches : Reaches (fun _ _ => True) (Usage.exec id) _ u :=
    Reaches.of_foldlM (fun _ _ _ _ => trivial) hcalls
  exact ⟨u, hghost, arc_lists_arranged id 2 1 4 u hreaches⟩

end Runs

end Vllm.Offload
