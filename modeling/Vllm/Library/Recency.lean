import Mathlib.Algebra.GroupWithZero.Nat
import Mathlib.Algebra.Order.BigOperators.Group.Finset
import Mathlib.Data.List.TakeWhile

/-!
# Least recently used keys

The keys of a cache with a bound on their total size, oldest use first. A key that does
not fit evicts the oldest keys until it does. `mem_foldl_access_iff` says which keys a
sequence of accesses leaves: those that fit together with the distinct keys accessed
since.
-/

namespace Vllm.Library.Recency

open List

variable {K : Type} (size : K → Nat) (capacity : Nat)

def load (keys : List K) : Nat := (keys.map size).sum

@[simp] theorem load_cons (k : K) (keys : List K) :
    load size (k :: keys) = size k + load size keys := by
  simp [load]

@[simp] theorem load_append (keys keys' : List K) :
    load size (keys ++ keys') = load size keys + load size keys' := by
  simp [load]

@[simp] theorem load_nil : load size [] = 0 := rfl

theorem size_le_load {k : K} {keys : List K} (h : k ∈ keys) : size k ≤ load size keys :=
  single_le_sum (fun _ _ => Nat.zero_le _) _ (mem_map_of_mem h)

/-- Drops the oldest keys until `needed` more fits. -/
def evict (needed : Nat) : List K → List K
  | [] => []
  | k :: keys => if capacity < load size (k :: keys) + needed then evict needed keys else k :: keys

theorem evict_suffix (needed : Nat) (keys : List K) : evict size capacity needed keys <:+ keys := by
  induction keys with
  | nil => exact suffix_rfl
  | cons k keys ih =>
    rw [evict]
    split
    · exact ih.trans (suffix_cons k keys)
    · exact suffix_rfl

theorem load_evict {needed : Nat} (h : needed ≤ capacity) (keys : List K) :
    load size (evict size capacity needed keys) + needed ≤ capacity := by
  induction keys with
  | nil => simpa [evict] using h
  | cons k keys ih =>
    rw [evict]
    split
    · exact ih
    · omega

/-- A key is kept with all keys behind it, or they do not fit together. -/
theorem evict_append_cons (needed : Nat) (older : List K) (k : K) (newer : List K) :
    (∃ older', older' <:+ older ∧
      evict size capacity needed (older ++ k :: newer) = older' ++ k :: newer) ∨
    (capacity < load size (k :: newer) + needed ∧
      evict size capacity needed (older ++ k :: newer) = evict size capacity needed newer) := by
  induction older with
  | nil =>
    rw [nil_append, evict]
    split
    next hlt => exact .inr ⟨hlt, rfl⟩
    next => exact .inl ⟨[], suffix_rfl, rfl⟩
  | cons x older ih =>
    rw [cons_append, evict]
    split
    · rcases ih with ⟨older', hsuffix, heq⟩ | hright
      · exact .inl ⟨older', hsuffix.trans (suffix_cons x older), heq⟩
      · exact .inr hright
    · exact .inl ⟨x :: older, suffix_rfl, rfl⟩

/-- Adds a key unless it is larger than the whole cache. -/
def insert (keys : List K) (k : K) : List K :=
  if capacity < size k then keys else evict size capacity (size k) keys ++ [k]

/-- The keys of a cache: each one once, and together within the capacity. -/
structure Held (keys : List K) : Prop where
  nodup : keys.Nodup
  fits : load size keys ≤ capacity

variable {size capacity} {keys : List K} {k x : K}

theorem Held.le (h : Held size capacity keys) (hk : k ∈ keys) : size k ≤ capacity :=
  (size_le_load size hk).trans h.fits

theorem Held.insert (h : Held size capacity keys) (hk : k ∉ keys) :
    Held size capacity (Recency.insert size capacity keys k) := by
  unfold Recency.insert
  split
  · exact h
  next hle =>
    have hsuffix := evict_suffix size capacity (size k) keys
    refine ⟨List.Nodup.append (h.nodup.sublist hsuffix.sublist) (nodup_singleton k) ?_, ?_⟩
    · simpa using fun hin => hk (hsuffix.subset hin)
    · simpa using load_evict size capacity (not_lt.mp hle) keys

variable [DecidableEq K] {trace : List K}

/-- Moves a key that is there to the end. -/
def touch (keys : List K) (k : K) : List K := if k ∈ keys then keys.erase k ++ [k] else keys

def access (size : K → Nat) (capacity : Nat) (keys : List K) (k : K) : List K :=
  if k ∈ keys then keys.erase k ++ [k] else insert size capacity keys k

theorem load_erase_add (hk : k ∈ keys) : load size (keys.erase k) + size k = load size keys := by
  have hperm : (keys.map size).Perm ((k :: keys.erase k).map size) :=
    (perm_cons_erase hk).map size
  rw [load, load, hperm.sum_eq, map_cons, sum_cons, Nat.add_comm]

theorem Held.moveToEnd (h : Held size capacity keys) (hk : k ∈ keys) :
    Held size capacity (keys.erase k ++ [k]) where
  nodup := by
    refine List.Nodup.append (h.nodup.erase k) (nodup_singleton k) ?_
    simpa using fun hin : k ∈ keys.erase k => (h.nodup.mem_erase_iff.mp hin).1 rfl
  fits := by
    rw [load_append, load_cons, load_nil, Nat.add_zero, load_erase_add hk]
    exact h.fits

theorem Held.access (h : Held size capacity keys) (k : K) :
    Held size capacity (Recency.access size capacity keys k) := by
  unfold Recency.access
  split
  next hk => exact h.moveToEnd hk
  next hk => exact h.insert hk

theorem Held.foldl_access (h : Held size capacity keys) (trace : List K) :
    Held size capacity (trace.foldl (Recency.access size capacity) keys) := by
  induction trace generalizing keys with
  | nil => exact h
  | cons k trace ih => exact ih (h.access k)

theorem mem_touch_iff : x ∈ touch keys k ↔ x ∈ keys := by
  unfold touch
  split
  next hk =>
    by_cases hx : x = k
    · simp [hx, hk]
    · simp [hx]
  next => exact Iff.rfl

/-- Touching keys is accessing those among them that are there. -/
theorem foldl_touch_eq (size : K → Nat) (capacity : Nat) (trace keys : List K) :
    trace.foldl touch keys =
      (trace.filter (· ∈ keys)).foldl (access size capacity) keys := by
  -- what is there does not change, so that it can be read off the state so far
  suffices h : ∀ state, (∀ x, x ∈ state ↔ x ∈ keys) → trace.foldl touch state =
      (trace.filter (· ∈ keys)).foldl (access size capacity) state from h keys fun _ => Iff.rfl
  induction trace with
  | nil => exact fun _ _ => rfl
  | cons k trace ih =>
    intro state hsame
    have hnext := ih (touch state k) fun x => mem_touch_iff.trans (hsame x)
    by_cases hk : k ∈ keys
    · rw [filter_cons_of_pos (by simpa using hk), foldl_cons, foldl_cons, hnext]
      have hin := (hsame k).mpr hk
      simp only [touch, access, hin, if_true]
    · rw [filter_cons_of_neg (by simpa using hk), foldl_cons, hnext, touch,
        if_neg (mt (hsame k).mp hk)]

/-! ## What a trace leaves -/

/-- The distinct keys of a trace that fit into the cache at all. -/
def accessed (size : K → Nat) (capacity : Nat) (trace : List K) : Finset K :=
  (trace.filter (size · ≤ capacity)).toFinset

theorem mem_accessed : x ∈ accessed size capacity trace ↔ x ∈ trace ∧ size x ≤ capacity := by
  simp [accessed]

/-- `k` is there with the keys accessed since behind it, or does not fit with them. -/
def Tracked (size : K → Nat) (capacity : Nat) (k : K) (since keys : List K) : Prop :=
  (∃ older newer, keys = older ++ k :: newer ∧
    ∀ x, x ∈ newer ↔ x ∈ accessed size capacity since) ∨
  (k ∉ keys ∧ capacity < size k + ∑ x ∈ accessed size capacity since, size x)

theorem load_eq_sum {newer : List K} {s : Finset K} (hnodup : newer.Nodup)
    (h : ∀ x, x ∈ newer ↔ x ∈ s) : load size newer = ∑ x ∈ s, size x := by
  have hs : newer.toFinset = s := by
    ext x
    rw [mem_toFinset, h x]
  rw [← hs, sum_toFinset size hnodup, load]

theorem sum_accessed_mono {since : List K} (x : K) :
    ∑ y ∈ accessed size capacity since, size y ≤
      ∑ y ∈ accessed size capacity (since ++ [x]), size y := by
  refine Finset.sum_le_sum_of_subset fun y hy => ?_
  rw [mem_accessed] at hy ⊢
  exact ⟨mem_append_left _ hy.1, hy.2⟩

theorem Tracked.access {since : List K} (h : Tracked size capacity k since keys)
    (hheld : Held size capacity keys) (hx : x ≠ k) :
    Tracked size capacity k (since ++ [x]) (Recency.access size capacity keys x) := by
  have hmem : ∀ y, y ∈ accessed size capacity (since ++ [x]) ↔
      y ∈ accessed size capacity since ∨ (y = x ∧ size x ≤ capacity) := by
    intro y
    rw [mem_accessed, mem_accessed, mem_append, mem_singleton]
    constructor
    · rintro ⟨hin | rfl, hle⟩
      · exact .inl ⟨hin, hle⟩
      · exact .inr ⟨rfl, hle⟩
    · rintro (⟨hin, hle⟩ | ⟨rfl, hle⟩)
      · exact ⟨.inl hin, hle⟩
      · exact ⟨.inr rfl, hle⟩
  rcases h with ⟨older, newer, rfl, hnewer⟩ | ⟨hk, hlt⟩
  · unfold Recency.access Recency.insert
    split
    next hin =>
      -- a key that is there moves behind `k`
      have hle := hheld.le hin
      rw [mem_append, mem_cons] at hin
      by_cases holder : x ∈ older
      · refine .inl ⟨older.erase x, newer ++ [x], ?_, fun y => ?_⟩
        · rw [erase_append_left _ holder, append_assoc, cons_append]
        · rw [hmem, mem_append, hnewer]
          simp [hle]
      · refine .inl ⟨older, newer.erase x ++ [x], ?_, fun y => ?_⟩
        · rw [erase_append_right _ holder, erase_cons_tail (by simpa using hx.symm),
            append_assoc, cons_append]
        have hnodup : newer.Nodup :=
          (nodup_cons.mp (nodup_append'.mp hheld.nodup).2.1).2
        rw [hmem, mem_append, hnodup.mem_erase_iff, hnewer]
        by_cases hy : y = x
        · simp [hy, hle]
        · simp [hy]
    next hout =>
      split
      next hlt =>
        refine .inl ⟨older, newer, rfl, fun y => ?_⟩
        rw [hmem, hnewer]
        simp [not_le.mpr hlt]
      next hle =>
        rw [not_lt] at hle
        have hnewer' : ∀ y, y ∈ newer ++ [x] ↔ y ∈ accessed size capacity (since ++ [x]) := by
          intro y
          rw [hmem, mem_append, hnewer]
          simp [hle]
        rcases evict_append_cons size capacity (size x) older k newer with
          ⟨older', -, heq⟩ | ⟨hlt, heq⟩
        · refine .inl ⟨older', newer ++ [x], ?_, hnewer'⟩
          rw [heq, append_assoc, cons_append]
        have hnodup : (newer ++ [x]).Nodup := by
          have hnew := (nodup_cons.mp (nodup_append'.mp hheld.nodup).2.1).2
          refine List.Nodup.append hnew (nodup_singleton x) ?_
          simpa using fun hin => hout (mem_append_right _ (mem_cons_of_mem _ hin))
        refine .inr ⟨fun hin => ?_, ?_⟩
        · rw [heq, mem_append, mem_singleton] at hin
          have hk := (nodup_cons.mp (nodup_append'.mp hheld.nodup).2.1).1
          rcases hin with hin | rfl
          · exact hk ((evict_suffix size capacity (size x) newer).subset hin)
          · exact hx rfl
        · rw [← load_eq_sum hnodup hnewer']
          simpa [Nat.add_assoc] using hlt
  · refine .inr ⟨fun hin => ?_, lt_of_lt_of_le hlt (Nat.add_le_add_left (sum_accessed_mono x) _)⟩
    unfold Recency.access Recency.insert at hin
    split at hin
    · rcases mem_append.mp hin with hin | hin
      · exact hk (mem_of_mem_erase hin)
      · exact hx (mem_singleton.mp hin).symm
    split at hin
    · exact hk hin
    rcases mem_append.mp hin with hin | hin
    · exact hk ((evict_suffix size capacity (size x) keys).subset hin)
    · exact hx (mem_singleton.mp hin).symm

theorem Tracked.foldl_access {since : List K} (h : Tracked size capacity k since keys)
    (hheld : Held size capacity keys) (hk : k ∉ trace) :
    Tracked size capacity k (since ++ trace)
      (trace.foldl (Recency.access size capacity) keys) := by
  induction trace generalizing keys since with
  | nil => simpa using h
  | cons x trace ih =>
    have hx : x ≠ k := fun heq => hk (heq ▸ mem_cons_self)
    have hrest := ih (h.access hheld hx) (hheld.access x)
      fun hin => hk (mem_cons_of_mem x hin)
    rwa [append_assoc, singleton_append] at hrest

theorem Tracked.mem_iff {since : List K} (h : Tracked size capacity k since keys)
    (hheld : Held size capacity keys) :
    k ∈ keys ↔ size k + ∑ x ∈ accessed size capacity since, size x ≤ capacity := by
  rcases h with ⟨older, newer, rfl, hnewer⟩ | ⟨hk, hlt⟩
  · have hnodup := (nodup_cons.mp (nodup_append'.mp hheld.nodup).2.1).2
    have hfits := hheld.fits
    rw [load_append, load_cons, load_eq_sum hnodup hnewer] at hfits
    exact ⟨fun _ => by omega, fun _ => by simp⟩
  · exact ⟨fun hin => absurd hin hk, fun hle => absurd hlt (not_lt.mpr hle)⟩

/-- The keys of a trace behind the last access of `k`, latest first. -/
def since (k : K) (trace : List K) : List K := trace.reverse.takeWhile (· ≠ k)

theorem notMem_since (k : K) (trace : List K) : k ∉ since k trace := by
  intro hin
  simpa using mem_takeWhile_imp hin

/-- A trace up to the last access of a key. -/
theorem exists_eq_append_since (h : k ∈ trace) :
    ∃ before, trace = before ++ k :: (since k trace).reverse := by
  have hrest : trace.reverse = since k trace ++ trace.reverse.dropWhile (· ≠ k) :=
    takeWhile_append_dropWhile.symm
  cases hdrop : trace.reverse.dropWhile (· ≠ k) with
  | nil =>
    rw [hdrop, append_nil] at hrest
    exact absurd (hrest ▸ mem_reverse.mpr h) (notMem_since k trace)
  | cons y rest =>
    have hy : y = k := by
      have hhead := head?_dropWhile_not (· ≠ k) trace.reverse
      rw [hdrop] at hhead
      simpa using hhead
    refine ⟨rest.reverse, ?_⟩
    rw [hdrop, hy] at hrest
    calc trace = trace.reverse.reverse := (reverse_reverse trace).symm
      _ = (since k trace ++ k :: rest).reverse := congrArg List.reverse hrest
      _ = rest.reverse ++ k :: (since k trace).reverse := by simp

/-- A key that was accessed is still there exactly if it fits together with the keys
accessed since. -/
theorem mem_foldl_access_iff (h : Held size capacity keys) (hk : k ∈ trace)
    (hle : size k ≤ capacity) :
    k ∈ trace.foldl (access size capacity) keys ↔
      size k + ∑ x ∈ accessed size capacity (since k trace), size x ≤ capacity := by
  obtain ⟨before, htrace⟩ := exists_eq_append_since hk
  have hheld := (h.foldl_access before).access k
  have hstart : Tracked size capacity k []
      (access size capacity (before.foldl (access size capacity) keys) k) := by
    refine .inl ?_
    unfold access insert
    rw [if_neg (not_lt.mpr hle)]
    split
    · exact ⟨_, [], rfl, by simp [accessed]⟩
    · exact ⟨_, [], rfl, by simp [accessed]⟩
  have hlast : k ∉ (since k trace).reverse := by simpa using notMem_since k trace
  have hend := hstart.foldl_access hheld hlast
  have hfold : trace.foldl (access size capacity) keys =
      (since k trace).reverse.foldl (access size capacity)
        (access size capacity (before.foldl (access size capacity) keys) k) := by
    conv_lhs => rw [htrace]
    rw [foldl_append, foldl_cons]
  have hsame : accessed size capacity ([] ++ (since k trace).reverse) =
      accessed size capacity (since k trace) := by
    ext x
    simp [mem_accessed]
  rw [hfold, hend.mem_iff (hheld.foldl_access _), hsame]

end Vllm.Library.Recency
