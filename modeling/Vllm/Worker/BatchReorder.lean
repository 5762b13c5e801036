import Mathlib.Data.Fintype.EquivFin
import Mathlib.Data.List.Induction
import Mathlib.GroupTheory.Perm.Support
import Vllm.Library.Fallible

/-!
# Reordering a batch into decodes, extends and prefills

`reorder_batch_to_split_decodes_and_prefills` sorts the misplaced requests by region and carries
the move out by swaps that follow the cycles of a map it changes on the way. Beside the map the
proof keeps the permutation that is still to be done: a swap takes one request out of it.
-/

namespace Vllm.Worker

open Function Library Equiv List

variable {α : Type} {n : Nat} (numScheduledTokens : String → Nat)

/-- The columns of the input batch that the reordering reads; a swap moves whole rows. -/
structure BatchRequest where
  reqId : String
  numComputedTokens : Nat
  numPromptTokens : Nat

inductive ReorderFault
  | outOfPasses
  | dictionaryChangedSize

def reqRegion (decodeThreshold : Int) (req : BatchRequest) : Nat :=
  if ¬ 0 < req.numComputedTokens then 3
  else if ¬ (numScheduledTokens req.reqId : Int) ≤ decodeThreshold then 2
  else if ¬ req.numPromptTokens ≤ req.numComputedTokens then 1
  else 0

def targetRegions (regions : List Nat) : List Nat :=
  (List.range 4).flatMap fun region => List.replicate (regions.count region) region

/-- `np.where(needs_swap)` -/
def origIndices (region : Fin n → Nat) : List (Fin n) :=
  (List.finRange n).filter fun i => (targetRegions (List.ofFn region))[i.val]? ≠ some (region i)

def srcIndices (region : Fin n → Nat) : List (Fin n) :=
  (origIndices region).insertionSort fun i j => region i ≤ region j

/-- The dictionary from `src` to `dst`, as `get(x, x)` reads it. -/
def srcDestMap (src dst : List (Fin n)) (x : Fin n) : Fin n := dst[src.idxOf x]?.getD x

structure Reordering (α : Type) (n : Nat) where
  batch : Fin n → α
  srcDest : Fin n → Fin n

def Reordering.swapStates (s : Reordering α n) (src dst : Fin n) : Reordering α n :=
  ⟨s.batch ∘ swap src dst, Function.update s.srcDest dst dst⟩

/-- The `while` loop. A new key would end the iteration over the dictionary. -/
def followCycle (keys : List (Fin n)) (src : Fin n) :
    Nat → Reordering α n → Fin n → Except ReorderFault (Reordering α n)
  | 0, _, _ => .error .outOfPasses
  | passes + 1, s, dst =>
    if src = dst then .ok s
    else if dst ∈ keys then followCycle keys src passes (s.swapStates src dst) (s.srcDest dst)
    else .error .dictionaryChangedSize

def reorderByRegion (region : α → Nat) (passes : Nat) (batch : Fin n → α) :
    Except ReorderFault ((Fin n → α) × Bool) :=
  let orig := origIndices (region ∘ batch)
  let src := srcIndices (region ∘ batch)
  if orig = [] then .ok (batch, false)
  else
    (src.foldlM (fun s key => followCycle src key passes s (s.srcDest key))
      ⟨batch, srcDestMap src orig⟩).map fun s => (s.batch, true)

def reorderBatchToSplitDecodesAndPrefills
    (decodeThreshold : Int) (passes : Nat) (batch : Fin n → BatchRequest) :
    Except ReorderFault ((Fin n → BatchRequest) × Bool) :=
  reorderByRegion (reqRegion numScheduledTokens decodeThreshold) passes batch

/-! ## Following the cycles -/

/-- `p` takes every request to where it belongs in `goal`; the map shows it outside `settled` and
the request the loop is at. -/
structure Pending (goal : Fin n → α) (keys : List (Fin n)) (shown settled : Fin n → Prop)
    (s : Reordering α n) (p : Perm (Fin n)) : Prop where
  batch : ∀ x, s.batch x = goal (p x)
  shown : ∀ x, shown x → s.srcDest x = p x
  settled : ∀ x, settled x → p x = x
  keys : ∀ x, p x ≠ x → x ∈ keys

section

variable {goal : Fin n → α} {keys : List (Fin n)} {shown settled : Fin n → Prop}
  {s : Reordering α n} {p : Perm (Fin n)} {src : Fin n}

/-- A swap settles the place it moves the request to. -/
theorem Pending.swapStates (h : Pending goal keys shown settled s p) (hmoved : p src ≠ src)
    (hshown : ¬ shown src) (hsettled : ¬ settled src) :
    Pending goal keys shown settled (s.swapStates src (p src)) (p * swap src (p src)) ∧
      (p * swap src (p src)).support.card < p.support.card := by
  have hnext : p (p src) ≠ p src := fun heq => hmoved (p.injective heq)
  refine ⟨⟨?_, ?_, ?_, ?_⟩, ?_⟩
  · intro x
    exact h.batch _
  · intro x hx
    have hxsrc : x ≠ src := fun heq => hshown (heq ▸ hx)
    rw [Perm.mul_apply]
    change update s.srcDest (p src) (p src) x = _
    cases eq_or_ne x (p src) with
    | inl heq => rw [heq, update_self, swap_apply_right]
    | inr hne => rw [update_of_ne hne, swap_apply_of_ne_of_ne hxsrc hne, h.shown x hx]
  · intro x hx
    have hxsrc : x ≠ src := fun heq => hsettled (heq ▸ hx)
    have hxdst : x ≠ p src := fun heq => hnext (heq ▸ h.settled x hx)
    rw [Perm.mul_apply, swap_apply_of_ne_of_ne hxsrc hxdst, h.settled x hx]
  · intro x hx
    rw [Perm.mul_apply] at hx
    cases eq_or_ne x src with
    | inl heq => exact h.keys x (heq ▸ hmoved)
    | inr hne =>
      refine h.keys x fun hfix => ?_
      cases eq_or_ne x (p src) with
      | inl heq => exact hnext (heq ▸ hfix)
      | inr hdst => exact hx (by rw [swap_apply_of_ne_of_ne hne hdst, hfix])
  · rw [mul_swap_eq_swap_mul]
    exact Perm.card_support_swap_mul hnext

/-- Within as many passes as requests are misplaced the cycle of `src` is done. -/
theorem Pending.followCycle {passes : Nat} (h : Pending goal keys shown settled s p)
    (hshown : ∀ x, shown x ↔ x ≠ src ∧ ¬ settled x) (hsettled : ¬ settled src)
    (hpasses : p.support.card < passes) :
    ∃ s' p', Worker.followCycle keys src passes s (p src) = .ok s' ∧
      Pending goal keys shown (fun x => settled x ∨ x = src) s' p' := by
  induction passes generalizing s p with
  | zero => exact absurd hpasses (Nat.not_lt_zero _)
  | succ passes ih =>
    rw [Worker.followCycle]
    cases eq_or_ne (p src) src with
    | inl hfix =>
      refine ⟨s, p, if_pos hfix.symm, { h with settled := ?_ }⟩
      rintro x (hx | rfl)
      · exact h.settled x hx
      · exact hfix
    | inr hmoved =>
      have hkey : p src ∈ keys := h.keys _ fun heq => hmoved (p.injective heq)
      have hdst : shown (p src) := (hshown _).2
        ⟨hmoved, fun hset => hmoved (p.injective (h.settled _ hset))⟩
      obtain ⟨hnext, hlt⟩ := h.swapStates hmoved (fun hs => ((hshown _).1 hs).1 rfl) hsettled
      rw [if_neg hmoved.symm, if_pos hkey, h.shown _ hdst]
      have hp : p (p src) = (p * swap src (p src)) src := by
        rw [Perm.mul_apply, swap_apply_left]
      rw [hp]
      exact ih hnext (by omega)

/-- When every key has been gone through, nothing is left to be done. -/
theorem Pending.followCycles {passes : Nat} (hpasses : n < passes) (l : List (Fin n))
    (h : Pending goal keys (fun x => ¬ settled x) settled s p) (hnodup : l.Nodup)
    (hnew : ∀ x ∈ l, ¬ settled x) (hkeys : ∀ x ∈ keys, settled x ∨ x ∈ l) :
    ∃ s', l.foldlM (fun s key => Worker.followCycle keys key passes s (s.srcDest key)) s = .ok s' ∧
      s'.batch = goal := by
  induction l generalizing s p settled with
  | nil =>
    refine ⟨s, rfl, funext fun x => ?_⟩
    have hfix : p x = x := by
      by_contra hmoved
      obtain hset | hmem := hkeys x (h.keys x hmoved)
      · exact hmoved (h.settled x hset)
      · exact not_mem_nil hmem
    rw [h.batch, hfix]
  | cons key l ih =>
    have hkey := hnew key mem_cons_self
    have hfuel : p.support.card < passes := by
      have hle := p.support.card_le_univ
      rw [Fintype.card_fin] at hle
      omega
    have hstart : Pending goal keys (fun x => x ≠ key ∧ ¬ settled x) settled s p :=
      { h with shown := fun x hx => h.shown x hx.2 }
    obtain ⟨s₁, p₁, hok, h₁⟩ := hstart.followCycle (fun x => Iff.rfl) hkey hfuel
    rw [foldlM_cons, h.shown key hkey, hok]
    refine ih { h₁ with shown := fun x hx => h₁.shown x ?_ } (nodup_cons.1 hnodup).2 ?_ ?_
    · exact ⟨fun heq => hx (.inr heq), fun hset => hx (.inl hset)⟩
    · rintro x hx (hset | rfl)
      · exact hnew x (mem_cons_of_mem _ hx) hset
      · exact (nodup_cons.1 hnodup).1 hx
    · intro x hx
      rw [or_assoc, ← mem_cons]
      exact hkeys x hx

end

/-! ## The map -/

section

variable {src dst : List (Fin n)} {x y : Fin n} (hperm : src.Perm dst)
include hperm

theorem srcDestMap_of_notMem (h : x ∉ src) : srcDestMap src dst x = x := by
  rw [srcDestMap, idxOf_eq_length h, getElem?_eq_none (by rw [hperm.length_eq])]
  rfl

theorem getElem?_srcDestMap (h : x ∈ src) : dst[src.idxOf x]? = some (srcDestMap src dst x) := by
  have hlt : src.idxOf x < dst.length := hperm.length_eq ▸ idxOf_lt_length_iff.2 h
  rw [srcDestMap, getElem?_eq_getElem hlt]
  rfl

theorem srcDestMap_mem_iff : srcDestMap src dst x ∈ src ↔ x ∈ src := by
  constructor
  · intro h
    by_contra hx
    exact hx (srcDestMap_of_notMem hperm hx ▸ h)
  · intro h
    exact hperm.mem_iff.2 (mem_of_getElem? (getElem?_srcDestMap hperm h))

theorem srcDestMap_injective (hnodup : dst.Nodup) : Function.Injective (srcDestMap src dst) := by
  intro x y heq
  have hiff : x ∈ src ↔ y ∈ src := by
    rw [← srcDestMap_mem_iff hperm, heq, srcDestMap_mem_iff hperm]
  by_cases hx : x ∈ src
  · have hy := hiff.1 hx
    have hplace : src.idxOf x = src.idxOf y := by
      have hxdst := getElem?_srcDestMap hperm hx
      rw [heq, ← getElem?_srcDestMap hperm hy] at hxdst
      refine (getElem?_inj ?_ hnodup).1 hxdst
      rw [← hperm.length_eq]
      exact idxOf_lt_length_iff.2 hx
    exact idxOf_inj hx |>.1 hplace
  · rwa [srcDestMap_of_notMem hperm hx, srcDestMap_of_notMem hperm (mt hiff.2 hx)] at heq

end

/-! ## Regions -/

theorem targetRegions_perm {regions : List Nat} (h : ∀ region ∈ regions, region < 4) :
    (targetRegions regions).Perm regions := by
  refine perm_iff_count.mpr fun a => ?_
  by_cases hmem : a ∈ regions
  · have hlt := h a hmem
    obtain rfl | rfl | rfl | rfl : a = 0 ∨ a = 1 ∨ a = 2 ∨ a = 3 := by omega
    all_goals simp [targetRegions, range_succ, count_replicate]
  · rw [count_eq_zero_of_not_mem hmem, count_eq_zero_of_not_mem]
    simp only [targetRegions, mem_flatMap, mem_replicate, not_exists, not_and]
    rintro region - hcount rfl
    exact hcount (count_eq_zero_of_not_mem hmem)

theorem targetRegions_sorted (regions : List Nat) : (targetRegions regions).SortedLE := by
  rw [sortedLE_iff_pairwise, targetRegions, pairwise_flatMap]
  refine ⟨fun region _ => ?_, ?_⟩
  · exact pairwise_replicate.2 (.inr (Nat.le_refl _))
  · refine (pairwise_lt_range).imp fun hlt x hx y hy => ?_
    rw [eq_of_mem_replicate hx, eq_of_mem_replicate hy]
    omega

/-- The target regions are the regions of the requests in order. -/
theorem exists_target {region : Fin n → Nat} (h : ∀ i, region i < 4) :
    ∃ target : Fin n → Nat, targetRegions (List.ofFn region) = List.ofFn target ∧
      Monotone target ∧ (List.ofFn target).Perm (List.ofFn region) := by
  have hperm : (targetRegions (List.ofFn region)).Perm (List.ofFn region) :=
    targetRegions_perm (by simpa using h)
  have hlen := hperm.length_eq
  rw [length_ofFn] at hlen
  have heq : targetRegions (List.ofFn region) =
      List.ofFn fun i : Fin n => (targetRegions (List.ofFn region)).get (i.cast hlen.symm) := by
    refine ext_getElem (by simp [hlen]) fun i _ _ => ?_
    simp
  have hsorted := targetRegions_sorted (List.ofFn region)
  rw [heq] at hperm hsorted
  exact ⟨_, heq, sortedLE_ofFn_iff.1 hsorted, hperm⟩

section

variable {region target : Fin n → Nat}
  (htarget : targetRegions (List.ofFn region) = List.ofFn target)
include htarget

theorem mem_origIndices (i : Fin n) : i ∈ origIndices region ↔ target i ≠ region i := by
  simp [origIndices, htarget]

omit htarget in
theorem srcIndices_perm : (srcIndices region).Perm (origIndices region) :=
  perm_insertionSort _ _

omit htarget in
theorem origIndices_nodup : (origIndices region).Nodup := (nodup_finRange n).filter _

variable (hmono : Monotone target) (hperm : (List.ofFn target).Perm (List.ofFn region))
include hmono hperm

/-- Where the regions differ from their targets, the two have the same values, and both lists are
in order. -/
theorem map_srcIndices : (srcIndices region).map region = (origIndices region).map target := by
  have hsame : ((origIndices region).map target).Perm ((origIndices region).map region) := by
    have hsplit := filter_append_perm (· ∈ origIndices region) (List.finRange n)
    have hrest : ((List.finRange n).filter fun i => !decide (i ∈ origIndices region)).map target =
        ((List.finRange n).filter fun i => !decide (i ∈ origIndices region)).map region := by
      refine map_congr_left fun i hi => ?_
      simpa [mem_origIndices htarget] using hi
    have horig : (List.finRange n).filter (· ∈ origIndices region) = origIndices region := by
      refine filter_congr fun i hi => ?_
      simp [mem_origIndices htarget, htarget]
    rw [horig] at hsplit
    have hall := ((hsplit.map target).trans ?_).trans (hsplit.map region).symm
    · rw [map_append, map_append, hrest] at hall
      exact (perm_append_right_iff _).1 hall
    · rwa [← ofFn_eq_map, ← ofFn_eq_map]
  refine List.Perm.eq_of_sortedLE ?_ ?_ ((srcIndices_perm.map region).trans hsame.symm)
  · rw [sortedLE_iff_pairwise, pairwise_map]
    exact pairwise_insertionSort _ _
  · rw [sortedLE_iff_pairwise, pairwise_map]
    exact ((pairwise_le_finRange n).filter _).imp fun h => hmono h

/-- The map takes every request to a place of its region. -/
theorem target_srcDestMap (i : Fin n) :
    target (srcDestMap (srcIndices region) (origIndices region) i) = region i := by
  by_cases hmem : i ∈ srcIndices region
  · have hplace := congrArg (·[(srcIndices region).idxOf i]?)
      (map_srcIndices htarget hmono hperm)
    simp only [getElem?_map, getElem?_srcDestMap srcIndices_perm hmem,
      getElem?_idxOf hmem, Option.map_some] at hplace
    exact (Option.some.inj hplace).symm
  · rw [srcDestMap_of_notMem srcIndices_perm hmem]
    rw [srcIndices_perm.mem_iff, mem_origIndices htarget] at hmem
    exact not_not.1 hmem

end

/-! ## The result -/

section

variable (region : α → Nat) {passes : Nat} (hpasses : n < passes) (batch : Fin n → α)
include hpasses

/-- The swaps carry the map out. -/
theorem reorderByRegion_eq :
    ∃ σ : Perm (Fin n), ⇑σ = srcDestMap (srcIndices (region ∘ batch))
      (origIndices (region ∘ batch)) ∧
      reorderByRegion region passes batch =
        .ok (batch ∘ σ.symm, decide (origIndices (region ∘ batch) ≠ [])) := by
  have hperm : (srcIndices (region ∘ batch)).Perm (origIndices (region ∘ batch)) :=
    srcIndices_perm
  have hinj := srcDestMap_injective hperm origIndices_nodup
  let σ : Perm (Fin n) := .ofBijective _ (Finite.injective_iff_bijective.1 hinj)
  have hσ : ⇑σ = srcDestMap (srcIndices (region ∘ batch)) (origIndices (region ∘ batch)) := rfl
  have hfixed : ∀ x ∉ srcIndices (region ∘ batch), σ x = x := fun x =>
    srcDestMap_of_notMem hperm
  refine ⟨σ, hσ, ?_⟩
  rw [reorderByRegion]
  split
  · next hnone =>
    have hone : σ.symm = 1 := by
      rw [hnone] at hperm
      ext x : 1
      exact (σ.symm_apply_eq).2 (hfixed x (by rw [hperm.eq_nil]; exact not_mem_nil)).symm
    rw [hone, decide_eq_false (not_not.2 hnone)]
    rfl
  · next hsome =>
    have hstart : Pending (batch ∘ σ.symm) (srcIndices (region ∘ batch)) (fun _ => ¬ False)
        (fun _ => False) ⟨batch, σ⟩ σ := by
      refine ⟨?_, fun x _ => rfl, fun x hx => hx.elim, ?_⟩
      · intro x
        rw [comp_apply, σ.symm_apply_apply]
      · intro x hx
        by_contra hmem
        exact hx (hfixed x hmem)
    obtain ⟨s', hok, hbatch⟩ := hstart.followCycles hpasses _
      (hperm.nodup_iff.2 origIndices_nodup) (fun _ _ => not_false) fun _ hx => .inr hx
    rw [decide_eq_true hsome, ← hbatch, ← hσ, hok]
    rfl

theorem reorderByRegion_splits (hregion : ∀ a, region a < 4) :
    ∃ batch' moved, reorderByRegion region passes batch = .ok (batch', moved) ∧
      (∃ σ : Perm (Fin n), batch' = batch ∘ σ) ∧ Monotone (region ∘ batch') ∧
      (∀ i, region (batch' i) = region (batch i) → batch' i = batch i) ∧
      (moved = true ↔ ∃ i, batch' i ≠ batch i) := by
  obtain ⟨target, htarget, hmono, hperm⟩ :=
    exists_target (show ∀ i, (region ∘ batch) i < 4 from fun i => hregion _)
  obtain ⟨σ, hσ, hok⟩ := reorderByRegion_eq region hpasses batch
  have hreached : ∀ i, region (batch (σ.symm i)) = target i := by
    intro i
    have hplace := target_srcDestMap htarget hmono hperm (σ.symm i)
    rw [← hσ, σ.apply_symm_apply] at hplace
    exact hplace.symm
  have hstay : ∀ i, target i = region (batch i) → σ.symm i = i := by
    intro i hi
    rw [σ.symm_apply_eq, hσ, srcDestMap_of_notMem srcIndices_perm]
    rw [srcIndices_perm.mem_iff, mem_origIndices htarget]
    exact not_not.2 hi
  refine ⟨_, _, hok, ⟨σ.symm, rfl⟩, ?_, ?_, ?_⟩
  · intro i j hij
    simp only [comp_apply, hreached]
    exact hmono hij
  · intro i hi
    rw [comp_apply, hreached] at hi
    rw [comp_apply, hstay i hi]
  rw [decide_eq_true_iff]
  constructor
  · intro hne
    obtain ⟨i, hi⟩ := exists_mem_of_ne_nil _ hne
    refine ⟨i, fun heq => (mem_origIndices htarget i).1 hi ?_⟩
    rw [← hreached]
    exact congrArg region heq
  · rintro ⟨i, hi⟩
    refine ne_nil_of_mem ((mem_origIndices htarget i).2 fun heq => hi ?_)
    rw [comp_apply, hstay i heq]

end

theorem reqRegion_lt (decodeThreshold : Int)
    (req : BatchRequest) : reqRegion numScheduledTokens decodeThreshold req < 4 := by
  unfold reqRegion
  split_ifs <;> decide

/-- The loops end, the requests are permuted so that their regions are in order, those that are in
a place of their region stay there, and the result tells whether any moved. -/
theorem reorderBatch_splits (numScheduledTokens : String → Nat) (decodeThreshold : Int)
    (batch : Fin n → BatchRequest) {passes : Nat} (hpasses : n < passes) :
    ∃ batch' moved, reorderBatchToSplitDecodesAndPrefills numScheduledTokens decodeThreshold passes
        batch = .ok (batch', moved) ∧
      (∃ σ : Perm (Fin n), batch' = batch ∘ σ) ∧
      Monotone (reqRegion numScheduledTokens decodeThreshold ∘ batch') ∧
      (∀ i, reqRegion numScheduledTokens decodeThreshold (batch' i) =
        reqRegion numScheduledTokens decodeThreshold (batch i) → batch' i = batch i) ∧
      (moved = true ↔ ∃ i, batch' i ≠ batch i) :=
  reorderByRegion_splits _ hpasses batch (reqRegion_lt numScheduledTokens decodeThreshold)

/-- A new prompt and a decode. -/
def prefillBeforeDecode : Fin 2 → BatchRequest
  | 0 => ⟨"a", 0, 4⟩
  | 1 => ⟨"b", 5, 4⟩

/-- The decode moves to the front. -/
theorem reorderBatch_splits_two : 2 < 3 ∧ ∃ batch', batch' ≠ prefillBeforeDecode ∧
    reorderBatchToSplitDecodesAndPrefills (fun _ => 1) 1 3 prefillBeforeDecode =
      .ok (batch', true) ∧ Monotone (reqRegion (fun _ => 1) 1 ∘ batch') := by
  obtain ⟨batch', moved, hok, -, hmono, -, hmoved⟩ :=
    reorderBatch_splits (fun _ => 1) 1 prefillBeforeDecode (show 2 < 3 by decide)
  have hne : batch' ≠ prefillBeforeDecode := by
    rintro rfl
    exact absurd (hmono (Fin.zero_le 1)) (by decide)
  obtain rfl := hmoved.mpr (Function.ne_iff.mp hne)
  exact ⟨by decide, batch', hne, hok, hmono⟩

end Vllm.Worker
