import Vllm.Lookup.Coordinator
import Vllm.Lookup.FinderSpecs

/-!
# The spec groups of a configuration

Every cacheable KV cache group is in exactly one spec group, and spec groups
inherit what the constructor checks: `Units` relates their block size to the
alignment of hits.
-/

namespace Vllm.Lookup

open List

/-! ## Splitting into spec groups -/

theorem forall_mem_joinSpecGroup {P : SpecGroup → Prop} {i : Nat} {spec : KVCacheSpec}
    {useEagle : Bool} {acc : List SpecGroup} (hnew : P ⟨spec, [i], useEagle⟩)
    (hjoin : ∀ g, P g → g.spec = spec →
      P { g with groupIds := g.groupIds ++ [i], useEagle := g.useEagle || useEagle })
    (hacc : ∀ g ∈ acc, P g) : ∀ g ∈ joinSpecGroup i spec useEagle acc, P g := by
  induction acc with
  | nil => simpa [joinSpecGroup] using hnew
  | cons g rest ih =>
    have hg := hacc g mem_cons_self
    have hrest := fun g' h => hacc g' (mem_cons_of_mem g h)
    rw [joinSpecGroup]
    split
    · next hs =>
      intro g' hg'
      rcases mem_cons.mp hg' with rfl | h
      · exact hjoin g hg hs
      · exact hrest g' h
    · intro g' hg'
      rcases mem_cons.mp hg' with rfl | h
      · exact hg
      · exact ih hrest g' h

/-- Rule for properties of the spec groups: they hold for a new spec group and
are kept when a group joins. -/
theorem forall_mem_splitGroups {P : SpecGroup → Prop} {groups : List (KVCacheGroup × Nat)}
    {acc : List SpecGroup}
    (hnew : ∀ g i, (g, i) ∈ groups → g.prefixCacheable = true → P ⟨g.spec, [i], g.dropEagle⟩)
    (hjoin : ∀ g i s, (g, i) ∈ groups → g.prefixCacheable = true → P s → s.spec = g.spec →
      P { s with groupIds := s.groupIds ++ [i], useEagle := s.useEagle || g.dropEagle })
    (hacc : ∀ s ∈ acc, P s) : ∀ s ∈ splitGroups groups acc, P s := by
  induction groups generalizing acc with
  | nil => exact hacc
  | cons gi rest ih =>
    obtain ⟨g, i⟩ := gi
    refine ih (fun g' i' h => hnew g' i' (mem_cons_of_mem _ h))
      (fun g' i' s h => hjoin g' i' s (mem_cons_of_mem _ h)) ?_
    split
    · next hc =>
      exact forall_mem_joinSpecGroup (hnew g i mem_cons_self hc)
        (fun s hs => hjoin g i s mem_cons_self hc hs) hacc
    · exact hacc

theorem perm_joinSpecGroup (i : Nat) (spec : KVCacheSpec) (useEagle : Bool) (acc : List SpecGroup) :
    ((joinSpecGroup i spec useEagle acc).flatMap (·.groupIds)).Perm
      (acc.flatMap (·.groupIds) ++ [i]) := by
  induction acc with
  | nil => exact .refl _
  | cons g rest ih =>
    rw [joinSpecGroup]
    split
    · simp only [flatMap_cons, append_assoc]
      exact perm_append_comm.append_left _
    · simp only [flatMap_cons, append_assoc]
      exact ih.append_left _

theorem perm_splitGroups (groups : List (KVCacheGroup × Nat)) (acc : List SpecGroup) :
    ((splitGroups groups acc).flatMap (·.groupIds)).Perm
      (acc.flatMap (·.groupIds) ++ (groups.filter (·.1.prefixCacheable)).map (·.2)) := by
  induction groups generalizing acc with
  | nil => simp [splitGroups]
  | cons gi rest ih =>
    obtain ⟨g, i⟩ := gi
    refine (ih _).trans ?_
    cases hc : g.prefixCacheable with
    | true =>
      simp only [hc, if_true, filter_cons, map_cons]
      refine ((perm_joinSpecGroup i g.spec g.dropEagle acc).append_right _).trans ?_
      simp
    | false => simp [hc]

namespace HybridConfig

variable (c : HybridConfig) {g : SpecGroup}

theorem mem_attentionGroups :
    g ∈ c.attentionGroups ↔ g ∈ splitGroups c.kvCacheGroups.zipIdx [] := by
  unfold attentionGroups
  simp only [mem_append, mem_filter, ← and_or_left]
  cases g.spec.isFullAttention <;> simp

/-- The spec groups hold exactly the cacheable groups. -/
theorem perm_groupIds : (c.attentionGroups.flatMap (·.groupIds)).Perm
    ((c.kvCacheGroups.zipIdx.filter (·.1.prefixCacheable)).map (·.2)) := by
  have hperm : c.attentionGroups.Perm (splitGroups c.kvCacheGroups.zipIdx []) :=
    filter_append_perm _ _
  exact (hperm.flatMap_right (·.groupIds)).trans (perm_splitGroups c.kvCacheGroups.zipIdx [])

/-- A group is in one spec group only, and at one place of it. -/
theorem attentionGroups_nodup : (c.attentionGroups.flatMap (·.groupIds)).Nodup := by
  refine c.perm_groupIds.nodup_iff.mpr (List.Nodup.sublist ((filter_sublist).map _) ?_)
  rw [zipIdx_map_snd]
  exact nodup_range'

section

variable (hg : g ∈ c.attentionGroups)
include hg

theorem groupIds_ne_nil : g.groupIds ≠ [] := by
  rw [mem_attentionGroups] at hg
  refine forall_mem_splitGroups (P := fun g => g.groupIds ≠ []) (fun k i _ _ => ?_)
    (fun k i s _ _ _ _ => ?_) (fun s hs => absurd hs not_mem_nil) g hg
  · exact cons_ne_nil _ _
  · simp

theorem groupId_lt {groupId : Nat}
    (hid : groupId ∈ g.groupIds) : groupId < c.kvCacheGroups.length := by
  have hmem := c.perm_groupIds.mem_iff.mp (mem_flatMap.mpr ⟨g, hg, hid⟩)
  obtain ⟨⟨k, i⟩, hk, rfl⟩ := mem_map.mp hmem
  exact snd_lt_of_mem_zipIdx (mem_filter.mp hk).1

omit hg in
theorem attentionGroups_ne_nil : c.attentionGroups ≠ [] := by
  intro h
  obtain ⟨g, hg, hc⟩ := c.cacheable
  obtain ⟨i, hi⟩ := getElem?_of_mem hg
  have hmem : i ∈ (c.kvCacheGroups.zipIdx.filter (·.1.prefixCacheable)).map (·.2) :=
    mem_map.mpr ⟨(g, i), mem_filter.mpr
      ⟨mem_zipIdx_iff_getElem?.mpr hi, hc⟩, rfl⟩
  rw [← c.perm_groupIds.mem_iff, h] at hmem
  exact not_mem_nil hmem

/-- The spec of a spec group is the spec of one of the cacheable groups. -/
theorem exists_kvCacheGroup :
    ∃ k ∈ c.kvCacheGroups, k.prefixCacheable = true ∧ g.spec = k.spec := by
  rw [mem_attentionGroups] at hg
  refine forall_mem_splitGroups (P := fun g => ∃ k ∈ c.kvCacheGroups,
    k.prefixCacheable = true ∧ g.spec = k.spec) (fun k i hk hc => ?_) (fun k i s _ _ hs _ => hs)
    (fun s hs => absurd hs not_mem_nil) g hg
  exact ⟨k, fst_mem_of_mem_zipIdx hk, hc, rfl⟩

/-- An EAGLE spec group has an EAGLE member. -/
theorem exists_dropEagle (he : g.useEagle = true) : ∃ k ∈ c.kvCacheGroups, k.dropEagle = true := by
  rw [mem_attentionGroups] at hg
  refine forall_mem_splitGroups (P := fun g => g.useEagle = true →
    ∃ k ∈ c.kvCacheGroups, k.dropEagle = true) (fun k i hk _ he => ?_)
      (fun k i s hk _ hs _ he => ?_)
    (fun s hs => absurd hs not_mem_nil) g hg he
  · exact ⟨k, fst_mem_of_mem_zipIdx hk, he⟩
  · rcases Bool.or_eq_true_iff.mp he with h | h
    · exact hs h
    · exact ⟨k, fst_mem_of_mem_zipIdx hk, h⟩

/-! ## Sizes -/

omit hg in
theorem align_pos : 0 < c.cacheHitAlignmentTokens := by
  unfold cacheHitAlignmentTokens
  split
  · exact c.hash_pos
  · exact c.scheduler_pos

theorem units : Units c.hashBlockSize g.spec.blockSize c.cacheHitAlignmentTokens := by
  obtain ⟨k, hk, hc, hs⟩ := c.exists_kvCacheGroup hg
  rw [hs]
  have hdvd := c.scheduler_dvd k hk hc
  refine ⟨c.hash_pos, Nat.pos_of_dvd_of_pos hdvd c.scheduler_pos, c.hash_dvd k hk hc,
    c.align_pos, ?_⟩
  unfold cacheHitAlignmentTokens
  split
  · exact .inl rfl
  · exact .inr hdvd

/-- Lookups that are not fine-grained end at whole blocks. -/
theorem blockSize_dvd_align (hs : g.spec.supportsFineGrainedHashLookup = false) :
    g.spec.blockSize ∣ c.cacheHitAlignmentTokens := by
  obtain ⟨k, hk, hc, hspec⟩ := c.exists_kvCacheGroup hg
  rw [hspec] at hs ⊢
  unfold cacheHitAlignmentTokens
  split
  · next hp =>
    -- fine-grained hits are only enabled if such a block is one hash block
    have hall := (Bool.and_eq_true_iff.mp (Bool.and_eq_true_iff.mp hp).2).2
    simp only [Bool.not_eq_true', any_eq_false] at hall
    have hk' := hall k hk
    simp only [hc, hs, Bool.not_false, Bool.and_true, Bool.true_and, bne_iff_ne, ne_eq,
      not_not] at hk'
    exact hk' ▸ Nat.dvd_refl _
  · exact c.scheduler_dvd k hk hc

/-- The drop unit that an EAGLE lookup reads past a length. -/
theorem eagleProofMargin_eq :
    eagleProofMargin g.spec.blockSize c.hashBlockSize
        (c.enablePartialHashHits && g.spec.supportsFineGrainedHashLookup) =
      min c.cacheHitAlignmentTokens g.spec.blockSize := by
  have u := c.units hg
  unfold eagleProofMargin cacheHitAlignmentTokens
  cases hp : c.enablePartialHashHits with
  | false =>
    have hle' : g.spec.blockSize ≤ c.schedulerBlockSize := by
      obtain ⟨k, hk, hc, hs⟩ := c.exists_kvCacheGroup hg
      exact Nat.le_of_dvd c.scheduler_pos (hs ▸ c.scheduler_dvd k hk hc)
    simp [Nat.min_eq_right hle']
  | true =>
    cases hs : g.spec.supportsFineGrainedHashLookup with
    | false =>
      have hdvd := Nat.le_of_dvd c.align_pos (c.blockSize_dvd_align hg hs)
      rw [cacheHitAlignmentTokens, if_pos hp] at hdvd
      simp [Nat.min_eq_right hdvd]
    | true =>
      simp only [Bool.and_true, Bool.true_and, decide_eq_true_eq, if_true]
      split <;> omega

end

/-! ## The order of the spec groups -/

/-- The full attention spec groups. -/
def fullGroups : List SpecGroup := c.attentionGroups.filter (·.spec.isFullAttention)

def otherGroups : List SpecGroup := c.attentionGroups.filter (!·.spec.isFullAttention)

theorem attentionGroups_eq : c.attentionGroups = c.fullGroups ++ c.otherGroups := by
  simp only [fullGroups, otherGroups, attentionGroups, filter_append, filter_filter]
  simp

end HybridConfig

end Vllm.Lookup
