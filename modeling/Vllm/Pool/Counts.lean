import Mathlib.Data.Finset.Card
import Vllm.Pool.Invariant

/-!
# Reference counts and their owners

`Counts p size refs` says that the pool counts exactly `refs b` references to each
block `b` but the null block, for any way to find `refs` from the owners outside of
the pool. Each call of the pool changes `refs` by the blocks that it is given or
returns.
-/

namespace Vllm.Pool.BlockPool

open List

variable {H : Type}

/-- The pool has `size` blocks and counts `refs b` references to block `b`. -/
structure Counts (p : BlockPool H) (size : Nat) (refs : Nat → Nat) : Prop where
  inv : Inv p
  size_eq : p.numGpuBlocks = size
  size_pos : 0 < size
  valid : ∀ b ≠ 0, 0 < refs b → b < size
  refCnt : ∀ b ≠ 0, (p.blocks b).refCnt = refs b

namespace Counts

variable {p p' : BlockPool H} {size : Nat} {refs refs' : Nat → Nat} {bs : List Nat} {b n : Nat}

section

variable (h : Counts p size refs)
include h

/-- Blocks that are not null are named by positive ids. -/
theorem isNull_eq_false (hb : b ≠ 0) : (p.blocks b).isNull = false := by
  rw [← Bool.not_eq_true, h.inv.null]
  exact hb

theorem refsIn_eq (bs : List Nat) (hb : b ≠ 0) : p.refsIn bs b = bs.count b := by
  rw [refsIn, h.isNull_eq_false hb]
  rfl

theorem congr (hrefs : ∀ b ≠ 0, refs' b = refs b) : Counts p size refs' :=
  ⟨h.inv, h.size_eq, h.size_pos, fun b hb => hrefs b hb ▸ h.valid b hb,
    fun b hb => (h.refCnt b hb).trans (hrefs b hb).symm⟩

omit h in
theorem init {caching : Bool} {hashBlockSize : Nat}
    (h : BlockPool.init n caching hashBlockSize = some p) : Counts p n fun _ => 0 := by
  have hinv := init_inv h
  obtain ⟨⟨first, q⟩, hpop, rfl⟩ := Option.map_eq_some_iff.mp h
  refine ⟨hinv, rfl, Nat.pos_of_ne_zero ?_, fun _ _ hpos => (nomatch hpos), fun _ _ => rfl⟩
  rintro rfl
  cases hpop

theorem of_sameRefs (hinv : Inv p') (hsame : SameRefs p p') : Counts p' size refs :=
  ⟨hinv, hsame.numGpuBlocks.trans h.size_eq, h.size_pos, h.valid,
    fun b hb => (hsame.refCnt b).trans (h.refCnt b hb)⟩

/-- References are taken. -/
theorem take (bs : List Nat) (hinv : Inv p')
    (hsize : p'.numGpuBlocks = p.numGpuBlocks) (hvalid : ∀ b ∈ bs, b < size)
    (hrefs : ∀ b ≠ 0, (p'.blocks b).refCnt = (p.blocks b).refCnt + bs.count b) :
    Counts p' size fun b => refs b + bs.count b := by
  refine ⟨hinv, hsize.trans h.size_eq, h.size_pos, fun b hb hpos => ?_, fun b hb => ?_⟩
  · by_cases hmem : b ∈ bs
    · exact hvalid b hmem
    · rw [count_eq_zero_of_not_mem hmem] at hpos
      exact h.valid b hb hpos
  · rw [hrefs b hb, h.refCnt b hb]

theorem touch (hbs : ∀ b ∈ bs, b < size) :
    ∃ p', p.touch bs = some p' ∧ Counts p' size fun b => refs b + bs.count b := by
  obtain ⟨p', hp', hfree, hsame, hrefs⟩ := touch_spec h.inv.free (h.size_eq.symm ▸ hbs)
  refine ⟨p', hp', h.take bs (h.inv.of_sameHashes hsame hfree) hsame.numGpuBlocks hbs
    fun b hb => ?_⟩
  rw [hrefs, h.refsIn_eq bs hb]

/-- One more reference to a block that is referenced. -/
theorem incRef (hb : b < size) (href : b ≠ 0 → 0 < refs b) :
    Counts (p.setRefCnt b ((p.blocks b).refCnt + 1)) size fun c => refs c + [b].count c := by
  have hfree : FreeInv (p.setRefCnt b ((p.blocks b).refCnt + 1)) [] := by
    by_cases hzero : b = 0
    · exact h.inv.free.setRefCnt_null ((h.inv.null b).mpr hzero)
    refine h.inv.free.setRefCnt_pos ?_ (Nat.succ_ne_zero _)
    rw [h.refCnt b hzero]
    exact Nat.ne_of_gt (href hzero)
  refine h.take [b] (h.inv.of_sameHashes (sameHashes_setRefCnt _ _ _) hfree) rfl
    (fun c hc => mem_singleton.mp hc ▸ hb) fun c _ => ?_
  by_cases hc : c = b
  · simp [hc]
  · simp [hc, Ne.symm hc]

/-- References are given back by those who have them. -/
theorem freeBlocks (hrefs : ∀ b ≠ 0, refs b = refs' b + bs.count b) :
    ∃ p', p.freeBlocks bs = some p' ∧ Counts p' size refs' := by
  have hvalid : ∀ b ∈ bs, b < p.numGpuBlocks := by
    intro b hb
    rw [h.size_eq]
    by_cases hzero : b = 0
    · exact hzero ▸ h.size_pos
    · have hpos := count_pos_iff.mpr hb
      exact h.valid b hzero (by rw [hrefs b hzero]; omega)
  have hle : ∀ b, p.refsIn bs b ≤ (p.blocks b).refCnt := by
    intro b
    by_cases hzero : b = 0
    · rw [refsIn, hzero, (h.inv.null 0).mpr rfl]
      exact Nat.zero_le _
    · rw [h.refsIn_eq bs hzero, h.refCnt b hzero, hrefs b hzero]
      exact Nat.le_add_left _ _
  obtain ⟨p', hp', hfree, hsame, hafter⟩ := freeBlocks_spec h.inv.free hvalid hle
  refine ⟨p', hp', h.inv.of_sameHashes hsame hfree, hsame.numGpuBlocks.trans h.size_eq,
    h.size_pos, fun b hb hpos => ?_, fun b hb => ?_⟩
  · exact h.valid b hb (by rw [hrefs b hb]; omega)
  · have hb' := hafter b
    rw [h.refsIn_eq bs hb, h.refCnt b hb, hrefs b hb] at hb'
    exact Nat.add_right_cancel hb'

/-- The free blocks are those without references. -/
theorem mem_free_iff : b ∈ p.freeBlockQueue.toList ↔ b ≠ 0 ∧ b < size ∧ refs b = 0 := by
  rw [h.inv.repInv.mem_free_iff, h.size_eq, ← Bool.not_eq_true, h.inv.null, and_left_comm]
  exact and_congr_right fun hb => by rw [h.refCnt b hb]

/-- The free blocks of two pools, where what was free, or is `given` back, is free afterwards
or `taken`. -/
theorem numFree_add_card_le (given taken : Finset Nat) (h' : Counts p' size refs')
    (hgiven : ∀ b ∈ given, b ≠ 0 ∧ (p.blocks b).refCnt ≠ 0)
    (hafter : ∀ b ≠ 0, (p.blocks b).refCnt = 0 ∨ b ∈ given →
      (p'.blocks b).refCnt = 0 ∨ b ∈ taken) :
    p.getNumFreeBlocks + given.card ≤ p'.getNumFreeBlocks + taken.card := by
  have hrep := h.inv.repInv
  have hrep' := h'.inv.repInv
  have hdisjoint : Disjoint p.freeBlockQueue.toList.toFinset given := by
    refine Finset.disjoint_left.mpr fun b hfree hb => (hgiven b hb).2 ?_
    obtain ⟨hne, -, href⟩ := h.mem_free_iff.mp (mem_toFinset.mp hfree)
    rw [h.refCnt b hne, href]
  rw [hrep.numFree, hrep'.numFree, ← toFinset_card_of_nodup hrep.free_nodup,
    ← toFinset_card_of_nodup hrep'.free_nodup, ← Finset.card_union_of_disjoint hdisjoint]
  refine (Finset.card_le_card fun b hb => ?_).trans (Finset.card_union_le _ _)
  have hused : b ≠ 0 ∧ b < size ∧ ((p.blocks b).refCnt = 0 ∨ b ∈ given) := by
    cases Finset.mem_union.mp hb with
    | inl hfree =>
      obtain ⟨hne, hlt, href⟩ := h.mem_free_iff.mp (mem_toFinset.mp hfree)
      exact ⟨hne, hlt, .inl (by rw [h.refCnt b hne, href])⟩
    | inr hin =>
      obtain ⟨hne, href⟩ := hgiven b hin
      rw [h.refCnt b hne] at href
      exact ⟨hne, h.valid b hne (Nat.pos_of_ne_zero href), .inr hin⟩
  obtain ⟨hne, hlt, hcase⟩ := hused
  rw [Finset.mem_union, mem_toFinset, h'.mem_free_iff, ← h'.refCnt b hne]
  exact (hafter b hne hcase).imp (fun href => ⟨hne, hlt, href⟩) id

variable [DecidableEq H]

theorem of_hashSteps {ok : Nat → Key H → Prop} (hsteps : HashSteps ok p p') : Counts p' size refs :=
  h.of_sameRefs (h.inv.of_hashSteps hsteps) hsteps.sameRefs

/-- New blocks come with one reference each. -/
theorem getNewBlocks (hget : p.getNewBlocks n = some (bs, p')) :
    (Counts p' size fun b => refs b + bs.count b) ∧ bs.length = n ∧ ∀ b ∈ bs, b ≠ 0 := by
  obtain ⟨-, hlen, hfree, halloc⟩ := getNewBlocks_eq_some h.inv.free hget
  have hinv : Inv p' :=
    ⟨halloc.hashInv h.inv.hashes, hfree, fun b => by rw [halloc.isNull]; exact h.inv.null b⟩
  refine ⟨h.take bs hinv halloc.numGpuBlocks (fun b hb => h.size_eq ▸ (halloc.isFree b hb).1)
    fun b _ => ?_, hlen, ?_⟩
  · rw [halloc.refCnt]
    by_cases hb : b ∈ bs
    · rw [if_pos hb, (halloc.isFree b hb).2.2, count_eq_one_of_mem halloc.nodup hb]
    · rw [if_neg hb, count_eq_zero_of_not_mem hb, Nat.add_zero]
  · rintro b hb rfl
    have hnull := (halloc.isFree 0 hb).2.1
    rw [(h.inv.null 0).mpr rfl] at hnull
    cases hnull

end

end Counts

end Vllm.Pool.BlockPool
