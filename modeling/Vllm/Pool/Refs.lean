import Vllm.Pool.Hashes

/-!
# Reference counts and the free queue

The free queue holds the blocks without references, the null block excepted.
Inside an operation some of them are taken out or not yet put in; `FreeInv p
pending` allows for these. The lemmas give for each operation the reference
counts after it and keep `FreeInv`.
-/

namespace Vllm.Pool

open Library List

variable {H : Type} [DecidableEq H]

namespace BlockPool

/-- The blocks of the pool that no one refers to. -/
def IsFree (p : BlockPool H) (b : Nat) : Prop :=
  b < p.numGpuBlocks ∧ (p.blocks b).isNull = false ∧ (p.blocks b).refCnt = 0

/-- The free queue and the pending blocks are, without repetition, the blocks
that no one refers to. -/
def FreeInv (p : BlockPool H) (pending : List Nat) : Prop :=
  ∃ xs, p.freeBlockQueue.Represents xs ∧ (xs ++ pending).Nodup ∧
    ∀ b, b ∈ xs ++ pending ↔ p.IsFree b

variable {p p' : BlockPool H} {pending : List Nat} {b n : Nat} {bs : List Nat}

section

omit [DecidableEq H]

theorem FreeInv.perm {pending' : List Nat} (h : FreeInv p pending)
    (hperm : pending.Perm pending') : FreeInv p pending' := by
  obtain ⟨xs, hxs, hnodup, hmem⟩ := h
  have hperm' := hperm.append_left xs
  exact ⟨xs, hxs, hperm'.nodup_iff.mp hnodup, fun b => (hperm'.mem_iff.symm).trans (hmem b)⟩

theorem SameRefs.isFree_iff (h : SameRefs p p') (b : Nat) : p'.IsFree b ↔ p.IsFree b := by
  simp only [IsFree, h.numGpuBlocks, h.isNull, h.refCnt]

theorem FreeInv.of_sameRefs (h : FreeInv p pending) (hp : SameRefs p p') : FreeInv p' pending := by
  obtain ⟨xs, hxs, hnodup, hmem⟩ := h
  exact ⟨xs, hp.freeBlockQueue ▸ hxs, hnodup, fun b => (hmem b).trans (hp.isFree_iff b).symm⟩

theorem FreeInv.isFree_of_mem (h : FreeInv p pending) (hb : b ∈ pending) : p.IsFree b := by
  obtain ⟨xs, -, -, hmem⟩ := h
  exact (hmem b).mp (mem_append_right xs hb)

@[simp] theorem setRefCnt_isNull (p : BlockPool H) (b n c : Nat) :
    ((p.setRefCnt b n).blocks c).isNull = (p.blocks c).isNull :=
  (sameHashes_setRefCnt p b n).isNull c

@[simp] theorem setRefCnt_numGpuBlocks (p : BlockPool H) (b n : Nat) :
    (p.setRefCnt b n).numGpuBlocks = p.numGpuBlocks := rfl

/-- A pending block that gets a reference is no longer pending. -/
theorem FreeInv.setRefCnt_pending (h : FreeInv p (b :: pending)) (hn : n ≠ 0) :
    FreeInv (p.setRefCnt b n) pending := by
  obtain ⟨xs, hxs, hnodup, hmem⟩ := h
  have hperm : (xs ++ b :: pending).Perm (b :: (xs ++ pending)) := perm_middle
  obtain ⟨hb, hnodup'⟩ := nodup_cons.mp (hperm.nodup_iff.mp hnodup)
  refine ⟨xs, hxs, hnodup', fun c => ?_⟩
  have hc := (hperm.mem_iff.symm).trans (hmem c)
  by_cases hcb : c = b
  · subst hcb
    simp only [hb, IsFree, setRefCnt_refCnt, if_true, hn, and_false]
  · simpa [IsFree, hcb] using hc

/-- A block that loses its last reference becomes pending. -/
theorem FreeInv.setRefCnt_zero (h : FreeInv p pending) (hb : b < p.numGpuBlocks)
    (hnull : (p.blocks b).isNull = false) (href : (p.blocks b).refCnt ≠ 0) :
    FreeInv (p.setRefCnt b 0) (b :: pending) := by
  obtain ⟨xs, hxs, hnodup, hmem⟩ := h
  have hperm : (xs ++ b :: pending).Perm (b :: (xs ++ pending)) := perm_middle
  have hnot : b ∉ xs ++ pending := fun hin => href ((hmem b).mp hin).2.2
  refine ⟨xs, hxs, hperm.nodup_iff.mpr (nodup_cons.mpr ⟨hnot, hnodup⟩), fun c => ?_⟩
  rw [hperm.mem_iff, mem_cons, hmem c]
  by_cases hcb : c = b
  · subst hcb
    simp [IsFree, hb, hnull]
  · simp [IsFree, hcb]

/-- A count that stays positive does not matter for the queue. -/
theorem FreeInv.setRefCnt_pos (h : FreeInv p pending)
    (href : (p.blocks b).refCnt ≠ 0) (hn : n ≠ 0) : FreeInv (p.setRefCnt b n) pending := by
  obtain ⟨xs, hxs, hnodup, hmem⟩ := h
  refine ⟨xs, hxs, hnodup, fun c => ?_⟩
  rw [hmem c]
  by_cases hcb : c = b
  · subst hcb
    simp [IsFree, href, hn]
  · simp [IsFree, hcb]

/-- The count of the null block says nothing. -/
theorem FreeInv.setRefCnt_null (h : FreeInv p pending)
    (hnull : (p.blocks b).isNull = true) : FreeInv (p.setRefCnt b n) pending := by
  obtain ⟨xs, hxs, hnodup, hmem⟩ := h
  refine ⟨xs, hxs, hnodup, fun c => (hmem c).trans ?_⟩
  by_cases hcb : c = b
  · subst hcb
    simp [IsFree, hnull]
  · simp [IsFree, hcb]

theorem FreeInv.getNumFreeBlocks_eq (h : FreeInv p []) :
    ∃ xs, p.freeBlockQueue.Represents xs ∧ p.getNumFreeBlocks = xs.length ∧ xs.Nodup ∧
      ∀ b, b ∈ xs ↔ p.IsFree b := by
  obtain ⟨xs, hxs, hnodup, hmem⟩ := h
  rw [append_nil] at hnodup
  simp only [append_nil] at hmem
  exact ⟨xs, hxs, hxs.size_eq, hnodup, hmem⟩

end

/-! ## Allocation -/

/-- `p'` is `p` with the blocks `bs` handed out: each was free and now has one
reference and, with caching, no key. -/
structure Allocated (p p' : BlockPool H) (bs : List Nat) : Prop where
  numGpuBlocks : p'.numGpuBlocks = p.numGpuBlocks
  enableCaching : p'.enableCaching = p.enableCaching
  hashBlockSize : p'.hashBlockSize = p.hashBlockSize
  isNull : ∀ b, (p'.blocks b).isNull = (p.blocks b).isNull
  nodup : bs.Nodup
  isFree : ∀ b ∈ bs, p.IsFree b
  refCnt : ∀ b, (p'.blocks b).refCnt = if b ∈ bs then 1 else (p.blocks b).refCnt
  blockKeys : ∀ b, p'.blockKeys b = if b ∈ bs ∧ p.enableCaching then [] else p.blockKeys b
  blockHash : ∀ b ∉ bs, (p'.blocks b).blockHash = (p.blocks b).blockHash
  blockHashNumTokens : ∀ b ∉ bs,
    (p'.blocks b).blockHashNumTokens = (p.blocks b).blockHashNumTokens
  hashInv : HashInv p → HashInv p'

omit [DecidableEq H] in
theorem SameHashes.blockKeys_eq (h : SameHashes p p') (b : Nat) :
    p'.blockKeys b = p.blockKeys b := by
  simp only [BlockPool.blockKeys, h.blockHash, h.byBlock]

theorem allocateOne_spec (h : FreeInv p (b :: pending)) :
    ∃ p', p.allocateOne b = some p' ∧ FreeInv p' pending ∧ Allocated p p' [b] := by
  obtain ⟨hlt, hnull, href⟩ := h.isFree_of_mem mem_cons_self
  set p₀ := if p.enableCaching then (p.removeCachedBlockHashes b).2 else p with hp₀
  have hsteps : HashSteps (fun _ _ => False) p p₀ := by
    rw [hp₀]
    split
    · exact .remove b (.refl p)
    · exact .refl p
  have hrefs := hsteps.sameRefs
  have hhashes := sameHashes_setRefCnt p₀ b 1
  have heq : p.allocateOne b = some (p₀.setRefCnt b 1) := by
    simp only [allocateOne, ← hp₀, hrefs.refCnt, href, if_true]
  refine ⟨_, heq, (h.of_sameRefs hrefs).setRefCnt_pending Nat.one_ne_zero, ?_⟩
  have hnumTokens : ∀ c ≠ b, (p₀.blocks c).blockHashNumTokens =
      (p.blocks c).blockHashNumTokens := by
    intro c hc
    rw [hp₀]
    split
    · exact blockHashNumTokens_removeCachedBlockHashes p hc
    · rfl
  refine ⟨hrefs.numGpuBlocks, hrefs.enableCaching, hrefs.hashBlockSize, fun c => ?_, by simp,
    fun c hc => ?_, fun c => ?_, fun c => ?_, fun c hc => ?_, fun c hc => ?_, fun hinv => ?_⟩
  · rw [setRefCnt_isNull, hrefs.isNull]
  · rw [mem_singleton.mp hc]
    exact ⟨hlt, hnull, href⟩
  · rw [setRefCnt_refCnt, hrefs.refCnt]
    simp
  · rw [hhashes.blockKeys_eq, hp₀]
    split
    · rename_i hcache
      rw [blockKeys_removeCachedBlockHashes]
      simp [hcache]
    · rename_i hcache
      simp [hcache]
  · rw [hhashes.blockHash, hp₀]
    split
    · rw [blockHash_removeCachedBlockHashes, if_neg (mem_singleton.not.mp hc)]
    · rfl
  · rw [hhashes.blockHashNumTokens]
    exact hnumTokens c (mem_singleton.not.mp hc)
  · exact (hsteps.hashInv hinv).of_sameHashes hhashes

omit [DecidableEq H] in
theorem Allocated.cons {p₁ p₂ : BlockPool H} (h : Allocated p p₁ [b])
    (h' : Allocated p₁ p₂ bs) : Allocated p p₂ (b :: bs) := by
  have hb : b ∉ bs := by
    intro hmem
    have href := (h'.isFree b hmem).2.2
    rw [h.refCnt] at href
    simp at href
  refine ⟨h'.numGpuBlocks.trans h.numGpuBlocks, h'.enableCaching.trans h.enableCaching,
    h'.hashBlockSize.trans h.hashBlockSize, fun c => (h'.isNull c).trans (h.isNull c),
    nodup_cons.mpr ⟨hb, h'.nodup⟩, fun c hc => ?_, fun c => ?_, fun c => ?_, fun c hc => ?_,
    fun c hc => ?_, fun hinv => h'.hashInv (h.hashInv hinv)⟩
  · rcases mem_cons.mp hc with rfl | hc
    · exact h.isFree c (mem_singleton.mpr rfl)
    · obtain ⟨h1, h2, h3⟩ := h'.isFree c hc
      have hcb : c ≠ b := fun heq => hb (heq ▸ hc)
      rw [h.refCnt, if_neg (mem_singleton.not.mpr hcb)] at h3
      exact ⟨h.numGpuBlocks ▸ h1, h.isNull c ▸ h2, h3⟩
  · rw [h'.refCnt, h.refCnt]
    by_cases hcs : c ∈ bs <;> simp [hcs]
  · rw [h'.blockKeys, h.blockKeys, h.enableCaching]
    cases p.enableCaching with
    | false => simp
    | true => by_cases hcs : c ∈ bs <;> simp [hcs]
  · rw [mem_cons, not_or] at hc
    exact (h'.blockHash c hc.2).trans (h.blockHash c (mem_singleton.not.mpr hc.1))
  · rw [mem_cons, not_or] at hc
    exact (h'.blockHashNumTokens c hc.2).trans
      (h.blockHashNumTokens c (mem_singleton.not.mpr hc.1))

theorem foldlM_allocateOne_spec (h : FreeInv p (bs ++ pending)) :
    ∃ p', bs.foldlM allocateOne p = some p' ∧ FreeInv p' pending ∧ Allocated p p' bs := by
  induction bs generalizing p with
  | nil =>
    exact ⟨p, rfl, h, rfl, rfl, rfl, fun _ => rfl, by simp, by simp, by simp, by simp,
      fun _ _ => rfl, fun _ _ => rfl, id⟩
  | cons b bs ih =>
    obtain ⟨p₁, hp₁, hfree₁, halloc₁⟩ := allocateOne_spec h
    obtain ⟨p₂, hp₂, hfree₂, halloc₂⟩ := ih hfree₁
    exact ⟨p₂, by rw [foldlM_cons, hp₁]; exact hp₂, hfree₂, halloc₁.cons halloc₂⟩

/-- With enough free blocks, `get_new_blocks` hands out that many. -/
theorem getNewBlocks_spec (h : FreeInv p []) (hn : n ≤ p.getNumFreeBlocks) :
    ∃ bs p', p.getNewBlocks n = some (bs, p') ∧ bs.length = n ∧ FreeInv p' [] ∧
      Allocated p p' bs := by
  obtain ⟨xs, hxs, hsize, hnodup, hmem⟩ := h.getNumFreeBlocks_eq
  have hlen : (xs.take n).length = n := by
    rw [length_take]
    omega
  have hxs' : p.freeBlockQueue.Represents (xs.take n ++ xs.drop n) := by
    rwa [take_append_drop]
  obtain ⟨q, hq, hrep⟩ := hxs'.popleftN
  rw [hlen] at hq
  set p₀ : BlockPool H := { p with freeBlockQueue := q } with hp₀
  have hperm : (xs.drop n ++ xs.take n).Perm xs := by
    refine perm_append_comm.trans ?_
    rw [take_append_drop]
  have hfree : FreeInv p₀ (xs.take n ++ []) := by
    rw [append_nil]
    exact ⟨xs.drop n, hrep, hperm.nodup_iff.mpr hnodup, fun b => hperm.mem_iff.trans (hmem b)⟩
  obtain ⟨p', hp', hfree', halloc⟩ := foldlM_allocateOne_spec hfree
  refine ⟨xs.take n, p', ?_, hlen, hfree', ?_⟩
  · rw [getNewBlocks, if_neg (Nat.not_lt.mpr hn), hq]
    simp only [Option.bind_some, ← hp₀, hp', Option.map_some]
  · exact ⟨halloc.numGpuBlocks, halloc.enableCaching, halloc.hashBlockSize, halloc.isNull,
      halloc.nodup, halloc.isFree, halloc.refCnt, halloc.blockKeys, halloc.blockHash,
      halloc.blockHashNumTokens, fun hinv => halloc.hashInv
        ⟨hinv.listed, hinv.secondary, hinv.null⟩⟩

theorem getNewBlocks_eq_some (h : FreeInv p []) (hp : p.getNewBlocks n = some (bs, p')) :
    n ≤ p.getNumFreeBlocks ∧ bs.length = n ∧ FreeInv p' [] ∧ Allocated p p' bs := by
  have hn : n ≤ p.getNumFreeBlocks := by
    by_contra hlt
    rw [getNewBlocks, if_pos (Nat.lt_of_not_le hlt)] at hp
    cases hp
  obtain ⟨bs', p'', hp', hlen, hfree, halloc⟩ := getNewBlocks_spec h hn
  cases hp.symm.trans hp'
  exact ⟨hn, hlen, hfree, halloc⟩

/-! ## Touching -/

/-- How many references to `b` a list of blocks stands for; the null block's
are not counted. -/
def refsIn (p : BlockPool H) (bs : List Nat) (b : Nat) : Nat :=
  if (p.blocks b).isNull then 0 else bs.count b

section

omit [DecidableEq H]

theorem SameHashes.refsIn_eq (h : SameHashes p p') (bs : List Nat) (b : Nat) :
    p'.refsIn bs b = p.refsIn bs b := by
  simp only [refsIn, h.isNull]

theorem refsIn_cons (p : BlockPool H) (a : Nat) (bs : List Nat) (b : Nat) :
    p.refsIn (a :: bs) b =
      p.refsIn bs b + if b = a ∧ (p.blocks a).isNull = false then 1 else 0 := by
  unfold refsIn
  by_cases hb : b = a
  · subst hb
    cases (p.blocks b).isNull <;> simp
  · have hba : ¬ a = b := fun h => hb h.symm
    simp [hb, hba]

theorem sameHashes_setQueue (p : BlockPool H) (q : LinkedQueue Nat) :
    SameHashes p { p with freeBlockQueue := q } :=
  ⟨rfl, rfl, rfl, fun _ => rfl, fun _ => rfl, fun _ => rfl, rfl, rfl⟩

theorem touchOne_spec (h : FreeInv p []) (hb : b < p.numGpuBlocks) :
    ∃ p', p.touchOne b = some p' ∧ FreeInv p' [] ∧ SameHashes p p' ∧
      ∀ c, (p'.blocks c).refCnt = (p.blocks c).refCnt + p.refsIn [b] c := by
  have hone : ∀ c, p.refsIn [b] c = if c = b ∧ (p.blocks b).isNull = false then 1 else 0 := by
    intro c
    rw [refsIn_cons]
    simp [refsIn]
  cases hnull : (p.blocks b).isNull with
  | true =>
    refine ⟨p, by simp [touchOne, hnull], h, .refl p, fun c => ?_⟩
    rw [hone]
    simp [hnull]
  | false =>
    by_cases href : (p.blocks b).refCnt = 0
    · obtain ⟨xs, hxs, -, -, hmem⟩ := h.getNumFreeBlocks_eq
      obtain ⟨ys, zs, rfl⟩ := append_of_mem ((hmem b).mpr ⟨hb, hnull, href⟩)
      obtain ⟨q, hq, hrep⟩ := hxs.remove
      have hperm : (ys ++ b :: zs).Perm ((ys ++ zs) ++ [b]) :=
        perm_middle.trans (perm_append_singleton b (ys ++ zs)).symm
      have hfree : FreeInv { p with freeBlockQueue := q } [b] :=
        ⟨ys ++ zs, hrep, hperm.nodup_iff.mp hxs.nodup,
          fun c => (hperm.mem_iff.symm).trans (hmem c)⟩
      refine ⟨_, by simp only [touchOne, hnull, href, hq]; rfl,
        hfree.setRefCnt_pending Nat.one_ne_zero,
        (sameHashes_setQueue p q).trans (sameHashes_setRefCnt _ b 1), fun c => ?_⟩
      rw [hone]
      by_cases hc : c = b
      · subst hc
        simp [hnull, href]
      · simp [hc]
    · refine ⟨_, by simp only [touchOne, hnull, href]; rfl,
        h.setRefCnt_pos href (Nat.succ_ne_zero _), sameHashes_setRefCnt p b _, fun c => ?_⟩
      rw [hone]
      by_cases hc : c = b
      · subst hc
        simp [hnull]
      · simp [hc]

/-- `touch` adds a reference for each occurrence of a block. -/
theorem touch_spec (h : FreeInv p []) (hbs : ∀ b ∈ bs, b < p.numGpuBlocks) :
    ∃ p', p.touch bs = some p' ∧ FreeInv p' [] ∧ SameHashes p p' ∧
      ∀ c, (p'.blocks c).refCnt = (p.blocks c).refCnt + p.refsIn bs c := by
  induction bs generalizing p with
  | nil => exact ⟨p, rfl, h, .refl p, fun c => by simp [refsIn]⟩
  | cons b bs ih =>
    obtain ⟨p₁, hp₁, hfree₁, hsame₁, href₁⟩ := touchOne_spec h (hbs b mem_cons_self)
    obtain ⟨p₂, hp₂, hfree₂, hsame₂, href₂⟩ := ih hfree₁ fun c hc => by
      rw [hsame₁.numGpuBlocks]
      exact hbs c (mem_cons_of_mem b hc)
    refine ⟨p₂, ?_, hfree₂, hsame₁.trans hsame₂, fun c => ?_⟩
    · rw [touch, foldlM_cons, hp₁]
      exact hp₂
    · rw [href₂, href₁, hsame₁.refsIn_eq, refsIn_cons p b bs, refsIn_cons p b []]
      simp only [refsIn, count_nil, ite_self]
      omega

/-! ## Freeing -/

/-- A reference that is taken off stands for one occurrence of the block. -/
theorem refCnt_add_refsIn_cons (hnull : (p.blocks b).isNull = false)
    (hpos : (p.blocks b).refCnt ≠ 0) (bs : List Nat) (c : Nat) :
    let p' := p.setRefCnt b ((p.blocks b).refCnt - 1)
    (p'.blocks c).refCnt + p.refsIn (b :: bs) c = (p.blocks c).refCnt + p'.refsIn bs c := by
  dsimp only
  rw [setRefCnt_refCnt, (sameHashes_setRefCnt p b _).refsIn_eq, refsIn_cons]
  by_cases hc : c = b
  · subst hc
    simp only [hnull, and_self, if_true]
    omega
  · simp [hc]

/-- A block that has lost its last reference is pending. -/
theorem FreeInv.setRefCnt_pred (h : FreeInv p pending) (hb : b < p.numGpuBlocks)
    (hnull : (p.blocks b).isNull = false) (hpos : (p.blocks b).refCnt ≠ 0) :
    let n := (p.blocks b).refCnt - 1
    FreeInv (p.setRefCnt b n) (if n = 0 then b :: pending else pending) := by
  dsimp only
  split
  · next hzero => exact hzero ▸ h.setRefCnt_zero hb hnull hpos
  · next hzero => exact h.setRefCnt_pos hpos hzero

/-- The loop of `free_blocks`: the blocks that lost their last reference are
pending. -/
theorem freeLoop_spec (h : FreeInv p pending)
    (hbs : ∀ b ∈ bs, b < p.numGpuBlocks) (hrefs : ∀ c, p.refsIn bs c ≤ (p.blocks c).refCnt) :
    FreeInv (freeLoop bs p).2.2 ((freeLoop bs p).1 ++ (freeLoop bs p).2.1 ++ pending) ∧
      SameHashes p (freeLoop bs p).2.2 ∧
      ∀ c, ((freeLoop bs p).2.2.blocks c).refCnt + p.refsIn bs c = (p.blocks c).refCnt := by
  induction bs generalizing p pending with
  | nil => exact ⟨h, .refl p, fun c => by simp [freeLoop, refsIn]⟩
  | cons b bs ih =>
    have hbs' : ∀ c ∈ bs, c < p.numGpuBlocks := fun c hc => hbs c (mem_cons_of_mem b hc)
    simp only [freeLoop]
    split
    · rename_i hnull
      have hcons : ∀ c, p.refsIn (b :: bs) c = p.refsIn bs c := fun c => by
        simp [refsIn_cons, hnull]
      simp only [hcons] at hrefs ⊢
      exact ih h hbs' hrefs
    rename_i hnull
    simp only [Bool.not_eq_true] at hnull
    have hpos : (p.blocks b).refCnt ≠ 0 := by
      have hb := hrefs b
      rw [refsIn_cons, if_pos ⟨rfl, hnull⟩] at hb
      omega
    have hmove := refCnt_add_refsIn_cons hnull hpos bs
    have hfree := h.setRefCnt_pred (hbs b mem_cons_self) hnull hpos
    have hsame := sameHashes_setRefCnt p b ((p.blocks b).refCnt - 1)
    generalize (p.blocks b).refCnt - 1 = n at hmove hfree hsame
    have hrefs' : ∀ c, (p.setRefCnt b n).refsIn bs c ≤ ((p.setRefCnt b n).blocks c).refCnt := by
      intro c
      have h1 := hrefs c
      have h2 := hmove c
      omega
    obtain ⟨hfree', hsame', hcount⟩ := ih hfree (by simpa using hbs') hrefs'
    have hcount' : ∀ c, ((freeLoop bs (p.setRefCnt b n)).2.2.blocks c).refCnt +
        p.refsIn (b :: bs) c = (p.blocks c).refCnt := by
      intro c
      have h1 := hcount c
      have h2 := hmove c
      omega
    by_cases hzero : n = 0
    · simp only [hzero, if_true] at hfree' hcount' hsame' hsame ⊢
      split
      · exact ⟨hfree'.perm perm_middle, hsame.trans hsame', hcount'⟩
      refine ⟨hfree'.perm ?_, hsame.trans hsame', hcount'⟩
      rw [append_assoc, append_assoc]
      exact perm_middle.append_left _
    · rw [if_neg hzero] at hfree'
      simp only [hzero, if_false]
      exact ⟨hfree', hsame.trans hsame', hcount'⟩

/-- Pending blocks put at the front or the back of the queue are not pending. -/
theorem FreeInv.prependN {front : List Nat} (h : FreeInv p (front ++ pending)) :
    ∃ q, p.freeBlockQueue.prependN front = some q ∧
      FreeInv { p with freeBlockQueue := q } pending := by
  obtain ⟨xs, hxs, hnodup, hmem⟩ := h
  have hperm : (xs ++ (front ++ pending)).Perm ((front ++ xs) ++ pending) := by
    rw [← append_assoc]
    exact perm_append_comm.append_right pending
  have hnodup' := hperm.nodup_iff.mp hnodup
  obtain ⟨q, hq, hrep⟩ := hxs.prependN (nodup_append.mp hnodup').1
  exact ⟨q, hq, front ++ xs, hrep, hnodup', fun b => (hperm.mem_iff.symm).trans (hmem b)⟩

theorem FreeInv.appendN {back : List Nat} (h : FreeInv p (back ++ pending)) :
    ∃ q, p.freeBlockQueue.appendN back = some q ∧
      FreeInv { p with freeBlockQueue := q } pending := by
  obtain ⟨xs, hxs, hnodup, hmem⟩ := h
  rw [← append_assoc] at hnodup
  simp only [← append_assoc] at hmem
  obtain ⟨q, hq, hrep⟩ := hxs.appendN (nodup_append.mp hnodup).1
  exact ⟨q, hq, xs ++ back, hrep, hnodup, hmem⟩

/-- `free_blocks` adds no reference, whatever the blocks are. -/
theorem refCnt_freeBlocks_le (hp : p.freeBlocks bs = some p') (c : Nat) :
    (p'.blocks c).refCnt ≤ (p.blocks c).refCnt := by
  have hloop : ((freeLoop bs p).2.2.blocks c).refCnt ≤ (p.blocks c).refCnt := by
    clear hp
    induction bs generalizing p with
    | nil => exact Nat.le_refl _
    | cons b bs ih =>
      have hle := Nat.le_trans (ih (p := p.setRefCnt b ((p.blocks b).refCnt - 1)))
        (show _ ≤ (p.blocks c).refCnt by grind [setRefCnt_refCnt])
      simp only [freeLoop]
      grind
  obtain ⟨q, -, hp⟩ := Option.bind_eq_some_iff.mp hp
  obtain ⟨q', -, rfl⟩ := Option.map_eq_some_iff.mp hp
  exact hloop

/-- `free_blocks` takes a reference off for each occurrence of a block. -/
theorem freeBlocks_spec (h : FreeInv p []) (hbs : ∀ b ∈ bs, b < p.numGpuBlocks)
    (hrefs : ∀ c, p.refsIn bs c ≤ (p.blocks c).refCnt) :
    ∃ p', p.freeBlocks bs = some p' ∧ FreeInv p' [] ∧ SameHashes p p' ∧
      ∀ c, (p'.blocks c).refCnt + p.refsIn bs c = (p.blocks c).refCnt := by
  obtain ⟨hfree, hsame, hcount⟩ := freeLoop_spec h hbs hrefs
  rw [append_assoc] at hfree
  obtain ⟨q, hq, hfree⟩ := hfree.prependN
  obtain ⟨q', hq', hfree⟩ := hfree.appendN
  refine ⟨{ (freeLoop bs p).2.2 with freeBlockQueue := q' }, ?_, hfree,
    hsame.trans (sameHashes_setQueue _ q'), hcount⟩
  simp only [freeBlocks, hq, Option.bind_some, hq', Option.map_some]

theorem unpinLoop_spec {released : List Nat} (h : FreeInv p pending)
    (hbs : ∀ b ∈ bs, b < p.numGpuBlocks) (hp : unpinLoop bs p = some (released, p')) :
    FreeInv p' (released ++ pending) ∧ SameHashes p p' ∧
      ∀ c, (p'.blocks c).refCnt + p.refsIn bs c = (p.blocks c).refCnt := by
  induction bs generalizing p pending released with
  | nil =>
    obtain ⟨rfl, rfl⟩ := Prod.mk.inj (Option.some.inj hp)
    exact ⟨h, .refl p, fun c => by simp [refsIn]⟩
  | cons b bs ih =>
    have hbs' : ∀ c ∈ bs, c < p.numGpuBlocks := fun c hc => hbs c (mem_cons_of_mem b hc)
    simp only [unpinLoop] at hp
    split at hp
    · cases hp
    rename_i hok
    simp only [not_or, Bool.not_eq_true] at hok
    obtain ⟨hpos, hnull⟩ := hok
    obtain ⟨⟨released', p₁⟩, hloop, heq⟩ := Option.map_eq_some_iff.mp hp
    obtain ⟨rfl, rfl⟩ := Prod.mk.inj heq
    have hmove := refCnt_add_refsIn_cons hnull hpos bs
    have hfree := h.setRefCnt_pred (hbs b mem_cons_self) hnull hpos
    have hsame := sameHashes_setRefCnt p b ((p.blocks b).refCnt - 1)
    obtain ⟨hfree', hsame', hcount⟩ := ih hfree (by simpa using hbs') hloop
    refine ⟨?_, hsame.trans hsame', fun c => ?_⟩
    · split at hfree'
      · next hzero => simpa [hzero] using hfree'.perm perm_middle
      · next hzero => simpa [hzero] using hfree'
    · have h1 := hcount c
      have h2 := hmove c
      omega

/-- `unpin_blocks` checks that there are references to take off. -/
theorem unpinBlocks_spec (h : FreeInv p []) (hbs : ∀ b ∈ bs, b < p.numGpuBlocks)
    (hp : p.unpinBlocks bs = some p') :
    FreeInv p' [] ∧ SameHashes p p' ∧
      ∀ c, (p'.blocks c).refCnt + p.refsIn bs c = (p.blocks c).refCnt := by
  obtain ⟨⟨released, p₁⟩, hloop, hp⟩ := Option.bind_eq_some_iff.mp hp
  obtain ⟨q, hq, rfl⟩ := Option.map_eq_some_iff.mp hp
  obtain ⟨hfree, hsame, hcount⟩ := unpinLoop_spec h hbs hloop
  obtain ⟨q', hq', hfree'⟩ := hfree.appendN
  cases hq.symm.trans hq'
  exact ⟨hfree', hsame.trans (sameHashes_setQueue _ q), hcount⟩

end

end BlockPool

end Vllm.Pool
