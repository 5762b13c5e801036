import Vllm.KVCache.References

/-!
# Exact reference counts

A run of the KV cache manager by a scheduler that keeps the blocks of deferred frees
and the ends of the copies in flight (`System`). After every run the pool counts for
each block exactly its occurrences in the tables of all managers, in the deferred
lists and as ends of copies (`run_refCnt_eq`). So nothing leaks: once the owners are
gone, every block is free.
-/

namespace Vllm.KVCache

open Library Pool Pool.BlockPool List

variable {R H : Type} [DecidableEq R] [DecidableEq H] {extra' bs : List Nat}

/-! ## The references of all managers -/

/-- The references that a manager holds for the requests in `rs` and for copies. -/
def Manager.allRefs (m : Manager R H) (rs : Finset R) (b : Nat) : Nat :=
  ∑ r ∈ rs, (m.reqToBlocks r).count b + m.copyEnds.count b

namespace KVCacheManager

/-- The references of the managers of all groups. -/
def refs (cfg : Config) (s : KVCacheManager R H) (rs : Finset R) (b : Nat) : Nat :=
  ∑ i ∈ Finset.range cfg.groups.length, (s.managers i).allRefs rs b

/-- The references of all but request `r` in group `i`. -/
def otherRefs (cfg : Config) (s : KVCacheManager R H) (rs : Finset R) (i : Nat) (r : R)
    (b : Nat) : Nat :=
  ∑ r' ∈ rs.erase r, ((s.managers i).reqToBlocks r').count b +
    ∑ j ∈ (Finset.range cfg.groups.length).erase i, (s.managers j).allRefs rs b

variable {cfg : Config} {s s' : KVCacheManager R H} {rs : Finset R} {size i : Nat} {r : R}
  {extra : List Nat} {v : View R H} {req : Request R H} {a : AllocArgs}
  {res : Option (List (List Nat)) × KVCacheManager R H}

section

omit [DecidableEq H]

theorem refs_eq_add_otherRefs (hi : i < cfg.groups.length) (hr : r ∈ rs) (b : Nat) :
    s.refs cfg rs b = (s.managers i).refs r b + s.otherRefs cfg rs i r b := by
  rw [refs, ← Finset.add_sum_erase _ _ (Finset.mem_range.mpr hi), Manager.allRefs,
    ← Finset.add_sum_erase rs _ hr, Manager.refs, otherRefs]
  omega

/-- A method changes the references of its request and the copies of its group only. -/
theorem otherRefs_setView
    (hothers : ∀ r' ≠ r, v.mgr.reqToBlocks r' = (s.managers i).reqToBlocks r') (b : Nat) :
    (s.setView i v).otherRefs cfg rs i r b = s.otherRefs cfg rs i r b := by
  unfold otherRefs
  congr 1
  · refine Finset.sum_congr rfl fun r' hr' => ?_
    rw [setView_self, hothers r' (Finset.ne_of_mem_erase hr')]
  · refine Finset.sum_congr rfl fun j hj => ?_
    rw [setView_of_ne s (Finset.ne_of_mem_erase hj)]

end

/-- The pool counts the references of the managers and of `extra`; requests outside of
`rs` have no blocks. -/
structure Exact (cfg : Config) (rs : Finset R) (size : Nat) (extra : List Nat)
    (s : KVCacheManager R H) : Prop where
  counts : Counts s.pool size fun b => s.refs cfg rs b + extra.count b
  support : ∀ i, ∀ r ∉ rs, (s.managers i).reqToBlocks r = []

namespace Exact

section

omit [DecidableEq R] [DecidableEq H]

theorem congr_extra (h : Exact cfg rs size extra s)
    (hcount : ∀ b, extra'.count b = extra.count b) : Exact cfg rs size extra' s :=
  ⟨h.counts.congr fun b _ => by rw [hcount], h.support⟩

/-- Requests without blocks add nothing. -/
theorem mono {rs' : Finset R} (h : Exact cfg rs size extra s) (hsub : rs ⊆ rs') :
    Exact cfg rs' size extra s := by
  refine ⟨h.counts.congr fun b _ => ?_, fun i r hr => h.support i r fun hin => hr (hsub hin)⟩
  have hrefs : ∀ i, (s.managers i).allRefs rs b = (s.managers i).allRefs rs' b := by
    intro i
    rw [Manager.allRefs, Manager.allRefs, Finset.sum_subset hsub fun r _ hr => ?_]
    rw [h.support i r hr, count_nil]
  rw [refs, refs, Finset.sum_congr rfl fun i _ => hrefs i]

end

section

omit [DecidableEq H]

/-- Exact counts, seen by the manager of one group. -/
theorem balanced (h : Exact cfg rs size extra s) (hi : i < cfg.groups.length) (hr : r ∈ rs) :
    Balanced r (s.managers i).reqToBlocks (fun b => s.otherRefs cfg rs i r b + extra.count b)
      size [] (s.view i) := by
  refine ⟨h.counts.congr fun b _ => ?_, fun _ _ => rfl⟩
  rw [refs_eq_add_otherRefs hi hr, count_nil, view_mgr]
  omega

/-- A method of one manager that keeps its references balanced keeps the counts exact. -/
theorem setView {hand : List Nat} (h : Exact cfg rs size extra s)
    (hi : i < cfg.groups.length) (hr : r ∈ rs)
    (hstep : ∀ out, Balanced r (s.managers i).reqToBlocks out size [] (s.view i) →
      Balanced r (s.managers i).reqToBlocks out size hand v) :
    Exact cfg rs size (hand ++ extra) (s.setView i v) := by
  obtain ⟨hcounts, hothers⟩ := hstep _ (h.balanced hi hr)
  refine ⟨hcounts.congr fun b _ => ?_, fun j r' hr' => ?_⟩
  · rw [refs_eq_add_otherRefs hi hr, otherRefs_setView hothers, count_append]
    rw [setView_self]
    omega
  have hne : r' ≠ r := fun heq => hr' (heq ▸ hr)
  by_cases hj : j = i
  · subst hj
    rw [setView_self, hothers r' hne]
    exact h.support j r' hr'
  · rw [setView_of_ne s hj]
    exact h.support j r' hr'

end

end Exact

omit [DecidableEq R] [DecidableEq H] in
/-- A loop that collects is a loop. -/
theorem forManagers_of_collect {α : Type} {f : Group → Nat → View R H → Except Fault (α × View R H)}
    {res : List α × KVCacheManager R H} (h : s.forManagersCollect cfg f = .ok res) :
    s.forManagers cfg (fun g i v => (f g i v).map Prod.snd) = .ok res.2 := by
  unfold forManagersCollect at h
  unfold forManagers
  generalize hacc : (([] : List α), s) = acc at h
  obtain rfl : acc.2 = s := hacc ▸ rfl
  clear hacc
  generalize cfg.groups.zipIdx = groups at h ⊢
  induction groups generalizing acc with
  | nil =>
    cases h
    rfl
  | cons gi groups ih =>
    obtain ⟨acc₁, hacc₁, h⟩ := bind_eq_ok.mp h
    obtain ⟨out, hout, rfl⟩ := map_eq_ok.mp hacc₁
    refine bind_eq_ok.mpr ⟨acc.2.setView gi.2 out.2, ?_, ih _ h⟩
    exact map_eq_ok.mpr ⟨out.2, map_eq_ok.mpr ⟨out, hout, rfl⟩, rfl⟩

/-- A call for request `r` keeps the counts exact and leaves the tables of the other
requests alone. -/
structure Keeps (cfg : Config) (rs : Finset R) (size : Nat) (r : R) (s s' : KVCacheManager R H) :
    Prop where
  exact {extra : List Nat} : Exact cfg rs size extra s → Exact cfg rs size extra s'
  others {extra : List Nat} : Exact cfg rs size extra s → ∀ r' ≠ r, ∀ i,
    (s'.managers i).reqToBlocks r' = (s.managers i).reqToBlocks r'

namespace Keeps

variable {s'' : KVCacheManager R H} {blocks : Nat → List Nat} {numEncoderTokens n : Nat}
  {new : List (List Nat) × KVCacheManager R H}

section

omit [DecidableEq R] [DecidableEq H]

theorem refl (s : KVCacheManager R H) : Keeps cfg rs size r s s :=
  ⟨id, fun _ _ _ _ => rfl⟩

theorem trans (h : Keeps cfg rs size r s s') (h' : Keeps cfg rs size r s' s'') :
    Keeps cfg rs size r s s'' :=
  ⟨fun hs => h'.exact (h.exact hs),
    fun hs r' hr' i => (h'.others (h.exact hs) r' hr' i).trans (h.others hs r' hr' i)⟩

end

section

omit [DecidableEq H]

/-- A method of one manager. -/
theorem setView (hi : i < cfg.groups.length) (hr : r ∈ rs)
    (hstep : ∀ out, Balanced r (s.managers i).reqToBlocks out size [] (s.view i) →
      Balanced r (s.managers i).reqToBlocks out size [] v) :
    Keeps cfg rs size r s (s.setView i v) := by
  refine ⟨fun hs => hs.setView hi hr hstep, fun hs r' hr' j => ?_⟩
  by_cases hj : j = i
  · subst hj
    rw [setView_self, (hstep _ (hs.balanced hi hr)).others r' hr']
  · rw [setView_of_ne s hj]

/-- The loop over the managers. -/
theorem forManagers {f : Group → Nat → View R H → Except Fault (View R H)} (hr : r ∈ rs)
    (hstep : ∀ g i v v' tables out, f g i v = .ok v' → Balanced r tables out size [] v →
      Balanced r tables out size [] v')
    (hfor : s.forManagers cfg f = .ok s') : Keeps cfg rs size r s s' := by
  refine foldlM_ok_induct (P := Keeps cfg rs size r s) (fun gi hgi s₁ s₂ hs₁ hs₂ => ?_)
    (.refl s) hfor
  obtain ⟨v, hv, rfl⟩ := map_eq_ok.mp hs₂
  have hi : gi.2 < cfg.groups.length := (mem_zipIdx' hgi).1
  exact hs₁.trans (setView hi hr fun out => hstep _ _ _ _ _ out hv)

theorem forManagersCollect {α : Type} {f : Group → Nat → View R H → Except Fault (α × View R H)}
    {res : List α × KVCacheManager R H} (hr : r ∈ rs)
    (hstep : ∀ g i v res tables out, f g i v = .ok res → Balanced r tables out size [] v →
      Balanced r tables out size [] res.2)
    (hfor : s.forManagersCollect cfg f = .ok res) : Keeps cfg rs size r s res.2 := by
  refine forManagers hr (fun g i v v' tables out hv' => ?_) (forManagers_of_collect hfor)
  obtain ⟨res, hres, rfl⟩ := map_eq_ok.mp hv'
  exact hstep g i v res tables out hres

end

/-! ## The methods of the coordinator -/

theorem getNumBlocksToAllocate {a : SlotArgs} {res : Int × KVCacheManager R H} (hr : r ∈ rs)
    (hget : s.getNumBlocksToAllocate cfg r blocks numEncoderTokens a = .ok res) :
    Keeps cfg rs size r s res.2 := by
  obtain ⟨collected, hcollected, rfl⟩ := map_eq_ok.mp hget
  refine forManagersCollect hr (fun g i v res tables out hres hv => ?_) hcollected
  split at hres
  · exact hv.getNumBlocksToAllocate hres
  · exact hv.getNumBlocksToAllocate hres

theorem allocateNewComputedBlocks {numLocal numExternal : Nat}
    (hr : r ∈ rs) (hblocks : ∀ i, ∀ b ∈ blocks i, b < size)
    (halloc : s.allocateNewComputedBlocks cfg r blocks numLocal numExternal = .ok s') :
    Keeps cfg rs size r s s' := by
  unfold KVCacheManager.allocateNewComputedBlocks at halloc
  dsimp only at halloc
  split at halloc
  · split at halloc
    · cases halloc
      exact .refl s
    · cases halloc
  · obtain ⟨s₁, hlocal, halloc⟩ := bind_eq_ok.mp halloc
    have h₁ : Keeps cfg rs size r s s₁ := forManagers hr (fun g i v v' tables out hv' hv =>
      hv.addLocalComputedBlocks (hblocks i) hv') hlocal
    split at halloc
    · exact h₁.trans (forManagers hr (fun g i v v' tables out hv' hv =>
        hv.allocateExternalComputedBlocks hv') halloc)
    · cases halloc
      exact h₁

theorem allocateNewBlocks {numTokens numTokensMainModel : Nat} (hr : r ∈ rs)
    (halloc : s.allocateNewBlocks cfg r numTokens numTokensMainModel numEncoderTokens = .ok new) :
    Keeps cfg rs size r s new.2 :=
  forManagersCollect hr (fun _ _ _ _ _ _ hres hv => hv.allocateNewBlocks hres) halloc

theorem cacheBlocks (hr : req.requestId ∈ rs)
    (hcache : s.cacheBlocks cfg req n = .ok s') : Keeps cfg rs size req.requestId s s' := by
  unfold KVCacheManager.cacheBlocks at hcache
  split at hcache
  · cases hcache
    exact .refl s
  · exact forManagers hr (fun _ _ _ _ _ _ hv' hv => hv.cacheBlocks hv') hcache

section

omit [DecidableEq H]

theorem removeSkippedBlocks (hr : r ∈ rs)
    (hremove : s.removeSkippedBlocks cfg r n = .ok s') : Keeps cfg rs size r s s' :=
  forManagers hr (fun _ _ _ _ _ _ hv' hv => hv.removeSkippedBlocks hv') hremove

theorem free (hr : r ∈ rs) (hfree : s.free cfg r = .ok s') : Keeps cfg rs size r s s' :=
  forManagers hr (fun _ _ _ _ _ _ hv' hv => hv.freeRequest hv') hfree

end

theorem commitSlots (hr : req.requestId ∈ rs) (hblocks : ∀ i, ∀ b ∈ a.newComputedBlocks i, b < size)
    (hcommit : s.commitSlots cfg req a = .ok new) : Keeps cfg rs size req.requestId s new.2 := by
  obtain ⟨s₁, hcomputed, hnew⟩ := bind_eq_ok.mp hcommit
  have h₁ : Keeps cfg rs size req.requestId s s₁ := by
    split at hcomputed
    · exact allocateNewComputedBlocks hr hblocks hcomputed
    · cases hcomputed
      exact .refl s
  exact h₁.trans (allocateNewBlocks hr hnew)

end Keeps

/-- What a call of `allocate_slots` does: nothing, if the whole sequence does not fit;
or it frees what left the window and counts; and then, if there are enough free blocks,
it takes blocks and may hash them. -/
theorem allocateSlots_cases (halloc : s.allocateSlots cfg req a = .ok res) :
    (res = (none, s) ∧ a.fullSequenceMustFit = true) ∨ ∃ s₁ needed,
      s.removeSkippedBlocks cfg req.requestId
        (a.totalComputedTokens cfg req - req.numInFlightTokens) = .ok s₁ ∧
      s₁.getNumBlocksToAllocate cfg req.requestId a.newComputedBlocks a.numEncoderTokens
        (a.slotArgs cfg req) = .ok needed ∧
      ((res = (none, needed.2) ∧ needed.2.pool.getNumFreeBlocks - a.reservedBlocks <
          needed.1 + (a.watermarkBlocks cfg req : Int)) ∨
        needed.1 + (a.watermarkBlocks cfg req : Int) ≤
          needed.2.pool.getNumFreeBlocks - a.reservedBlocks ∧
        ∃ new, needed.2.commitSlots cfg req a = .ok new ∧ res.1 = some new.1 ∧
          (res.2 = new.2 ∨ new.2.cacheBlocks cfg req
            (min (a.totalComputedTokens cfg req + a.numNewTokens) req.numTokens) = .ok res.2)) := by
  unfold KVCacheManager.allocateSlots at halloc
  split at halloc
  · cases halloc
  obtain ⟨fits, hfits, halloc⟩ := bind_eq_ok.mp halloc
  split at halloc
  · rename_i hnot
    refine .inl ⟨(Except.ok.inj halloc).symm, ?_⟩
    by_contra hmust
    rw [fullSequenceFits, if_pos (by simpa using hmust)] at hfits
    cases hfits
    cases hnot
  obtain ⟨s₁, hskipped, halloc⟩ := bind_eq_ok.mp halloc
  obtain ⟨needed, hneeded, halloc⟩ := bind_eq_ok.mp halloc
  refine .inr ⟨s₁, needed, hskipped, hneeded, ?_⟩
  dsimp only at halloc
  split at halloc
  · rename_i hfew
    exact .inl ⟨(Except.ok.inj halloc).symm, hfew⟩
  rename_i havailable
  obtain ⟨new, hcommit, halloc⟩ := bind_eq_ok.mp halloc
  refine .inr ⟨not_lt.mp havailable, new, hcommit, ?_⟩
  split at halloc
  · cases halloc
    exact ⟨rfl, .inl rfl⟩
  · obtain ⟨s₂, hcache, rfl⟩ := map_eq_ok.mp halloc
    exact ⟨rfl, .inr hcache⟩

theorem Keeps.allocateSlots (hr : req.requestId ∈ rs)
    (hblocks : ∀ i, ∀ b ∈ a.newComputedBlocks i, b < size)
    (halloc : s.allocateSlots cfg req a = .ok res) : Keeps cfg rs size req.requestId s res.2 := by
  obtain ⟨rfl, -⟩ | ⟨s₁, needed, hskipped, hneeded, hrest⟩ := allocateSlots_cases halloc
  · exact .refl s
  have hcounted : Keeps cfg rs size req.requestId s needed.2 :=
    (removeSkippedBlocks hr hskipped).trans (getNumBlocksToAllocate hr hneeded)
  obtain ⟨rfl, -⟩ | ⟨-, new, hcommit, -, hcache⟩ := hrest
  · exact hcounted
  have hcommitted := hcounted.trans (commitSlots hr hblocks hcommit)
  obtain heq | hcache := hcache
  · rw [heq]
    exact hcommitted
  · exact hcommitted.trans (cacheBlocks hr hcache)

namespace Exact

omit [DecidableEq H] in
/-- The popped blocks of all managers are the caller's. -/
theorem popBlocksForFree (h : Exact cfg rs size extra s) (hr : r ∈ rs) :
    Exact cfg rs size ((s.popBlocksForFree cfg r).1 ++ extra) (s.popBlocksForFree cfg r).2 := by
  refine List.foldlRecOn (motive := fun acc : List Nat × KVCacheManager R H =>
    Exact cfg rs size (acc.1 ++ extra) acc.2) _ _ h fun acc hacc gi hgi => ?_
  have hi : gi.2 < cfg.groups.length := (mem_zipIdx' hgi).1
  have hset := hacc.setView hi hr fun out hv => hv.popBlocksForFree (g := gi.1)
  refine hset.congr_extra fun b => ?_
  simp only [count_append, count_nil]
  omega

section

omit [DecidableEq R] [DecidableEq H]

/-- Blocks that the caller has are freed. -/
theorem freeBlocks {p : BlockPool H} (h : Exact cfg rs size (bs ++ extra) s)
    (hfree : s.pool.freeBlocks bs = some p) : Exact cfg rs size extra { s with pool := p } := by
  have hgive : ∀ b ≠ 0, s.refs cfg rs b + (bs ++ extra).count b =
      (s.refs cfg rs b + extra.count b) + bs.count b := by
    intro b _
    rw [count_append]
    omega
  obtain ⟨p', hp', hcounts⟩ := h.counts.freeBlocks hgive
  cases hp'.symm.trans hfree
  exact ⟨hcounts, h.support⟩

/-- Steps that change no references: other bookkeeping, or hashes. -/
theorem of_sameRefs (h : Exact cfg rs size extra s) (hinv : Inv s'.pool)
    (hpool : SameRefs s.pool s'.pool)
    (htables : ∀ i, (s'.managers i).reqToBlocks = (s.managers i).reqToBlocks)
    (hcopies : ∀ i, (s'.managers i).pendingCowCopies = (s.managers i).pendingCowCopies) :
    Exact cfg rs size extra s' := by
  refine ⟨(h.counts.of_sameRefs hinv hpool).congr fun b _ => ?_, fun i => htables i ▸ h.support i⟩
  simp only [refs, Manager.allRefs, Manager.copyEnds, htables, hcopies]

theorem count_copyEnds (s : KVCacheManager R H) (n b : Nat) :
    (((List.range n).flatMap fun i => (s.managers i).pendingCowCopies).flatMap
      fun c => [c.1, c.2]).count b = ∑ i ∈ Finset.range n, (s.managers i).copyEnds.count b := by
  induction n with
  | zero => rfl
  | succ n ih =>
    rw [range_succ, flatMap_append, flatMap_append, count_append, ih,
      Finset.sum_range_succ, flatMap_singleton]
    rfl

/-- The ends of the copies are the caller's. -/
theorem takeKVCacheBlockCopies (h : Exact cfg rs size extra s) :
    Exact cfg rs size (((s.takeKVCacheBlockCopies cfg).1.flatMap fun c => [c.1, c.2]) ++ extra)
      (s.takeKVCacheBlockCopies cfg).2 := by
  have htables : ∀ i, ((s.takeKVCacheBlockCopies cfg).2.managers i).reqToBlocks =
      (s.managers i).reqToBlocks := by
    intro i
    simp only [KVCacheManager.takeKVCacheBlockCopies]
    split <;> rfl
  refine ⟨h.counts.congr fun b _ => ?_, fun i => htables i ▸ h.support i⟩
  have hgroup : ∀ i ∈ Finset.range cfg.groups.length,
      (s.managers i).allRefs rs b =
        ((s.takeKVCacheBlockCopies cfg).2.managers i).allRefs rs b +
          (s.managers i).copyEnds.count b := by
    intro i hi
    have hempty : ((s.takeKVCacheBlockCopies cfg).2.managers i).copyEnds = [] := by
      simp only [KVCacheManager.takeKVCacheBlockCopies, if_pos (Finset.mem_range.mp hi)]
      rfl
    rw [Manager.allRefs, Manager.allRefs, htables, hempty, count_nil, Nat.add_zero]
  have hcopies := count_copyEnds s cfg.groups.length b
  have hrefs : s.refs cfg rs b = (s.takeKVCacheBlockCopies cfg).2.refs cfg rs b +
      ((s.takeKVCacheBlockCopies cfg).1.flatMap fun c => [c.1, c.2]).count b := by
    rw [refs, Finset.sum_congr rfl hgroup, Finset.sum_add_distrib, ← hcopies]
    rfl
  rw [count_append]
  omega

end

end Exact

end KVCacheManager

/-! ## Runs -/

/-- The manager, with what the scheduler keeps of its results: the blocks of deferred
frees, and the ends of the copies that have not run. -/
structure System (R H : Type) where
  manager : KVCacheManager R H
  popped : List (List Nat)
  retained : List (List Nat)

/-- A call of the scheduler. The deferred lists are freed in any order. -/
inductive SystemOp (R H : Type) where
  | allocateSlots (req : Request R H) (args : KVCacheManager.AllocArgs)
  | cacheBlocks (req : Request R H) (numComputedTokens : Nat)
  | removeSkippedBlocks (r : R) (processedComputedTokens : Nat)
  | free (r : R)
  | popBlocksForFree (r : R)
  | freePopped (k : Nat)
  | takeKVCacheBlockCopies
  | releaseRetained (k : Nat)
  | evictBlocks (blockIds : List Nat)
  | resetPrefixCache
  | newStepStarts

namespace SystemOp

/-- The request that a call is about. -/
def request : SystemOp R H → Option R
  | .allocateSlots req _ | .cacheBlocks req _ => some req.requestId
  | .removeSkippedBlocks r _ | .free r | .popBlocksForFree r => some r
  | _ => none

/-- The blocks of a hit are blocks of the pool. -/
def HitsWithin (numGpuBlocks : Nat) : SystemOp R H → Prop
  | .allocateSlots _ args => ∀ i, ∀ b ∈ args.newComputedBlocks i, b < numGpuBlocks
  | _ => True

end SystemOp

namespace System

variable (cfg : Config)

def init (pool : BlockPool H) : System R H := ⟨.init pool, [], []⟩

/-- Free the `k`-th of some lists of blocks. -/
def freeList (s : KVCacheManager R H) (lists : List (List Nat)) (k : Nat) :
    Except Fault (KVCacheManager R H) :=
  match lists[k]? with
  | none => .error .failed
  | some bs => (orFail (s.pool.freeBlocks bs)).map fun p => { s with pool := p }

/-- The state after a call. Popped blocks are kept in reverse, the order in which they
are freed. -/
def step (s : System R H) : SystemOp R H → Except Fault (System R H)
  | .allocateSlots req args =>
    (s.manager.allocateSlots cfg req args).map fun res => { s with manager := res.2 }
  | .cacheBlocks req n => (s.manager.cacheBlocks cfg req n).map fun m => { s with manager := m }
  | .removeSkippedBlocks r n =>
    (s.manager.removeSkippedBlocks cfg r n).map fun m => { s with manager := m }
  | .free r => (s.manager.free cfg r).map fun m => { s with manager := m }
  | .popBlocksForFree r =>
    let popped := s.manager.popBlocksForFree cfg r
    .ok { s with manager := popped.2, popped := s.popped ++ [popped.1.reverse] }
  | .freePopped k =>
    (freeList s.manager s.popped k).map fun m =>
      { s with manager := m, popped := s.popped.eraseIdx k }
  | .takeKVCacheBlockCopies =>
    let taken := s.manager.takeKVCacheBlockCopies cfg
    .ok { s with
      manager := taken.2
      retained := s.retained ++ [taken.1.flatMap fun c => [c.1, c.2]] }
  | .releaseRetained k =>
    (freeList s.manager s.retained k).map fun m =>
      { s with manager := m, retained := s.retained.eraseIdx k }
  | .evictBlocks ids =>
    (orFail (s.manager.pool.evictBlocks ids)).map fun p =>
      { s with manager := { s.manager with pool := p } }
  | .resetPrefixCache =>
    .ok { s with manager := { s.manager with pool := s.manager.pool.resetPrefixCache.2 } }
  | .newStepStarts => .ok { s with manager := s.manager.newStepStarts cfg }

/-- Calls one after another. -/
def run (s : System R H) (ops : List (SystemOp R H)) : Except Fault (System R H) :=
  ops.foldlM (step cfg) s

/-- The occurrences of block `b` in the tables of all managers, in the deferred lists and
as ends of copies that are pending or not released. -/
def occurrences (s : System R H) (rs : Finset R) (b : Nat) : Nat :=
  s.manager.refs cfg rs b + s.popped.flatten.count b + s.retained.flatten.count b

/-- Block `b` is in a table, a list that is still to be freed or a copy. -/
def InUse (s : System R H) (b : Nat) : Prop :=
  (∃ i < cfg.groups.length, (∃ r, b ∈ (s.manager.managers i).reqToBlocks r) ∨
    b ∈ (s.manager.managers i).copyEnds) ∨ b ∈ s.popped.flatten ∨ b ∈ s.retained.flatten

/-- All requests are freed and all copies are released. -/
def Released (s : System R H) : Prop :=
  (∀ i < cfg.groups.length, (∀ r, (s.manager.managers i).reqToBlocks r = []) ∧
    (s.manager.managers i).pendingCowCopies = []) ∧ s.popped = [] ∧ s.retained = []

/-- The counts are exact with what the scheduler keeps. -/
def Exact (rs : Finset R) (size : Nat) (s : System R H) : Prop :=
  s.manager.Exact cfg rs size (s.popped.flatten ++ s.retained.flatten)

variable {cfg} {rs : Finset R} {size : Nat} {s s' : System R H} {lists : List (List Nat)}
  {k b : Nat} {m m' : KVCacheManager R H}

theorem count_eraseIdx_flatten (hk : lists[k]? = some bs) (b : Nat) :
    lists.flatten.count b = bs.count b + (lists.eraseIdx k).flatten.count b := by
  induction lists generalizing k with
  | nil => cases hk
  | cons l lists ih =>
    cases k with
    | zero =>
      cases hk
      exact count_append
    | succ k =>
      have hrest := ih (by simpa using hk)
      simp only [eraseIdx_cons_succ, flatten_cons, count_append]
      omega

section

omit [DecidableEq R] [DecidableEq H]

theorem freeList_managers (hfree : freeList m lists k = .ok m') : m'.managers = m.managers := by
  unfold freeList at hfree
  split at hfree
  · cases hfree
  · obtain ⟨p, -, rfl⟩ := map_eq_ok.mp hfree
    rfl

/-- One of the lists that the scheduler keeps is freed. -/
theorem freeList_exact {extra : List Nat} (h : m.Exact cfg rs size extra)
    (hextra : ∀ b bs, lists[k]? = some bs → extra.count b = bs.count b + extra'.count b)
    (hfree : freeList m lists k = .ok m') : m'.Exact cfg rs size extra' := by
  unfold freeList at hfree
  split at hfree
  · cases hfree
  rename_i bs hbs
  obtain ⟨p, hp, rfl⟩ := map_eq_ok.mp hfree
  refine KVCacheManager.Exact.freeBlocks (h.congr_extra fun b => ?_) (orFail_eq_ok.mp hp)
  rw [count_append, hextra b bs hbs]

end

/-- Every call of the scheduler keeps the counts exact. -/
theorem step_exact {op : SystemOp R H} (h : s.Exact cfg rs size)
    (hr : ∀ r ∈ op.request, r ∈ rs) (hhits : op.HitsWithin size)
    (hstep : s.step cfg op = .ok s') : s'.Exact cfg rs size := by
  cases op with
  | allocateSlots req args =>
    obtain ⟨res, hres, rfl⟩ := map_eq_ok.mp hstep
    exact (KVCacheManager.Keeps.allocateSlots (hr _ rfl) hhits hres).exact h
  | cacheBlocks req n =>
    obtain ⟨m, hm, rfl⟩ := map_eq_ok.mp hstep
    exact (KVCacheManager.Keeps.cacheBlocks (hr _ rfl) hm).exact h
  | removeSkippedBlocks r n =>
    obtain ⟨m, hm, rfl⟩ := map_eq_ok.mp hstep
    exact (KVCacheManager.Keeps.removeSkippedBlocks (hr _ rfl) hm).exact h
  | free r =>
    obtain ⟨m, hm, rfl⟩ := map_eq_ok.mp hstep
    exact (KVCacheManager.Keeps.free (hr _ rfl) hm).exact h
  | popBlocksForFree r =>
    cases hstep
    refine (h.popBlocksForFree (hr _ rfl)).congr_extra fun b => ?_
    simp only [flatten_append, flatten_singleton, count_append, count_reverse]
    omega
  | freePopped k | releaseRetained k =>
    obtain ⟨m, hm, rfl⟩ := map_eq_ok.mp hstep
    refine freeList_exact h (fun b bs hbs => ?_) hm
    have hcount := count_eraseIdx_flatten hbs b
    simp only [count_append]
    omega
  | takeKVCacheBlockCopies =>
    cases hstep
    refine h.takeKVCacheBlockCopies.congr_extra fun b => ?_
    simp only [flatten_append, flatten_singleton, count_append]
    omega
  | evictBlocks ids =>
    obtain ⟨p, hp, rfl⟩ := map_eq_ok.mp hstep
    have hsteps := evictBlocks_steps (orFail_eq_ok.mp hp)
    exact h.of_sameRefs (h.counts.inv.of_hashSteps hsteps) hsteps.sameRefs (fun _ => rfl)
      fun _ => rfl
  | resetPrefixCache =>
    cases hstep
    have hinv : Inv s.manager.pool.resetPrefixCache.2 :=
      run_inv h.counts.inv (show Respects _ .resetPrefixCache from trivial) rfl
    exact h.of_sameRefs hinv (sameRefs_resetPrefixCache _) (fun _ => rfl) fun _ => rfl
  | newStepStarts =>
    cases hstep
    have hmanager : ∀ i, ((s.manager.newStepStarts cfg).managers i).reqToBlocks =
          (s.manager.managers i).reqToBlocks ∧
        ((s.manager.newStepStarts cfg).managers i).pendingCowCopies =
          (s.manager.managers i).pendingCowCopies := by
      intro i
      unfold KVCacheManager.newStepStarts Manager.newStepStarts
      dsimp only
      split
      · exact ⟨rfl, rfl⟩
      · split <;> exact ⟨rfl, rfl⟩
    exact h.of_sameRefs h.counts.inv (.refl _) (fun i => (hmanager i).1) fun i => (hmanager i).2

/-- A run keeps the counts exact. -/
theorem run_exact {ops : List (SystemOp R H)} (rs : Finset R) (h : s.Exact cfg rs size)
    (hr : ∀ op ∈ ops, ∀ r ∈ op.request, r ∈ rs) (hhits : ∀ op ∈ ops, op.HitsWithin size)
    (hrun : s.run cfg ops = .ok s') : s'.Exact cfg rs size :=
  foldlM_ok_induct (P := fun s : System R H => s.Exact cfg rs size)
    (fun op hop _ _ hs => step_exact hs (hr op hop) (hhits op hop)) h hrun

omit [DecidableEq R] [DecidableEq H] in
/-- Nothing is referenced at the start. -/
theorem init_exact {pool : BlockPool H} {caching : Bool} {hashBlockSize : Nat}
    (hinit : BlockPool.init size caching hashBlockSize = some pool) :
    (System.init pool : System R H).Exact cfg rs size := by
  refine ⟨(Counts.init hinit).congr fun b _ => ?_, fun _ _ _ => rfl⟩
  refine Nat.add_eq_zero_iff.mpr ⟨Finset.sum_eq_zero fun i _ => ?_, rfl⟩
  exact Nat.add_eq_zero_iff.mpr ⟨Finset.sum_eq_zero fun _ _ => rfl, rfl⟩

section

omit [DecidableEq R] [DecidableEq H]

theorem Exact.refCnt_eq (h : s.Exact cfg rs size) (hb : b ≠ 0) :
    (s.manager.pool.blocks b).refCnt = s.occurrences cfg rs b := by
  rw [h.counts.refCnt b hb, occurrences, count_append, Nat.add_assoc]

theorem Exact.isFree_iff (h : s.Exact cfg rs size) :
    s.manager.pool.IsFree b ↔ b < size ∧ b ≠ 0 ∧ ¬ s.InUse cfg b := by
  have htable : ∀ i, (∀ r ∈ rs, b ∉ (s.manager.managers i).reqToBlocks r) ↔
      ∀ r, b ∉ (s.manager.managers i).reqToBlocks r := by
    refine fun i => ⟨fun hrs r hr => hrs r ?_ hr, fun hall r _ => hall r⟩
    by_contra hout
    simp [h.support i r hout] at hr
  rw [IsFree, h.counts.size_eq, ← Bool.not_eq_true, h.counts.inv.null]
  refine and_congr_right fun _ => and_congr_right fun hb => ?_
  simp only [h.refCnt_eq hb, occurrences, KVCacheManager.refs, Manager.allRefs,
    Nat.add_eq_zero_iff, Finset.sum_eq_zero_iff, count_eq_zero, Finset.mem_range, htable, InUse,
    not_or, not_exists, not_and, and_assoc]

theorem Exact.mem_freeBlockQueue (h : s.Exact cfg rs size) (hreleased : s.Released cfg)
    (hb : b ≠ 0) (hlt : b < size) : b ∈ s.manager.pool.freeBlockQueue.toList := by
  obtain ⟨hgroups, hpopped, hretained⟩ := hreleased
  refine h.counts.mem_free_iff.mpr ⟨hb, hlt, ?_⟩
  refine Nat.add_eq_zero_iff.mpr ⟨Finset.sum_eq_zero fun i hi => ?_, ?_⟩
  · obtain ⟨htables, hcopies⟩ := hgroups i (Finset.mem_range.mp hi)
    refine Nat.add_eq_zero_iff.mpr ⟨Finset.sum_eq_zero fun r _ => ?_, ?_⟩
    · rw [htables, count_nil]
    · rw [Manager.copyEnds, hcopies, flatMap_nil, count_nil]
  · rw [hpopped, hretained]
    rfl

end

/-- After every run of the manager from an empty pool, the count of each block but the
null block is the number of its occurrences in the tables of all requests, in the lists
that are still to be freed and as ends of copies; and when these are empty, every block
is in the free queue. -/
theorem run_refCnt_eq {numGpuBlocks hashBlockSize : Nat} {enableCaching : Bool}
    {pool : BlockPool H} {ops : List (SystemOp R H)}
    (hinit : BlockPool.init numGpuBlocks enableCaching hashBlockSize = some pool)
    (hhits : ∀ op ∈ ops, op.HitsWithin numGpuBlocks)
    (hrun : (System.init pool).run cfg ops = .ok s) :
    (∃ rs : Finset R, (∀ i, ∀ r ∉ rs, (s.manager.managers i).reqToBlocks r = []) ∧
      ∀ b ≠ 0, (s.manager.pool.blocks b).refCnt = s.occurrences cfg rs b) ∧
    (s.Released cfg → ∀ b ≠ 0, b < numGpuBlocks → b ∈ s.manager.pool.freeBlockQueue.toList) := by
  have hexact := run_exact (ops.filterMap SystemOp.request).toFinset (init_exact hinit)
    (fun op hop r hr => mem_toFinset.mpr (mem_filterMap.mpr ⟨op, hop, hr⟩)) hhits hrun
  exact ⟨⟨_, hexact.support, fun b hb => hexact.refCnt_eq hb⟩,
    fun hreleased b hb => hexact.mem_freeBlockQueue hreleased hb⟩

/-- One full attention group with blocks of two tokens. -/
def oneGroup : Config :=
  { groups := [⟨.fullAttention, 2, true, none, 2, false, false, false, Nat.two_pos⟩]
    enableCaching := true
    maxModelLen := 8
    watermarkBlocks := 0
    schedulerBlockSize := 2
    numHashLookaheadTokens := 0
    retentionInterval := none
    numReprefillableTokens := 0
    dropsEagle := false
    hybrid := false
    enablePartialHashHits := false }

/-- Two requests with the same first block: the second one hits it, the first one is
popped, and its blocks are still to be freed. -/
def sharedBlockRun : List (SystemOp Bool Nat) :=
  [.allocateSlots ⟨false, 4, 4, 0, 0, true, 0, [7, 8]⟩
      ⟨4, 0, fun _ => [], 0, 0, false, 0, false, 0, false⟩,
    .allocateSlots ⟨true, 4, 4, 0, 0, true, 0, [7, 9]⟩
      ⟨2, 2, fun _ => [1], 0, 0, false, 0, false, 0, false⟩,
    .popBlocksForFree false]

/-- In that run the shared block is counted twice, for a table and for the popped list. -/
theorem run_refCnt_eq_sharedBlockRun :
    ∃ (pool : BlockPool Nat) (s : System Bool Nat),
      (System.init pool).run oneGroup sharedBlockRun = .ok s ∧
      (s.manager.pool.blocks 1).refCnt = 2 ∧ s.popped = [[2, 1]] ∧
      ∃ rs : Finset Bool, ∀ b ≠ 0,
        (s.manager.pool.blocks b).refCnt = s.occurrences oneGroup rs b := by
  have hstates : ∃ pool s, BlockPool.init 5 true 2 = some pool ∧
      (System.init pool).run oneGroup sharedBlockRun = .ok s ∧
      (s.manager.pool.blocks 1).refCnt = 2 ∧ s.popped = [[2, 1]] :=
    ⟨_, _, rfl, rfl, by decide, by decide⟩
  obtain ⟨pool, s, hinit, hrun, hshared, hpopped⟩ := hstates
  obtain ⟨⟨rs, -, hrefs⟩, -⟩ := run_refCnt_eq hinit
    (by simp [sharedBlockRun, SystemOp.HitsWithin]) hrun
  exact ⟨pool, s, hrun, hshared, hpopped, rs, hrefs⟩

/-- The free list is exact: after every run from an empty pool, it has each block that is not in
use once and no other, and the pool can hand out all of these. -/
theorem run_freeBlockQueue {numGpuBlocks hashBlockSize : Nat} {enableCaching : Bool}
    {pool : BlockPool H} {ops : List (SystemOp R H)}
    (hinit : BlockPool.init numGpuBlocks enableCaching hashBlockSize = some pool)
    (hhits : ∀ op ∈ ops, op.HitsWithin numGpuBlocks)
    (hrun : (System.init pool).run cfg ops = .ok s) :
    s.manager.pool.freeBlockQueue.toList.Nodup ∧
    (∀ b, b ∈ s.manager.pool.freeBlockQueue.toList ↔
      b < numGpuBlocks ∧ b ≠ 0 ∧ ¬ s.InUse cfg b) ∧
    ∀ n ≤ s.manager.pool.freeBlockQueue.toList.length,
      ∃ bs p, s.manager.pool.getNewBlocks n = some (bs, p) ∧ bs.Nodup ∧ bs.length = n ∧
        ∀ b ∈ bs, ¬ s.InUse cfg b := by
  have hexact := run_exact (ops.filterMap SystemOp.request).toFinset (init_exact hinit)
    (fun op hop r hr => mem_toFinset.mpr (mem_filterMap.mpr ⟨op, hop, hr⟩)) hhits hrun
  have hrep := hexact.counts.inv.repInv
  refine ⟨hrep.free_nodup, fun b => (hrep.mem_free_iff b).trans hexact.isFree_iff, fun n hn => ?_⟩
  obtain ⟨bs, p, hget, hlen, -, halloc⟩ :=
    getNewBlocks_spec hexact.counts.inv.free (hrep.numFree ▸ hn)
  exact ⟨bs, p, hget, halloc.nodup, hlen,
    fun b hb => (hexact.isFree_iff.mp (halloc.isFree b hb)).2.2⟩

theorem run_freeBlockQueue_sharedBlockRun :
    ∃ (pool : BlockPool Nat) (s : System Bool Nat),
      (System.init pool).run oneGroup sharedBlockRun = .ok s ∧ ¬ s.InUse oneGroup 4 := by
  have hfree : ∃ pool s, BlockPool.init 5 true 2 = some pool ∧
      (System.init pool).run oneGroup sharedBlockRun = .ok s ∧
      4 ∈ s.manager.pool.freeBlockQueue.toList := ⟨_, _, rfl, rfl, by decide⟩
  obtain ⟨pool, s, hinit, hrun, hfree⟩ := hfree
  have hexact := run_freeBlockQueue hinit (by simp [sharedBlockRun, SystemOp.HitsWithin]) hrun
  exact ⟨pool, s, hrun, ((hexact.2.1 4).mp hfree).2.2⟩

end System

end Vllm.KVCache
