import Mathlib.Algebra.BigOperators.Fin
import Mathlib.Algebra.Order.BigOperators.Group.Finset
import Vllm.KVCache.AdmissionCap

/-!
# What calls take from the pool

The tables of requests are charged as the scheduler counts them (`charge`): in a group
with an admission cap the blocks that are not null, in other groups the whole table. As
long as no block in a group with a cap is shared, a call for new tokens takes no more
from the pool than it adds to the charges, and blocks that leave the window come back to
the pool (`Pays`). A call that brings computed blocks takes at most what it has counted
(`allocateSlots_leaves`).
-/

namespace Vllm.KVCache

open Function Library Pool Pool.BlockPool List

variable {R H : Type} [DecidableEq R] [DecidableEq H]

/-! ## One table -/

/-- The blocks of a table that count: with a cap, those that are not null. -/
def charge (capped : Bool) (table : List Nat) : Nat :=
  if capped then heldBlocks table else table.length

/-- The blocks of a table that are not null. -/
def heldSet (table : List Nat) : Finset Nat := (table.filter (· ≠ nullBlock)).toFinset

theorem mem_heldSet {table : List Nat} {b : Nat} :
    b ∈ heldSet table ↔ 0 < table.count b ∧ b ≠ 0 := by
  rw [heldSet, mem_toFinset, mem_filter, decide_eq_true_eq, count_pos_iff]
  rfl

/-- A method gives blocks of the table of `r` back or takes free ones. Without a cap it only
appends. -/
structure Trades (capped : Bool) (r : R) (v v' : View R H) : Prop where
  pendingCowCopies : v'.mgr.pendingCowCopies = v.mgr.pendingCowCopies
  partialHitReqs : v'.mgr.partialHitReqs = v.mgr.partialHitReqs
  mem : ∀ b ∈ v'.mgr.reqToBlocks r, b ≠ 0 →
    b ∈ v.mgr.reqToBlocks r ∨ (v.pool.blocks b).refCnt = 0
  refCnt : ∀ b ≠ 0, (v'.pool.blocks b).refCnt ≤ max 1 (v.pool.blocks b).refCnt
  appended : capped = false → ∃ new, v'.mgr.reqToBlocks r = v.mgr.reqToBlocks r ++ new

section Table

variable {capped : Bool} {r : R} {v v' : View R H} {g : Group} {tables : R → List Nat}
  {out : Nat → Nat} {size : Nat}

omit [DecidableEq H]

theorem Extends.trades {bs : List Nat} (h : Extends r bs v v') : Trades capped r v v' := by
  refine ⟨by rw [h.mgr]; rfl, by rw [h.mgr]; rfl, fun b hb _ => ?_, fun b _ => h.refCnt b,
    fun _ => ⟨bs, h.table_eq⟩⟩
  rw [h.table_eq, mem_append] at hb
  exact hb.imp id fun hnew => (h.fresh b hnew).2

theorem refCnt_removeSkippedBlocks_le {n : Nat} (hk : g.kind.isAttention = true)
    (h : removeSkippedBlocks g v r n = .ok v') (b : Nat) :
    (v'.pool.blocks b).refCnt ≤ (v.pool.blocks b).refCnt := by
  rw [removeSkippedBlocks_eq hk] at h
  unfold baseRemoveSkippedBlocks baseRemoveBlocksInRange View.freeRange View.freeBlocks at h
  dsimp only at h
  repeat' split at h
  all_goals first
    | (cases h; exact Nat.le_refl _)
    | (obtain ⟨p, hp, rfl⟩ := map_eq_ok.mp h
       exact refCnt_freeBlocks_le (orFail_eq_ok.mp hp) b)

theorem trades_removeSkippedBlocks {n : Nat} (hk : g.kind.isAttention = true)
    (hfull : capped = false → g.kind = .fullAttention)
    (h : removeSkippedBlocks g v r n = .ok v') : Trades capped r v v' := by
  have hmgr := removeSkippedBlocks_mgr hk h
  refine ⟨by rw [hmgr]; rfl, by rw [hmgr]; rfl, fun b hb hne => .inl ?_, fun b _ =>
    Nat.le_trans (refCnt_removeSkippedBlocks_le hk h b) (Nat.le_max_right 1 _),
    fun hcapped => ⟨[], ?_⟩⟩
  · rw [hmgr, Manager.setBlocks_table, ← count_pos_iff] at hb
    rw [← count_pos_iff, ← removeLoop_count false _ _ hne]
    exact Nat.lt_of_lt_of_le hb (Nat.le_add_right _ _)
  · -- full attention skips nothing
    rw [hmgr, Manager.setBlocks_table, hfull hcapped, append_nil, Kind.getNumSkippedTokens,
      Nat.zero_div, Nat.zero_min]
    rfl

variable (hv : Balanced r tables out size [] v)
include hv

omit [DecidableEq R] in
theorem Balanced.refCnt_eq {b : Nat} (hb : b ≠ 0) : (v.pool.blocks b).refCnt =
    (v.mgr.reqToBlocks r).count b + v.mgr.copyEnds.count b + out b :=
  hv.counts.refCnt b hb

omit [DecidableEq R] in
/-- What is taken from the pool is charged, and what is not charged any more goes back. -/
theorem Trades.numFree_add_charge_le (h : Trades capped r v v')
    (hv' : Balanced r tables out size [] v')
    (hunshared : capped = true → ∀ b ∈ v.mgr.reqToBlocks r, b ≠ 0 →
      (v.pool.blocks b).refCnt ≤ 1) :
    v.pool.getNumFreeBlocks + charge capped (v.mgr.reqToBlocks r) ≤
      v'.pool.getNumFreeBlocks + charge capped (v'.mgr.reqToBlocks r) := by
  have hcopies : v'.mgr.copyEnds = v.mgr.copyEnds := by
    rw [Manager.copyEnds, h.pendingCowCopies, Manager.copyEnds]
  have hrefs : ∀ b ≠ 0, _ := fun b hb => hv.refCnt_eq (b := b) hb
  have hrefs' : ∀ b ≠ 0, _ := fun b hb => hv'.refCnt_eq (b := b) hb
  rw [hcopies] at hrefs'
  cases capped with
  | false =>
    obtain ⟨new, hnew⟩ := h.appended rfl
    have hle := hv.counts.numFree_add_card_le ∅ new.toFinset hv'.counts (by simp)
      fun b hb hfree => ?_
    · have := new.toFinset_card_le
      rw [Finset.card_empty] at hle
      simp only [charge, Bool.false_eq_true, if_false, hnew, length_append]
      omega
    · rw [mem_toFinset, ← count_pos_iff]
      have hfree := hfree.resolve_right (Finset.notMem_empty b)
      rw [hrefs b hb] at hfree
      rw [hrefs' b hb, hnew, count_append]
      omega
  | true =>
    have hone : ∀ b ≠ 0, 0 < (v.mgr.reqToBlocks r).count b → (v.pool.blocks b).refCnt ≤ 1 :=
      fun b hb hpos => hunshared rfl b (count_pos_iff.mp hpos) hb
    have hheld : heldBlocks (v.mgr.reqToBlocks r) = (heldSet (v.mgr.reqToBlocks r)).card := by
      rw [heldSet, heldBlocks, countP_eq_length_filter, toFinset_card_of_nodup]
      refine nodup_iff_count_le_one.mpr fun b => ?_
      by_cases hb : b = 0
      · rw [count_eq_zero_of_not_mem (by simp [hb, nullBlock])]
        exact Nat.zero_le 1
      have hle := (filter_sublist (p := (· ≠ nullBlock)) (l := v.mgr.reqToBlocks r)).count_le b
      have := hone b hb
      have := hrefs b hb
      omega
    have hle := hv.counts.numFree_add_card_le (heldSet (v.mgr.reqToBlocks r))
      (heldSet (v'.mgr.reqToBlocks r)) hv'.counts (fun b hb => ?_) fun b hb hcase => ?_
    · have hheld' : (heldSet (v'.mgr.reqToBlocks r)).card ≤ heldBlocks (v'.mgr.reqToBlocks r) := by
        rw [heldSet, heldBlocks, countP_eq_length_filter]
        exact toFinset_card_le _
      simp only [charge, if_true]
      omega
    · obtain ⟨hpos, hne⟩ := mem_heldSet.mp hb
      have := hrefs b hne
      exact ⟨hne, by omega⟩
    · rw [mem_heldSet, and_iff_left hb, hrefs' b hb]
      have := hrefs b hb
      have := hone b hb
      obtain hzero | hreal := hcase
      · omega
      · have := (mem_heldSet.mp hreal).1
        omega

end Table

/-! ## All tables -/

namespace KVCacheManager

variable {cfg : Config} {s s' s'' : KVCacheManager R H} {ids rs rs' : Finset R}
  {size i : Nat} {r : R}
  {extra extra' : List Nat} {v : View R H}

/-- Group `i` has an admission cap. -/
def Capped (cfg : Config) (i : Nat) : Bool :=
  (cfg.groups[i]?.bind Group.maxAdmissionBlocksPerRequest).isSome

/-- No block of `ids` in a group with a cap has a second reference. -/
def Unshared (cfg : Config) (ids : Finset R) (s : KVCacheManager R H) : Prop :=
  ∀ r ∈ ids, ∀ i < cfg.groups.length, Capped cfg i = true →
    ∀ b ∈ (s.managers i).reqToBlocks r, b ≠ 0 → (s.pool.blocks b).refCnt ≤ 1

/-- What the tables of `ids` are charged. -/
def charges (cfg : Config) (ids : Finset R) (s : KVCacheManager R H) : Nat :=
  ∑ r ∈ ids, ∑ i ∈ Finset.range cfg.groups.length,
    charge (Capped cfg i) ((s.managers i).reqToBlocks r)

/-- What is taken from the pool is charged to `ids`. -/
structure Pays (cfg : Config) (ids : Finset R) (s s' : KVCacheManager R H) : Prop where
  unshared : s.Unshared cfg ids → s'.Unshared cfg ids
  free : s.Unshared cfg ids → s.pool.getNumFreeBlocks + s.charges cfg ids ≤
    s'.pool.getNumFreeBlocks + s'.charges cfg ids

namespace Pays

section

omit [DecidableEq R] [DecidableEq H]

theorem refl (s : KVCacheManager R H) : Pays cfg ids s s := ⟨id, fun _ => Nat.le_refl _⟩

theorem trans (h : Pays cfg ids s s') (h' : Pays cfg ids s' s'') : Pays cfg ids s s'' :=
  ⟨fun hs => h'.unshared (h.unshared hs),
    fun hs => Nat.le_trans (h.free hs) (h'.free (h.unshared hs))⟩

/-- References go away, and the tables of `ids` stay. -/
theorem of_refCnt_le (h : Exact cfg rs size extra s) (h' : Exact cfg rs' size extra' s')
    (hrefs : ∀ b ≠ 0, (s'.pool.blocks b).refCnt ≤ (s.pool.blocks b).refCnt)
    (htables : ∀ r ∈ ids, ∀ i < cfg.groups.length,
      (s'.managers i).reqToBlocks r = (s.managers i).reqToBlocks r) : Pays cfg ids s s' := by
  refine ⟨fun hs r hr i hi hcap b hb hne => ?_, fun _ => ?_⟩
  · rw [htables r hr i hi] at hb
    exact Nat.le_trans (hrefs b hne) (hs r hr i hi hcap b hb hne)
  · have hle := h.counts.numFree_add_card_le ∅ ∅ h'.counts (by simp) fun b hb hfree => .inl
      (Nat.le_zero.mp (Nat.le_trans (hrefs b hb) (by simpa using hfree)))
    have hcharges : s'.charges cfg ids = s.charges cfg ids :=
      Finset.sum_congr rfl fun r hr => Finset.sum_congr rfl fun i hi => by
        rw [htables r hr i (Finset.mem_range.mp hi)]
    rw [Finset.card_empty] at hle
    omega

end

omit [DecidableEq H]

/-- A method of one manager. -/
theorem setView (h : Exact cfg rs size extra s) (hi : i < cfg.groups.length) (hr : r ∈ rs)
    (hid : r ∈ ids)
    (hstep : ∀ out, Balanced r (s.managers i).reqToBlocks out size [] (s.view i) →
      Balanced r (s.managers i).reqToBlocks out size [] v)
    (htrades : Trades (Capped cfg i) r (s.view i) v) : Pays cfg ids s (s.setView i v) := by
  have hv := h.balanced hi hr
  have hv' := hstep _ hv
  have htable : ∀ x : R × Nat, x ≠ (r, i) →
      ((s.setView i v).managers x.2).reqToBlocks x.1 = (s.managers x.2).reqToBlocks x.1 := by
    rintro ⟨r', j⟩ hne
    by_cases hj : j = i
    · subst hj
      rw [setView_self, hv'.others r' fun heq => hne (heq ▸ rfl)]
    · rw [setView_of_ne s hj]
  refine ⟨fun hs r' hr' j hj hcap b hb hne => ?_, fun hs => ?_⟩
  · have hle : (s.pool.blocks b).refCnt ≤ 1 := by
      by_cases heq : (r', j) = (r, i)
      · obtain ⟨rfl, rfl⟩ := Prod.mk.inj heq
        rw [setView_self] at hb
        obtain hold | hfree := htrades.mem b hb hne
        · exact hs r' hr' j hj hcap b hold hne
        · exact hfree.trans_le (Nat.zero_le 1)
      · rw [htable (r', j) heq] at hb
        exact hs r' hr' j hj hcap b hb hne
    exact Nat.le_trans (htrades.refCnt b hne) (Nat.max_le.mpr ⟨Nat.le_refl 1, hle⟩)
  · have hle : s.pool.getNumFreeBlocks + _ ≤ (s.setView i v).pool.getNumFreeBlocks + _ :=
      htrades.numFree_add_charge_le hv hv' fun hcap => hs r hid i hi hcap
    have hmem : (r, i) ∈ ids ×ˢ Finset.range cfg.groups.length :=
      Finset.mk_mem_product hid (Finset.mem_range.mpr hi)
    have hrest := Finset.sum_congr rfl fun x (hx : x ∈ (ids ×ˢ Finset.range
      cfg.groups.length).erase (r, i)) => congrArg (charge (Capped cfg x.2))
        (htable x (Finset.ne_of_mem_erase hx))
    simp only [charges, ← Finset.sum_product', ← Finset.add_sum_erase _ _ hmem]
    rw [hrest, setView_self]
    rw [view_mgr] at hle
    omega

end Pays

/-! ## Calls -/

/-- No partial hit waits for its copy. -/
def Quiet (cfg : Config) (s : KVCacheManager R H) : Prop :=
  ∀ i < cfg.groups.length, ∀ r, (s.managers i).partialHitReqs r = none

omit [DecidableEq H] in
/-- The loop over the managers. -/
theorem Exact.forManagers_pays {f : Group → Nat → View R H → Except Fault (View R H)}
    (h : Exact cfg rs size extra s) (hr : r ∈ rs) (hid : r ∈ ids) (hquiet : s.Quiet cfg)
    (hstep : ∀ i g v v' tables out, cfg.groups[i]? = some g → v.mgr.partialHitReqs r = none →
      f g i v = .ok v' → Balanced r tables out size [] v →
      Balanced r tables out size [] v' ∧ Trades (Capped cfg i) r v v')
    (hfor : s.forManagers cfg f = .ok s') : Pays cfg ids s s' ∧ s'.Quiet cfg := by
  have hloop := foldlM_ok_induct (P := fun s₁ : KVCacheManager R H =>
    Exact cfg rs size extra s₁ ∧ Pays cfg ids s s₁ ∧ s₁.Quiet cfg)
    (fun gi hgi s₁ s₂ hs₁ hs₂ => ?_) ⟨h, .refl s, hquiet⟩ hfor
  · exact hloop.2
  obtain ⟨v, hv, rfl⟩ := map_eq_ok.mp hs₂
  obtain ⟨h₁, hpays, hquiet₁⟩ := hs₁
  have hi : gi.2 < cfg.groups.length := (mem_zipIdx' hgi).1
  have hturn := fun out => hstep gi.2 gi.1 (s₁.view gi.2) v (s₁.managers gi.2).reqToBlocks out
    (mem_zipIdx_iff_getElem?.mp hgi) (hquiet₁ gi.2 hi r) hv
  have hbalanced := fun out hs => (hturn out hs).1
  have ht := (hturn _ (h₁.balanced hi hr)).2
  refine ⟨h₁.setView hi hr hbalanced, hpays.trans (.setView h₁ hi hr hid hbalanced ht),
    fun j hj r' => ?_⟩
  by_cases heq : j = gi.2
  · subst heq
    rw [setView_self, ht.partialHitReqs]
    exact hquiet₁ gi.2 hi r'
  · rw [setView_of_ne _ heq]
    exact hquiet₁ j hj r'

variable {n : Nat} {req : Request R H} {a : AllocArgs}
  {res : Option (List (List Nat)) × KVCacheManager R H}

theorem Exact.cacheBlocks_pays (h : Exact cfg rs size extra s) (hr : req.requestId ∈ rs)
    (hcache : s.cacheBlocks cfg req n = .ok s') : Pays cfg ids s s' := by
  obtain ⟨hsame, htables⟩ := cacheBlocks_same hcache
  exact .of_refCnt_le h ((Keeps.cacheBlocks hr hcache).exact h)
    (fun b _ => Nat.le_of_eq (hsame.refCnt b)) fun r _ i _ => congrFun (htables i).1 r

omit [DecidableEq R] [DecidableEq H] in
theorem setView_view (s : KVCacheManager R H) (i : Nat) : s.setView i (s.view i) = s := by
  simp [KVCacheManager.setView, KVCacheManager.view]

section Attention

variable (hattention : ∀ g ∈ cfg.groups, g.kind.isAttention = true)
include hattention

/-- Counting changes nothing. -/
theorem getNumBlocksToAllocate_state {blocks : Nat → List Nat} {numEncoderTokens : Nat}
    {sa : SlotArgs} {needed : Int × KVCacheManager R H}
    (hget : s.getNumBlocksToAllocate cfg r blocks numEncoderTokens sa = .ok needed) :
    needed.2 = s := by
  obtain ⟨collected, hcollected, rfl⟩ := map_eq_ok.mp hget
  refine foldlM_ok_induct (P := fun acc : List Int × KVCacheManager R H => acc.2 = s)
    (fun gi hgi acc acc' hacc hstep => ?_) rfl hcollected
  obtain ⟨out, hout, rfl⟩ := map_eq_ok.mp hstep
  have hk := hattention gi.1 (mem_of_getElem? (mem_zipIdx_iff_getElem?.mp hgi))
  dsimp only at hout
  split at hout
  · simp_all [Kind.isAttention]
  · rw [getNumBlocksToAllocate_eq_base hk] at hout
    obtain ⟨n, -, rfl⟩ := map_eq_ok.mp hout
    rw [setView_view, hacc]

variable (hfull : ∀ i g, cfg.groups[i]? = some g → Capped cfg i = false → g.kind = .fullAttention)
include hfull

omit [DecidableEq H] in
theorem Exact.removeSkippedBlocks_pays (h : Exact cfg rs size extra s) (hr : r ∈ rs)
    (hid : r ∈ ids) (hquiet : s.Quiet cfg) (hremove : s.removeSkippedBlocks cfg r n = .ok s') :
    Pays cfg ids s s' ∧ s'.Quiet cfg :=
  h.forManagers_pays hr hid hquiet (fun i g _ _ _ _ hg _ hv' hv => ⟨hv.removeSkippedBlocks hv',
    trades_removeSkippedBlocks (hattention g (mem_of_getElem? hg)) (hfull i g hg) hv'⟩) hremove

/-- A call for new tokens only. -/
theorem Exact.allocateSlots_pays (h : Exact cfg rs size extra s) (hr : req.requestId ∈ rs)
    (hid : req.requestId ∈ ids) (hquiet : s.Quiet cfg) (hadopts : ¬a.Adopts cfg)
    (halloc : s.allocateSlots cfg req a = .ok res) : Pays cfg ids s res.2 := by
  obtain ⟨rfl, -⟩ | ⟨s₁, needed, hskipped, hneeded, hrest⟩ := allocateSlots_cases halloc
  · exact .refl s
  have h₁ := (Keeps.removeSkippedBlocks hr hskipped).exact h
  obtain ⟨hpays₁, hquiet₁⟩ := h.removeSkippedBlocks_pays hattention hfull hr hid hquiet hskipped
  obtain rfl := getNumBlocksToAllocate_state hattention hneeded
  obtain ⟨rfl, -⟩ | ⟨-, new, hcommit, -, hcache⟩ := hrest
  · exact hpays₁
  obtain ⟨s₂, hcomputed, hnew⟩ := bind_eq_ok.mp hcommit
  rw [if_neg (by simpa [AllocArgs.Adopts] using hadopts)] at hcomputed
  cases hcomputed
  obtain ⟨hpays₂, -⟩ := h₁.forManagers_pays hr hid hquiet₁
    (fun i g v v' tables out hg hnone hv' hv => by
      obtain ⟨res, hres, rfl⟩ := map_eq_ok.mp hv'
      have hk := hattention g (mem_of_getElem? hg)
      have hcow : redirectPartialHit v req.requestId = .ok ([], v) := by
        unfold redirectPartialHit
        rw [hnone]
      refine ⟨hv.allocateNewBlocks hres, ?_⟩
      split at hres
      · simp_all [Kind.isAttention]
      · obtain ⟨bs, hextends, -⟩ := extends_of_redirected hv hcow hk hres
        exact hextends.trades)
    (forManagers_of_collect hnew)
  have hpays := hpays₁.trans hpays₂
  obtain heq | hcache := hcache
  · exact heq ▸ hpays
  · exact hpays.trans (((Keeps.allocateNewBlocks hr hnew).exact h₁).cacheBlocks_pays hr hcache)

end Attention

/-! ## Counts -/

section

omit [DecidableEq R] [DecidableEq H]

/-- A block without references is in no table and in no copy. -/
theorem refs_eq_zero_iff {b : Nat} : s.refs cfg rs b = 0 ↔ ∀ i < cfg.groups.length,
    (∀ r ∈ rs, b ∉ (s.managers i).reqToBlocks r) ∧ b ∉ (s.managers i).copyEnds := by
  simp only [refs, Manager.allRefs, Finset.sum_eq_zero_iff, Nat.add_eq_zero_iff, count_eq_zero,
    Finset.mem_range]

/-- A loop over methods that change nothing collects their values. -/
theorem forManagersCollect_eq {α : Type} {f : Group → Nat → View R H → Except Fault (α × View R H)}
    (value : Group → Nat → α)
    (h : ∀ g i, cfg.groups[i]? = some g → f g i (s.view i) = .ok (value g i, s.view i)) :
    s.forManagersCollect cfg f = .ok (cfg.groups.zipIdx.map fun gi => value gi.1 gi.2, s) := by
  have hloop : ∀ (groups : List (Group × Nat)) (done : List α),
      (∀ gi ∈ groups, f gi.1 gi.2 (s.view gi.2) = .ok (value gi.1 gi.2, s.view gi.2)) →
      groups.foldlM (fun acc g => (f g.1 g.2 (acc.2.view g.2)).map fun r =>
        (acc.1 ++ [r.1], acc.2.setView g.2 r.2)) (done, s) =
        .ok (done ++ groups.map fun gi => value gi.1 gi.2, s) := by
    intro groups
    induction groups with
    | nil =>
      intro done _
      rw [map_nil, append_nil]
      rfl
    | cons gi groups ih =>
      intro done hgroups
      rw [foldlM_cons]
      refine bind_eq_ok.mpr ⟨(done ++ [value gi.1 gi.2], s), ?_, ?_⟩
      · refine map_eq_ok.mpr ⟨_, hgroups gi mem_cons_self, ?_⟩
        rw [setView_view]
      · rw [ih _ fun gi' hgi' => hgroups gi' (mem_cons_of_mem _ hgi'), map_cons, append_assoc]
        rfl
  exact hloop _ [] fun gi hgi => h gi.1 gi.2 (mem_zipIdx_iff_getElem?.mp hgi)

end

/-- The count over all groups, where all of them are attention groups. -/
theorem getNumBlocksToAllocate_eq_sum {blocks : Nat → List Nat} {numEncoderTokens : Nat}
    {a : SlotArgs} (value : Group → Nat → Nat)
    (hattention : ∀ g ∈ cfg.groups, g.kind.isAttention = true)
    (hvalue : ∀ g i, cfg.groups[i]? = some g →
      baseNumBlocksToAllocate g (s.view i) r (blocks i)
        { a with prefillEnd := if cfg.retentionInterval = some 0 then a.prefillEnd else 0 } =
        .ok (value g i)) :
    s.getNumBlocksToAllocate cfg r blocks numEncoderTokens a =
      .ok ((∑ i : Fin cfg.groups.length, value cfg.groups[i] i : Nat), s) := by
  refine map_eq_ok.mpr ⟨_, forManagersCollect_eq (fun g i => (value g i : Int)) fun g i hg => ?_,
    ?_⟩
  · have hk := hattention g (mem_of_getElem? hg)
    split
    · simp_all [Kind.isAttention]
    · rw [getNumBlocksToAllocate_eq_base hk, hvalue g i hg]
      rfl
  · have hsum : (cfg.groups.zipIdx.map fun gi => (value gi.1 gi.2 : Int)) =
        List.ofFn fun i : Fin cfg.groups.length => (value cfg.groups[i] i : Int) := by
      refine List.ext_getElem (by simp) fun i hi hi' => ?_
      simp
    rw [hsum, List.sum_ofFn, Nat.cast_sum]

end KVCacheManager

/-! ## Admission -/

open KVCacheManager

omit [DecidableEq R] [DecidableEq H] in
theorem SlotsCall.computed_le_need {cfg : Config} {size : Nat} {s : Chunks R H} {req : Request R H}
    {a : AllocArgs} (hcall : SlotsCall cfg size s req a) :
    a.numLocalComputedTokens req + a.numExternalComputedTokens ≤ a.numTokensNeedSlot cfg req := by
  have hwithin := hcall.within
  unfold AllocArgs.numTokensNeedSlot AllocArgs.numTokensMainModel
    AllocArgs.totalComputedTokens
  omega

namespace Chunks

variable {cfg : Config} {s s' : Chunks R H} {rs : Finset R} {size : Nat} {req : Request R H}
  {a : AllocArgs} {m : KVCacheManager R H} {extra : List Nat}
  {new : List (List Nat) × KVCacheManager R H}
  {res : Option (List (List Nat)) × KVCacheManager R H}

/-- What `get_num_blocks_to_allocate` counts for a group of a request with hits that no manager
knows. -/
def numBlocksToAdopt (cfg : Config) (m : KVCacheManager R H) (req : Request R H)
    (a : AllocArgs) (g : Group) (i : Nat) : Nat :=
  let skipped := g.kind.getNumSkippedTokens
    (a.numLocalComputedTokens req + a.numExternalComputedTokens) / g.blockSize
  let hits := a.newComputedBlocks i
  (cdiv (a.numTokensNeedSlot cfg req) g.blockSize - max skipped hits.length) +
    (if g.hasPartialLocalHit hits (a.numLocalComputedTokens req) then 1 else 0) +
    (m.view i).getNumEvictableBlocks (hits.drop skipped)

section Commit

variable (hattention : ∀ g ∈ cfg.groups, g.kind.isAttention = true)
  (h : m.Exact cfg rs size extra) (hquiet : m.Quiet cfg) (hr : req.requestId ∈ rs)
  (hcall : SlotsCall cfg size s req a)
  (huntracked : a.Adopts cfg → m.Untracked cfg req.requestId)
  (hcommit : m.commitSlots cfg req a = .ok new)
include hattention h hquiet hr hcall huntracked hcommit

/-- The hits that come into use and the new blocks are within the count. -/
theorem numFree_commitSlots_le (hadopts : a.Adopts cfg) :
    m.pool.getNumFreeBlocks ≤ new.2.pool.getNumFreeBlocks +
      ∑ i : Fin cfg.groups.length, numBlocksToAdopt cfg m req a cfg.groups[i] i := by
  have hzero : ∀ b ≠ 0, (m.pool.blocks b).refCnt = 0 →
      m.refs cfg rs b = 0 ∧ extra.count b = 0 := fun b hb hfree =>
    Nat.add_eq_zero_iff.mp ((h.counts.refCnt b hb).symm.trans hfree)
  have hgroup : ∀ i : Fin cfg.groups.length, ∃ taken : List Nat,
      taken.length ≤ numBlocksToAdopt cfg m req a cfg.groups[i] i ∧
      ∀ b ≠ 0, (m.pool.blocks b).refCnt = 0 → b ∉ taken →
        (∀ r ∈ rs, b ∉ (new.2.managers i).reqToBlocks r) ∧ b ∉ (new.2.managers i).copyEnds := by
    intro i
    have hg : cfg.groups[i.1]? = some cfg.groups[i] := getElem?_eq_getElem i.2
    have hk := hattention _ (getElem_mem i.2)
    obtain ⟨nulls, held, hhits, -⟩ := hcall.shape i _ hg hk
    obtain ⟨-, -, fresh, htakes, hfresh⟩ := commitSlots_of_adopts h hr hcall.valid
      hadopts (huntracked hadopts) hcommit hg hk hhits
    have hlen := hfresh (hquiet i i.2 _) hcall.computed_le_need
    rw [← hhits.length_eq] at hlen
    refine ⟨((a.newComputedBlocks i).drop (cfg.groups[i].kind.getNumSkippedTokens
      (a.numLocalComputedTokens req +
        a.numExternalComputedTokens) / cfg.groups[i].blockSize)).filter
        (fun b => (m.pool.blocks b).refCnt == 0 && !(m.pool.blocks b).isNull) ++ fresh, ?_,
      fun b hb hfree hnot => ?_⟩
    · rw [length_append, ← countP_eq_length_filter, Nat.add_comm]
      exact Nat.add_le_add_right hlen _
    obtain ⟨htables, hcopies⟩ := refs_eq_zero_iff.mp (hzero b hb hfree).1 i i.2
    have huses : ¬(b ∈ (new.2.managers i).reqToBlocks req.requestId ∨
        b ∈ (new.2.managers i).copyEnds) := by
      intro huses
      obtain (hold | hold) | hnew := htakes.uses b hb huses
      · exact htables _ hr hold
      · exact hcopies hold
      · refine hnot (mem_append.mpr ((mem_append.mp hnew).imp (fun hhit => ?_) id))
        exact mem_filter.mpr ⟨hhit, by simp [hfree, h.counts.isNull_eq_false hb]⟩
    rw [not_or] at huses
    refine ⟨fun r hmem hb' => ?_, huses.2⟩
    by_cases heq : r = req.requestId
    · exact huses.1 (heq ▸ hb')
    · exact htables r hmem (htakes.tables r heq ▸ hb')
  choose taken hlen huses using hgroup
  have hnew := (Keeps.commitSlots hr hcall.valid hcommit).exact h
  have hle := h.counts.numFree_add_card_le ∅ (Finset.univ.biUnion fun i => (taken i).toFinset)
    hnew.counts (by simp) fun b hb hfree => ?_
  · rw [Finset.card_empty] at hle
    refine Nat.le_trans hle (Nat.add_le_add_left (Nat.le_trans Finset.card_biUnion_le ?_) _)
    exact Finset.sum_le_sum fun i _ => Nat.le_trans (toFinset_card_le _) (hlen i)
  · -- a block that no group took is referenced by nobody
    have hfree := hfree.resolve_right (Finset.notMem_empty b)
    refine or_iff_not_imp_right.mpr fun hnot => ?_
    rw [hnew.counts.refCnt b hb, (hzero b hb hfree).2, refs_eq_zero_iff.mpr]
    refine fun i hi => huses ⟨i, hi⟩ b hb hfree fun hmem => hnot ?_
    exact Finset.mem_biUnion.mpr ⟨⟨i, hi⟩, Finset.mem_univ _, mem_toFinset.mpr hmem⟩

/-- When blocks are taken, no partial hit is left. -/
theorem quiet_commitSlots : new.2.Quiet cfg := by
  intro i hi r
  have hg : cfg.groups[i]? = some cfg.groups[i] := getElem?_eq_getElem hi
  have hk := hattention _ (getElem_mem hi)
  have htakes : ∃ bs, Takes req.requestId bs (m.managers i) (new.2.managers i) ∧
      (new.2.managers i).partialHitReqs req.requestId = none := by
    by_cases hadopts : a.Adopts cfg
    · obtain ⟨nulls, held, hhits, -⟩ := hcall.shape i _ hg hk
      obtain ⟨-, hnone, fresh, htakes, -⟩ := commitSlots_of_adopts h hr hcall.valid
        hadopts (huntracked hadopts) hcommit hg hk hhits
      exact ⟨_, htakes, hnone⟩
    · obtain ⟨s₁, hcomputed, hnew⟩ := bind_eq_ok.mp hcommit
      rw [if_neg (by simpa [AllocArgs.Adopts] using hadopts)] at hcomputed
      cases hcomputed
      obtain ⟨bs, htakes, hnone, -⟩ := h.allocateNewBlocks_spec hr hnew hg hk
      exact ⟨bs, htakes, hnone⟩
  obtain ⟨bs, htakes, hnone⟩ := htakes
  by_cases heq : r = req.requestId
  · exact heq ▸ hnone
  · exact (htakes.partialHits r heq).trans (hquiet i hi r)

end Commit

section Call

variable (hattention : ∀ g ∈ cfg.groups, g.kind.isAttention = true)
include hattention

theorem getNumBlocksToAllocate_of_adopts (huntracked : m.Untracked cfg req.requestId)
    (htables : ∀ i < cfg.groups.length, (m.managers i).reqToBlocks req.requestId = []) :
    m.getNumBlocksToAllocate cfg req.requestId a.newComputedBlocks a.numEncoderTokens
      (a.slotArgs cfg req) =
      .ok ((∑ i : Fin cfg.groups.length, numBlocksToAdopt cfg m req a cfg.groups[i] i : Nat),
        m) := by
  refine getNumBlocksToAllocate_eq_sum (numBlocksToAdopt cfg m req a) hattention
    fun g i hg => ?_
  have hi : i < cfg.groups.length := (List.getElem?_eq_some_iff.mp hg).1
  simp [baseNumBlocksToAllocate, numBlocksToAdopt, AllocArgs.slotArgs,
    huntracked i hi, htables i hi]
  rfl

/-- After a call no partial hit waits, and a call with computed blocks that succeeds leaves the
reserved blocks free. -/
theorem allocateSlots_leaves (h : s.system.Exact cfg rs size)
    (hquiet : s.system.manager.Quiet cfg) (hr : req.requestId ∈ rs)
    (hcall : SlotsCall cfg size s req a)
    (hres : s.system.manager.allocateSlots cfg req a = .ok res) :
    res.2.Quiet cfg ∧
      (a.Adopts cfg → res.1 ≠ none → a.reservedBlocks ≤ res.2.pool.getNumFreeBlocks) := by
  obtain ⟨rfl, -⟩ | ⟨s₁, needed, hskipped, hneeded, hrest⟩ := allocateSlots_cases hres
  · exact ⟨hquiet, fun _ hsome => absurd rfl hsome⟩
  have h₁ := (Keeps.removeSkippedBlocks hr hskipped).exact h
  have hgroup : ∀ i (hi : i < cfg.groups.length), cfg.groups[i]? = some cfg.groups[i] ∧
      cfg.groups[i].kind.isAttention = true :=
    fun i hi => ⟨getElem?_eq_getElem hi, hattention _ (getElem_mem hi)⟩
  have hquiet₁ : s₁.Quiet cfg := by
    intro i hi r
    obtain ⟨v, v', hmgr, hf, hmgr'⟩ := forManagers_at hskipped (hgroup i hi).1
    rw [← hmgr', removeSkippedBlocks_mgr (hgroup i hi).2 hf, hmgr]
    exact hquiet i hi r
  obtain rfl := getNumBlocksToAllocate_state hattention hneeded
  obtain ⟨rfl, -⟩ | ⟨hfits, new, hcommit, -, hcache⟩ := hrest
  · exact ⟨hquiet₁, fun _ hsome => absurd rfl hsome⟩
  have huntracked : a.Adopts cfg → needed.2.Untracked cfg req.requestId := fun hadopts =>
    untracked_removeSkippedBlocks hskipped (hcall.fresh hadopts).1
  have hnew := quiet_commitSlots hattention h₁ hquiet₁ hr hcall huntracked hcommit
  refine ⟨fun i hi r => ?_, fun hadopts _ => ?_⟩
  · obtain heq | hcache := hcache
    · exact heq ▸ hnew i hi r
    · rw [((cacheBlocks_same hcache).2 i).2 _ (hgroup i hi).1 (hgroup i hi).2]
      exact hnew i hi r
  · -- the request has no blocks, before and after what its window skips is freed
    have hempty : ∀ i < cfg.groups.length,
        (needed.2.managers i).reqToBlocks req.requestId = [] := by
      intro i hi
      obtain ⟨nulls, held, hrow, -, -, hlen⟩ := row_removeSkippedBlocks
        hskipped (hgroup i hi).1 (hgroup i hi).2 ((hcall.fresh hadopts).2 i hi ▸ Row.nil)
      exact length_eq_zero_iff.mp (hrow.length_eq.trans hlen)
    have hle := numFree_commitSlots_le hattention h₁ hquiet₁ hr hcall huntracked hcommit hadopts
    have hfree : res.2.pool.getNumFreeBlocks = new.2.pool.getNumFreeBlocks := by
      obtain heq | hcache := hcache
      · rw [heq]
      · unfold BlockPool.getNumFreeBlocks
        rw [(cacheBlocks_same hcache).1.freeBlockQueue]
    have hcount := congrArg (Except.map Prod.fst) (hneeded.symm.trans
      (getNumBlocksToAllocate_of_adopts hattention (huntracked hadopts) hempty))
    have hcount : needed.1 = _ := Except.ok.inj hcount
    rw [hcount] at hfits
    omega

/-- No operation leaves a partial hit waiting. -/
theorem exec_quiet {op : ChunkOp R H} (hexact : s.system.Exact cfg rs size)
    (hquiet : s.system.manager.Quiet cfg) (hop : op.Promised cfg size s)
    (hexec : s.exec cfg op = .ok s') : s'.system.manager.Quiet cfg := by
  cases op with
  | settle r n rejected =>
    cases hexec
    exact hquiet
  | call op =>
    obtain ⟨rs', hexact', hmem⟩ := exact_request hexact op
    by_cases halloc : ∃ req a, op = .allocateSlots req a
    · obtain ⟨req, a, rfl⟩ := halloc
      obtain ⟨res, hres, rfl⟩ := map_eq_ok.mp hexec
      have hafter := (allocateSlots_leaves hattention hexact' hquiet (hmem _ rfl) hop hres).1
      split <;> exact hafter
    · have hne : ∀ req a, op ≠ .allocateSlots req a := fun req a heq => halloc ⟨req, a, heq⟩
      rw [exec_call hne] at hexec
      obtain ⟨system, hsystem, rfl⟩ := map_eq_ok.mp hexec
      exact fun i hi r => (manager_of_step hne hsystem (getElem?_eq_getElem hi)
        (hattention _ (getElem_mem hi)) r).1 (hquiet i hi r)

end Call

end Chunks

end Vllm.KVCache
