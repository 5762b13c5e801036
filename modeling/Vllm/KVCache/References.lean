import Mathlib.Algebra.BigOperators.Group.Finset.Basic
import Vllm.KVCache.Caching
import Vllm.Pool.Counts

/-!
# References of one manager

Every method of a manager gives each reference that it takes or drops to the block
table of its request or to the ends of a pending copy. `Balanced` says that the
pool counts exactly these references, those in the hands of the caller, and a fixed
number of others. Each method keeps it, whatever the others are, so the results
compose over requests and groups (`Vllm.KVCache.Ownership`).
-/

namespace Vllm.KVCache

open Function Library Pool Pool.BlockPool List

variable {R H : Type} [DecidableEq R] [DecidableEq H]

/-- The ends of the copies that are pending. -/
def Manager.copyEnds (m : Manager R H) : List Nat :=
  m.pendingCowCopies.flatMap fun c => [c.1, c.2]

/-- The references that the manager holds for request `r` and for copies. -/
def Manager.refs (m : Manager R H) (r : R) (b : Nat) : Nat :=
  (m.reqToBlocks r).count b + m.copyEnds.count b

/-- The pool counts the references of request `r` and of the copies, those in `hand`,
and `out`. The tables of the other requests are `tables`. -/
structure Balanced (r : R) (tables : R → List Nat) (out : Nat → Nat) (size : Nat)
    (hand : List Nat) (v : View R H) : Prop where
  counts : Counts v.pool size fun b => v.mgr.refs r b + hand.count b + out b
  others : ∀ r' ≠ r, v.mgr.reqToBlocks r' = tables r'

variable {r : R} {tables : R → List Nat} {out : Nat → Nat} {size : Nat} {hand : List Nat}
  {v v' : View R H} {hand' bs blocks : List Nat} {n : Nat} {mp : MambaParams}

namespace Balanced

/-! ## Steps -/

section

variable (h : Balanced r tables out size hand v)
include h

section

omit [DecidableEq R] [DecidableEq H]

/-- References move between the hand, the table and the copies. -/
theorem move (hpool : v'.pool = v.pool)
    (hothers : ∀ r' ≠ r, v'.mgr.reqToBlocks r' = v.mgr.reqToBlocks r')
    (hcount : ∀ b ≠ 0, v'.mgr.refs r b + hand'.count b = v.mgr.refs r b + hand.count b) :
    Balanced r tables out size hand' v' := by
  refine ⟨?_, fun r' hr' => (hothers r' hr').trans (h.others r' hr')⟩
  rw [hpool]
  exact h.counts.congr fun b hb => by rw [hcount b hb]

/-- The rest of the bookkeeping holds no references. -/
theorem of_eq (hpool : v'.pool = v.pool) (htables : v'.mgr.reqToBlocks = v.mgr.reqToBlocks)
    (hcopies : v'.mgr.pendingCowCopies = v.mgr.pendingCowCopies) :
    Balanced r tables out size hand v' :=
  h.move hpool (fun r' _ => by rw [htables])
    fun b _ => by simp only [Manager.refs, Manager.copyEnds, htables, hcopies]

end

omit [DecidableEq R] in
/-- Hashes are no references. -/
theorem of_hashSteps {ok : Nat → Key H → Prop}
    (hsteps : HashSteps ok v.pool v'.pool) (htables : v'.mgr.reqToBlocks = v.mgr.reqToBlocks)
    (hcopies : v'.mgr.pendingCowCopies = v.mgr.pendingCowCopies) :
    Balanced r tables out size hand v' := by
  have hpool : Balanced r tables out size hand { v with pool := v'.pool } :=
    ⟨h.counts.of_hashSteps hsteps, h.others⟩
  exact hpool.of_eq rfl htables hcopies

omit h in
omit [DecidableEq R] in
theorem getNewBlocks (hget : v.getNewBlocks n = .ok (bs, v'))
    (h : Balanced r tables out size hand v) :
    Balanced r tables out size (bs ++ hand) v' ∧ v'.mgr = v.mgr ∧ bs.length = n ∧
      ∀ b ∈ bs, b ≠ 0 := by
  unfold View.getNewBlocks at hget
  split at hget
  · cases hget
  obtain ⟨⟨bs', p⟩, hp, heq⟩ := map_eq_ok.mp hget
  cases heq
  obtain ⟨hcounts, hlen, hne⟩ := h.counts.getNewBlocks (orFail_eq_ok.mp hp)
  refine ⟨⟨hcounts.congr fun b _ => ?_, h.others⟩, rfl, hlen, hne⟩
  dsimp only
  rw [count_append]
  omega

omit [DecidableEq R] [DecidableEq H] in
theorem touch (hbs : ∀ b ∈ bs, b < size) (htouch : v.touch bs = .ok v') :
    Balanced r tables out size (bs ++ hand) v' ∧ v'.mgr = v.mgr := by
  obtain ⟨p, hp, rfl⟩ := map_eq_ok.mp htouch
  obtain ⟨p', hp', hcounts⟩ := h.counts.touch hbs
  obtain rfl := Option.some.inj (hp'.symm.trans (orFail_eq_ok.mp hp))
  refine ⟨⟨hcounts.congr fun b _ => ?_, h.others⟩, rfl⟩
  dsimp only
  rw [count_append]
  omega

omit h in
omit [DecidableEq R] [DecidableEq H] in
theorem freeBlocks (h : Balanced r tables out size (bs ++ hand) v)
    (hfree : v.freeBlocks bs = .ok v') :
    Balanced r tables out size hand v' ∧ v'.mgr = v.mgr := by
  obtain ⟨p, hp, rfl⟩ := map_eq_ok.mp hfree
  have hgive : ∀ b ≠ 0, v.mgr.refs r b + (bs ++ hand).count b + out b =
      (v.mgr.refs r b + hand.count b + out b) + bs.count b := by
    intro b _
    rw [count_append]
    omega
  obtain ⟨p', hp', hcounts⟩ := h.counts.freeBlocks hgive
  obtain rfl := Option.some.inj (hp'.symm.trans (orFail_eq_ok.mp hp))
  exact ⟨⟨hcounts, h.others⟩, rfl⟩

omit [DecidableEq R] [DecidableEq H] in
/-- One more reference to a block that is referenced. -/
theorem incRef {b : Nat} (href : 0 < v.mgr.refs r b + hand.count b) :
    Balanced r tables out size (b :: hand)
      { v with pool := v.pool.setRefCnt b ((v.pool.blocks b).refCnt + 1) } := by
  have hlt : b < size := by
    by_cases hzero : b = 0
    · exact hzero ▸ h.counts.size_pos
    · exact h.counts.valid b hzero (by omega)
  refine ⟨(h.counts.incRef hlt fun _ => by omega).congr fun c _ => ?_, h.others⟩
  dsimp only
  rw [count_cons, count_singleton]
  omega

end

end Balanced

/-! ## Tables -/

section Tables

variable {m m' : Manager R H} {b : Nat} {table table' : List Nat} {i : Nat} {isNull : Nat → Bool}

omit [DecidableEq H] in
/-- A table in place of another, with what it has more or less in the hand. -/
theorem Balanced.setTable (h : Balanced r tables out size hand v) (hpool : v'.pool = v.pool)
    (htable : v'.mgr.reqToBlocks = update v.mgr.reqToBlocks r table)
    (hcopies : v'.mgr.pendingCowCopies = v.mgr.pendingCowCopies)
    (hcount : ∀ b ≠ 0,
      table.count b + hand'.count b = (v.mgr.reqToBlocks r).count b + hand.count b) :
    Balanced r tables out size hand' v' := by
  refine h.move hpool (fun r' hr' => ?_) fun b hb => ?_
  · rw [htable, update_of_ne hr']
  · have := hcount b hb
    simp only [Manager.refs, Manager.copyEnds, htable, hcopies, update_self]
    omega

/-- A block in the place of another. -/
theorem count_set_add {a c : Nat} (hi : table[i]? = some a) :
    (table.set i c).count b + [a].count b = table.count b + [c].count b := by
  obtain ⟨hlt, rfl⟩ := List.getElem?_eq_some_iff.mp hi
  rw [count_set hlt, count_singleton, count_singleton]
  by_cases heq : table[i] = b
  · have hpos : 0 < table.count b := count_pos_iff.mpr (heq ▸ getElem_mem hlt)
    simp only [heq, beq_self_eq_true, if_true]
    omega
  · simp [heq]

theorem count_nullBlock (hb : b ≠ 0) : [nullBlock].count b = 0 := by
  exact count_eq_zero_of_not_mem (by simpa [nullBlock] using hb)

theorem count_replicate_null (hb : b ≠ 0) : (List.replicate n nullBlock).count b = 0 := by
  rw [count_replicate, if_neg (by simpa [nullBlock] using Ne.symm hb)]

/-- The loop takes blocks out of the table. -/
theorem removeLoop_count (skipNull : Bool) (is table : List Nat) (hb : b ≠ 0) :
    (removeLoop skipNull is table).2.count b + (removeLoop skipNull is table).1.count b =
      table.count b := by
  induction is generalizing table with
  | nil => rfl
  | cons i is ih =>
    simp only [removeLoop]
    split
    · rfl
    rename_i a ha
    split
    · split
      · exact ih table
      · rfl
    have hset := count_set_add (b := b) (c := nullBlock) ha
    have hrest := ih (table.set i nullBlock)
    rw [count_nullBlock hb, count_singleton] at hset
    dsimp only
    rw [count_cons]
    omega

section

omit [DecidableEq R] [DecidableEq H]

/-- A block moves to the end of the table. -/
theorem relocateSpeculativeBlock_count (hb : b ≠ 0)
    (h : relocateSpeculativeBlock v table i = .ok table') : table'.count b = table.count b := by
  unfold relocateSpeculativeBlock at h
  split at h
  · cases h
  rename_i a ha
  split at h
  · cases h
    have hlt : i < table.length := (List.getElem?_eq_some_iff.mp ha).1
    have hset := count_set_add (b := b) (c := nullBlock) ha
    rw [count_nullBlock hb] at hset
    rw [set_append_left _ _ hlt, count_append]
    exact hset
  · cases h

theorem relocateLoop_count {limit : Nat} {is : List Nat} (hb : b ≠ 0)
    (h : relocateLoop v limit is table = .ok table') : table'.count b = table.count b := by
  induction is generalizing table with
  | nil =>
    cases h
    rfl
  | cons i is ih =>
    rw [relocateLoop] at h
    split at h
    · obtain ⟨table₁, hone, h⟩ := bind_eq_ok.mp h
      exact (ih h).trans (relocateSpeculativeBlock_count hb hone)
    · cases h
      rfl

end

theorem padSkippedBlocks_count (table : List Nat) (numSkipped checkpointBlock : Nat) (hb : b ≠ 0) :
    (padSkippedBlocks table numSkipped checkpointBlock).count b = table.count b := by
  unfold padSkippedBlocks
  split
  · rw [count_append, count_replicate_null hb, Nat.add_zero]
  · rfl

omit [DecidableEq R] [DecidableEq H] in
/-- Before new blocks are taken, a table in the "align" mode gets null blocks only. -/
theorem alignedTable_count {numRequired checkpointBlock : Nat} (hb : b ≠ 0)
    (h : alignedTable mp v r numRequired checkpointBlock = .ok table) :
    table.count b = (v.mgr.reqToBlocks r).count b := by
  unfold alignedTable at h
  split at h
  · exact (relocateLoop_count hb h).trans (padSkippedBlocks_count _ _ _ hb)
  · cases h
    exact padSkippedBlocks_count _ _ _ hb

/-- Only null blocks are cut off. -/
theorem isNull_of_mem_take_nullHeadLen
    (hmem : b ∈ blocks.take (nullHeadLen isNull blocks)) : isNull b = true := by
  unfold nullHeadLen at hmem
  split at hmem
  · dsimp only at hmem
    split at hmem
    · rename_i hall
      exact all_eq_true.mp hall b hmem
    obtain ⟨i, hi, rfl⟩ := mem_take_iff_getElem.mp hmem
    have hnot := not_of_lt_findIdx (Nat.lt_of_lt_of_le hi (Nat.min_le_left _ _))
    simpa using hnot
  · cases hmem

theorem trimNullHead_count (blocks : List Nat) (hb : isNull b = false) :
    (trimNullHead isNull blocks).count b = blocks.count b := by
  have hnot : b ∉ blocks.take (nullHeadLen isNull blocks) := fun hmem =>
    Bool.false_ne_true (hb.symm.trans (isNull_of_mem_take_nullHeadLen hmem))
  calc (trimNullHead isNull blocks).count b
      = (blocks.take (nullHeadLen isNull blocks)).count b +
          (blocks.drop (nullHeadLen isNull blocks)).count b := by
        rw [count_eq_zero_of_not_mem hnot, Nat.zero_add]
        rfl
    _ = blocks.count b := by rw [← count_append, take_append_drop]

end Tables

/-! ## The base class -/

namespace Balanced

variable {g : Group} {enableCaching : Bool}
  {numLocal numExternal blockIdx source cow numTokens first last numHashLookaheadTokens : Nat}
  {new : List Nat × View R H}

section

variable (h : Balanced r tables out size hand v)
include h

omit [DecidableEq H] in
theorem baseAddLocalComputedBlocks (hblocks : ∀ b ∈ blocks, b < size)
    (hadd : baseAddLocalComputedBlocks enableCaching g v r blocks numLocal numExternal = .ok v') :
    Balanced r tables out size hand v' := by
  unfold KVCache.baseAddLocalComputedBlocks at hadd
  split at hadd
  · cases hadd
  rename_i hlen
  have hempty : v.mgr.reqToBlocks r = [] := length_eq_zero_iff.mp (not_not.mp hlen)
  generalize g.kind.getNumSkippedTokens (numLocal + numExternal) / g.blockSize = k at hadd
  obtain ⟨v₁, htouched, hadd⟩ := bind_eq_ok.mp hadd
  -- the hits that are kept are referenced, if there are any
  have hheld : Balanced r tables out size (blocks.drop k ++ hand) v₁ ∧ v₁.mgr = v.mgr := by
    split at htouched
    · exact h.touch (fun b hb => hblocks b (mem_of_mem_drop hb)) htouched
    split at htouched
    · rename_i hnil
      cases htouched
      rw [List.isEmpty_iff.mp hnil]
      exact ⟨h, rfl⟩
    · cases htouched
  obtain ⟨hheld, hmgr⟩ := hheld
  have hcount : ∀ b ≠ 0, (List.replicate k nullBlock ++ blocks.drop k).count b + hand.count b =
      (v₁.mgr.reqToBlocks r).count b + (blocks.drop k ++ hand).count b := by
    intro b hb
    rw [hmgr, hempty, count_append, count_append, count_replicate_null hb, count_nil]
    omega
  split at hadd
  all_goals
    cases hadd
    exact hheld.setTable rfl rfl rfl hcount

theorem baseAllocateExternalComputedBlocks
    (halloc : baseAllocateExternalComputedBlocks g v r numLocal numExternal = .ok v') :
    Balanced r tables out size hand v' := by
  unfold KVCache.baseAllocateExternalComputedBlocks at halloc
  dsimp only at halloc
  split at halloc
  · cases halloc
    exact h
  obtain ⟨⟨bs, v₁⟩, hnew, rfl⟩ := map_eq_ok.mp halloc
  obtain ⟨hbs, hmgr, -, -⟩ := getNewBlocks hnew h
  refine hbs.setTable rfl rfl rfl fun b _ => ?_
  dsimp only
  rw [hmgr, count_append, count_append]
  omega

omit h in
omit [DecidableEq H] in
/-- The table gives up its reference to the source for one to the copy; the copy
references both. -/
theorem applyCow (h : Balanced r tables out size (cow :: hand) v)
    (happly : applyCow v r blockIdx source cow = .ok v') :
    Balanced r tables out size hand v' := by
  unfold KVCache.applyCow at happly
  dsimp only at happly
  split at happly
  · rename_i hsource
    cases happly
    have hinc := h.incRef (b := cow) (by rw [count_cons_self]; omega)
    refine hinc.move rfl (fun r' hr' => update_of_ne hr' _ _) fun b hb => ?_
    have hset := count_set_add (b := b) (c := cow) hsource.1
    simp only [View.setBlocks, Manager.setBlocks, Manager.refs, Manager.copyEnds,
      update_self, flatMap_append, flatMap_singleton, count_append,
      count_cons, count_nil] at hset ⊢
    omega
  · cases happly

theorem redirectPartialHit (hredirect : redirectPartialHit v r = .ok new) :
    Balanced r tables out size hand new.2 := by
  unfold KVCache.redirectPartialHit at hredirect
  split at hredirect
  · cases hredirect
    exact h
  obtain ⟨⟨bs, v₁⟩, hnew, hredirect⟩ := bind_eq_ok.mp hredirect
  obtain ⟨hbs, -, hlen, -⟩ := getNewBlocks hnew (h.of_eq rfl rfl rfl)
  match bs, hlen with
  | [cow], _ =>
    obtain ⟨v₂, hcow, rfl⟩ := map_eq_ok.mp hredirect
    exact hbs.applyCow hcow

theorem baseAllocateNewBlocks (halloc : baseAllocateNewBlocks g v r numTokens = .ok new) :
    Balanced r tables out size hand new.2 := by
  obtain ⟨cow, hcow, halloc⟩ := bind_eq_ok.mp halloc
  have hredirect := h.redirectPartialHit hcow
  dsimp only at halloc
  split at halloc
  · cases halloc
    exact hredirect
  obtain ⟨⟨bs, v₁⟩, hnew, rfl⟩ := map_eq_ok.mp halloc
  obtain ⟨hbs, hmgr, -, -⟩ := getNewBlocks hnew hredirect
  refine hbs.setTable rfl rfl rfl fun b _ => ?_
  dsimp only
  rw [hmgr, count_append, count_append]
  omega

/-! ### Giving blocks back -/

section

omit [DecidableEq H]

theorem freeRange {skipNull : Bool} (hfree : v.freeRange r skipNull first last = .ok v') :
    Balanced r tables out size hand v' := by
  unfold View.freeRange at hfree
  generalize hremoved : removeLoop skipNull _ _ = removed at hfree
  have hset : Balanced r tables out size (removed.1 ++ hand) (v.setBlocks r removed.2) := by
    refine h.setTable rfl rfl rfl fun b hb => ?_
    have hcount := hremoved ▸ removeLoop_count skipNull _ _ hb
    rw [count_append]
    omega
  dsimp only at hfree
  split at hfree
  · rename_i hnil
    cases hfree
    rwa [List.isEmpty_iff.mp hnil] at hset
  · exact (hset.freeBlocks hfree).1

theorem baseRemoveBlocksInRange (hremove : baseRemoveBlocksInRange v r first last = .ok v') :
    Balanced r tables out size hand v' := by
  unfold KVCache.baseRemoveBlocksInRange at hremove
  split at hremove
  · cases hremove
    exact h
  · exact h.freeRange hremove

theorem mambaRemoveBlocksInRange (hremove : mambaRemoveBlocksInRange mp v r first last = .ok v') :
    Balanced r tables out size hand v' := by
  unfold KVCache.mambaRemoveBlocksInRange at hremove
  split at hremove
  · exact h.baseRemoveBlocksInRange hremove
  dsimp only at hremove
  split at hremove
  · cases hremove
    exact h
  · obtain ⟨v₁, hfree, rfl⟩ := map_eq_ok.mp hremove
    exact (h.freeRange hfree).of_eq rfl rfl rfl

end

omit h in
omit [DecidableEq R] [DecidableEq H] in
theorem baseRemoveSkippedBlocks {remove : View R H → R → Nat → Nat → Except Fault (View R H)}
    (hremove : ∀ {first last}, remove v r first last = .ok v' →
      Balanced r tables out size hand v')
    (h : Balanced r tables out size hand v)
    (hskipped : baseRemoveSkippedBlocks g v r n remove = .ok v') :
    Balanced r tables out size hand v' := by
  unfold KVCache.baseRemoveSkippedBlocks at hskipped
  dsimp only at hskipped
  split at hskipped
  · cases hskipped
    exact h
  · exact hremove hskipped

section

omit [DecidableEq H]

theorem removeLastState
    (hremove : removeLastState g v r n = .ok v') : Balanced r tables out size hand v' := by
  unfold KVCache.removeLastState at hremove
  split at hremove
  · cases hremove
    exact h
  split at hremove
  · split at hremove
    · cases hremove
    rename_i idx _ _ _ b hb
    split at hremove
    · cases hremove
      exact h
    obtain ⟨v₁, hfree, rfl⟩ := map_eq_ok.mp hremove
    -- seen from the end: the table without the block, and the block in the hand
    have hset : Balanced r tables out size ([b] ++ hand)
        (v.setBlocks r ((v.mgr.reqToBlocks r).set idx nullBlock)) := by
      refine h.setTable rfl rfl rfl fun c hc => ?_
      have hcount := count_set_add (b := c) (c := nullBlock) hb
      rw [count_nullBlock hc] at hcount
      rw [count_append]
      omega
    obtain ⟨p, hp, rfl⟩ := map_eq_ok.mp hfree
    exact (hset.freeBlocks (map_eq_ok.mpr ⟨p, hp, rfl⟩)).1
  · cases hremove
    exact h

theorem mambaRemoveSkippedBlocks (hremove : mambaRemoveSkippedBlocks g mp v r n = .ok v') :
    Balanced r tables out size hand v' := by
  obtain ⟨v₁, hbase, hremove⟩ := bind_eq_ok.mp hremove
  have h₁ := h.baseRemoveSkippedBlocks h.mambaRemoveBlocksInRange hbase
  split at hremove
  · exact h₁.removeLastState hremove
  · cases hremove
    exact h₁

/-- The blocks of the table come into the hand of the caller. -/
theorem basePopBlocksForFree :
    Balanced r tables out size ((basePopBlocksForFree v r).1 ++ hand)
      (basePopBlocksForFree v r).2 := by
  refine h.setTable rfl rfl rfl fun b hb => ?_
  rw [count_append, count_nil, KVCache.basePopBlocksForFree,
    trimNullHead_count _ (h.counts.isNull_eq_false hb), Nat.zero_add]

theorem popBlocksForFree :
    Balanced r tables out size ((popBlocksForFree g v r).1 ++ hand)
      (popBlocksForFree g v r).2 := by
  unfold KVCache.popBlocksForFree
  split
  · unfold mambaPopBlocksForFree
    split
    · apply basePopBlocksForFree
      exact h.of_eq rfl rfl rfl
    · exact h.basePopBlocksForFree
  · exact h.basePopBlocksForFree

theorem freeRequest (hfree : freeRequest g v r = .ok v') : Balanced r tables out size hand v' := by
  have hpopped := h.popBlocksForFree (g := g)
  refine (freeBlocks (hpopped.move rfl (fun _ _ => rfl) fun b _ => ?_) hfree).1
  rw [count_append, count_append, count_reverse]

theorem removeSkippedBlocks
    (hremove : removeSkippedBlocks g v r n = .ok v') : Balanced r tables out size hand v' := by
  unfold KVCache.removeSkippedBlocks at hremove
  split at hremove
  · exact h.mambaRemoveSkippedBlocks hremove
  · exact h.baseRemoveSkippedBlocks h.baseRemoveBlocksInRange hremove

end

/-! ## The Mamba manager -/

section

omit h

/-- A running request keeps the source; the copy takes the hashes over. -/
theorem alignedCow (h : Balanced r tables out size (cow :: hand) v)
    (hcow : cow ≠ 0) (halign : alignedCow v r blockIdx source cow = .ok v') :
    Balanced r tables out size hand v' := by
  unfold KVCache.alignedCow at halign
  split at halign
  · split at halign
    · cases halign
    rename_i hsource
    obtain ⟨p, hp, halign⟩ := bind_eq_ok.mp halign
    have hsteps := moveBlockHashes_steps (h.counts.isNull_eq_false hcow) (orFail_eq_ok.mp hp)
    have hmoved : Balanced r tables out size (cow :: hand) { v with pool := p } :=
      h.of_hashSteps hsteps rfl rfl
    dsimp only at halign
    split at halign
    · cases halign
    cases halign
    -- the source is in the table, so it is referenced
    have hmem := count_pos_iff.mpr (mem_of_getElem? (not_not.mp hsource))
    have hinc := hmoved.incRef (b := source) (by unfold Manager.refs; dsimp only; omega)
    refine hinc.move rfl (fun _ _ => rfl) fun b _ => ?_
    simp only [Manager.refs, Manager.copyEnds, flatMap_append, flatMap_singleton,
      count_append, count_cons, count_nil]
    omega
  · exact h.applyCow halign

omit [DecidableEq H] in
theorem appendNewBlocks (h : Balanced r tables out size (bs ++ hand) v) :
    Balanced r tables out size hand (v.appendNewBlocks r bs) := by
  refine h.setTable rfl rfl rfl fun b _ => ?_
  rw [count_append, count_append]
  omega

theorem placeNewBlocks {returned : List Nat}
    (h : Balanced r tables out size (bs ++ hand) v) (hne : ∀ b ∈ bs, b ≠ 0)
    (hplace : placeNewBlocks v r returned bs = .ok new) :
    Balanced r tables out size hand new.2 := by
  unfold KVCache.placeNewBlocks at hplace
  split at hplace
  · cases hplace
    exact h.appendNewBlocks
  · cases hplace
  · rename_i cow rest _
    obtain ⟨v₁, hcow, rfl⟩ := map_eq_ok.mp hplace
    exact (alignedCow h (hne cow mem_cons_self) hcow).appendNewBlocks

end

theorem alignAllocateNewBlocks (halloc : alignAllocateNewBlocks g mp v r n = .ok new) :
    Balanced r tables out size hand new.2 := by
  unfold KVCache.alignAllocateNewBlocks at halloc
  dsimp only at halloc
  split at halloc
  · cases halloc
    exact h.of_eq rfl rfl rfl
  obtain ⟨table, htable, halloc⟩ := bind_eq_ok.mp halloc
  split at halloc
  · cases halloc
  obtain ⟨⟨bs, v₁⟩, hnew, hplace⟩ := bind_eq_ok.mp halloc
  have hpadded : Balanced r tables out size hand (v.setBlocks r table) :=
    h.setTable rfl rfl rfl fun b hb => by rw [alignedTable_count hb htable]
  obtain ⟨hbs, -, -, hne⟩ := getNewBlocks hnew (hpadded.of_eq rfl rfl rfl)
  exact hbs.placeNewBlocks hne hplace

/-! ## The methods by kind -/

theorem getNumBlocksToAllocate {a : SlotArgs} {res : Int × View R H}
    (hget : getNumBlocksToAllocate g numHashLookaheadTokens v r blocks a = .ok res) :
    Balanced r tables out size hand res.2 := by
  unfold KVCache.getNumBlocksToAllocate at hget
  split at hget
  · unfold mambaNumBlocksToAllocate at hget
    dsimp only at hget
    split at hget
    · cases hget
      exact h
    split at hget
    · obtain ⟨n, -, rfl⟩ := map_eq_ok.mp hget
      exact h
    cases hget
    dsimp only
    split
    · exact h
    · exact h.of_eq rfl rfl rfl
  · obtain ⟨n, -, rfl⟩ := map_eq_ok.mp hget
    exact h

omit [DecidableEq H] in
theorem addLocalComputedBlocks (hblocks : ∀ b ∈ blocks, b < size)
    (hadd : addLocalComputedBlocks enableCaching g v r blocks numLocal numExternal = .ok v') :
    Balanced r tables out size hand v' := by
  unfold KVCache.addLocalComputedBlocks at hadd
  split at hadd
  · split at hadd
    · cases hadd
      exact h
    · cases hadd
  · exact h.baseAddLocalComputedBlocks hblocks hadd

theorem allocateExternalComputedBlocks
    (halloc : allocateExternalComputedBlocks g v r numLocal numExternal = .ok v') :
    Balanced r tables out size hand v' := by
  unfold KVCache.allocateExternalComputedBlocks at halloc
  split at halloc
  · cases halloc
    exact h
  · exact h.baseAllocateExternalComputedBlocks halloc

theorem allocateNewBlocks {numTokensMainModel : Nat}
    (halloc : allocateNewBlocks g v r numTokens numTokensMainModel = .ok new) :
    Balanced r tables out size hand new.2 := by
  unfold KVCache.allocateNewBlocks at halloc
  split at halloc
  · unfold mambaAllocateNewBlocks at halloc
    split at halloc
    · exact h.baseAllocateNewBlocks halloc
    · exact h.alignAllocateNewBlocks halloc
  · exact h.baseAllocateNewBlocks halloc

theorem cacheBlocks {gid : Nat} {req : Request R H} {a : CacheArgs}
    (hcache : cacheBlocks g gid numHashLookaheadTokens v req a = .ok v') :
    Balanced r tables out size hand v' := by
  have hlimit : ∀ c ∈ v.mgr.checkpoints req.requestId,
      c.1 ≤ (v.mgr.checkpoints req.requestId).elim 0 (·.1) := by
    rintro c hc
    rw [Option.mem_def.mp hc]
    exact Nat.le_refl _
  have hcaches := cacheBlocks_caches hlimit hcache
  exact h.of_hashSteps hcaches.steps hcaches.reqToBlocks hcaches.pendingCowCopies

end

end Balanced

end Vllm.KVCache
