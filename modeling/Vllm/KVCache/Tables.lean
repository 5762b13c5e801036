import Vllm.KVCache.Ownership

/-!
# Block tables of attention groups

In an attention group the table of a request is a run of null blocks, where the
window has moved on, and then real blocks (`Row`). This module says what each stage
of `allocate_slots` does to the table of one group: `Exact.forManagers_at` takes the
turn of a group out of a loop over all groups, and the `row_*` lemmas follow the two
lengths of the table through the methods of the base class.
-/

namespace Vllm.KVCache

open Function Library Pool.BlockPool List

variable {R H : Type} [DecidableEq R] [DecidableEq H] {n numTokens numTokensMainModel : Nat}
  {a : SlotArgs}

/-! ## Rows -/

/-- `nulls` null blocks and then `held` real ones. -/
def Row (table : List Nat) (nulls held : Nat) : Prop :=
  ∃ real, table = List.replicate nulls nullBlock ++ real ∧ real.length = held ∧ nullBlock ∉ real

/-- The blocks of a table that are not null. -/
def heldBlocks (table : List Nat) : Nat := table.countP (· ≠ nullBlock)

namespace Row

variable {table : List Nat} {nulls held : Nat}

theorem nil : Row [] 0 0 := ⟨[], rfl, rfl, not_mem_nil⟩

section

variable (h : Row table nulls held)
include h

theorem length_eq : table.length = nulls + held := by
  obtain ⟨real, rfl, rfl, -⟩ := h
  rw [length_append, length_replicate]

theorem heldBlocks_eq : heldBlocks table = held := by
  obtain ⟨real, rfl, rfl, hreal⟩ := h
  have hall : real.countP (· ≠ nullBlock) = real.length := by
    refine countP_eq_length.mpr fun b hb => ?_
    have hne : b ≠ nullBlock := fun heq => hreal (heq ▸ hb)
    simpa using hne
  rw [heldBlocks, countP_append, hall, countP_replicate, if_neg (by simp), Nat.zero_add]

theorem append {bs : List Nat} (hbs : ∀ b ∈ bs, b ≠ 0) :
    Row (table ++ bs) nulls (held + bs.length) := by
  obtain ⟨real, rfl, rfl, hreal⟩ := h
  refine ⟨real ++ bs, append_assoc _ _ _, length_append, fun hmem => ?_⟩
  cases mem_append.mp hmem with
  | inl hin => exact hreal hin
  | inr hin => exact hbs _ hin rfl

/-- A real block in the place of another one. -/
theorem set {i a c : Nat} (hi : table[i]? = some a)
    (ha : a ≠ nullBlock) (hc : c ≠ nullBlock) : Row (table.set i c) nulls held := by
  obtain ⟨real, rfl, rfl, hreal⟩ := h
  have hle : nulls ≤ i := by
    by_contra hlt
    rw [getElem?_append_left (by simpa using hlt), getElem?_replicate,
      if_pos (Nat.lt_of_not_le hlt)] at hi
    exact ha (Option.some.inj hi).symm
  refine ⟨real.set (i - nulls) c, ?_, length_set, fun hmem => ?_⟩
  · rw [set_append_right _ _ (by simpa using hle), length_replicate]
  · cases mem_or_eq_of_mem_set hmem with
    | inl hin => exact hreal hin
    | inr heq => exact hc heq.symm

/-- The hits behind the skipped blocks, with null blocks in the place of the others. -/
theorem skip (n : Nat) :
    Row (List.replicate n nullBlock ++ table.drop n) (max n nulls) (held - (n - nulls)) := by
  obtain ⟨real, rfl, rfl, hreal⟩ := h
  refine ⟨real.drop (n - nulls), ?_, length_drop, fun hmem => hreal (mem_of_mem_drop hmem)⟩
  rw [drop_append, drop_replicate, length_replicate, ← append_assoc, replicate_append_replicate]
  congr 2
  omega

end

end Row

/-- Blocks of the table became null. -/
def Shrinks (table table' : List Nat) : Prop :=
  ∀ nulls held, Row table nulls held → ∃ nulls' held', Row table' nulls' held' ∧
    nulls ≤ nulls' ∧ nulls' + held' = nulls + held

theorem Shrinks.of_eq {table table' : List Nat} (h : table' = table) : Shrinks table table' :=
  fun nulls held hrow => ⟨nulls, held, h ▸ hrow, Nat.le_refl _, rfl⟩

/-- The loop from the end of a null head and real blocks behind it: these are freed,
last first. -/
theorem removeLoop_append (nulls : Nat) (mid rest : List Nat) (hmid : nullBlock ∉ mid) :
    removeLoop false (List.range' 0 (nulls + mid.length)).reverse
        (List.replicate nulls nullBlock ++ mid ++ rest) =
      (mid.reverse, List.replicate (nulls + mid.length) nullBlock ++ rest) := by
  induction mid using List.reverseRecOn generalizing rest with
  | nil =>
    cases nulls with
    | zero => rfl
    | succ n =>
      -- the first entry that the loop looks at is null
      have hlast : (List.replicate (n + 1) nullBlock ++ [] ++ rest)[n]? = some nullBlock := by
        rw [append_nil, getElem?_append_left (by simp), getElem?_replicate,
          if_pos (Nat.lt_succ_self n)]
      rw [length_nil, range'_1_concat, reverse_concat, Nat.zero_add]
      simp only [removeLoop, hlast]
      rw [append_nil]
      rfl
  | append_singleton mid b ih =>
    have hb : b ≠ nullBlock := fun heq => hmid (heq ▸ mem_append_right _ mem_cons_self)
    have hmid' : nullBlock ∉ mid := fun hin => hmid (mem_append_left _ hin)
    have hsplit : List.replicate nulls nullBlock ++ (mid ++ [b]) ++ rest =
        (List.replicate nulls nullBlock ++ mid) ++ b :: rest := by simp
    have hlen : (List.replicate nulls nullBlock ++ mid).length = nulls + mid.length := by simp
    have hget : ((List.replicate nulls nullBlock ++ mid) ++ b :: rest)[nulls + mid.length]? =
        some b := by
      rw [getElem?_append_right (Nat.le_of_eq hlen), hlen, Nat.sub_self]
      rfl
    have hset : ((List.replicate nulls nullBlock ++ mid) ++ b :: rest).set
        (nulls + mid.length) nullBlock =
        List.replicate nulls nullBlock ++ mid ++ nullBlock :: rest := by
      rw [set_append_right _ _ (Nat.le_of_eq hlen), hlen, Nat.sub_self]
      rfl
    rw [hsplit, length_append, length_singleton, ← Nat.add_assoc,
      range'_1_concat, reverse_concat, Nat.zero_add]
    simp only [removeLoop, hget, hb, if_false, hset, ih _ hmid']
    rw [reverse_concat, replicate_succ', append_assoc, singleton_append]

theorem Row.removeLoop {table : List Nat} {nulls held : Nat} (h : Row table nulls held)
    (hn : n ≤ nulls + held) :
    Row (removeLoop false (List.range' 0 n).reverse table).2 (max n nulls)
      (held - (n - nulls)) := by
  obtain ⟨real, rfl, rfl, hreal⟩ := h
  by_cases hle : n ≤ nulls
  · -- nothing behind the null head is reached
    have hsplit : List.replicate nulls nullBlock ++ real =
        List.replicate n nullBlock ++ [] ++ (List.replicate (nulls - n) nullBlock ++ real) := by
      rw [append_nil, ← append_assoc, replicate_append_replicate, Nat.add_sub_cancel' hle]
    have hloop := removeLoop_append n [] (List.replicate (nulls - n) nullBlock ++ real)
      not_mem_nil
    rw [length_nil, Nat.add_zero, ← hsplit] at hloop
    rw [hloop]
    refine ⟨real, ?_, by omega, hreal⟩
    rw [← append_assoc, replicate_append_replicate, Nat.add_sub_cancel' hle, Nat.max_eq_right hle]
  · have hlen : (real.take (n - nulls)).length = n - nulls := by
      rw [length_take]
      omega
    have hloop := removeLoop_append nulls (real.take (n - nulls)) (real.drop (n - nulls))
      fun hin => hreal (mem_of_mem_take hin)
    rw [hlen, append_assoc, take_append_drop, Nat.add_sub_cancel' (by omega)] at hloop
    rw [hloop]
    refine ⟨real.drop (n - nulls), ?_, length_drop, fun hin => hreal (mem_of_mem_drop hin)⟩
    rw [Nat.max_eq_left (by omega)]

/-! ## What comes to a table -/

/-- Free blocks come to the end of the table of `r`. -/
structure Extends (r : R) (bs : List Nat) (v v' : View R H) : Prop where
  mgr : v'.mgr = v.mgr.setBlocks r (v.mgr.reqToBlocks r ++ bs)
  fresh : ∀ b ∈ bs, b ≠ 0 ∧ (v.pool.blocks b).refCnt = 0
  refCnt : ∀ b, (v'.pool.blocks b).refCnt ≤ max 1 (v.pool.blocks b).refCnt

/-- The blocks that request `r` and the copies reference afterwards they did before, or they
are among `new`. -/
structure Takes (r : R) (new : List Nat) (m m' : Manager R H) : Prop where
  tables : ∀ r' ≠ r, m'.reqToBlocks r' = m.reqToBlocks r'
  partialHits : ∀ r' ≠ r, m'.partialHitReqs r' = m.partialHitReqs r'
  uses : ∀ b ≠ 0, b ∈ m'.reqToBlocks r ∨ b ∈ m'.copyEnds →
    (b ∈ m.reqToBlocks r ∨ b ∈ m.copyEnds) ∨ b ∈ new

section Relations

variable {r : R} {bs new new' : List Nat} {v v' : View R H} {m m' m'' : Manager R H}
  {nulls held : Nat}

omit [DecidableEq H]

theorem Manager.setBlocks_self (m : Manager R H) (r : R) :
    m.setBlocks r (m.reqToBlocks r) = m := by
  rw [Manager.setBlocks, update_eq_self]

theorem Manager.setBlocks_table (m : Manager R H) (r : R) (table : List Nat) :
    (m.setBlocks r table).reqToBlocks r = table := update_self ..

theorem Extends.refl (r : R) (v : View R H) : Extends r [] v v :=
  ⟨by rw [append_nil, Manager.setBlocks_self], nofun, fun _ => Nat.le_max_right _ _⟩

theorem Extends.table_eq (h : Extends r bs v v') :
    v'.mgr.reqToBlocks r = v.mgr.reqToBlocks r ++ bs := by
  rw [h.mgr, Manager.setBlocks_table]

theorem Extends.row (h : Extends r bs v v') (hrow : Row (v.mgr.reqToBlocks r) nulls held) :
    Row (v'.mgr.reqToBlocks r) nulls (held + bs.length) := by
  rw [h.table_eq]
  exact hrow.append fun b hb => (h.fresh b hb).1

theorem Extends.takes (h : Extends r bs v v') : Takes r bs v.mgr v'.mgr := by
  rw [h.mgr]
  refine ⟨fun r' hr' => update_of_ne hr' .., fun _ _ => rfl, fun b _ huses => ?_⟩
  rw [Manager.setBlocks_table, mem_append] at huses
  obtain (hold | hnew) | hcopies := huses
  · exact .inl (.inl hold)
  · exact .inr hnew
  · exact .inl (.inr hcopies)

omit [DecidableEq R] in
theorem Takes.trans (h : Takes r new m m') (h' : Takes r new' m' m'') :
    Takes r (new ++ new') m m'' := by
  refine ⟨fun r' hr' => (h'.tables r' hr').trans (h.tables r' hr'),
    fun r' hr' => (h'.partialHits r' hr').trans (h.partialHits r' hr'), fun b hb huses => ?_⟩
  obtain huses | hnew := h'.uses b hb huses
  · exact (h.uses b hb huses).imp id (mem_append_left _)
  · exact .inr (mem_append_right _ hnew)

end Relations

/-! ## The methods of the base class -/

/-- Full attention, sliding window and chunked local attention: the kinds whose manager
overrides no method that changes a table. -/
def Kind.isAttention : Kind → Bool
  | .fullAttention | .slidingWindow _ _ | .chunkedLocal _ => true
  | .mamba _ | .crossAttention => false

section Methods

variable {r : R} {v v' : View R H} {tables : R → List Nat} {out : Nat → Nat} {size : Nat}
  {g : Group} {nulls held : Nat} {first last numLocal numExternal : Nat} {blocks : List Nat}
  {new : List Nat × View R H}

section

omit [DecidableEq H]

theorem removeSkippedBlocks_eq (hk : g.kind.isAttention = true) :
    removeSkippedBlocks g v r n = baseRemoveSkippedBlocks g v r n baseRemoveBlocksInRange := by
  unfold removeSkippedBlocks
  split
  · simp_all [Kind.isAttention]
  · rfl

theorem addLocalComputedBlocks_eq {enableCaching : Bool} (hk : g.kind.isAttention = true) :
    addLocalComputedBlocks enableCaching g v r blocks numLocal numExternal =
      baseAddLocalComputedBlocks enableCaching g v r blocks numLocal numExternal := by
  unfold addLocalComputedBlocks
  split
  · simp_all [Kind.isAttention]
  · rfl

theorem freeRange_eq {skipNull : Bool} (h : v.freeRange r skipNull first last = .ok v') :
    v'.mgr = v.mgr.setBlocks r (removeLoop skipNull
      (List.range' first (last - first)).reverse (v.mgr.reqToBlocks r)).2 := by
  unfold View.freeRange at h
  dsimp only at h
  split at h
  · cases h
    rfl
  · obtain ⟨p, -, rfl⟩ := map_eq_ok.mp h
    rfl

/-- The blocks that left the window become null. -/
theorem removeSkippedBlocks_mgr (hk : g.kind.isAttention = true)
    (h : removeSkippedBlocks g v r n = .ok v') :
    v'.mgr = v.mgr.setBlocks r (removeLoop false (List.range' 0
      (min (g.kind.getNumSkippedTokens n / g.blockSize) (v.mgr.reqToBlocks r).length)).reverse
      (v.mgr.reqToBlocks r)).2 := by
  rw [removeSkippedBlocks_eq hk] at h
  unfold baseRemoveSkippedBlocks baseRemoveBlocksInRange at h
  dsimp only at h
  split at h
  · rename_i hskip
    cases h
    rw [hskip, Nat.zero_div, Nat.zero_min]
    exact (v.mgr.setBlocks_self r).symm
  split at h
  · rename_i hzero
    cases h
    rw [Nat.le_zero.mp hzero]
    exact (v.mgr.setBlocks_self r).symm
  · rw [freeRange_eq h, Nat.sub_zero, Nat.min_assoc, Nat.min_self]

theorem Row.removeSkippedBlocks (hrow : Row (v.mgr.reqToBlocks r) nulls held)
    (hk : g.kind.isAttention = true) (h : removeSkippedBlocks g v r n = .ok v') :
    Row (v'.mgr.reqToBlocks r)
      (max (min (g.kind.getNumSkippedTokens n / g.blockSize) (nulls + held)) nulls)
      (held - (min (g.kind.getNumSkippedTokens n / g.blockSize) (nulls + held) - nulls)) := by
  rw [removeSkippedBlocks_mgr hk h, hrow.length_eq, Manager.setBlocks_table]
  exact hrow.removeLoop (Nat.min_le_right _ _)

/-- The hits of a new request come behind null blocks for what its window skips, and the last
one may be a partial hit. -/
theorem addLocalComputedBlocks_spec {enableCaching : Bool} (hk : g.kind.isAttention = true)
    (h : addLocalComputedBlocks enableCaching g v r blocks numLocal numExternal = .ok v') :
    let skipped := g.kind.getNumSkippedTokens (numLocal + numExternal) / g.blockSize
    v'.mgr.reqToBlocks = update v.mgr.reqToBlocks r
        (List.replicate skipped nullBlock ++ blocks.drop skipped) ∧
      v'.mgr.pendingCowCopies = v.mgr.pendingCowCopies ∧
      (∀ r' ≠ r, v'.mgr.partialHitReqs r' = v.mgr.partialHitReqs r') ∧
      (v.mgr.partialHitReqs r = none → (v'.mgr.partialHitReqs r).isSome →
        g.hasPartialLocalHit blocks numLocal = true) := by
  rw [addLocalComputedBlocks_eq hk] at h
  unfold baseAddLocalComputedBlocks at h
  split at h
  · cases h
  dsimp only at h ⊢
  generalize g.kind.getNumSkippedTokens (numLocal + numExternal) / g.blockSize = skipped at h ⊢
  obtain ⟨v₁, htouched, h⟩ := bind_eq_ok.mp h
  have hmgr : v₁.mgr = v.mgr := by
    split at htouched
    · obtain ⟨p, -, rfl⟩ := map_eq_ok.mp htouched
      rfl
    split at htouched
    · cases htouched
      rfl
    · cases htouched
  rw [← hmgr]
  split at h
  · rename_i hwaits
    cases h
    refine ⟨rfl, rfl, fun r' hr' => update_of_ne hr' .., fun _ _ => ?_⟩
    cases blocks with
    | nil => simp [Group.hasPartialLocalHit] at hwaits
    | cons b blocks =>
      simp only [Group.hasPartialLocalHit, Bool.and_eq_true] at hwaits ⊢
      exact ⟨rfl, hwaits.2⟩
  · cases h
    refine ⟨rfl, rfl, fun _ _ => rfl, fun hnone hsome => ?_⟩
    rw [View.setBlocks, Manager.setBlocks, hnone] at hsome
    cases hsome

end

theorem allocateExternalComputedBlocks_eq (hk : g.kind.isAttention = true) :
    allocateExternalComputedBlocks g v r numLocal numExternal =
      baseAllocateExternalComputedBlocks g v r numLocal numExternal := by
  unfold allocateExternalComputedBlocks
  split
  · simp_all [Kind.isAttention]
  · rfl

theorem allocateNewBlocks_eq (hk : g.kind.isAttention = true) :
    allocateNewBlocks g v r numTokens numTokensMainModel =
      baseAllocateNewBlocks g v r numTokens := by
  unfold allocateNewBlocks
  split
  · simp_all [Kind.isAttention]
  · rfl

theorem getNumBlocksToAllocate_eq_base {numHashLookaheadTokens : Nat}
    (hk : g.kind.isAttention = true) :
    getNumBlocksToAllocate g numHashLookaheadTokens v r blocks a =
      (baseNumBlocksToAllocate g v r blocks a).map fun n => ((n : Int), v) := by
  unfold getNumBlocksToAllocate
  split
  · simp_all [Kind.isAttention]
  · rfl

section

variable (hv : Balanced r tables out size [] v)
include hv

/-- New blocks at the end of a table. -/
theorem extends_getNewBlocks (h : v.getNewBlocks n = .ok new) :
    Extends r new.1 v (new.2.setBlocks r (v.mgr.reqToBlocks r ++ new.1)) ∧ new.1.length = n := by
  obtain ⟨-, hmgr, hlen, hne⟩ := Balanced.getNewBlocks h hv
  unfold View.getNewBlocks at h
  split at h
  · cases h
  obtain ⟨res, hres, rfl⟩ := map_eq_ok.mp h
  obtain ⟨-, -, -, halloc⟩ := getNewBlocks_eq_some hv.counts.inv.free (orFail_eq_ok.mp hres)
  refine ⟨⟨rfl, fun b hb => ⟨hne b hb, (halloc.isFree b hb).2.2⟩, fun b => ?_⟩, hlen⟩
  show (res.2.blocks b).refCnt ≤ _
  rw [halloc.refCnt]
  split
  · exact Nat.le_max_left _ _
  · exact Nat.le_max_right _ _

theorem extends_allocateExternalComputedBlocks (hk : g.kind.isAttention = true)
    (h : allocateExternalComputedBlocks g v r numLocal numExternal = .ok v') :
    ∃ bs, Extends r bs v v' ∧
      bs.length ≤ cdiv (numLocal + numExternal) g.blockSize - (v.mgr.reqToBlocks r).length := by
  rw [allocateExternalComputedBlocks_eq hk] at h
  unfold baseAllocateExternalComputedBlocks at h
  dsimp only at h
  split at h
  · cases h
    exact ⟨[], .refl r v, Nat.zero_le _⟩
  obtain ⟨new, hnew, rfl⟩ := map_eq_ok.mp h
  obtain ⟨hextends, hlen⟩ := extends_getNewBlocks hv hnew
  exact ⟨new.1, hextends, Nat.le_of_eq hlen⟩

/-- A partial hit gets a copy in its place. -/
theorem redirectPartialHit_spec (h : redirectPartialHit v r = .ok new) :
    ∃ bs, Takes r bs v.mgr new.2.mgr ∧
      bs.length = (if (v.mgr.partialHitReqs r).isSome then 1 else 0) ∧
      new.2.mgr.partialHitReqs r = none ∧
      ∀ nulls held, Row (v.mgr.reqToBlocks r) nulls held →
        Row (new.2.mgr.reqToBlocks r) nulls held := by
  unfold redirectPartialHit at h
  split at h
  · rename_i hnone
    cases h
    exact ⟨[], (Extends.refl r v).takes, by simp [hnone], hnone, fun _ _ hrow => hrow⟩
  rename_i blockIdx source hsome
  obtain ⟨⟨bs, v₁⟩, hnew, h⟩ := bind_eq_ok.mp h
  obtain ⟨hv₁, hmgr, hlen, hne⟩ := Balanced.getNewBlocks hnew (hv.of_eq rfl rfl rfl)
  match bs, hlen with
  | [cow], _ =>
    obtain ⟨v₂, hcow, rfl⟩ := map_eq_ok.mp h
    unfold applyCow at hcow
    dsimp only at hcow
    split at hcow
    · rename_i hsource
      cases hcow
      have hnull : source ≠ nullBlock := fun heq =>
        Bool.false_ne_true (hsource.2.1.symm.trans ((hv₁.counts.inv.null source).mpr heq))
      rw [hmgr] at hsource
      simp only [View.setBlocks, Manager.setBlocks, hmgr, update_self, hsome]
      refine ⟨[cow], ⟨fun r' hr' => update_of_ne hr' .., fun r' hr' => update_of_ne hr' ..,
        fun b hb huses => ?_⟩, rfl, trivial, fun nulls held hrow => ?_⟩
      · simp only [update_self, Manager.copyEnds, flatMap_append, flatMap_singleton, mem_append,
          mem_cons, not_mem_nil, or_false] at huses ⊢
        obtain hmem | hcopies | rfl | rfl := huses
        · exact (mem_or_eq_of_mem_set hmem).imp .inl id
        · exact .inl (.inr hcopies)
        · exact .inl (.inl (mem_of_getElem? hsource.1))
        · exact .inr rfl
      · exact hrow.set hsource.1 hnull (hne cow mem_cons_self)
    · cases hcow

/-- The rest of `allocate_new_blocks`, once the partial hit has its copy. -/
theorem extends_of_redirected {cow : List Nat × View R H} (hcow : redirectPartialHit v r = .ok cow)
    (hk : g.kind.isAttention = true)
    (h : allocateNewBlocks g v r numTokens numTokensMainModel = .ok new) :
    ∃ bs, Extends r bs cow.2 new.2 ∧
      bs.length = cdiv numTokens g.blockSize - (cow.2.mgr.reqToBlocks r).length := by
  rw [allocateNewBlocks_eq hk] at h
  obtain ⟨cow', hcow', h⟩ := bind_eq_ok.mp h
  cases hcow'.symm.trans hcow
  dsimp only at h
  split at h
  · cases h
    exact ⟨[], .refl r _, by rw [length_nil]; omega⟩
  obtain ⟨new', hnew, rfl⟩ := map_eq_ok.mp h
  exact ⟨new'.1, extends_getNewBlocks (hv.redirectPartialHit hcow) hnew⟩

theorem allocateNewBlocks_spec (hk : g.kind.isAttention = true)
    (h : allocateNewBlocks g v r numTokens numTokensMainModel = .ok new) :
    ∃ bs, Takes r bs v.mgr new.2.mgr ∧ new.2.mgr.partialHitReqs r = none ∧
      ∀ nulls held, Row (v.mgr.reqToBlocks r) nulls held →
        Row (new.2.mgr.reqToBlocks r) nulls
          (held + (cdiv numTokens g.blockSize - (nulls + held))) ∧
        bs.length = (if (v.mgr.partialHitReqs r).isSome then 1 else 0) +
          (cdiv numTokens g.blockSize - (nulls + held)) := by
  have hbase := h
  rw [allocateNewBlocks_eq hk] at hbase
  obtain ⟨cow, hcow, -⟩ := bind_eq_ok.mp hbase
  obtain ⟨bs, htakes, hlen, hnone, hrows⟩ := redirectPartialHit_spec hv hcow
  obtain ⟨bs', hextends, hlen'⟩ := extends_of_redirected hv hcow hk h
  refine ⟨bs ++ bs', htakes.trans hextends.takes, by rw [hextends.mgr]; exact hnone,
    fun nulls held hrow => ?_⟩
  have hrow' := hrows nulls held hrow
  rw [hrow'.length_eq] at hlen'
  rw [length_append, hlen, hlen']
  exact ⟨hlen' ▸ hextends.row hrow', rfl⟩

end

section

omit [DecidableEq H]

theorem baseRemoveBlocksInRange_numCachedBlock
    (h : baseRemoveBlocksInRange v r first last = .ok v') :
    v'.mgr.numCachedBlock = v.mgr.numCachedBlock := by
  unfold baseRemoveBlocksInRange at h
  split at h
  · cases h
    rfl
  · rw [freeRange_eq h]
    rfl

theorem mambaRemoveBlocksInRange_numCachedBlock {mp : MambaParams}
    (h : mambaRemoveBlocksInRange mp v r first last = .ok v') :
    v'.mgr.numCachedBlock = v.mgr.numCachedBlock := by
  unfold mambaRemoveBlocksInRange at h
  split at h
  · exact baseRemoveBlocksInRange_numCachedBlock h
  dsimp only at h
  split at h
  · cases h
    rfl
  obtain ⟨v₁, hfree, rfl⟩ := map_eq_ok.mp h
  rw [freeRange_eq hfree]
  rfl

end

omit [DecidableEq R] [DecidableEq H] in
theorem baseRemoveSkippedBlocks_numCachedBlock
    {remove : View R H → R → Nat → Nat → Except Fault (View R H)}
    (hremove : ∀ {first last}, remove v r first last = .ok v' →
      v'.mgr.numCachedBlock = v.mgr.numCachedBlock)
    (h : baseRemoveSkippedBlocks g v r n remove = .ok v') :
    v'.mgr.numCachedBlock = v.mgr.numCachedBlock := by
  unfold baseRemoveSkippedBlocks at h
  dsimp only at h
  split at h
  · cases h
    rfl
  · exact hremove h

section

omit [DecidableEq H]

theorem removeLastState_numCachedBlock (h : removeLastState g v r n = .ok v') :
    v'.mgr.numCachedBlock = v.mgr.numCachedBlock := by
  unfold removeLastState at h
  split at h
  · cases h
    rfl
  split at h
  · split at h
    · cases h
    split at h
    · cases h
      rfl
    obtain ⟨v₁, hfree, rfl⟩ := map_eq_ok.mp h
    obtain ⟨p, -, rfl⟩ := map_eq_ok.mp hfree
    rfl
  · cases h
    rfl

/-- Freeing does not make a request known to its manager, or unknown. -/
theorem removeSkippedBlocks_numCachedBlock (h : removeSkippedBlocks g v r n = .ok v') :
    v'.mgr.numCachedBlock = v.mgr.numCachedBlock := by
  unfold removeSkippedBlocks at h
  split at h
  · obtain ⟨v₁, hbase, h⟩ := bind_eq_ok.mp h
    have h₁ := baseRemoveSkippedBlocks_numCachedBlock mambaRemoveBlocksInRange_numCachedBlock hbase
    split at h
    · rw [removeLastState_numCachedBlock h, h₁]
    · cases h
      exact h₁
  · exact baseRemoveSkippedBlocks_numCachedBlock baseRemoveBlocksInRange_numCachedBlock h

/-- The table of `r` is emptied. -/
structure Popped (r : R) (m m' : Manager R H) : Prop where
  reqToBlocks : m'.reqToBlocks = update m.reqToBlocks r []
  pendingCowCopies : m'.pendingCowCopies = m.pendingCowCopies
  partialHitReqs : m'.partialHitReqs = update m.partialHitReqs r none

theorem popBlocksForFree_popped (hk : g.kind.isAttention = true) :
    Popped r v.mgr (popBlocksForFree g v r).2.mgr := by
  unfold popBlocksForFree
  split
  · simp_all [Kind.isAttention]
  · exact ⟨rfl, rfl, rfl⟩

end

/-- Hashing makes no partial hit. -/
theorem cacheBlocks_partialHitReqs {gid numHashLookaheadTokens : Nat} {req : Request R H}
    {a : CacheArgs} (hk : g.kind.isAttention = true)
    (h : cacheBlocks g gid numHashLookaheadTokens v req a = .ok v') :
    v'.mgr.partialHitReqs = v.mgr.partialHitReqs := by
  have hbase : ∀ {v₁}, baseCacheBlocks g gid v req a = .ok v₁ →
      v₁.mgr.partialHitReqs = v.mgr.partialHitReqs := by
    intro v₁ h
    unfold baseCacheBlocks at h
    dsimp only at h
    split at h
    · cases h
      rfl
    split at h
    · cases h
      rfl
    obtain ⟨p, -, rfl⟩ := map_eq_ok.mp h
    rfl
  unfold cacheBlocks at h
  split at h
  · obtain ⟨v₁, hv₁, h⟩ := bind_eq_ok.mp h
    rw [← hbase hv₁]
    split at h
    · cases h
      rfl
    unfold fullCachePartialTailBlock at h
    dsimp only at h
    generalize (if g.useEagle = true then _ else _) = tokenLimit at h
    split at h
    · cases h
      rfl
    split at h
    · cases h
      rfl
    · obtain ⟨res, hres, rfl⟩ := map_eq_ok.mp h
      obtain ⟨p, -, rfl⟩ := map_eq_ok.mp hres
      rfl
  · simp_all [Kind.isAttention]
  · cases h
  · exact hbase h

/-- Counting reserves a checkpoint at most. -/
theorem getNumBlocksToAllocate_eq {numHashLookaheadTokens : Nat} {res : Int × View R H}
    (h : getNumBlocksToAllocate g numHashLookaheadTokens v r blocks a = .ok res) :
    res.2.mgr.numCachedBlock = v.mgr.numCachedBlock ∧
      res.2.mgr.reqToBlocks = v.mgr.reqToBlocks := by
  unfold getNumBlocksToAllocate at h
  split at h
  · unfold mambaNumBlocksToAllocate at h
    dsimp only at h
    split at h
    · cases h
      exact ⟨rfl, rfl⟩
    split at h
    · obtain ⟨n, -, rfl⟩ := map_eq_ok.mp h
      exact ⟨rfl, rfl⟩
    cases h
    dsimp only
    split <;> exact ⟨rfl, rfl⟩
  · obtain ⟨n, -, rfl⟩ := map_eq_ok.mp h
    exact ⟨rfl, rfl⟩

end Methods

/-! ## The turn of one group -/

namespace KVCacheManager

variable {cfg : Config} {s s' : KVCacheManager R H} {rs : Finset R} {size i : Nat} {r : R}
  {extra : List Nat} {g : Group} {blocks : Nat → List Nat}
  {f : Group → Nat → View R H → Except Fault (View R H)} {numEncoderTokens : Nat}

section

omit [DecidableEq R] [DecidableEq H]

/-- A group has no turn in a loop over other groups. -/
theorem foldlM_setView_of_notMem {groups : List (Group × Nat)} (hi : i ∉ groups.map Prod.snd)
    (h : groups.foldlM (fun s g => (f g.1 g.2 (s.view g.2)).map (s.setView g.2)) s = .ok s') :
    s'.managers i = s.managers i := by
  refine foldlM_ok_induct (P := fun s₁ : KVCacheManager R H => s₁.managers i = s.managers i)
    (fun gi hgi s₁ s₂ hs₁ hs₂ => ?_) rfl h
  obtain ⟨v, -, rfl⟩ := map_eq_ok.mp hs₂
  have hne : i ≠ gi.2 := fun heq => hi (mem_map.mpr ⟨gi, hgi, heq.symm⟩)
  rw [setView_of_ne _ hne, hs₁]

/-- In a loop over the managers each group has one turn, in a state with the invariant `P` of
the loop. -/
theorem forManagers_turn {P : KVCacheManager R H → Prop} (hs : P s)
    (hstep : ∀ s₁ g i v, i < cfg.groups.length → P s₁ → f g i (s₁.view i) = .ok v →
      P (s₁.setView i v))
    (hfor : s.forManagers cfg f = .ok s') (hg : cfg.groups[i]? = some g) :
    ∃ s₁ v, P s₁ ∧ s₁.managers i = s.managers i ∧ f g i (s₁.view i) = .ok v ∧
      v.mgr = s'.managers i := by
  have hmem : (g, i) ∈ cfg.groups.zipIdx := mem_zipIdx_iff_getElem?.mpr hg
  have hlt : ∀ gi ∈ cfg.groups.zipIdx, gi.2 < cfg.groups.length :=
    fun gi hgi => (mem_zipIdx' hgi).1
  have hnodup : (cfg.groups.zipIdx.map Prod.snd).Nodup := by
    rw [zipIdx_map_snd]
    exact nodup_range'
  unfold KVCacheManager.forManagers at hfor
  generalize cfg.groups.zipIdx = groups at hmem hlt hnodup hfor
  induction groups generalizing s with
  | nil => cases hmem
  | cons gi groups ih =>
    obtain ⟨s₁, hs₁, hfor⟩ := bind_eq_ok.mp hfor
    obtain ⟨v, hv, rfl⟩ := map_eq_ok.mp hs₁
    rw [map_cons, nodup_cons] at hnodup
    cases mem_cons.mp hmem with
    | inl heq =>
      obtain rfl := heq
      refine ⟨s, v, hs, rfl, hv, ?_⟩
      rw [foldlM_setView_of_notMem hnodup.1 hfor, setView_self]
    | inr hin =>
      have hne : i ≠ gi.2 := fun heq =>
        hnodup.1 (mem_map.mpr ⟨(g, i), hin, heq⟩)
      have hturn := ih (hstep _ _ _ _ (hlt gi mem_cons_self) hs hv) hin
        (fun gi' hgi' => hlt gi' (mem_cons_of_mem _ hgi')) hnodup.2 hfor
      rwa [setView_of_ne _ hne] at hturn

/-- The method `f` ran on the manager `m` and left `m'`. -/
def Turn (f : View R H → Except Fault (View R H)) (m m' : Manager R H) : Prop :=
  ∃ v v', v.mgr = m ∧ f v = .ok v' ∧ v'.mgr = m'

theorem forManagers_at (hfor : s.forManagers cfg f = .ok s') (hg : cfg.groups[i]? = some g) :
    Turn (f g i) (s.managers i) (s'.managers i) := by
  obtain ⟨s₁, v, -, hmgr, hv, hmgr'⟩ :=
    forManagers_turn (P := fun _ => True) trivial (fun _ _ _ _ _ _ _ => trivial) hfor hg
  exact ⟨s₁.view i, v, hmgr, hv, hmgr'⟩

end

section

variable (h : Exact cfg rs size extra s)
include h

omit [DecidableEq H] in
/-- The pool of each turn counts the references of `r`. -/
theorem Exact.forManagers_at (hr : r ∈ rs)
    (hstep : ∀ g i v v' tables out, f g i v = .ok v' → Balanced r tables out size [] v →
      Balanced r tables out size [] v')
    (hfor : s.forManagers cfg f = .ok s') (hg : cfg.groups[i]? = some g) :
    ∃ v v' out, v.mgr = s.managers i ∧ Balanced r v.mgr.reqToBlocks out size [] v ∧
      f g i v = .ok v' ∧ v'.mgr = s'.managers i := by
  obtain ⟨s₁, v, h₁, hmgr, hv, hmgr'⟩ := forManagers_turn (P := Exact cfg rs size extra) h
    (fun _ _ _ _ hi h₁ hv => h₁.setView hi hr fun out => hstep _ _ _ _ _ out hv) hfor hg
  exact ⟨s₁.view i, v, _, hmgr, h₁.balanced (List.getElem?_eq_some_iff.mp hg).1 hr, hv, hmgr'⟩

/-! ## The stages of `allocate_slots` -/

/-- The call brings computed blocks: hits, or blocks for external tokens. -/
def AllocArgs.Adopts (cfg : Config) (a : AllocArgs) : Prop :=
  (∃ i < cfg.groups.length, a.newComputedBlocks i ≠ []) ∨ 0 < a.numExternalComputedTokens

/-- No manager knows the request. -/
def Untracked (cfg : Config) (s : KVCacheManager R H) (r : R) : Prop :=
  ∀ i < cfg.groups.length, (s.managers i).numCachedBlock r = none

omit h in
/-- Counting changes no table. -/
theorem getNumBlocksToAllocate_at {res : Int × KVCacheManager R H}
    (hget : s.getNumBlocksToAllocate cfg r blocks numEncoderTokens a = .ok res)
    (hg : cfg.groups[i]? = some g) :
    (res.2.managers i).numCachedBlock = (s.managers i).numCachedBlock ∧
      (res.2.managers i).reqToBlocks = (s.managers i).reqToBlocks := by
  obtain ⟨collected, hcollected, rfl⟩ := map_eq_ok.mp hget
  obtain ⟨v, v', hmgr, hf, hmgr'⟩ := forManagers_at (forManagers_of_collect hcollected) hg
  obtain ⟨res, hres, rfl⟩ := map_eq_ok.mp hf
  rw [← hmgr, ← hmgr']
  split at hres
  · exact getNumBlocksToAllocate_eq hres
  · exact getNumBlocksToAllocate_eq hres

variable {nulls held : Nat} {new : List (List Nat) × KVCacheManager R H} {a : AllocArgs}
  {req : Request R H}

theorem Exact.allocateNewBlocks_spec (hr : r ∈ rs)
    (halloc : s.allocateNewBlocks cfg r numTokens numTokensMainModel numEncoderTokens = .ok new)
    (hg : cfg.groups[i]? = some g) (hk : g.kind.isAttention = true) :
    ∃ bs, Takes r bs (s.managers i) (new.2.managers i) ∧
      (new.2.managers i).partialHitReqs r = none ∧
      ∀ nulls held, Row ((s.managers i).reqToBlocks r) nulls held →
        Row ((new.2.managers i).reqToBlocks r) nulls
          (held + (cdiv numTokens g.blockSize - (nulls + held))) ∧
        bs.length = (if ((s.managers i).partialHitReqs r).isSome then 1 else 0) +
          (cdiv numTokens g.blockSize - (nulls + held)) := by
  obtain ⟨v, v', out, hmgr, hv, hf, hmgr'⟩ := h.forManagers_at hr
    (fun g i v v' tables out hv' hv => by
      obtain ⟨res, hres, rfl⟩ := map_eq_ok.mp hv'
      exact hv.allocateNewBlocks hres)
    (forManagers_of_collect halloc) hg
  obtain ⟨res, hres, rfl⟩ := map_eq_ok.mp hf
  rw [← hmgr, ← hmgr']
  split at hres
  · simp_all [Kind.isAttention]
  · exact KVCache.allocateNewBlocks_spec hv hk hres

/-- Without computed blocks, only new blocks come to a table. -/
theorem row_commitSlots (hr : req.requestId ∈ rs) (hadopts : ¬a.Adopts cfg)
    (hcommit : s.commitSlots cfg req a = .ok new)
    (hg : cfg.groups[i]? = some g) (hk : g.kind.isAttention = true)
    (hrow : Row ((s.managers i).reqToBlocks req.requestId) nulls held) :
    Row ((new.2.managers i).reqToBlocks req.requestId) nulls
      (held + (cdiv (a.numTokensNeedSlot cfg req) g.blockSize - (nulls + held))) := by
  obtain ⟨s₁, hcomputed, hnew⟩ := bind_eq_ok.mp hcommit
  split at hcomputed
  · rename_i hcond
    refine absurd ?_ hadopts
    simpa [AllocArgs.Adopts] using hcond
  · cases hcomputed
    obtain ⟨bs, -, -, hrows⟩ := h.allocateNewBlocks_spec hr hnew hg hk
    exact (hrows nulls held hrow).1

omit h in
/-- The table of a request with hits of `nulls` and `held` blocks: null blocks for what its window
skips, and blocks for the tokens that need a slot, or as far as the hits or the external tokens
reach. -/
def Adopted (cfg : Config) (g : Group) (req : Request R H) (a : AllocArgs) (nulls held : Nat)
    (table : List Nat) : Prop :=
  let computed := a.numLocalComputedTokens req + a.numExternalComputedTokens
  let skipped := g.kind.getNumSkippedTokens computed / g.blockSize
  let needed := cdiv (a.numTokensNeedSlot cfg req) g.blockSize
  ∃ nulls' held', Row table nulls' held' ∧ skipped ≤ nulls' ∧ needed ≤ nulls' + held' ∧
    nulls' + held' ≤ max (max skipped (nulls + held)) (max (cdiv computed g.blockSize) needed)

/-- A request that no manager knows gets the hits and blocks for the external tokens, behind null
blocks for what its window skips. -/
theorem Exact.allocateNewComputedBlocks_spec {numLocal numExternal : Nat} (hr : r ∈ rs)
    (hblocks : ∀ i, ∀ b ∈ blocks i, b < size) (huntracked : s.Untracked cfg r)
    (hcomputed : s.allocateNewComputedBlocks cfg r blocks numLocal numExternal = .ok s')
    (hg : cfg.groups[i]? = some g) (hk : g.kind.isAttention = true)
    (hrow : Row (blocks i) nulls held) :
    let skip := g.kind.getNumSkippedTokens (numLocal + numExternal) / g.blockSize
    Exact cfg rs size extra s' ∧ ∃ bs,
      Takes r ((blocks i).drop skip ++ bs) (s.managers i) (s'.managers i) ∧
      Row ((s'.managers i).reqToBlocks r) (max skip nulls) (held - (skip - nulls) + bs.length) ∧
      bs.length ≤ cdiv (numLocal + numExternal) g.blockSize - max skip (nulls + held) ∧
      ((s.managers i).partialHitReqs r = none →
        ((s'.managers i).partialHitReqs r).isSome = true →
        g.hasPartialLocalHit (blocks i) numLocal = true) := by
  intro skip
  unfold allocateNewComputedBlocks at hcomputed
  rw [if_neg (by simpa [Untracked] using huntracked)] at hcomputed
  obtain ⟨s₁, hlocal, hexternal⟩ := bind_eq_ok.mp hcomputed
  -- the hits
  have h₁ := (Keeps.forManagers hr (fun g i v v' tables out hv' hv =>
    hv.addLocalComputedBlocks (hblocks i) hv') hlocal).exact h
  obtain ⟨v, v', hmgr, hf, hmgr'⟩ := KVCacheManager.forManagers_at hlocal hg
  obtain ⟨htable, hcopies, hothers, hpartialHit⟩ := addLocalComputedBlocks_spec hk hf
  rw [hmgr, hmgr'] at htable hcopies hothers hpartialHit
  have htakes : Takes r ((blocks i).drop skip) (s.managers i) (s₁.managers i) := by
    refine ⟨fun r' hr' => by rw [htable, update_of_ne hr'], hothers, fun b hb huses => ?_⟩
    rw [htable, update_self, mem_append, Manager.copyEnds, hcopies] at huses
    obtain (hnull | hhit) | hcopy := huses
    · exact absurd (eq_of_mem_replicate hnull) hb
    · exact .inr hhit
    · exact .inl (.inr hcopy)
  have hrow₁ : Row ((s₁.managers i).reqToBlocks r) (max skip nulls) (held - (skip - nulls)) := by
    rw [htable, update_self]
    exact hrow.skip skip
  -- the blocks for external tokens
  split at hexternal
  · have hstep : ∀ g (_ : Nat) (v v' : View R H) tables out,
        allocateExternalComputedBlocks g v r numLocal numExternal = .ok v' →
        Balanced r tables out size [] v → Balanced r tables out size [] v' :=
      fun g i v v' tables out hv' hv => hv.allocateExternalComputedBlocks hv'
    obtain ⟨v, v', out, hmgr, hv, hf, hmgr'⟩ := h₁.forManagers_at hr hstep hexternal hg
    obtain ⟨bs, hextends, hlen⟩ := extends_allocateExternalComputedBlocks hv hk hf
    have hrow' := hextends.row (hmgr ▸ hrow₁)
    have htakes' := hextends.takes
    have hsame : v'.mgr.partialHitReqs = v.mgr.partialHitReqs := by rw [hextends.mgr]; rfl
    rw [hmgr, hmgr'] at htakes' hsame
    rw [hmgr'] at hrow'
    rw [hmgr, hrow₁.length_eq] at hlen
    exact ⟨(Keeps.forManagers hr hstep hexternal).exact h₁, bs, htakes.trans htakes', hrow',
      by omega, fun hquiet => by rw [hsame]; exact hpartialHit hquiet⟩
  · cases hexternal
    exact ⟨h₁, [], by rwa [append_nil], hrow₁, Nat.zero_le _, hpartialHit⟩

/-- The call then gets new blocks, at most as many as `get_num_blocks_to_allocate` counts. -/
theorem commitSlots_of_adopts
    (hr : req.requestId ∈ rs) (hblocks : ∀ i, ∀ b ∈ a.newComputedBlocks i, b < size)
    (hadopts : a.Adopts cfg) (huntracked : s.Untracked cfg req.requestId)
    (hcommit : s.commitSlots cfg req a = .ok new)
    (hg : cfg.groups[i]? = some g) (hk : g.kind.isAttention = true)
    (hrow : Row (a.newComputedBlocks i) nulls held) :
    let computed := a.numLocalComputedTokens req + a.numExternalComputedTokens
    let skipped := g.kind.getNumSkippedTokens computed / g.blockSize
    let needed := cdiv (a.numTokensNeedSlot cfg req) g.blockSize
    Adopted cfg g req a nulls held ((new.2.managers i).reqToBlocks req.requestId) ∧
    (new.2.managers i).partialHitReqs req.requestId = none ∧
    ∃ fresh, Takes req.requestId ((a.newComputedBlocks i).drop skipped ++ fresh) (s.managers i)
        (new.2.managers i) ∧
      ((s.managers i).partialHitReqs req.requestId = none →
        computed ≤ a.numTokensNeedSlot cfg req →
        fresh.length ≤ needed - max skipped (nulls + held) + if g.hasPartialLocalHit
          (a.newComputedBlocks i) (a.numLocalComputedTokens req) then 1 else 0) := by
  obtain ⟨s₁, hcomputed, hnew⟩ := bind_eq_ok.mp hcommit
  rw [if_pos (by simpa [AllocArgs.Adopts] using hadopts)] at hcomputed
  obtain ⟨h₁, bs, htakes₁, hrow₁, hbs, hhit⟩ :=
    h.allocateNewComputedBlocks_spec hr hblocks huntracked hcomputed hg hk hrow
  obtain ⟨bs', htakes, hnone, hrows⟩ := h₁.allocateNewBlocks_spec hr hnew hg hk
  obtain ⟨hrow', hbs'⟩ := hrows _ _ hrow₁
  dsimp only [Adopted]
  refine ⟨⟨_, _, hrow', Nat.le_max_left _ _, by omega, by omega⟩, hnone, bs ++ bs', ?_,
    fun hquiet hneed => ?_⟩
  · rw [← append_assoc]
    exact htakes₁.trans htakes
  · have hcdiv := cdiv_mono g.blockSize_pos hneed
    have hcopy : (if ((s₁.managers i).partialHitReqs req.requestId).isSome then 1 else 0) ≤
        if g.hasPartialLocalHit (a.newComputedBlocks i) (a.numLocalComputedTokens req) then 1
        else 0 := by
      split
      · rename_i hsome
        rw [if_pos (hhit hquiet hsome)]
      · exact Nat.zero_le _
    rw [length_append, hbs']
    omega

end

/-! ## Whole calls -/

section

omit [DecidableEq H]

theorem row_removeSkippedBlocks (hremove : s.removeSkippedBlocks cfg r n = .ok s')
    (hg : cfg.groups[i]? = some g) (hk : g.kind.isAttention = true)
    (hrow : Row ((s.managers i).reqToBlocks r) nulls held) :
    ∃ nulls' held', Row ((s'.managers i).reqToBlocks r) nulls' held' ∧ nulls ≤ nulls' ∧
      min (g.kind.getNumSkippedTokens n / g.blockSize) (nulls + held) ≤ nulls' ∧
      nulls' + held' = nulls + held := by
  obtain ⟨v, v', hmgr, hf, hmgr'⟩ := forManagers_at hremove hg
  rw [← hmgr']
  refine ⟨_, _, Row.removeSkippedBlocks (hmgr ▸ hrow) hk hf, Nat.le_max_right _ _,
    Nat.le_max_left _ _, ?_⟩
  omega

theorem free_at (hfree : s.free cfg r = .ok s') (hg : cfg.groups[i]? = some g)
    (hk : g.kind.isAttention = true) : Popped r (s.managers i) (s'.managers i) := by
  obtain ⟨v, v', hmgr, hf, hmgr'⟩ := forManagers_at hfree hg
  obtain ⟨p, -, rfl⟩ := map_eq_ok.mp hf
  rw [← hmgr, ← hmgr']
  exact popBlocksForFree_popped hk

/-- `pop_blocks_for_free` is a loop that never fails. -/
theorem forManagers_popBlocksForFree (s : KVCacheManager R H) :
    s.forManagers cfg (fun g _ v => .ok (KVCache.popBlocksForFree g v r).2) =
      .ok (s.popBlocksForFree cfg r).2 := by
  unfold forManagers popBlocksForFree
  generalize hacc : (([] : List Nat), s) = acc
  obtain rfl : acc.2 = s := hacc ▸ rfl
  clear hacc
  induction cfg.groups.zipIdx generalizing acc with
  | nil => rfl
  | cons gi groups ih =>
    rw [foldl_cons, ← ih]
    rfl

theorem popBlocksForFree_at (s : KVCacheManager R H) (hg : cfg.groups[i]? = some g)
    (hk : g.kind.isAttention = true) :
    Popped r (s.managers i) ((s.popBlocksForFree cfg r).2.managers i) := by
  obtain ⟨v, v', hmgr, hf, hmgr'⟩ := forManagers_at s.forManagers_popBlocksForFree hg
  cases hf
  rw [← hmgr, ← hmgr']
  exact popBlocksForFree_popped hk

end

/-- Hashing changes no references and no table, and in attention groups no partial hit. -/
theorem cacheBlocks_same (hcache : s.cacheBlocks cfg req n = .ok s') :
    SameRefs s.pool s'.pool ∧ ∀ i, (s'.managers i).reqToBlocks = (s.managers i).reqToBlocks ∧
      ∀ g, cfg.groups[i]? = some g → g.kind.isAttention = true →
        (s'.managers i).partialHitReqs = (s.managers i).partialHitReqs := by
  unfold KVCacheManager.cacheBlocks at hcache
  split at hcache
  · cases hcache
    exact ⟨.refl _, fun _ => ⟨rfl, fun _ _ _ => rfl⟩⟩
  refine foldlM_ok_induct (P := fun s₁ : KVCacheManager R H => SameRefs s.pool s₁.pool ∧
    ∀ i, (s₁.managers i).reqToBlocks = (s.managers i).reqToBlocks ∧
      ∀ g, cfg.groups[i]? = some g → g.kind.isAttention = true →
        (s₁.managers i).partialHitReqs = (s.managers i).partialHitReqs)
    (fun gi hgi s₁ s₂ hs₁ hs₂ => ?_) ⟨.refl _, fun _ => ⟨rfl, fun _ _ _ => rfl⟩⟩ hcache
  obtain ⟨v, hv, rfl⟩ := map_eq_ok.mp hs₂
  have hcheckpoint : ∀ c ∈ (s₁.view gi.2).mgr.checkpoints req.requestId,
      c.1 ≤ ((s₁.managers gi.2).checkpoints req.requestId).elim 0 Prod.fst := by
    intro c hc
    rw [view_mgr] at hc
    rw [hc]
    exact Nat.le_refl _
  have hcaches := cacheBlocks_caches hcheckpoint hv
  refine ⟨hs₁.1.trans hcaches.steps.sameRefs, fun i => ?_⟩
  by_cases heq : i = gi.2
  · subst heq
    rw [setView_self, hcaches.reqToBlocks]
    refine ⟨(hs₁.2 gi.2).1, fun g hg hk => ?_⟩
    cases hg.symm.trans (mem_zipIdx_iff_getElem?.mp hgi)
    rw [cacheBlocks_partialHitReqs hk hv]
    exact (hs₁.2 gi.2).2 gi.1 hg hk
  · rw [setView_of_ne _ heq]
    exact hs₁.2 i

theorem reqToBlocks_of_cached {new : List (List Nat) × KVCacheManager R H}
    (hcache : s' = new.2 ∨ new.2.cacheBlocks cfg req n = .ok s') (i : Nat) :
    (s'.managers i).reqToBlocks = (new.2.managers i).reqToBlocks := by
  obtain rfl | hcache := hcache
  · rfl
  · exact ((cacheBlocks_same hcache).2 i).1

section AllocateSlots

variable {req : Request R H} {a : AllocArgs} {res : Option (List (List Nat)) × KVCacheManager R H}

/-- The table after the stages of `allocate_slots` that free and count. -/
theorem row_counted {needed : Int × KVCacheManager R H} {s₁ : KVCacheManager R H} {sa : SlotArgs}
    (hremove : s.removeSkippedBlocks cfg r n = .ok s₁)
    (hneeded : s₁.getNumBlocksToAllocate cfg r blocks numEncoderTokens sa = .ok needed)
    (hg : cfg.groups[i]? = some g) (hk : g.kind.isAttention = true)
    (hrow : Row ((s.managers i).reqToBlocks r) nulls held) :
    ∃ nulls' held', Row ((needed.2.managers i).reqToBlocks r) nulls' held' ∧ nulls ≤ nulls' ∧
      min (g.kind.getNumSkippedTokens n / g.blockSize) (nulls + held) ≤ nulls' ∧
      nulls' + held' = nulls + held := by
  rw [(getNumBlocksToAllocate_at hneeded hg).2]
  exact row_removeSkippedBlocks hremove hg hk hrow

omit [DecidableEq H] in
/-- Freeing does not make a request known. -/
theorem untracked_removeSkippedBlocks (hremove : s.removeSkippedBlocks cfg r n = .ok s')
    (huntracked : s.Untracked cfg r) : s'.Untracked cfg r := by
  intro j hj
  obtain ⟨v, v', hmgr, hf, hmgr'⟩ := forManagers_at hremove (getElem?_eq_getElem hj)
  rw [← hmgr', removeSkippedBlocks_numCachedBlock hf, hmgr]
  exact huntracked j hj

/-- A call that fails gives at most blocks back. -/
theorem shrinks_allocateSlots_none (halloc : s.allocateSlots cfg req a = .ok res)
    (hnone : res.1 = none)
    (hg : cfg.groups[i]? = some g) (hk : g.kind.isAttention = true) :
    Shrinks ((s.managers i).reqToBlocks req.requestId)
      ((res.2.managers i).reqToBlocks req.requestId) := by
  intro nulls held hrow
  obtain ⟨rfl, -⟩ | ⟨s₁, needed, hskipped, hneeded, hrest⟩ := allocateSlots_cases halloc
  · exact ⟨nulls, held, hrow, Nat.le_refl _, rfl⟩
  obtain ⟨rfl, -⟩ | ⟨-, new, -, hsome, -⟩ := hrest
  · obtain ⟨nulls', held', hrow', hle, -, hlen⟩ := row_counted hskipped hneeded hg hk hrow
    exact ⟨nulls', held', hrow', hle, hlen⟩
  · cases hnone.symm.trans hsome

variable (h : Exact cfg rs size extra s) (hr : req.requestId ∈ rs)
  (halloc : s.allocateSlots cfg req a = .ok res) (hsome : res.1 ≠ none)
  (hg : cfg.groups[i]? = some g) (hk : g.kind.isAttention = true)
include h hr halloc hsome hg hk

/-- A call for new tokens only: the window moves on, and new blocks come at the end. -/
theorem row_allocateSlots (hadopts : ¬a.Adopts cfg)
    (hrow : Row ((s.managers i).reqToBlocks req.requestId) nulls held) :
    ∃ nulls' held', Row ((res.2.managers i).reqToBlocks req.requestId) nulls' held' ∧
      nulls ≤ nulls' ∧
      min (g.kind.getNumSkippedTokens (a.totalComputedTokens cfg req - req.numInFlightTokens) /
        g.blockSize) (nulls + held) ≤ nulls' ∧
      nulls' + held' = max (nulls + held) (cdiv (a.numTokensNeedSlot cfg req) g.blockSize) := by
  obtain ⟨rfl, -⟩ | ⟨s₁, needed, hskipped, hneeded, hrest⟩ := allocateSlots_cases halloc
  · exact absurd rfl hsome
  obtain ⟨rfl, -⟩ | ⟨-, new, hcommit, -, hcache⟩ := hrest
  · exact absurd rfl hsome
  obtain ⟨nulls', held', hrow', hle, hskip, hlen⟩ :=
    row_counted hskipped hneeded hg hk hrow
  have h₂ := ((Keeps.removeSkippedBlocks hr hskipped).trans
    (Keeps.getNumBlocksToAllocate hr hneeded)).exact h
  have hrow₃ := row_commitSlots h₂ hr hadopts hcommit hg hk hrow'
  rw [reqToBlocks_of_cached hcache]
  exact ⟨_, _, hrow₃, hle, hskip, by omega⟩

/-- A call that brings computed blocks to a new request. -/
theorem row_allocateSlots_of_adopts (hblocks : ∀ i, ∀ b ∈ a.newComputedBlocks i, b < size)
    (hadopts : a.Adopts cfg) (huntracked : s.Untracked cfg req.requestId)
    (hrow : Row (a.newComputedBlocks i) nulls held) :
    Adopted cfg g req a nulls held ((res.2.managers i).reqToBlocks req.requestId) := by
  obtain ⟨rfl, -⟩ | ⟨s₁, needed, hskipped, hneeded, hrest⟩ := allocateSlots_cases halloc
  · exact absurd rfl hsome
  obtain ⟨rfl, -⟩ | ⟨-, new, hcommit, -, hcache⟩ := hrest
  · exact absurd rfl hsome
  have h₂ := ((Keeps.removeSkippedBlocks hr hskipped).trans
    (Keeps.getNumBlocksToAllocate hr hneeded)).exact h
  have hstill : needed.2.Untracked cfg req.requestId := by
    intro j hj
    rw [(getNumBlocksToAllocate_at hneeded (getElem?_eq_getElem hj)).1]
    exact untracked_removeSkippedBlocks hskipped huntracked j hj
  rw [reqToBlocks_of_cached hcache]
  exact (commitSlots_of_adopts h₂ hr hblocks hadopts hstill hcommit hg hk hrow).1

end AllocateSlots

end KVCacheManager

end Vllm.KVCache
