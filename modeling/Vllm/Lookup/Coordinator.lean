import Vllm.Lookup.Finders

/-!
# The hybrid coordinator

`HybridKVCacheCoordinator` (`v1/core/kv_cache_coordinator.py`) serves models
whose KV cache groups have different attention types. Groups of one spec form a
`SpecGroup` and are looked up together; `findLongestCacheHit` lowers a candidate
length until all spec groups accept it.
-/

namespace Vllm.Lookup

open Library Pool

/-! ## Groups -/

inductive AttentionKind where
  | fullAttention
  | slidingWindow (window : Nat)
  | chunkedLocal (attentionChunkSize : Nat)
  | mamba
  deriving DecidableEq, Repr

/-- `layout` stands for the fields of a spec that are only compared. -/
structure KVCacheSpec where
  kind : AttentionKind
  blockSize : Nat
  layout : Nat
  deriving DecidableEq, Repr

namespace KVCacheSpec

variable (s : KVCacheSpec)

def isFullAttention : Bool := s.kind == .fullAttention

def isMamba : Bool := s.kind == .mamba

def isChunkedLocal : Bool := s.kind matches .chunkedLocal _

/-- `supports_fine_grained_hash_lookup` of the manager for the spec. -/
def supportsFineGrainedHashLookup : Bool := s.isFullAttention || s.isMamba

end KVCacheSpec

/-- A KV cache group; `dropEagle` says that its id is in `drop_eagle_group_ids`. -/
structure KVCacheGroup where
  spec : KVCacheSpec
  prefixCacheable : Bool
  dropEagle : Bool
  deriving DecidableEq, Repr

structure SpecGroup where
  spec : KVCacheSpec
  groupIds : List Nat
  useEagle : Bool
  deriving DecidableEq, Repr

/-- `partial_hash_hits_enabled`. -/
def partialHashHitsEnabled (groups : List KVCacheGroup) (hashBlockSize dcpWorldSize : Nat) : Bool :=
  groups.any (fun g => g.spec.isMamba &&
    (dcpWorldSize == 1 && decide (hashBlockSize < g.spec.blockSize) ||
      decide (1 < dcpWorldSize) && decide (hashBlockSize ≤ g.spec.blockSize))) &&
  !groups.any (fun g => g.prefixCacheable && !g.spec.supportsFineGrainedHashLookup &&
    g.spec.blockSize != hashBlockSize)

/-- `eagle_proof_margin`. -/
def eagleProofMargin (blockSize hashBlockSize : Nat) (fineGrainedLookup : Bool) : Nat :=
  if fineGrainedLookup && decide (hashBlockSize < blockSize) then hashBlockSize else blockSize

/-- Enter the group `i` into the spec group of its spec. -/
def joinSpecGroup (i : Nat) (spec : KVCacheSpec) (useEagle : Bool) :
    List SpecGroup → List SpecGroup
  | [] => [⟨spec, [i], useEagle⟩]
  | g :: rest =>
    if g.spec = spec then
      { g with groupIds := g.groupIds ++ [i], useEagle := g.useEagle || useEagle } :: rest
    else g :: joinSpecGroup i spec useEagle rest

/-- The loop of `verify_and_split_kv_cache_groups`. -/
def splitGroups : List (KVCacheGroup × Nat) → List SpecGroup → List SpecGroup
  | [], acc => acc
  | (g, i) :: rest, acc =>
    splitGroups rest (if g.prefixCacheable then joinSpecGroup i g.spec g.dropEagle acc else acc)

/-- What the constructor gets. It asserts `hash_dvd`; the scheduler block size is
a common multiple of the block sizes (`resolve_kv_cache_block_sizes`). -/
structure HybridConfig where
  kvCacheGroups : List KVCacheGroup
  hashBlockSize : Nat
  schedulerBlockSize : Nat
  dcpWorldSize : Nat
  allowPartialHashHits : Bool
  hash_pos : 0 < hashBlockSize
  scheduler_pos : 0 < schedulerBlockSize
  hash_dvd : ∀ g ∈ kvCacheGroups, g.prefixCacheable = true → hashBlockSize ∣ g.spec.blockSize
  scheduler_dvd : ∀ g ∈ kvCacheGroups, g.prefixCacheable = true →
    g.spec.blockSize ∣ schedulerBlockSize
  cacheable : ∃ g ∈ kvCacheGroups, g.prefixCacheable = true

namespace HybridConfig

variable (c : HybridConfig)

def enablePartialHashHits : Bool :=
  c.allowPartialHashHits &&
    partialHashHitsEnabled c.kvCacheGroups c.hashBlockSize c.dcpWorldSize

/-- `_cache_hit_alignment_tokens`. -/
def cacheHitAlignmentTokens : Nat :=
  if c.enablePartialHashHits then c.hashBlockSize else c.schedulerBlockSize

/-- `attention_groups`: full attention comes first, the order is kept otherwise. -/
def attentionGroups : List SpecGroup :=
  let groups := splitGroups c.kvCacheGroups.zipIdx []
  groups.filter (·.spec.isFullAttention) ++ groups.filter (!·.spec.isFullAttention)

def isSimpleHybrid : Bool :=
  c.attentionGroups.length == 2 && c.attentionGroups.head?.any (·.spec.isFullAttention)

end HybridConfig

/-! ## The lookup -/

variable {H : Type}

/-- `find_longest_cache_hit` of the manager class of a spec group. -/
def SpecGroup.findHit (g : SpecGroup) (p : BlockPool H) (blockHashes : List H) (maxLength : Nat)
    (dropEagleBlock : Bool) (alignmentTokens : Nat) : Option (List Row × Nat) :=
  match g.spec.kind with
  | .fullAttention =>
    some (fullAttentionHit p blockHashes maxLength g.groupIds g.spec.blockSize dropEagleBlock
      alignmentTokens)
  | .slidingWindow window =>
    slidingWindowHit p blockHashes maxLength g.groupIds g.spec.blockSize window dropEagleBlock
      alignmentTokens
  | .chunkedLocal attentionChunkSize =>
    chunkedLocalHit p blockHashes maxLength g.groupIds g.spec.blockSize attentionChunkSize
      dropEagleBlock alignmentTokens
  | .mamba => mambaHit p blockHashes maxLength g.groupIds g.spec.blockSize alignmentTokens

/-- The variables of `find_longest_cache_hit`. The hit blocks and lengths are
kept for each spec group, by its index. -/
structure HitState where
  currHitLength : Nat
  longestHitLength : Nat
  hitRows : Nat → Option (List Row)
  hitLengths : Nat → Nat
  eagleVerified : List Nat

def HitState.init (maxCacheHitLength : Nat) : HitState :=
  ⟨maxCacheHitLength, 0, fun _ => none, fun _ => 0, []⟩

namespace HybridConfig

variable (c : HybridConfig) (p : BlockPool H) (blockHashes : List H)

/-- The length up to which a spec group is looked up. -/
def lookupLength (numHashes currHitLength : Nat) (g : SpecGroup) (dropEagleBlock : Bool) : Nat :=
  if dropEagleBlock && !g.spec.isMamba then
    min (currHitLength + eagleProofMargin g.spec.blockSize c.hashBlockSize
        (c.enablePartialHashHits && g.spec.supportsFineGrainedHashLookup))
      (numHashes * c.hashBlockSize)
  else currHitLength

/-- The body of the loop over the spec groups. -/
def groupStep (st : HitState) (g : SpecGroup) (idx : Nat) : Option HitState :=
  if g.spec.isFullAttention && (st.hitRows idx).isSome then
    some { st with currHitLength := min st.currHitLength (st.hitLengths idx) }
  else
    let dropEagleBlock := g.useEagle && !st.eagleVerified.contains idx
    let maxLength := c.lookupLength blockHashes.length st.currHitLength g dropEagleBlock
    (g.findHit p blockHashes maxLength dropEagleBlock c.cacheHitAlignmentTokens).map fun r =>
      { currHitLength := r.2
        longestHitLength := max st.longestHitLength r.2
        hitRows := Function.update st.hitRows idx (some r.1)
        hitLengths := Function.update st.hitLengths idx r.2
        eagleVerified :=
          if dropEagleBlock then idx :: st.eagleVerified
          else if r.2 < st.currHitLength then []
          else st.eagleVerified }

/-- The loop over the spec groups. -/
def groupPass : List (SpecGroup × Nat) → HitState → Option HitState
  | [], st => some st
  | (g, idx) :: rest, st => (c.groupStep p blockHashes st g idx).bind (groupPass rest)

/-- The outer loop. Each round but the last lowers the length, so the fuel is the
length it may start from. -/
def hitLoop : Nat → Nat → HitState → Option (Nat × HitState)
  | 0, _, _ => none
  | fuel + 1, hitLength, st =>
    (c.groupPass p blockHashes c.attentionGroups.zipIdx
      { st with currHitLength := hitLength }).bind fun st =>
        if hitLength ≤ st.currHitLength then some (hitLength, st)
        else if c.isSimpleHybrid then some (st.currHitLength, st)
        else hitLoop fuel st.currHitLength st

/-- The rows of a spec group after full attention was cut to the final length. -/
def finalRows (hitLength : Nat) (st : HitState) (g : SpecGroup) (idx : Nat) : List Row :=
  let rows := (st.hitRows idx).getD []
  if g.spec.isFullAttention then rows.take (cdiv hitLength g.spec.blockSize) else rows

/-- The blocks of one KV cache group. -/
def hitBlocks (hitLength : Nat) (st : HitState) (groupId : Nat) : List Nat :=
  (c.attentionGroups.zipIdx.findSome? fun g =>
    (g.1.groupIds.idxOf? groupId).map fun k =>
      (finalRows hitLength st g.1 g.2).map (·.getD k 0)).getD []

/-- `find_longest_cache_hit`: the blocks of each KV cache group, the length of the
hit, and how much longer the longest hit of a single spec group was. -/
def findLongestCacheHit (maxCacheHitLength : Nat) : Option (List (List Nat) × Nat × Nat) :=
  (c.hitLoop p blockHashes (maxCacheHitLength + 1) maxCacheHitLength
    (.init maxCacheHitLength)).map fun r =>
      ((List.range c.kvCacheGroups.length).map (c.hitBlocks r.1 r.2), r.1,
        r.2.longestHitLength - r.1)

end HybridConfig

end Vllm.Lookup
