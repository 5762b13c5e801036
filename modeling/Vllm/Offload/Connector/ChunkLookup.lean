import Vllm.Offload.Connector.State

/-!
# Looking up the offloaded chunks of a request

`_maximal_prefix_lookup`, `_sliding_window_lookup` and `_lookup_complete_chunks` of
`OffloadingConnectorScheduler`. The manager is any strategy that answers a key, given
the lookups of this call and their answers so far; these are kept in `answers`, oldest
first.
-/

namespace Vllm.Offload.Connector

open Library SchedulerOffloadConfig

variable {R H : Type}

/-- The lookups so far and what the manager answered. -/
abbrev LookupLog (H : Type) := List (OffloadKey H × LookupResult)

/-- `manager.lookup` for the context of one request. -/
abbrev LookupManager (H : Type) := LookupLog H → OffloadKey H → LookupResult

/-! ## Scans -/

/-- `_maximal_prefix_lookup`, from a key on. -/
def maximalPrefixLookup (manager : LookupManager H) :
    List (OffloadKey H) → (hitCount : Nat) → (deferLookup : Bool) → LookupLog H →
      Option Nat × LookupLog H
  | [], hitCount, deferLookup, answers => (if deferLookup then none else some hitCount, answers)
  | key :: keys, hitCount, deferLookup, answers =>
    let result := manager answers key
    let answers := answers ++ [(key, result)]
    match result with
    | .hit => maximalPrefixLookup manager keys (hitCount + 1) deferLookup answers
    | .hitPending => maximalPrefixLookup manager keys (hitCount + 1) true answers
    -- the scan goes on, so that the manager starts its asynchronous lookups
    | .retry => maximalPrefixLookup manager keys hitCount true answers
    | .miss => (if deferLookup then none else some hitCount, answers)

/-- The variables of the loop of `_sliding_window_lookup`. -/
structure WindowScan where
  deferLookup : Bool := false
  pendingInWindow : Bool := false
  consecutiveHits : Nat := 0
  requiredWindow : Nat

/-- The scan after one answer. -/
def WindowScan.next (w : WindowScan) (slidingWindowSize : Nat) : LookupResult → WindowScan
  | .hit => { w with consecutiveHits := w.consecutiveHits + 1 }
  | .hitPending =>
    { w with pendingInWindow := true, consecutiveHits := w.consecutiveHits + 1 }
  | .retry => ⟨true, false, 0, slidingWindowSize⟩
  -- the gap rules out the incomplete window to its right
  | .miss => ⟨w.deferLookup, false, 0, slidingWindowSize⟩

def WindowScan.result (w : WindowScan) (numHitChunks : Nat) : Option Nat :=
  if w.deferLookup || w.pendingInWindow then none else some numHitChunks

/-- The loop of `_sliding_window_lookup`, over the keys from the last to the first. -/
def scanWindow (manager : LookupManager H) (slidingWindowSize : Nat) :
    List (OffloadKey H) → WindowScan → LookupLog H → Option Nat × LookupLog H
  | [], w, answers => (w.result w.consecutiveHits, answers)
  | key :: keys, w, answers =>
    let result := manager answers key
    let answers := answers ++ [(key, result)]
    let w := w.next slidingWindowSize result
    if w.consecutiveHits = w.requiredWindow then
      (w.result (keys.length + w.requiredWindow), answers)
    else scanWindow manager slidingWindowSize keys w answers

/-- `_sliding_window_lookup`. -/
def slidingWindowLookup (manager : LookupManager H) (keys : List (OffloadKey H))
    (slidingWindowSize initialWindowSize : Nat) (answers : LookupLog H) :
    Option Nat × LookupLog H :=
  scanWindow manager slidingWindowSize keys.reverse
    { requiredWindow :=
        if initialWindowSize = 0 then slidingWindowSize else initialWindowSize } answers

/-! ## The lookup of complete chunks -/

def roundDown (x y : Nat) : Nat := x / y * y

/-- The variables of the loops of `_lookup_complete_chunks`. -/
structure LookupPass (H : Type) where
  maxHitSizeTokens : Nat
  numHitTokens : Nat := 0
  deferLookup : Bool := false
  /-- the places of the EAGLE groups that have dropped their last chunk -/
  eagleVerified : List Nat := []
  fullAttentionHitBoundary : Option Nat := none
  lookedUpSlidingWindow : Bool := false
  /-- the groups of the next iteration -/
  lookupGroups : List IndexedGroup
  /-- `lookup_hit_end_chunk_idx` of each group -/
  lookupHitEnd : Nat → Nat := fun _ => 0
  answers : LookupLog H := []
  /-- the call has returned 0 -/
  missed : Bool := false

namespace SchedulerOffloadConfig

variable (c : SchedulerOffloadConfig) (manager : LookupManager H)
  (status : RequestOffloadState H) (g : GroupOffloadConfig)

/-- The tokens that can be loaded at most, before any group is looked up. -/
def initialMaxHitSizeTokens (maxNumNewTokens : Option Nat) : Nat :=
  let numComputedTokens := status.numLocallyComputedTokens
  let limit (size : Nat) (bound : Option Nat) : Nat :=
    bound.elim size fun n => min size (numComputedTokens + n)
  let size := limit (limit status.req.numTokens maxNumNewTokens) status.maxLoadTokens
  if c.slidingWindowGroups = [] then size
  else c.mambaAlignSize.elim (size - 1) (roundDown (size - 1))

/-- The chunk at the end of the local prefix. -/
def startChunkIdx : Nat :=
  status.numLocallyComputedTokens / g.tokensPerChunk

/-- The number of chunks that are looked up for a candidate length: an EAGLE group asks
for one chunk more, which is dropped. -/
def queryChunks (i maxHitSizeTokens : Nat) (isEagleUnverified : Bool) : Nat :=
  let tokensPerChunk := g.tokensPerChunk
  let offloadKeys := (status.groupStates i).offloadKeys
  let queryMax := if isEagleUnverified then
      min (maxHitSizeTokens + tokensPerChunk) (offloadKeys.length * tokensPerChunk)
    else maxHitSizeTokens
  min (cdiv queryMax tokensPerChunk) offloadKeys.length

/-- The lookups of one group at a candidate length: the number of chunks from the local
prefix on up to which there are hits. -/
def scanGroup (i maxHitSizeTokens : Nat) (isEagleUnverified : Bool)
    (answers : LookupLog H) : Option Nat × LookupLog H :=
  let numChunks := queryChunks status g i maxHitSizeTokens isEagleUnverified
  let keys := ((status.groupStates i).offloadKeys.take numChunks).drop (startChunkIdx status g)
  match g.slidingWindowSizeInChunks with
  | none => maximalPrefixLookup manager keys 0 false answers
  | some window =>
    let extra := isEagleUnverified.toNat
    let candidateEnd := min maxHitSizeTokens ((numChunks - extra) * g.tokensPerChunk)
    let initialWindow := (g.loadWindowSizeInChunks candidateEnd).getD 0
    slidingWindowLookup manager keys (window + extra) (initialWindow + extra) answers

/-- The candidate length that the keys of a group allow. -/
def candidate (i maxHitSizeTokens : Nat) : Nat :=
  let size := min maxHitSizeTokens ((status.groupStates i).offloadKeys.length * g.tokensPerChunk)
  if status.maxLoadTokens.isSome then roundDown size g.tokensPerChunk else size

/-- `apply_eagle_drop`. -/
def appliesEagleDrop : Bool :=
  g.isEagleGroup && !c.useLookaheadBlockHashes

/-- `is_eagle_unverified`. -/
def isEagleUnverified (i : Nat) (eagleVerified : List Nat) : Bool :=
  c.appliesEagleDrop g && !eagleVerified.contains i

/-- The variables after the lookups of a group, before their result is used. -/
def recordScan (i size : Nat) (numHitChunks : Option Nat)
    (answers : LookupLog H) (p : LookupPass H) : LookupPass H :=
  let isSlidingWindow := g.slidingWindowSizeInChunks.isSome
  let proved := !c.fullAttentionGroups.isEmpty && !p.deferLookup
  { p with
    maxHitSizeTokens := size
    fullAttentionHitBoundary := if isSlidingWindow && p.fullAttentionHitBoundary.isNone then
        some (if proved then size else 0) else p.fullAttentionHitBoundary
    lookupHitEnd := if isSlidingWindow then p.lookupHitEnd else
        Function.update p.lookupHitEnd i (startChunkIdx status g + numHitChunks.getD 0)
    answers }

/-- The variables after the hits of a group, or `none`, have narrowed the candidate. -/
def applyHits (i : Nat) (isEagleUnverified : Bool) (p : LookupPass H) : Option Nat → LookupPass H
  | none => { p with deferLookup := true }
  | some numHitChunks =>
    let numHitChunks := numHitChunks - isEagleUnverified.toNat
    { p with
      eagleVerified := if isEagleUnverified then i :: p.eagleVerified else p.eagleVerified
      maxHitSizeTokens := min p.maxHitSizeTokens
        (g.tokensPerChunk * (startChunkIdx status g + numHitChunks)) }

/-- Which groups are looked up again after a group has narrowed the hit. -/
def scheduleLookups (applyEagleDrop : Bool) (newNumHitTokens : Nat) (p : LookupPass H) :
    LookupPass H :=
  if newNumHitTokens < p.numHitTokens then
    let p := { p with eagleVerified := if applyEagleDrop then p.eagleVerified else [] }
    if p.deferLookup then { p with deferLookup := false, lookupGroups := c.lookupGroups }
    else if p.lookedUpSlidingWindow && p.lookupGroups.isEmpty then
      { p with lookupGroups := c.slidingWindowGroups }
    else p
  else p

/-- The body of the inner loop of `_lookup_complete_chunks`; `done` is `return 0`. -/
def lookupGroup (group : IndexedGroup) (p : LookupPass H) : Except Fault (Next (LookupPass H)) :=
  let (g, i) := group
  let tokensPerChunk := g.tokensPerChunk
  let numComputedTokens := status.numLocallyComputedTokens
  if (status.groupStates i).offloadKeys.length <
      status.req.blockHashes.length * c.tokensPerHash / tokensPerChunk then
    .error .assertionError
  else
    let isEagleUnverified := c.isEagleUnverified g i p.eagleVerified
    let size := candidate status g i p.maxHitSizeTokens
    if size < numComputedTokens + tokensPerChunk then
      .ok (.done { p with maxHitSizeTokens := size, missed := true })
    else
      let (numHitChunks, answers) := scanGroup manager status g i size isEagleUnverified p.answers
      let p := c.recordScan status g i size numHitChunks answers p
      if numHitChunks = some 0 then .ok (.done { p with missed := true })
      else
        let p := applyHits status g i isEagleUnverified p numHitChunks
        let newNumHitTokens := p.maxHitSizeTokens - numComputedTokens
        if newNumHitTokens < tokensPerChunk then .ok (.done { p with missed := true })
        else
          let p := c.scheduleLookups (c.appliesEagleDrop g) newNumHitTokens p
          .ok (.again { p with
            lookedUpSlidingWindow :=
              p.lookedUpSlidingWindow || g.slidingWindowSizeInChunks.isSome
            numHitTokens := newNumHitTokens })

/-- The inner loop: each group in turn. -/
def lookupIteration : List IndexedGroup → LookupPass H → Except Fault (Next (LookupPass H))
  | [], p => .ok (.again p)
  | group :: groups, p => (c.lookupGroup manager status group p).bind fun
    | .again p => lookupIteration groups p
    | .done p => .ok (.done p)

/-- The outer loop: iterations until no group has to be looked up again. -/
def lookupPass (p : LookupPass H) : Except Fault (Next (LookupPass H)) :=
  (c.lookupIteration manager status p.lookupGroups
    { p with lookedUpSlidingWindow := false, lookupGroups := [] }).map fun
    | .done p => .done p
    | .again p => if p.lookupGroups.isEmpty then .done p else .again p

/-- Whether a chunk that a hit needs is being loaded already. -/
def hitBeingLoaded (chunksBeingLoaded : List (OffloadKey H)) [DecidableEq H]
    (numHitTokens : Nat) : Bool :=
  c.indexedGroups.any fun (g, i) =>
    let numCachedTokens := status.numLocallyComputedTokens + numHitTokens
    let keys := ((status.groupStates i).offloadKeys.take
      (cdiv numCachedTokens g.tokensPerChunk)).drop (startChunkIdx status g)
    let keys := match g.loadWindowSizeInChunks numCachedTokens with
      | none => keys
      | some window => keys.drop (keys.length - window)
    keys.any (· ∈ chunksBeingLoaded)

/-- `_lookup_complete_chunks`: the number of hit tokens (`none` to defer) and the hit
boundary of the full attention groups, with the last state of the loops. -/
def lookupCompleteChunks [DecidableEq H] (chunksBeingLoaded : List (OffloadKey H))
    (maxNumNewTokens : Option Nat) :
    Except Fault (Option Nat × Option Nat × LookupPass H) :=
  let size := c.initialMaxHitSizeTokens status maxNumNewTokens
  let init : LookupPass H := { maxHitSizeTokens := size, lookupGroups := c.lookupGroups }
  let run := if c.lookupGroups.isEmpty then .ok init
    -- each further iteration has a smaller candidate length
    else loop (c.lookupPass manager status) (size + 1) init
  run.map fun p =>
    if p.missed then (some 0, p.fullAttentionHitBoundary, p)
    else if p.deferLookup || c.hitBeingLoaded status chunksBeingLoaded p.numHitTokens then
      (none, p.fullAttentionHitBoundary, p)
    else (some p.numHitTokens, p.fullAttentionHitBoundary, p)

end SchedulerOffloadConfig

end Vllm.Offload.Connector
