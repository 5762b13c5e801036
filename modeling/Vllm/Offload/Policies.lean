import Mathlib.Data.Finset.Basic
import Mathlib.Data.Rat.Floor
import Vllm.Library.Dict
import Vllm.Library.Fallible
import Vllm.Library.Least

/-!
# The cache policies of the CPU offload pool

`CachePolicy` (`v1/kv_offload/cpu/policies/base.py`) with its two implementations:
`LRUCachePolicy` (`lru.py`) and `ARCCachePolicy` (`arc.py`).

The manager writes `ref_cnt` of a chunk that the policy holds; this write is the call
`setRefCnt` here. What a policy keeps in the context of a request is a map over the
requests. A heap is modelled by the bag of its entries. The reference count of a chunk
is not bounded by the 32 bits of the source, and the adaptive size of ARC is a rational
number.
-/

namespace Vllm.Offload

open Library

/-- What a call raises. -/
inductive Fault
  | assertionError
  | keyError
  deriving DecidableEq, Repr

/-- The chunk `chunkId` of the pool; `refCnt` counts the transfers that read it and is -1
while it is written. The source has it in a `c_int32`, so fewer than `2 ^ 31` transfers may read a
chunk at once. -/
structure ChunkStatus where
  refCnt : Int
  chunkId : Nat
  deriving DecidableEq, Repr

def ChunkStatus.new (chunkId : Nat) : ChunkStatus := ⟨-1, chunkId⟩

def ChunkStatus.isReady (c : ChunkStatus) : Bool := decide (0 ≤ c.refCnt)

/-- What the policies read of the context of a request. -/
structure ReqContext (R K : Type) where
  reqId : R
  /-- `get_offload_key_position` -/
  position : K → Option Nat

section Order

variable {R K : Type} [DecidableEq K]

/-- `order_request_keys`: one order from head to tail across all groups. -/
def orderRequestKeys (keyGroups : List (List K)) (ctx : ReqContext R K) : List K :=
  let keys := keyGroups.flatten
  if (keys.filter fun k => (ctx.position k).isSome).dedup.length = keys.length then
    keys.mergeSort fun a b => (ctx.position a).getD 0 ≤ (ctx.position b).getD 0
  else keys

end Order

/-- The calls that the manager makes of its policy. -/
class CachePolicy (π : Type) (R K : outParam Type) where
  get : π → K → Option ChunkStatus
  /-- `chunk.ref_cnt = n` -/
  setRefCnt : π → K → Int → π
  insert : π → K → ChunkStatus → ReqContext R K → Except Fault π
  remove : π → K → Except Fault π
  onStoreMiss : π → List K → π
  onRequestAccess : π → List K → ReqContext R K → Except Fault π
  /-- the keys by group, those only inserted and those reused -/
  onRequestFinished : π → List (List K) → Finset K → Finset K → ReqContext R K → Except Fault π
  evict : π → Nat → Finset K → Except Fault (Option (List (K × ChunkStatus)) × π)
  clear : π → π
  markEvictable : π → K → Except Fault π
  markNonEvictable : π → K → Except Fault π

/-! ## LRU -/

/-- An entry of the heap: its rank and its key. -/
abbrev HeapEntry (K : Type) := (Int × Int) × K

structure LRUCachePolicy (R K : Type) where
  chunks : Dict K ChunkStatus
  ranks : Dict K (Int × Int)
  /-- A set, in the order of insertion. -/
  evictable : List K
  heap : List (HeapEntry K)
  nextRank : Nat
  cacheGeneration : Nat
  /-- the generation and the rank of `_RequestRank` in the context of each request -/
  requestRanks : R → Option (Nat × Nat)

/-- The order of the tuples of ranks. -/
def rankLt (a b : Int × Int) : Bool := decide (a.1 < b.1) || (a.1 == b.1 && decide (a.2 < b.2))

namespace LRUCachePolicy

variable {R K : Type} [DecidableEq R] [DecidableEq K] (p : LRUCachePolicy R K)

def init : LRUCachePolicy R K where
  chunks := .empty
  ranks := .empty
  evictable := []
  heap := []
  nextRank := 0
  cacheGeneration := 0
  requestRanks := fun _ => none

/-- `_get_request_rank`. -/
def getRequestRank (r : R) : Nat × LRUCachePolicy R K :=
  match p.requestRanks r with
  | some (generation, rank) =>
    if generation = p.cacheGeneration then (rank, p)
    else (p.nextRank + 1, { p with
      nextRank := p.nextRank + 1
      requestRanks := Function.update p.requestRanks r (some (p.cacheGeneration, p.nextRank + 1)) })
  | none =>
    (p.nextRank + 1, { p with
      nextRank := p.nextRank + 1
      requestRanks := Function.update p.requestRanks r (some (p.cacheGeneration, p.nextRank + 1)) })

/-- `_assign_new_rank`: the flag says whether the heap has to be updated. -/
def assignNewRank (key : K) : Bool × LRUCachePolicy R K :=
  if key ∉ p.chunks.keys then (false, p)
  else
    (decide (key ∈ p.evictable), { p with
      nextRank := p.nextRank + 1
      ranks := p.ranks.insert key (p.nextRank + 1, 0) })

/-- The entry of an evictable key. -/
def entryOf (key : K) : Except Fault (HeapEntry K) :=
  match p.ranks.get? key with
  | none => .error .keyError
  | some rank => .ok (rank, key)

/-- `_push_evictable`. -/
def pushEvictable (key : K) : Except Fault (LRUCachePolicy R K) :=
  (p.entryOf key).map fun e => { p with heap := e :: p.heap }

/-- `_is_current`. -/
def isCurrent (e : HeapEntry K) : Bool :=
  decide (e.2 ∈ p.evictable) && p.ranks.get? e.2 == some e.1

/-- A new heap of the current entries. -/
def rebuildHeap : Except Fault (LRUCachePolicy R K) :=
  (p.evictable.mapM p.entryOf).map fun heap => { p with heap }

/-- `_maybe_compact_heap`. -/
def maybeCompactHeap : Except Fault (LRUCachePolicy R K) :=
  if p.heap.length < max 64 (2 * p.evictable.length) then .ok p else p.rebuildHeap

/-- `_update_heap`. -/
def updateHeap (updatedEvictable : List K) : Except Fault (LRUCachePolicy R K) :=
  if updatedEvictable = [] then .ok p
  else if max 64 (p.evictable.length / 4) ≤ updatedEvictable.length then p.rebuildHeap
  else (updatedEvictable.foldlM pushEvictable p).bind maybeCompactHeap

/-- The loop of `_update_recency`: the policy and the keys to push again. -/
def assignNewRanks (keys : List K) : LRUCachePolicy R K × List K :=
  keys.foldl (fun acc key =>
    let (updated, p) := acc.1.assignNewRank key
    (p, if updated then acc.2 ++ [key] else acc.2)) (p, [])

/-- `_update_recency`. -/
def updateRecency (keys : List K) : Except Fault (LRUCachePolicy R K) :=
  (p.assignNewRanks keys).1.updateHeap (p.assignNewRanks keys).2

def get (key : K) : Option ChunkStatus := p.chunks.get? key

def setRefCnt (key : K) (n : Int) : LRUCachePolicy R K :=
  match p.chunks.get? key with
  | none => p
  | some c => { p with chunks := p.chunks.insert key { c with refCnt := n } }

/-- The rank that `insert` gives to a key. -/
def insertRank (key : K) (ctx : ReqContext R K) : (Int × Int) × LRUCachePolicy R K :=
  match ctx.position key with
  | none => ((p.nextRank + 1, 0), { p with nextRank := p.nextRank + 1 })
  | some position =>
    let (rank, p) := p.getRequestRank ctx.reqId
    ((rank, -position), p)

def insert (key : K) (chunk : ChunkStatus) (ctx : ReqContext R K) :
    Except Fault (LRUCachePolicy R K) :=
  let p := { p with chunks := p.chunks.insert key chunk }
  let (rank, p) := p.insertRank key ctx
  let p := { p with ranks := p.ranks.insert key rank }
  if chunk.refCnt = 0 then { p with evictable := p.evictable.insert key }.pushEvictable key
  else .ok p

def remove (key : K) : Except Fault (LRUCachePolicy R K) :=
  if key ∉ p.chunks.keys then .error .keyError
  else .ok { p with
    chunks := p.chunks.erase key
    ranks := p.ranks.erase key
    evictable := p.evictable.erase key }

/-- The body of the loop of `on_request_access`. -/
def accessKey (requestRank : Nat) (ctx : ReqContext R K) (acc : LRUCachePolicy R K × List K)
    (key : K) : Except Fault (LRUCachePolicy R K × List K) :=
  let p := acc.1
  match ctx.position key with
  | none => .ok acc
  | some position =>
    if key ∉ p.chunks.keys then .ok acc
    else
      match p.ranks.get? key with
      | none => .error .keyError
      | some old =>
        let rank : Int × Int := (requestRank, -position)
        if rankLt old rank then
          .ok ({ p with ranks := p.ranks.insert key rank },
            if key ∈ p.evictable then acc.2 ++ [key] else acc.2)
        else .ok acc

def onRequestAccess (keys : List K) (ctx : ReqContext R K) : Except Fault (LRUCachePolicy R K) :=
  let (requestRank, p) := p.getRequestRank ctx.reqId
  (keys.foldlM (accessKey requestRank ctx) (p, [])).bind fun acc => acc.1.updateHeap acc.2

def onRequestFinished (keyGroups : List (List K))
    (ctx : ReqContext R K) : Except Fault (LRUCachePolicy R K) :=
  p.updateRecency (orderRequestKeys keyGroups ctx).reverse

def clear : LRUCachePolicy R K :=
  { p with
    chunks := .empty
    ranks := .empty
    evictable := []
    heap := []
    nextRank := 0
    cacheGeneration := p.cacheGeneration + 1 }

/-- The local variables of `evict`. -/
structure Selection (K : Type) where
  heap : List (HeapEntry K)
  selected : List (HeapEntry K × ChunkStatus) := []
  deferred : List (HeapEntry K) := []

section Evict

variable [LT K] [DecidableLT K]

/-- The order of the tuples in the heap. -/
def entryLt (a b : HeapEntry K) : Bool :=
  rankLt a.1 b.1 || (a.1 == b.1 && decide (a.2 < b.2))

/-- The body of the loop of `evict`. -/
def selectBody (p : LRUCachePolicy R K) (n : Nat) (protectedKeys : Finset K) (sel : Selection K) :
    Except Fault (Next (Selection K)) :=
  if n ≤ sel.selected.length then .ok (.done sel)
  else
    match popLeast entryLt sel.heap with
    | none => .ok (.done sel)
    | some (entry, heap) =>
      let sel := { sel with heap }
      if !p.isCurrent entry then .ok (.again sel)
      else if entry.2 ∈ sel.selected.map fun e => e.1.2 then .ok (.again sel)
      else if entry.2 ∈ protectedKeys then
        .ok (.again { sel with deferred := sel.deferred ++ [entry] })
      else
        match p.chunks.get? entry.2 with
        | none => .error .keyError
        | some chunk =>
          if chunk.refCnt ≠ 0 then .error .assertionError
          else .ok (.again { sel with selected := sel.selected ++ [(entry, chunk)] })

/-- The loop that selects the chunks to evict. -/
def select (p : LRUCachePolicy R K) (n : Nat) (protectedKeys : Finset K) :
    Except Fault (Selection K) :=
  loop (p.selectBody n protectedKeys) (p.heap.length + 1) { heap := p.heap }

/-- Take a selected key out of the policy. -/
def dropKey (p : LRUCachePolicy R K) (key : K) : LRUCachePolicy R K :=
  { p with
    evictable := p.evictable.erase key
    chunks := p.chunks.erase key
    ranks := p.ranks.erase key }

def evict (p : LRUCachePolicy R K) (n : Nat) (protectedKeys : Finset K) :
    Except Fault (Option (List (K × ChunkStatus)) × LRUCachePolicy R K) :=
  if n = 0 then .ok (some [], p)
  else
    (p.select n protectedKeys).bind fun sel =>
      if sel.selected.length < n then
        .ok (none, { p with heap := sel.selected.map Prod.fst ++ sel.deferred ++ sel.heap })
      else
        let p := { p with heap := sel.deferred ++ sel.heap }
        let victims := sel.selected.map fun e => (e.1.2, e.2)
        ((victims.map Prod.fst).foldl dropKey p).maybeCompactHeap.map fun p => (some victims, p)

end Evict

def markEvictable (p : LRUCachePolicy R K) (key : K) : Except Fault (LRUCachePolicy R K) :=
  ({ p with evictable := p.evictable.insert key }.pushEvictable key).bind maybeCompactHeap

def markNonEvictable (p : LRUCachePolicy R K) (key : K) : Except Fault (LRUCachePolicy R K) :=
  if key ∈ p.evictable then .ok { p with evictable := p.evictable.erase key }
  else .error .keyError

instance [LT K] [DecidableLT K] : CachePolicy (LRUCachePolicy R K) R K where
  get := get
  setRefCnt := setRefCnt
  insert := insert
  remove := remove
  onStoreMiss p _ := p
  onRequestAccess := onRequestAccess
  onRequestFinished p keyGroups _ _ ctx := p.onRequestFinished keyGroups ctx
  evict := evict
  clear := clear
  markEvictable := markEvictable
  markNonEvictable := markNonEvictable

end LRUCachePolicy

/-! ## ARC -/

/-- ARC keeps nothing in the contexts of the requests `R`. -/
structure ARCCachePolicy (R K : Type) where
  cacheCapacity : Nat
  targetT1Size : Rat
  t1 : Dict K ChunkStatus
  t2 : Dict K ChunkStatus
  b1 : Dict K Unit
  b2 : Dict K Unit

namespace ARCCachePolicy

variable {R K : Type} [DecidableEq K] (p : ARCCachePolicy R K)

def init (cacheCapacity : Nat) : ARCCachePolicy R K where
  cacheCapacity
  targetT1Size := 0
  t1 := .empty
  t2 := .empty
  b1 := .empty
  b2 := .empty

def get (p : ARCCachePolicy R K) (key : K) : Option ChunkStatus := p.t1.get? key <|> p.t2.get? key

def setRefCnt (p : ARCCachePolicy R K) (key : K) (n : Int) : ARCCachePolicy R K :=
  match p.t1.get? key, p.t2.get? key with
  | some c, _ => { p with t1 := p.t1.insert key { c with refCnt := n } }
  | none, some c => { p with t2 := p.t2.insert key { c with refCnt := n } }
  | none, none => p

def insert (p : ARCCachePolicy R K) (key : K) (chunk : ChunkStatus) : ARCCachePolicy R K :=
  { p with t1 := p.t1.insert key chunk, b1 := p.b1.erase key, b2 := p.b2.erase key }

def remove (p : ARCCachePolicy R K) (key : K) : ARCCachePolicy R K :=
  if key ∈ p.t1.keys then { p with t1 := p.t1.erase key } else { p with t2 := p.t2.erase key }

/-- `_adapt_to_ghost_hit`. The target of the source is a float: where a quotient
  or a sum is not one,
the source rounds it and its target differs from this one. -/
def adaptToGhostHit (key : K) : ARCCachePolicy R K :=
  if key ∈ p.b1.keys then
    let delta : Rat := max 1 (p.b2.keys.length / p.b1.keys.length)
    { p with
      targetT1Size := min (p.targetT1Size + delta) p.cacheCapacity
      b1 := p.b1.moveToEnd key }
  else if key ∈ p.b2.keys then
    let delta : Rat := max 1 (p.b1.keys.length / p.b2.keys.length)
    { p with
      targetT1Size := max (p.targetT1Size - delta) 0
      b2 := p.b2.moveToEnd key }
  else p

def onStoreMiss (keys : List K) : ARCCachePolicy R K :=
  keys.reverse.foldl adaptToGhostHit p

/-- The body of the loop of `on_request_finished`. -/
def finishKey (insertionOnlyKeys reusedKeys : Finset K) (p : ARCCachePolicy R K) (key : K) :
    ARCCachePolicy R K :=
  if key ∈ insertionOnlyKeys then
    if key ∈ p.t1.keys then { p with t1 := p.t1.moveToEnd key }
    else { p with t2 := p.t2.moveToEnd key }
  else if key ∈ reusedKeys then
    match p.t1.get? key with
    | some c => { p with t1 := p.t1.erase key, t2 := p.t2.insert key c }
    | none => { p with t2 := p.t2.moveToEnd key }
  else p

def onRequestFinished (p : ARCCachePolicy R K) (keyGroups : List (List K))
    (insertionOnlyKeys reusedKeys : Finset K) (ctx : ReqContext R K) : ARCCachePolicy R K :=
  (orderRequestKeys keyGroups ctx).reverse.foldl (finishKey insertionOnlyKeys reusedKeys) p

def clear (p : ARCCachePolicy R K) : ARCCachePolicy R K := init p.cacheCapacity

/-- The local variables of `evict`: what is left of the two scans. -/
structure Scan (K : Type) where
  t1 : List (K × ChunkStatus)
  t2 : List (K × ChunkStatus)
  virtualT1Size : Nat
  /-- with a flag for those from `t1` -/
  candidates : List ((K × ChunkStatus) × Bool) := []

/-- `next_candidate`: the next chunk that may go, and the rest of the scan. -/
def nextCandidate (protectedKeys : Finset K) :
    List (K × ChunkStatus) → Option (K × ChunkStatus) × List (K × ChunkStatus)
  | [] => (none, [])
  | e :: rest =>
    if e.2.refCnt = 0 ∧ e.1 ∉ protectedKeys then (some e, rest)
    else nextCandidate protectedKeys rest

/-- Take the next chunk of `t1`, if there is one. -/
def Scan.fromT1 (sc : Scan K) (protectedKeys : Finset K) : Bool × Scan K :=
  match nextCandidate protectedKeys sc.t1 with
  | (some e, rest) => (true, { sc with
      t1 := rest
      virtualT1Size := sc.virtualT1Size - 1
      candidates := sc.candidates ++ [(e, true)] })
  | (none, rest) => (false, { sc with t1 := rest })

/-- Take the next chunk of `t2`, if there is one. -/
def Scan.fromT2 (sc : Scan K) (protectedKeys : Finset K) : Bool × Scan K :=
  match nextCandidate protectedKeys sc.t2 with
  | (some e, rest) => (true, { sc with
      t2 := rest
      candidates := sc.candidates ++ [(e, false)] })
  | (none, rest) => (false, { sc with t2 := rest })

/-- One pass of the selection; `none` if there is no candidate. -/
def Scan.pass (sc : Scan K) (target : Int) (protectedKeys : Finset K) : Option (Scan K) :=
  let (found, sc) :=
    if target ≤ sc.virtualT1Size then sc.fromT1 protectedKeys else (false, sc)
  if found then some sc
  else
    let (found, sc) := sc.fromT2 protectedKeys
    if found then some sc
    else
      let (found, sc) := sc.fromT1 protectedKeys
      if found then some sc else none

/-- The passes of the selection. -/
def Scan.passes (target : Int) (protectedKeys : Finset K) : Nat → Scan K → Option (Scan K)
  | 0, sc => some sc
  | n + 1, sc => (sc.pass target protectedKeys).bind (passes target protectedKeys n)

/-- Move a candidate to its ghost list. -/
def moveToGhost (candidate : (K × ChunkStatus) × Bool) : ARCCachePolicy R K :=
  if candidate.2 then
    { p with t1 := p.t1.erase candidate.1.1, b1 := p.b1.insert candidate.1.1 () }
  else { p with t2 := p.t2.erase candidate.1.1, b2 := p.b2.insert candidate.1.1 () }

def evict (n : Nat) (protectedKeys : Finset K) :
    Option (List (K × ChunkStatus)) × ARCCachePolicy R K :=
  if n = 0 then (some [], p)
  else
    let start : Scan K := ⟨p.t1.entries, p.t2.entries, p.t1.keys.length, []⟩
    match Scan.passes p.targetT1Size.floor protectedKeys n start with
    | none => (none, p)
    | some sc =>
      let p := sc.candidates.foldl moveToGhost p
      (some (sc.candidates.map Prod.fst), { p with
        b1 := p.b1.dropOldest (p.b1.keys.length - p.cacheCapacity)
        b2 := p.b2.dropOldest (p.b2.keys.length - p.cacheCapacity) })

instance : CachePolicy (ARCCachePolicy R K) R K where
  get := get
  setRefCnt := setRefCnt
  insert p key chunk _ := .ok (p.insert key chunk)
  remove p key := .ok (p.remove key)
  onStoreMiss := onStoreMiss
  onRequestAccess p _ _ := .ok p
  onRequestFinished p keyGroups inserted reused ctx :=
    .ok (p.onRequestFinished keyGroups inserted reused ctx)
  evict p n protectedKeys := .ok (p.evict n protectedKeys)
  clear := clear
  markEvictable p _ := .ok p
  markNonEvictable p _ := .ok p

end ARCCachePolicy

end Vllm.Offload
