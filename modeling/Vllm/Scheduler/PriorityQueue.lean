import Mathlib.Data.Finset.Card
import Mathlib.Data.Prod.Lex
import Vllm.Library.Heapq
import Vllm.Library.Fallible
import Vllm.Scheduler.State

/-!
# The queue of the priority policy

`PriorityRequestQueue` (`v1/core/sched/request_queue.py`) is a heap of requests that are
compared by their own fields. The scheduler writes `arrival_time` of a streaming session
when its next input comes, and a session that waits for input is in a queue then. The
heap is not told: a session that has moved behind the requests below it stays in front
of them (`pop_after_update`). As long as every update leaves the session between its
neighbours in the heap, each pop returns a least request (`pop_minimal`), and the bag of
requests that the scheduler is modelled with is as good as the heap.
-/

namespace Vllm.Scheduler

open Function Library Library.Heapq List

variable {R H M : Type}

/-- The heap, and the requests that its entries refer to. -/
structure PriorityRequestQueue (R H M : Type) where
  heap : List R
  obj : R → Request R H M

inductive QueueFault
  | indexError
  | valueError
  deriving DecidableEq, Repr

namespace PriorityRequestQueue

section Operations

variable [DecidableEq R] [LT R] [DecidableLT R] (cfg : Config R H M)
  (q : PriorityRequestQueue R H M)

/-- `__lt__` of the requests. -/
def lt (a b : R) : Bool := (q.obj a).lt (q.obj b)

def addRequest (r : R) : PriorityRequestQueue R H M := { q with heap := heappush q.lt q.heap r }

def popRequest : Except QueueFault (R × PriorityRequestQueue R H M) :=
  match heappop q.lt q.heap with
  | none => .error .indexError
  | some (r, heap) => .ok (r, { q with heap })

def peekRequest : Except QueueFault R :=
  match q.heap with
  | [] => .error .indexError
  | r :: _ => .ok r

def prependRequest (r : R) : PriorityRequestQueue R H M := q.addRequest r

def prependRequests (requests : List R) : PriorityRequestQueue R H M :=
  requests.foldl addRequest q

def removeRequest (r : R) : Except QueueFault (PriorityRequestQueue R H M) :=
  if r ∉ q.heap then .error .valueError
  else .ok { q with heap := heapify q.lt (q.heap.erase r) }

def removeRequests (requests : List R) : PriorityRequestQueue R H M :=
  { q with heap := heapify q.lt (q.heap.filter (· ∉ requests)) }

/-- What `_update_request_as_session` writes to the session. -/
def updateSession (r : R) (update : StreamingUpdate M) : PriorityRequestQueue R H M :=
  { q with obj := Function.update q.obj r ((q.obj r).continueSession cfg update) }

end Operations

/-! ## Runs -/

inductive Call (R H M : Type)
  | addRequest (r : R)
  | prependRequest (r : R)
  | prependRequests (requests : List R)
  | peekRequest
  | popRequest
  | removeRequest (r : R)
  | removeRequests (requests : List R)
  | updateSession (r : R) (update : StreamingUpdate M)
  /-- any other write to a request -/
  | write (r : R) (request : Request R H M)

section Runs

variable [DecidableEq R] [LT R] [DecidableLT R] (cfg : Config R H M)
  (q : PriorityRequestQueue R H M)

def exec : Call R H M → Except QueueFault (PriorityRequestQueue R H M)
  | .addRequest r => .ok (q.addRequest r)
  | .prependRequest r => .ok (q.prependRequest r)
  | .prependRequests requests => .ok (q.prependRequests requests)
  | .peekRequest => q.peekRequest.map fun _ => q
  | .popRequest => q.popRequest.map Prod.snd
  | .removeRequest r => q.removeRequest r
  | .removeRequests requests => .ok (q.removeRequests requests)
  | .updateSession r update => .ok (q.updateSession cfg r update)
  | .write r request => .ok { q with obj := Function.update q.obj r request }

/-- What the scheduler does to a request in the queue: the session gets its next input if
it waits for one, and no other write is to the fields that order it. -/
def Scheduled : Call R H M → Prop
  | .updateSession r _ => r ∈ q.heap → (q.obj r).status = .waitingForStreamingReq
  | .write r request => r ∈ q.heap → request.priority = (q.obj r).priority ∧
      request.arrivalTime = (q.obj r).arrivalTime ∧ request.requestId = (q.obj r).requestId
  | _ => True

/-- With the new arrival time, the session is not before the request above it in the heap
and not after those below it. -/
def KeepsPlace (r : R) (arrivalTime : Nat) : Prop :=
  ∀ i < q.heap.length, 0 < i → ∀ a ∈ q.heap[i]?, ∀ b ∈ q.heap[parent i]?,
    (a = r → b ≠ r → Request.lt { q.obj r with arrivalTime := arrivalTime } (q.obj b) = false) ∧
    (b = r → a ≠ r → Request.lt (q.obj a) { q.obj r with arrivalTime := arrivalTime } = false)

/-- The calls of the scheduler, with updates that leave the session in its place. -/
def Ordered (call : Call R H M) : Prop :=
  Scheduled q call ∧ ∀ r update, call = .updateSession r update → q.KeepsPlace r update.arrivalTime

end Runs

/-! ## The order of the queue -/

section Order

variable [LinearOrder R] {cfg : Config R H M} {q q' : PriorityRequestQueue R H M} {r : R}

/-- The fields that order a request. -/
def rank (request : Request R H M) : ℤ ×ₗ ℕ ×ₗ R :=
  toLex (request.priority, toLex (request.arrivalTime, request.requestId))

theorem request_lt_iff (a b : Request R H M) : a.lt b = true ↔ rank a < rank b := by
  rw [rank, rank, Prod.Lex.toLex_lt_toLex, Prod.Lex.toLex_lt_toLex]
  unfold Request.lt
  split
  · next h => simp [h]
  rename_i h
  split
  · next h' => simp [not_not.mp h, h']
  · next h' => simp [not_not.mp h, not_not.mp h']

def InOrder (q : PriorityRequestQueue R H M) : Prop := IsHeap q.lt q.heap

theorem lt_iff (q : PriorityRequestQueue R H M) (a b : R) :
    q.lt a b = true ↔ rank (q.obj a) < rank (q.obj b) :=
  request_lt_iff _ _

theorem InOrder.addRequest (h : q.InOrder) (r : R) : (q.addRequest r).InOrder :=
  heappush_isHeap q.lt_iff h r

theorem popRequest_eq_ok (hpop : q.popRequest = .ok (r, q')) :
    ∃ heap, heappop q.lt q.heap = some (r, heap) ∧ q' = { q with heap := heap } := by
  unfold popRequest at hpop
  split at hpop
  · cases hpop
  rename_i r' heap hheap
  cases hpop
  exact ⟨heap, hheap, rfl⟩

theorem InOrder.popRequest (h : q.InOrder) (hpop : q.popRequest = .ok (r, q')) : q'.InOrder := by
  obtain ⟨heap, hheap, rfl⟩ := popRequest_eq_ok hpop
  exact heappop_isHeap q.lt_iff h hheap

/-- What is popped from a heap is a least request of the queue. -/
theorem InOrder.pop_least (h : q.InOrder) (hpop : q.popRequest = .ok (r, q')) :
    r ∈ q.heap ∧ ∀ r' ∈ q.heap, (q.obj r').lt (q.obj r) = false := by
  obtain ⟨heap, hheap, rfl⟩ := popRequest_eq_ok hpop
  have hmem : r ∈ q.heap := (heappop_perm hheap).mem_iff.mp mem_cons_self
  refine ⟨hmem, fun r' hr' => ?_⟩
  obtain ⟨rest, hhead⟩ : ∃ rest, q.heap = r :: rest := by
    obtain ⟨a, rest, hcons⟩ := exists_cons_of_ne_nil (ne_nil_of_mem hmem)
    obtain ⟨rest', hfirst⟩ := heappop_cons q.lt a rest
    rw [← hcons, hheap] at hfirst
    cases hfirst
    exact ⟨rest, hcons⟩
  rw [← Bool.not_eq_true, request_lt_iff, not_lt]
  rw [hhead] at hr'
  cases hr' with
  | head => exact le_refl _
  | tail _ hr' =>
    have hroot : IsHeap q.lt (r :: rest) := hhead ▸ h
    exact hroot.head_le q.lt_iff r' hr'

/-- A write that leaves a request in its place. -/
theorem InOrder.write (h : q.InOrder) {request : Request R H M}
    (hplace : ∀ i < q.heap.length, 0 < i → ∀ a ∈ q.heap[i]?, ∀ b ∈ q.heap[parent i]?,
      (a = r → b ≠ r → request.lt (q.obj b) = false) ∧
      (b = r → a ≠ r → (q.obj a).lt request = false)) :
    InOrder { q with obj := update q.obj r request } := by
  intro i hi hpos a ha b hb
  obtain ⟨hbelow, habove⟩ := hplace i hi hpos a ha b hb
  show Request.lt (update q.obj r request a) (update q.obj r request b) = false
  by_cases har : a = r <;> by_cases hbr : b = r
  · rw [har, hbr, ← Bool.not_eq_true, request_lt_iff]
    exact lt_irrefl _
  · rw [har, update_self, update_of_ne hbr]
    exact hbelow har hbr
  · rw [hbr, update_self, update_of_ne har]
    exact habove hbr har
  · rw [update_of_ne har, update_of_ne hbr]
    exact h i hi hpos a ha b hb

theorem InOrder.exec {call : Call R H M} (h : q.InOrder) (hordered : Ordered q call)
    (hexec : q.exec cfg call = .ok q') : q'.InOrder := by
  obtain ⟨hscheduled, hplace⟩ := hordered
  cases call with
  | addRequest r | prependRequest r =>
    cases hexec
    exact h.addRequest r
  | prependRequests requests =>
    cases hexec
    exact List.foldlRecOn requests _ (motive := fun q : PriorityRequestQueue R H M => q.InOrder) h
      fun _ hq r _ => hq.addRequest r
  | peekRequest =>
    obtain ⟨-, -, rfl⟩ := map_eq_ok.mp hexec
    exact h
  | popRequest =>
    obtain ⟨⟨r, q₁⟩, hpop, rfl⟩ := map_eq_ok.mp hexec
    exact h.popRequest hpop
  | removeRequest r =>
    have hexec : q.removeRequest r = .ok q' := hexec
    unfold PriorityRequestQueue.removeRequest at hexec
    split at hexec
    · cases hexec
    · cases hexec
      exact heapify_isHeap q.lt_iff _
  | removeRequests requests =>
    cases hexec
    exact heapify_isHeap q.lt_iff _
  | updateSession r update =>
    cases hexec
    exact h.write (hplace r update rfl)
  | write r request =>
    cases hexec
    refine h.write fun i hi hpos a ha b hb => ⟨fun har _ => ?_, fun hbr _ => ?_⟩
    · have hold := h i hi hpos a ha b hb
      obtain ⟨hpriority, harrival, hid⟩ := hscheduled (har ▸ mem_of_getElem? ha)
      subst har
      rw [← hold]
      unfold lt Request.lt
      rw [hpriority, harrival, hid]
    · have hold := h i hi hpos a ha b hb
      obtain ⟨hpriority, harrival, hid⟩ := hscheduled (hbr ▸ mem_of_getElem? hb)
      subst hbr
      rw [← hold]
      unfold lt Request.lt
      rw [hpriority, harrival, hid]

/-- In a run of the scheduler whose updates leave each queued session in its place, a pop
returns a least request among those in the queue. -/
theorem pop_minimal {obj : R → Request R H M}
    (h : Reaches Ordered (exec cfg) { heap := [], obj } q) :
    (q.heap ≠ [] → ∃ r q', q.popRequest = .ok (r, q')) ∧
      ∀ r q', q.popRequest = .ok (r, q') →
        r ∈ q.heap ∧ ∀ r' ∈ q.heap, (q.obj r').lt (q.obj r) = false := by
  have horder : q.InOrder := h.invariant
    (P := fun q : PriorityRequestQueue R H M => q.InOrder)
    (fun i hi => absurd hi (Nat.not_lt_zero i))
    fun _ _ _ hq hordered hexec => hq.exec hordered hexec
  refine ⟨fun hne => ?_, fun r q' hpop => horder.pop_least hpop⟩
  obtain ⟨r, rest, hheap⟩ := exists_cons_of_ne_nil hne
  obtain ⟨rest', hpop⟩ := heappop_cons q.lt r rest
  refine ⟨r, { q with heap := rest' }, ?_⟩
  unfold PriorityRequestQueue.popRequest
  rw [hheap, hpop]

end Order

/-! ## A session that moves behind -/

section Sample

def sampleConfig : Config Nat Nat Nat where
  hashBlockSize := 4
  blockHasher := fun _ => []

/-- The sessions 0 and 1 with their first input, of the times 1 and 2, wait for the next. -/
def sampleSession (r : Nat) : Request Nat Nat Nat where
  requestId := r
  priority := 0
  arrivalTime := r + 1
  status := .waitingForStreamingReq
  maxTokens := 1
  numPromptTokens := 4
  allTokenIds := [1, 2, 3, 4, 5]
  outputTokenIds := [5]
  prefixCacheHitLimit := none
  mmFeatures := []
  blockHashes := []

def sampleUpdate (arrivalTime : Nat) : StreamingUpdate Nat where
  mmFeatures := []
  promptTokenIds := [6, 7]
  maxTokens := 1
  arrivalTime
  prefixCacheHitLimit := none

/-- Session 0 gets its next input after session 1 got its own, and still comes first. -/
theorem pop_after_update :
    ∃ q : PriorityRequestQueue Nat Nat Nat,
      Reaches Scheduled (exec sampleConfig) { heap := [], obj := sampleSession } q ∧
      ∃ r q' r', q.popRequest = .ok (r, q') ∧ r' ∈ q.heap ∧ (q.obj r').lt (q.obj r) = true := by
  have hrun : Reaches Scheduled (exec sampleConfig) { heap := [], obj := sampleSession } _ :=
    .step (a := .updateSession 0 (sampleUpdate 4)) (.step (a := .updateSession 1 (sampleUpdate 3))
      (.step (a := .addRequest 1) (.step (a := .addRequest 0) .refl trivial rfl) trivial rfl)
      (fun _ => rfl) rfl) (fun _ => rfl) rfl
  exact ⟨_, hrun, 0, _, 1, rfl, by decide, by decide⟩

/-- With one input only, the session of the smaller time comes first. -/
theorem pop_minimal_sample :
    ∃ q : PriorityRequestQueue Nat Nat Nat, q.heap = [0, 1] ∧
      ∃ r q', q.popRequest = .ok (r, q') ∧
        r ∈ q.heap ∧ ∀ r' ∈ q.heap, (q.obj r').lt (q.obj r) = false := by
  have hrun : Reaches Ordered (exec sampleConfig) { heap := [], obj := sampleSession } _ :=
    .step (a := .updateSession 1 (sampleUpdate 3))
      (.step (a := .addRequest 1) (.step (a := .addRequest 0) .refl ⟨trivial, nofun⟩ rfl)
        ⟨trivial, nofun⟩ rfl)
      ⟨fun _ => rfl, by
        rintro r update ⟨⟩
        unfold KeepsPlace
        decide⟩ rfl
  obtain ⟨hreturns, hminimal⟩ := pop_minimal hrun
  obtain ⟨r, q', hpop⟩ := hreturns (by decide)
  exact ⟨_, rfl, r, q', hpop, hminimal r q' hpop⟩

end Sample

end PriorityRequestQueue

end Vllm.Scheduler
