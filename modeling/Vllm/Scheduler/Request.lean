import Vllm.Encoder.CacheManager

/-!
# Requests

`Request` (`v1/request.py`) with the fields that order it in a queue and those that the
next input of a streaming session changes.
-/

namespace Vllm.Scheduler

inductive RequestStatus
  | waiting
  | waitingForStructuredOutputGrammar
  | waitingForRemoteKvs
  | waitingForStreamingReq
  | running
  | preempted
  | finishedStopped
  | finishedLengthCapped
  | finishedAborted
  | finishedIgnored
  | finishedError
  | finishedRepetition
  deriving DecidableEq, Repr

/-- The next input of a streaming session. `prefixCacheHitLimit` is what
`get_prefix_cache_hit_limit` computes from the new parameters. -/
structure StreamingUpdate (M : Type) where
  mmFeatures : List (Encoder.MultiModalFeature M)
  promptTokenIds : List Nat
  maxTokens : Nat
  arrivalTime : Nat
  prefixCacheHitLimit : Option Nat

structure Request (R H M : Type) where
  requestId : R
  priority : Int
  arrivalTime : Nat
  status : RequestStatus
  maxTokens : Nat
  numPromptTokens : Nat
  allTokenIds : List Nat
  outputTokenIds : List Nat
  prefixCacheHitLimit : Option Nat
  mmFeatures : List (Encoder.MultiModalFeature M)
  blockHashes : List H

namespace Request

variable {R H M : Type} (request : Request R H M)

def numTokens : Nat := request.allTokenIds.length

/-- `__lt__`: by priority, arrival time and id. -/
def lt [LT R] [DecidableLT R] (a b : Request R H M) : Bool :=
  if a.priority ≠ b.priority then decide (a.priority < b.priority)
  else if a.arrivalTime ≠ b.arrivalTime then decide (a.arrivalTime < b.arrivalTime)
  else decide (a.requestId < b.requestId)

end Request

end Vllm.Scheduler
