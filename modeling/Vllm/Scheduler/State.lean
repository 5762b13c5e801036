import Vllm.Scheduler.Request

/-!
# Streaming sessions

What the next input of a streaming session makes of its request
(`_update_request_as_session` in `v1/core/sched/scheduler.py`). The sampling parameters,
which the update replaces as a whole, and the count of waiting sessions are left out.
-/

namespace Vllm.Scheduler

/-- What the update of a session reads of the scheduler. -/
structure Config (R H M : Type) where
  hashBlockSize : Nat
  /-- The hashes of the full blocks that `block_hashes` does not cover yet. -/
  blockHasher : Request R H M → List H

section Session

variable {R H M : Type} (cfg : Config R H M)

/-- An item of the next input, at its position in the session. -/
def shiftFeature (base : Nat) (f : Encoder.MultiModalFeature M) : Encoder.MultiModalFeature M :=
  ⟨f.identifier, ⟨f.mmPosition.offset + base, f.mmPosition.length, f.mmPosition.isEmbed⟩⟩

/-- The session with its next input. The last sampled token is dropped, the other
output tokens become part of the prompt. -/
def Request.continueSession (session : Request R H M) (update : StreamingUpdate M) :
    Request R H M :=
  let keepEnd := session.numTokens - 1
  let kept := (session.allTokenIds.take keepEnd).drop session.numPromptTokens
  let session := { session with
    allTokenIds := session.allTokenIds.take keepEnd ++ update.promptTokenIds
    blockHashes := session.blockHashes.take (keepEnd / cfg.hashBlockSize)
    outputTokenIds := []
    mmFeatures := session.mmFeatures ++ update.mmFeatures.map (shiftFeature keepEnd)
    numPromptTokens := session.numPromptTokens + kept.length + update.promptTokenIds.length
    arrivalTime := update.arrivalTime
    prefixCacheHitLimit := update.prefixCacheHitLimit
    maxTokens := update.maxTokens
    status := .waiting }
  { session with blockHashes := session.blockHashes ++ cfg.blockHasher session }

end Session

end Vllm.Scheduler
