import Vllm.Library.Dict
import Vllm.Library.Fallible

/-!
# The output processor

`OutputProcessor` of `v1/engine/output_processor.py` and `ParentRequest` of
`v1/engine/parallel_sampling.py`. Three maps say what is alive: `requestStates` by internal id,
`externalReqIds` from the id of the caller to the internal ids made for it, and `parentRequests`
for the requests that ask for several samples. A parent object is shared by the states of its
children and by `parentRequests`, so parents are kept apart under references.

How a request turns tokens to text is a parameter (`Detokenizer`). An output queue is the list of
what was put to it.
-/

namespace Vllm.Engine

open Library

inductive RequestOutputKind
  | cumulative
  | delta
  | finalOnly
  deriving DecidableEq, Repr

inductive FinishReason
  | stop
  | length
  | abort
  | error
  | repetition
  deriving DecidableEq, Repr

inductive StopReason
  | token (id : Nat)
  | text (text : String)
  deriving DecidableEq, Repr

structure RequestError where
  code : String
  message : String
  retryable : Bool := false
  deriving DecidableEq, Repr

inductive Fault
  | assertion
  | keyError
  | indexError
  | valueError
  | recursionError
  deriving DecidableEq, Repr

structure SamplingParams where
  n : Nat := 1
  outputKind : RequestOutputKind := .cumulative
  streamInterval : Option Nat := none
  deriving DecidableEq, Repr

structure EngineCoreRequest where
  requestId : String
  externalReqId : Option String
  promptTokenIds : Option (List Nat)
  /-- The number of rows of `prompt_embeds`. -/
  promptEmbeds : Option Nat := none
  samplingParams : Option SamplingParams
  /-- The output kind of `pooling_params`. -/
  poolingParams : Option RequestOutputKind := none
  resumable : Bool := false
  deriving DecidableEq, Repr

structure EngineCoreOutput where
  requestId : String
  newTokenIds : List Nat
  /-- Whether `pooling_output` is there. -/
  poolingOutput : Bool := false
  finishReason : Option FinishReason := none
  stopReason : Option StopReason := none
  mmCacheMissHashes : List String := []
  error : Option RequestError := none
  deriving DecidableEq, Repr

def EngineCoreOutput.finished (output : EngineCoreOutput) : Bool := output.finishReason.isSome

structure CompletionOutput where
  index : Nat
  text : String
  tokenIds : List Nat
  finishReason : Option FinishReason
  stopReason : Option StopReason
  deriving DecidableEq, Repr

def CompletionOutput.finished (output : CompletionOutput) : Bool := output.finishReason.isSome

inductive RequestOutput
  | completion (requestId : String) (prompt : Option String) (promptTokenIds : List Nat)
      (outputs : List (Option CompletionOutput)) (finished : Bool)
  | pooling (requestId : String) (promptTokenIds : List Nat) (finished : Bool)
      (error : Option RequestError)
  deriving DecidableEq, Repr

/-- `request_output.finished = False` -/
def RequestOutput.unfinish : RequestOutput → RequestOutput
  | .completion requestId prompt promptTokenIds outputs _ =>
    .completion requestId prompt promptTokenIds outputs false
  | .pooling requestId promptTokenIds _ error => .pooling requestId promptTokenIds false error

inductive Delivery
  | output (output : RequestOutput)
  | exception (error : RequestError)
  | streamFinished
  deriving DecidableEq, Repr

/-! ### Parallel sampling -/

structure ParentRequest where
  requestId : String
  externalReqId : String
  samplingParams : SamplingParams
  childRequests : List String
  outputAggregator : List (Option CompletionOutput)
  deriving DecidableEq, Repr

namespace ParentRequest

variable (p : ParentRequest)

/-- `ParentRequest(request)` -/
def new (request : EngineCoreRequest) : Except Fault ParentRequest :=
  match request.externalReqId, request.samplingParams with
  | some externalReqId, some samplingParams => .ok
    { requestId := request.requestId
      externalReqId
      samplingParams
      childRequests := []
      outputAggregator :=
        if samplingParams.outputKind = .finalOnly then List.replicate samplingParams.n none
        else [] }
  | _, _ => .error .assertion

/-- `f"{index}_{self.request_id}"` -/
def childReqId (requestId : String) (index : Nat) : String := index.repr ++ ("_" ++ requestId)

def childSamplingParams : SamplingParams := { p.samplingParams with n := 1 }

def getChildInfo (index : Nat) : ParentRequest :=
  { p with childRequests := List.insert (childReqId p.requestId index) p.childRequests }

/-- `self.child_requests.discard(child_request_id)` -/
def discard (childRequestId : String) : ParentRequest :=
  { p with childRequests := p.childRequests.erase childRequestId }

def getOutputs (childRequestId : String) (output : CompletionOutput) :
    Except Fault (List (Option CompletionOutput) × Bool × ParentRequest) :=
  let alreadyFinishedAndReturned := output.finished && !p.childRequests.contains childRequestId
  let p := if output.finished then p.discard childRequestId else p
  if p.samplingParams.outputKind ≠ .finalOnly then
    .ok (if alreadyFinishedAndReturned then [] else [some output], p.childRequests.isEmpty, p)
  else if output.index < p.outputAggregator.length then
    let p := { p with outputAggregator := p.outputAggregator.set output.index (some output) }
    .ok (if p.childRequests.isEmpty then p.outputAggregator else [], p.childRequests.isEmpty, p)
  else .error .indexError

end ParentRequest

/-- `IncrementalDetokenizer` -/
class Detokenizer (δ : Type) where
  fromNewRequest : EngineCoreRequest → δ
  outputTokenIds : δ → List Nat
  numOutputTokens : δ → Nat
  /-- The state after new tokens, and the stop string that they complete. -/
  update : δ → List Nat → Bool → δ × Option String
  getNextOutputText : δ → Bool → Bool → δ × String

/-- A request without tokenizer collects its tokens only. -/
structure IncrementalDetokenizer where
  tokenIds : List Nat
  deriving DecidableEq, Repr

instance : Detokenizer IncrementalDetokenizer where
  fromNewRequest _ := ⟨[]⟩
  outputTokenIds d := d.tokenIds
  numOutputTokens d := d.tokenIds.length
  update d newTokenIds _ := (⟨d.tokenIds ++ newTokenIds⟩, none)
  getNextOutputText d _ _ := (d, "")

open Detokenizer

/-! ### The state of a request -/

structure StreamingUpdate where
  prompt : Option String
  promptTokenIds : Option (List Nat)
  final : Bool := false
  deriving DecidableEq, Repr

structure RequestState (δ : Type) where
  requestId : String
  externalReqId : String
  parentReq : Option Nat
  requestIndex : Nat
  outputKind : RequestOutputKind
  prompt : Option String
  promptTokenIds : Option (List Nat)
  promptEmbeds : Option Nat
  promptLen : Nat
  detokenizer : Option δ
  isPrefilling : Bool
  queue : Option Nat
  streamInterval : Nat
  sentTokensOffset : Nat
  streamingInput : Bool
  inputChunkQueue : Option (List StreamingUpdate)

namespace RequestState

variable {δ : Type}

def applyStreamingUpdate (st : RequestState δ) (update : StreamingUpdate) : RequestState δ :=
  let prompt := match update.prompt with
    | none => st.prompt
    | some text => if text = "" then st.prompt else some (st.prompt.getD "" ++ text)
  let promptTokenIds := st.promptTokenIds.getD [] ++ update.promptTokenIds.getD []
  { st with
    streamingInput := !update.final
    prompt
    promptTokenIds := some promptTokenIds
    promptLen := promptTokenIds.length
    isPrefilling := true }

variable (st : RequestState δ)

/-- The state of a session behind a chunk of its input. -/
def endChunk : RequestState δ :=
  match st.inputChunkQueue with
  | some (update :: updates) =>
    { st with inputChunkQueue := some updates }.applyStreamingUpdate update
  | _ => { st with inputChunkQueue := none }

/-- The state with the next input of its session, or `none` if the last input comes after the
end of all chunks. -/
def receive (request : EngineCoreRequest) (prompt : Option String) : Option (RequestState δ) :=
  if !request.resumable then
    match st.inputChunkQueue with
    | none => none
    | some [] => some { st with streamingInput := false }
    | some (update :: updates) =>
      let updates := (update :: updates).modify updates.length ({ · with final := true })
      some { st with inputChunkQueue := some updates }
  else
    let update : StreamingUpdate := { prompt, promptTokenIds := request.promptTokenIds }
    match st.inputChunkQueue with
    | none => some { st.applyStreamingUpdate update with inputChunkQueue := some [] }
    | some updates => some { st with inputChunkQueue := some (updates ++ [update]) }

variable [Detokenizer δ]

/-- The fields of a new state that depend on the kind of request: output kind, stream interval
and detokenizer. -/
def paramsOf (request : EngineCoreRequest) (streamInterval : Nat) :
    Except Fault (RequestOutputKind × Nat × Option δ) :=
  match request.samplingParams, request.poolingParams with
  | some params, _ =>
    .ok (params.outputKind, max (params.streamInterval.getD 0) streamInterval,
      some (Detokenizer.fromNewRequest request))
  | none, some outputKind => .ok (outputKind, streamInterval, none)
  | none, none => .error .assertion

def fromNewRequest (request : EngineCoreRequest) (prompt : Option String) (parentReq : Option Nat)
    (requestIndex : Nat) (queue : Option Nat) (streamInterval : Nat) :
    Except Fault (RequestState δ) := do
  let (outputKind, streamInterval, detokenizer) ← paramsOf request streamInterval
  let some externalReqId := request.externalReqId | .error .assertion
  return {
    requestId := request.requestId
    externalReqId
    parentReq
    requestIndex
    outputKind
    prompt
    promptTokenIds := request.promptTokenIds
    promptEmbeds := request.promptEmbeds
    promptLen := match request.promptTokenIds with
      | some ids => ids.length
      | none => request.promptEmbeds.getD 0
    detokenizer
    isPrefilling := true
    queue
    streamInterval
    sentTokensOffset := 0
    streamingInput := request.resumable
    inputChunkQueue := if request.resumable then some [] else none }

/-- The prompt of an output, where zeros stand for embeddings. -/
def outputPromptTokenIds : Except Fault (List Nat) :=
  match st.promptTokenIds, st.promptEmbeds with
  | some ids, _ => .ok ids
  | none, some rows => .ok (List.replicate rows 0)
  | none, none => .error .assertion

/-- The tokens to send now, or `none` while the stream interval is not reached. -/
def sendTokens (newTokenIds : List Nat) (finished : Bool) :
    Except Fault (Option (List Nat × RequestState δ)) :=
  if 1 < st.streamInterval then
    match st.detokenizer with
    | none => .error .assertion
    | some d =>
      if !finished && st.sentTokensOffset != 0 &&
          numOutputTokens d - st.sentTokensOffset < st.streamInterval then
        .ok none
      else if st.outputKind = .delta then
        .ok (some ((outputTokenIds d).drop st.sentTokensOffset,
          { st with sentTokensOffset := numOutputTokens d }))
      else .ok (some (newTokenIds, st))
  else .ok (some (newTokenIds, st))

def newCompletionOutput (tokenIds : List Nat)
    (finishReason : Option FinishReason) (stopReason : Option StopReason) :
    Except Fault (CompletionOutput × RequestState δ) :=
  match st.detokenizer with
  | none => .error .assertion
  | some d =>
    let delta := st.outputKind = .delta
    let (d, text) := getNextOutputText d finishReason.isSome delta
    .ok ({ index := st.requestIndex
           text
           tokenIds := if delta then tokenIds else outputTokenIds d
           finishReason
           stopReason := if finishReason.isSome then stopReason else none },
      { st with detokenizer := some d })

def makeRequestOutput (parents : Nat → ParentRequest)
    (newTokenIds : List Nat) (poolingOutput : Bool) (finishReason : Option FinishReason)
    (stopReason : Option StopReason) (error : Option RequestError) :
    Except Fault (Option RequestOutput × RequestState δ × (Nat → ParentRequest)) :=
  let finished := finishReason.isSome
  if !finished && st.outputKind = .finalOnly then .ok (none, st, parents)
  else if poolingOutput then do
    let promptTokenIds ← st.outputPromptTokenIds
    return (some (.pooling st.externalReqId promptTokenIds finished error), st, parents)
  else do
    match ← st.sendTokens newTokenIds finished with
    | none => return (none, st, parents)
    | some (newTokenIds, st) =>
      let (output, st) ← st.newCompletionOutput newTokenIds finishReason stopReason
      match st.parentReq with
      | none =>
        let promptTokenIds ← st.outputPromptTokenIds
        return (some (.completion st.externalReqId st.prompt promptTokenIds [some output]
          finished), st, parents)
      | some ref =>
        let (outputs, finished, parent) ← (parents ref).getOutputs st.requestId output
        let parents := Function.update parents ref parent
        if outputs.isEmpty then return (none, st, parents)
        else
          let promptTokenIds ← st.outputPromptTokenIds
          return (some (.completion parent.externalReqId st.prompt promptTokenIds outputs
            finished), st, parents)

end RequestState

/-! ### The processor -/

structure OutputProcessor (δ : Type) where
  streamInterval : Nat
  requestStates : Dict String (RequestState δ)
  parentRequests : Dict String Nat
  externalReqIds : Dict String (List String)
  /-- The parent objects by reference, and the reference of the next one. -/
  parents : Nat → ParentRequest
  nextParent : Nat
  queues : Nat → List Delivery

namespace OutputProcessor

variable {δ : Type}

def init (streamInterval : Nat) : OutputProcessor δ where
  streamInterval
  requestStates := .empty
  parentRequests := .empty
  externalReqIds := .empty
  parents := fun _ => ⟨"", "", {}, [], []⟩
  nextParent := 0
  queues := fun _ => []

def hasRequest (s : OutputProcessor δ) (requestId : String) : Bool :=
  (s.requestStates.get? requestId).isSome

/-- `queue.put` for a request that has a queue. -/
def put (s : OutputProcessor δ) (queue : Option Nat) (d : Delivery) : OutputProcessor δ :=
  match queue with
  | none => s
  | some q => { s with queues := Function.update s.queues q (s.queues q ++ [d]) }

/-- `internal_ids.remove(request_id)` with the deletion of a list that becomes empty. The lookup
of a missing key makes an empty list, from which nothing can be removed. -/
def dropExternal (s : OutputProcessor δ) (externalReqId requestId : String) :
    Except Fault (OutputProcessor δ) :=
  let internalIds := (s.externalReqIds.get? externalReqId).getD []
  if requestId ∈ internalIds then
    let internalIds := internalIds.erase requestId
    .ok { s with externalReqIds :=
      if internalIds.isEmpty then s.externalReqIds.erase externalReqId
      else s.externalReqIds.insert externalReqId internalIds }
  else .error .valueError

/-- `_finish_request` -/
def finishRequest (s : OutputProcessor δ) (st : RequestState δ) :
    Except Fault (OutputProcessor δ) :=
  if s.hasRequest st.requestId then do
    let s := { s with requestStates := s.requestStates.erase st.requestId }
    let s ← s.dropExternal st.externalReqId st.requestId
    match st.parentReq with
    | none => return s
    | some ref =>
      let parent := (s.parents ref).discard st.requestId
      let s := { s with parents := Function.update s.parents ref parent }
      if parent.childRequests.isEmpty then
        return { s with parentRequests := s.parentRequests.erase parent.requestId }
      else return s
  else .error .keyError

/-- `req_state` is the object in `request_states`, so writes to it are seen there. -/
def write (s : OutputProcessor δ) (st : RequestState δ) : OutputProcessor δ :=
  { s with requestStates := s.requestStates.insert st.requestId st }

def updateStreamingRequestState (s : OutputProcessor δ) (st : RequestState δ)
    (request : EngineCoreRequest) (prompt : Option String) : Except Fault (OutputProcessor δ) :=
  match st.receive request prompt with
  | some st => .ok (s.write st)
  | none => do
    let s ← s.finishRequest st
    return s.put st.queue .streamFinished

variable [Detokenizer δ] (s : OutputProcessor δ)

def addRequest (request : EngineCoreRequest) (prompt : Option String)
    (parentReq : Option Nat) (requestIndex : Nat) (queue : Option Nat) :
    Except Fault (OutputProcessor δ) :=
  match s.requestStates.get? request.requestId with
  | some st => s.updateStreamingRequestState st request prompt
  | none => do
    let st ← RequestState.fromNewRequest request prompt parentReq requestIndex queue
      s.streamInterval
    let s := { s with requestStates := s.requestStates.insert request.requestId st }
    let s := match parentReq with
      | none => s
      | some ref =>
        { s with parentRequests := s.parentRequests.insert (s.parents ref).requestId ref }
    let internalIds := (s.externalReqIds.get? st.externalReqId).getD []
    return { s with externalReqIds :=
      s.externalReqIds.insert st.externalReqId (internalIds ++ [request.requestId]) }

/-- The request of a child: a copy with an id and parameters of its own. -/
def childRequest (request : EngineCoreRequest) (parent : ParentRequest) (index : Nat) :
    EngineCoreRequest :=
  { request with
    requestId := ParentRequest.childReqId parent.requestId index
    samplingParams := some parent.childSamplingParams }

/-- The fan-out of `AsyncLLM.add_request`, which names all children before it adds the first. -/
def fanOutAsync (request : EngineCoreRequest) (prompt : Option String)
    (queue : Option Nat) : Except Fault (OutputProcessor δ) := do
  let parent ← ParentRequest.new request
  let indices := List.range parent.samplingParams.n
  let ref := s.nextParent
  let s := { s with
    parents := Function.update s.parents ref (indices.foldl ParentRequest.getChildInfo parent)
    nextParent := ref + 1 }
  indices.foldlM (fun s index =>
    s.addRequest (childRequest request parent index) prompt (some ref) index queue) s

/-- The fan-out of `LLMEngine.add_request`, which names each child right before it adds it. -/
def fanOut (request : EngineCoreRequest) (prompt : Option String) :
    Except Fault (OutputProcessor δ) := do
  let parent ← ParentRequest.new request
  let ref := s.nextParent
  let s := { s with parents := Function.update s.parents ref parent, nextParent := ref + 1 }
  (List.range parent.samplingParams.n).foldlM (fun s index =>
    let s := { s with
      parents := Function.update s.parents ref ((s.parents ref).getChildInfo index) }
    s.addRequest (childRequest request parent index) prompt (some ref) index none) s

/-! ### Outputs of the engine -/

/-- What an output of the engine core becomes before it is delivered. -/
structure Absorbed (δ : Type) where
  st : RequestState δ
  newTokenIds : List Nat
  poolingOutput : Bool
  finishReason : Option FinishReason
  stopReason : Option StopReason
  requestError : Option RequestError

/-- `_trim_surplus_tokens` -/
def trimSurplusTokens (newTokenIds : List Nat) (numPrevTokens numTokens : Nat) : List Nat :=
  newTokenIds.take (numTokens - numPrevTokens)

/-- Detokenization and the stop check. -/
def absorb (st : RequestState δ) (output : EngineCoreOutput) : Except Fault (Absorbed δ) :=
  let st := { st with isPrefilling := false }
  let cacheMiss := st.detokenizer.isNone && !output.mmCacheMissHashes.isEmpty &&
    output.finishReason = some .error
  let requestError := if cacheMiss then
    some ⟨"multimodal_cache_miss", "Multi-modal processor cache miss.", true⟩ else none
  if output.poolingOutput || cacheMiss then
    .ok ⟨st, output.newTokenIds, true, output.finishReason, output.stopReason, requestError⟩
  else match st.detokenizer with
    | none => .error .assertion
    | some d =>
      let (d', stopString) :=
        Detokenizer.update d output.newTokenIds (output.finishReason = some .stop)
      let st := { st with detokenizer := some d' }
      match stopString with
      | some text =>
        if text = "" then
          .ok ⟨st, output.newTokenIds, false, output.finishReason, output.stopReason, none⟩
        else
          .ok ⟨st, trimSurplusTokens output.newTokenIds (numOutputTokens d) (numOutputTokens d'),
            false, some .stop, some (.text text), none⟩
      | none => .ok ⟨st, output.newTokenIds, false, output.finishReason, output.stopReason, none⟩

/-- A streaming input session goes on after this output. -/
def chunkBoundary (st : RequestState δ) (finishReason : Option FinishReason) : Bool :=
  st.streamingInput && finishReason ≠ some .abort && finishReason ≠ some .error

/-- The request output goes to the queue, or else to the returned list. -/
def deliver (st : RequestState δ) (boundary : Bool) :
    Option RequestOutput → OutputProcessor δ × List RequestOutput
  | none => (s, [])
  | some output =>
    let output := if boundary then output.unfinish else output
    if st.queue.isSome then (s.put st.queue (.output output), []) else (s, [output])

/-- `Free completed requests.` -/
def settle (st : RequestState δ) (output : EngineCoreOutput)
    (boundary : Bool) : Except Fault (OutputProcessor δ × List String) :=
  if boundary then .ok (s.write st.endChunk, [])
  else do
    let s ← s.finishRequest st
    return (s, if st.streamingInput || !output.finished then [st.requestId] else [])

/-- The body of the loop of `process_outputs`. -/
def processOutput (output : EngineCoreOutput) :
    Except Fault (OutputProcessor δ × List RequestOutput × List String) :=
  match s.requestStates.get? output.requestId with
  | none => .ok (s, [], [])
  | some st =>
    match output.error, st.queue with
    | some error, some _ => do
      let s ← (s.put st.queue (.exception error)).finishRequest st
      return (s, [], if st.streamingInput then [output.requestId] else [])
    | _, _ => do
      let a ← absorb st output
      let boundary := chunkBoundary a.st a.finishReason
      let (requestOutput, st, parents) ← a.st.makeRequestOutput s.parents a.newTokenIds
        a.poolingOutput a.finishReason a.stopReason a.requestError
      let (s, outputs) := ({ s with parents }.write st).deliver st boundary requestOutput
      if a.finishReason.isSome then do
        let (s, reqsToAbort) ← s.settle st output boundary
        return (s, outputs, reqsToAbort)
      else return (s, outputs, [])

def processOutputs (outputs : List EngineCoreOutput) :
    Except Fault (OutputProcessor δ × List RequestOutput × List String) :=
  outputs.foldlM (fun acc output => do
    let (s, requestOutputs, reqsToAbort) ← acc.1.processOutput output
    return (s, acc.2.1 ++ requestOutputs, acc.2.2 ++ reqsToAbort)) (s, [], [])

/-! ### Aborts -/

/-- The first loop of `abort_requests`, for one internal id. -/
def takeInternal (requestId : String) : Except Fault (OutputProcessor δ) :=
  match s.requestStates.get? requestId with
  | none => .ok s
  | some st => s.dropExternal st.externalReqId requestId

/-- The first loop of `abort_requests`, for one external id. -/
def takeExternal (acc : List String × OutputProcessor δ) (externalReqId : String) :
    List String × OutputProcessor δ :=
  (acc.1 ++ (acc.2.externalReqIds.get? externalReqId).getD [],
    { acc.2 with externalReqIds := acc.2.externalReqIds.erase externalReqId })

/-- The first loop of `abort_requests`: the internal ids to abort, out of the external map. -/
def takeIds (requestIds : List String) (internal : Bool) :
    Except Fault (List String × OutputProcessor δ) :=
  if internal then do
    let s ← requestIds.foldlM takeInternal s
    return (requestIds, s)
  else .ok (requestIds.foldl takeExternal ([], s))

/-- The second loop of `abort_requests`, for one internal id. The children of a parent are aborted
by `abortChildren`. -/
def abortOne (abortChildren : OutputProcessor δ → List String →
      Except Fault (List String × OutputProcessor δ))
    (acc : List String × OutputProcessor δ) (requestId : String) :
    Except Fault (List String × OutputProcessor δ) :=
  let s := acc.2
  match s.requestStates.get? requestId with
  | some st => do
    let s := { s with requestStates := s.requestStates.erase requestId }
    if st.queue.isSome then
      let (requestOutput, _, parents) ← st.makeRequestOutput s.parents [] st.detokenizer.isNone
        (some .abort) none none
      let s := { s with parents }
      return (acc.1 ++ [requestId], match requestOutput with
        | none => s
        | some output => s.put st.queue (.output output))
    else return (acc.1 ++ [requestId], s)
  | none =>
    match s.parentRequests.get? requestId with
    | none => .ok acc
    | some ref => do
      let children := (s.parents ref).childRequests
      let (aborted, s) ← if children.isEmpty then .ok ([], s) else abortChildren s children
      return (acc.1 ++ aborted, { s with parentRequests := s.parentRequests.erase requestId })

/-- `abort_requests`, with at most `depth` calls inside each other. -/
def abortRequests : Nat → OutputProcessor δ → List String → Bool →
    Except Fault (List String × OutputProcessor δ)
  | 0, _, _, _ => .error .recursionError
  | depth + 1, s, requestIds, internal => do
    let (internalReqIds, s) ← s.takeIds requestIds internal
    internalReqIds.foldlM (abortOne fun s children => abortRequests depth s children true) ([], s)

end OutputProcessor

end Vllm.Engine
