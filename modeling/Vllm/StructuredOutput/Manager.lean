import Vllm.Library.Dict
import Vllm.StructuredOutput.Grammar

/-!
# The structured output manager

`StructuredOutputManager` (`v1/structured_output/__init__.py`): where the tokens of a step
start being constrained, the bitmask rows of a step, and the acceptance of what was sampled.
A draft token is `none` where the scheduler holds the `-1` sentinel. Compilation of grammars
and the thread pools are left out; each request has a grammar object of its own.
-/

namespace Vllm.StructuredOutput

open Library

inductive Fault
  | keyError
  /-- a request without `structured_output_request` -/
  | attributeError
  deriving DecidableEq, Repr

structure ConstraintBounds where
  grammarStart : Nat
  constraintStart : Nat
  deriving DecidableEq, Repr

def constrainedFromStart : ConstraintBounds := ⟨0, 0⟩

def noSpecTokens : ConstraintBounds := ⟨1, 1⟩

/-! ## Reasoning parsers -/

structure ReasoningEnd where
  offset : Nat
  implicit : Bool

/-- What `ParserEngine` knows of the tokens that end reasoning, in increasing order. -/
structure ParserEngine where
  reasoningEndTokenIds : List Nat
  reasoningEndTokenId : Option Nat

namespace ParserEngine

def implicitReasoningEndTokenIds (engine : ParserEngine) : List Nat :=
  engine.reasoningEndTokenIds.filter fun tokenId => some tokenId ≠ engine.reasoningEndTokenId

def findReasoningEnd (engine : ParserEngine) (tokenIds : List Nat) : Option ReasoningEnd :=
  if engine.reasoningEndTokenIds = [] then none
  else
    let offset := tokenIds.findIdx (· ∈ engine.reasoningEndTokenIds)
    match tokenIds[offset]? with
    | some tokenId => some ⟨offset, some tokenId ≠ engine.reasoningEndTokenId⟩
    | none => some ⟨tokenIds.length, false⟩

end ParserEngine

/-- A request's `ReasoningParser`, with its engine if it is a `ParserEngineReasoningAdapter`. -/
structure Reasoner where
  isReasoningEnd : List Nat → Bool
  isReasoningEndStreaming : List Nat → List Nat → Bool
  engine : Option ParserEngine

/-! ## Requests -/

structure StructuredOutputRequest (S : Type) where
  grammar : Grammar S
  reasoner : Option Reasoner
  reasoningEnded : Option Bool
  maskedReasoningEndIds : Option (List Nat)

structure Request (S : Type) where
  promptTokenIds : List Nat
  allTokenIds : List Nat
  structuredOutputRequest : Option (StructuredOutputRequest S)

structure ManagerConfig where
  numSpeculativeTokens : Nat
  isDiffusion : Bool
  enableInReasoning : Bool

/-- `fill_bitmask_parallel_threshold`. -/
def fillBitmaskParallelThreshold : Nat := 128

variable {S : Type}

/-- `strip_speculative_padding`. -/
def stripSpeculativePadding (tokenIds : List (Option Nat)) : List Nat :=
  (tokenIds.takeWhile Option.isSome).reduceOption

/-! ## Constraint bounds -/

/-- The loop that takes tokens back until reasoning has not ended, `i` of them left. -/
def takeBack (reasoner : Reasoner) : Nat → List Nat → List Nat → Nat
  | 0, _, _ => 1
  | i + 1, inputIds, deltaIds =>
    if !reasoner.isReasoningEndStreaming inputIds.dropLast deltaIds.dropLast then i + 2
    else takeBack reasoner i inputIds.dropLast deltaIds.dropLast

/-- The bounds while the request is reasoning. -/
def reasoningBounds (reasoner : Reasoner) (allTokenIds specTokens : List Nat)
    (specTokensCommitted : Bool) : ConstraintBounds :=
  if specTokens.length = 0 then noSpecTokens
  else
    match reasoner.engine.bind fun engine => engine.findReasoningEnd specTokens with
    | some ending =>
      if ending.implicit then ⟨ending.offset, ending.offset + 1⟩
      else ⟨ending.offset + 1, ending.offset + 1⟩
    | none =>
      let inputIds := if specTokensCommitted then allTokenIds else allTokenIds ++ specTokens
      let start :=
        if !reasoner.isReasoningEndStreaming inputIds specTokens then specTokens.length + 1
        else takeBack reasoner (specTokens.length - 1) inputIds specTokens
      ⟨start, start⟩

/-- `_get_constraint_bounds`, which may set `reasoning_ended` to `False`. -/
def getConstraintBounds (config : ManagerConfig) (promptTokenIds allTokenIds : List Nat)
    (r : StructuredOutputRequest S) (specTokens : List Nat) (specTokensCommitted : Bool) :
    ConstraintBounds × StructuredOutputRequest S :=
  if config.enableInReasoning then (constrainedFromStart, r)
  else if r.reasoningEnded = some true then (constrainedFromStart, r)
  else
    match r.reasoner with
    | none => (constrainedFromStart, r)
    | some reasoner =>
      if r.reasoningEnded = none && reasoner.isReasoningEnd promptTokenIds then
        (constrainedFromStart, r)
      else
        (reasoningBounds reasoner allTokenIds specTokens specTokensCommitted,
          { r with reasoningEnded := some false })

/-! ## Bitmasks -/

section

variable (m : Machine S)

/-- One entry of `_fill_bitmasks`. -/
def fillRow (grammar : Grammar S) (applyBitmask : Bool) (maskedIds : List Nat) : Row :=
  if applyBitmask && !grammar.isTerminated m then Row.fill m grammar
  else maskedIds.foldl Row.mask Row.full

def computeMaskedEnds (r : StructuredOutputRequest S) : List Nat :=
  match r.reasoner.bind Reasoner.engine with
  | none => []
  | some engine => engine.implicitReasoningEndTokenIds.filter fun tokenId =>
    (r.grammar.validateTokens m [tokenId]).isEmpty

/-- `_masked_reasoning_ends`, computed once per request. -/
def maskedReasoningEnds (r : StructuredOutputRequest S) :
    List Nat × StructuredOutputRequest S :=
  match r.maskedReasoningEndIds with
  | some masked => (masked, r)
  | none =>
    (computeMaskedEnds m r, { r with maskedReasoningEndIds := some (computeMaskedEnds m r) })

/-- The local variables of the loop over the tokens of one request. -/
structure MaskState (S : Type) where
  bitmask : Nat → Row
  grammar : Grammar S
  stateAdvancements : Nat
  paddingOrGrammarInvalid : Bool

/-- The row before `token`, and the grammar after it. -/
def maskToken (bounds : ConstraintBounds) (maskedIds : List Nat) (baseIndex : Nat)
    (st : MaskState S) (entry : Option Nat × Nat) : MaskState S :=
  let i := entry.2
  if st.paddingOrGrammarInvalid then
    { st with
      bitmask := Function.update st.bitmask (baseIndex + i) (fillRow m st.grammar false []) }
  else
    let st :=
      { st with
        bitmask := Function.update st.bitmask (baseIndex + i)
          (fillRow m st.grammar (bounds.constraintStart ≤ i)
            (if i < bounds.constraintStart then maskedIds else [])) }
    match entry.1 with
    | none => { st with paddingOrGrammarInvalid := true }
    | some token =>
      if bounds.grammarStart ≤ i then
        if !st.grammar.isTerminated m && (st.grammar.acceptTokens m [token]).1 then
          { st with
            grammar := (st.grammar.acceptTokens m [token]).2
            stateAdvancements := st.stateAdvancements + 1 }
        else { st with paddingOrGrammarInvalid := true }
      else st

variable (config : ManagerConfig)

/-- The serial branch of `grammar_bitmask`, for one request. -/
def fillSerial (request : Request S) (r : StructuredOutputRequest S)
    (reqTokens : List (Option Nat)) (baseIndex : Nat) (bitmask : Nat → Row) :
    (Nat → Row) × StructuredOutputRequest S :=
  let (bounds, r) := getConstraintBounds config request.promptTokenIds request.allTokenIds r
    (stripSpeculativePadding reqTokens) false
  let (maskedIds, r) := if bounds.constraintStart ≠ 0 then maskedReasoningEnds m r else ([], r)
  -- diffusion models sample no bonus token
  let tokensToMask :=
    if !(config.isDiffusion && !reqTokens.isEmpty) then reqTokens ++ [none] else reqTokens
  let st := tokensToMask.zipIdx.foldl (maskToken m bounds maskedIds baseIndex)
    ⟨bitmask, r.grammar, 0, false⟩
  let grammar :=
    if 0 < st.stateAdvancements then Grammar.rollback st.stateAdvancements st.grammar
    else st.grammar
  (st.bitmask, { r with grammar := grammar })

/-- The parallel branch, without speculative tokens; its rows are filled in batches. -/
def fillParallel (request : Request S) (r : StructuredOutputRequest S) (index : Nat)
    (bitmask : Nat → Row) : (Nat → Row) × StructuredOutputRequest S :=
  let (bounds, r) := getConstraintBounds config request.promptTokenIds request.allTokenIds r
    [] false
  let applyBitmask := bounds.constraintStart = 0
  let (maskedIds, r) := if applyBitmask then ([], r) else maskedReasoningEnds m r
  (Function.update bitmask index (fillRow m r.grammar applyBitmask maskedIds), r)

def maskStride : Nat := config.numSpeculativeTokens + if config.isDiffusion then 0 else 1

def fillRequest (parallel : Bool) (request : Request S) (r : StructuredOutputRequest S)
    (reqTokens : List (Option Nat)) (grammarIdx : Nat) (bitmask : Nat → Row) :
    (Nat → Row) × StructuredOutputRequest S :=
  if parallel then fillParallel m config request r grammarIdx bitmask
  else fillSerial m config request r reqTokens (grammarIdx * maskStride config) bitmask

variable {Id : Type} [DecidableEq Id]

/-- `requests[req_id]` and its turn in the loop of `grammar_bitmask`. -/
def fillNext (parallel : Bool) (scheduledSpecDecodeTokens : Dict Id (List (Option Nat)))
    (acc : (Nat → Row) × Dict Id (Request S)) (entry : Id × Nat) :
    Except Fault ((Nat → Row) × Dict Id (Request S)) :=
  match acc.2.get? entry.1 with
  | none => .error .keyError
  | some request =>
    match request.structuredOutputRequest with
    | none => .error .attributeError
    | some r =>
      let reqTokens := (scheduledSpecDecodeTokens.get? entry.1).getD []
      let (bitmask, r) := fillRequest m config parallel request r reqTokens entry.2 acc.1
      .ok (bitmask, acc.2.insert entry.1 { request with structuredOutputRequest := some r })

/-- `grammar_bitmask`, from the rows of the step before. -/
def grammarBitmask (requests : Dict Id (Request S)) (structuredOutputRequestIds : List Id)
    (scheduledSpecDecodeTokens : Dict Id (List (Option Nat))) (bitmask : Nat → Row) :
    Except Fault (Option (Nat → Row) × Dict Id (Request S)) :=
  if structuredOutputRequestIds = [] then .ok (none, requests)
  else
    let parallel := fillBitmaskParallelThreshold < structuredOutputRequestIds.length &&
      config.numSpeculativeTokens == 0
    (structuredOutputRequestIds.zipIdx.foldlM
      (fillNext m config parallel scheduledSpecDecodeTokens) (bitmask, requests)).map
        fun (bitmask, requests) => (some bitmask, requests)

/-! ## Acceptance -/

/-- `accept_tokens`, once `new_token_ids` are in `all_token_ids`. -/
def acceptTokens (request : Request S) (newTokenIds : List Nat) : Bool × Request S :=
  match request.structuredOutputRequest with
  | none => (true, request)
  | some r =>
    if newTokenIds = [] then (true, request)
    else
      let (bounds, r) := getConstraintBounds config request.promptTokenIds request.allTokenIds r
        newTokenIds true
      if newTokenIds.length < bounds.grammarStart then
        (true, { request with structuredOutputRequest := some r })
      else
        let (accepted, grammar) :=
          r.grammar.acceptTokens m (newTokenIds.drop bounds.grammarStart)
        let r := { r with reasoningEnded := some true, grammar := grammar }
        (accepted, { request with structuredOutputRequest := some r })

/-- `trim_spec_tokens`. -/
def trimSpecTokens (request : Request S) (specTokens : List (Option Nat)) :
    List (Option Nat) × Request S :=
  match request.structuredOutputRequest with
  | none => (specTokens, request)
  | some r =>
    let stripped := stripSpeculativePadding specTokens
    let (bounds, r) := getConstraintBounds config request.promptTokenIds request.allTokenIds r
      stripped false
    let request := { request with structuredOutputRequest := some r }
    if stripped.length ≤ bounds.grammarStart then (stripped.map some, request)
    else if r.grammar.isTerminated m then ((stripped.take bounds.grammarStart).map some, request)
    else
      let lenValidated := (r.grammar.validateTokens m (stripped.drop bounds.grammarStart)).length
      ((stripped.take bounds.grammarStart ++
        (stripped.drop bounds.grammarStart).take (lenValidated + 1)).map some, request)

end

end Vllm.StructuredOutput
