import Mathlib.Data.List.Chain
import Vllm.Engine.OutputProcessor

/-!
# The stream interval

`stream_interval` says after how many tokens `make_request_output` makes the next output of a
request. In DELTA mode the tokens that were sent are counted, and outputs are that far apart,
except that the end of a chunk of a streaming session is sent at once. In CUMULATIVE mode the count
stays zero, every call passes for the first one, and outputs are apart only as far as the engine
core puts them.
-/

namespace Vllm.Engine

open Library Detokenizer List

/-- Every output of the engine core makes the tokens of a request more, also when a stop string cuts
some of them off. -/
class LawfulDetokenizer (δ : Type) [Detokenizer δ] : Prop where
  lt_numOutputTokens_update (d : δ) {newTokenIds : List Nat} (stopTerminated : Bool) :
    newTokenIds ≠ [] → numOutputTokens d < numOutputTokens (update d newTokenIds stopTerminated).1
  numOutputTokens_text (d : δ) (finished delta : Bool) :
    numOutputTokens (getNextOutputText d finished delta).1 = numOutputTokens d

instance : LawfulDetokenizer IncrementalDetokenizer where
  lt_numOutputTokens_update d newTokenIds _ hne := by
    have := length_pos_iff.mpr hne
    show d.tokenIds.length < (d.tokenIds ++ newTokenIds).length
    rw [length_append]
    omega
  numOutputTokens_text _ _ _ := rfl

namespace RequestState

variable {δ : Type} [Detokenizer δ]

/-- The tokens that a request has generated. -/
def numOutputTokens (st : RequestState δ) : Nat :=
  (st.detokenizer.map Detokenizer.numOutputTokens).getD 0

/-- What `process_outputs` does with an output for a request without parent: whether a request
output is made of it, whether it ends a chunk of a session, and the state if the request goes on. -/
def feed (st : RequestState δ) (output : EngineCoreOutput) :
    Except Fault (Bool × Bool × Option (RequestState δ)) :=
  if output.error.isSome && st.queue.isSome then .ok (false, false, none)
  else do
    let a ← OutputProcessor.absorb st output
    let (requestOutput, st, _) ← a.st.makeRequestOutput (fun _ => ⟨"", "", {}, [], []⟩)
      a.newTokenIds a.poolingOutput a.finishReason a.stopReason a.requestError
    if a.finishReason.isNone then return (requestOutput.isSome, false, some st)
    else if OutputProcessor.chunkBoundary a.st a.finishReason then
      return (requestOutput.isSome, true, some st.endChunk)
    else return (requestOutput.isSome, false, none)

/-- What comes to a request: outputs of the engine core, and the inputs of its session. -/
inductive Event
  | output (output : EngineCoreOutput)
  | input (request : EngineCoreRequest) (prompt : Option String)

/-- What an output of the engine core does to a request that goes on. -/
structure Step where
  numNewTokens : Nat
  /-- The tokens that are generated after it. -/
  numOutputTokens : Nat
  endsChunk : Bool
  sent : Bool

/-- The steps until the request is finished. -/
def run (st : RequestState δ) : List Event → Except Fault (List Step)
  | [] => .ok []
  | .input request prompt :: events =>
    match st.receive request prompt with
    | none => .ok []
    | some st => st.run events
  | .output output :: events => do
    let (sent, endsChunk, next) ← st.feed output
    match next with
    | none => return []
    | some st' =>
      let steps ← st'.run events
      let numNewTokens := st'.numOutputTokens - st.numOutputTokens
      return ⟨numNewTokens, st'.numOutputTokens, endsChunk, sent⟩ :: steps

/-- The numbers of tokens at which request outputs were made. -/
def sentAt (steps : List Step) : List Nat := (steps.filter Step.sent).map Step.numOutputTokens

/-- Between two request outputs there are at least `interval` new tokens. -/
def Apart (interval : Nat) (steps : List Step) : Prop :=
  (sentAt steps).IsChain fun n m => n + interval ≤ m

/-- No chunk ends before `interval` tokens, counted from the last step that filled an interval;
`since` of them are there already. -/
def ChunksPaced (interval since : Nat) : List Step → Prop
  | [] => True
  | step :: steps =>
    if interval ≤ since + step.numNewTokens then ChunksPaced interval 0 steps
    else step.endsChunk = false ∧ ChunksPaced interval (since + step.numNewTokens) steps

/-! ## One output of the engine core -/

/-- A request that streams its tokens with an interval. -/
structure Streaming (interval : Nat) (outputKind : RequestOutputKind) (st : RequestState δ) :
    Prop where
  streams : outputKind ≠ .finalOnly
  one_lt : 1 < interval
  interval_eq : st.streamInterval = interval
  kind_eq : st.outputKind = outputKind
  alone : st.parentReq = none
  sampling : st.detokenizer.isSome

variable {st st' : RequestState δ} {output : EngineCoreOutput} {interval : Nat}
  {outputKind : RequestOutputKind} {sent endsChunk : Bool}

section

omit [Detokenizer δ]

theorem Streaming.setSent (h : Streaming interval outputKind st) (n : Nat) :
    Streaming interval outputKind { st with sentTokensOffset := n } :=
  { h with }

/-- The inputs of a session leave alone what decides about the outputs. -/
structure SameOutputs (st st' : RequestState δ) : Prop where
  interval : st'.streamInterval = st.streamInterval
  kind : st'.outputKind = st.outputKind
  parent : st'.parentReq = st.parentReq
  detokenizer : st'.detokenizer = st.detokenizer
  offset : st'.sentTokensOffset = st.sentTokensOffset

theorem Streaming.same (h : Streaming interval outputKind st) (hsame : SameOutputs st st') :
    Streaming interval outputKind st' where
  streams := h.streams
  one_lt := h.one_lt
  interval_eq := hsame.interval.trans h.interval_eq
  kind_eq := hsame.kind.trans h.kind_eq
  alone := hsame.parent.trans h.alone
  sampling := hsame.detokenizer ▸ h.sampling

theorem sameOutputs_endChunk (st : RequestState δ) : SameOutputs st st.endChunk := by
  unfold endChunk
  split <;> exact ⟨rfl, rfl, rfl, rfl, rfl⟩

theorem sameOutputs_receive {request : EngineCoreRequest} {prompt : Option String}
    (h : st.receive request prompt = some st') : SameOutputs st st' := by
  unfold receive at h
  split at h
  · split at h <;> cases h <;> exact ⟨rfl, rfl, rfl, rfl, rfl⟩
  · split at h <;> cases h <;> exact ⟨rfl, rfl, rfl, rfl, rfl⟩

end

theorem SameOutputs.numOutputTokens (h : SameOutputs st st') :
    st'.numOutputTokens = st.numOutputTokens := by
  rw [RequestState.numOutputTokens, h.detokenizer, RequestState.numOutputTokens]

variable [LawfulDetokenizer δ] {tokens : List Nat} {finishReason : Option FinishReason}
  {stopReason : Option StopReason}

section

variable (hst : Streaming interval outputKind st)
include hst

theorem absorb_streaming {a : OutputProcessor.Absorbed δ} (hpooling : output.poolingOutput = false)
    (htokens : output.newTokenIds ≠ []) (h : OutputProcessor.absorb st output = .ok a) :
    Streaming interval outputKind a.st ∧ a.poolingOutput = false ∧
      a.st.sentTokensOffset = st.sentTokensOffset ∧ st.numOutputTokens < a.st.numOutputTokens := by
  unfold OutputProcessor.absorb at h
  dsimp only at h
  rw [if_neg (by simp [hpooling, Option.isSome_iff_ne_none.mp hst.sampling])] at h
  split at h
  · cases h
  rename_i d hd
  have hlt : st.numOutputTokens < Detokenizer.numOutputTokens
      (update d output.newTokenIds (output.finishReason = some .stop)).1 := by
    simpa [numOutputTokens, hd] using LawfulDetokenizer.lt_numOutputTokens_update d _ htokens
  split at h
  · split at h <;> cases h <;> exact ⟨{ hst with sampling := rfl }, rfl, rfl, hlt⟩
  · cases h
    exact ⟨{ hst with sampling := rfl }, rfl, rfl, hlt⟩

omit [LawfulDetokenizer δ] in
theorem sendTokens_streaming {finished : Bool} {o : Option (List Nat × RequestState δ)}
    (h : st.sendTokens tokens finished = .ok o) :
    (o = none ∧ finished = false ∧ st.sentTokensOffset ≠ 0 ∧
        st.numOutputTokens - st.sentTokensOffset < interval) ∨
      (finished = true ∨ st.sentTokensOffset = 0 ∨
          interval ≤ st.numOutputTokens - st.sentTokensOffset) ∧
        ∃ tokens', o = some (tokens', { st with sentTokensOffset :=
          if outputKind = .delta then st.numOutputTokens else st.sentTokensOffset }) := by
  obtain ⟨-, hone, rfl, rfl, -, hsampling⟩ := hst
  unfold sendTokens at h
  rw [if_pos hone] at h
  split at h
  · cases h
  rename_i d hd
  have hcount : Detokenizer.numOutputTokens d = st.numOutputTokens := by
    simp [numOutputTokens, hd]
  rw [hcount] at h
  split at h
  · next hwait =>
    exact .inl ⟨(Except.ok.inj h).symm, by simpa [and_assoc] using hwait⟩
  rename_i hsend
  have hready : finished = true ∨ st.sentTokensOffset = 0 ∨
      st.streamInterval ≤ st.numOutputTokens - st.sentTokensOffset := by
    cases finished with
    | true => exact .inl rfl
    | false => exact .inr (or_iff_not_imp_left.mpr (by simpa using hsend))
  refine .inr ⟨hready, ?_⟩
  split at h
  · next hdelta =>
    cases h
    exact ⟨_, by rw [if_pos hdelta]⟩
  · next hdelta =>
    cases h
    exact ⟨_, by rw [if_neg hdelta]⟩

theorem newCompletionOutput_keeps {completion : CompletionOutput}
    (h : st.newCompletionOutput tokens finishReason stopReason = .ok (completion, st')) :
    Streaming interval outputKind st' ∧ st'.numOutputTokens = st.numOutputTokens ∧
      st'.sentTokensOffset = st.sentTokensOffset := by
  obtain ⟨d, hd⟩ := Option.isSome_iff_exists.mp hst.sampling
  simp only [newCompletionOutput, hd] at h
  cases h
  refine ⟨{ hst with sampling := rfl }, ?_, rfl⟩
  simp [numOutputTokens, hd, LawfulDetokenizer.numOutputTokens_text]

/-- When a request output is made, and what is then counted as sent. -/
theorem makeRequestOutput_streaming {parents parents' : Nat → ParentRequest}
    {error : Option RequestError} {out : Option RequestOutput}
    (h : st.makeRequestOutput parents tokens false finishReason stopReason error =
      .ok (out, st', parents')) :
    Streaming interval outputKind st' ∧ st'.numOutputTokens = st.numOutputTokens ∧
      (out.isSome ↔ finishReason.isSome = true ∨ st.sentTokensOffset = 0 ∨
        interval ≤ st.numOutputTokens - st.sentTokensOffset) ∧
      st'.sentTokensOffset = if out.isSome ∧ outputKind = .delta then st.numOutputTokens
        else st.sentTokensOffset := by
  simp only [makeRequestOutput, hst.kind_eq, hst.streams, decide_false, Bool.and_false,
    Bool.false_eq_true, if_false] at h
  obtain ⟨o, hsend, h⟩ := bind_eq_ok.mp h
  rcases sendTokens_streaming hst hsend with ⟨rfl, hgoing, hpos, hlt⟩ | ⟨hready, tokens', rfl⟩
  · cases h
    exact ⟨hst, rfl, by simp [hgoing]; omega, by simp⟩
  · obtain ⟨⟨completion, st₂⟩, hcompletion, h⟩ := bind_eq_ok.mp h
    obtain ⟨hst₂, hcount, hoffset⟩ := newCompletionOutput_keeps (hst.setSent _) hcompletion
    simp only [hst₂.alone] at h
    obtain ⟨ids, -, h⟩ := bind_eq_ok.mp h
    cases h
    exact ⟨hst₂, hcount, by simpa using hready, by simpa using hoffset⟩

/-- An output after which the request goes on: it is sent at the end of a chunk, as the first one
and when the interval is reached. -/
theorem feed_streaming (hpooling : output.poolingOutput = false) (htokens : output.newTokenIds ≠ [])
    (h : st.feed output = .ok (sent, endsChunk, some st')) :
    Streaming interval outputKind st' ∧ st.numOutputTokens < st'.numOutputTokens ∧
      (sent = true ↔ endsChunk = true ∨ st.sentTokensOffset = 0 ∨
        interval ≤ st'.numOutputTokens - st.sentTokensOffset) ∧
      st'.sentTokensOffset = if sent = true ∧ outputKind = .delta then st'.numOutputTokens
        else st.sentTokensOffset := by
  unfold feed at h
  split at h
  · cases h
  obtain ⟨a, habsorb, h⟩ := bind_eq_ok.mp h
  obtain ⟨⟨out, st₂, parents⟩, hmake, h⟩ := bind_eq_ok.mp h
  obtain ⟨hst₁, hnot, hoffset, hcount⟩ := absorb_streaming hst hpooling htokens habsorb
  rw [hnot] at hmake
  obtain ⟨hst₂, hcount₂, hsent, hoffset₂⟩ := makeRequestOutput_streaming hst₁ hmake
  rw [← hcount₂, hoffset] at hsent hoffset₂
  rw [← hcount₂] at hcount
  dsimp only at h
  split at h
  · next hgoing =>
    cases h
    rw [Option.isNone_iff_eq_none.mp hgoing] at hsent
    exact ⟨hst₂, hcount, hsent, hoffset₂⟩
  · next hends =>
    split at h
    · cases h
      have hsame := sameOutputs_endChunk st₂
      rw [hsame.numOutputTokens, hsame.offset]
      refine ⟨hst₂.same hsame, hcount, hsent.trans ?_, hoffset₂⟩
      simp [Option.isSome_iff_ne_none, mt Option.isNone_iff_eq_none.mpr hends]
    · cases h

end

/-! ## Whole runs -/

section Runs

variable {event : Event} {events : List Event} {steps : List Step}

/-- Outputs of the engine core with at least one new token. -/
def Event.Generates : Event → Prop
  | .output output => output.newTokenIds ≠ [] ∧ output.poolingOutput = false
  | .input _ _ => True

/-- A run with an event: no step is made any more, the event is an input, or it makes a step. -/
theorem run_cons_cases (hst : Streaming interval outputKind st) (hevent : event.Generates)
    (h : st.run (event :: events) = .ok steps) :
    steps = [] ∨
      (∃ st₁, SameOutputs st st₁ ∧ st₁.run events = .ok steps) ∨
      ∃ (st₁ : RequestState δ) (sent endsChunk : Bool) (rest : List Step),
        Streaming interval outputKind st₁ ∧ st.numOutputTokens < st₁.numOutputTokens ∧
        (sent = true ↔ endsChunk = true ∨ st.sentTokensOffset = 0 ∨
          interval ≤ st₁.numOutputTokens - st.sentTokensOffset) ∧
        (st₁.sentTokensOffset = if sent = true ∧ outputKind = .delta then st₁.numOutputTokens
          else st.sentTokensOffset) ∧
        st₁.run events = .ok rest ∧
        steps = ⟨st₁.numOutputTokens - st.numOutputTokens, st₁.numOutputTokens, endsChunk,
          sent⟩ :: rest := by
  cases event with
  | input request prompt =>
    unfold run at h
    split at h
    · exact .inl (Except.ok.inj h).symm
    · next st₁ hreceive => exact .inr (.inl ⟨st₁, sameOutputs_receive hreceive, h⟩)
  | output output =>
    obtain ⟨⟨sent, endsChunk, next⟩, hfeed, h⟩ := bind_eq_ok.mp h
    dsimp only at h
    split at h
    · exact .inl (Except.ok.inj h).symm
    · next st₁ =>
      obtain ⟨rest, hrest, h⟩ := bind_eq_ok.mp h
      obtain ⟨hst₁, hlt, hsent, hoffset⟩ := feed_streaming hst hevent.2 hevent.1 hfeed
      exact .inr (.inr ⟨st₁, sent, endsChunk, rest, hst₁, hlt, hsent, hoffset, hrest,
        (Except.ok.inj h).symm⟩)

variable (hevents : ∀ event ∈ events, event.Generates)
include hevents

/-- In DELTA mode the next request output is an interval away from what was sent, unless a chunk
ends before. -/
theorem sentAt_delta (hst : Streaming interval .delta st) (hpos : 0 < st.sentTokensOffset)
    (hle : st.sentTokensOffset ≤ st.numOutputTokens) (h : st.run events = .ok steps) :
    ((st.sentTokensOffset :: sentAt steps).IsChain fun n m => n + interval ≤ m) ↔
      ChunksPaced interval (st.numOutputTokens - st.sentTokensOffset) steps := by
  induction events generalizing st steps with
  | nil =>
    cases h
    exact iff_of_true (.singleton _) trivial
  | cons event events ih =>
    rw [forall_mem_cons] at hevents
    rcases run_cons_cases hst hevents.1 h with rfl | ⟨st₁, hsame, hrun⟩ |
      ⟨st₁, sent, endsChunk, rest, hst₁, hlt, hsent, hoffset, hrest, rfl⟩
    · exact iff_of_true (.singleton _) trivial
    · have hih := ih hevents.2 (hst.same hsame) (by rwa [hsame.offset])
        (by rwa [hsame.offset, hsame.numOutputTokens]) hrun
      rwa [hsame.offset, hsame.numOutputTokens] at hih
    · have hsince : st.numOutputTokens - st.sentTokensOffset +
          (st₁.numOutputTokens - st.numOutputTokens) =
            st₁.numOutputTokens - st.sentTokensOffset := by omega
      rw [ChunksPaced, hsince]
      dsimp only
      cases sent with
      | true =>
        rw [if_pos ⟨rfl, rfl⟩] at hoffset
        have hih := ih hevents.2 hst₁ (by omega) (by omega) hrest
        rw [hoffset, Nat.sub_self] at hih
        show (st.sentTokensOffset :: st₁.numOutputTokens :: sentAt rest).IsChain _ ↔ _
        rw [isChain_cons_cons, hih]
        split
        · next hfull => exact and_iff_right (by omega)
        · next hshort =>
          -- the chunk ends, but not an interval behind what was sent
          have hends : endsChunk = true := (hsent.mp rfl).resolve_right (by omega)
          exact iff_of_false (fun hboth => by omega) fun hboth => by simp [hends] at hboth
      | false =>
        have hwait := mt hsent.mpr Bool.false_ne_true
        rw [if_neg fun hboth => Bool.false_ne_true hboth.1] at hoffset
        have hih := ih hevents.2 hst₁ (by omega) (by omega) hrest
        rw [hoffset] at hih
        have hends : endsChunk = false := Bool.eq_false_iff.mpr fun hends => hwait (.inl hends)
        rw [if_neg fun hfull => hwait (.inr (.inr hfull)), and_iff_right hends]
        exact hih

/-- In CUMULATIVE mode every step sends, as nothing is ever counted as sent. -/
theorem sentAt_cumulative (hst : Streaming interval .cumulative st)
    (hzero : st.sentTokensOffset = 0)
    (h : st.run events = .ok steps) :
    ((st.numOutputTokens :: sentAt steps).IsChain fun n m => n + interval ≤ m) ↔
      ∀ step ∈ steps, interval ≤ step.numNewTokens := by
  induction events generalizing st steps with
  | nil =>
    cases h
    exact iff_of_true (.singleton _) nofun
  | cons event events ih =>
    rw [forall_mem_cons] at hevents
    rcases run_cons_cases hst hevents.1 h with rfl | ⟨st₁, hsame, hrun⟩ |
      ⟨st₁, sent, endsChunk, rest, hst₁, hlt, hsent, hoffset, hrest, rfl⟩
    · exact iff_of_true (.singleton _) nofun
    · have hih := ih hevents.2 (hst.same hsame) (hsame.offset.trans hzero) hrun
      rwa [hsame.numOutputTokens] at hih
    · obtain rfl : sent = true := hsent.mpr (.inr (.inl hzero))
      rw [hzero] at hoffset
      rw [forall_mem_cons, ← ih hevents.2 hst₁ hoffset hrest]
      show (st.numOutputTokens :: st₁.numOutputTokens :: sentAt rest).IsChain _ ↔ _
      rw [isChain_cons_cons]
      refine and_congr_left fun _ => ?_
      have hone := hst.one_lt
      show _ ↔ interval ≤ st₁.numOutputTokens - st.numOutputTokens
      omega

omit hevents [LawfulDetokenizer δ] [Detokenizer δ] in
theorem chunksPaced_of_le {since : Nat} (h : ∀ step ∈ steps, interval ≤ step.numNewTokens) :
    ChunksPaced interval since steps := by
  induction steps generalizing since with
  | nil => trivial
  | cons step steps ih =>
    rw [forall_mem_cons] at h
    rw [ChunksPaced, if_pos (by omega)]
    exact ih h.2

/-- The first output is sent, and the mode decides about the others. -/
theorem apart_of_unsent (hst : Streaming interval outputKind st) (hzero : st.sentTokensOffset = 0)
    (h : st.run events = .ok steps) :
    Apart interval steps ↔ (outputKind = .delta ∧ ChunksPaced interval 0 steps.tail) ∨
      ∀ step ∈ steps.tail, interval ≤ step.numNewTokens := by
  induction events generalizing st steps with
  | nil =>
    cases h
    exact iff_of_true .nil (.inr nofun)
  | cons event events ih =>
    rw [forall_mem_cons] at hevents
    rcases run_cons_cases hst hevents.1 h with rfl | ⟨st₁, hsame, hrun⟩ |
      ⟨st₁, sent, endsChunk, rest, hst₁, hlt, hsent, hoffset, hrest, rfl⟩
    · exact iff_of_true .nil (.inr nofun)
    · exact ih hevents.2 (hst.same hsame) (hsame.offset.trans hzero) hrun
    obtain rfl : sent = true := hsent.mpr (.inr (.inl hzero))
    show (st₁.numOutputTokens :: sentAt rest).IsChain _ ↔
      (outputKind = .delta ∧ ChunksPaced interval 0 rest) ∨ ∀ step ∈ rest, _
    cases outputKind with
    | finalOnly => exact absurd rfl hst.streams
    | delta =>
      rw [if_pos ⟨rfl, rfl⟩] at hoffset
      have hdelta := sentAt_delta hevents.2 hst₁ (by omega) (by omega) hrest
      rw [hoffset, Nat.sub_self] at hdelta
      rw [hdelta]
      exact ⟨fun hpaced => .inl ⟨rfl, hpaced⟩, fun hor => hor.elim And.right chunksPaced_of_le⟩
    | cumulative =>
      rw [hzero] at hoffset
      rw [sentAt_cumulative hevents.2 hst₁ hoffset hrest]
      exact (or_iff_right fun hdelta => nomatch hdelta.1).symm

end Runs

/-- The outputs of a request without parent, from its start on, are apart by the stream interval
just if the mode is DELTA and no chunk of the session ends inside an interval, or the engine core
itself brings that many tokens with each output after the first. -/
theorem apart_iff {request : EngineCoreRequest} {params : SamplingParams} {prompt : Option String}
    {requestIndex streamInterval : Nat} {queue : Option Nat}
    (hparams : request.samplingParams = some params) (hmode : params.outputKind ≠ .finalOnly)
    (hnew : fromNewRequest request prompt none requestIndex queue streamInterval = .ok st)
    (hinterval : 1 < st.streamInterval) {events : List Event}
    (hevents : ∀ event ∈ events, event.Generates) {steps : List Step}
    (hrun : st.run events = .ok steps) :
    Apart st.streamInterval steps ↔
      (params.outputKind = .delta ∧ ChunksPaced st.streamInterval 0 steps.tail) ∨
        ∀ step ∈ steps.tail, st.streamInterval ≤ step.numNewTokens := by
  obtain ⟨hst, hzero⟩ : Streaming st.streamInterval params.outputKind st ∧
      st.sentTokensOffset = 0 := by
    simp only [fromNewRequest, paramsOf, hparams] at hnew
    obtain ⟨_, h, hnew⟩ := bind_eq_ok.mp hnew
    cases h
    split at hnew
    · cases hnew
      exact ⟨⟨hmode, hinterval, rfl, rfl, rfl, rfl⟩, rfl⟩
    · cases hnew
  exact apart_of_unsent hevents hst hzero hrun

/-- A request of one prompt token that asks for an interval of two tokens. -/
def pairwise (outputKind : RequestOutputKind) (resumable : Bool) : EngineCoreRequest where
  requestId := "0"
  externalReqId := some "0"
  promptTokenIds := some [1]
  samplingParams := some { outputKind, streamInterval := some 2 }
  resumable

def oneToken (token : Nat) (finishReason : Option FinishReason) : Event :=
  .output { requestId := "0", newTokenIds := [token], finishReason }

/-- In CUMULATIVE mode the second token is sent right after the first. -/
theorem cumulative_not_apart :
    ∃ st : RequestState IncrementalDetokenizer,
      fromNewRequest (pairwise .cumulative false) none none 0 none 1 = .ok st ∧
        st.streamInterval = 2 ∧
      st.run [oneToken 5 none, oneToken 6 none] = .ok [⟨1, 1, false, true⟩, ⟨1, 2, false, true⟩] ∧
      ¬ Apart 2 [⟨1, 1, false, true⟩, ⟨1, 2, false, true⟩] :=
  ⟨_, rfl, rfl, rfl, by simp [Apart, sentAt]⟩

/-- In DELTA mode the second output waits for the third token, which ends a chunk here. -/
def deltaSteps : List Step :=
  [⟨1, 1, false, true⟩, ⟨1, 2, false, false⟩, ⟨1, 3, true, true⟩, ⟨1, 4, false, false⟩]

def deltaEvents : List Event :=
  [oneToken 5 none, oneToken 6 none, oneToken 7 (some .stop), .input (pairwise .delta true) none,
    oneToken 8 none]

theorem apart_iff_delta :
    ∃ st : RequestState IncrementalDetokenizer,
      fromNewRequest (pairwise .delta true) none none 0 none 1 = .ok st ∧
      st.run deltaEvents = .ok deltaSteps ∧ Apart st.streamInterval deltaSteps := by
  have hparams : (pairwise .delta true).samplingParams = some ⟨1, .delta, some 2⟩ := rfl
  refine ⟨_, rfl, rfl, (apart_iff hparams (by decide)
    (show fromNewRequest (pairwise .delta true) none none 0 none 1 = .ok _ from rfl) Nat.one_lt_two
    (show ∀ event ∈ deltaEvents, event.Generates by simp [deltaEvents, oneToken, Event.Generates])
    ?_).mpr (.inl ⟨rfl, ?_⟩)⟩
  · rfl
  · simp [ChunksPaced, deltaSteps]

end RequestState

end Vllm.Engine
