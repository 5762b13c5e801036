import Vllm.Engine.OutputProcessor

/-!
# What the output processor has registered

`Registered` says that the maps hold what is alive and nothing else. `Tidy` is the invariant that
carries it, and `Sound` the part of it that holds inside the functions too. This file has the
lemmas of the functions that write to a live request or finish one; an output of the engine core
keeps `Tidy`.
-/

namespace Vllm.Engine

open Function Library List

/-- What the maps depend on. -/
structure Facts where
  externalReqId : String
  parentReq : Option Nat
  queued : Bool

variable {finished : Bool}

namespace RequestState

variable {δ : Type}

def facts (st : RequestState δ) : Facts := ⟨st.externalReqId, st.parentReq, st.queue.isSome⟩

/-- A child is a sampling request, and never a session of streaming inputs. -/
structure WellFormed (id : String) (st : RequestState δ) : Prop where
  requestId : st.requestId = id
  sampling : st.parentReq.isSome → st.detokenizer.isSome
  streaming : st.parentReq.isSome → st.streamingInput = false
  chunks : st.parentReq.isSome → st.inputChunkQueue = none

/-- Two states of one request between two of its inputs. -/
structure SameRequest (st st' : RequestState δ) : Prop where
  requestId : st'.requestId = st.requestId
  facts : st'.facts = st.facts
  sampling : st'.detokenizer.isSome = st.detokenizer.isSome
  streaming : st'.streamingInput = st.streamingInput
  chunks : st'.inputChunkQueue = st.inputChunkQueue

variable {st st' st'' : RequestState δ} {id : String}

theorem SameRequest.refl (st : RequestState δ) : SameRequest st st := ⟨rfl, rfl, rfl, rfl, rfl⟩

theorem SameRequest.trans (h : SameRequest st st') (h' : SameRequest st' st'') :
    SameRequest st st'' :=
  ⟨h'.requestId.trans h.requestId, h'.facts.trans h.facts, h'.sampling.trans h.sampling,
    h'.streaming.trans h.streaming, h'.chunks.trans h.chunks⟩

theorem SameRequest.parentReq (h : SameRequest st st') : st'.parentReq = st.parentReq :=
  congrArg Facts.parentReq h.facts

theorem SameRequest.wellFormed (h : SameRequest st st') (hst : st.WellFormed id) :
    st'.WellFormed id := by
  refine ⟨h.requestId.trans hst.requestId, ?_, ?_, ?_⟩
  · rw [h.parentReq, h.sampling]
    exact hst.sampling
  · rw [h.parentReq, h.streaming]
    exact hst.streaming
  · rw [h.parentReq, h.chunks]
    exact hst.chunks

/-- A request without parent may be in any state. -/
theorem wellFormed_of_alone (hid : st.requestId = id) (halone : st.parentReq = none) :
    st.WellFormed id := by
  refine ⟨hid, ?_, ?_, ?_⟩ <;> (rw [halone]; exact fun h => nomatch h)

/-! ### What the functions of a request change -/

variable [Detokenizer δ] {tokens : List Nat}

theorem sendTokens_same {tokens' : List Nat}
    (h : st.sendTokens tokens finished = .ok (some (tokens', st'))) : SameRequest st st' := by
  unfold sendTokens at h
  split at h
  · split at h
    · cases h
    split at h
    · cases h
    split at h
    · cases h
      exact ⟨rfl, rfl, rfl, rfl, rfl⟩
    · cases h
      exact .refl st
  · cases h
    exact .refl st

theorem sendTokens_finished {o : Option (List Nat × RequestState δ)}
    (h : st.sendTokens tokens true = .ok o) : o.isSome := by
  unfold sendTokens at h
  split at h
  · split at h
    · cases h
    rw [if_neg (by simp)] at h
    split at h
    · cases h
      rfl
    · cases h
      rfl
  · cases h
    rfl

theorem newCompletionOutput_same {finishReason : Option FinishReason}
    {stopReason : Option StopReason} {output : CompletionOutput}
    (h : st.newCompletionOutput tokens finishReason stopReason = .ok (output, st')) :
    SameRequest st st' ∧ output.finished = finishReason.isSome := by
  unfold newCompletionOutput at h
  split at h
  · cases h
  rename_i d hd
  cases h
  exact ⟨⟨rfl, rfl, by simp [hd], rfl, rfl⟩, rfl⟩

end RequestState

/-- The children of a parent after an output of one of them. -/
theorem ParentRequest.getOutputs_spec {p p' : ParentRequest} {id : String}
    {output : CompletionOutput} {outputs : List (Option CompletionOutput)}
    (h : p.getOutputs id output = .ok (outputs, finished, p')) :
    p'.requestId = p.requestId ∧ p'.childRequests =
      if output.finished then p.childRequests.erase id else p.childRequests := by
  unfold getOutputs at h
  dsimp only at h
  generalize hq : (if output.finished = true then p.discard id else p) = q at h
  have hstruck : q.requestId = p.requestId ∧ q.childRequests =
      if output.finished then p.childRequests.erase id else p.childRequests := by
    subst hq
    split <;> exact ⟨rfl, rfl⟩
  split at h
  · cases h
    exact hstruck
  split at h
  · cases h
    exact hstruck
  · cases h

variable {parents : Nat → ParentRequest}

namespace RequestState

variable {δ : Type} {st st' : RequestState δ}

/-- How an output of `st` changes the parents: a finished child may be struck from its parent. -/
structure Strikes (st : RequestState δ) (finished : Bool) (parents parents' : Nat → ParentRequest) :
    Prop where
  requestId : ∀ ref, (parents' ref).requestId = (parents ref).requestId
  children : ∀ ref, (parents' ref).childRequests = (parents ref).childRequests ∨
    finished = true ∧ st.parentReq = some ref ∧
      (parents' ref).childRequests = (parents ref).childRequests.erase st.requestId

theorem Strikes.refl (st : RequestState δ) (finished : Bool) (parents : Nat → ParentRequest) :
    Strikes st finished parents parents :=
  ⟨fun _ => rfl, fun _ => .inl rfl⟩

theorem Strikes.of_update {ref : Nat} {parent : ParentRequest} (hparent : st.parentReq = some ref)
    (hid : parent.requestId = (parents ref).requestId)
    (hchildren : parent.childRequests = if finished then
      (parents ref).childRequests.erase st.requestId else (parents ref).childRequests) :
    Strikes st finished parents (Function.update parents ref parent) := by
  refine ⟨fun r => ?_, fun r => ?_⟩
  · by_cases hr : r = ref
    · subst hr
      rw [update_self]
      exact hid
    · rw [update_of_ne hr]
  · by_cases hr : r = ref
    · subst hr
      rw [update_self, hchildren]
      cases finished with
      | true => exact .inr ⟨rfl, hparent, rfl⟩
      | false => exact .inl rfl
    · rw [update_of_ne hr]
      exact .inl rfl

variable [Detokenizer δ] {parents parents' : Nat → ParentRequest} {tokens : List Nat}
  {pooling : Bool}
  {finishReason : Option FinishReason} {stopReason : Option StopReason}
  {error : Option RequestError} {out : Option RequestOutput}

theorem makeRequestOutput_spec
    (h : st.makeRequestOutput parents tokens pooling finishReason stopReason error =
      .ok (out, st', parents')) :
    SameRequest st st' ∧ Strikes st finishReason.isSome parents parents' ∧
      (pooling = false → finishReason.isSome → ∀ ref, st.parentReq = some ref →
        (parents' ref).childRequests = (parents ref).childRequests.erase st.requestId) := by
  unfold makeRequestOutput at h
  dsimp only at h
  split at h
  · next hsilent =>
    cases h
    refine ⟨.refl st, .refl .., fun _ hfinished => ?_⟩
    simp [hfinished] at hsilent
  split at h
  · next hpooling =>
    obtain ⟨ids, -, h⟩ := bind_eq_ok.mp h
    cases h
    exact ⟨.refl st, .refl .., fun hnot => absurd hpooling (by simp [hnot])⟩
  obtain ⟨sent, hsend, h⟩ := bind_eq_ok.mp h
  split at h
  · cases h
    refine ⟨.refl st, .refl .., fun _ hfinished => ?_⟩
    rw [hfinished] at hsend
    cases sendTokens_finished hsend
  obtain ⟨⟨output, st₂⟩, houtput, h⟩ := bind_eq_ok.mp h
  obtain ⟨hsame₂, hfinished⟩ := newCompletionOutput_same houtput
  have hsame := (sendTokens_same hsend).trans hsame₂
  split at h
  · next halone =>
    obtain ⟨ids, -, h⟩ := bind_eq_ok.mp h
    cases h
    refine ⟨hsame, .refl .., fun _ _ ref hparent => ?_⟩
    rw [hsame.parentReq, hparent] at halone
    cases halone
  · next ref hparent =>
    rw [hsame.parentReq] at hparent
    obtain ⟨⟨outputs, finished, parent⟩, houtputs, h⟩ := bind_eq_ok.mp h
    obtain ⟨hid, hchildren⟩ := ParentRequest.getOutputs_spec houtputs
    rw [hsame.requestId, hfinished] at hchildren
    have hstrikes := Strikes.of_update hparent hid hchildren
    have herase : finishReason.isSome → ∀ ref', st.parentReq = some ref' →
        (Function.update parents ref parent ref').childRequests =
          (parents ref').childRequests.erase st.requestId := by
      intro hfin ref' hparent'
      cases hparent.symm.trans hparent'
      rw [update_self, hchildren, if_pos hfin]
    split at h
    · cases h
      exact ⟨hsame, hstrikes, fun _ => herase⟩
    obtain ⟨ids, -, h⟩ := bind_eq_ok.mp h
    cases h
    exact ⟨hsame, hstrikes, fun _ => herase⟩

end RequestState

/-! ### The live requests -/

section Live

variable {δ : Type} {d : Dict String (RequestState δ)} {id c e : String} {st st' : RequestState δ}
  {ref : Nat} {f : Facts}

def factsAt (d : Dict String (RequestState δ)) (id : String) : Option Facts :=
  (d.get? id).map RequestState.facts

/-- The live internal ids with an external id, oldest first. -/
def liveWith (d : Dict String (RequestState δ)) (e : String) : List String :=
  d.keys.filter fun id => (factsAt d id).map Facts.externalReqId = some e

/-- A live child of a parent. -/
def IsChild (d : Dict String (RequestState δ)) (ref : Nat) (id : String) : Prop :=
  (factsAt d id).bind Facts.parentReq = some ref

theorem factsAt_of_get? (h : d.get? id = some st) : factsAt d id = some st.facts := by
  rw [factsAt, h, Option.map_some]

theorem isChild_iff : IsChild d ref id ↔ ∃ st, d.get? id = some st ∧ st.parentReq = some ref := by
  unfold IsChild factsAt
  cases d.get? id with
  | none => simp
  | some st => simp [RequestState.facts]

theorem mem_liveWith : id ∈ liveWith d e ↔ ∃ f, factsAt d id = some f ∧ f.externalReqId = e := by
  rw [liveWith, mem_filter, decide_eq_true_eq, Option.map_eq_some_iff]
  constructor
  · exact fun h => h.2
  · rintro ⟨f, hf, he⟩
    refine ⟨?_, f, hf, he⟩
    obtain ⟨st, hst, -⟩ := Option.map_eq_some_iff.mp hf
    rw [Dict.mem_keys_iff, hst]
    rfl

theorem nodup_liveWith (d : Dict String (RequestState δ)) (e : String) : (liveWith d e).Nodup :=
  List.Nodup.filter _ d.nodup

theorem factsAt_erase (d : Dict String (RequestState δ)) (id c : String) :
    factsAt (d.erase id) c = if c = id then none else factsAt d c := by
  rw [factsAt, Dict.get?_erase]
  split
  · rfl
  · rfl

theorem isChild_erase : IsChild (d.erase id) ref c ↔ c ≠ id ∧ IsChild d ref c := by
  unfold IsChild
  rw [factsAt_erase]
  by_cases h : c = id <;> simp [h]

theorem liveWith_erase (d : Dict String (RequestState δ)) (id e : String) :
    liveWith (d.erase id) e = (liveWith d e).filter (· ≠ id) := by
  have hnodup : d.keys.Nodup := d.nodup
  rw [liveWith, liveWith, Dict.keys_erase, hnodup.erase_eq_filter, filter_filter, filter_filter]
  refine filter_congr fun c _ => ?_
  rw [factsAt_erase]
  by_cases h : c = id <;> simp [h]

theorem factsAt_insert (d : Dict String (RequestState δ)) (id c : String) (st : RequestState δ) :
    factsAt (d.insert id st) c = if c = id then some st.facts else factsAt d c := by
  rw [factsAt, Dict.get?_insert]
  split
  · rfl
  · rfl

theorem isChild_insert_new (h : d.get? id = none) :
    IsChild (d.insert id st) ref c ↔ c = id ∧ st.parentReq = some ref ∨ IsChild d ref c := by
  have hnot : ¬ IsChild d ref id := by
    rw [isChild_iff, h]
    rintro ⟨_, hst, _⟩
    cases hst
  unfold IsChild at *
  rw [factsAt_insert]
  by_cases hc : c = id
  · subst hc
    simp [hnot, RequestState.facts]
  · simp [hc]

theorem liveWith_insert_new (h : d.get? id = none) :
    liveWith (d.insert id st) e = liveWith d e ++ if st.externalReqId = e then [id] else [] := by
  have hout : id ∉ d.keys := by simp [Dict.mem_keys_iff, h]
  rw [liveWith, Dict.keys_insert_of_notMem hout, filter_append]
  congr 1
  · refine filter_congr fun c hc => ?_
    have hne : c ≠ id := fun heq => hout (heq ▸ hc)
    rw [factsAt_insert, if_neg hne]
  · rw [filter_singleton, factsAt_insert]
    by_cases he : st.externalReqId = e <;> simp [RequestState.facts]

/-- Writes to a live request that keep what the maps depend on. -/
theorem factsAt_write (hget : d.get? id = some st) (hfacts : st'.facts = st.facts) :
    factsAt (d.insert id st') = factsAt d := by
  funext c
  rw [factsAt_insert]
  split
  · next hc => rw [hc, factsAt_of_get? hget, hfacts]
  · rfl

theorem liveWith_write (hget : d.get? id = some st) (hfacts : st'.facts = st.facts) :
    liveWith (d.insert id st') = liveWith d := by
  funext e
  have hin : id ∈ d.keys := by simp [Dict.mem_keys_iff, hget]
  rw [liveWith, liveWith, Dict.keys_insert_of_mem hin, factsAt_write hget hfacts]

end Live

/-! ### The external ids -/

/-- A list that is deleted when it is empty. -/
def listing (l : List String) : Option (List String) := if l = [] then none else some l

@[simp] theorem listing_getD (l : List String) : (listing l).getD [] = l := by
  unfold listing
  split
  · next h => rw [h, Option.getD_none]
  · rfl

/-- The map of external ids holds the live ids that have not been taken out of it. -/
def Externals {δ : Type} (d : Dict String (RequestState δ)) (taken : List String)
    (x : Dict String (List String)) : Prop :=
  ∀ e, x.get? e = listing ((liveWith d e).filter (· ∉ taken))

section Externals

variable {δ : Type} {d : Dict String (RequestState δ)} {taken : List String}
  {x x' : Dict String (List String)} {id e : String} {st : RequestState δ} {f : Facts}

/-- The pair of an external id after one of its internal ids is removed. -/
def removeInternalId (x : Dict String (List String)) (e id : String) : Dict String (List String) :=
  x.put e (listing (((x.get? e).getD []).erase id))

theorem Externals.remove (h : Externals d taken x) (hf : factsAt d id = some f)
    (he : f.externalReqId = e) : Externals d (id :: taken) (removeInternalId x e id) := by
  intro e'
  rw [removeInternalId, Dict.get?_put, h e, listing_getD]
  split
  · next heq =>
    subst heq
    rw [((nodup_liveWith d e').filter _).erase_eq_filter, filter_filter]
    congr 1
    refine filter_congr fun c _ => ?_
    by_cases hc : c = id <;> simp [hc]
  · next hne =>
    rw [h e']
    congr 1
    refine filter_congr fun c hc => ?_
    have hcid : c ≠ id := by
      rintro rfl
      obtain ⟨f', hf', he'⟩ := mem_liveWith.mp hc
      cases hf.symm.trans hf'
      exact hne (he'.symm.trans he)
    simp [hcid]

theorem Externals.skip (h : Externals d taken x) (hf : factsAt d id = none) :
    Externals d (id :: taken) x := by
  intro e
  rw [h e]
  congr 1
  refine filter_congr fun c hc => ?_
  have hcid : c ≠ id := by
    rintro rfl
    obtain ⟨f', hf', _⟩ := mem_liveWith.mp hc
    cases hf.symm.trans hf'
  simp [hcid]

theorem Externals.pop (h : Externals d (id :: taken) x) : Externals (d.erase id) taken x := by
  intro e
  rw [h e, liveWith_erase, filter_filter]
  congr 1
  refine filter_congr fun c _ => ?_
  by_cases hc : c = id <;> simp [hc]

theorem Externals.congr {taken' : List String} (h : Externals d taken x)
    (hsame : ∀ id f, factsAt d id = some f → (id ∈ taken ↔ id ∈ taken')) :
    Externals d taken' x := by
  intro e
  rw [h e]
  congr 1
  refine filter_congr fun c hc => ?_
  obtain ⟨f, hf, _⟩ := mem_liveWith.mp hc
  simp [hsame c f hf]

theorem Externals.add (h : Externals d [] x) (hnew : d.get? id = none) :
    Externals (d.insert id st) []
      (x.insert st.externalReqId ((x.get? st.externalReqId).getD [] ++ [id])) := by
  intro e
  rw [Dict.get?_insert, liveWith_insert_new hnew, h st.externalReqId, listing_getD]
  simp only [not_mem_nil, not_false_eq_true, decide_true, filter_true]
  split
  · next heq =>
    subst heq
    simp [listing]
  · next hne =>
    rw [if_neg (Ne.symm hne), h e]
    simp

end Externals

namespace OutputProcessor

variable {δ : Type} {s s' : OutputProcessor δ} {taken : List String} {st st' : RequestState δ}
  {id : String}

/-! ### The invariant -/

/-- The maps hold what is alive and nothing else. -/
structure Registered (s : OutputProcessor δ) : Prop where
  external : ∀ e, s.externalReqIds.get? e = listing (liveWith s.requestStates e)
  parents : ∀ parentId ref, s.parentRequests.get? parentId = some ref ↔
    (s.parents ref).requestId = parentId ∧ ∃ c, IsChild s.requestStates ref c
  children : ∀ parentId ref, s.parentRequests.get? parentId = some ref →
    ∀ c, c ∈ (s.parents ref).childRequests ↔ IsChild s.requestStates ref c

/-- What holds at every point of every function, with the ids that an abort has already taken out
of the external map. -/
structure Sound (taken : List String) (s : OutputProcessor δ) : Prop where
  wellFormed : ∀ id st, s.requestStates.get? id = some st → st.WellFormed id
  externals : Externals s.requestStates taken s.externalReqIds
  registered : ∀ parentId ref, s.parentRequests.get? parentId = some ref →
    (s.parents ref).requestId = parentId ∧ ref < s.nextParent ∧
      (s.parents ref).childRequests.Nodup
  parentOf : ∀ ref c, IsChild s.requestStates ref c →
    s.parentRequests.get? (s.parents ref).requestId = some ref
  own : ∀ parentId ref c f, s.parentRequests.get? parentId = some ref →
    c ∈ (s.parents ref).childRequests → factsAt s.requestStates c = some f →
      f.parentReq = some ref

/-- The children of a parent are alive. -/
def Exact (s : OutputProcessor δ) (ref : Nat) : Prop :=
  ∀ c ∈ (s.parents ref).childRequests, IsChild s.requestStates ref c

/-- What holds between two calls. -/
structure Tidy (s : OutputProcessor δ) : Prop where
  sound : Sound [] s
  listed : ∀ ref c, IsChild s.requestStates ref c → c ∈ (s.parents ref).childRequests
  exact : ∀ parentId ref, s.parentRequests.get? parentId = some ref →
    Exact s ref ∧ ∃ c, IsChild s.requestStates ref c

theorem Tidy.init (streamInterval : Nat) : Tidy (init streamInterval : OutputProcessor δ) := by
  have hchild : ∀ ref c, ¬ IsChild (Dict.empty : Dict String (RequestState δ)) ref c := by
    rintro ref c hc
    obtain ⟨st, hst, -⟩ := isChild_iff.mp hc
    cases hst
  refine ⟨⟨nofun, fun _ => rfl, nofun, fun ref c hc => ?_, nofun⟩, fun ref c hc => ?_, nofun⟩
  · exact absurd hc (hchild ref c)
  · exact absurd hc (hchild ref c)

theorem Tidy.registered (h : Tidy s) : Registered s := by
  refine ⟨fun e => ?_, fun parentId ref => ⟨fun hreg => ?_, ?_⟩, fun parentId ref hreg c => ?_⟩
  · simpa using h.sound.externals e
  · exact ⟨(h.sound.registered _ _ hreg).1, (h.exact _ _ hreg).2⟩
  · rintro ⟨rfl, c, hc⟩
    exact h.sound.parentOf ref c hc
  · exact ⟨(h.exact _ _ hreg).1 c, h.listed ref c⟩

/-- Nothing stays behind after the last request. -/
theorem Registered.nothing_left (h : Registered s) (hnone : s.requestStates.keys = []) :
    s.externalReqIds.keys = [] ∧ s.parentRequests.keys = [] := by
  have hget : ∀ id, s.requestStates.get? id = none := fun id =>
    Dict.get?_eq_none_of_notMem (by simp [hnone])
  constructor
  · refine eq_nil_iff_forall_not_mem.mpr fun e he => ?_
    rw [Dict.mem_keys_iff, h.external, liveWith, hnone] at he
    cases he
  · refine eq_nil_iff_forall_not_mem.mpr fun parentId hparent => ?_
    obtain ⟨ref, href⟩ := Option.isSome_iff_exists.mp (Dict.mem_keys_iff.mp hparent)
    obtain ⟨-, c, hc⟩ := (h.parents parentId ref).mp href
    obtain ⟨st, hst, -⟩ := isChild_iff.mp hc
    cases (hget c).symm.trans hst

/-- The maps are the same up to the children of the parents. -/
structure SameMaps (s s' : OutputProcessor δ) : Prop where
  facts : factsAt s'.requestStates = factsAt s.requestStates
  live : liveWith s'.requestStates = liveWith s.requestStates
  external : s'.externalReqIds = s.externalReqIds
  parentRequests : s'.parentRequests = s.parentRequests
  nextParent : s'.nextParent = s.nextParent
  parentId : ∀ ref, (s'.parents ref).requestId = (s.parents ref).requestId
  wellFormed : ∀ id st, s'.requestStates.get? id = some st → st.WellFormed id

theorem SameMaps.isChild (h : SameMaps s s') :
    IsChild s'.requestStates = IsChild s.requestStates := by
  funext ref c
  rw [IsChild, IsChild, h.facts]

theorem Sound.of_same (h : Sound taken s) (hsame : SameMaps s s')
    (hsub : ∀ ref, (s'.parents ref).childRequests.Sublist (s.parents ref).childRequests) :
    Sound taken s' := by
  refine ⟨hsame.wellFormed, fun e => ?_, fun parentId ref hreg => ?_, fun ref c hc => ?_,
    fun parentId ref c f hreg hc hf => ?_⟩
  · rw [hsame.external, hsame.live]
    exact h.externals e
  · rw [hsame.parentRequests] at hreg
    obtain ⟨hid, hlt, hnodup⟩ := h.registered parentId ref hreg
    rw [hsame.parentId, hsame.nextParent]
    exact ⟨hid, hlt, hnodup.sublist (hsub ref)⟩
  · rw [hsame.isChild] at hc
    rw [hsame.parentRequests, hsame.parentId]
    exact h.parentOf ref c hc
  · rw [hsame.parentRequests] at hreg
    rw [hsame.facts] at hf
    exact h.own parentId ref c f hreg ((hsub ref).subset hc) hf

theorem Tidy.of_same (h : Tidy s) (hsame : SameMaps s s')
    (heq : ∀ ref, (s'.parents ref).childRequests = (s.parents ref).childRequests) : Tidy s' := by
  refine ⟨h.sound.of_same hsame fun ref => by rw [heq], ?_, ?_⟩
  · rw [hsame.isChild]
    intro ref c hc
    rw [heq]
    exact h.listed ref c hc
  · unfold Exact
    rw [hsame.isChild, hsame.parentRequests]
    intro parentId ref hreg
    rw [heq]
    exact h.exact parentId ref hreg

theorem SameMaps.trans {s'' : OutputProcessor δ} (h : SameMaps s s') (h' : SameMaps s' s'') :
    SameMaps s s'' :=
  ⟨h'.facts.trans h.facts, h'.live.trans h.live, h'.external.trans h.external,
    h'.parentRequests.trans h.parentRequests, h'.nextParent.trans h.nextParent,
    fun ref => (h'.parentId ref).trans (h.parentId ref), h'.wellFormed⟩

/-- Writes to a live request. -/
theorem SameMaps.of_write (hwf : ∀ id st, s.requestStates.get? id = some st → st.WellFormed id)
    (hget : s.requestStates.get? id = some st) (hfacts : st'.facts = st.facts)
    (hst' : st'.WellFormed id)
    (hparents : ∀ ref, (parents ref).requestId = (s.parents ref).requestId) :
    SameMaps s ({ s with parents }.write st') := by
  have hid : st'.requestId = id := hst'.requestId
  refine ⟨?_, ?_, rfl, rfl, rfl, hparents, fun c st₁ hst₁ => ?_⟩
  · show factsAt (s.requestStates.insert st'.requestId st') = _
    rw [hid]
    exact factsAt_write hget hfacts
  · show liveWith (s.requestStates.insert st'.requestId st') = _
    rw [hid]
    exact liveWith_write hget hfacts
  have hst₂ : (s.requestStates.insert st'.requestId st').get? c = some st₁ := hst₁
  rw [hid, Dict.get?_insert] at hst₂
  split at hst₂
  · next hc =>
    cases hst₂
    exact hc ▸ hst'
  · exact hwf c st₁ hst₂

theorem SameMaps.of_put (hwf : ∀ id st, s.requestStates.get? id = some st → st.WellFormed id)
    (queue : Option Nat) (d : Delivery) : SameMaps s (s.put queue d) := by
  cases queue with
  | none => exact ⟨rfl, rfl, rfl, rfl, rfl, fun _ => rfl, hwf⟩
  | some q => exact ⟨rfl, rfl, rfl, rfl, rfl, fun _ => rfl, hwf⟩

theorem put_parents (s : OutputProcessor δ) (queue : Option Nat) (d : Delivery) :
    (s.put queue d).parents = s.parents := by
  cases queue <;> rfl

theorem put_requestStates (s : OutputProcessor δ) (queue : Option Nat) (d : Delivery) :
    (s.put queue d).requestStates = s.requestStates := by
  cases queue <;> rfl

theorem Tidy.put (h : Tidy s) (queue : Option Nat) (d : Delivery) : Tidy (s.put queue d) :=
  h.of_same (.of_put h.sound.wellFormed queue d) fun ref => by rw [put_parents]

theorem Tidy.write (h : Tidy s) (hget : s.requestStates.get? id = some st)
    (hfacts : st'.facts = st.facts) (hst' : st'.WellFormed id) : Tidy (s.write st') :=
  h.of_same (.of_write h.sound.wellFormed hget hfacts hst' fun _ => rfl) fun _ => rfl

/-! ### The end of a request -/

theorem dropExternal_eq {e : String} (h : s.dropExternal e id = .ok s') :
    s' = { s with externalReqIds := removeInternalId s.externalReqIds e id } := by
  unfold dropExternal at h
  dsimp only at h
  split at h
  · cases h
    unfold removeInternalId listing
    split
    · next hempty =>
      rw [if_pos (List.isEmpty_iff.mp hempty)]
      rfl
    · next hnonempty =>
      rw [if_neg (fun h => hnonempty (List.isEmpty_iff.mpr h))]
      rfl
  · cases h

/-- What `_finish_request` does to the maps. -/
structure Finished (s : OutputProcessor δ) (st : RequestState δ) (s' : OutputProcessor δ) :
    Prop where
  requestStates : s'.requestStates = s.requestStates.erase st.requestId
  external : s'.externalReqIds =
    removeInternalId s.externalReqIds st.externalReqId st.requestId
  nextParent : s'.nextParent = s.nextParent
  parentId : ∀ ref, (s'.parents ref).requestId = (s.parents ref).requestId
  children : ∀ ref, (s'.parents ref).childRequests = if st.parentReq = some ref then
    (s.parents ref).childRequests.erase st.requestId else (s.parents ref).childRequests
  parentRequests : ∀ parentId ref, s'.parentRequests.get? parentId = some ref ↔
    s.parentRequests.get? parentId = some ref ∧ ¬ ∃ ref', st.parentReq = some ref' ∧
      (s.parents ref').requestId = parentId ∧ (s'.parents ref').childRequests = []

theorem finishRequest_spec (h : s.finishRequest st = .ok s') : Finished s st s' := by
  unfold finishRequest at h
  split at h
  · obtain ⟨s₁, hdrop, h⟩ := bind_eq_ok.mp h
    obtain rfl := dropExternal_eq hdrop
    cases hparent : st.parentReq with
    | none =>
      rw [hparent] at h
      cases h
      exact ⟨rfl, rfl, rfl, fun _ => rfl, fun ref => by simp [hparent], fun parentId ref => by
        simp [hparent]⟩
    | some ref₀ =>
      rw [hparent] at h
      dsimp only at h
      have hid : ∀ ref, (Function.update s.parents ref₀ ((s.parents ref₀).discard st.requestId)
          ref).requestId = (s.parents ref).requestId := by
        intro ref
        by_cases href : ref = ref₀
        · rw [href, update_self]
          rfl
        · rw [update_of_ne href]
      have hchildren : ∀ ref, (Function.update s.parents ref₀ ((s.parents ref₀).discard
          st.requestId) ref).childRequests = if st.parentReq = some ref then
            (s.parents ref).childRequests.erase st.requestId
          else (s.parents ref).childRequests := by
        intro ref
        by_cases href : ref = ref₀
        · rw [href, update_self, if_pos hparent]
          rfl
        rw [update_of_ne href, if_neg]
        rw [hparent]
        exact fun heq => href (Option.some.inj heq).symm
      split at h
      · next hempty =>
        cases h
        refine ⟨rfl, rfl, rfl, hid, hchildren, fun parentId ref => ?_⟩
        have hlast : (Function.update s.parents ref₀ ((s.parents ref₀).discard st.requestId)
            ref₀).childRequests = [] := by
          rw [update_self]
          exact List.isEmpty_iff.mp hempty
        show (s.parentRequests.erase (s.parents ref₀).requestId).get? parentId = some ref ↔ _
        rw [Dict.get?_erase]
        by_cases heq : parentId = (s.parents ref₀).requestId
        · rw [if_pos heq]
          refine ⟨fun hnone => (by cases hnone), fun hreg => absurd
            ⟨ref₀, hparent, heq.symm, hlast⟩ hreg.2⟩
        rw [if_neg heq]
        refine ⟨fun hreg => ⟨hreg, ?_⟩, fun hreg => hreg.1⟩
        rintro ⟨ref', href', hid', -⟩
        cases hparent.symm.trans href'
        exact heq hid'.symm
      · next hmore =>
        cases h
        refine ⟨rfl, rfl, rfl, hid, hchildren, fun parentId ref => ?_⟩
        refine ⟨fun hreg => ⟨hreg, ?_⟩, fun hreg => hreg.1⟩
        rintro ⟨ref', href', -, hnone⟩
        cases hparent.symm.trans href'
        refine hmore (List.isEmpty_iff.mpr ?_)
        dsimp only at hnone
        rwa [update_self] at hnone
  · cases h

/-- The request may already be struck from its parent, but every other child is listed there. -/
theorem finishRequest_tidy (hs : Sound [] s) (hget : s.requestStates.get? st.requestId = some st)
    (hlisted : ∀ ref c, IsChild s.requestStates ref c → c ≠ st.requestId →
      c ∈ (s.parents ref).childRequests)
    (hexact : ∀ parentId ref, s.parentRequests.get? parentId = some ref →
      Exact s ref ∧ ∃ c, IsChild s.requestStates ref c)
    (h : s.finishRequest st = .ok s') : Tidy s' := by
  obtain ⟨hstates, hexternal, hnext, hid, hchildren, hparents⟩ := finishRequest_spec h
  have hsub : ∀ ref, (s'.parents ref).childRequests.Sublist (s.parents ref).childRequests := by
    intro ref
    rw [hchildren]
    split
    · exact erase_sublist
    · exact List.Sublist.refl _
  have hkept : ∀ ref c, c ≠ st.requestId → c ∈ (s.parents ref).childRequests →
      c ∈ (s'.parents ref).childRequests := by
    intro ref c hne hc
    rw [hchildren]
    split
    · exact (mem_erase_of_ne hne).mpr hc
    · exact hc
  -- a parent that stays has kept a child
  have hgone : ∀ parentId ref c, s'.parentRequests.get? parentId = some ref →
      c ∈ (s'.parents ref).childRequests → c ≠ st.requestId := by
    rintro parentId ref c hreg hc rfl
    have hreg' := ((hparents _ _).mp hreg).1
    have hnodup := (hs.registered _ _ hreg').2.2
    have hown : st.parentReq = some ref :=
      hs.own _ _ _ _ hreg' ((hsub ref).subset hc) (factsAt_of_get? hget)
    rw [hchildren, if_pos hown] at hc
    exact hnodup.not_mem_erase hc
  refine ⟨⟨fun c st₁ hst₁ => ?_, ?_, fun parentId ref hreg => ?_, fun ref c hc => ?_,
    fun parentId ref c f hreg hc hf => ?_⟩, fun ref c hc => ?_, fun parentId ref hreg => ?_⟩
  · rw [hstates] at hst₁
    exact hs.wellFormed c st₁ (Dict.get?_erase_eq_some.mp hst₁).2
  · rw [hstates, hexternal]
    exact (hs.externals.remove (factsAt_of_get? hget) rfl).pop
  · obtain ⟨hid', hlt, hnodup⟩ := hs.registered _ _ ((hparents _ _).mp hreg).1
    rw [hid, hnext]
    exact ⟨hid', hlt, hnodup.sublist (hsub ref)⟩
  · rw [hstates, isChild_erase] at hc
    have hreg := hs.parentOf ref c hc.2
    rw [hid]
    refine (hparents _ _).mpr ⟨hreg, ?_⟩
    rintro ⟨ref', hparent', hid', hnone⟩
    have hst := isChild_iff.mpr ⟨st, hget, hparent'⟩
    have hreg' := hs.parentOf ref' _ hst
    rw [hid', hreg] at hreg'
    cases hreg'
    have hmem := hkept ref c hc.1 (hlisted ref c hc.2 hc.1)
    rw [hnone] at hmem
    cases hmem
  · rw [hstates, factsAt_erase] at hf
    split at hf
    · cases hf
    · exact hs.own _ _ _ _ ((hparents _ _).mp hreg).1 ((hsub ref).subset hc) hf
  · rw [hstates, isChild_erase] at hc
    exact hkept ref c hc.1 (hlisted ref c hc.2 hc.1)
  · have hreg' := ((hparents _ _).mp hreg).1
    have hexact' : Exact s' ref := by
      intro c hc
      rw [hstates, isChild_erase]
      exact ⟨hgone _ _ c hreg hc, (hexact _ _ hreg').1 c ((hsub ref).subset hc)⟩
    refine ⟨hexact', ?_⟩
    cases hlist : (s'.parents ref).childRequests with
    | cons c rest => exact ⟨c, hexact' c (by rw [hlist]; exact mem_cons_self)⟩
    | nil =>
      obtain ⟨c, hc⟩ := (hexact _ _ hreg').2
      by_cases hne : c = st.requestId
      · subst hne
        obtain ⟨st₁, hst₁, hparent₁⟩ := isChild_iff.mp hc
        cases hget.symm.trans hst₁
        exact absurd ⟨ref, hparent₁, (hs.registered _ _ hreg').1, hlist⟩
          ((hparents _ _).mp hreg).2
      · exact ⟨c, by rw [hstates, isChild_erase]; exact ⟨hne, hc⟩⟩

theorem Tidy.finishRequest (h : Tidy s) (hget : s.requestStates.get? st.requestId = some st)
    (hfinish : s.finishRequest st = .ok s') : Tidy s' :=
  finishRequest_tidy h.sound hget (fun ref c hc _ => h.listed ref c hc) h.exact hfinish

/-! ### Outputs -/

section Outputs

variable [Detokenizer δ] {output : EngineCoreOutput} {a : Absorbed δ} {aborted : List String}
  {s₁ : OutputProcessor δ} {st₁ : RequestState δ}

theorem absorb_same (h : absorb st output = .ok a) : st.SameRequest a.st := by
  unfold absorb at h
  dsimp only at h
  split at h
  · cases h
    exact ⟨rfl, rfl, rfl, rfl, rfl⟩
  split at h
  · cases h
  rename_i d hd
  have hsome : st.detokenizer.isSome = true := by rw [hd]; rfl
  split at h
  · split at h
    · cases h
      exact ⟨rfl, rfl, hsome.symm, rfl, rfl⟩
    · cases h
      exact ⟨rfl, rfl, hsome.symm, rfl, rfl⟩
  · cases h
    exact ⟨rfl, rfl, hsome.symm, rfl, rfl⟩

section

omit [Detokenizer δ]

theorem deliver_eq (s : OutputProcessor δ) (st : RequestState δ) (boundary : Bool)
    (requestOutput : Option RequestOutput) :
    ∃ queue d, (s.deliver st boundary requestOutput).1 = s.put queue d := by
  unfold deliver
  split
  · exact ⟨none, .streamFinished, rfl⟩
  dsimp only
  split
  · exact ⟨_, _, rfl⟩
  · exact ⟨none, .streamFinished, rfl⟩

/-- An input of a session that comes to its turn, or the wait for one. -/
theorem settle_boundary (h : Tidy s)
    (hget : s.requestStates.get? id = some st) (halone : st.parentReq = none)
    (hsettle : s.settle st output true = .ok (s', aborted)) : Tidy s' := by
  have hid := (h.sound.wellFormed id st hget).requestId
  unfold settle RequestState.endChunk at hsettle
  rw [if_pos rfl] at hsettle
  cases hsettle
  split
  · exact h.write hget rfl (RequestState.wellFormed_of_alone hid halone)
  · exact h.write hget rfl (RequestState.wellFormed_of_alone hid halone)

/-- The state after an output of `st` was made and delivered. -/
structure Delivered (s : OutputProcessor δ) (st st₁ : RequestState δ) (finished : Bool)
    (s₁ : OutputProcessor δ) : Prop where
  maps : SameMaps s s₁
  same : st.SameRequest st₁
  get : s₁.requestStates.get? st.requestId = some st₁
  strikes : st.Strikes finished s.parents s₁.parents

/-- Only the output that finishes a child touches its parent. -/
theorem Delivered.tidy
    (hd : Delivered s st st₁ finished s₁) (h : Tidy s) (halone : finished → st.parentReq = none) :
    Tidy s₁ := by
  refine h.of_same hd.maps fun ref => ?_
  rcases hd.strikes.children ref with heq | ⟨hfinished, hparent, -⟩
  · exact heq
  · rw [halone hfinished] at hparent
    cases hparent

theorem Delivered.finish (hd : Delivered s st st₁ finished s₁) (h : Tidy s)
    (hfinish : s₁.finishRequest st₁ = .ok s') : Tidy s' := by
  have hsub : ∀ ref, (s₁.parents ref).childRequests.Sublist (s.parents ref).childRequests := by
    intro ref
    rcases hd.strikes.children ref with heq | ⟨-, -, heq⟩
    · rw [heq]
    · rw [heq]
      exact erase_sublist
  refine finishRequest_tidy (h.sound.of_same hd.maps hsub) ?_ (fun ref c hc hne => ?_)
    (fun parentId ref hreg => ?_) hfinish
  · rw [hd.same.requestId]
    exact hd.get
  · rw [hd.maps.isChild] at hc
    have hmem := h.listed ref c hc
    rcases hd.strikes.children ref with heq | ⟨-, -, heq⟩
    · rwa [heq]
    rw [heq]
    rw [hd.same.requestId] at hne
    exact (mem_erase_of_ne hne).mpr hmem
  · rw [hd.maps.parentRequests] at hreg
    obtain ⟨hexact, hsome⟩ := h.exact _ _ hreg
    unfold Exact
    rw [hd.maps.isChild]
    exact ⟨fun c hc => hexact c ((hsub ref).subset hc), hsome⟩

end

/-- The output is made from what the request absorbed, written back, and delivered. -/
theorem Delivered.of_make {requestOutput : Option RequestOutput} (h : Tidy s)
    (hget : s.requestStates.get? st.requestId = some st) (habsorb : absorb st output = .ok a)
    (hmake : a.st.makeRequestOutput s.parents a.newTokenIds a.poolingOutput a.finishReason
      a.stopReason a.requestError = .ok (requestOutput, st₁, parents)) (boundary : Bool) :
    Delivered s st st₁ a.finishReason.isSome
      (({ s with parents }.write st₁).deliver st₁ boundary requestOutput).1 := by
  have hwf := h.sound.wellFormed _ st hget
  obtain ⟨hsame₁, hstrikes, -⟩ := RequestState.makeRequestOutput_spec hmake
  have hsame := (absorb_same habsorb).trans hsame₁
  have hmaps : SameMaps s ({ s with parents }.write st₁) :=
    .of_write h.sound.wellFormed hget hsame.facts (hsame.wellFormed hwf) hstrikes.requestId
  obtain ⟨queue, d, hdeliver⟩ := deliver_eq
    ({ s with parents }.write st₁) st₁ boundary requestOutput
  rw [hdeliver]
  refine ⟨hmaps.trans (.of_put hmaps.wellFormed queue d), hsame, ?_, ?_⟩
  · rw [put_requestStates]
    show (s.requestStates.insert st₁.requestId st₁).get? _ = _
    rw [hsame.requestId, Dict.get?_insert_self]
  · rw [put_parents]
    refine ⟨hstrikes.requestId, fun ref => ?_⟩
    have hchildren := hstrikes.children ref
    rwa [(absorb_same habsorb).parentReq, (absorb_same habsorb).requestId] at hchildren

theorem processOutput_tidy {outputs : List RequestOutput} (h : Tidy s)
    (hprocess : s.processOutput output = .ok (s', outputs, aborted)) : Tidy s' := by
  unfold processOutput at hprocess
  split at hprocess
  · cases hprocess
    exact h
  rename_i st hget
  have hwf := h.sound.wellFormed _ st hget
  rw [← hwf.requestId] at hget
  split at hprocess
  · -- the request was rejected on arrival
    obtain ⟨s₁, hfinish, hprocess⟩ := bind_eq_ok.mp hprocess
    cases hprocess
    refine (h.put _ _).finishRequest ?_ hfinish
    rw [put_requestStates]
    exact hget
  obtain ⟨a, habsorb, hprocess⟩ := bind_eq_ok.mp hprocess
  obtain ⟨⟨requestOutput, st₁, parents⟩, hmake, hprocess⟩ := bind_eq_ok.mp hprocess
  have hd := Delivered.of_make h hget habsorb hmake (chunkBoundary a.st a.finishReason)
  dsimp only at hprocess
  split at hprocess
  · obtain ⟨⟨s₂, aborted₂⟩, hsettle, hprocess⟩ := bind_eq_ok.mp hprocess
    cases hprocess
    cases hboundary : chunkBoundary a.st a.finishReason with
    | true =>
      -- a session of streaming inputs is no child
      have halone : st.parentReq = none := by
        rw [Option.eq_none_iff_forall_ne_some]
        intro ref hparent
        have hnot := hwf.streaming (by rw [hparent]; rfl)
        simp [chunkBoundary, (absorb_same habsorb).streaming, hnot] at hboundary
      rw [hboundary] at hsettle hd
      exact settle_boundary (hd.tidy h fun _ => halone) hd.get
        (hd.same.parentReq.trans halone) hsettle
    | false =>
      rw [hboundary] at hsettle hd
      obtain ⟨s₃, hfinish, hsettle⟩ := bind_eq_ok.mp hsettle
      cases hsettle
      exact hd.finish h hfinish
  · next hgoing =>
    cases hprocess
    exact hd.tidy h fun hfinished => absurd hfinished hgoing

theorem processOutputs_tidy {outputs : List EngineCoreOutput} {requestOutputs : List RequestOutput}
    (h : Tidy s)
    (hprocess : s.processOutputs outputs = .ok (s', requestOutputs, aborted)) : Tidy s' := by
  refine foldlM_ok_induct
    (P := fun acc : OutputProcessor δ × List RequestOutput × List String => Tidy acc.1)
    (fun output _ acc acc' hacc hstep => ?_) h hprocess
  obtain ⟨⟨s₁, outputs₁, aborted₁⟩, houtput, hacc'⟩ := bind_eq_ok.mp hstep
  cases hacc'
  exact processOutput_tidy hacc houtput

end Outputs

end OutputProcessor

end Vllm.Engine
