import Vllm.Engine.Books

/-!
# New requests of the output processor

A request, a further input of a session, and the fan-out of a request into its samples keep
`Tidy`, as long as the ids of a fan-out are new (`Fresh`). While a fan-out is under way its
parent names children that are not yet alive (`Filling`).
-/

namespace Vllm.Engine

open Function Library List ParentRequest

namespace OutputProcessor

variable {δ : Type} {s s' : OutputProcessor δ} {st : RequestState δ}
  {id : String} {ref index : Nat} {parent : ParentRequest} {indices : List Nat}

/-! ### New requests -/

section Requests

variable {request : EngineCoreRequest} {prompt : Option String} {queue : Option Nat}

theorem updateStreamingRequestState_tidy (h : Tidy s)
    (hget : s.requestStates.get? st.requestId = some st)
    (hchild : st.parentReq.isSome → request.resumable = false)
    (hupdate : s.updateStreamingRequestState st request prompt = .ok s') : Tidy s' := by
  have hwf := h.sound.wellFormed _ st hget
  have halone : st.inputChunkQueue ≠ none ∨ request.resumable = true → st.parentReq = none := by
    intro hor
    rw [Option.eq_none_iff_forall_ne_some]
    intro ref hparent
    have hsome : st.parentReq.isSome := by rw [hparent]; rfl
    rcases hor with hchunks | hresumable
    · exact hchunks (hwf.chunks hsome)
    · cases (hchild hsome).symm.trans hresumable
  have hwrite : ∀ st', st'.facts = st.facts → st'.requestId = st.requestId →
      st.parentReq = none → Tidy (s.write st') := by
    intro st' hfacts hid hnone
    have hnone' : st'.parentReq = none := (congrArg Facts.parentReq hfacts).trans hnone
    exact h.write hget hfacts (RequestState.wellFormed_of_alone hid hnone')
  unfold updateStreamingRequestState at hupdate
  split at hupdate
  · next st' hreceive =>
    cases hupdate
    unfold RequestState.receive at hreceive
    split at hreceive
    · split at hreceive
      · cases hreceive
      · next hchunks =>
        cases hreceive
        exact hwrite _ rfl rfl (halone (.inl (by rw [hchunks]; exact nofun)))
      · next hchunks =>
        cases hreceive
        exact hwrite _ rfl rfl (halone (.inl (by rw [hchunks]; exact nofun)))
    · next hresumable =>
      have hnone := halone (.inr (by simpa using hresumable))
      split at hreceive
      · cases hreceive
        exact hwrite _ rfl rfl hnone
      · cases hreceive
        exact hwrite _ rfl rfl hnone
  · obtain ⟨s₁, hfinish, hupdate⟩ := bind_eq_ok.mp hupdate
    cases hupdate
    exact (h.finishRequest hget hfinish).put _ _

variable [Detokenizer δ] {parentReq : Option Nat} {index : Nat} {coming : List String}

theorem fromNewRequest_spec {streamInterval : Nat}
    (h : RequestState.fromNewRequest request prompt parentReq index queue streamInterval =
      .ok st) (hchild : parentReq.isSome →
        request.samplingParams.isSome ∧ request.resumable = false) :
    st.parentReq = parentReq ∧ st.WellFormed request.requestId := by
  obtain ⟨⟨outputKind, interval, detokenizer⟩, hparams, h⟩ := bind_eq_ok.mp h
  dsimp only at h
  split at h
  · cases h
    refine ⟨rfl, rfl, fun hparent => ?_, fun hparent => (hchild hparent).2, fun hparent => ?_⟩
    · unfold RequestState.paramsOf at hparams
      obtain ⟨params, hsampling⟩ := Option.isSome_iff_exists.mp (hchild hparent).1
      rw [hsampling] at hparams
      cases hparams
      rfl
    · show (if request.resumable then _ else _) = _
      rw [(hchild hparent).2]
      rfl
  · cases h

/-- What `add_request` does to the maps for an id that is not alive. -/
structure Added (s : OutputProcessor δ) (st : RequestState δ) (s' : OutputProcessor δ) : Prop where
  new : s.requestStates.get? st.requestId = none
  requestStates : s'.requestStates = s.requestStates.insert st.requestId st
  external : s'.externalReqIds = s.externalReqIds.insert st.externalReqId
    ((s.externalReqIds.get? st.externalReqId).getD [] ++ [st.requestId])
  nextParent : s'.nextParent = s.nextParent
  parents : s'.parents = s.parents
  parentRequests : s'.parentRequests = match st.parentReq with
    | none => s.parentRequests
    | some ref => s.parentRequests.insert (s.parents ref).requestId ref

theorem addRequest_spec (hnew : s.requestStates.get? request.requestId = none)
    (hchild : parentReq.isSome → request.samplingParams.isSome ∧ request.resumable = false)
    (h : s.addRequest request prompt parentReq index queue = .ok s') :
    ∃ st, st.parentReq = parentReq ∧ st.WellFormed request.requestId ∧ Added s st s' := by
  unfold addRequest at h
  rw [hnew] at h
  obtain ⟨st, hst, h⟩ := bind_eq_ok.mp h
  obtain ⟨hparent, hwf⟩ := fromNewRequest_spec hst hchild
  cases h
  refine ⟨st, hparent, hwf, ?_⟩
  rw [← hwf.requestId] at hnew ⊢
  cases parentReq with
  | none => exact ⟨hnew, rfl, rfl, rfl, rfl, by rw [hparent]⟩
  | some ref => exact ⟨hnew, rfl, rfl, rfl, rfl, by rw [hparent]⟩

section

omit [Detokenizer δ]

theorem Added.wellFormed (ha : Added s st s') (hwf : st.WellFormed st.requestId)
    (hs : Sound [] s) : ∀ c st₁, s'.requestStates.get? c = some st₁ → st₁.WellFormed c := by
  intro c st₁ hst₁
  rw [ha.requestStates, Dict.get?_insert] at hst₁
  split at hst₁
  · next hc =>
    cases hst₁
    exact hc ▸ hwf
  · exact hs.wellFormed c st₁ hst₁

theorem Added.externals (ha : Added s st s') (hs : Sound [] s) :
    Externals s'.requestStates [] s'.externalReqIds := by
  rw [ha.requestStates, ha.external]
  exact hs.externals.add ha.new

/-- A request of its own. -/
theorem Added.tidy (ha : Added s st s') (h : Tidy s) (hwf : st.WellFormed st.requestId)
    (halone : st.parentReq = none) : Tidy s' := by
  have hparents : s'.parentRequests = s.parentRequests := by rw [ha.parentRequests, halone]
  have hchild : IsChild s'.requestStates = IsChild s.requestStates := by
    funext ref c
    rw [ha.requestStates, isChild_insert_new ha.new, halone]
    simp
  refine ⟨⟨ha.wellFormed hwf h.sound, ha.externals h.sound, ?_, ?_,
    fun parentId ref c f hreg hc hf => ?_⟩, ?_, ?_⟩
  · rw [hparents, ha.parents, ha.nextParent]
    exact h.sound.registered
  · rw [hchild, hparents, ha.parents]
    exact h.sound.parentOf
  · rw [hparents] at hreg
    rw [ha.parents] at hc
    -- a registered child is alive, so it is not the new request
    have halive := (h.exact _ _ hreg).1 c hc
    obtain ⟨st₁, hst₁, hparent₁⟩ := isChild_iff.mp halive
    have hne : c ≠ st.requestId := fun heq => nomatch (heq ▸ ha.new).symm.trans hst₁
    rw [ha.requestStates, factsAt_insert, if_neg hne] at hf
    exact h.sound.own _ _ c f hreg hc hf
  · rw [hchild, ha.parents]
    exact h.listed
  · unfold Exact
    rw [hchild, hparents, ha.parents]
    exact h.exact

end

theorem addRequest_tidy (h : Tidy s)
    (hchild : ∀ st, s.requestStates.get? request.requestId = some st → st.parentReq.isSome →
      request.resumable = false)
    (hadd : s.addRequest request prompt none index queue = .ok s') : Tidy s' := by
  cases hget : s.requestStates.get? request.requestId with
  | some st =>
    have hid := (h.sound.wellFormed _ st hget).requestId
    unfold addRequest at hadd
    rw [hget] at hadd
    exact updateStreamingRequestState_tidy h (by rw [hid]; exact hget) (hchild st hget) hadd
  | none =>
    obtain ⟨st, halone, hwf, ha⟩ := addRequest_spec hget (fun hsome => absurd hsome (by simp)) hadd
    rw [← hwf.requestId] at hwf
    exact ha.tidy h hwf halone

/-! ### Several samples -/

/-- A fan-out under way: the parent `ref` names children that are still to come. -/
structure Filling (ref : Nat) (coming : List String) (s : OutputProcessor δ) : Prop where
  sound : Sound [] s
  listed : ∀ ref c, IsChild s.requestStates ref c → c ∈ (s.parents ref).childRequests
  exact : ∀ parentId ref', s.parentRequests.get? parentId = some ref' → ref' ≠ ref →
    Exact s ref' ∧ ∃ c, IsChild s.requestStates ref' c
  named : ∀ c ∈ (s.parents ref).childRequests, IsChild s.requestStates ref c ∨
    c ∈ coming ∧ s.requestStates.get? c = none
  known : ref < s.nextParent
  nodup : (s.parents ref).childRequests.Nodup
  unique : ∀ ref', s.parentRequests.get? (s.parents ref).requestId = some ref' → ref' = ref
  inhabited : ∀ parentId, s.parentRequests.get? parentId = some ref →
    ∃ c, IsChild s.requestStates ref c

section

omit [Detokenizer δ]

theorem Filling.tidy (h : Filling ref [] s) : Tidy s := by
  refine ⟨h.sound, h.listed, fun parentId ref' hreg => ?_⟩
  by_cases href : ref' = ref
  · subst href
    refine ⟨fun c hc => ?_, h.inhabited parentId hreg⟩
    rcases h.named c hc with hchild | ⟨hmem, -⟩
    · exact hchild
    · cases hmem
  · exact h.exact parentId ref' hreg href

theorem Added.filling (ha : Added s st s')
    (h : Filling ref (st.requestId :: coming) s) (hwf : st.WellFormed st.requestId)
    (hparent : st.parentReq = some ref) (hlisted : st.requestId ∈ (s.parents ref).childRequests) :
    Filling ref coming s' := by
  have hchild : ∀ ref' c, IsChild s'.requestStates ref' c ↔
      c = st.requestId ∧ ref' = ref ∨ IsChild s.requestStates ref' c := by
    intro ref' c
    rw [ha.requestStates, isChild_insert_new ha.new, hparent, Option.some.injEq, eq_comm (a := ref)]
  have hreg : ∀ parentId ref', s'.parentRequests.get? parentId = some ref' ↔
      parentId = (s.parents ref).requestId ∧ ref' = ref ∨
        s.parentRequests.get? parentId = some ref' := by
    intro parentId ref'
    rw [ha.parentRequests, hparent]
    rw [Dict.get?_insert]
    split
    · next heq =>
      subst heq
      constructor
      · exact fun h => .inl ⟨rfl, (Option.some.inj h).symm⟩
      · rintro (⟨-, rfl⟩ | hold)
        · rfl
        · rw [h.unique ref' hold]
    · next hne => simp [hne]
  have hst : factsAt s'.requestStates st.requestId = some st.facts := by
    rw [ha.requestStates, factsAt_insert, if_pos rfl]
  refine ⟨⟨ha.wellFormed hwf h.sound, ha.externals h.sound, fun parentId ref' hr => ?_,
    fun ref' c hc => ?_, fun parentId ref' c f hr hc hf => ?_⟩, fun ref' c hc => ?_,
    fun parentId ref' hr hne => ?_, fun c hc => ?_, ?_, ?_, fun ref' hr => ?_,
      fun parentId hr => ?_⟩
  · rw [ha.parents, ha.nextParent]
    rcases (hreg _ _).mp hr with ⟨rfl, rfl⟩ | hold
    · exact ⟨rfl, h.known, h.nodup⟩
    · exact h.sound.registered _ _ hold
  · rw [ha.parents]
    rcases (hchild _ _).mp hc with ⟨-, rfl⟩ | hold
    · exact (hreg _ _).mpr (.inl ⟨rfl, rfl⟩)
    · exact (hreg _ _).mpr (.inr (h.sound.parentOf ref' c hold))
  · rw [ha.parents] at hc
    by_cases heq : c = st.requestId
    · subst heq
      cases hst.symm.trans hf
      -- another parent names live requests only
      by_cases href : ref' = ref
      · exact href ▸ hparent
      rcases (hreg _ _).mp hr with ⟨-, rfl⟩ | hold
      · exact hparent
      · obtain ⟨st₁, hst₁, -⟩ := isChild_iff.mp ((h.exact _ _ hold href).1 _ hc)
        cases ha.new.symm.trans hst₁
    · rw [ha.requestStates, factsAt_insert, if_neg heq] at hf
      rcases (hreg _ _).mp hr with ⟨-, rfl⟩ | hold
      · rcases h.named c hc with hc' | ⟨-, hnone⟩
        · rwa [IsChild, hf] at hc'
        · rw [factsAt, hnone] at hf
          cases hf
      · exact h.sound.own _ _ c f hold hc hf
  · rw [ha.parents]
    rcases (hchild _ _).mp hc with ⟨rfl, rfl⟩ | hold
    · exact hlisted
    · exact h.listed ref' c hold
  · rcases (hreg _ _).mp hr with ⟨-, rfl⟩ | hold
    · exact absurd rfl hne
    · obtain ⟨hexact, c, hc⟩ := h.exact _ _ hold hne
      refine ⟨fun c' hc' => ?_, c, (hchild _ _).mpr (.inr hc)⟩
      rw [ha.parents] at hc'
      exact (hchild _ _).mpr (.inr (hexact c' hc'))
  · rw [ha.parents] at hc
    by_cases heq : c = st.requestId
    · exact .inl ((hchild _ _).mpr (.inl ⟨heq, rfl⟩))
    rcases h.named c hc with hc' | ⟨hmem, hnone⟩
    · exact .inl ((hchild _ _).mpr (.inr hc'))
    refine .inr ⟨(mem_cons.mp hmem).resolve_left heq, ?_⟩
    rw [ha.requestStates, Dict.get?_insert_of_ne _ _ heq]
    exact hnone
  · rw [ha.nextParent]
    exact h.known
  · rw [ha.parents]
    exact h.nodup
  · rw [ha.parents] at hr
    rcases (hreg _ _).mp hr with ⟨-, rfl⟩ | hold
    · rfl
    · exact h.unique ref' hold
  · exact ⟨st.requestId, (hchild _ _).mpr (.inl ⟨rfl, rfl⟩)⟩

end

theorem childReqId_inj {requestId : String} {i j : Nat}
    (h : childReqId requestId i = childReqId requestId j) : i = j := by
  have hdigits : Nat.toDigits 10 i = Nat.toDigits 10 j := by
    have hrepr := (String.append_left_inj _).mp h
    rwa [Nat.repr_eq_ofList_toDigits, Nat.repr_eq_ofList_toDigits, String.ofList_inj] at hrepr
  rw [← Nat.ofDigitChars_ten_toDigits (n := i), hdigits, Nat.ofDigitChars_ten_toDigits]

omit [Detokenizer δ] in
/-- The parent that a fan-out allocates, before its first child. -/
theorem Filling.start (h : Tidy s) (hfree : s.parentRequests.get? parent.requestId = none)
    (hnodup : parent.childRequests.Nodup)
    (hcoming : ∀ c ∈ parent.childRequests, c ∈ coming ∧ s.requestStates.get? c = none) :
    Filling s.nextParent coming { s with
      parents := Function.update s.parents s.nextParent parent
      nextParent := s.nextParent + 1 } := by
  -- no request and no map knows the new reference
  have hold : ∀ parentId ref, s.parentRequests.get? parentId = some ref → ref ≠ s.nextParent :=
    fun parentId ref hreg heq => by
      have hlt := (h.sound.registered _ _ hreg).2.1
      omega
  have hchild : ∀ ref c, IsChild s.requestStates ref c → ref ≠ s.nextParent :=
    fun ref c hc => hold _ _ (h.sound.parentOf ref c hc)
  refine ⟨⟨h.sound.wellFormed, h.sound.externals, fun parentId ref hreg => ?_,
    fun ref c hc => ?_, fun parentId ref c f hreg hc hf => ?_⟩, fun ref c hc => ?_,
    fun parentId ref hreg hne => ?_, fun c hc => ?_, Nat.lt_succ_self _, ?_, fun ref hreg => ?_,
    fun parentId hreg => ?_⟩
  · have hne := hold _ _ hreg
    obtain ⟨hid, hlt, hnd⟩ := h.sound.registered _ _ hreg
    dsimp only
    rw [update_of_ne hne]
    exact ⟨hid, Nat.lt_succ_of_lt hlt, hnd⟩
  · dsimp only
    rw [update_of_ne (hchild ref c hc)]
    exact h.sound.parentOf ref c hc
  · dsimp only at hc
    rw [update_of_ne (hold _ _ hreg)] at hc
    exact h.sound.own _ _ c f hreg hc hf
  · dsimp only
    rw [update_of_ne (hchild ref c hc)]
    exact h.listed ref c hc
  · unfold Exact
    dsimp only
    rw [update_of_ne hne]
    exact h.exact _ _ hreg
  · dsimp only at hc
    rw [update_self] at hc
    exact .inr (hcoming c hc)
  · dsimp only
    rw [update_self]
    exact hnodup
  · dsimp only at hreg
    rw [update_self, hfree] at hreg
    cases hreg
  · exact absurd rfl (hold _ _ hreg)

/-- One more child of a fan-out. -/
theorem Filling.addRequest (h : Filling ref (childReqId parent.requestId index :: coming) s)
    (hnew : s.requestStates.get? (childReqId parent.requestId index) = none)
    (hlisted : childReqId parent.requestId index ∈ (s.parents ref).childRequests)
    (hresumable : request.resumable = false)
    (hadd : s.addRequest (childRequest request parent index) prompt (some ref) index queue =
      .ok s') :
    Filling ref coming s' ∧ s'.parents = s.parents ∧
      ∀ c, c ≠ childReqId parent.requestId index →
        s'.requestStates.get? c = s.requestStates.get? c := by
  have hchild : (some ref).isSome → (childRequest request parent index).samplingParams.isSome ∧
      (childRequest request parent index).resumable = false := fun _ => ⟨rfl, hresumable⟩
  obtain ⟨st, hparent, hwf, ha⟩ := addRequest_spec hnew hchild hadd
  have hid : st.requestId = childReqId parent.requestId index := hwf.requestId
  rw [← hid] at h hlisted
  refine ⟨ha.filling h (hwf.requestId.symm ▸ hwf) hparent hlisted, ha.parents, fun c hc => ?_⟩
  rw [ha.requestStates, hid, Dict.get?_insert_of_ne _ _ hc]

theorem Filling.addRequests (h : Filling ref (indices.map (childReqId parent.requestId)) s)
    (hdistinct : indices.Nodup)
    (hnew : ∀ i ∈ indices, s.requestStates.get? (childReqId parent.requestId i) = none)
    (hlisted : ∀ i ∈ indices,
      childReqId parent.requestId i ∈ (s.parents ref).childRequests)
    (hresumable : request.resumable = false)
    (hadd : indices.foldlM (fun s index =>
      s.addRequest (childRequest request parent index) prompt (some ref) index queue) s = .ok s') :
    Filling ref [] s' := by
  induction indices generalizing s with
  | nil =>
    cases hadd
    exact h
  | cons i rest ih =>
    obtain ⟨s₁, hfirst, hadd⟩ := bind_eq_ok.mp hadd
    obtain ⟨hfill, hparents, hother⟩ := Filling.addRequest h (hnew i mem_cons_self)
      (hlisted i mem_cons_self) hresumable hfirst
    obtain ⟨hi, hrest⟩ := nodup_cons.mp hdistinct
    refine ih hfill hrest (fun j hj => ?_) (fun j hj => ?_) hadd
    · have hne : childReqId parent.requestId j ≠
          childReqId parent.requestId i := fun heq => hi (childReqId_inj heq ▸ hj)
      rw [hother _ hne]
      exact hnew j (mem_cons_of_mem i hj)
    · rw [hparents]
      exact hlisted j (mem_cons_of_mem i hj)

end Requests

theorem getChildInfo_foldl (indices : List Nat) (p : ParentRequest) :
    (indices.foldl getChildInfo p).requestId = p.requestId ∧
      (p.childRequests.Nodup → (indices.foldl getChildInfo p).childRequests.Nodup) ∧
      ∀ c, c ∈ (indices.foldl getChildInfo p).childRequests ↔
        c ∈ p.childRequests ∨ ∃ i ∈ indices, childReqId p.requestId i = c := by
  induction indices generalizing p with
  | nil => exact ⟨rfl, id, by simp⟩
  | cons i rest ih =>
    obtain ⟨hid, hnodup, hmem⟩ := ih (p.getChildInfo i)
    refine ⟨hid, fun h => hnodup h.insert, fun c => ?_⟩
    rw [foldl_cons, hmem c]
    show c ∈ List.insert _ p.childRequests ∨ (∃ j ∈ rest, childReqId p.requestId j = c) ↔ _
    rw [mem_insert_iff, exists_mem_cons_iff, eq_comm, or_assoc, or_left_comm]

section FanOut

variable [Detokenizer δ] {request : EngineCoreRequest} {prompt : Option String}
  {queue : Option Nat}

/-- The ids of a fan-out are not in use. -/
structure Fresh (s : OutputProcessor δ) (request : EngineCoreRequest) : Prop where
  resumable : request.resumable = false
  parent : s.parentRequests.get? request.requestId = none
  children : ∀ params, request.samplingParams = some params → ∀ i < params.n,
    s.requestStates.get? (ParentRequest.childReqId request.requestId i) = none

theorem parentRequest_new (h : new request = .ok parent) :
    parent.requestId = request.requestId ∧ request.samplingParams = some parent.samplingParams ∧
      parent.childRequests = [] := by
  unfold new at h
  split at h
  · next hparams =>
    cases h
    exact ⟨rfl, hparams, rfl⟩
  · cases h

theorem fanOutAsync_tidy (h : Tidy s) (hfresh : Fresh s request)
    (hadd : s.fanOutAsync request prompt queue = .ok s') : Tidy s' := by
  obtain ⟨parent, hparent, hadd⟩ := bind_eq_ok.mp hadd
  obtain ⟨hid, hparams, hnone⟩ := parentRequest_new hparent
  obtain ⟨hid', hnodup, hmem⟩ :=
    getChildInfo_foldl (List.range parent.samplingParams.n) parent
  have hnew : ∀ i ∈ List.range parent.samplingParams.n,
      s.requestStates.get? (childReqId parent.requestId i) = none := by
    intro i hi
    rw [hid]
    exact hfresh.children _ hparams i (mem_range.mp hi)
  refine (Filling.addRequests (Filling.start h ?_ (hnodup (by rw [hnone]; exact nodup_nil)) ?_)
    nodup_range hnew (fun i hi => ?_) hfresh.resumable hadd).tidy
  · rw [hid', hid]
    exact hfresh.parent
  · intro c hc
    rw [hmem, hnone] at hc
    obtain hc | ⟨i, hi, rfl⟩ := hc
    · cases hc
    · exact ⟨mem_map_of_mem hi, hnew i hi⟩
  · dsimp only
    rw [update_self, hmem]
    exact .inr ⟨i, hi, rfl⟩

omit [Detokenizer δ] in
/-- A parent that names one more child. -/
theorem Filling.name (h : Filling ref [] s) (hnew : s.requestStates.get?
      (childReqId (s.parents ref).requestId index) = none) :
    Filling ref [childReqId (s.parents ref).requestId index] { s with
      parents := Function.update s.parents ref ((s.parents ref).getChildInfo index) } := by
  have hid : ∀ ref', (Function.update s.parents ref ((s.parents ref).getChildInfo index)
      ref').requestId = (s.parents ref').requestId := by
    intro ref'
    by_cases href : ref' = ref
    · rw [href, update_self]
      rfl
    · rw [update_of_ne href]
  have hsub : ∀ ref' c, c ∈ (s.parents ref').childRequests →
      c ∈ (Function.update s.parents ref
        ((s.parents ref).getChildInfo index) ref').childRequests := by
    intro ref' c hc
    by_cases href : ref' = ref
    · subst href
      rw [update_self]
      exact mem_insert_of_mem hc
    · rwa [update_of_ne href]
  have hnodup : ((s.parents ref).getChildInfo index).childRequests.Nodup := h.nodup.insert
  refine ⟨⟨h.sound.wellFormed, h.sound.externals, fun parentId ref' hreg => ?_,
    fun ref' c hc => ?_, fun parentId ref' c f hreg hc hf => ?_⟩,
    fun ref' c hc => hsub ref' c (h.listed ref' c hc), fun parentId ref' hreg hne => ?_,
    fun c hc => ?_, h.known, ?_, fun ref' hreg => ?_, h.inhabited⟩
  · obtain ⟨hid', hlt, hnd⟩ := h.sound.registered _ _ hreg
    refine ⟨(hid ref').trans hid', hlt, ?_⟩
    by_cases href : ref' = ref
    · subst href
      dsimp only
      rw [update_self]
      exact hnodup
    · dsimp only
      rw [update_of_ne href]
      exact hnd
  · rw [hid]
    exact h.sound.parentOf ref' c hc
  · dsimp only at hc hf
    by_cases href : ref' = ref
    · subst href
      rw [update_self] at hc
      rcases mem_insert_iff.mp hc with rfl | hc
      · rw [factsAt, hnew] at hf
        cases hf
      · exact h.sound.own _ _ c f hreg hc hf
    · rw [update_of_ne href] at hc
      exact h.sound.own _ _ c f hreg hc hf
  · unfold Exact
    dsimp only
    rw [update_of_ne hne]
    exact h.exact _ _ hreg hne
  · dsimp only at hc
    rw [update_self] at hc
    rcases mem_insert_iff.mp hc with rfl | hc
    · exact .inr ⟨mem_cons_self, hnew⟩
    rcases h.named c hc with hchild | ⟨hmem, -⟩
    · exact .inl hchild
    · cases hmem
  · dsimp only
    rw [update_self]
    exact hnodup
  · rw [hid] at hreg
    exact h.unique ref' hreg

theorem Filling.nameAndAdd
    (h : Filling ref [] s) (hid : (s.parents ref).requestId = parent.requestId)
    (hdistinct : indices.Nodup)
    (hnew : ∀ i ∈ indices, s.requestStates.get? (childReqId parent.requestId i) = none)
    (hresumable : request.resumable = false)
    (hadd : indices.foldlM (fun s index =>
      let s := { s with
        parents := Function.update s.parents ref ((s.parents ref).getChildInfo index) }
      s.addRequest (childRequest request parent index) prompt (some ref) index none) s = .ok s') :
    Filling ref [] s' := by
  induction indices generalizing s with
  | nil =>
    cases hadd
    exact h
  | cons i rest ih =>
    obtain ⟨s₁, hfirst, hadd⟩ := bind_eq_ok.mp hadd
    have hnewi := hnew i mem_cons_self
    rw [← hid] at hnewi
    have hnamed := h.name hnewi
    rw [hid] at hnamed hnewi
    obtain ⟨hfill, hparents, hother⟩ := hnamed.addRequest hnewi (by
      dsimp only
      rw [update_self, ← hid]
      exact mem_insert_self) hresumable hfirst
    obtain ⟨hi, hrest⟩ := nodup_cons.mp hdistinct
    refine ih hfill ?_ hrest (fun j hj => ?_) hadd
    · rw [hparents]
      dsimp only
      rw [update_self]
      exact hid
    · have hne : childReqId parent.requestId j ≠
          childReqId parent.requestId i := fun heq => hi (childReqId_inj heq ▸ hj)
      rw [hother _ hne]
      exact hnew j (mem_cons_of_mem i hj)

theorem fanOut_tidy (h : Tidy s) (hfresh : Fresh s request)
    (hadd : s.fanOut request prompt = .ok s') : Tidy s' := by
  obtain ⟨parent, hparent, hadd⟩ := bind_eq_ok.mp hadd
  obtain ⟨hid, hparams, hnone⟩ := parentRequest_new hparent
  have hstart : Filling s.nextParent [] { s with
      parents := Function.update s.parents s.nextParent parent
      nextParent := s.nextParent + 1 } :=
    Filling.start h (by rw [hid]; exact hfresh.parent) (by rw [hnone]; exact nodup_nil)
      (by rw [hnone]; exact nofun)
  refine (hstart.nameAndAdd ?_ nodup_range (fun i hi => ?_) hfresh.resumable hadd).tidy
  · dsimp only
    rw [update_self]
  · rw [hid]
    exact hfresh.children _ hparams i (mem_range.mp hi)

end FanOut

end OutputProcessor

end Vllm.Engine
