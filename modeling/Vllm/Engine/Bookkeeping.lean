import Vllm.Engine.NewRequests

/-!
# Runs of the output processor

Every call keeps the maps exact as long as no abort takes the last child of a parent away without
its parent (`Orderly`): `abort_requests` takes a parent out only when it is given the id of the
parent itself.
-/

namespace Vllm.Engine

open Library List

/-- The outputs of a request are made without a look at the external ids. -/
theorem RequestState.makeRequestOutput_ne_valueError {δ : Type} [Detokenizer δ]
    {st : RequestState δ} {parents : Nat → ParentRequest} {tokens : List Nat}
    {pooling : Bool} {finishReason : Option FinishReason} {stopReason : Option StopReason}
    {error : Option RequestError} :
    st.makeRequestOutput parents tokens pooling finishReason stopReason error ≠
      .error .valueError := by
  have hprompt : ∀ st : RequestState δ, st.outputPromptTokenIds ≠ .error .valueError := by
    intro st
    unfold outputPromptTokenIds
    split <;> exact nofun
  have hsend : st.sendTokens tokens finishReason.isSome ≠ .error .valueError := by
    unfold sendTokens
    split
    · split
      · exact nofun
      · split
        · exact nofun
        · split <;> exact nofun
    · exact nofun
  have houtputs : ∀ (p : ParentRequest) (childId : String) (output : CompletionOutput),
      p.getOutputs childId output ≠ .error .valueError := by
    intro p childId output
    unfold ParentRequest.getOutputs
    generalize (if output.finished then p.discard childId else p) = p'
    dsimp only
    split
    · exact nofun
    · split <;> exact nofun
  unfold makeRequestOutput
  dsimp only
  split
  · exact nofun
  split
  · exact bind_ne_error (hprompt st) fun _ _ => nofun
  refine bind_ne_error hsend fun o _ => ?_
  split
  · exact nofun
  refine bind_ne_error ?_ fun o _ => ?_
  · unfold newCompletionOutput
    split <;> exact nofun
  split
  · exact bind_ne_error (hprompt _) fun _ _ => nofun
  refine bind_ne_error (houtputs _ _ _) fun _ _ => ?_
  split
  · exact nofun
  · exact bind_ne_error (hprompt _) fun _ _ => nofun

namespace OutputProcessor

variable {δ : Type} {s s' : OutputProcessor δ} {taken : List String} {st : RequestState δ}
  {id : String} {taken' todo ids : List String}

/-! ### Aborts -/

/-- Inside an abort: `taken` are out of the external map, and the ids of `todo` are still to be
aborted. A parent whose own id is to come needs nothing; any other keeps a child that is not
to be aborted, and those that are strike themselves when their last output is made. -/
structure Aborting (taken todo : List String) (s : OutputProcessor δ) : Prop where
  sound : Sound taken s
  listed : ∀ ref c, IsChild s.requestStates ref c → c ∈ (s.parents ref).childRequests
  settled : ∀ parentId ref, s.parentRequests.get? parentId = some ref →
    ¬ (parentId ∈ todo ∧ s.requestStates.get? parentId = none) →
      Exact s ref ∧ (∃ c, IsChild s.requestStates ref c ∧ c ∉ todo) ∧
        ∀ c f, factsAt s.requestStates c = some f → f.parentReq = some ref → c ∈ todo →
          f.queued = true

theorem Aborting.tidy (h : Aborting [] [] s) : Tidy s := by
  refine ⟨h.sound, h.listed, fun parentId ref hreg => ?_⟩
  obtain ⟨hexact, ⟨c, hc, -⟩, -⟩ := h.settled parentId ref hreg (fun hin => nomatch hin.1)
  exact ⟨hexact, c, hc⟩

theorem Sound.of_taken (h : Sound taken s)
    (hsame : ∀ c, s.requestStates.get? c ≠ none → (c ∈ taken ↔ c ∈ taken')) : Sound taken' s := by
  refine ⟨h.wellFormed, h.externals.congr fun c f hf => hsame c fun hnone => ?_, h.registered,
    h.parentOf, h.own⟩
  rw [factsAt, hnone] at hf
  cases hf

/-- What aborts do to the maps: entries go and the rest stays. -/
structure Shrinks (s s' : OutputProcessor δ) : Prop where
  states : ∀ c, s'.requestStates.get? c = s.requestStates.get? c ∨
    s'.requestStates.get? c = none
  parentRequests : ∀ parentId ref, s'.parentRequests.get? parentId = some ref →
    s.parentRequests.get? parentId = some ref
  children : ∀ ref, (s'.parents ref).childRequests.Sublist (s.parents ref).childRequests

theorem Shrinks.refl (s : OutputProcessor δ) : Shrinks s s :=
  ⟨fun _ => .inl rfl, fun _ _ => id, fun _ => List.Sublist.refl _⟩

theorem Shrinks.trans {s'' : OutputProcessor δ} (h : Shrinks s s') (h' : Shrinks s' s'') :
    Shrinks s s'' := by
  refine ⟨fun c => ?_, fun parentId ref hreg => h.parentRequests _ _ (h'.parentRequests _ _ hreg),
    fun ref => (h'.children ref).trans (h.children ref)⟩
  rcases h'.states c with heq | hnone
  · rw [heq]
    exact h.states c
  · exact .inr hnone

theorem Shrinks.gone (h : Shrinks s s') {c : String} (hc : s.requestStates.get? c = none) :
    s'.requestStates.get? c = none := by
  rcases h.states c with heq | hnone
  · rw [heq, hc]
  · exact hnone

/-- A live id is aborted. -/
theorem Aborting.pop {parents : Nat → ParentRequest}
    (h : Aborting taken (id :: todo) s) (hget : s.requestStates.get? id = some st)
    (htaken : id ∈ taken) (hstrikes : st.Strikes true s.parents parents)
    (hqueued : st.queue.isSome → ∀ ref, st.parentReq = some ref →
      (parents ref).childRequests = (s.parents ref).childRequests.erase id) :
    Aborting taken todo
      { s with requestStates := s.requestStates.erase id, parents := parents } := by
  have hid := (h.sound.wellFormed id st hget).requestId
  have hsub : ∀ ref, (parents ref).childRequests.Sublist (s.parents ref).childRequests := by
    intro ref
    rcases hstrikes.children ref with heq | ⟨-, -, heq⟩
    · rw [heq]
    · rw [heq]
      exact erase_sublist
  refine ⟨⟨fun c st₁ hst₁ => ?_, ?_, fun parentId ref hreg => ?_, fun ref c hc => ?_,
    fun parentId ref c f hreg hc hf => ?_⟩, fun ref c hc => ?_, fun parentId ref hreg hnot => ?_⟩
  · exact h.sound.wellFormed c st₁ (Dict.get?_erase_eq_some.mp hst₁).2
  · refine Externals.pop (h.sound.externals.congr fun c f _ => ?_)
    rw [mem_cons]
    exact ⟨.inr, fun hor => hor.elim (fun heq => heq ▸ htaken) fun hmem => hmem⟩
  · obtain ⟨hid', hlt, hnodup⟩ := h.sound.registered _ _ hreg
    exact ⟨(hstrikes.requestId ref).trans hid', hlt, hnodup.sublist (hsub ref)⟩
  · rw [hstrikes.requestId]
    exact h.sound.parentOf ref c (isChild_erase.mp hc).2
  · rw [factsAt_erase] at hf
    split at hf
    · cases hf
    · exact h.sound.own _ _ c f hreg ((hsub ref).subset hc) hf
  · obtain ⟨hne, hc⟩ := isChild_erase.mp hc
    have hmem := h.listed ref c hc
    rcases hstrikes.children ref with heq | ⟨-, -, heq⟩
    · rwa [heq]
    · rw [heq, hid]
      exact (mem_erase_of_ne hne).mpr hmem
  · -- a parent that is not to come was not to come before, for `id` is alive
    have hbefore : ¬ (parentId ∈ id :: todo ∧ s.requestStates.get? parentId = none) := by
      rintro ⟨hmem, hnone⟩
      rcases mem_cons.mp hmem with rfl | hmem
      · cases hget.symm.trans hnone
      refine hnot ⟨hmem, ?_⟩
      rw [Dict.get?_erase]
      split
      · rfl
      · exact hnone
    obtain ⟨hexact, ⟨c, hc, hcout⟩, hq⟩ := h.settled parentId ref hreg hbefore
    have hcid : c ≠ id := fun heq => hcout (heq ▸ mem_cons_self)
    refine ⟨fun c' hc' => ?_, ⟨c, isChild_erase.mpr ⟨hcid, hc⟩,
      fun hmem => hcout (mem_cons_of_mem id hmem)⟩, fun c' f hf hparent hmem => ?_⟩
    · have hlive := hexact c' ((hsub ref).subset hc')
      refine isChild_erase.mpr ⟨?_, hlive⟩
      rintro rfl
      obtain ⟨st₁, hst₁, hparent⟩ := isChild_iff.mp hlive
      cases hget.symm.trans hst₁
      have hst := hq c' _ (factsAt_of_get? hget) hparent mem_cons_self
      rw [hqueued hst ref hparent] at hc'
      exact (h.sound.registered _ _ hreg).2.2.not_mem_erase hc'
    · rw [factsAt_erase] at hf
      split at hf
      · cases hf
      · exact hq c' f hf hparent (mem_cons_of_mem id hmem)

theorem Aborting.put (h : Aborting taken todo s) (queue : Option Nat)
    (d : Delivery) : Aborting taken todo (s.put queue d) := by
  cases queue with
  | none => exact h
  | some q =>
    exact ⟨⟨h.sound.wellFormed, h.sound.externals, h.sound.registered, h.sound.parentOf,
      h.sound.own⟩, h.listed, h.settled⟩

/-- The children of a parent are to be aborted before it. -/
theorem Aborting.children {ref : Nat} (h : Aborting taken (id :: todo) s)
    (hdead : s.requestStates.get? id = none) (hreg : s.parentRequests.get? id = some ref) :
    Aborting taken ((s.parents ref).childRequests ++ id :: todo) s := by
  refine ⟨h.sound, h.listed, fun parentId ref' hreg' hnot => ?_⟩
  have hbefore : ¬ (parentId ∈ id :: todo ∧ s.requestStates.get? parentId = none) :=
    fun hin => hnot ⟨mem_append_right _ hin.1, hin.2⟩
  obtain ⟨hexact, ⟨c, hc, hcout⟩, hq⟩ := h.settled parentId ref' hreg' hbefore
  have href : ref' ≠ ref := by
    rintro rfl
    have heq := (h.sound.registered _ _ hreg).1.symm.trans (h.sound.registered _ _ hreg').1
    subst heq
    exact hbefore ⟨mem_cons_self, hdead⟩
  -- what is alive among the children of `ref` has no other parent
  have hother : ∀ c f, factsAt s.requestStates c = some f → f.parentReq = some ref' →
      c ∉ (s.parents ref).childRequests := by
    intro c f hf hparent hmem
    have hown := h.sound.own _ _ c f hreg hmem hf
    exact href (Option.some.inj (hparent.symm.trans hown))
  refine ⟨hexact, ⟨c, hc, fun hmem => ?_⟩, fun c f hf hparent hmem => ?_⟩
  · rcases mem_append.mp hmem with hmem | hmem
    · obtain ⟨st₁, hst₁, hparent⟩ := isChild_iff.mp hc
      exact hother c _ (factsAt_of_get? hst₁) hparent hmem
    · exact hcout hmem
  · rcases mem_append.mp hmem with hmem | hmem
    · exact absurd hmem (hother c f hf hparent)
    · exact hq c f hf hparent hmem

/-- An id that is neither alive nor a parent is passed over. -/
theorem Aborting.skip (h : Aborting taken (id :: todo) s)
    (hfree : s.parentRequests.get? id = none) : Aborting taken todo s := by
  refine ⟨h.sound, h.listed, fun parentId ref hreg hnot => ?_⟩
  have hne : parentId ≠ id := fun heq => nomatch (heq ▸ hfree).symm.trans hreg
  obtain ⟨hexact, ⟨c, hc, hcout⟩, hq⟩ := h.settled parentId ref hreg fun hin =>
    hnot ⟨(mem_cons.mp hin.1).resolve_left hne, hin.2⟩
  exact ⟨hexact, ⟨c, hc, fun hmem => hcout (mem_cons_of_mem id hmem)⟩,
    fun c f hf hparent hmem => hq c f hf hparent (mem_cons_of_mem id hmem)⟩

/-- A parent without live children is taken out. -/
theorem Aborting.popParent (ref : Nat) (h : Aborting taken (id :: todo) s)
    (hreg : ∀ ref', s.parentRequests.get? id = some ref' → ref' = ref)
    (hnone : ∀ c, ¬ IsChild s.requestStates ref c) :
    Aborting taken todo { s with parentRequests := s.parentRequests.erase id } := by
  have hold : ∀ parentId ref', (s.parentRequests.erase id).get? parentId = some ref' →
      s.parentRequests.get? parentId = some ref' :=
    fun _ _ hr => (Dict.get?_erase_eq_some.mp hr).2
  suffices hpop : Aborting taken (id :: todo)
      { s with parentRequests := s.parentRequests.erase id } from
    hpop.skip (Dict.get?_erase_self _ _)
  refine ⟨⟨h.sound.wellFormed, h.sound.externals,
    fun parentId ref' hr => h.sound.registered _ _ (hold _ _ hr), fun ref' c hc => ?_,
    fun parentId ref' c f hr => h.sound.own _ _ c f (hold _ _ hr)⟩, h.listed,
    fun parentId ref' hr => h.settled _ _ (hold _ _ hr)⟩
  have hr := h.sound.parentOf ref' c hc
  rw [Dict.get?_erase_of_ne, hr]
  intro heq
  rw [heq] at hr
  exact hnone c (hreg ref' hr ▸ hc)

/-- What an abort of `ids` does when `todo` is to be aborted after them. -/
def AbortsIds (ids : List String) (s s' : OutputProcessor δ) : Prop :=
  Shrinks s s' ∧ (∀ c ∈ ids, s'.requestStates.get? c = none) ∧
    ∀ taken todo, Aborting taken (ids ++ todo) s → Aborting taken todo s'

section Abort

variable [Detokenizer δ] {aborted : List String} {acc acc' : List String × OutputProcessor δ}
  {abortChildren : OutputProcessor δ → List String →
    Except Fault (List String × OutputProcessor δ)} {x : Dict String (List String)} {depth : Nat}

theorem abortOne_live (hget : acc.2.requestStates.get? id = some st)
    (h : abortOne abortChildren acc id = .ok acc') :
    Shrinks acc.2 acc'.2 ∧ acc'.2.requestStates.get? id = none ∧
      ∀ taken todo, id ∈ taken → Aborting taken (id :: todo) acc.2 →
        Aborting taken todo acc'.2 := by
  unfold abortOne at h
  dsimp only at h
  rw [hget] at h
  have hstates : ∀ c, (acc.2.requestStates.erase id).get? c = acc.2.requestStates.get? c ∨
      (acc.2.requestStates.erase id).get? c = none := by
    intro c
    rw [Dict.get?_erase]
    split
    · exact .inr rfl
    · exact .inl rfl
  dsimp only at h
  split at h
  · obtain ⟨⟨output, st₁, parents⟩, hmake, h⟩ := bind_eq_ok.mp h
    obtain ⟨-, hstrikes, herase⟩ := RequestState.makeRequestOutput_spec hmake
    cases h
    have hsub : ∀ ref, (parents ref).childRequests.Sublist (acc.2.parents ref).childRequests := by
      intro ref
      rcases hstrikes.children ref with heq | ⟨-, -, heq⟩
      · rw [heq]
      · rw [heq]
        exact erase_sublist
    have hpop : ∀ taken todo, id ∈ taken → Aborting taken (id :: todo) acc.2 →
        Aborting taken todo { acc.2 with
          requestStates := acc.2.requestStates.erase id, parents := parents } := by
      intro taken todo htaken hab
      have hwf := hab.sound.wellFormed id st hget
      refine hab.pop hget htaken hstrikes fun _ ref hparent => ?_
      have hsampling := hwf.sampling (by rw [hparent]; rfl)
      rw [← hwf.requestId]
      exact herase (by rw [Option.isNone_eq_false_iff]; exact hsampling) rfl ref hparent
    cases output with
    | none => exact ⟨⟨hstates, fun _ _ hreg => hreg, hsub⟩, Dict.get?_erase_self _ _, hpop⟩
    | some output =>
      refine ⟨⟨fun c => ?_, fun parentId ref hreg => ?_, fun ref => ?_⟩, ?_,
        fun taken todo htaken hab => (hpop taken todo htaken hab).put _ _⟩
      · rw [put_requestStates]
        exact hstates c
      · cases hq : st.queue with
        | none => rwa [hq] at hreg
        | some q => rwa [hq] at hreg
      · rw [put_parents]
        exact hsub ref
      · rw [put_requestStates]
        exact Dict.get?_erase_self _ _
  · next hqueue =>
    cases h
    exact ⟨⟨hstates, fun _ _ hreg => hreg, fun _ => List.Sublist.refl _⟩, Dict.get?_erase_self _ _,
      fun taken todo htaken hab => hab.pop hget htaken (.refl ..) fun hq => absurd hq hqueue⟩

theorem abortOne_spec
    (hrec : ∀ s ids aborted s', abortChildren s ids = .ok (aborted, s') → AbortsIds ids s s')
    (h : abortOne abortChildren acc id = .ok acc') :
    Shrinks acc.2 acc'.2 ∧ acc'.2.requestStates.get? id = none ∧
      ∀ taken todo, id ∈ taken → Aborting taken (id :: todo) acc.2 →
        Aborting taken todo acc'.2 := by
  cases hget : acc.2.requestStates.get? id with
  | some st => exact abortOne_live hget h
  | none =>
    unfold abortOne at h
    dsimp only at h
    rw [hget] at h
    dsimp only at h
    split at h
    · next hfree =>
      cases h
      exact ⟨.refl _, hget, fun _ _ _ hab => hab.skip hfree⟩
    · next ref hreg =>
      obtain ⟨aborted, s₁, ⟨hshrinks, hgone, habort⟩, rfl⟩ : ∃ aborted s₁,
          AbortsIds (acc.2.parents ref).childRequests acc.2 s₁ ∧ acc' =
            (acc.1 ++ aborted, { s₁ with parentRequests := s₁.parentRequests.erase id }) := by
        split at h
        · next hempty =>
          refine ⟨[], acc.2, ?_, (Except.ok.inj h).symm⟩
          rw [List.isEmpty_iff.mp hempty]
          exact ⟨.refl _, fun _ hmem => (by cases hmem), fun _ _ hab => hab⟩
        · obtain ⟨⟨aborted, s₁⟩, hchildren, h⟩ := bind_eq_ok.mp h
          exact ⟨aborted, s₁, hrec _ _ _ _ hchildren, (Except.ok.inj h).symm⟩
      refine ⟨⟨hshrinks.states, fun parentId ref' hreg' => ?_, hshrinks.children⟩,
        hshrinks.gone hget, fun taken todo _ hab => ?_⟩
      · exact hshrinks.parentRequests _ _ (Dict.get?_erase_eq_some.mp hreg').2
      · have hab₁ := habort taken (id :: todo) (hab.children hget hreg)
        refine hab₁.popParent ref (fun ref' hreg' => ?_) fun c hc => ?_
        · exact Option.some.inj ((hshrinks.parentRequests _ _ hreg').symm.trans hreg)
        · have hmem := (hshrinks.children ref).subset (hab₁.listed ref c hc)
          obtain ⟨st₁, hst₁, -⟩ := isChild_iff.mp hc
          cases (hgone c hmem).symm.trans hst₁

/-- The second loop of an abort. -/
theorem abortAll_spec
    (hrec : ∀ s ids aborted s', abortChildren s ids = .ok (aborted, s') → AbortsIds ids s s')
    (h : ids.foldlM (abortOne abortChildren) acc = .ok acc') :
    Shrinks acc.2 acc'.2 ∧ (∀ c ∈ ids, acc'.2.requestStates.get? c = none) ∧
      ∀ taken todo, (∀ c ∈ ids, c ∈ taken) → Aborting taken (ids ++ todo) acc.2 →
        Aborting taken todo acc'.2 := by
  induction ids generalizing acc with
  | nil =>
    cases h
    exact ⟨.refl _, nofun, fun _ _ _ hab => hab⟩
  | cons i rest ih =>
    obtain ⟨acc₁, hone, h⟩ := bind_eq_ok.mp h
    obtain ⟨hshrinks₁, hgone₁, hone⟩ := abortOne_spec hrec hone
    obtain ⟨hshrinks, hgone, hrest⟩ := ih h
    refine ⟨hshrinks₁.trans hshrinks, fun c hc => ?_, fun taken todo htaken hab => ?_⟩
    · rcases mem_cons.mp hc with rfl | hc
      · exact hshrinks.gone hgone₁
      · exact hgone c hc
    · exact hrest taken todo (fun c hc => htaken c (mem_cons_of_mem i hc))
        (hone taken _ (htaken i mem_cons_self) hab)

section

omit [Detokenizer δ]

theorem takeInternal_spec (h : ids.foldlM takeInternal s = .ok s') :
    ∃ x, s' = { s with externalReqIds := x } ∧ ∀ taken,
      Externals s.requestStates taken s.externalReqIds →
        Externals s.requestStates (ids ++ taken) x := by
  induction ids generalizing s with
  | nil =>
    obtain rfl := Except.ok.inj h
    exact ⟨s.externalReqIds, rfl, fun _ hx => hx⟩
  | cons i rest ih =>
    obtain ⟨s₁, hone, h⟩ := bind_eq_ok.mp h
    obtain ⟨x, rfl, hrest⟩ := ih h
    have hmem : ∀ taken : List String, ∀ c, c ∈ rest ++ i :: taken ↔ c ∈ i :: rest ++ taken := by
      intro taken c
      simp only [cons_append, mem_append, mem_cons]
      exact or_left_comm
    unfold takeInternal at hone
    split at hone
    · next hdead =>
      obtain rfl := Except.ok.inj hone
      refine ⟨x, rfl, fun taken hx => (hrest (i :: taken) (hx.skip ?_)).congr fun c _ _ => hmem _ c⟩
      rw [factsAt, hdead]
      rfl
    · next st hget =>
      obtain rfl := dropExternal_eq hone
      exact ⟨x, rfl, fun taken hx => (hrest (i :: taken)
        (hx.remove (factsAt_of_get? hget) rfl)).congr fun c _ _ => hmem _ c⟩

theorem Aborting.external (h : Aborting taken todo s) (hx : Externals s.requestStates taken' x) :
    Aborting taken' todo { s with externalReqIds := x } :=
  ⟨⟨h.sound.wellFormed, hx, h.sound.registered, h.sound.parentOf, h.sound.own⟩, h.listed,
    h.settled⟩

/-- Ids that are gone need not be noted. -/
theorem Aborting.forget (h : Aborting (ids ++ taken) todo s)
    (hgone : ∀ c ∈ ids, s.requestStates.get? c = none) : Aborting taken todo s := by
  refine ⟨h.sound.of_taken fun c hc => ?_, h.listed, h.settled⟩
  rw [mem_append]
  exact ⟨fun hor => hor.resolve_left fun hmem => hc (hgone c hmem), .inr⟩

end

/-- Induction on the depth of the calls. -/
theorem abortRequests_internal
    (h : abortRequests depth s ids true = .ok (aborted, s')) : AbortsIds ids s s' := by
  induction depth generalizing s s' ids aborted with
  | zero => cases h
  | succ depth ih =>
    obtain ⟨⟨ids₁, s₁⟩, htake, h⟩ := bind_eq_ok.mp h
    obtain ⟨s₂, hfold, heq⟩ := bind_eq_ok.mp htake
    cases heq
    obtain ⟨x, rfl, hx⟩ := takeInternal_spec hfold
    obtain ⟨hshrinks, hgone, hall⟩ :=
      abortAll_spec (fun s ids aborted s' hrec => ih hrec) h
    refine ⟨⟨hshrinks.states, hshrinks.parentRequests, hshrinks.children⟩, hgone,
      fun taken todo hab => ?_⟩
    have htaken := hab.external (hx taken hab.sound.externals)
    exact (hall _ todo (fun c hc => mem_append_left _ hc) htaken).forget hgone

omit [Detokenizer δ] in
theorem takeExternal_spec (ids : List String) {taken : List String}
    (hx : Externals s.requestStates taken x) :
    ∃ taken' x', ids.foldl takeExternal (taken, { s with externalReqIds := x }) =
        (taken', { s with externalReqIds := x' }) ∧ Externals s.requestStates taken' x' ∧
      ∀ c ∈ taken', c ∈ taken ∨ ∃ f, factsAt s.requestStates c = some f ∧
        f.externalReqId ∈ ids := by
  induction ids generalizing x taken with
  | nil => exact ⟨taken, x, rfl, hx, fun c hc => .inl hc⟩
  | cons e rest ih =>
    rw [foldl_cons]
    have hlist : (x.get? e).getD [] = (liveWith s.requestStates e).filter (· ∉ taken) := by
      rw [hx e, listing_getD]
    have hx₁ : Externals s.requestStates (taken ++ (x.get? e).getD []) (x.erase e) := by
      intro e'
      rw [Dict.get?_erase, hlist]
      split
      · next heq =>
        subst heq
        have hnil : (liveWith s.requestStates e').filter (fun c => c ∉ taken ++
            (liveWith s.requestStates e').filter (· ∉ taken)) = [] := by
          refine filter_eq_nil_iff.mpr fun c hc => ?_
          by_cases hmem : c ∈ taken <;> simp [hmem, hc]
        rw [hnil]
        rfl
      · next hne =>
        rw [hx e']
        congr 1
        refine filter_congr fun c hc => ?_
        have hother : c ∉ liveWith s.requestStates e := by
          intro hc'
          obtain ⟨f, hf, he⟩ := mem_liveWith.mp hc
          obtain ⟨f', hf', he'⟩ := mem_liveWith.mp hc'
          cases hf.symm.trans hf'
          exact hne (he.symm.trans he')
        simp [hother]
    obtain ⟨taken', x', heq, hx', hmem⟩ := ih hx₁
    refine ⟨taken', x', heq, hx', fun c hc => ?_⟩
    rcases hmem c hc with hc | ⟨f, hf, he⟩
    · rcases mem_append.mp hc with hc | hc
      · exact .inl hc
      · rw [hlist] at hc
        obtain ⟨f, hf, he⟩ := mem_liveWith.mp (mem_filter.mp hc).1
        exact .inr ⟨f, hf, he ▸ mem_cons_self⟩
    · exact .inr ⟨f, hf, mem_cons_of_mem e he⟩

/-- An abort by external ids that name no child. -/
theorem abortRequests_external (h : Tidy s)
    (halone : ∀ c f, factsAt s.requestStates c = some f → f.externalReqId ∈ ids →
      f.parentReq = none)
    (hab : abortRequests depth s ids false = .ok (aborted, s')) : Tidy s' := by
  cases depth with
  | zero => cases hab
  | succ depth =>
    unfold abortRequests at hab
    obtain ⟨⟨ids₁, s₁⟩, htake, hab⟩ := bind_eq_ok.mp hab
    obtain ⟨taken', x', heq, hx', hmem⟩ := takeExternal_spec ids h.sound.externals
    obtain ⟨rfl, rfl⟩ := Prod.mk.inj ((Except.ok.inj htake).symm.trans heq)
    obtain ⟨-, hgone, hall⟩ := abortAll_spec
      (fun s ids aborted s' hrec => abortRequests_internal hrec) hab
    -- no child is aborted
    have hnone : ∀ c f ref, factsAt s.requestStates c = some f → f.parentReq = some ref →
        c ∉ ids₁ := by
      intro c f ref hf hparent hc
      rcases hmem c hc with hc | ⟨f', hf', he⟩
      · cases hc
      · cases hf.symm.trans hf'
        cases (halone c f hf he).symm.trans hparent
    have hstart : Aborting [] (ids₁ ++ []) s := by
      refine ⟨h.sound, h.listed, fun parentId ref hreg _ => ?_⟩
      obtain ⟨hexact, c, hc⟩ := h.exact _ _ hreg
      obtain ⟨st₁, hst₁, hparent⟩ := isChild_iff.mp hc
      rw [append_nil]
      exact ⟨hexact, ⟨c, hc, hnone c _ ref (factsAt_of_get? hst₁) hparent⟩,
        fun c f hf hparent hmem => absurd hmem (hnone c f ref hf hparent)⟩
    have hend := hall ids₁ [] (fun c hc => hc) (hstart.external hx')
    rw [← append_nil ids₁] at hend
    exact (hend.forget hgone).tidy

end Abort

/-! ### No id is taken out twice -/

/-- A live id that was not taken out of the external map can be taken out of it. -/
theorem dropExternal_ok (hx : Externals s.requestStates taken s.externalReqIds)
    (hget : s.requestStates.get? id = some st) (hid : id ∉ taken) :
    ∃ s', s.dropExternal st.externalReqId id = .ok s' := by
  have hmem : id ∈ (s.externalReqIds.get? st.externalReqId).getD [] := by
    rw [hx, listing_getD, mem_filter]
    exact ⟨mem_liveWith.mpr ⟨st.facts, factsAt_of_get? hget, rfl⟩, by simpa using hid⟩
  exact ⟨_, if_pos hmem⟩

/-- The first loop takes ids out that are not taken twice. -/
theorem takeInternal_ok (hx : Externals s.requestStates taken s.externalReqIds)
    (htaken : ∀ c ∈ ids, s.requestStates.get? c ≠ none → c ∉ taken)
    (honce : ids.Pairwise fun a b => s.requestStates.get? b ≠ none → b ≠ a) :
    ∃ s', ids.foldlM takeInternal s = .ok s' := by
  induction ids generalizing s taken with
  | nil => exact ⟨s, rfl⟩
  | cons i rest ih =>
    rw [forall_mem_cons] at htaken
    rw [pairwise_cons] at honce
    obtain ⟨s₁, hone, hstates, hx₁⟩ : ∃ s₁, s.takeInternal i = .ok s₁ ∧
        s₁.requestStates = s.requestStates ∧
          Externals s.requestStates (i :: taken) s₁.externalReqIds := by
      unfold takeInternal
      split
      · next hdead => exact ⟨s, rfl, rfl, hx.skip (by rw [factsAt, hdead]; rfl)⟩
      · next st hget =>
        obtain ⟨s₁, hdrop⟩ := dropExternal_ok hx hget (htaken.1 (by simp [hget]))
        obtain rfl := dropExternal_eq hdrop
        exact ⟨_, hdrop, rfl, hx.remove (factsAt_of_get? hget) rfl⟩
    obtain ⟨s₂, hrest⟩ : ∃ s₂, rest.foldlM takeInternal s₁ = .ok s₂ := by
      rw [← hstates] at hx₁
      refine ih hx₁ (fun c hc hlive => ?_) (hstates ▸ honce.2)
      rw [hstates] at hlive
      exact not_mem_cons_of_ne_of_not_mem (honce.1 c hc hlive) (htaken.2 c hc hlive)
    refine ⟨s₂, ?_⟩
    rw [foldlM_cons, hone]
    exact hrest

section

variable [Detokenizer δ] {acc : List String × OutputProcessor δ} {depth : Nat}
  {s₁ : OutputProcessor δ}
  {abortChildren : OutputProcessor δ → List String →
    Except Fault (List String × OutputProcessor δ)}

theorem abortOne_ne_valueError
    (hchildren : ∀ ref, acc.2.requestStates.get? id = none →
      acc.2.parentRequests.get? id = some ref →
        abortChildren acc.2 (acc.2.parents ref).childRequests ≠ .error .valueError) :
    abortOne abortChildren acc id ≠ .error .valueError := by
  unfold abortOne
  dsimp only
  split
  · split
    · exact bind_ne_error RequestState.makeRequestOutput_ne_valueError fun _ _ => nofun
    · exact nofun
  · next hdead =>
    split
    · exact nofun
    · next ref hreg =>
      split
      · exact nofun
      · exact bind_ne_error (hchildren ref hdead hreg) fun _ _ => nofun

/-- An abort raises nothing if its first loop succeeds and each pass of its second raises nothing,
as long as the passes keep `P` of the ids to come. -/
theorem abortRequests_ne_valueError {P : List String → OutputProcessor δ → Prop}
    (hfold : ids.foldlM takeInternal s = .ok s₁) (hinit : P ids s₁)
    (hstep : ∀ i rest s₂, P (i :: rest) s₂ → s₂.requestStates.get? i = none → ∀ ref,
      s₂.parentRequests.get? i = some ref → ∀ depth,
        abortRequests depth s₂ (s₂.parents ref).childRequests true ≠ .error .valueError)
    (hnext : ∀ i rest s₂ s₃, P (i :: rest) s₂ → Shrinks s₂ s₃ →
      s₃.requestStates.get? i = none →
      (∀ taken todo, i ∈ taken → Aborting taken (i :: todo) s₂ → Aborting taken todo s₃) →
        P rest s₃) :
    abortRequests depth s ids true ≠ .error .valueError := by
  cases depth with
  | zero => exact nofun
  | succ depth =>
    unfold abortRequests takeIds
    rw [if_pos rfl, hfold]
    refine foldlM_ne_error (P := fun rest acc => P rest acc.2)
      (fun i rest acc hacc => ⟨?_, fun acc' hone => ?_⟩) hinit
    · exact abortOne_ne_valueError fun ref hdead hreg => hstep i rest _ hacc hdead ref hreg depth
    · obtain ⟨hshrinks, hgone, hab⟩ :=
        abortOne_spec (fun s ids aborted s' hrec => abortRequests_internal hrec) hone
      exact hnext i rest _ _ hacc hshrinks hgone hab

/-- An abort of ids that are no parents. -/
theorem abortChildren_ne_valueError (hx : Externals s.requestStates taken s.externalReqIds)
    (htaken : ∀ c ∈ ids, s.requestStates.get? c ≠ none → c ∉ taken) (hnodup : ids.Nodup)
    (hfree : ∀ c ∈ ids, s.parentRequests.get? c = none) :
    abortRequests depth s ids true ≠ .error .valueError := by
  obtain ⟨s₁, hfold⟩ := takeInternal_ok hx htaken (hnodup.imp fun hne _ => hne.symm)
  obtain ⟨x, rfl, -⟩ := takeInternal_spec hfold
  refine abortRequests_ne_valueError
    (P := fun rest s => ∀ c ∈ rest, ∀ ref, s.parentRequests.get? c ≠ some ref) hfold
    (fun c hc ref hreg => ?_) (fun i rest s₂ hnone _ ref hreg => ?_)
    (fun i rest s₂ s₃ hnone hshrinks _ _ c hc ref hreg => ?_)
  · cases (hfree c hc).symm.trans hreg
  · exact absurd hreg (hnone i mem_cons_self ref)
  · exact hnone c (mem_cons_of_mem i hc) ref (hshrinks.parentRequests c ref hreg)

end

/-- No live id is named twice, be it by itself and then by its parent: the id of the parent stands
for those of its children that are still there. -/
def NamedOnce (s : OutputProcessor δ) (requestIds : List String) : Prop :=
  requestIds.Pairwise fun a b => ∀ f, factsAt s.requestStates b = some f →
    b ≠ a ∧ ∀ ref, f.parentReq = some ref → (s.parents ref).requestId ≠ a

/-- No id is taken out of the external map twice. -/
theorem internalAbort_ne_valueError [Detokenizer δ] {depth : Nat} (h : Tidy s)
    (hstart : Aborting [] (ids ++ []) s)
    (hown : ∀ parentId ref, s.parentRequests.get? parentId = some ref →
      ∀ c ∈ (s.parents ref).childRequests, s.parentRequests.get? c = none)
    (honce : NamedOnce s ids) : abortRequests depth s ids true ≠ .error .valueError := by
  obtain ⟨s₁, hfold⟩ := takeInternal_ok h.sound.externals (fun _ _ _ => not_mem_nil)
    (honce.imp fun {a b} hab hlive => by
      obtain ⟨st, hst⟩ := Option.ne_none_iff_exists'.mp hlive
      exact (hab _ (factsAt_of_get? hst)).1)
  obtain ⟨x, rfl, hx⟩ := takeInternal_spec hfold
  refine abortRequests_ne_valueError (P := fun rest s₂ => ∃ done, ids = done ++ rest ∧
      (∀ c ∈ done, s₂.requestStates.get? c = none) ∧ Shrinks s s₂ ∧ Aborting ids rest s₂) hfold
    ⟨[], rfl, nofun, ⟨fun _ => .inl rfl, fun _ _ => id, fun _ => .refl _⟩, ?_⟩ ?_ ?_
  · have := hstart.external (hx [] h.sound.externals)
    rwa [append_nil] at this
  · rintro i rest s₂ ⟨done, hids, hdone, hshrinks, hab⟩ hdead ref hreg depth
    have hreg₀ := hshrinks.parentRequests _ _ hreg
    obtain ⟨hparentId, -, -⟩ := h.sound.registered _ _ hreg₀
    refine abortChildren_ne_valueError hab.sound.externals (fun c hc hlive hmem => ?_)
      (hab.sound.registered _ _ hreg).2.2 fun c hc => ?_
    · -- a live child is named after its parent
      obtain ⟨st, hst⟩ := Option.ne_none_iff_exists'.mp hlive
      have hst₀ : s.requestStates.get? c = some st := by
        rcases hshrinks.states c with heq | hnone
        · rw [← heq, hst]
        · exact absurd hnone hlive
      have hrest : c ∈ rest := by
        rw [hids, mem_append, mem_cons] at hmem
        rcases hmem with hmem | rfl | hmem
        · exact absurd (hdone c hmem) hlive
        · exact absurd hdead hlive
        · exact hmem
      have hparent := h.sound.own _ _ c _ hreg₀ ((hshrinks.children ref).subset hc)
        (factsAt_of_get? hst₀)
      rw [NamedOnce, hids, pairwise_append, pairwise_cons] at honce
      exact ((honce.2.1.1 c hrest) _ (factsAt_of_get? hst₀)).2 ref hparent hparentId
    · cases hfree : s₂.parentRequests.get? c with
      | none => rfl
      | some ref' =>
        have hnone := hown _ _ hreg₀ c ((hshrinks.children ref).subset hc)
        cases hnone.symm.trans (hshrinks.parentRequests _ _ hfree)
  · rintro i rest s₂ s₃ ⟨done, hids, hdone, hshrinks, hab⟩ hshrinks' hgone hnext
    refine ⟨done ++ [i], by rw [hids, append_assoc, singleton_append], fun c hc => ?_,
      hshrinks.trans hshrinks', hnext _ _ (by simp [hids]) hab⟩
    rcases mem_append.mp hc with hc | hc
    · exact hshrinks'.gone (hdone c hc)
    · rw [mem_singleton.mp hc]
      exact hgone

/-! ### Runs -/

/-- The calls of an engine. -/
inductive Call
  | addRequest (request : EngineCoreRequest) (prompt : Option String) (queue : Option Nat)
  | fanOut (request : EngineCoreRequest) (prompt : Option String)
  | fanOutAsync (request : EngineCoreRequest) (prompt : Option String) (queue : Option Nat)
  | processOutputs (outputs : List EngineCoreOutput)
  | abortRequests (requestIds : List String) (internal : Bool)

def exec [Detokenizer δ] (recursionLimit : Nat) (s : OutputProcessor δ) :
    Call → Except Fault (OutputProcessor δ)
  | .addRequest request prompt queue => s.addRequest request prompt none 0 queue
  | .fanOut request prompt => s.fanOut request prompt
  | .fanOutAsync request prompt queue => s.fanOutAsync request prompt queue
  | .processOutputs outputs => (s.processOutputs outputs).map Prod.fst
  | .abortRequests requestIds internal =>
    (abortRequests recursionLimit s requestIds internal).map Prod.snd

/-- What the engines promise: the ids of a fan-out are new, the further inputs of a session are not
sent to a child, and no child has the id of a parent. -/
def Promised (s : OutputProcessor δ) : Call → Prop
  | .addRequest request _ _ => ∀ st, s.requestStates.get? request.requestId = some st →
    st.parentReq.isSome → request.resumable = false
  | .fanOut request _ => Fresh s request
  | .fanOutAsync request _ _ => Fresh s request
  | .abortRequests _ true => ∀ parentId ref, s.parentRequests.get? parentId = some ref →
    ∀ c ∈ (s.parents ref).childRequests, s.parentRequests.get? c = none
  | _ => True

/-- An abort leaves no parent behind. By external ids, it names no child. By internal ids, it names
no live id twice, and with a child also its parent, or else the child has a queue and a sibling
stays. -/
def KeepsParents (s : OutputProcessor δ) : Call → Prop
  | .abortRequests requestIds false => ∀ c f, factsAt s.requestStates c = some f →
    f.externalReqId ∈ requestIds → f.parentReq = none
  | .abortRequests requestIds true => NamedOnce s requestIds ∧ ∀ c ∈ requestIds, ∀ f ref,
    factsAt s.requestStates c = some f → f.parentReq = some ref →
      ((s.parents ref).requestId ∈ requestIds ∧
        s.requestStates.get? (s.parents ref).requestId = none) ∨
      (f.queued = true ∧ ∃ c', IsChild s.requestStates ref c' ∧ c' ∉ requestIds)
  | _ => True

def Orderly (s : OutputProcessor δ) (call : Call) : Prop := Promised s call ∧ KeepsParents s call

theorem Aborting.start (h : Tidy s)
    (hkeeps : KeepsParents s (.abortRequests ids true)) : Aborting [] (ids ++ []) s := by
  refine ⟨h.sound, h.listed, fun parentId ref hreg hnot => ?_⟩
  rw [append_nil] at hnot ⊢
  obtain ⟨hexact, c, hc⟩ := h.exact _ _ hreg
  have hid := (h.sound.registered _ _ hreg).1
  have hstays : ∀ c ∈ ids, ∀ f, factsAt s.requestStates c = some f → f.parentReq = some ref →
      f.queued = true ∧ ∃ c', IsChild s.requestStates ref c' ∧ c' ∉ ids := by
    intro c hmem f hf hparent
    rcases hkeeps.2 c hmem f ref hf hparent with hends | hstays
    · rw [hid] at hends
      exact absurd hends hnot
    · exact hstays
  refine ⟨hexact, ?_, fun c f hf hparent hmem => (hstays c hmem f hf hparent).1⟩
  by_cases hmem : c ∈ ids
  · obtain ⟨st₁, hst₁, hparent⟩ := isChild_iff.mp hc
    exact (hstays c hmem _ (factsAt_of_get? hst₁) hparent).2
  · exact ⟨c, hc, hmem⟩

variable [Detokenizer δ]

/-- Every call that leaves no parent behind keeps the maps exact. -/
theorem exec_tidy {recursionLimit : Nat} {call : Call} (h : Tidy s) (horderly : Orderly s call)
    (hexec : s.exec recursionLimit call = .ok s') : Tidy s' := by
  obtain ⟨hpromised, hkeeps⟩ := horderly
  cases call with
  | addRequest request prompt queue => exact addRequest_tidy h hpromised hexec
  | fanOut request prompt => exact fanOut_tidy h hpromised hexec
  | fanOutAsync request prompt queue => exact fanOutAsync_tidy h hpromised hexec
  | processOutputs outputs =>
    obtain ⟨⟨s₁, requestOutputs, aborted⟩, hprocess, rfl⟩ := map_eq_ok.mp hexec
    exact processOutputs_tidy h hprocess
  | abortRequests ids internal =>
    obtain ⟨⟨aborted, s₁⟩, habort, rfl⟩ := map_eq_ok.mp hexec
    cases internal with
    | false => exact abortRequests_external h hkeeps habort
    | true => exact ((abortRequests_internal habort).2.2 [] [] (Aborting.start h hkeeps)).tidy

/-- In every run whose aborts leave no parent behind the maps hold what is alive and nothing
else, and no further abort stops half way at an id that is not in the external map. -/
theorem maps_exact {recursionLimit streamInterval : Nat}
    (h : Reaches Orderly (exec recursionLimit) (init streamInterval) s) :
    Registered s ∧
      (s.requestStates.keys = [] → s.externalReqIds.keys = [] ∧ s.parentRequests.keys = []) ∧
      ∀ ids, Orderly s (.abortRequests ids true) →
        s.exec recursionLimit (.abortRequests ids true) ≠ .error .valueError := by
  have htidy : Tidy s := h.invariant (Tidy.init streamInterval) fun s call s' hs horderly hexec =>
    exec_tidy hs horderly hexec
  refine ⟨htidy.registered, htidy.registered.nothing_left, fun ids horderly hraise => ?_⟩
  exact internalAbort_ne_valueError htidy (Aborting.start htidy horderly.2) horderly.1
    horderly.2.1 (map_eq_error.mp hraise)

/-! ### An abort by the external id -/

section Sample

/-- A request for two samples. -/
def sampleRequest : EngineCoreRequest where
  requestId := "r"
  externalReqId := some "x"
  promptTokenIds := some [1]
  samplingParams := some { n := 2 }

omit [Detokenizer δ] in
theorem sampleRequest_fresh (streamInterval : Nat) :
    Fresh (init streamInterval : OutputProcessor δ) sampleRequest :=
  ⟨rfl, rfl, fun _ _ _ _ => rfl⟩

/-- The caller aborts both samples by the id that it gave, and their parent stays behind. -/
theorem external_abort_leaks : ∃ s : OutputProcessor IncrementalDetokenizer,
    Reaches Promised (exec 2) (init 1) s ∧ s.requestStates.keys = [] ∧
      s.parentRequests.keys = ["r"] ∧ ¬ Registered s := by
  have hrun : Reaches Promised (exec 2) (init 1 : OutputProcessor IncrementalDetokenizer) _ :=
    .step (a := .abortRequests ["x"] false)
      (.step (a := .fanOutAsync sampleRequest none (some 0)) .refl (sampleRequest_fresh 1) rfl)
      trivial rfl
  exact ⟨_, hrun, rfl, rfl, fun h => nomatch (h.nothing_left rfl).2⟩

/-- With the id of the parent, nothing stays behind. -/
theorem maps_exact_sample : ∃ s₁ s₂ : OutputProcessor IncrementalDetokenizer,
    (init 1).exec 2 (.fanOutAsync sampleRequest none (some 0)) = .ok s₁ ∧
      s₁.requestStates.keys = ["0_r", "1_r"] ∧ s₁.parentRequests.keys = ["r"] ∧
      s₁.exec 2 (.abortRequests ["r"] true) = .ok s₂ ∧ s₂.requestStates.keys = [] ∧
      s₂.externalReqIds.keys = [] ∧ s₂.parentRequests.keys = [] := by
  obtain ⟨s₁, hfan, hlive, hparents, href, hchildren, s₂, habort, hempty⟩ :
      ∃ s₁ : OutputProcessor IncrementalDetokenizer,
        (init 1).exec 2 (.fanOutAsync sampleRequest none (some 0)) = .ok s₁ ∧
        s₁.requestStates.keys = ["0_r", "1_r"] ∧ s₁.parentRequests.keys = ["r"] ∧
        s₁.parentRequests.get? "r" = some 0 ∧ "r" ∉ (s₁.parents 0).childRequests ∧
        ∃ s₂, s₁.exec 2 (.abortRequests ["r"] true) = .ok s₂ ∧ s₂.requestStates.keys = [] :=
    ⟨_, rfl, rfl, rfl, rfl, by decide, _, rfl, rfl⟩
  have honly : ∀ parentId, parentId ≠ "r" → s₁.parentRequests.get? parentId = none :=
    fun parentId hne => Dict.get?_eq_none_of_notMem (by simpa [hparents] using hne)
  have hpromised : Promised s₁ (.abortRequests ["r"] true) := by
    intro parentId ref hreg c hc
    by_cases hparent : parentId = "r"
    · subst hparent
      cases href.symm.trans hreg
      exact honly c fun hcr => hchildren (hcr ▸ hc)
    · cases (honly parentId hparent).symm.trans hreg
  have hkeeps : KeepsParents s₁ (.abortRequests ["r"] true) := by
    refine ⟨pairwise_singleton _ _, fun c hc f ref hf => ?_⟩
    have hdead : s₁.requestStates.get? "r" = none :=
      Dict.get?_eq_none_of_notMem (by simp [hlive])
    rw [mem_singleton.mp hc, factsAt, hdead] at hf
    cases hf
  have hrun : Reaches Orderly (exec 2) (init 1) s₂ :=
    .step (a := .abortRequests ["r"] true)
      (.step (a := .fanOutAsync sampleRequest none (some 0)) .refl
        ⟨sampleRequest_fresh 1, trivial⟩ hfan) ⟨hpromised, hkeeps⟩ habort
  exact ⟨s₁, s₂, hfan, hlive, hparents, habort, hempty, (maps_exact hrun).2.1 hempty⟩

end Sample

end OutputProcessor

end Vllm.Engine
