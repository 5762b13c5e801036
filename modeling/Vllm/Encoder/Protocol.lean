import Vllm.Encoder.Accounting
import Vllm.Encoder.Scheduling

/-!
# The scheduler's use of the encoder cache manager

The scheduler plans the encoder inputs of a request, then allocates slots for it.
While it does, other requests can be preempted and give their inputs up; the
request itself can be preempted too, and the plan is dropped. Otherwise the planned
inputs are allocated. `CacheUse` follows these calls: `pending` is a plan that is
not allocated yet.

The calls are noted in a ledger next to the manager (`Recorded`): the inputs that a hit or an
allocation handed out and that were not freed since. Every such run keeps the manager's invariant,
agrees with the ledger and raises nothing.
-/

namespace Vllm.Encoder

open Library EncoderCacheManager List Option

variable {R M : Type} {features : R → List (MultiModalFeature M)}
variable {m : EncoderCacheManager R M} {r : R} {i : Nat} {l l' : List Nat} {f : MultiModalFeature M}

/-! ## The ledger -/

/-- A manager and the inputs that its calls handed out and that were not freed since. The ledger
follows the calls and what they return; nothing reads it. -/
structure Recorded (R M : Type) where
  manager : EncoderCacheManager R M
  ledger : R → Finset Nat

namespace Recorded

variable [DecidableEq R] [DecidableEq M]

/-- The manager after a call that handed out an input. -/
def acquire (s : Recorded R M) (manager : EncoderCacheManager R M) (r : R) (i : Nat) :
    Recorded R M :=
  ⟨manager, Function.update s.ledger r (insert i (s.ledger r))⟩

/-- The manager after a call that freed inputs. -/
def giveUp (s : Recorded R M) (manager : EncoderCacheManager R M) (r : R) (ids : List Nat) :
    Recorded R M :=
  ⟨manager, Function.update s.ledger r (s.ledger r \ ids.toFinset)⟩

instance : Manager (Recorded R M) R M where
  getCachedNumEncoderEmbeds s := s.manager.getCachedNumEncoderEmbeds
  checkAndUpdateCache s request i := (s.manager.checkAndUpdateCache request i).map fun (hit, m) =>
    (hit, if hit then s.acquire m request.requestId i else { s with manager := m })
  canAllocate s request i budget planned :=
    (s.manager.canAllocate request i budget planned).map fun (fits, m) =>
      (fits, { s with manager := m })
  allocate s request i := (s.manager.allocate request i).map fun m =>
    s.acquire m request.requestId i
  getCachedInputIds s := s.manager.getCachedInputIds
  freeEncoderInput s request i := (s.manager.freeEncoderInput request i).map fun m =>
    s.giveUp m request.requestId [i]
  free s request ids := (s.manager.free request ids).map fun m =>
    s.giveUp m request.requestId ids
  getFreedMmHashes s := (s.manager.getFreedMmHashes.1,
    { s with manager := s.manager.getFreedMmHashes.2 })
  reset s := ⟨s.manager.reset, fun _ => ∅⟩

/-- The manager is consistent, and its records are those of the ledger. -/
structure Agrees (features : R → List (MultiModalFeature M)) (s : Recorded R M) : Prop where
  consistent : Consistent features s.manager
  ledger : ∀ r i, i ∈ s.ledger r ↔ i ∈ s.manager.requestCachedIds r

variable {s : Recorded R M}

theorem Agrees.acquire (hs : s.Agrees features) {manager : EncoderCacheManager R M}
    (hm : Consistent features manager) (htakes : Takes r i s.manager manager) :
    (s.acquire manager r i).Agrees features := by
  refine ⟨hm, fun r' i' => ?_⟩
  rw [show (s.acquire manager r i).manager = manager from rfl, htakes, ← hs.ledger]
  by_cases hr : r' = r
  · subst hr
    simp [Recorded.acquire, or_comm]
  · simp [Recorded.acquire, hr]

theorem Agrees.giveUp {ids : List Nat} (hs : s.Agrees features)
    {manager : EncoderCacheManager R M} (hm : Consistent features manager)
    (hgives : GivesUp r ids s.manager manager) : (s.giveUp manager r ids).Agrees features := by
  refine ⟨hm, fun r' i' => ?_⟩
  rw [show (s.giveUp manager r ids).manager = manager from rfl, hgives, ← hs.ledger]
  by_cases hr : r' = r
  · subst hr
    simp [Recorded.giveUp]
  · simp [Recorded.giveUp, hr]

theorem Agrees.checkAndUpdateCache (hs : s.Agrees features) (hf : (features r)[i]? = some f) :
    ∃ s', Manager.checkAndUpdateCache s ⟨r, features r⟩ i =
        .ok ((s.manager.cached.get? f.identifier).isSome, s') ∧
      s'.Agrees features ∧ SameEntries s.manager s'.manager := by
  obtain ⟨m', hok, hm', hsame, hids⟩ := hs.consistent.checkAndUpdateCache hf
  refine ⟨_, congrArg (Except.map _) hok, ?_⟩
  dsimp only
  split
  · next hhit =>
    rw [if_pos hhit] at hids
    exact ⟨hs.acquire hm' hids, hsame⟩
  · next hmiss =>
    rw [if_neg hmiss] at hids
    refine ⟨⟨hm', fun r' i' => ?_⟩, hsame⟩
    rw [hids]
    exact hs.ledger r' i'

theorem Agrees.allocate (hs : s.Agrees features) (hf : (features r)[i]? = some f)
    (hnone : s.manager.cached.get? f.identifier = none)
    (hspace : (f.numEmbeds : Int) ≤ s.manager.numFreeSlots) :
    ∃ s', Manager.allocate s ⟨r, features r⟩ i = .ok s' ∧ s'.Agrees features ∧
      s'.manager.numFreeSlots = s.manager.numFreeSlots - f.numEmbeds ∧
      (∀ h, (s'.manager.cached.get? h).isSome ↔
        h = f.identifier ∨ (s.manager.cached.get? h).isSome) := by
  obtain ⟨m', hok, hm', hfree, hkeys, htakes⟩ := hs.consistent.allocate hf hnone hspace
  exact ⟨s.acquire m' r i, congrArg (Except.map _) hok, hs.acquire hm' htakes, hfree, hkeys⟩

theorem Agrees.canAllocate (hs : s.Agrees features) (hf : (features r)[i]? = some f)
    (budget : Int) (planned : Nat) :
    ∃ fits s', Manager.canAllocate s ⟨r, features r⟩ i budget planned = .ok (fits, s') ∧
      s'.Agrees features ∧ (fits = false → s' = s) ∧
      (fits = true → ((f.numEmbeds + planned : Nat) : Int) ≤ s'.manager.numFreeSlots) ∧
      (∀ h, (s'.manager.cached.get? h).isSome → (s.manager.cached.get? h).isSome) := by
  obtain ⟨fits, m', hok, hm', hfalse, htrue, hkeys, hids⟩ :=
    hs.consistent.canAllocate hf budget planned
  refine ⟨fits, { s with manager := m' }, congrArg (Except.map _) hok, ⟨hm', fun r' i' => ?_⟩,
    fun hfits => ?_, fun hfits => (htrue hfits).2, hkeys⟩
  · rw [hids]
    exact hs.ledger r' i'
  · rw [hfalse hfits]

end Recorded

/-! ## Planned inputs -/

theorem lt_of_mem_range' {lo hi : Nat} (h : i ∈ List.range' lo (hi - lo)) : i < hi := by
  obtain ⟨j, hj, rfl⟩ := mem_range'.mp h
  omega

/-- The embeds of a list of inputs of `r`. -/
def plannedEmbeds (features : R → List (MultiModalFeature M)) (r : R) (inputs : List Nat) : Nat :=
  (inputs.map fun i => (((features r)[i]?).map fun f => f.numEmbeds).getD 0).sum

theorem exists_feature (h : i < (features r).length) : ∃ f, (features r)[i]? = some f :=
  ⟨_, getElem?_eq_getElem h⟩

theorem plannedEmbeds_perm (h : l.Perm l') :
    plannedEmbeds features r l = plannedEmbeds features r l' :=
  (h.map _).sum_eq

theorem plannedEmbeds_cons (hf : (features r)[i]? = some f) (l : List Nat) :
    plannedEmbeds features r (i :: l) = f.numEmbeds + plannedEmbeds features r l := by
  simp [plannedEmbeds, hf]

variable [DecidableEq M] {m' : EncoderCacheManager R M}

/-- The inputs can be allocated one after the other. -/
structure Fits (features : R → List (MultiModalFeature M)) (m : EncoderCacheManager R M) (r : R)
    (inputs : List Nat) : Prop where
  inRange : ∀ i ∈ inputs, i < (features r).length
  distinct : (inputs.map fun i => ((features r)[i]?).map fun f => f.identifier).Nodup
  absent : ∀ i ∈ inputs, ∀ f, (features r)[i]? = some f → m.cached.get? f.identifier = none
  space : (plannedEmbeds features r inputs : Int) ≤ m.numFreeSlots

theorem Fits.perm (h : Fits features m r l) (hperm : l.Perm l') : Fits features m r l' where
  inRange := fun i hi => h.inRange i (hperm.mem_iff.mpr hi)
  distinct := ((hperm.map _).nodup_iff).mp h.distinct
  absent := fun i hi => h.absent i (hperm.mem_iff.mpr hi)
  space := by rw [← plannedEmbeds_perm hperm]; exact h.space

theorem Fits.nil (hm : Consistent features m) : Fits features m r [] where
  inRange := by simp
  distinct := by simp
  absent := by simp
  space := hm.slots.nonneg

/-- Fewer entries and enough space keep a plan good. -/
theorem Fits.mono (h : Fits features m r l)
    (hkeys : ∀ h, (m'.cached.get? h).isSome → (m.cached.get? h).isSome)
    (hspace : (plannedEmbeds features r l : Int) ≤ m'.numFreeSlots) : Fits features m' r l where
  inRange := h.inRange
  distinct := h.distinct
  absent := by
    intro i hi f hf
    by_contra hne
    have hsome := hkeys f.identifier (isSome_iff_ne_none.mpr hne)
    simp [h.absent i hi f hf] at hsome
  space := hspace

variable [DecidableEq R] {plan plan' : EncoderPlan M} {a : WindowArgs M} {c : Recorded R M}

omit [DecidableEq R] in
theorem Fits.sameEntries
    (h : Fits features m r l) (hsame : SameEntries m m') : Fits features m' r l :=
  h.mono (fun k => (hsame.keys k).mp) (hsame.numFree ▸ h.space)

theorem Fits.allocate {inputs : List Nat} (h : Fits features c.manager r inputs)
    (hc : c.Agrees features) :
    ∃ c', inputs.foldlM (fun c i => Manager.allocate c ⟨r, features r⟩ i) c = .ok c' ∧
      c'.Agrees features := by
  induction inputs generalizing c with
  | nil => exact ⟨c, rfl, hc⟩
  | cons i rest ih =>
    obtain ⟨f, hf⟩ := exists_feature (h.inRange i mem_cons_self)
    have hspace := h.space
    rw [plannedEmbeds_cons hf] at hspace
    obtain ⟨c₁, hok₁, hc₁, hfree, hkeys⟩ :=
      hc.allocate hf (h.absent i mem_cons_self f hf) (by omega)
    have hdistinct := h.distinct
    rw [map_cons, nodup_cons, hf] at hdistinct
    -- the item just entered has another hash than the ones still to come
    have hrest : Fits features c₁.manager r rest :=
      { inRange := fun j hj => h.inRange j (mem_cons_of_mem i hj)
        distinct := hdistinct.2
        absent := by
          intro j hj g hg
          by_contra hne
          rcases (hkeys g.identifier).mp (isSome_iff_ne_none.mpr hne) with heq | hsome
          · exact hdistinct.1 (mem_map.mpr ⟨j, hj, by simp [hg, heq]⟩)
          · simp [h.absent j (mem_cons_of_mem i hj) g hg] at hsome
        space := by omega }
    obtain ⟨c₂, hok₂, hc₂⟩ := ih hrest hc₁
    exact ⟨c₂, by rw [foldlM_cons, hok₁]; exact hok₂, hc₂⟩

theorem lookup_duplicates {duplicates : List Nat} (hc : c.Agrees features)
    (h : ∀ i ∈ duplicates, i < (features r).length) :
    ∃ c', duplicates.foldlM
        (fun c i => (Manager.checkAndUpdateCache c ⟨r, features r⟩ i).map Prod.snd) c = .ok c' ∧
      c'.Agrees features := by
  induction duplicates generalizing c with
  | nil => exact ⟨c, rfl, hc⟩
  | cons i rest ih =>
    obtain ⟨f, hf⟩ := exists_feature (h i mem_cons_self)
    obtain ⟨c₁, hok₁, hc₁, -⟩ := hc.checkAndUpdateCache hf
    obtain ⟨c₂, hok₂, hc₂⟩ := ih hc₁ fun j hj => h j (mem_cons_of_mem i hj)
    exact ⟨c₂, by rw [foldlM_cons, hok₁]; exact hok₂, hc₂⟩

/-! ## The walk over the window -/

/-- The plan of a walk can be allocated, and the walk's trackers describe it. -/
structure PlanOK (features : R → List (MultiModalFeature M)) (m : EncoderCacheManager R M) (r : R)
    (plan : EncoderPlan M) : Prop where
  fits : Fits features m r (plan.encoderInputsToSchedule ++ plan.externalLoadEncoderInput)
  planned : plan.numEmbedsToSchedule =
    plannedEmbeds features r (plan.encoderInputsToSchedule ++ plan.externalLoadEncoderInput)
  hashes : ∀ i ∈ plan.encoderInputsToSchedule ++ plan.externalLoadEncoderInput,
    ∀ f, (features r)[i]? = some f → (plan.mmHashesToSchedule.get? f.identifier).isSome
  duplicates : ∀ i ∈ plan.duplicateEncoderInputs, i < (features r).length

omit [DecidableEq R] in
theorem PlanOK.empty (hm : Consistent features m) (numNewTokens budget : Int) :
    PlanOK features m r { numNewTokens := numNewTokens, encoderComputeBudget := budget } where
  fits := .nil hm
  planned := rfl
  hashes := by simp
  duplicates := by simp

omit [DecidableEq R] in
theorem PlanOK.congr (h : PlanOK features m r plan)
    (hinputs : plan'.encoderInputsToSchedule = plan.encoderInputsToSchedule)
    (hexternal : plan'.externalLoadEncoderInput = plan.externalLoadEncoderInput)
    (hhashes : plan'.mmHashesToSchedule = plan.mmHashesToSchedule)
    (hplanned : plan'.numEmbedsToSchedule = plan.numEmbedsToSchedule)
    (hduplicates : ∀ i ∈ plan'.duplicateEncoderInputs, i < (features r).length) :
    PlanOK features m r plan' where
  fits := by rw [hinputs, hexternal]; exact h.fits
  planned := by rw [hinputs, hexternal, hplanned]; exact h.planned
  hashes := by rw [hinputs, hexternal, hhashes]; exact h.hashes
  duplicates := hduplicates

omit [DecidableEq R] in
theorem PlanOK.sameEntries
    (h : PlanOK features m r plan) (hsame : SameEntries m m') : PlanOK features m' r plan :=
  { h with fits := h.fits.sameEntries hsame }

omit [DecidableEq R] in
/-- One more input, with an item that is neither cached nor planned, and space for it. -/
theorem PlanOK.add (h : PlanOK features m r plan) (hf : (features r)[i]? = some f)
    (hnone : m.cached.get? f.identifier = none)
    (hnew : plan.mmHashesToSchedule.get? f.identifier = none)
    (hspace : ((f.numEmbeds + plan.numEmbedsToSchedule : Nat) : Int) ≤ m.numFreeSlots)
    (hperm : (plan'.encoderInputsToSchedule ++ plan'.externalLoadEncoderInput).Perm
      (i :: (plan.encoderInputsToSchedule ++ plan.externalLoadEncoderInput)))
    (hhashes : plan'.mmHashesToSchedule = plan.mmHashesToSchedule.insert f.identifier f.numEmbeds)
    (hplanned : plan'.numEmbedsToSchedule = plan.numEmbedsToSchedule + f.numEmbeds)
    (hduplicates : plan'.duplicateEncoderInputs = plan.duplicateEncoderInputs) :
    PlanOK features m r plan' := by
  have hi : i < (features r).length := (List.getElem?_eq_some_iff.mp hf).1
  have hsum := plannedEmbeds_cons hf
    (plan.encoderInputsToSchedule ++ plan.externalLoadEncoderInput)
  have hold := h.planned
  refine ⟨Fits.perm ⟨?_, ?_, ?_, ?_⟩ hperm.symm, ?_, ?_, ?_⟩
  · intro j hj
    rcases mem_cons.mp hj with rfl | hj
    · exact hi
    · exact h.fits.inRange j hj
  · rw [map_cons, nodup_cons, hf]
    refine ⟨fun hmem => ?_, h.fits.distinct⟩
    obtain ⟨j, hj, heq⟩ := mem_map.mp hmem
    obtain ⟨g, hg, hid⟩ := map_eq_some_iff.mp heq
    have hsome := h.hashes j hj g hg
    simp [hid, hnew] at hsome
  · intro j hj g hg
    rcases mem_cons.mp hj with rfl | hj
    · obtain rfl : g = f := some.inj (hg ▸ hf)
      exact hnone
    · exact h.fits.absent j hj g hg
  · omega
  · rw [hplanned, plannedEmbeds_perm hperm, hsum, hold]
    omega
  · intro j hj g hg
    rw [hhashes, Dict.get?_insert]
    split
    · rfl
    rename_i hne
    rcases mem_cons.mp (hperm.mem_iff.mp hj) with rfl | hj
    · obtain rfl : g = f := some.inj (hg ▸ hf)
      exact absurd rfl hne
    · exact h.hashes j hj g hg
  · rw [hduplicates]
    exact h.duplicates

/-- What an item of the walk leaves behind, whichever way the walk goes on. -/
def Visit.Good (features : R → List (MultiModalFeature M)) (r : R) :
    Visit (Recorded R M) M → Prop
  | .next plan c => c.Agrees features ∧ PlanOK features c.manager r plan
  | .stop plan c => c.Agrees features ∧ PlanOK features c.manager r plan
  | .reject _ c => c.Agrees features

theorem planItem_good (hc : c.Agrees features) (hplan : PlanOK features c.manager r plan)
    (hf : (features r)[i]? = some f) (hnone : c.manager.cached.get? f.identifier = none)
    (hnew : plan.mmHashesToSchedule.get? f.identifier = none) :
    ∃ v, planItem a ⟨r, features r⟩ i f plan c = .ok v ∧ v.Good features r := by
  obtain ⟨fits, c', hok, hc', hfalse, htrue, hkeys⟩ :=
    hc.canAllocate hf plan.encoderComputeBudget plan.numEmbedsToSchedule
  refine ⟨_, by unfold planItem; rw [hok]; rfl, ?_⟩
  cases fits with
  | false =>
    obtain rfl := hfalse rfl
    exact ⟨hc, hplan.congr rfl rfl rfl rfl hplan.duplicates⟩
  | true =>
    have hspace := htrue rfl
    have hnone' : c'.manager.cached.get? f.identifier = none := by
      by_contra hne
      have hsome := hkeys _ (isSome_iff_ne_none.mpr hne)
      simp [hnone] at hsome
    have hplan' : PlanOK features c'.manager r plan :=
      { hplan with
        fits := hplan.fits.mono hkeys (by have := hplan.planned; omega) }
    split
    · exact ⟨hc', hplan'⟩
    split
    · refine ⟨hc', hplan'.add hf hnone' hnew hspace ?_ rfl rfl rfl⟩
      simp only [EncoderPlan.addExternal, ← append_assoc]
      exact perm_append_singleton i _
    · refine ⟨hc', hplan'.add hf hnone' hnew hspace ?_ rfl rfl rfl⟩
      simp only [EncoderPlan.addInput, append_assoc, singleton_append]
      exact perm_middle

theorem lookupItem_good (hc : c.Agrees features) (hplan : PlanOK features c.manager r plan)
    (hf : (features r)[i]? = some f) :
    ∃ v, lookupItem a ⟨r, features r⟩ i f plan c = .ok v ∧ v.Good features r := by
  have hi : i < (features r).length := (List.getElem?_eq_some_iff.mp hf).1
  unfold lookupItem
  cases hnew : plan.mmHashesToSchedule.get? f.identifier with
  | some scheduled =>
    dsimp only
    split
    · exact ⟨_, rfl, hc⟩
    refine ⟨_, rfl, hc, hplan.congr rfl rfl rfl rfl fun j hj => ?_⟩
    rcases mem_append.mp hj with hj | hj
    · exact hplan.duplicates j hj
    · obtain rfl := mem_singleton.mp hj
      exact hi
  | none =>
    have hstored : Manager.getCachedNumEncoderEmbeds c ⟨r, features r⟩ i =
        .ok (c.manager.numEmbedsByHash.get? f.identifier) := by
      show EncoderCacheManager.getCachedNumEncoderEmbeds c.manager ⟨r, features r⟩ i = _
      rw [getCachedNumEncoderEmbeds, feature_eq hf]
      rfl
    rw [hstored]
    simp only [Except.bind]
    split
    · exact ⟨_, rfl, hc⟩
    obtain ⟨c', hok, hc', hsame⟩ := hc.checkAndUpdateCache hf
    rw [hok]
    dsimp only
    split
    · exact ⟨_, rfl, hc', hplan.sameEntries hsame⟩
    rename_i hmiss
    refine planItem_good hc' (hplan.sameEntries hsame) hf ?_ hnew
    by_contra hne
    exact hmiss ((hsame.keys _).mp (isSome_iff_ne_none.mpr hne))

theorem visitItem_good (ha : a.isEncoderDecoder = false) (hc : c.Agrees features)
    (hplan : PlanOK features c.manager r plan) (hi : i < (features r).length) :
    ∃ v, visitItem a ⟨r, features r⟩ i plan c = .ok v ∧ v.Good features r := by
  obtain ⟨f, hf⟩ := exists_feature hi
  simp only [visitItem, feature_eq hf, Except.bind, ha, Bool.false_and, Bool.false_eq_true,
    if_false]
  split
  · exact ⟨_, rfl, hc, hplan.congr rfl rfl rfl rfl hplan.duplicates⟩
  · exact lookupItem_good hc hplan hf

theorem visitItems_good {items : List Nat}
    (ha : a.isEncoderDecoder = false) (hc : c.Agrees features)
    (hplan : PlanOK features c.manager r plan) (hitems : ∀ i ∈ items, i < (features r).length) :
    ∃ plan' c' rejected, visitItems a ⟨r, features r⟩ items plan c = .ok (plan', c', rejected) ∧
      c'.Agrees features ∧ PlanOK features c'.manager r plan' := by
  induction items generalizing c plan with
  | nil => exact ⟨plan, c, false, rfl, hc, hplan⟩
  | cons i rest ih =>
    obtain ⟨v, hok, hgood⟩ := visitItem_good ha hc hplan (hitems i mem_cons_self)
    simp only [visitItems, hok, Except.bind]
    cases v with
    | next plan₁ c₁ =>
      exact ih hgood.1 hgood.2 fun j hj => hitems j (mem_cons_of_mem i hj)
    | stop plan₁ c₁ => exact ⟨_, _, _, rfl, hgood⟩
    | reject plan₁ c₁ => exact ⟨_, _, _, rfl, hgood, .empty hgood.consistent _ _⟩

theorem tryScheduleEncoderInputs_good {a : TryArgs M} (ha : a.isEncoderDecoder = false)
    (hc : c.Agrees features) :
    ∃ plan c' rejected, tryScheduleEncoderInputs a ⟨r, features r⟩ c =
        .ok (plan, c', rejected) ∧
      c'.Agrees features ∧ PlanOK features c'.manager r plan := by
  unfold tryScheduleEncoderInputs
  split
  · exact ⟨_, _, _, rfl, hc, .empty hc.consistent _ _⟩
  refine visitItems_good ha hc (.empty hc.consistent _ _) fun i hi => ?_
  -- the upper end of the window is an index of the list or its length
  exact Nat.lt_of_lt_of_le (lt_of_mem_range' hi) bisectLeft_le

/-! ## Runs -/

/-- A plan between its making and its allocation. -/
structure PendingInputs (R : Type) where
  requestId : R
  inputIds : List Nat
  duplicateInputIds : List Nat

/-- The encoder cache together with what its user has in hand. -/
structure CacheUse (R M : Type) extends Recorded R M where
  features : R → List (MultiModalFeature M)
  pending : Option (PendingInputs R)

/-- The calls of the scheduler. `setFeatures` is the arrival of a request or of the
next chunk of a streaming session. `free` comes with the order of the set that it goes through. -/
inductive EncoderOp (R M : Type)
  | setFeatures (r : R) (fs : List (MultiModalFeature M))
  | trySchedule (r : R) (args : TryArgs M)
  | allocate
  | abandon
  | freeInput (r : R) (i : Nat)
  | free (r : R) (ids : List Nat)
  | getFreed
  | reset

namespace CacheUse

variable (s : CacheUse R M)

def init (features : R → List (MultiModalFeature M)) (cacheSize : Nat) : CacheUse R M where
  features := features
  manager := .init cacheSize
  ledger := fun _ => ∅
  pending := none

/-- When the scheduler makes a call. Between the plan of a request and its
allocation only requests are preempted. An input that holds a reference keeps its
item. -/
def Allowed : EncoderOp R M → Prop
  | .setFeatures r fs =>
    s.pending.isNone ∧ ∀ i ∈ s.ledger r, fs[i]? = (s.features r)[i]?
  | .trySchedule _ _ => s.pending.isNone
  | .allocate => s.pending.isSome
  | .abandon => s.pending.isSome
  | .freeInput r i => s.pending.isNone ∧ i < (s.features r).length
  | .free r ids => ids.Perm (s.manager.requestCachedIds r)
  | .getFreed => s.pending.isNone
  | .reset => s.pending.isNone

instance (s : CacheUse R M) : ∀ op, Decidable (s.Allowed op)
  | .setFeatures _ _ => inferInstanceAs (Decidable (_ ∧ _))
  | .trySchedule _ _ => inferInstanceAs (Decidable (_ = true))
  | .allocate => inferInstanceAs (Decidable (_ = true))
  | .abandon => inferInstanceAs (Decidable (_ = true))
  | .freeInput _ _ => inferInstanceAs (Decidable (_ ∧ _))
  | .free _ _ => inferInstanceAs (Decidable (List.Perm _ _))
  | .getFreed => inferInstanceAs (Decidable (_ = true))
  | .reset => inferInstanceAs (Decidable (_ = true))

def exec : EncoderOp R M → Except Fault (CacheUse R M)
  | .setFeatures r fs => .ok { s with features := Function.update s.features r fs }
  | .trySchedule r args =>
    (tryScheduleEncoderInputs { args with isEncoderDecoder := false } ⟨r, s.features r⟩
      s.toRecorded).map fun (plan, cache, _) =>
        { s with
          toRecorded := cache
          pending := some
            { requestId := r
              inputIds := plan.encoderInputsToSchedule ++ plan.externalLoadEncoderInput
              duplicateInputIds := plan.duplicateEncoderInputs } }
  | .allocate =>
    match s.pending with
    | none => .ok s
    | some p =>
      (allocateEncoderInputs ⟨p.requestId, s.features p.requestId⟩ p.inputIds
        p.duplicateInputIds s.toRecorded).map fun cache =>
          { s with toRecorded := cache, pending := none }
  | .abandon => .ok { s with pending := none }
  | .freeInput r i =>
    (Manager.freeEncoderInput s.toRecorded ⟨r, s.features r⟩ i).map fun cache =>
      { s with toRecorded := cache }
  | .free r ids =>
    (Manager.free s.toRecorded ⟨r, s.features r⟩ ids).map fun cache =>
      { s with
        toRecorded := cache
        pending := s.pending.filter fun p => p.requestId ≠ r }
  | .getFreed => .ok { s with toRecorded := (Manager.getFreedMmHashes s.toRecorded).2 }
  | .reset => .ok { s with toRecorded := Manager.reset s.toRecorded }

def step (op : EncoderOp R M) : Except Fault (CacheUse R M) :=
  if s.Allowed op then s.exec op else .ok s

def run (ops : List (EncoderOp R M)) : Except Fault (CacheUse R M) :=
  ops.foldlM step s

/-- The manager agrees with the ledger and a plan in hand can still be allocated. -/
structure Sound (s : CacheUse R M) : Prop where
  agrees : s.Agrees s.features
  pending : ∀ p, s.pending = some p → Fits s.features s.manager p.requestId p.inputIds ∧
    ∀ i ∈ p.duplicateInputIds, i < (s.features p.requestId).length

theorem exec_sound {s : CacheUse R M} {op : EncoderOp R M} (h : s.Sound)
    (hop : s.Allowed op) : ∃ s', s.exec op = .ok s' ∧ s'.Sound := by
  cases op with
  | setFeatures r fs =>
    refine ⟨_, rfl, ⟨h.agrees.consistent.congr_features ?_, h.agrees.ledger⟩, ?_⟩
    · intro r' i hi
      by_cases hr : r' = r
      · subst hr
        simpa using hop.2 i ((h.agrees.ledger r' i).mpr hi)
      · simp [hr]
    · intro p hp
      rw [show s.pending = none from isNone_iff_eq_none.mp hop.1] at hp
      cases hp
  | trySchedule r args =>
    obtain ⟨plan, c', rejected, hok, hc', hplan⟩ :=
      tryScheduleEncoderInputs_good (a := { args with isEncoderDecoder := false }) (r := r) rfl
        h.agrees
    refine ⟨_, by simp only [exec, hok, Except.map]; rfl, hc', ?_⟩
    intro p hp
    cases hp
    exact ⟨hplan.fits, hplan.duplicates⟩
  | allocate =>
    obtain ⟨p, hp⟩ := isSome_iff_exists.mp hop
    obtain ⟨hfits, hduplicates⟩ := h.pending p hp
    obtain ⟨c₁, hok₁, hc₁⟩ := hfits.allocate h.agrees
    obtain ⟨c₂, hok₂, hc₂⟩ := lookup_duplicates hc₁ hduplicates
    have hok : allocateEncoderInputs ⟨p.requestId, s.features p.requestId⟩ p.inputIds
        p.duplicateInputIds s.toRecorded = .ok c₂ := by
      rw [allocateEncoderInputs, hok₁]
      exact hok₂
    exact ⟨_, by simp only [exec, hp, hok, Except.map]; rfl, hc₂, by simp⟩
  | abandon => exact ⟨_, rfl, h.agrees, by simp⟩
  | freeInput r i =>
    obtain ⟨f, hf⟩ := exists_feature hop.2
    obtain ⟨m', hok, hm', -, hgives⟩ := h.agrees.consistent.freeEncoderInput hf
    have hcall : Manager.freeEncoderInput s.toRecorded ⟨r, s.features r⟩ i =
        .ok (s.giveUp m' r [i]) := congrArg (Except.map _) hok
    refine ⟨_, by simp only [exec, hcall, Except.map]; rfl, h.agrees.giveUp hm' hgives, ?_⟩
    intro p hp
    rw [show s.pending = none from isNone_iff_eq_none.mp hop.1] at hp
    cases hp
  | free r ids =>
    have hinRange : ∀ i ∈ ids, ∃ f, (s.features r)[i]? = some f := by
      intro i hi
      obtain ⟨f, hf, -⟩ := h.agrees.consistent.refs.held r i ((List.Perm.mem_iff hop).mp hi)
      exact ⟨f, hf⟩
    obtain ⟨m', hok, hm', hsame, hgives⟩ := h.agrees.consistent.free hinRange
    have hcall : Manager.free s.toRecorded ⟨r, s.features r⟩ ids =
        .ok (s.giveUp m' r ids) := congrArg (Except.map _) hok
    refine ⟨_, by simp only [exec, hcall, Except.map]; rfl, h.agrees.giveUp hm' hgives, ?_⟩
    intro p hp
    obtain ⟨hfits, hduplicates⟩ := h.pending p (filter_eq_some_iff.mp hp).1
    exact ⟨hfits.sameEntries hsame, hduplicates⟩
  | getFreed =>
    obtain ⟨⟨hrefs, hslots⟩, hledger⟩ := h.agrees
    refine ⟨_, rfl, ⟨⟨?_, ?_⟩, hledger⟩, ?_⟩
    · exact ⟨hrefs.mem_iff, hrefs.held, hrefs.nodup, hrefs.hashRefs⟩
    · exact ⟨hslots.keys, hslots.numFree, hslots.nonneg, hslots.numFreeable, hslots.freeable_iff⟩
    · intro p hp
      obtain ⟨hfits, hduplicates⟩ := h.pending p hp
      exact ⟨hfits.sameEntries ⟨fun _ => Iff.rfl, rfl⟩, hduplicates⟩
  | reset =>
    refine ⟨_, rfl, ⟨init_consistent _, fun r i => ?_⟩, ?_⟩
    · exact iff_of_false (Finset.notMem_empty i) not_mem_nil
    intro p hp
    rw [show s.pending = none from isNone_iff_eq_none.mp hop] at hp
    cases hp

theorem run_sound {s : CacheUse R M} (h : s.Sound) (ops : List (EncoderOp R M)) :
    ∃ s', s.run ops = .ok s' ∧ s'.Sound := by
  induction ops generalizing s with
  | nil => exact ⟨s, rfl, h⟩
  | cons op ops ih =>
    have hstep : ∃ s₁, s.step op = .ok s₁ ∧ s₁.Sound := by
      unfold step
      split
      · next hop => exact exec_sound h hop
      · exact ⟨s, rfl, h⟩
    obtain ⟨s₁, hok₁, hs₁⟩ := hstep
    obtain ⟨s₂, hok₂, hs₂⟩ := ih hs₁
    exact ⟨s₂, by rw [run, foldlM_cons, hok₁]; exact hok₂, hs₂⟩

omit [DecidableEq R] in
theorem init_sound (features : R → List (MultiModalFeature M)) (cacheSize : Nat) :
    (init features cacheSize).Sound :=
  ⟨⟨init_consistent cacheSize, fun r i => by simp [init, EncoderCacheManager.init]⟩, by simp [init]⟩

end CacheUse

/-- The embeds of the entries in `cached`. -/
def EncoderCacheManager.numCachedEmbeds (m : EncoderCacheManager R M) : Nat :=
  m.cached.total fun h _ => (m.numEmbedsByHash.get? h).getD 0

omit [DecidableEq R] in
theorem EncoderCacheManager.Slots.numCachedEmbeds_eq (hm : Slots m) :
    m.numCachedEmbeds = m.numEmbedsByHash.total fun _ n => n := by
  rw [EncoderCacheManager.numCachedEmbeds,
    Dict.total_congr_keys m.cached m.numEmbedsByHash
      (fun h => (m.numEmbedsByHash.get? h).getD 0) fun h => (hm.keys h).symm]
  refine Dict.total_congr fun h n hn => ?_
  simp [hn]

/-- An input that was acquired and not freed has the hash `h`. -/
def Recorded.Holds (features : R → List (MultiModalFeature M)) (c : Recorded R M) (r : R) (h : M) :
    Prop :=
  ∃ i ∈ c.ledger r, ∃ f, (features r)[i]? = some f ∧ f.identifier = h

omit [DecidableEq R] in
theorem Recorded.Agrees.holds_iff (hc : c.Agrees features) {h : M} :
    EncoderCacheManager.Holds features c.manager r h ↔ c.Holds features r h :=
  exists_congr fun i => and_congr_left' (hc.ledger r i).symm

/-- No run of the scheduler's calls raises: eviction never pops from an empty
`freeable`, and the assertions of `allocate` hold. After every run the counters of the encoder
cache are exact, and its entries refer to the requests that hold an input with their hash. -/
theorem CacheUse.run_accounting (features : R → List (MultiModalFeature M)) (cacheSize : Nat)
    (ops : List (EncoderOp R M)) :
    ∃ s, (CacheUse.init features cacheSize).run ops = .ok s ∧
      s.manager.numFreeSlots = s.manager.cacheSize - s.manager.numCachedEmbeds ∧
      s.manager.numFreeableSlots =
        s.manager.numFreeSlots + (s.manager.freeable.total fun _ n => n) ∧
      (∀ h, (s.manager.freeable.get? h).isSome ↔ s.manager.cached.get? h = some ∅) ∧
      (∀ h refs, s.manager.cached.get? h = some refs →
        ∀ r, r ∈ refs ↔ s.Holds s.features r h) ∧
      (∀ h r, s.Holds s.features r h → (s.manager.cached.get? h).isSome) := by
  obtain ⟨s, hok, hs⟩ := run_sound (init_sound features cacheSize) ops
  have hrefs := hs.agrees.consistent.refs
  have hslots := hs.agrees.consistent.slots
  refine ⟨s, hok, ?_, hslots.numFreeable, fun h => ?_, fun h refs hget r => ?_, fun h r hh => ?_⟩
  · rw [hslots.numCachedEmbeds_eq]
    exact hslots.numFree
  · rw [isSome_iff_exists]
    constructor
    · rintro ⟨n, hn⟩
      exact ((hslots.freeable_iff h n).mp hn).1
    · intro hcached
      obtain ⟨n, hn⟩ := isSome_iff_exists.mp ((hslots.keys h).mpr (by simp [hcached]))
      exact ⟨n, (hslots.freeable_iff h n).mpr ⟨hcached, hn⟩⟩
  · exact (hrefs.mem_iff h refs hget r).trans hs.agrees.holds_iff
  · exact hrefs.isSome_of_holds (hs.agrees.holds_iff.mpr hh)

/-- Nothing leaks: once all inputs that were acquired are freed, all slots are freeable. -/
theorem CacheUse.run_reclaims (features : R → List (MultiModalFeature M)) (cacheSize : Nat)
    (ops : List (EncoderOp R M)) :
    ∃ s, (CacheUse.init features cacheSize).run ops = .ok s ∧
      ((∀ r, s.ledger r = ∅) → s.manager.numFreeableSlots = s.manager.cacheSize) := by
  obtain ⟨s, hok, ⟨⟨hrefs, hslots⟩, hledger⟩, -⟩ := run_sound (init_sound features cacheSize) ops
  refine ⟨s, hok, fun hfreed => ?_⟩
  have hsame : ∀ h, s.manager.freeable.get? h = s.manager.numEmbedsByHash.get? h := by
    refine fun h => Option.ext fun n => (hslots.freeable_iff h n).trans ?_
    refine and_iff_right_of_imp fun hn => ?_
    obtain ⟨refs, hcached⟩ := isSome_iff_exists.mp ((hslots.keys h).mp (by simp [hn]))
    rw [hcached, Finset.eq_empty_of_forall_notMem (s := refs)]
    intro r hr
    obtain ⟨i, hi, -⟩ := (hrefs.mem_iff h refs hcached r).mp hr
    rw [← hledger, hfreed] at hi
    exact Finset.notMem_empty i hi
  have htotal := ((Dict.perm_of_get?_eq hsame).map Prod.snd).sum_eq
  rw [hslots.numFreeable, hslots.numFree, Dict.total, Dict.total, htotal, Int.sub_add_cancel]

/-- One request with the items 5, 6 and 5 again, and one with the item 6. -/
def sampleFeatures (first : Bool) : List (MultiModalFeature Nat) :=
  if first then [⟨5, 0, 2, none⟩, ⟨6, 2, 3, none⟩, ⟨5, 5, 2, none⟩] else [⟨6, 0, 3, none⟩]

def sampleArgs : TryArgs Nat where
  isEncoderDecoder := false
  disableChunkedMmInput := false
  hasCacheItem := fun _ => false
  numComputedTokens := 0
  numNewTokens := 8
  encoderComputeBudget := 8
  shiftComputedTokens := 0

/-- Both requests acquire their inputs, which take five of eight slots, and give them up again. -/
theorem CacheUse.run_reclaims_two_requests : ∃ s₁ s : CacheUse Bool Nat,
    (init sampleFeatures 8).run
      [.trySchedule true sampleArgs, .allocate, .trySchedule false sampleArgs, .allocate] =
        .ok s₁ ∧
    s₁.ledger true = {0, 1, 2} ∧ s₁.ledger false = {0} ∧ s₁.manager.numFreeableSlots = 3 ∧
    s₁.run [.freeInput true 0, .free true [2, 1], .free false [0]] = .ok s ∧
    s.manager.numFreeableSlots = s.manager.cacheSize := by
  obtain ⟨s, hrun, hreclaims⟩ := run_reclaims sampleFeatures 8
    [.trySchedule true sampleArgs, .allocate, .trySchedule false sampleArgs, .allocate,
      .freeInput true 0, .free true [2, 1], .free false [0]]
  obtain ⟨s₁, hs₁, htrue, hfalse, hslots, s₂, hs₂, hfreed⟩ : ∃ s₁ : CacheUse Bool Nat,
      (init sampleFeatures 8).run
        [.trySchedule true sampleArgs, .allocate, .trySchedule false sampleArgs, .allocate] =
          .ok s₁ ∧
      s₁.ledger true = {0, 1, 2} ∧ s₁.ledger false = {0} ∧ s₁.manager.numFreeableSlots = 3 ∧
      ∃ s₂, s₁.run [.freeInput true 0, .free true [2, 1], .free false [0]] = .ok s₂ ∧
        ∀ r, s₂.ledger r = ∅ :=
    ⟨_, rfl, by decide, by decide, by decide, _, rfl, by decide⟩
  have hall : (init sampleFeatures 8).run ([.trySchedule true sampleArgs, .allocate,
      .trySchedule false sampleArgs, .allocate] ++
        [.freeInput true 0, .free true [2, 1], .free false [0]]) = .ok s₂ := by
    rw [run] at hs₁
    rw [run, foldlM_append, hs₁]
    exact hs₂
  cases hrun.symm.trans hall
  exact ⟨s₁, s, hs₁, htrue, hfalse, hslots, hs₂, hreclaims hfreed⟩

end Vllm.Encoder
