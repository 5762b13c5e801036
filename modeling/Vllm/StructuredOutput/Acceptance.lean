import Mathlib.Data.List.ReduceOption
import Vllm.StructuredOutput.Masks

/-!
# Masks and acceptance of one request

A request is constrained from its start or it reasons first (`fromStart`). In both cases the
bounds of the drafts and those of the sampled tokens agree, and what the rows of the request
allow is accepted (`fillSerial_agrees`). No call but `accept_tokens` touches the grammar
(`Kept`).
-/

namespace Vllm.StructuredOutput

open List

variable {S : Type} {m : Machine S} {config : ManagerConfig}

/-! ## Requests constrained from the start, and requests that reason -/

/-- The request is constrained from its first token on. -/
def fromStart (config : ManagerConfig) (promptTokenIds : List Nat)
    (r : StructuredOutputRequest S) : Bool :=
  config.enableInReasoning || r.reasoningEnded == some true ||
    match r.reasoner with
    | none => true
    | some reasoner => r.reasoningEnded == none && reasoner.isReasoningEnd promptTokenIds

section

variable {prompt all tokens : List Nat} {r : StructuredOutputRequest S} {committed : Bool}

theorem getConstraintBounds_fromStart (h : fromStart config prompt r = true) :
    getConstraintBounds config prompt all r tokens committed = (constrainedFromStart, r) := by
  unfold fromStart at h
  unfold getConstraintBounds
  cases hreasoner : r.reasoner with
  | none => simp
  | some reasoner =>
    simp only [hreasoner, Bool.or_eq_true, beq_iff_eq, Bool.and_eq_true] at h
    rcases h with (h | h) | h
    · simp [h]
    · simp [h]
    · simp [h.1, h.2]

theorem getConstraintBounds_reasoning (h : fromStart config prompt r = false) :
    ∃ reasoner, r.reasoner = some reasoner ∧ ∀ all tokens committed,
      getConstraintBounds config prompt all r tokens committed =
        (reasoningBounds reasoner all tokens committed,
          { r with reasoningEnded := some false }) := by
  unfold fromStart at h
  cases hreasoner : r.reasoner with
  | none => simp [hreasoner] at h
  | some reasoner =>
    simp only [hreasoner, Bool.or_eq_false_iff] at h
    obtain ⟨⟨henable, hended⟩, hprompt⟩ := h
    refine ⟨reasoner, rfl, fun all tokens committed => ?_⟩
    have hended' : r.reasoningEnded ≠ some true := by simpa using hended
    have hprompt' :
        (decide (r.reasoningEnded = none) && reasoner.isReasoningEnd prompt) = false := by
      simpa using hprompt
    simp only [getConstraintBounds, henable, Bool.false_eq_true, if_false,
      if_neg hended', hreasoner,
      hprompt']

theorem fromStart_reasoning {reasoner : Reasoner} (h : fromStart config prompt r = false)
    (hreasoner : r.reasoner = some reasoner) {r' : StructuredOutputRequest S}
    (hsame : r'.reasoner = r.reasoner) (hended : r'.reasoningEnded = some false) :
    fromStart config prompt r' = false := by
  unfold fromStart at h ⊢
  simp only [hreasoner, Bool.or_eq_false_iff] at h
  simp [hsame, hreasoner, hended, h.1.1]

end

/-! ## The set of masked tokens -/

/-- While the request reasons, the set in the cache is the one its grammar gives. -/
def CacheOk (m : Machine S) (r : StructuredOutputRequest S) : Prop :=
  r.reasoningEnded ≠ some true →
    ∀ masked ∈ r.maskedReasoningEndIds, masked = computeMaskedEnds m r

theorem computeMaskedEnds_congr {r r' : StructuredOutputRequest S}
    (hgrammar : r'.grammar = r.grammar) (hreasoner : r'.reasoner = r.reasoner) :
    computeMaskedEnds m r' = computeMaskedEnds m r := by
  simp only [computeMaskedEnds, hgrammar, hreasoner]

theorem maskedReasoningEnds_spec {r : StructuredOutputRequest S} (hcache : CacheOk m r)
    (hended : r.reasoningEnded ≠ some true) :
    maskedReasoningEnds m r =
      (computeMaskedEnds m r,
        { r with maskedReasoningEndIds := some (computeMaskedEnds m r) }) := by
  unfold maskedReasoningEnds
  cases hmasked : r.maskedReasoningEndIds with
  | none => rfl
  | some masked =>
    rw [← hcache hended masked hmasked]
    simp only [Prod.mk.injEq, true_and]
    rw [← hmasked]

/-- A token that ends reasoning as content and is not masked can start the grammar. -/
theorem accepts_of_notMem {r : StructuredOutputRequest S} {reasoner : Reasoner}
    (hreasoner : r.reasoner = some reasoner) {token : Nat}
    (himplicit : token ∈ reasoner.implicitEnds) (hmasked : token ∉ computeMaskedEnds m r) :
    r.grammar.isTerminated m = false ∧ ∃ s, m.acceptToken r.grammar.state token = some s := by
  refine Grammar.acceptToken_of_validate fun hempty => hmasked ?_
  unfold Reasoner.implicitEnds at himplicit
  unfold computeMaskedEnds
  cases hengine : reasoner.engine with
  | none => simp [hengine] at himplicit
  | some engine =>
    simp only [hengine] at himplicit
    simp [hreasoner, hengine, himplicit, hempty]

/-! ## The rows of a request -/

/-- What no call but `accept_tokens` changes: the grammar, its reasoner, whether reasoning has
ended, and the cache up to its first computation. -/
structure Kept (m : Machine S) (r r' : StructuredOutputRequest S) : Prop where
  grammar : r'.grammar = r.grammar
  reasoner : r'.reasoner = r.reasoner
  ended : r'.reasoningEnded = some true ↔ r.reasoningEnded = some true
  masked : r'.maskedReasoningEndIds = r.maskedReasoningEndIds ∨
    r'.maskedReasoningEndIds = some (computeMaskedEnds m r)

theorem Kept.cacheOk {r r' : StructuredOutputRequest S} (h : Kept m r r') (hcache : CacheOk m r) :
    CacheOk m r' := by
  intro hended masked hmasked
  rw [computeMaskedEnds_congr h.grammar h.reasoner]
  rcases h.masked with hsame | hnew
  · rw [hsame] at hmasked
    exact hcache (fun h' => hended (h.ended.2 h')) masked hmasked
  · rw [hnew] at hmasked
    exact (Option.some.inj hmasked).symm

theorem getConstraintBounds_kept (config : ManagerConfig) (prompt all tokens : List Nat)
    (r : StructuredOutputRequest S) (committed : Bool) :
    Kept m r (getConstraintBounds config prompt all r tokens committed).2 := by
  cases hfrom : fromStart config prompt r with
  | true =>
    rw [getConstraintBounds_fromStart hfrom]
    exact ⟨rfl, rfl, Iff.rfl, Or.inl rfl⟩
  | false =>
    obtain ⟨reasoner, -, hbounds⟩ := getConstraintBounds_reasoning hfrom
    have hended : r.reasoningEnded ≠ some true := by
      intro h
      simp [fromStart, h] at hfrom
    rw [hbounds]
    exact ⟨rfl, rfl, by simp [hended], Or.inl rfl⟩

theorem maskedReasoningEnds_kept (r : StructuredOutputRequest S) :
    Kept m r (maskedReasoningEnds m r).2 := by
  unfold maskedReasoningEnds
  cases r.maskedReasoningEndIds with
  | none => exact ⟨rfl, rfl, Iff.rfl, Or.inr rfl⟩
  | some masked => exact ⟨rfl, rfl, Iff.rfl, Or.inl rfl⟩

theorem Kept.trans {r r' r'' : StructuredOutputRequest S} (h : Kept m r r') (h' : Kept m r' r'') :
    Kept m r r'' := by
  refine ⟨h'.grammar.trans h.grammar, h'.reasoner.trans h.reasoner, h'.ended.trans h.ended, ?_⟩
  rw [← computeMaskedEnds_congr h.grammar h.reasoner]
  rcases h'.masked with hsame | hnew
  · rw [hsame, computeMaskedEnds_congr h.grammar h.reasoner]
    exact h.masked
  · exact Or.inr hnew

section

variable {request : Request S} {r : StructuredOutputRequest S} {reqTokens : List (Option Nat)}
  {baseIndex : Nat} {bitmask : Nat → Row}

/-- The rows and the request after `fill`, from the bounds and the masked tokens of its step. -/
def filled (m : Machine S) (bounds : ConstraintBounds) (maskedIds : List Nat)
    (g : Grammar S) (reqTokens : List (Option Nat)) (baseIndex : Nat) (bitmask : Nat → Row) :
    Nat → Row :=
  (maskRun m bounds maskedIds baseIndex ⟨bitmask, g, 0, false⟩ (reqTokens ++ [none])
    (reqTokens ++ [none]).length).bitmask

theorem fillSerial_eq (hdiffusion : config.isDiffusion = false) {bounds : ConstraintBounds}
    {maskedIds : List Nat} {r₁ r₂ : StructuredOutputRequest S}
    (hbounds : getConstraintBounds config request.promptTokenIds request.allTokenIds r
      (stripSpeculativePadding reqTokens) false = (bounds, r₁))
    (hmasked : (if bounds.constraintStart ≠ 0 then maskedReasoningEnds m r₁ else ([], r₁)) =
      (maskedIds, r₂)) :
    fillSerial m config request r reqTokens baseIndex bitmask =
      (filled m bounds maskedIds r₂.grammar reqTokens baseIndex bitmask, r₂) := by
  have hback := @maskRun_rollback S m bounds maskedIds baseIndex ⟨bitmask, r₂.grammar, 0, false⟩
    (reqTokens ++ [none]) _ (Nat.le_refl _)
  simp only [fillSerial, hbounds, hmasked, hdiffusion, Bool.false_and, Bool.not_false, if_true,
    filled, ← maskRun_length]
  set st := maskRun m bounds maskedIds baseIndex ⟨bitmask, r₂.grammar, 0, false⟩
    (reqTokens ++ [none]) (reqTokens ++ [none]).length with hst
  have hgrammar : (if 0 < st.stateAdvancements then
      Grammar.rollback st.stateAdvancements st.grammar else st.grammar) = r₂.grammar := by
    split
    · exact hback
    rename_i hzero
    rw [Nat.eq_zero_of_not_pos hzero] at hback
    exact hback
  rw [hgrammar]

theorem filled_row {bounds : ConstraintBounds} {maskedIds : List Nat} {g : Grammar S} {i : Nat}
    (hi : i ≤ reqTokens.length) :
    filled m bounds maskedIds g reqTokens baseIndex bitmask (baseIndex + i) =
      rowAt m bounds maskedIds (maskRun m bounds maskedIds baseIndex ⟨bitmask, g, 0, false⟩
        (reqTokens ++ [none]) i) i :=
  maskRun_row (by rw [length_append]; exact Nat.lt_succ_of_le hi) (Nat.le_refl _)

/-- Sampled tokens that the rows allow are accepted from the bounds of the sampled tokens. -/
theorem accept_of_rows {bounds bounds' : ConstraintBounds} {maskedIds kept : List Nat}
    {token : Nat} {g : Grammar S}
    (hkept : reqTokens.take kept.length = kept.map some)
    (hcut : ∀ i token, bounds.grammarStart ≤ i → i < bounds.constraintStart →
      kept[i]? = some token → token ∉ maskedIds →
      i = bounds.grammarStart ∧ ∃ s, m.acceptToken g.state token = some s)
    (hstart : bounds.grammarStart ≤ bounds.constraintStart)
    (hbounds : (bounds.constraintStart ≤ kept.length ∧ bounds' = bounds) ∨
      (kept.length < bounds.constraintStart ∧ (kept.length + 1 ≤ bounds'.grammarStart ∨
        (bounds'.grammarStart = kept.length ∧ (token ∉ maskedIds →
          g.isTerminated m = false ∧ ∃ s, m.acceptToken g.state token = some s)))))
    (hallowed : ∀ i token, kept[i]? = some token →
      (filled m bounds maskedIds g reqTokens baseIndex bitmask (baseIndex + i)).allows token =
        true)
    (hlast : (filled m bounds maskedIds g reqTokens baseIndex bitmask
      (baseIndex + kept.length)).allows token = true)
    (hterm : (g.acceptTokens m (kept.drop bounds.grammarStart)).2.isTerminated m = false) :
    (g.acceptTokens m ((kept ++ [token]).drop bounds'.grammarStart)).1 = true := by
  have hlength : kept.length ≤ reqTokens.length := by
    have := congrArg List.length hkept
    rw [length_take, length_map] at this
    omega
  have htokens : (reqTokens ++ [none]).take kept.length = kept.map some := by
    rw [take_append_of_le_length hlength, hkept]
  have hrows : ∀ i token, kept[i]? = some token → (rowAt m bounds maskedIds
      (maskRun m bounds maskedIds baseIndex ⟨bitmask, g, 0, false⟩ (reqTokens ++ [none]) i)
        i).allows token = true := by
    intro i token hi
    have hlt := (List.getElem?_eq_some_iff.1 hi).1
    rw [← filled_row (by omega)]
    exact hallowed i token hi
  obtain ⟨hflag, hfeed⟩ := maskRun_fed rfl htokens hcut hrows hterm (Nat.le_refl _)
  rw [take_length] at hfeed
  rw [filled_row hlength] at hlast
  set st := maskRun m bounds maskedIds baseIndex ⟨bitmask, g, 0, false⟩ (reqTokens ++ [none])
    kept.length with hst
  simp only [rowAt, hflag, Bool.false_eq_true, if_false] at hlast
  rcases hbounds with ⟨hpast, rfl⟩ | ⟨hbefore, hskip | ⟨hcontent, haccepts⟩⟩
  · -- the grammar has followed the drafts, and its row allows the last token
    have hrunning : st.grammar.isTerminated m = false := by
      have haccepted := Grammar.acceptLoop_of_feed 0 hfeed
      unfold Grammar.acceptTokens at hterm
      split at hterm
      · rename_i hdone
        rw [hdone] at hterm
        cases hterm
      · rw [haccepted] at hterm
        exact hterm
    simp only [fillRow, decide_eq_true hpast, hrunning, Bool.not_false, Bool.and_self, if_true,
      Row.allows_fill, Option.isSome_iff_exists] at hlast
    obtain ⟨s, hs⟩ := hlast
    have hall : g.feed m ((kept ++ [token]).drop bounds'.grammarStart) =
        some (st.grammar.advance s) := by
      rw [drop_append_of_le_length (Nat.le_trans hstart hpast), Grammar.feed_append, hfeed,
        Option.bind_some, Grammar.feed_singleton hrunning hs]
    exact Grammar.acceptTokens_of_feed hall
  · have hnil : (kept ++ [token]).drop bounds'.grammarStart = [] :=
      drop_eq_nil_of_le (by rw [length_append]; exact hskip)
    rw [hnil]
    exact Grammar.acceptTokens_of_feed rfl
  · -- reasoning ends with a token that is content and was not masked
    simp only [fillRow, decide_eq_false (Nat.not_le.2 hbefore), Bool.false_and,
      Bool.false_eq_true, if_false, if_pos hbefore] at hlast
    obtain ⟨hrunning, s, hs⟩ := haccepts (Row.notMem_of_allows hlast)
    rw [hcontent, drop_append_of_le_length (Nat.le_refl _), drop_length]
    exact Grammar.acceptTokens_of_feed (Grammar.feed_singleton hrunning hs)

theorem kept_prefix_strip {kept : List Nat} (hkept : reqTokens.take kept.length = kept.map some) :
    kept <+: stripSpeculativePadding reqTokens := by
  induction kept generalizing reqTokens with
  | nil => exact nil_prefix
  | cons token kept ih =>
    cases reqTokens with
    | nil => cases hkept
    | cons first rest =>
      simp only [length_cons, take_succ_cons, map_cons, List.cons.injEq] at hkept
      obtain ⟨rfl, hrest⟩ := hkept
      exact cons_prefix_cons.2 ⟨rfl, ih hrest⟩

section

variable (hdiffusion : config.isDiffusion = false)
include hdiffusion

/-- One request: what its rows allow, its acceptance takes. -/
theorem fillSerial_agrees
    (hstable : ∀ reasoner, r.reasoner = some reasoner → reasoner.Stable) (hcache : CacheOk m r)
    {kept : List Nat} {token : Nat} (hkept : reqTokens.take kept.length = kept.map some)
    (hallowed : ∀ i token, kept[i]? = some token →
      ((fillSerial m config request r reqTokens baseIndex bitmask).1 (baseIndex + i)).allows
        token = true)
    (hlast : ((fillSerial m config request r reqTokens baseIndex bitmask).1
      (baseIndex + kept.length)).allows token = true)
    (hterm : (r.grammar.acceptTokens m (kept.drop (getConstraintBounds config
      request.promptTokenIds request.allTokenIds r (stripSpeculativePadding reqTokens)
        false).1.grammarStart)).2.isTerminated m = false) :
    (acceptTokens m config
      ⟨request.promptTokenIds, request.allTokenIds ++ (kept ++ [token]),
        some (fillSerial m config request r reqTokens baseIndex bitmask).2⟩
      (kept ++ [token])).1 = true := by
  have hstrip := kept_prefix_strip hkept
  have hne : kept ++ [token] ≠ [] := concat_ne_nil token kept
  cases hfrom : fromStart config request.promptTokenIds r with
  | true =>
    have hbounds := @getConstraintBounds_fromStart S config request.promptTokenIds
    rw [hbounds hfrom] at hterm
    have hfill : fillSerial m config request r reqTokens baseIndex bitmask =
        (filled m constrainedFromStart [] r.grammar reqTokens baseIndex bitmask, r) :=
      fillSerial_eq hdiffusion (hbounds hfrom) rfl
    rw [hfill] at hallowed hlast ⊢
    simp only [acceptTokens, if_neg hne, hbounds hfrom, constrainedFromStart, Nat.not_lt_zero,
      if_false]
    exact accept_of_rows hkept (fun i _ _ hlt => absurd hlt (Nat.not_lt_zero i)) (Nat.le_refl _)
      (Or.inl ⟨Nat.zero_le _, rfl⟩) hallowed hlast hterm
  | false =>
    obtain ⟨reasoner, hreasoner, hbounds⟩ := getConstraintBounds_reasoning hfrom
    obtain ⟨ended, hcut⟩ := exists_cut (hstable reasoner hreasoner) request.allTokenIds
    have hdrafts := hcut (stripSpeculativePadding reqTokens) false
    have hsampled := hcut (kept ++ [token]) true
    simp only [Bool.false_eq_true, if_false, if_true] at hdrafts hsampled
    have hended : r.reasoningEnded ≠ some true := by
      intro h
      simp [fromStart, h] at hfrom
    rw [hbounds] at hterm
    set bounds := reasoningBounds reasoner request.allTokenIds
      (stripSpeculativePadding reqTokens) false with hbounds_def
    set r₁ : StructuredOutputRequest S := { r with reasoningEnded := some false } with hr₁
    have hmasked := maskedReasoningEnds_spec (r := r₁) (fun _ => hcache hended) (by simp [hr₁])
    have hpos : bounds.constraintStart ≠ 0 := Nat.ne_of_gt hdrafts.pos
    have hfill := @fillSerial_eq S m config request r reqTokens baseIndex bitmask hdiffusion bounds
      _ r₁ _ (hbounds _ _ _) ((if_pos hpos).trans hmasked)
    rw [hfill] at hallowed hlast ⊢
    have hstill : fromStart config request.promptTokenIds
        { r₁ with maskedReasoningEndIds := some (computeMaskedEnds m r₁) } = false :=
      fromStart_reasoning hfrom hreasoner rfl rfl
    obtain ⟨reasoner', hreasoner', hbounds'⟩ := getConstraintBounds_reasoning hstill
    cases hreasoner.symm.trans hreasoner'
    have haccepts : ∀ token ∈ reasoner.implicitEnds, token ∉ computeMaskedEnds m r₁ →
        r.grammar.isTerminated m = false ∧ ∃ s, m.acceptToken r.grammar.state token = some s :=
      fun token himplicit hmasked => accepts_of_notMem hreasoner himplicit hmasked
    simp only [acceptTokens, if_neg hne, hbounds']
    split
    · rfl
    refine accept_of_rows hkept (fun i token hle hlt hget hnotMem => ?_) hdrafts.grammarStart_le
      ?_ hallowed hlast hterm
    · obtain ⟨hstart, himplicit⟩ := hdrafts.implicit_of_lt (Nat.lt_of_le_of_lt hle hlt)
      have hi : i = bounds.grammarStart := by omega
      refine ⟨hi, (haccepts token (himplicit token ?_) hnotMem).2⟩
      obtain ⟨rest, hrest⟩ := hstrip
      rw [← hi, ← hrest, getElem?_append_left (List.getElem?_eq_some_iff.1 hget).1]
      exact hget
    · rcases Nat.lt_or_ge kept.length bounds.constraintStart with hbefore | hpast
      · refine Or.inr ⟨hbefore, ?_⟩
        rcases hdrafts.of_before hsampled hstrip hbefore with hskip | ⟨hcontent, himplicit⟩
        · exact Or.inl hskip
        · exact Or.inr ⟨hcontent, haccepts token himplicit⟩
      · exact Or.inl ⟨hpast, hdrafts.eq_of_agree hsampled hstrip hpast⟩

/-- The rows that `fillSerial` leaves alone. -/
theorem fillSerial_frame {index : Nat} (hindex : ∀ i ≤ reqTokens.length, index ≠ baseIndex + i) :
    (fillSerial m config request r reqTokens baseIndex bitmask).1 index = bitmask index := by
  rw [fillSerial_eq hdiffusion Prod.mk.eta.symm Prod.mk.eta.symm]
  exact maskRun_frame (Nat.le_refl _) fun i hi => hindex i (by
    rw [length_append] at hi
    exact Nat.le_of_lt_succ hi)

theorem fillSerial_kept :
    Kept m r (fillSerial m config request r reqTokens baseIndex bitmask).2 := by
  rw [fillSerial_eq hdiffusion Prod.mk.eta.symm Prod.mk.eta.symm]
  refine (getConstraintBounds_kept config request.promptTokenIds request.allTokenIds
    (stripSpeculativePadding reqTokens) r false).trans ?_
  split
  · exact maskedReasoningEnds_kept _
  · exact ⟨rfl, rfl, Iff.rfl, Or.inl rfl⟩

/-- Without speculative tokens the two branches do the same. -/
theorem fillParallel_eq :
    fillParallel m config request r baseIndex bitmask =
      fillSerial m config request r [] baseIndex bitmask := by
  simp only [fillParallel, fillSerial, hdiffusion, stripSpeculativePadding, takeWhile_nil,
    reduceOption_nil, Bool.false_and, Bool.not_false, if_true, nil_append,
    zipIdx_singleton, foldl_cons, foldl_nil, maskToken, Bool.false_eq_true,
    if_false, Nat.add_zero, Nat.lt_irrefl]
  by_cases hzero : (getConstraintBounds config request.promptTokenIds request.allTokenIds r []
      false).1.constraintStart = 0
  · simp [hzero]
  · simp [hzero, Nat.pos_of_ne_zero hzero]

end

end

end Vllm.StructuredOutput
