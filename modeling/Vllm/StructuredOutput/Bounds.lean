import Vllm.StructuredOutput.Manager

/-!
# Where reasoning ends

The bounds of a step cut its tokens at the first prefix in which reasoning has ended
(`exists_cut`), whether the tokens are still drafts or already part of the request. Two
lists that agree up to the cut are therefore cut at the same place
(`Cut.eq_of_agree`), which is why the bounds of the drafts fit those of the sampled tokens.
-/

namespace Vllm.StructuredOutput

open List

variable {S : Type} {tokens : List Nat} {j : Nat} {reasoner : Reasoner} {ends : List Nat → Bool}

/-- The tokens that end reasoning and are content as well. -/
def Reasoner.implicitEnds (reasoner : Reasoner) : List Nat :=
  match reasoner.engine with
  | none => []
  | some engine => engine.implicitReasoningEndTokenIds

/-- Unless the end tokens are known, the test for the end of reasoning depends on the token
list only and stays true when the list is extended. -/
def Reasoner.Stable (reasoner : Reasoner) : Prop :=
  (∀ engine, reasoner.engine = some engine → engine.reasoningEndTokenIds = []) →
    ∃ ends : List Nat → Bool,
      (∀ inputIds deltaIds, reasoner.isReasoningEndStreaming inputIds deltaIds = ends inputIds) ∧
      ∀ inputIds more, ends inputIds = true → ends (inputIds ++ more) = true

/-- The bounds cut `tokens` after the first prefix that satisfies `ended`. -/
structure Cut (reasoner : Reasoner) (ended : List Nat → Prop) (tokens : List Nat)
    (bounds : ConstraintBounds) : Prop where
  pos : 1 ≤ bounds.constraintStart
  le : bounds.constraintStart ≤ tokens.length + 1
  ended_iff : ∀ j, 1 ≤ j → j ≤ tokens.length →
    (ended (tokens.take j) ↔ bounds.constraintStart ≤ j)
  grammarStart : bounds.grammarStart =
    if ∃ token ∈ tokens[bounds.constraintStart - 1]?, token ∈ reasoner.implicitEnds
    then bounds.constraintStart - 1 else bounds.constraintStart

/-! ## The search with end tokens -/

theorem exists_mem_take_iff {p : Nat → Bool}
    (hj : j ≤ tokens.length) : (∃ x ∈ tokens.take j, p x = true) ↔ tokens.findIdx p < j := by
  have htake : (tokens.take j).findIdx p = min j (tokens.findIdx p) := findIdx_take
  constructor
  · intro h
    have hlt := findIdx_lt_length_of_exists h
    rw [length_take] at hlt
    omega
  · intro h
    have hlt : (tokens.take j).findIdx p < (tokens.take j).length := by
      rw [length_take]
      omega
    exact ⟨_, getElem_mem hlt, findIdx_getElem⟩

theorem findReasoningEnd_cut {engine : ParserEngine}
    (hengine : reasoner.engine = some engine) (hids : engine.reasoningEndTokenIds ≠ [])
    (hne : tokens ≠ []) (allTokenIds : List Nat) (committed : Bool) :
    Cut reasoner (fun start => ∃ x ∈ start, x ∈ engine.reasoningEndTokenIds) tokens
      (reasoningBounds reasoner allTokenIds tokens committed) := by
  set offset := tokens.findIdx (· ∈ engine.reasoningEndTokenIds) with hoffset
  have hle : offset ≤ tokens.length := findIdx_le_length
  have hended : ∀ j, 1 ≤ j → j ≤ tokens.length →
      ((∃ x ∈ tokens.take j, x ∈ engine.reasoningEndTokenIds) ↔ offset + 1 ≤ j) := by
    intro j _ hj
    rw [Nat.succ_le_iff, ← exists_mem_take_iff hj]
    simp only [decide_eq_true_eq]
  have himplicit : reasoner.implicitEnds = engine.implicitReasoningEndTokenIds := by
    simp only [Reasoner.implicitEnds, hengine]
  cases htoken : tokens[offset]? with
  | none =>
    have hend : offset = tokens.length := by
      have := List.getElem?_eq_none_iff.1 htoken
      omega
    have hbounds : reasoningBounds reasoner allTokenIds tokens committed =
        ⟨offset + 1, offset + 1⟩ := by
      simp only [reasoningBounds, length_eq_zero_iff, if_neg hne, hengine, Option.bind_some,
        ParserEngine.findReasoningEnd, if_neg hids, ← hoffset, htoken, Bool.false_eq_true,
        if_false]
      rw [hend]
    rw [hbounds]
    exact ⟨Nat.le_add_left _ _, Nat.succ_le_succ hle, hended, by simp [htoken]⟩
  | some token =>
    have hmem : token ∈ engine.reasoningEndTokenIds := by
      obtain ⟨hlt, hget⟩ := List.getElem?_eq_some_iff.1 htoken
      have := findIdx_getElem (w := hlt)
      rw [hget] at this
      simpa using this
    have hbounds : reasoningBounds reasoner allTokenIds tokens committed =
        if some token ≠ engine.reasoningEndTokenId then ⟨offset, offset + 1⟩
        else ⟨offset + 1, offset + 1⟩ := by
      simp only [reasoningBounds, length_eq_zero_iff, if_neg hne, hengine, Option.bind_some,
        ParserEngine.findReasoningEnd, if_neg hids, ← hoffset, htoken, decide_eq_true_eq]
    have hiff : token ∈ reasoner.implicitEnds ↔ some token ≠ engine.reasoningEndTokenId := by
      rw [himplicit, ParserEngine.implicitReasoningEndTokenIds]
      simp [hmem]
    rw [hbounds]
    by_cases hend : some token ≠ engine.reasoningEndTokenId
    · rw [if_pos hend]
      exact ⟨Nat.le_add_left _ _, Nat.succ_le_succ hle, hended, by simp [htoken, hiff, hend]⟩
    · rw [if_neg hend]
      exact ⟨Nat.le_add_left _ _, Nat.succ_le_succ hle, hended, by simp [htoken, hiff, hend]⟩

/-! ## The search with the test -/

/-- From a prefix that has ended, `takeBack` returns the length of the first one. -/
theorem takeBack_spec (htest : ∀ inputIds deltaIds,
      reasoner.isReasoningEndStreaming inputIds deltaIds = ends inputIds)
    (hmono : ∀ inputIds more, ends inputIds = true → ends (inputIds ++ more) = true)
    (allTokenIds tokens : List Nat) {i : Nat} (hi : i < tokens.length)
    (hended : ends (allTokenIds ++ tokens.take (i + 1)) = true) (deltaIds : List Nat) :
    1 ≤ takeBack reasoner i (allTokenIds ++ tokens.take (i + 1)) deltaIds ∧
      takeBack reasoner i (allTokenIds ++ tokens.take (i + 1)) deltaIds ≤ i + 1 ∧
      ∀ j, 1 ≤ j → j ≤ tokens.length → (ends (allTokenIds ++ tokens.take j) = true ↔
        takeBack reasoner i (allTokenIds ++ tokens.take (i + 1)) deltaIds ≤ j) := by
  have hgrow : ∀ {j j' : Nat}, j ≤ j' → ends (allTokenIds ++ tokens.take j) = true →
      ends (allTokenIds ++ tokens.take j') = true := by
    intro j j' hle h
    obtain ⟨more, hmore⟩ := take_prefix_take_left hle
    rw [← hmore, ← append_assoc]
    exact hmono _ more h
  induction i generalizing deltaIds with
  | zero =>
    refine ⟨Nat.le_refl 1, Nat.le_refl 1, fun j hj _ => ?_⟩
    exact ⟨fun _ => hj, fun _ => hgrow hj hended⟩
  | succ i ih =>
    have hback : (allTokenIds ++ tokens.take (i + 1 + 1)).dropLast =
        allTokenIds ++ tokens.take (i + 1) := by
      rw [take_add_one, getElem?_eq_getElem hi, Option.toList_some, ← append_assoc, dropLast_concat]
    simp only [takeBack, hback, htest]
    cases hprev : ends (allTokenIds ++ tokens.take (i + 1)) with
    | false =>
      simp only [Bool.not_false, if_true]
      refine ⟨by omega, Nat.le_refl _, fun j _ _ => ?_⟩
      constructor
      · intro h
        by_contra hlt
        rw [hgrow (by omega) h] at hprev
        cases hprev
      · exact fun hle => hgrow hle hended
    | true =>
      simp only [Bool.not_true, Bool.false_eq_true, if_false]
      obtain ⟨hpos, hle, hiff⟩ := ih (by omega) hprev deltaIds.dropLast
      exact ⟨hpos, by omega, hiff⟩

theorem test_cut (htest : ∀ inputIds deltaIds,
      reasoner.isReasoningEndStreaming inputIds deltaIds = ends inputIds)
    (hmono : ∀ inputIds more, ends inputIds = true → ends (inputIds ++ more) = true)
    (hids : ∀ engine, reasoner.engine = some engine → engine.reasoningEndTokenIds = [])
    (hne : tokens ≠ []) (allTokenIds : List Nat) (committed : Bool) :
    Cut reasoner (fun start => ends (allTokenIds ++ start) = true) tokens
      (reasoningBounds reasoner (if committed then allTokenIds ++ tokens else allTokenIds) tokens
        committed) := by
  have hfind : (reasoner.engine.bind fun engine => engine.findReasoningEnd tokens) = none := by
    cases hengine : reasoner.engine with
    | none => rfl
    | some engine => simp only [Option.bind_some, ParserEngine.findReasoningEnd, hids _ hengine,
        if_true]
  have himplicit : reasoner.implicitEnds = [] := by
    unfold Reasoner.implicitEnds
    cases hengine : reasoner.engine with
    | none => rfl
    | some engine =>
      simp only [ParserEngine.implicitReasoningEndTokenIds, hids _ hengine, filter_nil]
  have hinput : (if committed then (if committed then allTokenIds ++ tokens else allTokenIds)
      else (if committed then allTokenIds ++ tokens else allTokenIds) ++ tokens) =
        allTokenIds ++ tokens := by
    cases committed <;> rfl
  have hlength : 0 < tokens.length := length_pos_of_ne_nil hne
  simp only [reasoningBounds, length_eq_zero_iff, if_neg hne, hfind, hinput, htest]
  cases hend : ends (allTokenIds ++ tokens) with
  | false =>
    refine ⟨Nat.le_add_left _ _, Nat.le_refl _, fun j _ hj => ?_, by simp [himplicit]⟩
    constructor
    · intro h
      have := hmono _ (tokens.drop j) h
      rw [append_assoc, take_append_drop, hend] at this
      cases this
    · intro h
      have : tokens.length + 1 ≤ j := h
      omega
  | true =>
    simp only [Bool.not_true, Bool.false_eq_true, if_false]
    have hlast : tokens.take (tokens.length - 1 + 1) = tokens := by
      rw [Nat.sub_add_cancel hlength, take_length]
    have hspec := takeBack_spec htest hmono allTokenIds tokens (i := tokens.length - 1)
      (by omega) (by rw [hlast]; exact hend) tokens
    rw [hlast] at hspec
    obtain ⟨hpos, hle, hiff⟩ := hspec
    exact ⟨hpos, by simp only; omega, hiff, by simp [himplicit]⟩

/-- The bounds of a list of tokens after `allTokenIds`, before and after they are committed. -/
theorem exists_cut (hstable : reasoner.Stable) (allTokenIds : List Nat) :
    ∃ ended : List Nat → Prop, ∀ tokens committed,
      Cut reasoner ended tokens (reasoningBounds reasoner
        (if committed then allTokenIds ++ tokens else allTokenIds) tokens committed) := by
  have hnil : ∀ (ended : List Nat → Prop) ids committed,
      Cut reasoner ended [] (reasoningBounds reasoner ids [] committed) := by
    intro ended ids committed
    exact ⟨Nat.le_refl 1, Nat.le_refl 1, fun j hpos hj => by simp at hj; omega,
      by simp [reasoningBounds, noSpecTokens]⟩
  by_cases hids : ∀ engine, reasoner.engine = some engine → engine.reasoningEndTokenIds = []
  · obtain ⟨ends, htest, hmono⟩ := hstable hids
    refine ⟨fun start => ends (allTokenIds ++ start) = true, fun tokens committed => ?_⟩
    by_cases hne : tokens = []
    · subst hne
      exact hnil _ _ _
    · exact test_cut htest hmono hids hne allTokenIds committed
  · simp only [not_forall] at hids
    obtain ⟨engine, hengine, hids⟩ := hids
    refine ⟨fun start => ∃ x ∈ start, x ∈ engine.reasoningEndTokenIds, fun tokens committed => ?_⟩
    by_cases hne : tokens = []
    · subst hne
      exact hnil _ _ _
    · exact findReasoningEnd_cut hengine hids hne _ committed

/-! ## Drafts and sampled tokens -/

namespace Cut

variable {reasoner : Reasoner} {ended : List Nat → Prop} {drafts kept : List Nat} {token : Nat}
  {bounds bounds' : ConstraintBounds}

section

variable (h : Cut reasoner ended drafts bounds)
include h

theorem grammarStart_le : bounds.grammarStart ≤ bounds.constraintStart := by
  rw [h.grammarStart]
  split
  · exact Nat.sub_le _ _
  · exact Nat.le_refl _

/-- Between its two bounds a cut has one token, which ends reasoning and is content. -/
theorem implicit_of_lt (hlt : bounds.grammarStart < bounds.constraintStart) :
    bounds.grammarStart + 1 = bounds.constraintStart ∧
      ∀ token, drafts[bounds.grammarStart]? = some token → token ∈ reasoner.implicitEnds := by
  have hgrammar := h.grammarStart
  split at hgrammar
  · rename_i himplicit
    obtain ⟨last, hlast, hmem⟩ := himplicit
    refine ⟨by omega, fun token htoken => ?_⟩
    rw [← hgrammar, htoken] at hlast
    cases hlast
    exact hmem
  · omega

omit h in
theorem take_of_agree {rest : List Nat} (hj : j ≤ kept.length) :
    (kept ++ [token]).take j = (kept ++ rest).take j := by
  rw [take_append_of_le_length hj, take_append_of_le_length hj]

/-- Sampled tokens that follow the drafts past their cut have the same bounds. -/
theorem eq_of_agree (h' : Cut reasoner ended (kept ++ [token]) bounds') (hkept : kept <+: drafts)
    (hpast : bounds.constraintStart ≤ kept.length) : bounds' = bounds := by
  obtain ⟨rest, rfl⟩ := hkept
  have hpos := h.pos
  have hlength : (kept ++ rest).length = kept.length + rest.length := length_append
  have hlength' : (kept ++ [token]).length = kept.length + 1 := length_append
  have hends := (h.ended_iff bounds.constraintStart hpos (by omega)).2 (Nat.le_refl _)
  rw [← take_of_agree hpast] at hends
  have hle := (h'.ended_iff bounds.constraintStart hpos (by omega)).1 hends
  have hends' := (h'.ended_iff bounds'.constraintStart h'.pos (by omega)).2 (Nat.le_refl _)
  rw [take_of_agree (by omega)] at hends'
  have hge := (h.ended_iff bounds'.constraintStart h'.pos (by omega)).1 hends'
  have hstart : bounds'.constraintStart = bounds.constraintStart := Nat.le_antisymm hle hge
  have hget : (kept ++ [token])[bounds.constraintStart - 1]? =
      (kept ++ rest)[bounds.constraintStart - 1]? := by
    rw [getElem?_append_left (by omega), getElem?_append_left (by omega)]
  have hgrammar := h'.grammarStart
  rw [hstart, hget, ← h.grammarStart] at hgrammar
  cases bounds'
  simp only at hstart hgrammar
  rw [hstart, hgrammar]

/-- Sampled tokens that leave the drafts before their cut end reasoning at the last one, if at
all. -/
theorem of_before (h' : Cut reasoner ended (kept ++ [token]) bounds') (hkept : kept <+: drafts)
    (hbefore : kept.length < bounds.constraintStart) :
    kept.length + 1 ≤ bounds'.grammarStart ∨
      (bounds'.grammarStart = kept.length ∧ token ∈ reasoner.implicitEnds) := by
  obtain ⟨rest, rfl⟩ := hkept
  have hlength : (kept ++ rest).length = kept.length + rest.length := length_append
  have hlength' : (kept ++ [token]).length = kept.length + 1 := length_append
  have hstart : kept.length + 1 ≤ bounds'.constraintStart := by
    by_contra hlt
    have hpos := h'.pos
    have hends := (h'.ended_iff bounds'.constraintStart hpos (by omega)).2 (Nat.le_refl _)
    rw [take_of_agree (by omega)] at hends
    have := (h.ended_iff bounds'.constraintStart hpos (by omega)).1 hends
    omega
  have hgrammar := h'.grammarStart
  split at hgrammar
  · rename_i himplicit
    obtain ⟨last, hlast, hmem⟩ := himplicit
    rcases Nat.lt_or_ge (kept.length + 1) bounds'.constraintStart with hlt | hge
    · omega
    have hcut : bounds'.constraintStart = kept.length + 1 := Nat.le_antisymm hge hstart
    rw [hcut, Nat.add_sub_cancel, getElem?_concat_length] at hlast
    cases hlast
    exact Or.inr ⟨by omega, hmem⟩
  · omega

end

end Cut

end Vllm.StructuredOutput
