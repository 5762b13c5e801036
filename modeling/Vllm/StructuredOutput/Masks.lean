import Vllm.StructuredOutput.Bounds

/-!
# The rows of one request

The loop of `grammar_bitmask` over the tokens of a request (`maskRun`): the grammar it leaves
can be rolled back (`maskRun_rollback`), each row is written once (`maskRun_row`), and as long
as every draft is allowed by its row the grammar is the one that the drafts lead to
(`maskRun_fed`).
-/

namespace Vllm.StructuredOutput

open Function List

variable {S : Type}

section Loop

variable (m : Machine S) (bounds : ConstraintBounds) (maskedIds : List Nat)

/-- The row that the loop writes before the `i`-th token. -/
def rowAt (st : MaskState S) (i : Nat) : Row :=
  if st.paddingOrGrammarInvalid then fillRow m st.grammar false []
  else fillRow m st.grammar (bounds.constraintStart ≤ i)
    (if i < bounds.constraintStart then maskedIds else [])

variable (baseIndex : Nat)

theorem maskToken_bitmask (st : MaskState S) (token : Option Nat) (i : Nat) :
    (maskToken m bounds maskedIds baseIndex st (token, i)).bitmask =
      update st.bitmask (baseIndex + i) (rowAt m bounds maskedIds st i) := by
  unfold maskToken rowAt
  cases st.paddingOrGrammarInvalid with
  | true => simp
  | false =>
    cases token with
    | none => simp
    | some token =>
      simp only [Bool.false_eq_true, if_false]
      split
      · split <;> rfl
      · rfl

theorem maskToken_rollback (st : MaskState S) (entry : Option Nat × Nat) :
    Grammar.rollback (maskToken m bounds maskedIds baseIndex st entry).stateAdvancements
        (maskToken m bounds maskedIds baseIndex st entry).grammar =
      Grammar.rollback st.stateAdvancements st.grammar := by
  unfold maskToken
  cases st.paddingOrGrammarInvalid with
  | true => rfl
  | false =>
    simp only [Bool.false_eq_true, if_false]
    cases entry.1 with
    | none => rfl
    | some token =>
      simp only
      split
      · split
        · rename_i haccept
          simp only [Bool.and_eq_true, Bool.not_eq_true'] at haccept
          obtain ⟨hterm, haccept⟩ := haccept
          rw [Grammar.acceptTokens_singleton hterm] at haccept ⊢
          cases hs : m.acceptToken st.grammar.state token with
          | none => simp [hs] at haccept
          | some s => rfl
        · rfl
      · rfl

variable (st₀ : MaskState S) (tokens : List (Option Nat))

/-- The state of the loop before the `i`-th token. -/
def maskRun (i : Nat) : MaskState S :=
  (tokens.take i).zipIdx.foldl (maskToken m bounds maskedIds baseIndex) st₀

theorem maskRun_length :
    maskRun m bounds maskedIds baseIndex st₀ tokens tokens.length =
      tokens.zipIdx.foldl (maskToken m bounds maskedIds baseIndex) st₀ := by
  rw [maskRun, take_length]

variable {m bounds maskedIds baseIndex st₀ tokens} {i n : Nat}

theorem maskRun_succ {token : Option Nat} (h : tokens[i]? = some token) :
    maskRun m bounds maskedIds baseIndex st₀ tokens (i + 1) =
      maskToken m bounds maskedIds baseIndex
        (maskRun m bounds maskedIds baseIndex st₀ tokens i) (token, i) := by
  have hlt := (List.getElem?_eq_some_iff.1 h).1
  unfold maskRun
  rw [take_add_one, h, zipIdx_append, foldl_append,
    length_take, Nat.min_eq_left (Nat.le_of_lt hlt), Nat.zero_add]
  rfl

theorem maskRun_rollback (hn : n ≤ tokens.length) :
    Grammar.rollback (maskRun m bounds maskedIds baseIndex st₀ tokens n).stateAdvancements
        (maskRun m bounds maskedIds baseIndex st₀ tokens n).grammar =
      Grammar.rollback st₀.stateAdvancements st₀.grammar := by
  induction n with
  | zero => rfl
  | succ n ih =>
    rw [maskRun_succ (getElem?_eq_getElem hn), maskToken_rollback]
    exact ih (Nat.le_of_lt hn)

theorem maskRun_row (hi : i < n) (hn : n ≤ tokens.length) :
    (maskRun m bounds maskedIds baseIndex st₀ tokens n).bitmask (baseIndex + i) =
      rowAt m bounds maskedIds (maskRun m bounds maskedIds baseIndex st₀ tokens i) i := by
  induction n with
  | zero => exact absurd hi (Nat.not_lt_zero i)
  | succ n ih =>
    rw [maskRun_succ (getElem?_eq_getElem hn), maskToken_bitmask]
    rcases Nat.lt_succ_iff_lt_or_eq.1 hi with hlt | rfl
    · rw [update_of_ne (by omega)]
      exact ih hlt (Nat.le_of_lt hn)
    · rw [update_self]

/-- Rows of other requests stay. -/
theorem maskRun_frame {index : Nat} (hn : n ≤ tokens.length)
    (hindex : ∀ i < n, index ≠ baseIndex + i) :
    (maskRun m bounds maskedIds baseIndex st₀ tokens n).bitmask index = st₀.bitmask index := by
  induction n with
  | zero => rfl
  | succ n ih =>
    rw [maskRun_succ (getElem?_eq_getElem hn), maskToken_bitmask,
      update_of_ne (hindex n (Nat.lt_succ_self n))]
    exact ih (Nat.le_of_lt hn) fun i hi => hindex i (Nat.lt_succ_of_lt hi)

theorem maskRun_fed {kept : List Nat} {bitmask : Nat → Row} {g : Grammar S}
    (hst : st₀ = ⟨bitmask, g, 0, false⟩) (htokens : tokens.take kept.length = kept.map some)
    (hcut : ∀ i token, bounds.grammarStart ≤ i → i < bounds.constraintStart →
      kept[i]? = some token → token ∉ maskedIds →
      i = bounds.grammarStart ∧ ∃ s, m.acceptToken g.state token = some s)
    (hallowed : ∀ i token, kept[i]? = some token →
      (rowAt m bounds maskedIds (maskRun m bounds maskedIds baseIndex st₀ tokens i) i).allows
        token = true)
    (hterm : (g.acceptTokens m (kept.drop bounds.grammarStart)).2.isTerminated m = false)
    (hi : i ≤ kept.length) :
    (maskRun m bounds maskedIds baseIndex st₀ tokens i).paddingOrGrammarInvalid = false ∧
      g.feed m ((kept.take i).drop bounds.grammarStart) =
        some (maskRun m bounds maskedIds baseIndex st₀ tokens i).grammar := by
  induction i with
  | zero =>
    subst hst
    simp [maskRun, Grammar.feed]
  | succ i ih =>
    obtain ⟨hflag, hfeed⟩ := ih (Nat.le_of_lt hi)
    have hkept : kept[i]? = some kept[i] := getElem?_eq_getElem hi
    have htoken : tokens[i]? = some (some kept[i]) := by
      have hget := congrArg (fun l => l[i]?) htokens
      simp only [getElem?_map, hkept, Option.map_some, getElem?_take_of_lt hi] at hget
      exact hget
    have hrow := hallowed i kept[i] hkept
    set st := maskRun m bounds maskedIds baseIndex st₀ tokens i with hst_def
    simp only [rowAt, hflag, Bool.false_eq_true, if_false] at hrow
    rw [maskRun_succ htoken, ← hst_def]
    rcases Nat.lt_or_ge i bounds.grammarStart with hlt | hge
    · have hsame : maskToken m bounds maskedIds baseIndex st (some kept[i], i) =
          { st with bitmask := (maskToken m bounds maskedIds baseIndex st
            (some kept[i], i)).bitmask } := by
        simp only [maskToken, hflag, Bool.false_eq_true, if_false, if_neg (Nat.not_le.2 hlt)]
      rw [hsame]
      refine ⟨hflag, ?_⟩
      rw [drop_eq_nil_of_le (by rw [length_take]; omega)] at hfeed ⊢
      exact hfeed
    · have hrunning : st.grammar.isTerminated m = false := by
        by_contra hdone
        rw [Bool.not_eq_false] at hdone
        have hsplit : kept.drop bounds.grammarStart =
            (kept.take i).drop bounds.grammarStart ++ kept.drop i := by
          conv_lhs => rw [← take_append_drop i kept]
          rw [drop_append_of_le_length]
          rw [length_take]
          omega
        rw [hsplit, Grammar.acceptTokens_of_feed_terminated hfeed hdone, hdone] at hterm
        cases hterm
      obtain ⟨s, hs⟩ : ∃ s, m.acceptToken st.grammar.state kept[i] = some s := by
        rcases Nat.lt_or_ge i bounds.constraintStart with hlt | hpast
        · -- the token that ends reasoning and is content as well
          simp only [fillRow, decide_eq_false (Nat.not_le.2 hlt), Bool.false_and,
            Bool.false_eq_true, if_false, if_pos hlt] at hrow
          obtain ⟨hstart, hs⟩ := hcut i kept[i] hge hlt hkept (Row.notMem_of_allows hrow)
          rw [drop_eq_nil_of_le (by rw [length_take]; omega)] at hfeed
          rw [← Option.some.inj hfeed]
          exact hs
        · simp only [fillRow, decide_eq_true hpast, hrunning, Bool.not_false, Bool.and_self,
            if_true, Row.allows_fill, Option.isSome_iff_exists] at hrow
          exact hrow
      have haccept : st.grammar.acceptTokens m [kept[i]] = (true, st.grammar.advance s) := by
        rw [Grammar.acceptTokens_singleton hrunning, hs]
      simp only [maskToken, hflag, Bool.false_eq_true, if_false, if_pos hge, hrunning, haccept,
        Bool.not_false, Bool.and_self, if_true, true_and]
      rw [take_add_one, hkept, Option.toList_some, drop_append_of_le_length
        (by rw [length_take]; omega), Grammar.feed_append, hfeed, Option.bind_some,
        Grammar.feed_singleton hrunning hs]

end Loop

end Vllm.StructuredOutput
