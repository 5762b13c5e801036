import Mathlib.Data.BitVec

/-!
# Grammars and bitmask rows

A compiled grammar is a deterministic state machine. `Grammar` is the matcher of one request:
its state, and the states it has come through, so that `rollback` can undo advances. A row of
the bitmask packs one bit per token into words of 32 bits.
-/

namespace Vllm.StructuredOutput

open List

/-! ## Grammars -/

structure Machine (S : Type) where
  acceptToken : S → Nat → Option S
  isTerminated : S → Bool

/-- The state of a matcher and the states before it, latest first. -/
structure Grammar (S : Type) where
  state : S
  history : List S
  deriving DecidableEq, Repr

variable {S : Type} {token : Nat}

namespace Grammar

def advance (g : Grammar S) (s : S) : Grammar S := ⟨s, g.state :: g.history⟩

/-- `rollback(num_tokens)`. -/
def rollback : Nat → Grammar S → Grammar S
  | 0, g => g
  | n + 1, g =>
    match g.history with
    | [] => g
    | s :: history => rollback n ⟨s, history⟩

variable (m : Machine S)

def isTerminated (g : Grammar S) : Bool := m.isTerminated g.state

/-- The loop of `accept_tokens`, after `numAccepted` tokens. -/
def acceptLoop (g : Grammar S) (numAccepted : Nat) : List Nat → Bool × Grammar S
  | [] => (true, g)
  | token :: tokens =>
    match m.acceptToken g.state token with
    | none => (false, rollback numAccepted g)
    | some s =>
      if m.isTerminated s then (true, g.advance s)
      else acceptLoop (g.advance s) (numAccepted + 1) tokens

/-- `accept_tokens`: tokens after termination are ignored. -/
def acceptTokens (g : Grammar S) (tokens : List Nat) : Bool × Grammar S :=
  if g.isTerminated m then (true, g) else g.acceptLoop m 0 tokens

/-- `validate_tokens`, the accepted tokens, without advancing. -/
def validateTokens (g : Grammar S) (tokens : List Nat) : List Nat :=
  if g.isTerminated m then [] else validateLoop g.state tokens
where
  validateLoop (s : S) : List Nat → List Nat
    | [] => []
    | token :: tokens =>
      match m.acceptToken s token with
      | none => []
      | some s' => token :: if m.isTerminated s' then [] else validateLoop s' tokens

/-- The tokens are accepted one by one, none of them after termination. -/
def feed (g : Grammar S) : List Nat → Option (Grammar S)
  | [] => some g
  | token :: tokens =>
    if g.isTerminated m then none
    else match m.acceptToken g.state token with
      | none => none
      | some s => feed (g.advance s) tokens

variable {m} {g g' : Grammar S} {tokens : List Nat}

theorem feed_append (g : Grammar S) (tokens tokens' : List Nat) :
    g.feed m (tokens ++ tokens') = (g.feed m tokens).bind fun g' => g'.feed m tokens' := by
  induction tokens generalizing g with
  | nil => rfl
  | cons token tokens ih =>
    simp only [cons_append, feed]
    split
    · rfl
    split
    · rfl
    · exact ih _

theorem feed_singleton (hterm : g.isTerminated m = false) {s : S}
    (haccept : m.acceptToken g.state token = some s) :
    g.feed m [token] = some (g.advance s) := by
  simp [feed, hterm, haccept]

theorem feed_of_terminated
    (hterm : g.isTerminated m = true) (hne : tokens ≠ []) : g.feed m tokens = none := by
  cases tokens with
  | nil => exact absurd rfl hne
  | cons token tokens => simp only [feed, hterm, if_true]

/-- What can be fed is accepted, and all of it advances the grammar. -/
theorem acceptLoop_of_feed (n : Nat)
    (hfeed : g.feed m tokens = some g') : g.acceptLoop m n tokens = (true, g') := by
  induction tokens generalizing g n with
  | nil =>
    cases hfeed
    rfl
  | cons token tokens ih =>
    simp only [feed] at hfeed
    split at hfeed
    · cases hfeed
    cases haccept : m.acceptToken g.state token with
    | none => simp only [haccept] at hfeed; cases hfeed
    | some s =>
      simp only [haccept] at hfeed
      simp only [acceptLoop, haccept]
      split
      · rename_i hterm
        by_cases htokens : tokens = []
        · subst htokens
          cases hfeed
          rfl
        · have hdone : (g.advance s).isTerminated m = true := hterm
          rw [feed_of_terminated hdone htokens] at hfeed
          cases hfeed
      · exact ih (n + 1) hfeed

theorem acceptTokens_of_feed
    (hfeed : g.feed m tokens = some g') : (g.acceptTokens m tokens).1 = true := by
  unfold acceptTokens
  split
  · rfl
  · rw [acceptLoop_of_feed 0 hfeed]

/-- Once fed up to termination, the grammar ignores the rest. -/
theorem acceptLoop_of_feed_terminated (n : Nat)
    (hne : tokens ≠ []) (hfeed : g.feed m tokens = some g') (hterm : g'.isTerminated m = true)
    (rest : List Nat) : g.acceptLoop m n (tokens ++ rest) = (true, g') := by
  induction tokens generalizing g n with
  | nil => exact absurd rfl hne
  | cons token tokens ih =>
    simp only [feed] at hfeed
    split at hfeed
    · cases hfeed
    cases haccept : m.acceptToken g.state token with
    | none => simp only [haccept] at hfeed; cases hfeed
    | some s =>
      simp only [haccept] at hfeed
      simp only [cons_append, acceptLoop, haccept]
      by_cases htokens : tokens = []
      · subst htokens
        cases hfeed
        exact if_pos hterm
      split
      · rename_i hs
        have hdone : (g.advance s).isTerminated m = true := hs
        rw [feed_of_terminated hdone htokens] at hfeed
        cases hfeed
      · exact ih (n + 1) htokens hfeed

theorem acceptTokens_of_feed_terminated
    (hfeed : g.feed m tokens = some g') (hterm : g'.isTerminated m = true) (rest : List Nat) :
    (g.acceptTokens m (tokens ++ rest)).2 = g' := by
  unfold acceptTokens
  cases tokens with
  | nil =>
    cases hfeed
    rw [if_pos hterm]
  | cons token tokens =>
    split
    · rename_i hnow
      rw [feed_of_terminated hnow (cons_ne_nil _ _)] at hfeed
      cases hfeed
    · rw [acceptLoop_of_feed_terminated 0 (cons_ne_nil _ _) hfeed hterm]

/-- One token at a time: the grammar is left, or advanced by the token. -/
theorem acceptTokens_singleton (hterm : g.isTerminated m = false) (token : Nat) :
    g.acceptTokens m [token] =
      match m.acceptToken g.state token with
      | none => (false, g)
      | some s => (true, g.advance s) := by
  simp only [acceptTokens, hterm, Bool.false_eq_true, if_false, acceptLoop]
  cases m.acceptToken g.state token with
  | none => rfl
  | some s => simp

theorem acceptToken_of_validate (h : g.validateTokens m [token] ≠ []) :
    g.isTerminated m = false ∧ ∃ s, m.acceptToken g.state token = some s := by
  unfold validateTokens at h
  cases hterm : g.isTerminated m with
  | true => simp [hterm] at h
  | false =>
    refine ⟨rfl, ?_⟩
    cases haccept : m.acceptToken g.state token with
    | none => simp [validateTokens.validateLoop, haccept] at h
    | some s => exact ⟨s, rfl⟩

end Grammar

/-! ## Rows -/

/-- A row of the token bitmask, by words. -/
abbrev Row := Nat → BitVec 32

namespace Row

/-- `_full_mask` in every word. -/
def full : Row := fun _ => BitVec.allOnes 32

def allows (row : Row) (token : Nat) : Bool := (row (token >>> 5)).getLsbD (token &&& 31)

/-- `row[token_id >> 5] &= ~np.uint32(1 << (token_id & 31))`. -/
def mask (row : Row) (token : Nat) : Row :=
  Function.update row (token >>> 5) (row (token >>> 5) &&& ~~~(1#32 <<< (token &&& 31)))

/-- `fill_bitmask`: exactly the next tokens that are accepted. -/
def fill (m : Machine S) (g : Grammar S) : Row := fun word =>
  (BitVec.iunfoldr (fun (bit : Fin 32) (_ : Unit) =>
    ((), (m.acceptToken g.state (32 * word + bit)).isSome)) ()).2

theorem split_token (token : Nat) :
    token &&& 31 < 32 ∧ 32 * (token >>> 5) + (token &&& 31) = token := by
  have hlow : token &&& 31 = token % 32 := Nat.and_two_pow_sub_one_eq_mod token 5
  have hhigh : token >>> 5 = token / 32 := Nat.shiftRight_eq_div_pow token 5
  omega

@[simp] theorem allows_fill (m : Machine S) (g : Grammar S) (token : Nat) :
    (fill m g).allows token = (m.acceptToken g.state token).isSome := by
  obtain ⟨hlow, hsplit⟩ := split_token token
  unfold fill allows
  have hbit := BitVec.iunfoldr_getLsbD
    (f := fun (bit : Fin 32) (_ : Unit) =>
      ((), (m.acceptToken g.state (32 * (token >>> 5) + bit)).isSome))
    (fun _ => ()) (fun _ => rfl) (i := ⟨token &&& 31, hlow⟩)
  simp only [hsplit] at hbit
  exact hbit

theorem allows_mask_self (row : Row) (token : Nat) : (row.mask token).allows token = false := by
  have hlow := (split_token token).1
  simp [mask, allows]

variable {row : Row}

theorem allows_of_mask {masked : Nat}
    (h : (row.mask masked).allows token = true) : row.allows token = true := by
  unfold mask allows at h
  by_cases hword : token >>> 5 = masked >>> 5
  · rw [hword, Function.update_self, BitVec.getLsbD_and, Bool.and_eq_true] at h
    unfold allows
    rw [hword]
    exact h.1
  · rw [Function.update_of_ne hword] at h
    exact h

theorem allows_of_foldl_mask {maskedIds : List Nat}
    (h : (maskedIds.foldl mask row).allows token = true) : row.allows token = true := by
  induction maskedIds generalizing row with
  | nil => exact h
  | cons masked maskedIds ih => exact allows_of_mask (ih h)

/-- A token that a row allows is none of those masked in it. -/
theorem notMem_of_allows {maskedIds : List Nat}
    (h : (maskedIds.foldl mask row).allows token = true) : token ∉ maskedIds := by
  induction maskedIds generalizing row with
  | nil => exact not_mem_nil
  | cons masked maskedIds ih =>
    rw [foldl_cons] at h
    rw [mem_cons, not_or]
    refine ⟨fun heq => ?_, ih h⟩
    subst heq
    have hkept := allows_of_foldl_mask h
    rw [allows_mask_self] at hkept
    cases hkept

end Row

end Vllm.StructuredOutput
