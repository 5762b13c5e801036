import Vllm.Library.Borders

/-!
# The n-gram proposer

`_find_longest_matched_ngram_and_propose_tokens` of `v1/spec_decode/ngram_proposer.py`. The tokens
are flipped, so that n-grams that end the context are prefixes, and a scan keeps the longest prefix
that ends at the current position. The failure table and the prefixes are cut at `max_ngram`: a
prefix of that length falls back to its longest border at once (`ExtendsFrom`). The longest prefix
that was seen away from the start, at the last position where it was seen, is the longest n-gram at
its earliest occurrence in the context.
-/

namespace Vllm.SpecDecode

open Function Library List

variable {Token : Type} [DecidableEq Token]

/-- The variables of the loop. The failure table is zero where nothing was stored. -/
structure Scan where
  lps : Nat → Nat
  longestNgram : Nat
  position : Nat
  prevLps : Nat
  i : Nat

def Scan.init : Scan where
  lps _ := 0
  longestNgram := 0
  position := 0
  prevLps := 0
  i := 1

/-- The body of the loop. -/
def Scan.step (tokens : List Token) (maxNgram : Nat) (s : Scan) : Scan :=
  if tokens[s.prevLps]? = tokens[s.i]? then
    let prevLps := s.prevLps + 1
    let longer := s.longestNgram ≤ prevLps
    let lps := if s.i < maxNgram then Function.update s.lps s.i prevLps else s.lps
    { lps
      longestNgram := if longer then prevLps else s.longestNgram
      position := if longer then s.i else s.position
      prevLps := if prevLps = maxNgram then lps (maxNgram - 1) else prevLps
      i := s.i + 1 }
  else if s.prevLps ≠ 0 then { s with prevLps := s.lps (s.prevLps - 1) }
  else { s with i := s.i + 1 }

/-- `while i < total_token`, for at most `fuel` rounds. -/
def Scan.run (tokens : List Token) (maxNgram : Nat) : Nat → Scan → Option Scan
  | 0, s => if s.i < tokens.length then none else some s
  | fuel + 1, s =>
    if s.i < tokens.length then (s.step tokens maxNgram).run tokens maxNgram fuel else some s

/-- The tokens that are proposed. Two rounds for each token are enough for the loop. -/
def findLongestMatchedNgramAndProposeTokens (originTokens : List Token)
    (minNgram maxNgram maxModelLen k : Nat) : Option (List Token) :=
  let totalToken := originTokens.length
  if totalToken < minNgram then some []
  else
    let k := min k (maxModelLen - totalToken)
    if k = 0 then some []
    else
      (Scan.init.run originTokens.reverse maxNgram (2 * totalToken)).map fun s =>
        if s.longestNgram < minNgram then []
        else
          let startPosition := totalToken - 1 - s.position + s.longestNgram
          (originTokens.drop startPosition).take (min k (totalToken - startPosition))

/-! ## The scan -/

section Scan

variable {tokens : List Token} {maxNgram : Nat} {v : Nat} {s : Scan}

/-- The table holds the longest borders of the prefixes up to `m` and up to the cap. -/
def Table (tokens : List Token) (maxNgram m : Nat) (lps : Nat → Nat) : Prop :=
  (∀ j < maxNgram, j < m → LongestBorder (tokens[·]?) (j + 1) (lps j)) ∧ ∀ j ≥ m, lps j = 0

/-- The longest prefix up to the cap that ends behind one of the positions below `i` but the first,
and the last such position. -/
structure Best (tokens : List Token) (maxNgram i longest position : Nat) : Prop where
  le : longest ≤ maxNgram
  found : 0 < longest → position < i ∧ Border (tokens[·]?) (position + 1) longest
  top : ∀ j < i, ∀ v ≤ maxNgram, Border (tokens[·]?) (j + 1) v → v ≤ longest
  later : ∀ j < i, position < j → 0 < longest → ¬ Border (tokens[·]?) (j + 1) longest

structure Scan.Inv (tokens : List Token) (maxNgram : Nat) (s : Scan) : Prop where
  table : Table tokens maxNgram s.i s.lps
  tried : ExtendsFrom (tokens[·]?) maxNgram s.i s.prevLps
  best : Best tokens maxNgram s.i s.longestNgram s.position

omit [DecidableEq Token] in
theorem not_border_one (h : Border (tokens[·]?) (0 + 1) v) : v = 0 :=
  Nat.lt_one_iff.mp h.1

omit [DecidableEq Token] in
theorem Scan.inv_init (hmax : 0 < maxNgram) : Scan.init.Inv tokens maxNgram where
  table := by
    refine ⟨fun j _ hj => ?_, fun _ _ => rfl⟩
    obtain rfl := Nat.lt_one_iff.mp hj
    exact ⟨.zero Nat.one_pos, fun u hu => Nat.le_of_eq (not_border_one hu)⟩
  tried := ⟨.zero Nat.one_pos, hmax, fun u hu _ _ => Nat.le_of_eq (not_border_one hu)⟩
  best :=
    { le := Nat.zero_le _
      found := fun h => absurd h (Nat.lt_irrefl 0)
      top := by
        intro j hj v _ hb
        obtain rfl := Nat.lt_one_iff.mp hj
        exact Nat.le_of_eq (not_border_one hb)
      later := fun _ _ _ h => absurd h (Nat.lt_irrefl 0) }

section Best

omit [DecidableEq Token]

variable {i longest position v : Nat} (h : Best tokens maxNgram i longest position)
include h

/-- A position behind which the longest prefix up to the cap is not empty. -/
theorem Best.next (hv : v ≤ maxNgram) (hb : Border (tokens[·]?) (i + 1) v)
    (hmax : ∀ u ≤ maxNgram, Border (tokens[·]?) (i + 1) u → u ≤ v) :
    Best tokens maxNgram (i + 1) (if longest ≤ v then v else longest)
      (if longest ≤ v then i else position) := by
  split
  · refine ⟨hv, fun _ => ⟨Nat.lt_succ_self i, hb⟩, fun j hj u hu hju => ?_, ?_⟩
    · rcases Nat.lt_succ_iff_lt_or_eq.mp hj with hj | rfl
      · exact Nat.le_trans (h.top j hj u hu hju) ‹_›
      · exact hmax u hu hju
    · exact fun j hj hlt => absurd (Nat.le_of_lt_succ hj) (Nat.not_le.mpr hlt)
  · refine ⟨h.le, fun hpos => ?_, fun j hj u hu hju => ?_, fun j hj hlt hpos hju => ?_⟩
    · exact ⟨Nat.lt_succ_of_lt (h.found hpos).1, (h.found hpos).2⟩
    · rcases Nat.lt_succ_iff_lt_or_eq.mp hj with hj | rfl
      · exact h.top j hj u hu hju
      · have := hmax u hu hju
        omega
    · rcases Nat.lt_succ_iff_lt_or_eq.mp hj with hj | rfl
      · exact h.later j hj hlt hpos hju
      · exact absurd (hmax _ h.le hju) ‹_›

/-- A position behind which there is none. -/
theorem Best.skip (hnone : ∀ u ≤ maxNgram, Border (tokens[·]?) (i + 1) u → u = 0) :
    Best tokens maxNgram (i + 1) longest position where
  le := h.le
  found hpos := ⟨Nat.lt_succ_of_lt (h.found hpos).1, (h.found hpos).2⟩
  top j hj u hu hju := by
    rcases Nat.lt_succ_iff_lt_or_eq.mp hj with hj | rfl
    · exact h.top j hj u hu hju
    · rw [hnone u hu hju]
      exact Nat.zero_le _
  later j hj hlt hpos hju := by
    rcases Nat.lt_succ_iff_lt_or_eq.mp hj with hj | rfl
    · exact h.later j hj hlt hpos hju
    · exact Nat.ne_of_gt hpos (hnone _ h.le hju)

end Best

omit [DecidableEq Token] in
/-- The entry of the table for the prefix that ends at `i`, if it is up to the cap. -/
theorem Table.next {i : Nat} {lps : Nat → Nat} (h : Table tokens maxNgram i lps)
    (hb : Border (tokens[·]?) (i + 1) v)
    (hmax : ∀ u ≤ maxNgram, Border (tokens[·]?) (i + 1) u → u ≤ v) :
    Table tokens maxNgram (i + 1) (if i < maxNgram then update lps i v else lps) := by
  constructor
  · intro j hj hlt
    rcases Nat.lt_succ_iff_lt_or_eq.mp hlt with hlt | rfl
    · split
      · rw [update_of_ne (Nat.ne_of_lt hlt)]
        exact h.1 j hj hlt
      · exact h.1 j hj hlt
    · rw [if_pos hj, update_self]
      exact ⟨hb, fun u hu => hmax u (Nat.le_trans (Nat.le_of_lt_succ hu.1) (Nat.le_of_lt hj)) hu⟩
  · intro j hj
    split
    · rw [update_of_ne (Nat.ne_of_gt hj)]
      exact h.2 j (Nat.le_of_succ_le hj)
    · exact h.2 j (Nat.le_of_succ_le hj)

theorem Scan.Inv.step (h : s.Inv tokens maxNgram) :
    (s.step tokens maxNgram).Inv tokens maxNgram := by
  have hlt := h.tried.1.1
  have hcap := h.tried.2.1
  unfold Scan.step
  split
  · rename_i heq
    -- a match: the prefix grows, and falls back at once if it has reached the cap
    obtain ⟨hb, hmax⟩ := h.tried.grow heq
    have htable := h.table.next hb hmax
    refine ⟨htable, extendsFrom_of_longest hb hmax ?_, h.best.next hcap hb hmax⟩
    dsimp only
    by_cases hfull : s.prevLps + 1 = maxNgram
    · rw [if_pos hfull]
      refine .inr ⟨hfull, ?_⟩
      have hentry := htable.1 (maxNgram - 1) (by omega) (by omega)
      rwa [show maxNgram - 1 + 1 = s.prevLps + 1 by omega] at hentry
    · rw [if_neg hfull]
      exact .inl ⟨Nat.lt_of_le_of_ne hcap hfull, rfl⟩
  · rename_i hne
    split
    · rename_i hpos
      -- no match: the longest border of the prefix is tried next
      have hentry := h.table.1 (s.prevLps - 1) (by omega) (by omega)
      rw [Nat.sub_add_cancel (Nat.pos_of_ne_zero hpos)] at hentry
      exact ⟨h.table, h.tried.fall hne hentry, h.best⟩
    · rename_i hzero
      have hnone := h.tried.none_of_zero (not_not.mp hzero) hne
      have hb : Border (tokens[·]?) (s.i + 1) 0 := .zero (Nat.succ_pos _)
      have hmax : ∀ u ≤ maxNgram, Border (tokens[·]?) (s.i + 1) u → u ≤ 0 :=
        fun u hu hbu => Nat.le_of_eq (hnone u hu hbu)
      refine ⟨?_, ?_, h.best.skip hnone⟩
      · -- nothing is stored, but the entry is zero already
        have htable := h.table.next hb hmax
        rwa [← h.table.2 s.i (Nat.le_refl _), update_eq_self, ite_self] at htable
      · exact extendsFrom_of_longest hb hmax (.inl ⟨by omega, not_not.mp hzero⟩)

/-- Every round takes one of the two rounds that each token has. -/
theorem Scan.step_measure (h : s.Inv tokens maxNgram) :
    2 * s.i - s.prevLps < 2 * (s.step tokens maxNgram).i - (s.step tokens maxNgram).prevLps ∧
      (s.step tokens maxNgram).i ≤ s.i + 1 := by
  have hlt := h.tried.1.1
  have hcap := h.tried.2.1
  have hcap' := h.step.tried.2.1
  unfold Scan.step at hcap' ⊢
  split at hcap'
  · rename_i heq
    rw [if_pos heq]
    dsimp only at hcap' ⊢
    split at hcap'
    · rename_i hfull
      rw [if_pos hfull]
      omega
    · rename_i hfull
      rw [if_neg hfull]
      omega
  · rename_i hne
    rw [if_neg hne]
    split
    · have hentry := (h.table.1 (s.prevLps - 1) (by omega) (by omega)).1.1
      dsimp only
      omega
    · dsimp only
      omega

theorem Scan.Inv.run {fuel : Nat} (h : s.Inv tokens maxNgram)
    (hi : s.i ≤ tokens.length) (hfuel : 2 * tokens.length ≤ 2 * s.i - s.prevLps + fuel) :
    ∃ s', s.run tokens maxNgram fuel = some s' ∧ s'.Inv tokens maxNgram ∧ s'.i = tokens.length := by
  induction fuel generalizing s with
  | zero => exact ⟨s, by rw [Scan.run, if_neg (by omega)], h, by omega⟩
  | succ fuel ih =>
    rw [Scan.run]
    split
    · have hmeasure := step_measure h
      exact ih h.step (by omega) (by omega)
    · exact ⟨s, rfl, h, by omega⟩

end Scan

/-! ## The proposal -/

section Proposal

omit [DecidableEq Token]

variable {tokens : List Token} {n p : Nat}

/-- The last `n` tokens are also there from `p` on, where they end earlier. -/
def Repeats (tokens : List Token) (n p : Nat) : Prop :=
  p + n < tokens.length ∧ (tokens.drop p).take n = tokens.drop (tokens.length - n)

theorem repeats_iff : Repeats tokens n p ↔ p + n < tokens.length ∧
    ∀ j < n, tokens[p + j]? = tokens[tokens.length - n + j]? := by
  refine and_congr_right fun hlt => ⟨fun h j hj => ?_, fun h => ext_getElem? fun j => ?_⟩
  · rw [← getElem?_drop, ← getElem?_drop, ← h, getElem?_take_of_lt hj]
  · by_cases hj : j < n
    · rw [getElem?_take_of_lt hj, getElem?_drop, getElem?_drop, h j hj]
    · rw [getElem?_eq_none (by simp; omega), getElem?_eq_none (by simp; omega)]

/-- In the flipped tokens it is a border. -/
theorem border_reverse_iff (h : p < tokens.length) :
    Border (tokens.reverse[·]?) (tokens.length - p) n ↔ Repeats tokens n p := by
  rw [repeats_iff, Border]
  have hflip : ∀ j < tokens.length, tokens.reverse[j]? = tokens[tokens.length - 1 - j]? :=
    fun j hj => getElem?_reverse hj
  refine ⟨fun ⟨hlt, heq⟩ => ⟨by omega, fun j hj => ?_⟩,
    fun ⟨hlt, heq⟩ => ⟨by omega, fun j hj => ?_⟩⟩
  · have := heq (n - 1 - j) (by omega)
    rw [hflip _ (by omega), hflip _ (by omega)] at this
    rw [show tokens.length - n + j = tokens.length - 1 - (n - 1 - j) by omega, this]
    congr 1
    omega
  · have := heq (n - 1 - j) (by omega)
    rw [hflip _ (by omega), hflip _ (by omega),
      show tokens.length - 1 - j = tokens.length - n + (n - 1 - j) by omega, ← this]
    congr 1
    omega

/-- What the scan ends with, in the context: the longest n-gram up to the cap that repeats, and its
earliest occurrence. -/
theorem Best.repeats {maxNgram longest position : Nat}
    (h : Best tokens.reverse maxNgram tokens.length longest position) :
    (∀ n ≤ maxNgram, ∀ p, Repeats tokens n p → n ≤ longest) ∧
    (0 < longest → Repeats tokens longest (tokens.length - 1 - position) ∧
      ∀ p, Repeats tokens longest p → tokens.length - 1 - position ≤ p) := by
  have hborder : ∀ n p, Repeats tokens n p →
      Border (tokens.reverse[·]?) (tokens.length - 1 - p + 1) n := by
    intro n p hrep
    have hp : p < tokens.length := by have := hrep.1; omega
    rw [show tokens.length - 1 - p + 1 = tokens.length - p by omega]
    exact (border_reverse_iff hp).mpr hrep
  refine ⟨fun n hn p hrep => h.top _ (by have := hrep.1; omega) n hn (hborder n p hrep),
    fun hpos => ?_⟩
  obtain ⟨hlt, hb⟩ := h.found hpos
  refine ⟨?_, fun p hrep => ?_⟩
  · rw [← border_reverse_iff (by omega)]
    rwa [show tokens.length - (tokens.length - 1 - position) = position + 1 by omega]
  · by_contra hp
    exact h.later (tokens.length - 1 - p) (by omega) (by omega) hpos (hborder _ p hrep)

end Proposal

/-- The proposal is empty if there is nothing to propose or no suffix of an allowed length repeats.
Otherwise it is what follows the earliest occurrence of the longest such suffix, up to `k` tokens
and up to the longest context. -/
theorem findLongestMatchedNgram_eq (tokens : List Token) {minNgram maxNgram : Nat}
    (hmin : 1 ≤ minNgram) (hle : minNgram ≤ maxNgram) (maxModelLen k : Nat) :
    ∃ proposal, findLongestMatchedNgramAndProposeTokens tokens minNgram maxNgram maxModelLen k =
        some proposal ∧
      (k = 0 ∨ maxModelLen ≤ tokens.length ∨
          (∀ n p, minNgram ≤ n → n ≤ maxNgram → ¬ Repeats tokens n p) → proposal = []) ∧
      ∀ n p, k ≠ 0 → tokens.length < maxModelLen → minNgram ≤ n → n ≤ maxNgram →
        Repeats tokens n p → (∀ n' p', n' ≤ maxNgram → Repeats tokens n' p' → n' ≤ n) →
        (∀ p', Repeats tokens n p' → p ≤ p') →
        proposal = (tokens.drop (p + n)).take
          (min (min k (maxModelLen - tokens.length)) (tokens.length - (p + n))) := by
  unfold findLongestMatchedNgramAndProposeTokens
  by_cases hshort : tokens.length < minNgram
  · refine ⟨[], if_pos hshort, fun _ => rfl, fun n p _ _ hn _ hrep => ?_⟩
    have := hrep.1
    omega
  by_cases hk : min k (maxModelLen - tokens.length) = 0
  · exact ⟨[], by rw [if_neg hshort, if_pos hk], fun _ => rfl, fun n p hk0 hroom => by omega⟩
  rw [if_neg hshort, if_neg hk]
  -- the scan goes over the whole context
  have hinit : Scan.init.Inv tokens.reverse maxNgram := Scan.inv_init (Nat.lt_of_lt_of_le hmin hle)
  obtain ⟨s, hrun, hinv, hi⟩ : ∃ s, Scan.init.run tokens.reverse maxNgram (2 * tokens.length) =
      some s ∧ s.Inv tokens.reverse maxNgram ∧ s.i = tokens.reverse.length := by
    refine hinit.run ?_ (by simp)
    rw [length_reverse]
    exact Nat.le_trans hmin (Nat.not_lt.mp hshort)
  have hbest := hinv.best
  rw [hi, length_reverse] at hbest
  obtain ⟨htop, hfound⟩ := hbest.repeats
  rw [hrun]
  refine ⟨_, rfl, fun hempty => if_pos ?_, fun n p _ _ hn hcap hrep hlongest hfirst => ?_⟩
  · by_contra hlong
    obtain ⟨hrep, -⟩ := hfound (by omega)
    rcases hempty with hempty | hempty | hempty
    · omega
    · omega
    · exact hempty _ _ (Nat.not_lt.mp hlong) hbest.le hrep
  · have hge := htop n hcap p hrep
    obtain ⟨hrep', hfirst'⟩ := hfound (by omega)
    obtain rfl : s.longestNgram = n := Nat.le_antisymm (hlongest _ _ hbest.le hrep') hge
    obtain rfl : p = tokens.length - 1 - s.position :=
      Nat.le_antisymm (hfirst _ hrep') (hfirst' _ hrep)
    exact if_neg (Nat.not_lt.mpr hn)

/-- The last token is also the first one, so what follows the first one is proposed. -/
theorem findLongestMatchedNgram_eq_sample : Repeats [7, 8, 7] 1 0 ∧
    ∃ proposal, findLongestMatchedNgramAndProposeTokens [7, 8, 7] 1 1 10 2 = some proposal ∧
      proposal = [8, 7] := by
  have hrep : Repeats [7, 8, 7] 1 0 := ⟨by decide, rfl⟩
  obtain ⟨proposal, hrun, -, hsome⟩ := findLongestMatchedNgram_eq [7, 8, 7]
    (Nat.le_refl 1) (Nat.le_refl 1) 10 2
  exact ⟨hrep, proposal, hrun, hsome 1 0 (by decide) (by decide) (Nat.le_refl 1) (Nat.le_refl 1)
    hrep (fun _ _ hn _ => hn) fun _ _ => Nat.zero_le _⟩

end Vllm.SpecDecode
