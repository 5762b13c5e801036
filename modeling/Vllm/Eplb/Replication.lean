import Mathlib.Algebra.BigOperators.Fin
import Mathlib.Algebra.Order.BigOperators.Group.Finset
import Mathlib.Algebra.Order.Field.Rat

/-!
# Replication of experts

`DefaultEplbPolicy.replicate_experts` of `distributed/eplb/policy/default.py`, for one row of loads;
the rows of the matrix do not see each other. Every logical expert gets one replica, and each
further one goes to the expert with the largest load per replica.

The choice is made one replica at a time, but no other counts have a smaller maximum. An expert
with two replicas or more had the largest load per replica when it got its last one, and from then
on the maximum can only have fallen (`Greedy`). Other counts with the same sum are smaller than the
computed ones at some expert, and there they miss that last replica.
-/

namespace Vllm.Eplb

open Function Finset List

variable {numLog : Nat}

/-- `np.argmax(weight / logcnt)`, which fails without experts. -/
def redundantIndex (weight : Fin numLog → ℚ) (logcnt : Fin numLog → ℕ) : Option (Fin numLog) :=
  (List.finRange numLog).argmax fun i => weight i / logcnt i

/-- The body of the loop: one more replica. -/
def replicateOne (weight : Fin numLog → ℚ) (st : List (Fin numLog) × (Fin numLog → ℕ)) :
    Option (List (Fin numLog) × (Fin numLog → ℕ)) :=
  (redundantIndex weight st.2).map fun expert =>
    (st.1 ++ [expert], Function.update st.2 expert (st.2 expert + 1))

/-- The loop, for `count` more replicas. -/
def replicateLoop (weight : Fin numLog → ℚ) :
    Nat → Option (List (Fin numLog) × (Fin numLog → ℕ))
  | 0 => some (List.finRange numLog, fun _ => 1)
  | count + 1 => (replicateLoop weight count).bind (replicateOne weight)

/-- `replicate_experts`: `phy2log` and `logcnt`, or an exception. -/
def replicateExperts (weight : Fin numLog → ℚ) (numPhy : Nat) :
    Option (List (Fin numLog) × (Fin numLog → ℕ)) :=
  if numPhy < numLog then none else replicateLoop weight (numPhy - numLog)

/-- The largest load of a replica. -/
def maxLoad (weight : Fin numLog → ℚ) (counts : Fin numLog → ℕ) : ℚ :=
  univ.fold max 0 fun i => weight i / counts i

/-- No replica was given away below the loads that are left: before its last replica an expert had
at least the load per replica of every expert now. -/
structure Greedy (weight : Fin numLog → ℚ) (numPhy : Nat) (phy2log : List (Fin numLog))
    (logcnt : Fin numLog → ℕ) : Prop where
  pos : ∀ i, 0 < logcnt i
  sum : ∑ i, logcnt i = numPhy
  count : ∀ i, phy2log.count i = logcnt i
  last : ∀ i j, 1 < logcnt j → weight i / logcnt i ≤ weight j / (logcnt j - 1 : ℕ)

section Steps

variable {weight : Fin numLog → ℚ} (hweight : ∀ i, 0 ≤ weight i) {numPhy : Nat}
  {phy2log : List (Fin numLog)} {logcnt : Fin numLog → ℕ}

theorem greedy_init : Greedy weight numLog (List.finRange numLog) fun _ => 1 where
  pos _ := Nat.one_pos
  sum := by simp
  count i := count_eq_one_of_mem (nodup_finRange _) (mem_finRange i)
  last _ _ h := absurd h (Nat.lt_irrefl 1)

include hweight

theorem load_antitone (i : Fin numLog) {m n : ℕ} (hm : 0 < m) (hle : m ≤ n) :
    weight i / n ≤ weight i / m := by
  have hw := hweight i
  have hm' : (0 : ℚ) < m := Nat.cast_pos.mpr hm
  gcongr

/-- One more replica for an expert with the largest load keeps the choice greedy. -/
theorem Greedy.step (h : Greedy weight numPhy phy2log logcnt) {expert : Fin numLog}
    (hmax : ∀ i, weight i / logcnt i ≤ weight expert / logcnt expert) :
    Greedy weight (numPhy + 1) (phy2log ++ [expert])
      (update logcnt expert (logcnt expert + 1)) where
  pos i := by
    rcases eq_or_ne i expert with rfl | hne
    · simp
    · simpa [hne] using h.pos i
  sum := by
    rw [sum_update_of_mem (mem_univ expert), ← h.sum, ← add_sum_erase _ _ (mem_univ expert),
      sdiff_singleton_eq_erase]
    omega
  count i := by
    rcases eq_or_ne i expert with rfl | hne
    · simp [h.count]
    · simp [h.count, hne, hne.symm]
  last i j hj := by
    -- the loads fall at the expert only, and its load before is the one that is left out
    have hfall : weight i / (update logcnt expert (logcnt expert + 1) i : ℕ) ≤
        weight i / logcnt i := by
      rcases eq_or_ne i expert with rfl | hne
      · rw [update_self]
        exact load_antitone hweight i (h.pos i) (Nat.le_succ _)
      · rw [update_of_ne hne]
    refine hfall.trans ?_
    rcases eq_or_ne j expert with rfl | hne
    · rw [update_self]
      exact hmax i
    · rw [update_of_ne hne] at hj ⊢
      exact h.last i j hj

theorem replicateLoop_greedy {count : Nat} (hpos : count = 0 ∨ 0 < numLog) :
    ∃ phy2log logcnt, replicateLoop weight count = some (phy2log, logcnt) ∧
      Greedy weight (numLog + count) phy2log logcnt := by
  induction count with
  | zero => exact ⟨_, _, rfl, greedy_init⟩
  | succ count ih =>
    have hpos : 0 < numLog := hpos.resolve_left (Nat.succ_ne_zero _)
    obtain ⟨phy2log, logcnt, hrun, hgreedy⟩ := ih (.inr hpos)
    obtain ⟨expert, hexpert⟩ : ∃ expert, redundantIndex weight logcnt = some expert := by
      rw [← Option.ne_none_iff_exists', redundantIndex, Ne, argmax_eq_none]
      exact ne_nil_of_mem (mem_finRange ⟨0, hpos⟩)
    have hmax : ∀ i, weight i / logcnt i ≤ weight expert / logcnt expert :=
      fun i => le_of_mem_argmax (mem_finRange i) hexpert
    refine ⟨_, _, ?_, hgreedy.step hweight hmax⟩
    rw [replicateLoop, hrun, Option.bind_some, replicateOne, hexpert, Option.map_some]

/-- The exchange: counts with the same sum take the last replica from some expert. -/
theorem Greedy.maxLoad_le (h : Greedy weight numPhy phy2log logcnt) {counts : Fin numLog → ℕ}
    (hcounts : ∀ i, 0 < counts i) (hsum : ∑ i, counts i = numPhy) :
    maxLoad weight logcnt ≤ maxLoad weight counts := by
  by_cases hall : ∀ i, logcnt i ≤ counts i
  · have heq : ∀ i ∈ univ, logcnt i = counts i :=
      (sum_eq_sum_iff_of_le fun i _ => hall i).mp (h.sum.trans hsum.symm)
    rw [funext fun i => heq i (mem_univ i)]
  obtain ⟨j, hj⟩ := not_forall.mp hall
  have hlast : weight j / (logcnt j - 1 : ℕ) ≤ weight j / counts j :=
    load_antitone hweight j (hcounts j) (by omega)
  have htop : weight j / counts j ≤ maxLoad weight counts :=
    (le_fold_max _).mpr (.inr ⟨j, mem_univ j, le_rfl⟩)
  refine (fold_max_le _).mpr ⟨(le_fold_max _).mpr (.inl le_rfl), fun i _ => ?_⟩
  have hone := hcounts j
  exact (h.last i j (by omega)).trans (hlast.trans htop)

end Steps

/-- Counts are computed for every number of replicas that is not below the number of experts, unless
there are no experts to choose from. They are positive, sum up to the number of replicas, are listed
as often in `phy2log`, and no such counts have a smaller maximum. -/
theorem replicateExperts_optimal (weight : Fin numLog → ℚ) (hweight : ∀ i, 0 ≤ weight i)
    (numPhy : Nat) :
    ((replicateExperts weight numPhy).isSome ↔
      numLog ≤ numPhy ∧ (numLog = 0 → numPhy = 0)) ∧
    ∀ phy2log logcnt, replicateExperts weight numPhy = some (phy2log, logcnt) →
      (∀ i, phy2log.count i = logcnt i) ∧ ((∀ i, 0 < logcnt i) ∧ ∑ i, logcnt i = numPhy) ∧
      ∀ counts : Fin numLog → ℕ, (∀ i, 0 < counts i) → ∑ i, counts i = numPhy →
        maxLoad weight logcnt ≤ maxLoad weight counts := by
  by_cases hle : numLog ≤ numPhy
  · obtain ⟨count, rfl⟩ := Nat.exists_eq_add_of_le hle
    rw [replicateExperts, if_neg (by omega), Nat.add_sub_cancel_left]
    by_cases hpos : count = 0 ∨ 0 < numLog
    · obtain ⟨phy2log, logcnt, hrun, hgreedy⟩ := replicateLoop_greedy hweight hpos
      rw [hrun]
      refine ⟨by simp; omega, ?_⟩
      rintro _ _ ⟨⟩
      exact ⟨hgreedy.count, ⟨hgreedy.pos, hgreedy.sum⟩, fun _ => hgreedy.maxLoad_le hweight⟩
    · -- without experts the first search for a maximum fails
      obtain ⟨count, rfl⟩ := Nat.exists_eq_succ_of_ne_zero (not_or.mp hpos).1
      obtain rfl : numLog = 0 := by omega
      have hnone : replicateLoop weight (count + 1) = none := by
        simp [replicateLoop, replicateOne, redundantIndex]
      simp [hnone]
  · rw [replicateExperts]
    simp [hle]

/-- Loads 6, 1 and 2 with six replicas: the first expert gets all three of the rest, the last of
them by its index. -/
theorem replicateExperts_optimal_six :
    replicateExperts ![6, 1, 2] 6 = some ([0, 1, 2, 0, 0, 0], ![4, 1, 1]) ∧
      ∀ counts : Fin 3 → ℕ, (∀ i, 0 < counts i) → ∑ i, counts i = 6 →
        maxLoad ![6, 1, 2] ![4, 1, 1] ≤ maxLoad ![6, 1, 2] counts := by
  have hrun : replicateExperts ![6, 1, 2] 6 = some ([0, 1, 2, 0, 0, 0], ![4, 1, 1]) := by
    decide +kernel
  have hweight : ∀ i, (0 : ℚ) ≤ (![6, 1, 2] : Fin 3 → ℚ) i := by decide +kernel
  exact ⟨hrun, ((replicateExperts_optimal _ hweight 6).2 _ _ hrun).2.2⟩

end Vllm.Eplb
