import Mathlib.Data.List.Sort

/-!
# Taking the least element of a bag

A heap is used as a bag from which the least element is taken. `popLeast` takes the
first element that no other is below; what stays is a permutation of the rest.
-/

namespace Vllm.Library

open List

variable {α : Type} {lt : α → α → Bool} {l rest : List α} {a : α} {β : Type}

def popLeast (lt : α → α → Bool) : List α → Option (α × List α)
  | [] => none
  | a :: l =>
    match popLeast lt l with
    | none => some (a, l)
    | some (b, rest) => if lt b a then some (b, a :: rest) else some (a, l)

theorem popLeast_perm (h : popLeast lt l = some (a, rest)) : (a :: rest).Perm l := by
  induction l generalizing a rest with
  | nil => cases h
  | cons b l ih =>
    unfold popLeast at h
    cases hpop : popLeast lt l with
    | none =>
      rw [hpop] at h
      cases h
      exact List.Perm.refl _
    | some popped =>
      rw [hpop] at h
      simp only at h
      split at h
      · cases h
        exact (List.Perm.swap _ _ _).trans ((ih hpop).cons b)
      · cases h
        exact List.Perm.refl _

theorem popLeast_eq_none : popLeast lt l = none ↔ l = [] := by
  cases l with
  | nil => exact ⟨fun _ => rfl, fun _ => rfl⟩
  | cons a l =>
    refine ⟨fun h => ?_, fun h => nomatch h⟩
    unfold popLeast at h
    split at h
    · cases h
    · split at h <;> exact nomatch h


/-- The element that is taken is below what stays, in the order that the test decides. -/
theorem popLeast_le [LinearOrder β] {f : α → β} (hlt : ∀ a b, lt a b = true ↔ f a < f b)
    (h : popLeast lt l = some (a, rest)) : ∀ b ∈ rest, f a ≤ f b := by
  induction l generalizing a rest with
  | nil => cases h
  | cons b l ih =>
    unfold popLeast at h
    cases hpop : popLeast lt l with
    | none =>
      rw [hpop] at h
      obtain ⟨rfl, rfl⟩ := Prod.mk.inj (Option.some.inj h)
      rw [popLeast_eq_none.mp hpop]
      exact nofun
    | some popped =>
      obtain ⟨c, rest'⟩ := popped
      rw [hpop] at h
      simp only at h
      split at h
      · next hbelow =>
        obtain ⟨rfl, rfl⟩ := Prod.mk.inj (Option.some.inj h)
        intro d hd
        cases hd with
        | head => exact ((hlt c b).mp hbelow).le
        | tail _ hd => exact ih hpop d hd
      · next hbelow =>
        obtain ⟨rfl, rfl⟩ := Prod.mk.inj (Option.some.inj h)
        have hle : f b ≤ f c := not_lt.mp fun hlt' => hbelow ((hlt c b).mpr hlt')
        intro d hd
        cases (popLeast_perm hpop).mem_iff.mpr hd with
        | head => exact hle
        | tail _ hd => exact hle.trans (ih hpop d hd)

/-- A part in increasing order that is below the others is the start of the sorted list. -/
theorem take_insertionSort_eq [LinearOrder β] {f : α → β} (hf : Function.Injective f)
    {s : List α} (hnodup : l.Nodup) (hsub : s ⊆ l) (hs : s.Pairwise fun a b => f a < f b)
    (hbelow : ∀ a ∈ s, ∀ b ∈ l, b ∉ s → f a ≤ f b) :
    (l.insertionSort fun a b => f a ≤ f b).take s.length = s := by
  classical
  let le : α → α → Prop := fun a b => f a ≤ f b
  let rest := (l.filter (· ∉ s)).insertionSort le
  have hperm : (s ++ rest).Perm l := by
    have hrest : rest.Perm (l.filter (· ∉ s)) := perm_insertionSort _ _
    have hsnodup : s.Nodup := hs.imp fun hab heq => (heq ▸ hab).ne rfl
    have hpart : (l.filter (· ∈ s)).Perm s := by
      refine (perm_ext_iff_of_nodup (hnodup.filter _) hsnodup).mpr fun a => ?_
      rw [mem_filter, decide_eq_true_eq]
      exact ⟨And.right, fun ha => ⟨hsub ha, ha⟩⟩
    refine (hpart.symm.append hrest).trans ?_
    simpa using filter_append_perm (· ∈ s) l
  have hsorted : (s ++ rest).Pairwise le := by
    refine pairwise_append.mpr ⟨hs.imp fun hab => le_of_lt hab,
      pairwise_insertionSort le _, fun a ha b hb => ?_⟩
    obtain ⟨hb, hout⟩ := mem_filter.mp ((mem_insertionSort le).mp hb)
    exact hbelow a ha b hb (of_decide_eq_true hout)
  have heq : l.insertionSort le = s ++ rest := by
    refine List.Perm.eq_of_pairwise ?_ (pairwise_insertionSort le l) hsorted
      ((perm_insertionSort le l).trans hperm.symm)
    intro a b _ _ hab hba
    exact hf (le_antisymm hab hba)
  show (l.insertionSort le).take s.length = s
  rw [heq, take_left']
  rfl

end Vllm.Library
