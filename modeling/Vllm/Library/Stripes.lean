import Mathlib.Algebra.BigOperators.Group.Finset.Piecewise
import Mathlib.Data.Nat.Count

/-!
# Striping

Positions are dealt to `w` owners in turns of `s` positions. Among the positions of one owner the
place of a position is the number of them below it.
-/

namespace Vllm.Library

variable {s w r p n : Nat}

def owner (s w p : Nat) : Nat := p / s % w

/-- The positions of `r` below `n`: whole rounds, and its part of the last one. -/
def owned (s w r n : Nat) : Nat := n / (s * w) * s + min (n % (s * w) - r * s) s

theorem count_surjective {mine : Nat → Prop} [DecidablePred mine] {j : Nat}
    (h : j < Nat.count mine n) : ∃ m < n, mine m ∧ Nat.count mine m = j := by
  induction n with
  | zero => simp at h
  | succ n ih =>
    cases Nat.lt_or_ge j (Nat.count mine n) with
    | inl hlt =>
      obtain ⟨m, hm, found⟩ := ih hlt
      exact ⟨m, by omega, found⟩
    | inr hge =>
      rw [Nat.count_succ] at h
      split at h
      · exact ⟨n, by omega, by assumption, by omega⟩
      · omega

section

variable (hs : 0 < s)
include hs

theorem owner_eq_iff : owner s w p = r ↔ r * s ≤ p % (s * w) ∧ p % (s * w) < r * s + s := by
  rw [owner, ← Nat.mod_mul_right_div_self, Nat.div_eq_iff hs]
  omega

/-- A turn ends inside the round or with it. -/
theorem owned_succ (hr : r < w) :
    owned s w r (n + 1) = owned s w r n + if owner s w n = r then 1 else 0 := by
  have turn : r * s + s ≤ s * w := by
    rw [← Nat.succ_mul, Nat.mul_comm s w]
    exact Nat.mul_le_mul_right s hr
  have inside := Nat.mod_lt n (show 0 < s * w by omega)
  have parts := Nat.mod_add_div n (s * w)
  simp only [owned, owner_eq_iff hs]
  cases Nat.lt_or_ge (n % (s * w) + 1) (s * w) with
  | inl hlt =>
    obtain ⟨hdiv, hmod⟩ := (Nat.div_mod_unique (by omega) (a := n + 1)
      (d := n / (s * w))).2 ⟨by omega, hlt⟩
    rw [hdiv]
    split <;> omega
  | inr hge =>
    obtain ⟨hdiv, hmod⟩ := (Nat.div_mod_unique (by omega) (a := n + 1) (b := s * w) (c := 0)
      (d := n / (s * w) + 1)).2 ⟨by rw [Nat.mul_add]; omega, by omega⟩
    rw [hdiv, Nat.add_mul]
    split <;> omega

theorem count_owner {mine : Nat → Prop} [DecidablePred mine] (hr : r < w)
    (hmine : ∀ p, mine p ↔ owner s w p = r) : Nat.count mine n = owned s w r n := by
  induction n with
  | zero => simp [owned]
  | succ n ih =>
    rw [Nat.count_succ, ih, owned_succ hs hr]
    simp only [hmine]

/-- Whole rounds come before the round of `p`, and in it the positions of the turn before `p`. -/
theorem owned_owner (w p : Nat) : owned s w (owner s w p) p = p / (s * w) * s + p % s := by
  obtain ⟨hlo, hhi⟩ := (owner_eq_iff hs).1 rfl
  rw [Nat.mul_comm (owner s w p) s] at hlo hhi
  have turn : p % s = p % (s * w) - s * owner s w p := by
    rw [← Nat.mod_mul_right_mod p s w, ← Nat.sub_mul_mod hlo]
    exact Nat.mod_eq_of_lt (by omega)
  rw [owned, Nat.mul_comm (owner s w p) s]
  omega

theorem sum_owned (hw : 0 < w) : ∑ r ∈ Finset.range w, owned s w r n = n := by
  induction n with
  | zero => simp [owned]
  | succ n ih =>
    have one : ∑ r ∈ Finset.range w, (if owner s w n = r then 1 else 0) = 1 := by
      have mem : owner s w n ∈ Finset.range w := Finset.mem_range.2 (Nat.mod_lt _ hw)
      rw [Finset.sum_ite_eq, if_pos mem]
    rw [Finset.sum_congr rfl fun r hr => owned_succ hs (Finset.mem_range.1 hr),
      Finset.sum_add_distrib, ih, one]

end

end Vllm.Library
