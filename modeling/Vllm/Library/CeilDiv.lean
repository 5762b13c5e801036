/-!
# Division that rounds up

`cdiv a b` counts the pieces of size `b` that are needed to cover `a`.
-/

namespace Vllm.Library

/-- Round up division. -/
def cdiv (a b : Nat) : Nat := (a + b - 1) / b

variable {a b c : Nat}

section

variable (hb : 0 < b)
include hb

theorem cdiv_le_iff : cdiv a b ≤ c ↔ a ≤ c * b := by
  have h : a + b - 1 < (c + 1) * b ↔ a ≤ c * b := by
    rw [Nat.add_mul]
    omega
  rw [cdiv, ← h, ← Nat.div_lt_iff_lt_mul hb, Nat.lt_succ_iff]

theorem lt_cdiv_iff : c < cdiv a b ↔ c * b < a := by
  rw [← Nat.not_le, cdiv_le_iff hb, Nat.not_le]

theorem cdiv_mul_self (c : Nat) : cdiv (c * b) b = c := by
  refine Nat.le_antisymm ((cdiv_le_iff hb).mpr (Nat.le_refl _)) (Nat.le_of_not_lt fun h => ?_)
  exact Nat.lt_irrefl _ (Nat.lt_of_lt_of_le
    (Nat.mul_lt_mul_of_pos_right h hb) ((cdiv_le_iff hb).mp (Nat.le_refl _)))

theorem cdiv_eq_succ (hlo : c * b < a) (hhi : a ≤ (c + 1) * b) : cdiv a b = c + 1 :=
  Nat.le_antisymm ((cdiv_le_iff hb).mpr hhi) ((lt_cdiv_iff hb).mpr hlo)

theorem cdiv_mono {a' : Nat} (h : a ≤ a') : cdiv a b ≤ cdiv a' b :=
  (cdiv_le_iff hb).mpr (Nat.le_trans h ((cdiv_le_iff hb).mp (Nat.le_refl _)))

theorem div_le_cdiv : a / b ≤ cdiv a b :=
  Nat.div_le_div_right (by omega)

theorem cdiv_min_mul : cdiv (min a (c * b)) b = min (cdiv a b) c := by
  rcases Nat.le_total a (c * b) with h | h
  · rw [Nat.min_eq_left h, Nat.min_eq_left ((cdiv_le_iff hb).mpr h)]
  · rw [Nat.min_eq_right h, cdiv_mul_self hb, Nat.min_eq_right]
    exact cdiv_mul_self hb c ▸ cdiv_mono hb h

theorem cdiv_add_self : cdiv (a + b) b = cdiv a b + 1 := by
  rw [cdiv, cdiv, Nat.sub_add_comm (by omega), Nat.add_div_right _ hb]

/-- The padding up to the next multiple. -/
theorem cdiv_mul_eq (a : Nat) : cdiv a b * b = a + (b - a % b) % b := by
  have hdiv : a / b * b + a % b = a := Nat.div_add_mod' a b
  have hmod := Nat.mod_lt a hb
  rcases Nat.eq_zero_or_pos (a % b) with hzero | hpos
  · rw [hzero, Nat.sub_zero, Nat.mod_self, Nat.add_zero]
    have ha : a = a / b * b := by omega
    rw [ha, cdiv_mul_self hb]
  have hup : cdiv a b = a / b + 1 :=
    cdiv_eq_succ hb (by omega) (by rw [Nat.add_mul]; omega)
  rw [hup, Nat.mod_eq_of_lt (by omega), Nat.add_mul]
  omega

@[simp] theorem cdiv_zero : cdiv 0 b = 0 :=
  Nat.le_zero.mp ((cdiv_le_iff hb).mpr (Nat.zero_le _))

theorem max_cdiv_one : max (cdiv a b) 1 = cdiv (max a 1) b := by
  rcases Nat.eq_zero_or_pos a with rfl | ha
  · rw [cdiv_zero hb]
    exact (cdiv_eq_succ hb (by omega) (by omega)).symm
  · rw [Nat.max_eq_left ha, Nat.max_eq_left ((lt_cdiv_iff hb).mpr (by rwa [Nat.zero_mul]))]

/-- The pieces behind piece `c` that reach `a` further, counted and by their sizes. -/
theorem le_add_cdiv_iff {e : Nat} : e ≤ c + cdiv a b ↔ e * b < (c + 1) * b + a := by
  rcases Nat.lt_or_ge c e with hc | hc
  · obtain ⟨d, rfl⟩ := Nat.exists_eq_add_of_lt hc
    have hd : d < cdiv a b ↔ d * b < a := lt_cdiv_iff hb
    have hsplit : (c + d + 1) * b = (c + 1) * b + d * b := by
      rw [← Nat.add_mul]
      congr 1
      omega
    omega
  · have := Nat.mul_le_mul_right b hc
    rw [Nat.add_mul]
    omega

end

end Vllm.Library
