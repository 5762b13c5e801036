import Mathlib.Tactic.Common

/-!
# Borders of the prefixes of a sequence

A border of the prefix of length `m` is a shorter prefix that is also its suffix. The sequence is a
function of the index, of which the first `m` values matter.
-/

namespace Vllm.Library

variable {β : Type} {t : Nat → β} {m v u cap : Nat} {w : Nat}

/-- The first `v` values end the first `m` values as well, and are fewer. -/
def Border (t : Nat → β) (m v : Nat) : Prop :=
  v < m ∧ ∀ j < v, t j = t (m - v + j)

theorem Border.zero (h : 0 < m) : Border t m 0 :=
  ⟨h, fun j hj => absurd hj (Nat.not_lt_zero j)⟩

theorem Border.trans (h : Border t m v) (h' : Border t v u) : Border t m u := by
  refine ⟨Nat.lt_trans h'.1 h.1, fun j hj => ?_⟩
  have hv := h.1
  have hu := h'.1
  rw [h'.2 j hj, h.2 _ (by omega)]
  congr 1
  omega

/-- The shorter of two borders is a border of the longer one. -/
theorem Border.of_lt (h : Border t m v) (h' : Border t m u) (hlt : u < v) : Border t v u := by
  refine ⟨hlt, fun j hj => ?_⟩
  have hv := h.1
  rw [h'.2 j hj, h.2 (v - u + j) (by omega)]
  congr 1
  omega

theorem border_succ_iff : Border t (m + 1) (v + 1) ↔ Border t m v ∧ t v = t m := by
  constructor
  · rintro ⟨hlt, heq⟩
    refine ⟨⟨by omega, fun j hj => ?_⟩, ?_⟩
    · rw [heq j (by omega), Nat.add_sub_add_right]
    · rw [heq v (Nat.lt_succ_self v), Nat.add_sub_add_right, Nat.sub_add_cancel (by omega)]
  · rintro ⟨⟨hlt, heq⟩, hlast⟩
    refine ⟨by omega, fun j hj => ?_⟩
    rw [Nat.add_sub_add_right]
    rcases Nat.lt_succ_iff_lt_or_eq.mp hj with hj | rfl
    · exact heq j hj
    · rw [hlast, Nat.sub_add_cancel (by omega)]

/-- The longest border of the prefix of length `m`. -/
def LongestBorder (t : Nat → β) (m v : Nat) : Prop :=
  Border t m v ∧ ∀ u, Border t m u → u ≤ v

/-- The borders of the prefix of length `m` that are shorter than `cap` and go on with the next
value are not longer than `v`, which is one of the shorter ones. -/
def ExtendsFrom (t : Nat → β) (cap m v : Nat) : Prop :=
  Border t m v ∧ v < cap ∧ ∀ u, Border t m u → u < cap → t u = t m → u ≤ v

namespace ExtendsFrom

variable (h : ExtendsFrom t cap m v)
include h

/-- On a match the border grows to the longest one up to the cap. -/
theorem grow (heq : t v = t m) :
    Border t (m + 1) (v + 1) ∧ ∀ u ≤ cap, Border t (m + 1) u → u ≤ v + 1 := by
  refine ⟨border_succ_iff.mpr ⟨h.1, heq⟩, fun u hu hb => ?_⟩
  cases u with
  | zero => exact Nat.zero_le _
  | succ u =>
    have hb := border_succ_iff.mp hb
    exact Nat.succ_le_succ (h.2.2 u hb.1 hu hb.2)

/-- Without a match the next border to try is the longest one of the border. -/
theorem fall (hne : t v ≠ t m) (hw : LongestBorder t v w) : ExtendsFrom t cap m w := by
  refine ⟨h.1.trans hw.1, Nat.lt_trans hw.1.1 h.2.1, fun u hu hcap heq => ?_⟩
  have hlt : u < v := Nat.lt_of_le_of_ne (h.2.2 u hu hcap heq) fun he => hne (he ▸ heq)
  exact hw.2 u (h.1.of_lt hu hlt)

/-- Without a match at the empty border there is no border up to the cap but the empty one. -/
theorem none_of_zero (hv : v = 0) (hne : t v ≠ t m) : ∀ u ≤ cap, Border t (m + 1) u → u = 0 := by
  intro u hu hb
  cases u with
  | zero => rfl
  | succ u =>
    have hb := border_succ_iff.mp hb
    have hle := h.2.2 u hb.1 hu hb.2
    obtain rfl : u = v := by omega
    exact absurd hb.2 hne

end ExtendsFrom

/-- The longest border up to the cap is where the next value is tried, unless it is the cap itself:
then it is the longest border of that. -/
theorem extendsFrom_of_longest (hb : Border t m v) (hmax : ∀ u ≤ cap, Border t m u → u ≤ v)
    (hw : v < cap ∧ w = v ∨ v = cap ∧ LongestBorder t v w) : ExtendsFrom t cap m w := by
  rcases hw with ⟨hlt, rfl⟩ | ⟨rfl, hw⟩
  · exact ⟨hb, hlt, fun u hu hcap _ => hmax u (Nat.le_of_lt hcap) hu⟩
  · exact ⟨hb.trans hw.1, hw.1.1, fun u hu hcap _ => hw.2 u (hb.of_lt hu hcap)⟩

end Vllm.Library
