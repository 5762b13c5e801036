/-!
# Reading up to a stop

`readUntil` reads a list with a state and stops at the first element that its state stops at.
`Passes s l s'` says that reading `l` from `s` meets no such element and ends in `s'`.
-/

namespace Vllm.Library

variable {σ α : Type} (step : σ → α → σ) (stop : σ → α → Bool)

/-- The state at the first stop, and what is left behind it. -/
def readUntil : σ → List α → Option (σ × List α)
  | _, [] => none
  | s, a :: l => if stop s a then some (s, l) else readUntil (step s a) l

inductive Passes : σ → List α → σ → Prop
  | nil {s : σ} : Passes s [] s
  | cons {s s' : σ} {a : α} {l : List α} :
      stop s a = false → Passes (step s a) l s' → Passes s (a :: l) s'

variable {step stop} {s s' s'' : σ} {a : α} {l l' : List α}

theorem Passes.single (h : stop s a = false) : Passes step stop s [a] (step s a) :=
  .cons h .nil

theorem Passes.append (h : Passes step stop s l s') (h' : Passes step stop s' l' s'') :
    Passes step stop s (l ++ l') s'' := by
  induction h with
  | nil => exact h'
  | cons hstop _ ih => exact .cons hstop (ih h')

theorem Passes.readUntil_append (h : Passes step stop s l s') :
    readUntil step stop s (l ++ l') = readUntil step stop s' l' := by
  induction h with
  | nil => rfl
  | cons hstop _ ih => rw [List.cons_append, readUntil, hstop, if_neg Bool.false_ne_true, ih]

theorem Passes.of_append (h : Passes step stop s (l ++ l') s') : ∃ s₁, Passes step stop s l s₁ := by
  induction l generalizing s with
  | nil => exact ⟨s, .nil⟩
  | cons a l ih =>
    cases h with
    | cons hstop h =>
      obtain ⟨s₁, h₁⟩ := ih h
      exact ⟨s₁, .cons hstop h₁⟩

theorem passes_of_readUntil (h : readUntil step stop s l = none) :
    ∃ s', Passes step stop s l s' := by
  induction l generalizing s with
  | nil => exact ⟨s, .nil⟩
  | cons a l ih =>
    rw [readUntil] at h
    split at h
    · cases h
    · obtain ⟨s', h'⟩ := ih h
      exact ⟨s', .cons (Bool.eq_false_iff.mpr ‹_›) h'⟩

theorem length_lt_of_readUntil {r : List α} (h : readUntil step stop s l = some (s', r)) :
    r.length < l.length := by
  induction l generalizing s with
  | nil => cases h
  | cons a l ih =>
    rw [readUntil] at h
    split at h
    · cases h
      exact Nat.lt_succ_self _
    · exact Nat.lt_succ_of_lt (ih h)

theorem readUntil_append {r : List α} (h : readUntil step stop s l = some (s', r)) :
    readUntil step stop s (l ++ l') = some (s', r ++ l') := by
  induction l generalizing s with
  | nil => cases h
  | cons a l ih =>
    rw [readUntil] at h
    rw [List.cons_append, readUntil]
    split at h
    · cases h
      rw [if_pos ‹_›]
    · rw [if_neg ‹_›, ih h]

end Vllm.Library
