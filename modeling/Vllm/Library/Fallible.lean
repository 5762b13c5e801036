import Mathlib.Algebra.BigOperators.Group.List.Basic
import Mathlib.Data.List.Induction

/-!
# Fallible computations

Rules for computations in `Except`: when a sequence of steps succeeds, what a loop
keeps and why it ends (`loop`), and what holds along every run of steps that meet a
guard (`Reaches`).
-/

namespace Vllm.Library

open List

variable {ε α β σ : Type} {x : Except ε α} {f : σ → β → Except ε σ} {b : β} {P : σ → Prop}
  {l : List α} {s s' : σ} {l' : List β} {R : α → β → Prop}

theorem bind_eq_ok {f : α → Except ε β} : x.bind f = .ok b ↔ ∃ a, x = .ok a ∧ f a = .ok b := by
  cases x with
  | error e => simp [Except.bind]
  | ok a => simp [Except.bind]

theorem map_eq_ok {f : α → β} : x.map f = .ok b ↔ ∃ a, x = .ok a ∧ f a = b := by
  cases x with
  | error e => simp [Except.map]
  | ok a => simp [Except.map]

theorem map_eq_error {f : α → β} {e : ε} : x.map f = .error e ↔ x = .error e := by
  cases x with
  | error e' => simp [Except.map]
  | ok a => simp [Except.map]

theorem bind_ne_error {e : ε} {f : α → Except ε β} (hx : x ≠ .error e)
    (hf : ∀ a, x = .ok a → f a ≠ .error e) : x.bind f ≠ .error e := by
  cases x with
  | error e' => exact fun h => hx (congrArg Except.error (Except.error.inj h))
  | ok a => exact hf a rfl

/-- What each step of a loop keeps, the loop keeps. -/
theorem foldlM_ok_induct {l : List β}
    (hstep : ∀ b ∈ l, ∀ s s', P s → f s b = .ok s' → P s') (hinit : P s)
    (h : l.foldlM f s = .ok s') : P s' := by
  induction l generalizing s with
  | nil =>
    cases h
    exact hinit
  | cons b l ih =>
    obtain ⟨s₁, hs₁, h⟩ := bind_eq_ok.mp h
    exact ih (fun c hc => hstep c (mem_cons_of_mem b hc))
      (hstep b mem_cons_self s s₁ hinit hs₁) h

/-- A loop that is followed by a second value: what each step keeps of the pair, the loop
keeps. -/
theorem foldlM_ok_follow {τ : Type} {P : σ → τ → Prop} {g : τ → β → τ} {l : List β} {t : τ}
    (hstep : ∀ b ∈ l, ∀ s s' t, P s t → f s b = .ok s' → P s' (g t b)) (hinit : P s t)
    (h : l.foldlM f s = .ok s') : P s' (l.foldl g t) := by
  induction l generalizing s t with
  | nil =>
    cases h
    exact hinit
  | cons b l ih =>
    obtain ⟨s₁, hb, hl⟩ := bind_eq_ok.mp h
    exact ih (fun b hb => hstep b (mem_cons_of_mem _ hb))
      (hstep b mem_cons_self s s₁ t hinit hb) hl

/-- A loop whose steps all succeed succeeds, and keeps what they keep. -/
theorem foldlM_total {l : List β}
    (hstep : ∀ b ∈ l, ∀ s, P s → ∃ s', f s b = .ok s' ∧ P s') (hinit : P s) :
    ∃ s', l.foldlM f s = .ok s' ∧ P s' := by
  induction l generalizing s with
  | nil => exact ⟨s, rfl, hinit⟩
  | cons b l ih =>
    obtain ⟨s₁, hb, hs₁⟩ := hstep b mem_cons_self s hinit
    obtain ⟨s₂, hl, hs₂⟩ := ih (fun b hb => hstep b (mem_cons_of_mem _ hb)) hs₁
    refine ⟨s₂, ?_, hs₂⟩
    rw [foldlM_cons, hb]
    exact hl

/-- A loop raises what one of its steps raises, and nothing else. -/
theorem foldlM_ne_error {e : ε} {P : List β → σ → Prop} {l : List β}
    (hstep : ∀ b l s, P (b :: l) s → f s b ≠ .error e ∧ ∀ s', f s b = .ok s' → P l s')
    (hinit : P l s) : l.foldlM f s ≠ .error e := by
  induction l generalizing s with
  | nil => exact nofun
  | cons b l ih =>
    obtain ⟨hb, hnext⟩ := hstep b l s hinit
    exact bind_ne_error hb fun s₁ hs₁ => ih (hnext s₁ hs₁)

/-- What each step of a loop keeps, given what was done before, the loop keeps. -/
theorem foldlM_ok_prefix {P : List β → σ → Prop} {l : List β}
    (hstep : ∀ done b rest, l = done ++ b :: rest → ∀ s s', P done s → f s b = .ok s' →
      P (done ++ [b]) s')
    (hinit : P [] s) (h : l.foldlM f s = .ok s') : P l s' := by
  suffices hgen : ∀ rest done s, l = done ++ rest → P done s →
      rest.foldlM f s = .ok s' → P l s' from
    hgen l [] s rfl hinit h
  intro rest
  induction rest with
  | nil =>
    intro done s hl hP hok
    cases hok
    rwa [hl, append_nil]
  | cons b rest ih =>
    intro done s hl hP hok
    obtain ⟨s₁, hb, hok⟩ := bind_eq_ok.mp hok
    refine ih (done ++ [b]) s₁ ?_ (hstep done b rest hl s s₁ hP hb) hok
    rw [hl, append_assoc, singleton_append]

/-- A loop whose steps succeed under a guard on what was done before. -/
theorem foldlM_guarded {P : List β → σ → Prop} {G : List β → β → Prop}
    {l : List β} (hstep : ∀ done b rest, l = done ++ b :: rest → ∀ s, P done s →
      ((∃ s', f s b = .ok s') ↔ G done b) ∧ ∀ s', f s b = .ok s' → P (done ++ [b]) s')
    (hinit : P [] s) :
    ((∃ s', l.foldlM f s = .ok s') ↔ ∀ done b rest, l = done ++ b :: rest → G done b) ∧
      ∀ s', l.foldlM f s = .ok s' → P l s' := by
  -- along the list, with the part that was done kept beside the state
  suffices h : ∀ rest done s, l = done ++ rest → P done s →
      ((∃ s', rest.foldlM f s = .ok s') ↔
        ∀ d b r, rest = d ++ b :: r → G (done ++ d) b) ∧
      ∀ s', rest.foldlM f s = .ok s' → P l s' from h l [] s rfl hinit
  intro rest
  induction rest with
  | nil =>
    intro done s hl hP
    refine ⟨⟨fun _ d b r h => ?_, fun _ => ⟨s, rfl⟩⟩, fun s' h => ?_⟩
    · simp at h
    · cases h
      rwa [hl, append_nil]
  | cons b rest ih =>
    intro done s hl hP
    obtain ⟨hiff, hnext⟩ := hstep done b rest hl s hP
    have hl' : l = (done ++ [b]) ++ rest := by rw [hl, append_assoc, singleton_append]
    refine ⟨⟨?_, fun hguard => ?_⟩, fun s' h => ?_⟩
    · rintro ⟨s', h⟩ d c r hsplit
      obtain ⟨s₁, hb, h⟩ := bind_eq_ok.mp h
      cases d with
      | nil =>
        cases hsplit
        rw [append_nil]
        exact hiff.mp ⟨s₁, hb⟩
      | cons x d =>
        cases hsplit
        have := (ih _ s₁ hl' (hnext s₁ hb)).1.mp ⟨s', h⟩ d c r rfl
        rwa [append_assoc, singleton_append] at this
    · obtain ⟨s₁, hb⟩ := hiff.mpr (by simpa using hguard [] b rest rfl)
      obtain ⟨s', h⟩ := (ih _ s₁ hl' (hnext s₁ hb)).1.mpr fun d c r hsplit => by
        rw [append_assoc]
        exact hguard (b :: d) c r (by rw [hsplit, cons_append])
      refine ⟨s', ?_⟩
      rw [foldlM_cons, hb]
      exact h
    · obtain ⟨s₁, hb, h⟩ := bind_eq_ok.mp h
      exact (ih _ s₁ hl' (hnext s₁ hb)).2 s' h

theorem mapM_eq_ok {f : α → Except ε β} {g : α → β} (h : ∀ a ∈ l, f a = .ok (g a)) :
    l.mapM f = .ok (l.map g) := by
  induction l with
  | nil => rfl
  | cons a l ih =>
    rw [mapM_cons, h a mem_cons_self, ih fun b hb => h b (mem_cons_of_mem a hb)]
    rfl

theorem mapM_ok_iff {f : α → Except ε β} :
    l.mapM f = .ok l' ↔ List.Forall₂ (fun a b => f a = .ok b) l l' := by
  induction l generalizing l' with
  | nil =>
    rw [forall₂_nil_left_iff]
    exact ⟨fun h => (Except.ok.inj h).symm, fun h => by rw [h]; rfl⟩
  | cons a l ih =>
    rw [mapM_cons, forall₂_cons_left_iff]
    constructor
    · intro h
      obtain ⟨b, hb, h⟩ := bind_eq_ok.mp h
      obtain ⟨rest, hrest, h⟩ := bind_eq_ok.mp h
      exact ⟨b, rest, hb, ih.mp hrest, (Except.ok.inj h).symm⟩
    · rintro ⟨b, rest, hb, hrest, rfl⟩
      rw [hb, ih.mpr hrest]
      rfl

theorem mapM_total {f : α → Except ε β} (h : ∀ a ∈ l, ∃ b, f a = .ok b) :
    ∃ l', l.mapM f = .ok l' := by
  induction l with
  | nil => exact ⟨[], rfl⟩
  | cons a l ih =>
    obtain ⟨b, hb⟩ := h a mem_cons_self
    obtain ⟨l', hl'⟩ := ih fun a ha => h a (mem_cons_of_mem _ ha)
    refine ⟨b :: l', ?_⟩
    rw [mapM_cons, hb, hl']
    rfl

theorem exists_related (h : List.Forall₂ R l l') (hb : b ∈ l') : ∃ a ∈ l, R a b := by
  induction h with
  | nil => exact (not_mem_nil hb).elim
  | cons hrel _ ih =>
    rcases mem_cons.mp hb with rfl | hb
    · exact ⟨_, mem_cons_self, hrel⟩
    · obtain ⟨a, ha, hrel⟩ := ih hb
      exact ⟨a, mem_cons_of_mem _ ha, hrel⟩

/-! ## Loops -/

section Loops

/-- How a pass of a loop ends. -/
inductive Next (σ : Type)
  | again (s : σ)
  | done (s : σ)

def Next.state : Next σ → σ
  | .again s | .done s => s

/-- A loop with at most `fuel` passes. -/
def loop (body : σ → Except ε (Next σ)) : Nat → σ → Except ε σ
  | 0, s => .ok s
  | fuel + 1, s => (body s).bind fun
    | .again s => loop body fuel s
    | .done s => .ok s

variable {body : σ → Except ε (Next σ)} {fuel : Nat} {s s' : σ}

/-- A loop whose passes all succeed succeeds, and keeps what they keep. -/
theorem loop_total (hbody : ∀ s, P s → ∃ next, body s = .ok next ∧ P next.state)
    (hinit : P s) : ∃ s', loop body fuel s = .ok s' ∧ P s' := by
  induction fuel generalizing s with
  | zero => exact ⟨s, rfl, hinit⟩
  | succ fuel ih =>
    obtain ⟨next, hnext, hP⟩ := hbody s hinit
    unfold loop
    rw [hnext]
    cases next with
    | again s₁ => exact ih hP
    | done s₁ => exact ⟨s₁, rfl, hP⟩

/-- A loop succeeds if its passes succeed from what the passes before the last one keep. -/
theorem loop_ok (hbody : ∀ s, P s → ∃ next, body s = .ok next ∧ ∀ s', next = .again s' → P s')
    (hinit : P s) : ∃ s', loop body fuel s = .ok s' := by
  induction fuel generalizing s with
  | zero => exact ⟨s, rfl⟩
  | succ fuel ih =>
    obtain ⟨next, hnext, hP⟩ := hbody s hinit
    unfold loop
    rw [hnext]
    cases next with
    | again s₁ => exact ih (hP s₁ rfl)
    | done s₁ => exact ⟨s₁, rfl⟩

/-- With a measure that each further pass lowers, the loop ends because a pass ends it
and not because the fuel is used up, and that pass starts with what the others keep. -/
theorem loop_done (measure : σ → Nat)
    (hagain : ∀ s s', P s → body s = .ok (.again s') → P s' ∧ measure s' < measure s)
    (hinit : P s) (hfuel : measure s < fuel) (h : loop body fuel s = .ok s') :
    ∃ s₁, P s₁ ∧ body s₁ = .ok (.done s') := by
  induction fuel generalizing s with
  | zero => exact absurd hfuel (Nat.not_lt_zero _)
  | succ fuel ih =>
    obtain ⟨next, hnext, h⟩ := bind_eq_ok.mp h
    cases next with
    | again s₁ =>
      obtain ⟨hP, hlt⟩ := hagain s s₁ hinit hnext
      exact ih hP (by omega) h
    | done s₁ =>
      cases h
      exact ⟨s, hinit, hnext⟩

end Loops

/-! ## Guarded runs -/

section Runs

variable {allowed : σ → α → Prop} {exec : σ → α → Except ε σ} {s s' s'' : σ}

/-- What steps that are allowed reach. -/
inductive Reaches (allowed : σ → α → Prop) (exec : σ → α → Except ε σ) (s : σ) : σ → Prop
  | refl : Reaches allowed exec s s
  | step {s₁ s₂ : σ} {a : α} : Reaches allowed exec s s₁ → allowed s₁ a → exec s₁ a = .ok s₂ →
      Reaches allowed exec s s₂

namespace Reaches

/-- What each allowed step keeps holds in every state that is reached. -/
theorem invariant (h : Reaches allowed exec s s') (hinit : P s)
    (hstep : ∀ s a s', P s → allowed s a → exec s a = .ok s' → P s') : P s' := by
  induction h with
  | refl => exact hinit
  | step _ hallowed hexec ih => exact hstep _ _ _ ih hallowed hexec

theorem mono {allowed' : σ → α → Prop} (h : Reaches allowed exec s s')
    (himp : ∀ s a, allowed s a → allowed' s a) : Reaches allowed' exec s s' := by
  induction h with
  | refl => exact .refl
  | step _ hallowed hexec ih => exact ih.step (himp _ _ hallowed) hexec

/-- A list of steps that passes a check of the guard. -/
theorem of_foldlM {check : σ → α → Bool} {e : ε}
    (hcheck : ∀ a ∈ l, ∀ s, check s a = true → allowed s a)
    (h : l.foldlM (fun s a => if check s a then exec s a else .error e) s = .ok s') :
    Reaches allowed exec s s' := by
  refine foldlM_ok_induct (P := Reaches allowed exec s) (fun a ha s₁ s₂ hs₁ hs₂ => ?_) .refl h
  split at hs₂
  · next hpass => exact hs₁.step (hcheck a ha s₁ hpass) hs₂
  · cases hs₂

end Reaches

end Runs

end Vllm.Library
