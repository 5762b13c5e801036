import Vllm.DataParallel.Waves
import Vllm.Library.Fallible

/-!
# Agreement on waves

The number of an engine's wave is the number of all-reduces it has left with the result that
nothing is unfinished. Since an all-reduce is left only after all engines have entered it,
an engine outside an all-reduce is at the latest wave. `Inv` adds what the messages on their
way stand for; `waves_agree` follows when there are none.
-/

namespace Vllm.DataParallel

open Library List

variable {n : Nat} {k wave : Nat} {e : Engine n}

/-! ## Rounds -/

/-- How many all-reduces the engine has left. -/
def Engine.left (e : Engine n) : Nat :=
  if e.pc = .reducing then e.entries.length - 1 else e.entries.length

/-- How many of the first `k` all-reduces have ended a wave. -/
def State.waveAt (s : State n) (k : Nat) : Nat :=
  (List.range k).countP fun round => !s.reduced round

theorem State.waveAt_mono (s : State n) {k' : Nat} (h : k ≤ k') : s.waveAt k ≤ s.waveAt k' :=
  List.Sublist.countP_le (range_sublist.2 h)

theorem State.waveAt_succ (s : State n) (k : Nat) :
    s.waveAt (k + 1) = s.waveAt k + if s.reduced k then 0 else 1 := by
  simp only [waveAt, range_succ, countP_append, countP_singleton,
    Bool.not_eq_eq_eq_not, Bool.not_true]
  cases s.reduced k <;> rfl

/-- Rounds that every engine has entered keep their result. -/
theorem State.waveAt_congr {s s' : State n}
    (h : ∀ j, ∀ round < k, (s'.engines j).entries[round]? = (s.engines j).entries[round]?) :
    s'.waveAt k = s.waveAt k := by
  refine countP_congr fun round hround => ?_
  have hlt : round < k := mem_range.1 hround
  simp only [reduced, h _ round hlt]

/-! ## The invariant -/

/-- The engine takes part in the wave, or is past it. -/
def Engine.Joined (e : Engine n) (wave : Nat) : Prop :=
  wave < e.currentWave ∨ (wave = e.currentWave ∧ e.enginesRunning = true)

theorem Engine.Joined.le (h : e.Joined wave) : wave ≤ e.currentWave := by
  rcases h with h | h
  · exact Nat.le_of_lt h
  · exact Nat.le_of_eq h.1

/-- What an engine knows by itself, and what its messages say of it. -/
structure Engine.Ok (e : Engine n) : Prop where
  idle : e.enginesRunning = false → e.unfinished = 0 ∧ (e.pc = .waiting ∨ e.pc = .stepping false)
  entry : e.pc = .reducing → e.entries.getLast? = some (decide (0 < e.unfinished))
  startWave : ∀ wave, .startWave wave ∈ e.outputQueue → e.Joined wave
  waveComplete : ∀ wave, .waveComplete wave ∈ e.outputQueue → wave < e.currentWave

/-- The engine will hear of the wave. -/
def Engine.Told (e : Engine n) (i : Fin n) (wave : Nat) : Prop :=
  ∃ x, x ≠ i ∧ (wave, x) ∈ e.startMessages

/-- The coordinator has not acted on the wave yet. -/
def Coordinator.Unaware (c : Coordinator) (wave : Nat) : Prop :=
  c.currentWave < wave ∨ (c.currentWave = wave ∧ c.enginesRunning = false)

theorem Coordinator.le_of_aware {c : Coordinator} (h : ¬c.Unaware wave) : wave ≤ c.currentWave :=
  Nat.le_of_not_lt fun hlt => h (Or.inl hlt)

structure Inv (s : State n) : Prop where
  entered : ∀ i j, (s.engines i).left ≤ (s.engines j).entries.length
  wave : ∀ i, (s.engines i).currentWave = s.waveAt (s.engines i).left
  engine : ∀ i, (s.engines i).Ok
  reached : s.coordinator.currentWave = 0 ∨
    ∃ i, s.coordinator.currentWave ≤ (s.engines i).currentWave
  published : ∀ wave ∈ s.published, wave ≤ s.coordinator.currentWave
  started : ∀ i wave x, (wave, x) ∈ (s.engines i).startMessages →
    ¬s.coordinator.Unaware wave
  announced : s.coordinator.enginesRunning = true → ∀ i,
    (s.engines i).Joined s.coordinator.currentWave ∨
      (s.engines i).Told i s.coordinator.currentWave
  pending : ∀ i, (s.engines i).enginesRunning = true →
    s.coordinator.Unaware (s.engines i).currentWave →
      ∃ x, .startWave (s.engines i).currentWave ∈ (s.engines x).outputQueue

variable {s s' : State n} {i : Fin n} {executed : Bool} {message : Output}
  {e' : Engine n}

section

variable (hinv : Inv s)
include hinv

/-- An engine outside an all-reduce is at the latest wave. -/
theorem Inv.wave_le (hpc : (s.engines i).pc ≠ .reducing) (j : Fin n) :
    (s.engines j).currentWave ≤ (s.engines i).currentWave := by
  have hleft : (s.engines i).left = (s.engines i).entries.length := if_neg hpc
  rw [hinv.wave i, hinv.wave j, hleft]
  exact s.waveAt_mono (hinv.entered j i)

theorem Inv.coordinator_le (hpc : (s.engines i).pc ≠ .reducing) :
    s.coordinator.currentWave ≤ (s.engines i).currentWave := by
  rcases hinv.reached with hzero | ⟨j, hj⟩
  · omega
  · exact Nat.le_trans hj (hinv.wave_le hpc j)

/-! ## Steps of an engine -/

/-- An engine that takes a step by itself. -/
theorem Inv.of_engine (hentries : (s.engines i).entries <+: e.entries)
    (hleft : ∀ j, e.left ≤ (s.engines j).entries.length)
    (hwave : e.currentWave = s.waveAt e.left)
    (hforward : (s.engines i).currentWave ≤ e.currentWave) (hok : e.Ok)
    (hjoined : ∀ wave, (s.engines i).Joined wave → e.Joined wave)
    (houtput : ∀ message ∈ (s.engines i).outputQueue, message ∈ e.outputQueue)
    (hstarted : ∀ message ∈ e.startMessages, message ∈ (s.engines i).startMessages)
    (htold : ∀ wave, (s.engines i).Told i wave → e.Told i wave ∨ e.Joined wave)
    (hpending : e.enginesRunning = true → s.coordinator.Unaware e.currentWave →
      (∃ x, .startWave e.currentWave ∈ (s.engines x).outputQueue) ∨
        .startWave e.currentWave ∈ e.outputQueue) :
    Inv (s.setEngine i e) := by
  have hgrow : ∀ j, (s.engines j).entries <+: ((s.setEngine i e).engines j).entries :=
    fun j => State.setEngine_cases j hentries fun _ _ => prefix_rfl
  have hround : ∀ {k : Nat}, (∀ j, k ≤ (s.engines j).entries.length) →
      (s.setEngine i e).waveAt k = s.waveAt k := by
    intro k hk
    refine State.waveAt_congr fun j round hlt => ?_
    obtain ⟨rest, hrest⟩ := hgrow j
    rw [← hrest, getElem?_append_left (Nat.lt_of_lt_of_le hlt (hk j))]
  have hmessage : ∀ {message : Output}, (∃ x, message ∈ (s.engines x).outputQueue) →
      ∃ x, message ∈ ((s.setEngine i e).engines x).outputQueue := by
    rintro message ⟨x, hx⟩
    refine ⟨x, ?_⟩
    revert hx
    exact State.setEngine_cases x (houtput message) fun _ _ hx => hx
  refine ⟨fun j j' => ?_, fun j => ?_, fun j => ?_, ?_, hinv.published, fun j => ?_,
    fun hrunning j => ?_, fun j => ?_⟩
  · refine Nat.le_trans ?_ (hgrow j').length_le
    exact State.setEngine_cases j (hleft j') fun j _ => hinv.entered j j'
  · refine State.setEngine_cases j ?_ fun j _ => ?_
    · rw [hround hleft]
      exact hwave
    · rw [hround (hinv.entered j)]
      exact hinv.wave j
  · exact State.setEngine_cases j hok fun j _ => hinv.engine j
  · refine hinv.reached.imp id fun ⟨j, hj⟩ => ⟨j, ?_⟩
    revert hj
    exact State.setEngine_cases j (fun hj => Nat.le_trans hj hforward) fun _ _ hj => hj
  · exact State.setEngine_cases j (fun wave x h => hinv.started i wave x (hstarted _ h))
      fun j _ => hinv.started j
  · refine State.setEngine_cases j ?_ fun j _ => hinv.announced hrunning j
    rcases hinv.announced hrunning i with hjoin | htell
    · exact Or.inl (hjoined _ hjoin)
    · exact (htold _ htell).symm
  · refine State.setEngine_cases j (fun hrunning hunaware => ?_) fun j _ hrunning hunaware => ?_
    · rcases hpending hrunning hunaware with h | h
      · exact hmessage h
      · exact ⟨i, by rwa [State.setEngine_self]⟩
    · exact hmessage (hinv.pending j hrunning hunaware)

/-- An engine that neither enters nor leaves an all-reduce. -/
theorem Inv.of_local (hentries : e.entries = (s.engines i).entries)
    (hpc : e.pc = .reducing ↔ (s.engines i).pc = .reducing)
    (hwave : e.currentWave = (s.engines i).currentWave) (hok : e.Ok)
    (hrunning : (s.engines i).enginesRunning = true → e.enginesRunning = true)
    (houtput : ∀ message ∈ (s.engines i).outputQueue, message ∈ e.outputQueue)
    (hstarted : ∀ message ∈ e.startMessages, message ∈ (s.engines i).startMessages)
    (htold : ∀ wave, (s.engines i).Told i wave → e.Told i wave ∨ e.Joined wave)
    (hpending : e.enginesRunning = true → (s.engines i).enginesRunning = true ∨
      .startWave e.currentWave ∈ e.outputQueue ∨ ¬s.coordinator.Unaware e.currentWave) :
    Inv (s.setEngine i e) := by
  have hleft : e.left = (s.engines i).left := by
    unfold Engine.left
    rw [hentries]
    exact if_congr hpc rfl rfl
  refine hinv.of_engine ⟨[], (append_nil _).trans hentries.symm⟩
    (fun j => by rw [hleft]; exact hinv.entered i j) (by rw [hleft, hwave]; exact hinv.wave i)
    (Nat.le_of_eq hwave.symm) hok (fun wave h => ?_) houtput hstarted htold fun hrun hunaware => ?_
  · refine h.imp (fun h => by rw [hwave]; exact h) fun ⟨h, hr⟩ => ?_
    exact ⟨by rw [hwave]; exact h, hrunning hr⟩
  · rcases hpending hrun with h | h | h
    · rw [hwave] at hunaware ⊢
      exact Or.inl (hinv.pending i h hunaware)
    · exact Or.inr h
    · exact absurd hunaware h

theorem addRequest_inv (hpc : (s.engines i).pc = .waiting)
    (hwave : wave ∈ s.published) : Inv (s.setEngine i ((s.engines i).addRequest wave)) := by
  have houtside : (s.engines i).pc ≠ .reducing := by rw [hpc]; exact nofun
  have hmax : max (s.engines i).currentWave wave = (s.engines i).currentWave :=
    Nat.max_eq_left (Nat.le_trans (hinv.published wave hwave) (hinv.coordinator_le houtside))
  obtain ⟨hidle, hentry, hstart, hcomplete⟩ := hinv.engine i
  cases hrunning : (s.engines i).enginesRunning with
  | true =>
    have he : (s.engines i).addRequest wave =
        { s.engines i with unfinished := (s.engines i).unfinished + 1 } := by
      simp only [Engine.addRequest, hmax, hrunning, if_true]
    rw [he]
    refine hinv.of_local rfl Iff.rfl rfl
      ⟨fun h => ?_, fun h => absurd h houtside, hstart, hcomplete⟩
      id (fun _ h => h) (fun _ h => h) (fun _ h => Or.inl h) fun h => Or.inl h
    exact absurd (hrunning.symm.trans h) nofun
  | false =>
    have he : (s.engines i).addRequest wave =
        { s.engines i with
          unfinished := (s.engines i).unfinished + 1, enginesRunning := true
          outputQueue := (s.engines i).outputQueue ++ [.startWave (s.engines i).currentWave] } := by
      simp only [Engine.addRequest, hmax, hrunning, Bool.false_eq_true, if_false]
    rw [he]
    refine hinv.of_local rfl Iff.rfl rfl
      ⟨fun h => (nomatch h), fun h => absurd h houtside, fun w hw => ?_, fun w hw => ?_⟩
      (fun _ => rfl) (fun _ h => mem_append_left _ h) (fun _ h => h) (fun _ h => Or.inl h)
      fun _ => Or.inr (Or.inl (mem_append_right _ mem_cons_self))
    · rcases mem_append.1 hw with hw | hw
      · exact (hstart w hw).imp id fun h => ⟨h.1, rfl⟩
      · cases mem_singleton.1 hw
        exact Or.inr ⟨rfl, rfl⟩
    · rcases mem_append.1 hw with hw | hw
      · exact hcomplete w hw
      · cases mem_singleton.1 hw

theorem startDpWave_inv (hpc : (s.engines i).pc = .waiting)
    {excluded : Fin n} {rest : List (Nat × Fin n)}
    (hmessages : (s.engines i).startMessages = (wave, excluded) :: rest) :
    Inv (s.setEngine i ({ s.engines i with startMessages := rest }.startDpWave i wave
      excluded)) := by
  have houtside : (s.engines i).pc ≠ .reducing := by rw [hpc]; exact nofun
  have hmem : (wave, excluded) ∈ (s.engines i).startMessages := by
    rw [hmessages]
    exact mem_cons_self
  have hkeep : ∀ message ∈ rest, message ∈ (s.engines i).startMessages := fun message h => by
    rw [hmessages]
    exact mem_cons_of_mem _ h
  have hle : wave ≤ (s.engines i).currentWave :=
    Nat.le_trans (Coordinator.le_of_aware (hinv.started i wave excluded hmem))
      (hinv.coordinator_le houtside)
  have hrest : ∀ {e : Engine n}, e.startMessages = rest → (excluded ≠ i → e.Joined wave) →
      ∀ wave', (s.engines i).Told i wave' → e.Told i wave' ∨ e.Joined wave' := by
    rintro e he hjoin wave' ⟨x, hx, hmem'⟩
    rw [hmessages] at hmem'
    rcases mem_cons.1 hmem' with heq | hmem'
    · cases heq
      exact Or.inr (hjoin hx)
    · exact Or.inl ⟨x, hx, by rw [he]; exact hmem'⟩
  obtain ⟨hidle, hentry, hstart, hcomplete⟩ := hinv.engine i
  unfold Engine.startDpWave
  split
  · rename_i hjoin
    obtain rfl : wave = (s.engines i).currentWave := Nat.le_antisymm hle hjoin.2
    refine hinv.of_local rfl Iff.rfl rfl
      ⟨fun h => (nomatch h), fun h => absurd h houtside,
        fun w hw => (hstart w hw).imp id fun h => ⟨h.1, rfl⟩, hcomplete⟩
      (fun _ => rfl) (fun _ h => h) hkeep (hrest rfl fun _ => Or.inr ⟨rfl, rfl⟩)
      fun _ => Or.inr (Or.inr (hinv.started i _ excluded hmem))
  · rename_i hskip
    refine hinv.of_local rfl Iff.rfl rfl ⟨hidle, hentry, hstart, hcomplete⟩ id (fun _ h => h) hkeep
      (hrest rfl fun hne => Or.inl ?_) fun h => Or.inl h
    exact Nat.lt_of_not_le fun h => hskip ⟨hne, h⟩

theorem finish_inv (hpc : (s.engines i).pc ≠ .reducing) (count : Nat) :
    Inv (s.setEngine i { s.engines i with unfinished := (s.engines i).unfinished - count }) := by
  obtain ⟨hidle, hentry, hstart, hcomplete⟩ := hinv.engine i
  refine hinv.of_local rfl Iff.rfl rfl
    ⟨fun h => ⟨?_, (hidle h).2⟩, fun h => absurd h hpc, hstart, hcomplete⟩
    id (fun _ h => h) (fun _ h => h) (fun _ h => Or.inl h) fun h => Or.inl h
  simp only [(hidle h).1, Nat.zero_sub]

theorem beginStep_inv (hpc : (s.engines i).pc = .waiting)
    (hexecuted : executed = true → 0 < (s.engines i).unfinished) :
    Inv (s.setEngine i { s.engines i with pc := .stepping executed }) := by
  obtain ⟨hidle, hentry, hstart, hcomplete⟩ := hinv.engine i
  refine hinv.of_local rfl (by simp [hpc]) rfl
    ⟨fun h => ⟨(hidle h).1, ?_⟩, fun h => (nomatch h), hstart, hcomplete⟩
    id (fun _ h => h) (fun _ h => h) (fun _ h => Or.inl h) fun h => Or.inl h
  cases executed with
  | false => exact Or.inr rfl
  | true =>
    have := hexecuted rfl
    have := (hidle h).1
    omega

end

/-- What a turn that goes on with the wave sends. -/
theorem mem_output_of_goOn (h : message ∈ (e.afterSync i true).outputQueue) :
    message ∈ e.outputQueue ∨ message = .startWave e.currentWave := by
  simp only [Engine.afterSync, Bool.not_true, Bool.false_eq_true, if_false, Engine.nextTurn] at h
  split at h
  · rcases mem_append.1 h with h | h
    · exact Or.inl h
    · exact Or.inr (mem_singleton.1 h)
  · exact Or.inl h

/-- The messages of an engine that goes on with the wave. -/
theorem goOn_ok (hok : e.Ok) (i : Fin n) :
    (e.afterSync i true).Ok ∧
      ∀ message ∈ e.outputQueue, message ∈ (e.afterSync i true).outputQueue := by
  refine ⟨⟨fun h => (nomatch h), fun h => (nomatch h), fun wave hwave => ?_, fun wave hwave => ?_⟩,
    fun message hmessage => ?_⟩
  · rcases mem_output_of_goOn hwave with h | h
    · exact (hok.startWave wave h).imp id fun h => ⟨h.1, rfl⟩
    · cases h
      exact Or.inr ⟨rfl, rfl⟩
  · rcases mem_output_of_goOn hwave with h | h
    · exact hok.waveComplete wave h
    · cases h
  · simp only [Engine.afterSync, Bool.not_true, Bool.false_eq_true, if_false, Engine.nextTurn]
    split
    · exact mem_append_left _ hmessage
    · exact hmessage

/-- What a turn that ends the wave sends. -/
theorem mem_output_of_end (h : message ∈ (e.afterSync i false).outputQueue) :
    message ∈ e.outputQueue ∨ message = .waveComplete e.currentWave := by
  simp only [Engine.afterSync, Bool.not_false, if_true, Engine.nextTurn] at h
  split at h
  · rcases mem_append.1 h with h | h
    · exact Or.inl h
    · exact Or.inr (mem_singleton.1 h)
  · exact Or.inl h

theorem endStep_inv (hinv : Inv s)
    (hpc : (s.engines i).pc = .stepping executed) (dpSyncInterval : Nat) :
    Inv (s.setEngine i ((s.engines i).endStep i executed dpSyncInterval)) := by
  have hok := hinv.engine i
  obtain ⟨hidle, hentry, hstart, hcomplete⟩ := hok
  unfold Engine.endStep
  split
  · rename_i hskip
    simp only [Bool.and_eq_true, decide_eq_true_eq] at hskip
    exact hinv.of_local rfl (by simp [Engine.nextTurn, hpc]) rfl
      ⟨fun _ => ⟨hskip.1.2, Or.inl rfl⟩, fun h => (nomatch h), hstart, hcomplete⟩
      id (fun _ h => h) (fun _ h => h) (fun _ h => Or.inl h) fun h => Or.inl h
  rename_i hgo
  -- an engine that does not run has nothing to step for
  have hrunning : (s.engines i).enginesRunning = true := by
    by_contra hnot
    rw [Bool.not_eq_true] at hnot
    obtain ⟨hzero, hwhere⟩ := hidle hnot
    rw [hpc] at hwhere
    have hexecuted : executed = false := by
      rcases hwhere with h | h
      · cases h
      · exact Pc.stepping.inj h
    exact hgo (by simp [hexecuted, hzero, hnot])
  dsimp only
  split
  · obtain ⟨hok', houtput⟩ := goOn_ok
      (e := { s.engines i with stepCounter := (s.engines i).stepCounter + 1 })
      ⟨hidle, hentry, hstart, hcomplete⟩ i
    exact hinv.of_local rfl (by simp [Engine.afterSync, Engine.nextTurn, hpc]) rfl hok'
      (fun _ => rfl) houtput (fun _ h => h) (fun _ h => Or.inl h) fun _ => Or.inl hrunning
  have hleft : (s.engines i).left = (s.engines i).entries.length := by
    simp [Engine.left, hpc]
  refine hinv.of_engine (prefix_append _ _) (fun j => ?_) ?_ (Nat.le_refl _)
    ⟨fun h => absurd (hrunning.symm.trans h) nofun, fun _ => getLast?_concat ..,
      hstart, hcomplete⟩
    (fun _ h => h) (fun _ h => h) (fun _ h => h) (fun _ h => Or.inl h)
    fun _ hunaware => Or.inl (hinv.pending i hrunning hunaware)
  · simp only [Engine.left, if_true, length_append, length_singleton, Nat.add_sub_cancel]
    rw [← hleft]
    exact hinv.entered i j
  · simp only [Engine.left, if_true, length_append, length_singleton, Nat.add_sub_cancel]
    rw [← hleft]
    exact hinv.wave i

theorem endReduce_inv (hinv : Inv s) (hpc : (s.engines i).pc = .reducing)
    (hall : ∀ j, (s.engines i).entries.length ≤ (s.engines j).entries.length) :
    Inv (s.setEngine i ((s.engines i).afterSync i
      (s.reduced ((s.engines i).entries.length - 1)))) := by
  obtain ⟨hidle, hentry, hstart, hcomplete⟩ := hinv.engine i
  have hlast := hentry hpc
  have hpos : 0 < (s.engines i).entries.length := by
    rw [length_pos_iff]
    intro hnil
    rw [hnil] at hlast
    cases hlast
  have hleft : (s.engines i).left = (s.engines i).entries.length - 1 := if_pos hpc
  have hwave := hinv.wave i
  rw [hleft] at hwave
  have hnext := s.waveAt_succ ((s.engines i).entries.length - 1)
  rw [Nat.sub_add_cancel hpos] at hnext
  have hrunning : (s.engines i).enginesRunning = true := by
    by_contra hnot
    rcases (hidle (by simpa using hnot)).2 with h | h <;> (rw [hpc] at h; cases h)
  cases hresult : s.reduced ((s.engines i).entries.length - 1) with
  | true =>
    simp only [hresult, if_true, Nat.add_zero] at hnext
    obtain ⟨hok', houtput⟩ := goOn_ok ⟨hidle, hentry, hstart, hcomplete⟩ i
    refine hinv.of_engine (prefix_refl _) (fun j => ?_) ?_ (Nat.le_refl _) hok'
      (fun _ h => h.imp id fun h => ⟨h.1, rfl⟩) houtput (fun _ h => h) (fun _ h => Or.inl h)
      fun _ hunaware => Or.inl (hinv.pending i hrunning hunaware)
    · exact hall j
    · exact hwave.trans hnext.symm
  | false =>
    have hzero : (s.engines i).unfinished = 0 := by
      have hnone := any_eq_false.1 hresult i (mem_finRange i)
      rw [getLast?_eq_getElem?] at hlast
      simpa [hlast] using hnone
    simp only [hresult, Bool.false_eq_true, if_false] at hnext
    refine hinv.of_engine (prefix_refl _) hall ?_ (Nat.le_succ _)
      ⟨fun _ => ⟨hzero, Or.inl rfl⟩, fun h => (nomatch h), fun wave h => ?_, fun wave h => ?_⟩
      (fun wave h => ?_) (fun message h => ?_) (fun _ h => h) (fun _ h => Or.inl h)
      fun h => (nomatch h)
    · exact (congrArg (· + 1) hwave).trans hnext.symm
    · exact Or.inl (Nat.lt_succ_of_le
        (Engine.Joined.le (hstart wave ((mem_output_of_end h).resolve_right
        nofun))))
    · rcases mem_output_of_end h with h | h
      · exact Nat.lt_succ_of_lt (hcomplete wave h)
      · cases h
        exact Nat.lt_succ_self _
    · exact Or.inl (Nat.lt_succ_of_le h.le)
    · simp only [Engine.afterSync, Bool.not_false, if_true, Engine.nextTurn]
      split
      · exact mem_append_left _ h
      · exact h

/-! ## Steps of the coordinator -/

/-- The coordinator takes messages from the engines and gives some; it leaves them otherwise. -/
structure Untouched (e e' : Engine n) : Prop where
  pc : e'.pc = e.pc
  enginesRunning : e'.enginesRunning = e.enginesRunning
  currentWave : e'.currentWave = e.currentWave
  unfinished : e'.unfinished = e.unfinished
  entries : e'.entries = e.entries
  outputQueue : ∀ message ∈ e'.outputQueue, message ∈ e.outputQueue

theorem Untouched.joined (h : Untouched e e') : e'.Joined wave ↔ e.Joined wave := by
  simp only [Engine.Joined, h.currentWave, h.enginesRunning]

theorem Untouched.ok (h : Untouched e e') (hok : e.Ok) : e'.Ok where
  idle := by rw [h.enginesRunning, h.unfinished, h.pc]; exact hok.idle
  entry := by rw [h.pc, h.entries, h.unfinished]; exact hok.entry
  startWave := fun wave hwave => h.joined.2 (hok.startWave wave (h.outputQueue _ hwave))
  waveComplete := fun wave hwave => by
    rw [h.currentWave]
    exact hok.waveComplete wave (h.outputQueue _ hwave)

theorem Inv.of_coordinator (hinv : Inv s) (hsame : ∀ j, Untouched (s.engines j) (s'.engines j))
    (hreached : ∃ j, s'.coordinator.currentWave ≤ (s.engines j).currentWave)
    (hpublished : ∀ wave ∈ s'.published, wave ≤ s'.coordinator.currentWave)
    (hstarted : ∀ j wave x, (wave, x) ∈ (s'.engines j).startMessages →
      ¬s'.coordinator.Unaware wave)
    (hannounced : s'.coordinator.enginesRunning = true → ∀ j,
      (s.engines j).Joined s'.coordinator.currentWave ∨
        (s'.engines j).Told j s'.coordinator.currentWave)
    (hpending : ∀ j, (s.engines j).enginesRunning = true →
      s'.coordinator.Unaware (s.engines j).currentWave →
        ∃ x, .startWave (s.engines j).currentWave ∈ (s'.engines x).outputQueue) : Inv s' := by
  have hleft : ∀ j, (s'.engines j).left = (s.engines j).left := fun j => by
    simp only [Engine.left, (hsame j).pc, (hsame j).entries]
  refine ⟨fun j j' => ?_, fun j => ?_, fun j => (hsame j).ok (hinv.engine j), Or.inr ?_, hpublished,
    hstarted, fun hrunning j => ?_, fun j hrunning hunaware => ?_⟩
  · rw [hleft, (hsame j').entries]
    exact hinv.entered j j'
  · rw [hleft, (hsame j).currentWave, hinv.wave j]
    exact (State.waveAt_congr fun j _ _ => by rw [(hsame j).entries]).symm
  · obtain ⟨j, hj⟩ := hreached
    exact ⟨j, by rw [(hsame j).currentWave]; exact hj⟩
  · exact (hannounced hrunning j).imp (hsame j).joined.2 id
  · rw [(hsame j).enginesRunning] at hrunning
    rw [(hsame j).currentWave] at hunaware ⊢
    exact hpending j hrunning hunaware

theorem receive_inv (hinv : Inv s) {rest : List Output}
    (hqueue : (s.engines i).outputQueue = message :: rest) :
    Inv (handleOutput (s.setEngine i { s.engines i with outputQueue := rest }) i message) := by
  set s₁ := s.setEngine i { s.engines i with outputQueue := rest } with hs₁
  have hmem : message ∈ (s.engines i).outputQueue := by
    rw [hqueue]
    exact mem_cons_self
  have hsame : ∀ j, Untouched (s.engines j) (s₁.engines j) ∧
      (s₁.engines j).startMessages = (s.engines j).startMessages := by
    refine fun j => State.setEngine_cases j ⟨⟨rfl, rfl, rfl, rfl, rfl, fun m hm => ?_⟩, rfl⟩
      fun _ _ => ⟨⟨rfl, rfl, rfl, rfl, rfl, fun _ h => h⟩, rfl⟩
    rw [hqueue]
    exact mem_cons_of_mem _ hm
  have hremain : ∀ {m : Output}, m ≠ message → (∃ x, m ∈ (s.engines x).outputQueue) →
      ∃ x, m ∈ (s₁.engines x).outputQueue := by
    rintro m hne ⟨x, hx⟩
    refine ⟨x, ?_⟩
    revert hx
    refine State.setEngine_cases x (fun hx => ?_) fun _ _ hx => hx
    rw [hqueue] at hx
    exact (mem_cons.1 hx).resolve_left hne
  have hcoordinator : s₁.coordinator = s.coordinator := rfl
  have hkeep : ∀ {wave : Nat}, ¬s.coordinator.Unaware wave → wave ≤ s.coordinator.currentWave :=
    Coordinator.le_of_aware
  -- a message that the coordinator has no use for
  have hignored : (∀ j, (s.engines j).enginesRunning = true →
      s.coordinator.Unaware (s.engines j).currentWave →
        .startWave (s.engines j).currentWave ≠ message) → Inv s₁ := by
    intro hother
    refine hinv.of_coordinator (fun j => (hsame j).1) ?_ hinv.published (fun j w x hx => ?_)
      (fun hrunning j => ?_)
      fun j hrunning hunaware => hremain (hother j hrunning hunaware)
        (hinv.pending j hrunning hunaware)
    · rcases hinv.reached with hzero | hreached
      · exact ⟨i, by rw [hcoordinator, hzero]; exact Nat.zero_le _⟩
      · exact hreached
    · rw [(hsame j).2] at hx
      exact hinv.started j w x hx
    · refine (hinv.announced hrunning j).imp id fun ⟨x, hx, hmem⟩ => ⟨x, hx, ?_⟩
      rw [(hsame j).2]
      exact hmem
  cases message with
  | waveComplete wave =>
    have hlt := (hinv.engine i).waveComplete wave hmem
    simp only [handleOutput, hcoordinator]
    split
    · rename_i hle
      refine hinv.of_coordinator (fun j => (hsame j).1) ⟨i, hlt⟩ (fun w hw => ?_)
        (fun j w x hx hunaware => ?_) (fun h => (nomatch h)) fun j hrunning hunaware => ?_
      · rcases mem_append.1 hw with hw | hw
        · exact Nat.le_succ_of_le (Nat.le_trans (hinv.published w hw) hle)
        · exact Nat.le_of_eq (mem_singleton.1 hw)
      · have hw := hkeep (hinv.started j w x (by rw [← (hsame j).2]; exact hx))
        rcases hunaware with h | ⟨h, -⟩
        · have : wave + 1 < w := h
          omega
        · have : wave + 1 = w := h
          omega
      · refine hremain nofun (hinv.pending j hrunning (Or.inl ?_))
        rcases hunaware with h | ⟨h, -⟩
        · have : wave + 1 < (s.engines j).currentWave := h
          omega
        · have : wave + 1 = (s.engines j).currentWave := h
          omega
    · exact hignored fun _ _ _ => nofun
  | startWave wave =>
    have hjoined := (hinv.engine i).startWave wave hmem
    simp only [handleOutput, hcoordinator]
    split
    · rename_i hunaware
      have hle : s.coordinator.currentWave ≤ wave := by
        rcases hunaware with h | ⟨h, -⟩
        · exact Nat.le_of_lt h
        · exact Nat.le_of_eq h
      refine hinv.of_coordinator (fun j => ?_) ⟨i, hjoined.le⟩ (fun w hw => ?_)
        (fun j w x hx hunaware' => ?_) (fun _ j => ?_) fun j hrunning hunaware' => ?_
      · obtain ⟨hpc, hrunning, hwave, hunfinished, hentries, houtput⟩ := (hsame j).1
        exact ⟨hpc, hrunning, hwave, hunfinished, hentries, houtput⟩
      · rcases mem_append.1 hw with hw | hw
        · exact Nat.le_trans (hinv.published w hw) hle
        · exact Nat.le_of_eq (mem_singleton.1 hw)
      · have hw : w ≤ wave := by
          rcases mem_append.1 hx with hx | hx
          · exact Nat.le_trans (hkeep (hinv.started j w x (by rw [← (hsame j).2]; exact hx))) hle
          · cases mem_singleton.1 hx
            exact Nat.le_refl _
        rcases hunaware' with h | ⟨-, h⟩
        · exact absurd hw (Nat.not_le.2 h)
        · cases h
      · by_cases hj : j = i
        · subst hj
          exact Or.inl hjoined
        · exact Or.inr ⟨i, Ne.symm hj, mem_append_right _ mem_cons_self⟩
      · have hlt : wave < (s.engines j).currentWave := by
          rcases hunaware' with h | ⟨-, h⟩
          · exact h
          · cases h
        exact hremain (fun h => Nat.ne_of_gt hlt (Output.startWave.inj h))
          (hinv.pending j hrunning (Or.inl (Nat.lt_of_le_of_lt hle hlt)))
    · rename_i haware
      refine hignored fun j _ hunaware heq => haware ?_
      rw [← Output.startWave.inj heq]
      exact hunaware

/-! ## Runs -/

theorem step_inv {dpSyncInterval : Nat} {a : Action n} (hinv : Inv s)
    (hstep : step dpSyncInterval s a = .ok s') : Inv s' := by
  cases a with
  | addRequest i requestWave =>
    simp only [step] at hstep
    split at hstep
    · rename_i hguard
      cases hstep
      exact addRequest_inv hinv hguard.1 hguard.2
    · cases hstep
  | startDpWave i =>
    simp only [step] at hstep
    split at hstep
    · rename_i hpc hmessages
      cases hstep
      exact startDpWave_inv hinv hpc hmessages
    · cases hstep
  | finish i count =>
    simp only [step] at hstep
    split at hstep
    · rename_i hpc
      cases hstep
      exact finish_inv hinv hpc count
    · cases hstep
  | beginStep i executed leftover =>
    simp only [step] at hstep
    split at hstep
    · rename_i hguard
      cases hstep
      exact beginStep_inv hinv hguard.1 hguard.2.2
    · cases hstep
  | endStep i =>
    simp only [step] at hstep
    split at hstep
    · rename_i executed hpc
      cases hstep
      exact endStep_inv hinv hpc dpSyncInterval
    · cases hstep
  | endReduce i =>
    simp only [step] at hstep
    split at hstep
    · rename_i hguard
      cases hstep
      exact endReduce_inv hinv hguard.1 hguard.2
    · cases hstep
  | receive i =>
    simp only [step] at hstep
    split at hstep
    · rename_i hqueue
      cases hstep
      exact receive_inv hinv hqueue
    · cases hstep

theorem initial_inv : Inv (State.initial : State n) where
  entered := fun _ _ => Nat.le_refl _
  wave := fun _ => rfl
  engine := fun _ => ⟨fun _ => ⟨rfl, Or.inl rfl⟩, nofun, nofun, nofun⟩
  reached := Or.inl rfl
  published := fun _ h => Nat.le_of_eq (mem_singleton.1 h)
  started := nofun
  announced := nofun
  pending := nofun

/-- No message is on its way between the engines and the coordinator. -/
def State.Quiet (s : State n) : Prop :=
  ∀ i, (s.engines i).outputQueue = [] ∧ (s.engines i).startMessages = []

/-- The engine is in an all-reduce that every engine has entered and that ends the wave: all
it does next is to clear `engines_running`. -/
def State.EndsWave (s : State n) (i : Fin n) : Prop :=
  (s.engines i).pc = .reducing ∧
    (∀ j, (s.engines i).entries.length ≤ (s.engines j).entries.length) ∧
    s.reduced ((s.engines i).entries.length - 1) = false

/-- The engine waits in `_process_input_queue` for someone else to start a wave. -/
def Engine.WaitsIdle (e : Engine n) : Prop := e.pc = .waiting ∧ e.enginesRunning = false

/-- An engine that is not about to end its wave is at the latest wave. -/
theorem Inv.wave_le_of_not_endsWave (hinv : Inv s) (h : ¬s.EndsWave i) (j : Fin n) :
    (s.engines j).currentWave ≤ (s.engines i).currentWave := by
  by_cases hpc : (s.engines i).pc = .reducing
  · have hleft : (s.engines i).left = (s.engines i).entries.length - 1 := if_pos hpc
    rw [hinv.wave i, hinv.wave j, hleft]
    by_cases hall : ∀ k, (s.engines i).entries.length ≤ (s.engines k).entries.length
    · -- the all-reduce is complete and goes on with the wave
      have hresult : s.reduced ((s.engines i).entries.length - 1) = true := by
        by_contra hnot
        exact h ⟨hpc, hall, by simpa using hnot⟩
      calc s.waveAt (s.engines j).left
          ≤ s.waveAt ((s.engines i).entries.length - 1 + 1) := s.waveAt_mono (by
            have := hinv.entered j i
            omega)
        _ = s.waveAt ((s.engines i).entries.length - 1) := by
            rw [s.waveAt_succ, hresult]
            rfl
    · -- some engine has not entered the all-reduce that this one is in
      simp only [not_forall, Nat.not_le] at hall
      obtain ⟨k, hk⟩ := hall
      exact s.waveAt_mono (by
        have := hinv.entered j k
        omega)
  · exact hinv.wave_le hpc j

/-- No wake-up gets lost: when no message is on its way, an engine that goes on to the next
collective step leaves no engine waiting idle; and an engine that waits idle has nothing
unfinished. -/
theorem waves_agree {dpSyncInterval : Nat}
    (h : Reaches (fun _ _ => True) (step dpSyncInterval) (State.initial : State n) s) :
    (s.Quiet → ∀ i j, (s.engines i).enginesRunning = true → ¬s.EndsWave i →
      ¬(s.engines j).WaitsIdle) ∧
    ∀ j, (s.engines j).WaitsIdle → (s.engines j).unfinished = 0 := by
  have hinv : Inv s := h.invariant initial_inv fun _ _ _ hinv _ hstep => step_inv hinv hstep
  refine ⟨fun hquiet i j hrunning hends hidle => ?_,
    fun j hidle => ((hinv.engine j).idle hidle.2).1⟩
  have hle := hinv.wave_le_of_not_endsWave hends
  by_cases hunaware : s.coordinator.Unaware (s.engines i).currentWave
  · obtain ⟨x, hx⟩ := hinv.pending i hrunning hunaware
    rw [(hquiet x).1] at hx
    cases hx
  have hcoordinator : s.coordinator.currentWave = (s.engines i).currentWave := by
    refine Nat.le_antisymm ?_ (Coordinator.le_of_aware hunaware)
    rcases hinv.reached with hzero | ⟨k, hk⟩
    · omega
    · exact Nat.le_trans hk (hle k)
  have hwake : s.coordinator.enginesRunning = true := by
    by_contra hnot
    exact hunaware (Or.inr ⟨hcoordinator, by simpa using hnot⟩)
  rcases hinv.announced hwake j with (hlater | ⟨-, hjoined⟩) | ⟨x, -, hx⟩
  · have := hle j
    omega
  · rw [hidle.2] at hjoined
    cases hjoined
  · rw [(hquiet j).2] at hx
    cases hx

/-- Engine 0 gets a request and the coordinator wakes engine 1. -/
def wakeUp : List (Action 2) :=
  [.addRequest 0 0, .receive 0, .startDpWave 0, .startDpWave 1]

theorem waves_agree_wakeUp : ∃ s : State 2,
    wakeUp.foldlM (step 32) State.initial = .ok s ∧ s.Quiet ∧
      (s.engines 0).enginesRunning = true ∧ ¬s.EndsWave 0 ∧
      ((s.Quiet → ∀ i j, (s.engines i).enginesRunning = true → ¬s.EndsWave i →
        ¬(s.engines j).WaitsIdle) ∧
      ∀ j, (s.engines j).WaitsIdle → (s.engines j).unfinished = 0) := by
  obtain ⟨s, hs⟩ : ∃ s, wakeUp.foldlM (step 32) State.initial = .ok s := ⟨_, rfl⟩
  have hreaches : Reaches (fun _ _ => True) (step 32) State.initial s :=
    foldlM_ok_induct (P := Reaches (fun _ _ => True) (step 32) State.initial)
      (fun _ _ _ _ hbefore hstep => hbefore.step trivial hstep) .refl hs
  refine ⟨s, hs, ?_, ?_, ?_, waves_agree hreaches⟩
  all_goals cases hs
  · intro i
    match i with
    | 0 => exact ⟨rfl, rfl⟩
    | 1 => exact ⟨rfl, rfl⟩
  · rfl
  · rintro ⟨hpc, -⟩
    cases hpc

end Vllm.DataParallel
