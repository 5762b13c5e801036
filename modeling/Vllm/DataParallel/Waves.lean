import Mathlib.Data.List.FinRange

/-!
# Waves of data-parallel engines

The busy loop of `DPEngineCoreProc` (`v1/engine/core.py`) and the wave coordination of
`DPCoordinatorProc` (`v1/engine/coordinator.py`). Engines and coordinator exchange messages
over FIFO channels; an engine handles messages only in `_process_input_queue`. In an
all-reduce an engine leaves its contribution and returns once every engine has left one,
each at its own time. Pausing, fault tolerance and elastic scaling are left out, and with
them the load statistics.
-/

namespace Vllm.DataParallel

/-- Where an engine is in `run_busy_loop`. -/
inductive Pc
  /-- `_process_input_queue` -/
  | waiting
  /-- `_process_engine_step`, and the dummy batch if nothing was executed -/
  | stepping (executed : Bool)
  /-- inside `sync_dp_state` -/
  | reducing
  deriving DecidableEq, Repr

/-- `EngineCoreOutputs` for the coordinator. -/
inductive Output
  | startWave (wave : Nat)
  | waveComplete (wave : Nat)
  deriving DecidableEq, Repr

structure Engine (n : Nat) where
  pc : Pc
  enginesRunning : Bool
  /-- `engines_running` at the start of this turn of the loop -/
  wasRunning : Bool
  currentWave : Nat
  stepCounter : Nat
  unfinished : Nat
  /-- the contributions to the all-reduces, oldest first -/
  entries : List Bool
  outputQueue : List Output
  /-- the `START_DP_WAVE` messages on their way, with the excluded engine -/
  startMessages : List (Nat × Fin n)
  deriving DecidableEq, Repr

structure Coordinator where
  currentWave : Nat
  enginesRunning : Bool
  deriving DecidableEq, Repr

structure State (n : Nat) where
  engines : Fin n → Engine n
  coordinator : Coordinator
  /-- the wave numbers that front-ends have been told -/
  published : List Nat

inductive Action (n : Nat)
  /-- a request with a wave number reaches the engine -/
  | addRequest (i : Fin n) (requestWave : Nat)
  /-- the engine handles the oldest `START_DP_WAVE` -/
  | startDpWave (i : Fin n)
  /-- requests of the engine end, or are aborted -/
  | finish (i : Fin n) (count : Nat)
  /-- the engine leaves `_process_input_queue`; `leftover` stands for finished requests or
  batches that are still to be cleared -/
  | beginStep (i : Fin n) (executed leftover : Bool)
  | endStep (i : Fin n)
  | endReduce (i : Fin n)
  /-- the coordinator handles the oldest message of the engine -/
  | receive (i : Fin n)
  deriving DecidableEq, Repr

/-- The action is not possible now. -/
inductive Blocked
  | blocked
  deriving DecidableEq, Repr

variable {n : Nat}

namespace State

def initial : State n where
  engines := fun _ => ⟨.waiting, false, false, 0, 0, 0, [], [], []⟩
  coordinator := ⟨0, false⟩
  published := [0]

def setEngine (s : State n) (i : Fin n) (e : Engine n) : State n :=
  { s with engines := Function.update s.engines i e }

@[simp] theorem setEngine_self (s : State n) (i : Fin n) (e : Engine n) :
    (s.setEngine i e).engines i = e :=
  Function.update_self ..

/-- What holds of the new engine and of all others. -/
@[elab_as_elim]
theorem setEngine_cases {s : State n} {i : Fin n} {e : Engine n} {motive : Fin n → Engine n → Prop}
    (j : Fin n) (self : motive i e) (other : ∀ j, j ≠ i → motive j (s.engines j)) :
    motive j ((s.setEngine i e).engines j) :=
  (Function.forall_update_iff s.engines motive).mpr ⟨self, other⟩ j

/-- The result of the `k`-th all-reduce. -/
def reduced (s : State n) (k : Nat) : Bool :=
  (List.finRange n).any fun j => (s.engines j).entries[k]? == some true

end State

namespace Engine

variable (e : Engine n)

/-- `add_request` of an unpaused engine. -/
def addRequest (requestWave : Nat) : Engine n :=
  let e := { e with
    unfinished := e.unfinished + 1, currentWave := max e.currentWave requestWave }
  if e.enginesRunning then e
  else { e with
    enginesRunning := true, outputQueue := e.outputQueue ++ [.startWave e.currentWave] }

/-- `_handle_client_request` for `START_DP_WAVE`. -/
def startDpWave (i : Fin n) (newWave : Nat) (excluded : Fin n) : Engine n :=
  if excluded ≠ i ∧ e.currentWave ≤ newWave then
    { e with currentWave := newWave, enginesRunning := true }
  else e

/-- `has_work`. -/
def hasWork (leftover : Bool) : Bool :=
  e.enginesRunning || 0 < e.unfinished || leftover

/-- The start of the next turn of the loop. -/
def nextTurn : Engine n :=
  { e with pc := .waiting, wasRunning := e.enginesRunning }

/-- The rest of a turn, once `_has_global_unfinished_reqs` has returned. -/
def afterSync (i : Fin n) (result : Bool) : Engine n :=
  if !result then
    nextTurn { e with
      enginesRunning := false
      outputQueue :=
        if i.val = 0 then e.outputQueue ++ [.waveComplete e.currentWave] else e.outputQueue
      currentWave := e.currentWave + 1
      stepCounter := 0 }
  else
    nextTurn { e with
      enginesRunning := true
      outputQueue :=
        if !e.wasRunning && i.val = 0 then e.outputQueue ++ [.startWave e.currentWave]
        else e.outputQueue }

/-- From the engine step to the all-reduce or, between two of them, to the next turn. -/
def endStep (i : Fin n) (executed : Bool) (dpSyncInterval : Nat) : Engine n :=
  if !executed && e.unfinished = 0 && !e.enginesRunning then e.nextTurn
  else
    let e := { e with stepCounter := e.stepCounter + 1 }
    if e.stepCounter ≠ 1 && e.stepCounter % dpSyncInterval ≠ 0 then e.afterSync i true
    else { e with pc := .reducing, entries := e.entries ++ [decide (0 < e.unfinished)] }

end Engine

/-- The coordinator handles a message of engine `i`. -/
def handleOutput (s : State n) (i : Fin n) : Output → State n
  | .waveComplete wave =>
    if s.coordinator.currentWave ≤ wave then
      { s with coordinator := ⟨wave + 1, false⟩, published := s.published ++ [wave + 1] }
    else s
  | .startWave wave =>
    if s.coordinator.currentWave < wave ∨
        (s.coordinator.currentWave = wave ∧ s.coordinator.enginesRunning = false) then
      { engines := fun j =>
          { s.engines j with startMessages := (s.engines j).startMessages ++ [(wave, i)] }
        coordinator := ⟨wave, true⟩
        published := s.published ++ [wave] }
    else s

def step (dpSyncInterval : Nat) (s : State n) : Action n → Except Blocked (State n)
  | .addRequest i requestWave =>
    if (s.engines i).pc = .waiting ∧ requestWave ∈ s.published then
      .ok (s.setEngine i ((s.engines i).addRequest requestWave))
    else .error .blocked
  | .startDpWave i =>
    match (s.engines i).pc, (s.engines i).startMessages with
    | .waiting, (newWave, excluded) :: rest =>
      .ok (s.setEngine i ({ s.engines i with startMessages := rest }.startDpWave i newWave
        excluded))
    | _, _ => .error .blocked
  | .finish i count =>
    if (s.engines i).pc ≠ .reducing then
      .ok (s.setEngine i { s.engines i with unfinished := (s.engines i).unfinished - count })
    else .error .blocked
  | .beginStep i executed leftover =>
    -- only a request that is unfinished can be executed
    if (s.engines i).pc = .waiting ∧ (s.engines i).hasWork leftover ∧
        (executed = true → 0 < (s.engines i).unfinished) then
      .ok (s.setEngine i { s.engines i with pc := .stepping executed })
    else .error .blocked
  | .endStep i =>
    match (s.engines i).pc with
    | .stepping executed =>
      .ok (s.setEngine i ((s.engines i).endStep i executed dpSyncInterval))
    | _ => .error .blocked
  | .endReduce i =>
    if (s.engines i).pc = .reducing ∧
        ∀ j, (s.engines i).entries.length ≤ (s.engines j).entries.length then
      .ok (s.setEngine i ((s.engines i).afterSync i
        (s.reduced ((s.engines i).entries.length - 1))))
    else .error .blocked
  | .receive i =>
    match (s.engines i).outputQueue with
    | message :: rest =>
      .ok (handleOutput (s.setEngine i { s.engines i with outputQueue := rest }) i message)
    | [] => .error .blocked

end Vllm.DataParallel
