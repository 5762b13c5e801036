import Vllm.Broadcast.Readers
import Vllm.Library.Fallible

/-!
# Delivery in order

`delivered_in_order` over every interleaving without a timeout in `recv`, and the shift that
such a timeout leaves behind (`recv_timeout_shifts`): the slot of the message is marked as
read before the message is received.
-/

namespace Vllm.Broadcast

open Library

variable {nReader : Nat} {O : Type}

section Steps

variable {config : RingConfig} {codec : Codec O} {s s' : State nReader O}

/-- Every step but a timeout in `recv` keeps the invariant. -/
theorem step_inv (hpos : 0 < nReader) {a : Action nReader O} (hinv : Inv config codec s)
    (hrecv : ∀ r, a ≠ .recvTimeout r) (hstep : step config codec s a = .ok s') :
    Inv config codec s' := by
  cases a with
  | enqueue obj =>
    simp only [step] at hstep
    split at hstep
    · next hpc =>
      rw [if_neg (Nat.ne_of_gt hpos)] at hstep
      cases hstep
      exact hinv.of_pc (by rw [hpc]; rfl) rfl
        ⟨Nat.zero_le _, Nat.le_refl _, fun _ r hr => absurd hr (Nat.not_lt_zero _)⟩
    · cases hstep
  | writerStep => exact writerStep_inv hinv hstep
  | writerTimeout =>
    simp only [step] at hstep
    split at hstep
    · next hpc =>
      cases hstep
      exact hinv.of_pc (by rw [hpc]; rfl) rfl trivial
    · cases hstep
  | dequeue r | readerTimeout r =>
    simp only [step] at hstep
    split at hstep
    · next hpc =>
      cases hstep
      exact hinv.of_readerPc (by rw [hpc]; trivial) trivial trivial
    · cases hstep
  | readerStep r => exact readerStep_inv hinv hstep
  | readByte r position => exact readByte_inv hinv hstep
  | recvTimeout r => exact absurd rfl (hrecv r)

theorem initial_inv : Inv config codec (State.initial : State nReader O) where
  currentIdx := (Nat.zero_mod _).symm
  writer := trivial
  slot := fun _ _ h => nomatch h
  fresh := fun _ _ _ => rfl
  reader := fun _ =>
    ⟨List.prefix_refl _, Nat.le_refl _, Nat.zero_le _, (Nat.zero_mod _).symm, trivial, rfl⟩

/-- After what it has returned, nothing is gone for the reader: each later object stands in
the ring, unread, and those that do not fit a slot are in its socket or still to be sent. -/
structure AtNext (config : RingConfig) (codec : Codec O) (s : State nReader O)
    (r : Fin nReader) : Prop where
  currentIdx : (s.readers r).currentIdx = (s.readers r).returned.length % config.maxChunks
  unread : ∀ t obj, (s.readers r).returned.length ≤ t → s.committed[t]? = some obj →
    (s.slots (t % config.maxChunks)).written = true ∧
      (s.slots (t % config.maxChunks)).Holds config codec obj ∧
      (s.slots (t % config.maxChunks)).read r = false
  socket : (s.readers r).socket ++ overflowMessages config codec s.writerPc.pending =
    overflowMessages config codec (s.committed.drop (s.readers r).returned.length)

theorem Inv.atNext (hinv : Inv config codec s) {r : Fin nReader}
    (hpc : (s.readers r).pc.Untaken) : AtNext config codec s r where
  currentIdx := by rw [← Reader.position_eq hpc]; exact (hinv.reader r).currentIdx
  unread := fun _ _ hle hobj => hinv.available hobj ((Reader.taken_eq hpc).trans_le hle)
  socket := (hinv.reader r).socket

end Steps

/-! ## Runs -/

section Runs

variable (config : RingConfig) (codec : Codec O) {s : State nReader O}

/-- In every run in which no `recv` times out, each reader returns a prefix of the objects
whose `enqueue` has succeeded or can only succeed. A `dequeue` that times out leaves every
object that its reader has not returned, and an `enqueue` that times out adds nothing. -/
theorem delivered_in_order
    (h : Reaches (fun _ a => ∀ r, a ≠ .recvTimeout r) (step config codec) .initial s) :
    (∀ r, (s.readers r).returned <+: s.committed) ∧
    (∀ r s', step config codec s (.readerTimeout r) = .ok s' →
      (s'.readers r).returned = (s.readers r).returned ∧ s'.committed = s.committed ∧
        AtNext config codec s' r) ∧
    ∀ s', step config codec s .writerTimeout = .ok s' →
      s'.slots = s.slots ∧ s'.readers = s.readers ∧ s'.committed = s.committed ∧
        s'.committed = s'.enqueued := by
  have hinv : 0 < nReader → Inv config codec s := fun hpos =>
    h.invariant initial_inv fun _ _ _ hinv hrecv hstep => step_inv hpos hinv hrecv hstep
  refine ⟨fun r => ((hinv r.pos).reader r).returned, fun r s' hstep => ?_, fun s' hstep => ?_⟩
  · have hinv' := step_inv (a := .readerTimeout r) r.pos (hinv r.pos) (fun _ heq => nomatch heq)
      hstep
    simp only [step] at hstep
    split at hstep
    · cases hstep
      refine ⟨by simp only [State.setReader, Function.update_self], rfl, hinv'.atNext ?_⟩
      simp only [State.setReader, Function.update_self]
      trivial
    · cases hstep
  · simp only [step] at hstep
    split at hstep
    · next hpc =>
      cases hstep
      exact ⟨rfl, rfl, by simp only [State.committed, hpc, WriterPc.pending],
        by simp only [State.committed, WriterPc.pending, List.append_nil]⟩
    · cases hstep

end Runs

/-! ## A slot of 11 bytes, with an object that fits and one that does not -/

def sampleConfig : RingConfig := ⟨11, 2, Nat.two_pos⟩

/-- The pickles of `5`, which overflows, and of `None`, for `true` and `false`. -/
def sampleCodec : Codec Bool where
  dumps := fun obj => (if obj then [0x80, 5, 0x4b, 5, 0x2e] else [0x80, 5, 0x4e, 0x2e], [])
  loads := fun
    | [[0x80, 5, 0x4e, 0x2e]] => some false
    | [[0x80, 5, 0x4b, 5, 0x2e]] => some true
    | _ => none
  loads_dumps := by decide

/-- `enqueue` up to the written flag. -/
def publishing (obj : Bool) : List (Action 1 Bool) :=
  .enqueue obj :: List.replicate
    (8 + (frame sampleConfig sampleCodec obj).length) .writerStep

/-- `dequeue` up to the read flag and the next index. -/
def taking (obj : Bool) : List (Action 1 Bool) :=
  [.dequeue 0, .readerStep 0, .readerStep 0] ++
    (List.range (frame sampleConfig sampleCodec obj).length).map (.readByte 0) ++
    List.replicate 3 (.readerStep 0)

/-- The state after a script whose actions all pass `check`. -/
def run (check : Action 1 Bool → Bool) (script : List (Action 1 Bool)) :
    Except Blocked (State 1 Bool) :=
  script.foldlM (fun s a => if check a then step sampleConfig sampleCodec s a
    else .error .blocked) .initial

theorem reaches_of_run (allowed : State 1 Bool → Action 1 Bool → Prop)
    (check : Action 1 Bool → Bool) (script : List (Action 1 Bool))
    (seen : List Bool × List Bool) (hcheck : ∀ s a, check a = true → allowed s a)
    (hrun : (run check script).toOption.map (fun s => ((s.readers 0).returned, s.committed)) =
      some seen) :
    ∃ s, Reaches allowed (step sampleConfig sampleCodec) .initial s ∧
      (s.readers 0).returned = seen.1 ∧ s.committed = seen.2 := by
  cases hs : run check script with
  | error e => simp only [hs, Except.toOption, Option.map_none, reduceCtorEq] at hrun
  | ok s =>
    simp only [hs, Except.toOption, Option.map_some, Option.some.injEq] at hrun
    exact ⟨s, Reaches.of_foldlM (fun a _ s => hcheck s a) hs, congrArg Prod.fst hrun,
      congrArg Prod.snd hrun⟩

theorem delivered_in_order_sample :
    ∃ s, Reaches (fun _ a => ∀ r, a ≠ .recvTimeout r) (step sampleConfig sampleCodec)
        (.initial : State 1 Bool) s ∧
      (s.readers 0).returned = [true, false] ∧ (s.readers 0).returned <+: s.committed := by
  obtain ⟨s, hreach, hreturned, -⟩ := reaches_of_run (fun _ a => ∀ r, a ≠ .recvTimeout r)
    (fun | .recvTimeout _ => false | _ => true)
    (publishing true ++ taking true ++ [.writerStep, .writerStep, .readerStep 0] ++
      publishing false ++ taking false)
    ([true, false], [true, false]) (fun _ _ hcheck _ heq => by subst heq; cases hcheck)
    (by decide +kernel)
  exact ⟨s, hreach, hreturned, (delivered_in_order sampleConfig sampleCodec hreach).1 0⟩

/-- The reader finds the slot of an overflow message before the message is sent and `recv`
times out. The call has consumed the slot, and the next call returns the next object. -/
theorem recv_timeout_shifts :
    ∃ s, Reaches (fun _ _ => True) (step sampleConfig sampleCodec)
        (.initial : State 1 Bool) s ∧
      (s.readers 0).returned = [false] ∧ s.committed = [true, false] :=
  reaches_of_run (fun _ _ => True) (fun _ => true)
    (publishing true ++ taking true ++ [.recvTimeout 0, .writerStep, .writerStep] ++
      publishing false ++ taking false)
    ([false], [true, false]) (fun _ _ _ => trivial) (by decide +kernel)

end Vllm.Broadcast
