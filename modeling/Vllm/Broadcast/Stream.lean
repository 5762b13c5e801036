import Mathlib.Data.Nat.ModEq
import Vllm.Broadcast.Queue

/-!
# The stream of a broadcast queue

The objects that readers may see are those whose slot is marked as written
(`State.committed`). Writer and readers are points of that stream; `Inv` says what each of
them knows of the slots at every program counter, and the steps of the writer keep it
(`writerStep_inv`).
-/

namespace Vllm.Broadcast

open Function List

variable {nReader : Nat} {O : Type} {pc : WriterPc O} {reader : Reader O} {m : Nat}

/-! ## Positions in the stream -/

/-- The object whose slot is marked as written while `enqueue` has not returned yet. From
there on the call cannot time out. -/
def WriterPc.pending : WriterPc O → List O
  | .advancing obj => [obj]
  | .sending obj => [obj]
  | _ => []

/-- The objects of the calls of `enqueue` that have succeeded or can only succeed. -/
def State.committed (s : State nReader O) : List O := s.enqueued ++ s.writerPc.pending

/-- How many slots the writer has moved past. -/
def WriterPc.position (pc : WriterPc O) (published : Nat) : Nat :=
  match pc with
  | .advancing _ => published - 1
  | _ => published

theorem WriterPc.position_eq (h : pc.pending = []) (published : Nat) :
    pc.position published = published := by
  cases pc with
  | advancing obj => cases h
  | _ => rfl

/-- How many slots the reader has marked as read. -/
def Reader.taken (reader : Reader O) : Nat :=
  match reader.pc with
  | .advancing _ => reader.returned.length + 1
  | .receiving => reader.returned.length + 1
  | _ => reader.returned.length

/-- How many slots the reader has moved past. -/
def Reader.position (reader : Reader O) : Nat :=
  match reader.pc with
  | .receiving => reader.returned.length + 1
  | _ => reader.returned.length

/-- The reader has not marked the slot of the object it is at. -/
def ReaderPc.Untaken : ReaderPc → Prop
  | .advancing _ => False
  | .receiving => False
  | _ => True

theorem Reader.taken_eq (h : reader.pc.Untaken) : reader.taken = reader.returned.length := by
  unfold Reader.taken
  cases hpc : reader.pc with
  | advancing message => rw [hpc] at h; exact h.elim
  | receiving => rw [hpc] at h; exact h.elim
  | _ => rfl

theorem Reader.position_eq (h : reader.pc.Untaken) : reader.position = reader.returned.length := by
  unfold Reader.position
  cases hpc : reader.pc with
  | receiving => rw [hpc] at h; exact h.elim
  | _ => rfl

def State.taken (s : State nReader O) (r : Fin nReader) : Nat := (s.readers r).taken

theorem eq_of_mod_eq {a b : Nat} (hab : a ≤ b) (hlt : b < a + m) (hmod : a % m = b % m) :
    a = b := by
  have hdvd : m ∣ b - a := (Nat.modEq_iff_dvd' hab).1 hmod
  have hzero := Nat.eq_zero_of_dvd_of_lt hdvd (by omega)
  omega

/-! ## The invariant -/

section Invariant

variable (config : RingConfig) (codec : Codec O)

/-- The slot holds the frame of `obj`. -/
def Slot.Holds (slot : Slot nReader) (obj : O) : Prop :=
  encodable config codec obj = true ∧
    Extends (fun i => (frame config codec obj)[i]?) fun i => some (slot.bytes i)

/-- The messages that still have to arrive at a reader that has returned `objs`. -/
def overflowMessages (objs : List O) : List (List Bytes) :=
  (objs.filter (overflows config codec)).map (allBuffers codec)

/-- The slot of object `t`, one of the last `maxChunks` of `published`. -/
structure SlotOk (taken : Fin nReader → Nat) (published : Nat) (slot : Slot nReader) (t : Nat)
    (obj : O) : Prop where
  holds : slot.written = true → slot.Holds config codec obj
  read : slot.written = true → ∀ r, slot.read r = decide (t < taken r)
  passed : slot.written = false → t + config.maxChunks = published ∧ ∀ r, t < taken r

/-- Every reader is past what the slot to write next held. -/
def Free (taken : Fin nReader → Nat) (published : Nat) : Prop :=
  ∀ r, published < taken r + config.maxChunks

/-- What the writer knows of the slot it is to write. -/
def WriterOk (taken : Fin nReader → Nat) (published : Nat) (slot : Slot nReader) :
    WriterPc O → Prop
  | .idle => True
  | .counting _ i readCount =>
    i ≤ nReader ∧ readCount ≤ i ∧ (readCount = i → ∀ r : Fin nReader, r < i → slot.read r = true)
  | .checking _ readCount => readCount = nReader → ∀ r, slot.read r = true
  | .waiting _ => True
  | .clearing _ => Free config taken published
  | .writing obj position =>
    Free config taken published ∧ slot.written = false ∧
      ∀ i < position, (frame config codec obj)[i]? = some (slot.bytes i)
  | .resetting obj i =>
    Free config taken published ∧ slot.written = false ∧ slot.Holds config codec obj ∧
      ∀ r : Fin nReader, r < i → slot.read r = false
  | .publishing obj =>
    Free config taken published ∧ slot.written = false ∧ slot.Holds config codec obj ∧
      ∀ r, slot.read r = false
  | .advancing _ => True
  | .sending obj => overflows config codec obj = true

/-- What a reader knows of the slot it reads. -/
def ReaderOk (committed : List O) (slot : Slot nReader) (r : Fin nReader) (reader : Reader O) :
    Prop :=
  match reader.pc with
  | .idle => True
  | .checkingRead => True
  | .checkingWritten readFlag => readFlag = false → slot.read r = false
  | .waiting => True
  | .reading buf =>
    reader.returned.length < committed.length ∧ Extends buf fun i => some (slot.bytes i)
  | .marking message =>
    ∃ obj, committed[reader.returned.length]? = some obj ∧ message = messageOf config codec obj
  | .advancing message =>
    ∃ obj, committed[reader.returned.length]? = some obj ∧ message = messageOf config codec obj
  | .receiving =>
    ∃ obj, committed[reader.returned.length]? = some obj ∧ overflows config codec obj = true

/-- A reader is a point of the stream between what it has returned and what is to come. -/
structure ReaderInv (committed pending : List O) (slots : Nat → Slot nReader) (r : Fin nReader)
    (reader : Reader O) : Prop where
  returned : reader.returned <+: committed
  taken_le : reader.taken ≤ committed.length
  le_taken : committed.length ≤ reader.taken + config.maxChunks
  currentIdx : reader.currentIdx = reader.position % config.maxChunks
  pc : ReaderOk config codec committed (slots reader.currentIdx) r reader
  socket : reader.socket ++ overflowMessages config codec pending =
    overflowMessages config codec (committed.drop reader.returned.length)

structure Inv (s : State nReader O) : Prop where
  currentIdx : s.currentIdx = s.writerPc.position s.committed.length % config.maxChunks
  writer : WriterOk config codec s.taken s.committed.length (s.slots s.currentIdx) s.writerPc
  slot : ∀ t obj, s.committed[t]? = some obj → s.committed.length ≤ t + config.maxChunks →
    SlotOk config codec s.taken s.committed.length (s.slots (t % config.maxChunks)) t obj
  fresh : ∀ j, s.committed.length ≤ j → j < config.maxChunks → (s.slots j).written = false
  reader : ∀ r, ReaderInv config codec s.committed s.writerPc.pending s.slots r (s.readers r)

end Invariant

section Steps

variable {config : RingConfig} {codec : Codec O} {s s' : State nReader O} {slot : Slot nReader}
  {r : Fin nReader} {obj : O}

/-- What has been published and what a reader has returned decide what is in flight. -/
theorem overflowMessages_append (objs objs' : List O) :
    overflowMessages config codec (objs ++ objs') =
      overflowMessages config codec objs ++ overflowMessages config codec objs' := by
  simp [overflowMessages]

/-- A reader keeps what it knows when the stream grows and the slot it is reading stays. -/
theorem ReaderOk.mono {committed committed' : List O} {slot' : Slot nReader}
     (h : ReaderOk config codec committed slot r reader)
    (hcommitted : committed <+: committed') (hread : slot.read r = false → slot'.read r = false)
    (hbytes : ∀ buf, reader.pc = .reading buf → slot'.bytes = slot.bytes) :
    ReaderOk config codec committed' slot' r reader := by
  have hget : ∀ {i : Nat} {obj : O}, committed[i]? = some obj → committed'[i]? = some obj := by
    intro i obj hobj
    obtain ⟨rest, rfl⟩ := hcommitted
    rw [getElem?_append_left (List.getElem?_eq_some_iff.1 hobj).1]
    exact hobj
  unfold ReaderOk at h ⊢
  cases hpc : reader.pc with
  | idle => trivial
  | checkingRead => trivial
  | checkingWritten readFlag =>
    simp only [hpc] at h
    exact fun hflag => hread (h hflag)
  | waiting => trivial
  | reading buf =>
    simp only [hpc] at h
    simp only [hbytes buf hpc]
    exact ⟨Nat.lt_of_lt_of_le h.1 hcommitted.length_le, h.2⟩
  | marking message | advancing message | receiving =>
    simp only [hpc] at h
    obtain ⟨obj, hobj, hmessage⟩ := h
    exact ⟨obj, hget hobj, hmessage⟩

/-! ## Steps of the writer -/

section

variable (hinv : Inv config codec s)
include hinv

/-- A writer that moves on without touching a slot. -/
theorem Inv.of_writer (hslots : s'.slots = s.slots)
    (hreaders : s'.readers = s.readers) (hcommitted : s'.committed = s.committed)
    (hpending : overflowMessages config codec s'.writerPc.pending =
      overflowMessages config codec s.writerPc.pending)
    (hidx : s'.currentIdx = s'.writerPc.position s'.committed.length % config.maxChunks)
    (hwriter : WriterOk config codec s.taken s.committed.length (s.slots s'.currentIdx)
      s'.writerPc) : Inv config codec s' := by
  have htaken : s'.taken = s.taken := by
    funext r
    simp only [State.taken, hreaders]
  refine ⟨hidx, by rw [htaken, hcommitted, hslots]; exact hwriter, ?_, ?_, fun r => ?_⟩
  · intro t obj hobj hle
    rw [hcommitted] at hobj hle
    rw [htaken, hcommitted, hslots]
    exact hinv.slot t obj hobj hle
  · rw [hcommitted, hslots]
    exact hinv.fresh
  · obtain ⟨hreturned, htaken_le, hle_taken, hcurrent, hpc, hsocket⟩ := hinv.reader r
    rw [hcommitted, hslots, hreaders]
    exact ⟨hreturned, htaken_le, hle_taken, hcurrent, hpc, by rw [hpending]; exact hsocket⟩

/-- A writer that moves on before its object is published, or gives up. -/
theorem Inv.of_pc (hnow : s.writerPc.pending = []) (hnext : pc.pending = [])
    (hwriter : WriterOk config codec s.taken s.committed.length (s.slots s.currentIdx) pc) :
    Inv config codec { s with writerPc := pc } := by
  have hcommitted : State.committed { s with writerPc := pc } = s.committed := by
    simp only [State.committed, hnow, hnext]
  refine hinv.of_writer rfl rfl hcommitted (by rw [hnow, hnext]) ?_ hwriter
  rw [hcommitted, WriterPc.position_eq hnext, ← WriterPc.position_eq hnow s.committed.length]
  exact hinv.currentIdx

omit hinv in
/-- A reader that has not taken its object yet reads a slot that is not free. -/
theorem mod_ne_of_free (hfree : Free config s.taken s.committed.length)
    {c : Nat} (htaken : s.taken r = c) (hlt : c < s.committed.length) :
    c % config.maxChunks ≠ s.committed.length % config.maxChunks := by
  intro hmod
  have hbound := hfree r
  rw [htaken] at hbound
  have := eq_of_mod_eq (Nat.le_of_lt hlt) hbound hmod
  omega

/-- A writer that changes the slot it has cleared or is about to clear. -/
theorem Inv.of_slot (hnow : s.writerPc.pending = []) (hnext : pc.pending = [])
    (hfree : Free config s.taken s.committed.length) (hwritten : slot.written = false)
    (hread : ∀ r, (s.slots s.currentIdx).read r = false → slot.read r = false)
    (hwriter : WriterOk config codec s.taken s.committed.length slot pc) :
    Inv config codec { s.setSlot s.currentIdx slot with writerPc := pc } := by
  have hcommitted : State.committed { s.setSlot s.currentIdx slot with writerPc := pc } =
      s.committed := by
    simp only [State.committed, State.setSlot, hnow, hnext]
  have hidx : s.currentIdx = s.committed.length % config.maxChunks := by
    rw [hinv.currentIdx, WriterPc.position_eq hnow]
  refine ⟨?_, ?_, ?_, ?_, fun r => ?_⟩
  · rw [hcommitted, WriterPc.position_eq hnext]
    exact hidx
  · rw [hcommitted]
    simp only [State.setSlot, update_self]
    exact hwriter
  · intro t obj hobj hle
    rw [hcommitted] at hobj hle ⊢
    have hlt : t < s.committed.length := (List.getElem?_eq_some_iff.1 hobj).1
    simp only [State.setSlot]
    by_cases hmod : t % config.maxChunks = s.currentIdx
    · -- the oldest object of the ring, which no reader needs any more
      rw [hmod, update_self]
      have hoff : s.committed.length = t + config.maxChunks := by
        by_contra hne
        have := eq_of_mod_eq (Nat.le_of_lt hlt) (by omega) (hmod.trans hidx)
        omega
      refine ⟨fun h => ?_, fun h => ?_, fun _ => ⟨hoff.symm, fun r => ?_⟩⟩
      · rw [hwritten] at h
        cases h
      · rw [hwritten] at h
        cases h
      · have hbound : s.committed.length < s.taken r + config.maxChunks := hfree r
        change t < s.taken r
        omega
    · rw [update_of_ne hmod]
      exact hinv.slot t obj hobj hle
  · intro j hle hlt
    rw [hcommitted] at hle
    simp only [State.setSlot]
    by_cases hj : j = s.currentIdx
    · rw [hj, update_self]
      exact hwritten
    · rw [update_of_ne hj]
      exact hinv.fresh j hle hlt
  · obtain ⟨hreturned, htaken_le, hle_taken, hcurrent, hpc, hsocket⟩ := hinv.reader r
    rw [hcommitted]
    refine ⟨hreturned, htaken_le, hle_taken, hcurrent, ?_, by rw [hnext, ← hnow]; exact hsocket⟩
    simp only [State.setSlot]
    by_cases hsame : (s.readers r).currentIdx = s.currentIdx
    · rw [hsame, update_self]
      rw [hsame] at hpc
      refine hpc.mono (prefix_refl _) (hread r) fun buf hbuf => ?_
      -- a reader in the middle of a slot keeps the writer out of it
      simp only [ReaderOk, hbuf] at hpc
      have htaken : s.taken r = (s.readers r).returned.length := by
        simp only [State.taken, Reader.taken, hbuf]
      refine absurd ?_ (mod_ne_of_free hfree htaken hpc.1)
      rw [← hidx, ← hsame, hcurrent]
      simp only [Reader.position, hbuf]
    · rw [update_of_ne hsame]
      exact hpc

/-- `metadata_buffer[0] = 1`: the object joins the stream. -/
theorem Inv.publish (hpc : s.writerPc = .publishing obj) :
    Inv config codec { s.setSlot s.currentIdx { s.slots s.currentIdx with written := true } with
      writerPc := .advancing obj } := by
  obtain ⟨hcurrent, hwriter, hslot, hfresh, hreader⟩ := hinv
  simp only [hpc, WriterOk, WriterPc.position] at hcurrent hwriter
  obtain ⟨hfree, hwritten, hholds, hread⟩ := hwriter
  set slot := { s.slots s.currentIdx with written := true } with hslot_def
  have hcommitted : State.committed
      { s.setSlot s.currentIdx slot with writerPc := .advancing obj } = s.committed ++ [obj] := by
    simp only [State.committed, State.setSlot, hpc, WriterPc.pending, append_nil]
  have hlength : (s.committed ++ [obj]).length = s.committed.length + 1 := by simp
  have hsame : ∀ j, (update s.slots s.currentIdx slot j).read = (s.slots j).read ∧
      (update s.slots s.currentIdx slot j).bytes = (s.slots j).bytes := by
    intro j
    by_cases hj : j = s.currentIdx
    · subst hj
      simp [hslot_def]
    · simp [hj]
  refine ⟨?_, trivial, ?_, ?_, fun r => ?_⟩
  · rw [hcommitted, hlength]
    exact hcurrent
  · intro t obj' hobj hle
    rw [hcommitted] at hle ⊢
    rw [hcommitted] at hobj
    simp only [State.setSlot]
    have hlt : t < s.committed.length + 1 := hlength ▸ (List.getElem?_eq_some_iff.1 hobj).1
    by_cases hlast : t = s.committed.length
    · -- the new object, which no reader has taken
      subst hlast
      rw [getElem?_concat_length] at hobj
      cases hobj
      rw [← hcurrent, update_self]
      refine ⟨fun _ => hholds, fun _ r => ?_, fun h => nomatch h⟩
      have htaken : s.taken r ≤ s.committed.length := (hreader r).taken_le
      change (s.slots s.currentIdx).read r = decide (s.committed.length < s.taken r)
      rw [hread r, decide_eq_false (by omega)]
    · have hne : t % config.maxChunks ≠ s.currentIdx := by
        intro hmod
        exact hlast (eq_of_mod_eq (by omega) (by omega) (hmod.trans hcurrent))
      rw [getElem?_append_left (by omega)] at hobj
      rw [update_of_ne hne]
      obtain ⟨holds, hreads, hpassed⟩ := hslot t obj' hobj (by omega)
      refine ⟨holds, hreads, fun h => ?_⟩
      have := (hpassed h).1
      omega
  · intro j hle hlt
    rw [hcommitted] at hle
    have hne : j ≠ s.currentIdx := by
      have := Nat.mod_le s.committed.length config.maxChunks
      omega
    simp only [State.setSlot]
    rw [update_of_ne hne]
    exact hfresh j (by omega) hlt
  · obtain ⟨hreturned, htaken_le, -, hidx, hok, hsocket⟩ := hreader r
    have hbound : s.committed.length < (s.readers r).taken + config.maxChunks := hfree r
    rw [hcommitted]
    refine ⟨hreturned.trans (prefix_append _ _), ?_, ?_, hidx, ?_, ?_⟩
    · rw [hlength]
      exact Nat.le_succ_of_le htaken_le
    · rw [hlength]
      exact hbound
    · exact hok.mono (prefix_append _ _)
        (fun h => by simp only [State.setSlot, hsame]; exact h)
        (fun _ _ => (hsame _).2)
    · simp only [hpc, WriterPc.pending] at hsocket
      simp only [State.setSlot, WriterPc.pending]
      rw [drop_append_of_le_length hreturned.length_le, overflowMessages_append, ← hsocket]
      simp [overflowMessages]

/-- `send_multipart` of an object that does not fit a slot, the last access of its call. -/
theorem Inv.send (hpc : s.writerPc = .sending obj) :
    Inv config codec ((s.send (allBuffers codec obj)).finish obj) := by
  obtain ⟨hcurrent, hwriter, hslot, hfresh, hreader⟩ := hinv
  simp only [hpc, WriterOk, WriterPc.position] at hcurrent hwriter
  have hcommitted : ((s.send (allBuffers codec obj)).finish obj).committed = s.committed := by
    simp only [State.committed, State.finish, State.send, hpc, WriterPc.pending, append_nil]
  refine ⟨?_, trivial, ?_, ?_, fun r => ?_⟩
  · rw [hcommitted]
    exact hcurrent
  · rw [hcommitted]
    exact hslot
  · rw [hcommitted]
    exact hfresh
  · obtain ⟨hreturned, htaken_le, hle_taken, hidx, hok, hsocket⟩ := hreader r
    rw [hcommitted]
    refine ⟨hreturned, htaken_le, hle_taken, hidx, hok, ?_⟩
    simp only [hpc, WriterPc.pending] at hsocket
    simp only [State.finish, State.send, WriterPc.pending, ← hsocket]
    simp [overflowMessages, hwriter]

omit hinv in
/-- The slot of the object before the last `maxChunks`. -/
theorem sub_mod_self {w : Nat} (h : m ≤ w) : (w - m) % m = w % m := by
  conv_rhs => rw [← Nat.sub_add_cancel h, Nat.add_mod_right]

/-- `check` of `acquire_write` lets the writer pass only into a slot every reader is past. -/
theorem free_of_check {readCount : Nat} (hpc : s.writerPc = .checking obj readCount)
    (hcheck : ((s.slots s.currentIdx).written && readCount != nReader) = false) :
    Free config s.taken s.committed.length := by
  have hcurrent := hinv.currentIdx
  have hwriter := hinv.writer
  simp only [hpc, WriterOk, WriterPc.position] at hcurrent hwriter
  intro r
  rcases Nat.lt_or_ge s.committed.length config.maxChunks with hlt | hge
  · omega
  have hlast : s.committed.length - config.maxChunks < s.committed.length := by
    have := config.chunks_pos
    omega
  have hslot := hinv.slot _ _ (getElem?_eq_getElem hlast) (by omega)
  rw [sub_mod_self hge, ← hcurrent] at hslot
  cases hwritten : (s.slots s.currentIdx).written with
  | false =>
    have := (hslot.passed hwritten).2 r
    omega
  | true =>
    have hcount : readCount = nReader := by simpa [hwritten] using hcheck
    have hread := hslot.read hwritten r
    rw [hwriter hcount r] at hread
    have := of_decide_eq_true hread.symm
    omega

theorem writerStep_inv (hstep : writerStep config codec s = .ok s') : Inv config codec s' := by
  have hwriter := hinv.writer
  unfold writerStep at hstep
  cases hpc : s.writerPc with
  | idle => simp only [hpc] at hstep; cases hstep
  | counting obj i readCount =>
    simp only [hpc, WriterOk] at hstep hwriter
    obtain ⟨hi, hcount, hflags⟩ := hwriter
    split at hstep
    · rename_i hlt
      cases hstep
      refine hinv.of_pc (by rw [hpc]; rfl) rfl ?_
      cases hbit : (s.slots s.currentIdx).read ⟨i, hlt⟩ with
      | false =>
        refine ⟨hlt, Nat.le_succ_of_le hcount, fun h => ?_⟩
        simp only [Bool.toNat_false] at h
        omega
      | true =>
        refine ⟨hlt, Nat.succ_le_succ hcount, fun h r hr => ?_⟩
        simp only [Bool.toNat_true, Nat.add_right_cancel_iff] at h
        rcases Nat.lt_succ_iff_lt_or_eq.1 hr with hr | hr
        · exact hflags h r hr
        rw [← hbit]
        congr 1
        exact Fin.ext hr
    · cases hstep
      have hall : i = nReader := by omega
      exact hinv.of_pc (by rw [hpc]; rfl) rfl
        fun h r => hflags (h.trans hall.symm) r (hall ▸ r.isLt)
  | checking obj readCount =>
    simp only [hpc] at hstep
    split at hstep
    · cases hstep
      exact hinv.of_pc (by rw [hpc]; rfl) rfl trivial
    rename_i hcheck
    cases hstep
    exact hinv.of_pc (by rw [hpc]; rfl) rfl
      (free_of_check hinv hpc (Bool.eq_false_iff.2 hcheck))
  | waiting obj =>
    simp only [hpc] at hstep
    cases hstep
    exact hinv.of_pc (by rw [hpc]; rfl) rfl
      ⟨Nat.zero_le _, Nat.le_refl _, fun _ r hr => absurd hr (Nat.not_lt_zero _)⟩
  | clearing obj =>
    simp only [hpc, WriterOk] at hstep hwriter
    cases hstep
    exact hinv.of_slot (by rw [hpc]; rfl) rfl hwriter rfl (fun _ h => h)
      ⟨hwriter, rfl, fun i hi => absurd hi (Nat.not_lt_zero _)⟩
  | writing obj position =>
    simp only [hpc, WriterOk] at hstep hwriter
    obtain ⟨hfree, hwritten, hbytes⟩ := hwriter
    cases hbyte : (frame config codec obj)[position]? with
    | some byte =>
      simp only [hbyte] at hstep
      cases hstep
      refine hinv.of_slot (by rw [hpc]; rfl) rfl hfree hwritten (fun _ h => h)
        ⟨hfree, hwritten, fun i hi => ?_⟩
      rcases Nat.lt_succ_iff_lt_or_eq.1 hi with hi | rfl
      · simp only [update_of_ne (Nat.ne_of_lt hi)]
        exact hbytes i hi
      · simp only [update_self]
        exact hbyte
    | none =>
      simp only [hbyte] at hstep
      split at hstep
      · rename_i hencodable
        cases hstep
        refine hinv.of_pc (by rw [hpc]; rfl) rfl
          ⟨hfree, hwritten, ⟨hencodable, fun i byte hi => ?_⟩,
            fun r hr => absurd hr (Nat.not_lt_zero _)⟩
        have hlt : i < position := by
          have := (List.getElem?_eq_some_iff.1 hi).1
          have := List.getElem?_eq_none_iff.1 hbyte
          omega
        exact (hbytes i hlt).symm.trans hi
      · cases hstep
        exact hinv.of_pc (by rw [hpc]; rfl) rfl trivial
  | resetting obj i =>
    simp only [hpc, WriterOk] at hstep hwriter
    obtain ⟨hfree, hwritten, hholds, hread⟩ := hwriter
    split at hstep
    · rename_i hlt
      cases hstep
      refine hinv.of_slot (by rw [hpc]; rfl) rfl hfree hwritten (fun r h => ?_)
        ⟨hfree, hwritten, hholds, fun r hr => ?_⟩
      · by_cases hr : r = ⟨i, hlt⟩
        · simp only [hr, update_self]
        · simp only [update_of_ne hr]
          exact h
      · by_cases hr' : r = ⟨i, hlt⟩
        · simp only [hr', update_self]
        · simp only [update_of_ne hr']
          have hne : r.val ≠ i := fun h => hr' (Fin.ext h)
          exact hread r (by omega)
    · cases hstep
      exact hinv.of_pc (by rw [hpc]; rfl) rfl
        ⟨hfree, hwritten, hholds, fun r => hread r (by omega)⟩
  | publishing obj =>
    simp only [hpc] at hstep
    cases hstep
    exact hinv.publish hpc
  | advancing obj =>
    simp only [hpc] at hstep
    have hidx : (s.currentIdx + 1) % config.maxChunks =
        s.committed.length % config.maxChunks := by
      rw [hinv.currentIdx]
      simp [State.committed, hpc, WriterPc.pending, WriterPc.position]
    split at hstep
    · rename_i hover
      cases hstep
      refine hinv.of_writer rfl rfl (by simp only [State.committed, hpc, WriterPc.pending])
        (by simp only [hpc, WriterPc.pending]) ?_ hover
      simpa only [State.committed, hpc, WriterPc.pending, WriterPc.position] using hidx
    · rename_i hfits
      cases hstep
      refine hinv.of_writer rfl rfl
        (by simp only [State.committed, State.finish, hpc, WriterPc.pending, append_nil])
        (by simp [State.finish, hpc, WriterPc.pending, overflowMessages, hfits]) ?_ trivial
      simpa [State.committed, State.finish, hpc, WriterPc.pending, WriterPc.position] using hidx
  | sending obj =>
    simp only [hpc] at hstep
    cases hstep
    exact hinv.send hpc

end

end Steps

end Vllm.Broadcast
