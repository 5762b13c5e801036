import Vllm.Broadcast.Stream

/-!
# The readers of a broadcast queue

What a reader has not taken yet stays in the ring for it (`Inv.available`), and what it
makes of a slot is the object of its position (`Slot.Holds.message_eq`), so that the steps
of a reader keep the invariant of the stream (`readerStep_inv`, `readByte_inv`).
-/

namespace Vllm.Broadcast

open Function List

variable {nReader : Nat} {O : Type}

section Steps

variable {config : RingConfig} {codec : Codec O} {s s' : State nReader O} {r : Fin nReader}
  {slot : Slot nReader} {message : Message} {obj : O}

section

variable (hinv : Inv config codec s)
include hinv

/-- A reader that moves on without marking a slot. -/
theorem Inv.of_reader {reader : Reader O} (htaken : reader.taken = (s.readers r).taken)
    (hreader : ReaderInv config codec s.committed s.writerPc.pending s.slots r reader) :
    Inv config codec (s.setReader r reader) := by
  have hsame : (s.setReader r reader).taken = s.taken := by
    funext r'
    by_cases hr : r' = r
    · subst hr
      simp only [State.taken, State.setReader, update_self]
      exact htaken
    · simp only [State.taken, State.setReader, update_of_ne hr]
  refine ⟨hinv.currentIdx, by rw [hsame]; exact hinv.writer, by rw [hsame]; exact hinv.slot,
    hinv.fresh, fun r' => ?_⟩
  by_cases hr : r' = r
  · subst hr
    simp only [State.setReader, update_self]
    exact hreader
  · simp only [State.setReader, update_of_ne hr]
    exact hinv.reader r'

omit hinv in
/-- A writer keeps what it knows while readers take more and its slot, once free, stays. -/
theorem WriterOk.mono {taken taken' : Fin nReader → Nat} {published : Nat}
    {slot' : Slot nReader} {pc : WriterPc O}
    (h : WriterOk config codec taken published slot pc) (htaken : ∀ r, taken r ≤ taken' r)
    (hflags : ∀ r, slot.read r = true → slot'.read r = true)
    (hslot : pc.pending = [] → Free config taken published → slot' = slot) :
    WriterOk config codec taken' published slot' pc := by
  have hfree : Free config taken published → Free config taken' published :=
    fun h r => Nat.lt_of_lt_of_le (h r) (Nat.add_le_add_right (htaken r) _)
  cases pc with
  | idle => trivial
  | counting obj i readCount =>
    exact ⟨h.1, h.2.1, fun hcount r hr => hflags r (h.2.2 hcount r hr)⟩
  | checking obj readCount => exact fun hcount r => hflags r (h hcount r)
  | waiting obj => trivial
  | clearing obj => exact hfree h
  | writing obj position | resetting obj i | publishing obj =>
    obtain rfl := hslot rfl h.1
    exact ⟨hfree h.1, h.2⟩
  | advancing obj => trivial
  | sending obj => exact h

/-- The reader sets its flag: the object is taken. -/
theorem Inv.mark (hpc : (s.readers r).pc = .marking message) :
    Inv config codec ((s.setSlot (s.readers r).currentIdx
      { s.slots (s.readers r).currentIdx with
        read := update (s.slots (s.readers r).currentIdx).read r true }).setReader r
          { s.readers r with pc := .advancing message }) := by
  obtain ⟨hreturned, htaken_le, hle_taken, hidx, hok, hsocket⟩ := hinv.reader r
  set c := (s.readers r).returned.length with hc
  set idx := (s.readers r).currentIdx with hidx_def
  have htaken : s.taken r = c := by simp only [State.taken, Reader.taken, hpc, hc]
  simp only [Reader.taken, hpc, ← hc] at htaken_le hle_taken
  simp only [Reader.position, hpc, ← hc] at hidx
  simp only [ReaderOk, hpc, ← hc] at hok
  obtain ⟨obj, hobj, hmessage⟩ := hok
  have hlt : c < s.committed.length := (List.getElem?_eq_some_iff.1 hobj).1
  set slot := { s.slots idx with read := update (s.slots idx).read r true } with hslot
  have htaken' : ((s.setSlot idx slot).setReader r
      { s.readers r with pc := .advancing message }).taken =
        update s.taken r (c + 1) := by
    funext r'
    by_cases hr : r' = r
    · subst hr
      simp only [State.taken, State.setReader, update_self, Reader.taken, hc]
    · simp only [State.taken, State.setReader, State.setSlot, update_of_ne hr]
  have hmono : ∀ r', s.taken r' ≤ update s.taken r (c + 1) r' := by
    intro r'
    by_cases hr : r' = r
    · rw [hr, update_self, htaken]
      exact Nat.le_succ c
    · rw [update_of_ne hr]
  have hkept : ∀ j, (update s.slots idx slot j).written = (s.slots j).written ∧
      (update s.slots idx slot j).bytes = (s.slots j).bytes ∧
      ∀ r', r' ≠ r → (update s.slots idx slot j).read r' = (s.slots j).read r' := by
    intro j
    by_cases hj : j = idx
    · rw [hj, update_self]
      exact ⟨rfl, rfl, fun r' hr => update_of_ne hr true (s.slots idx).read⟩
    · rw [update_of_ne hj]
      exact ⟨rfl, rfl, fun _ _ => rfl⟩
  refine ⟨hinv.currentIdx, ?_, ?_, ?_, fun r' => ?_⟩
  · rw [htaken']
    refine hinv.writer.mono hmono (fun r' h => ?_) fun hpending hfree => ?_
    · simp only [State.setReader, State.setSlot]
      by_cases hr : r' = r
      · by_cases hj : s.currentIdx = idx
        · rw [hj, update_self, hr]
          exact update_self r true (s.slots idx).read
        · rw [update_of_ne hj]
          exact h
      · rw [(hkept _).2.2 r' hr]
        exact h
    · -- the writer is not in the slot of an object that is still to be taken
      have hne := mod_ne_of_free hfree htaken hlt
      have hcurrent := hinv.currentIdx
      rw [WriterPc.position_eq hpending] at hcurrent
      have hapart : s.currentIdx ≠ idx := by
        rw [hcurrent, hidx]
        exact hne.symm
      exact update_of_ne hapart _ _
  · intro t obj' hobj' hle
    change s.committed.length ≤ t + config.maxChunks at hle
    rw [htaken']
    have hlt' : t < s.committed.length := (List.getElem?_eq_some_iff.1 hobj').1
    obtain ⟨holds, hread, hpassed⟩ := hinv.slot t obj' hobj' hle
    obtain ⟨hwritten, hbytes, hothers⟩ := hkept (t % config.maxChunks)
    simp only [State.setReader, State.setSlot]
    refine ⟨fun h => ?_, fun h r' => ?_, fun h => ?_⟩
    · rw [hwritten] at h
      unfold Slot.Holds
      rw [hbytes]
      exact holds h
    · rw [hwritten] at h
      by_cases hr : r' = r
      · subst hr
        rw [update_self]
        by_cases ht : t = c
        · rw [ht, ← hidx, update_self, decide_eq_true (Nat.lt_succ_self c)]
          exact update_self r' true (s.slots idx).read
        have hne : t % config.maxChunks ≠ idx := by
          rw [hidx]
          intro hmod
          rcases Nat.le_total t c with hle' | hle'
          · exact ht (eq_of_mod_eq hle' (by omega) hmod)
          · exact ht (eq_of_mod_eq hle' (by omega) hmod.symm).symm
        rw [update_of_ne hne, hread h r']
        exact decide_eq_decide.2 (by omega)
      · rw [hothers r' hr, hread h r', update_of_ne hr]
    · rw [hwritten] at h
      exact ⟨(hpassed h).1, fun r' => Nat.lt_of_lt_of_le ((hpassed h).2 r') (hmono r')⟩
  · intro j hle hj
    exact ((hkept j).1).trans (hinv.fresh j hle hj)
  · by_cases hr : r' = r
    · subst hr
      simp only [State.setReader, update_self]
      refine ⟨hreturned, hlt, ?_, hidx, ⟨obj, hobj, hmessage⟩, hsocket⟩
      exact Nat.le_trans hle_taken (Nat.add_le_add_right (Nat.le_succ c) _)
    · obtain ⟨hreturned', htaken_le', hle_taken', hidx', hok', hsocket'⟩ := hinv.reader r'
      simp only [State.setReader, update_of_ne hr]
      obtain ⟨-, hbytes, hothers⟩ := hkept (s.readers r').currentIdx
      exact ⟨hreturned', htaken_le', hle_taken', hidx',
        hok'.mono (prefix_refl _) (fun h => (hothers r' hr).trans h) fun _ _ => hbytes,
        hsocket'⟩

/-- Every object that a reader has not taken yet stands in the ring, unread by it. -/
theorem Inv.available {t : Nat} (hobj : s.committed[t]? = some obj) (hle : s.taken r ≤ t) :
    (s.slots (t % config.maxChunks)).written = true ∧
      (s.slots (t % config.maxChunks)).Holds config codec obj ∧
      (s.slots (t % config.maxChunks)).read r = false := by
  have hbound : s.committed.length ≤ s.taken r + config.maxChunks := (hinv.reader r).le_taken
  have hslot := hinv.slot t obj hobj (by omega)
  cases hwritten : (s.slots (t % config.maxChunks)).written with
  | false => exact absurd ((hslot.passed hwritten).2 r) (Nat.not_lt.2 hle)
  | true =>
    refine ⟨rfl, hslot.holds hwritten, ?_⟩
    rw [hslot.read hwritten r]
    exact decide_eq_false (Nat.not_lt.2 hle)

/-- A written slot whose flag is unset is that of an object to take. -/
theorem Inv.lt_of_readable (hpc : (s.readers r).pc.Untaken)
    (hwritten : (s.slots (s.readers r).currentIdx).written = true)
    (hread : (s.slots (s.readers r).currentIdx).read r = false) :
    (s.readers r).returned.length < s.committed.length := by
  have hle := (hinv.reader r).taken_le
  have hidx := (hinv.reader r).currentIdx
  have htaken : s.taken r = (s.readers r).returned.length := Reader.taken_eq hpc
  rw [Reader.taken_eq hpc] at hle
  rw [Reader.position_eq hpc] at hidx
  refine Nat.lt_of_le_of_ne hle fun heq => ?_
  rw [heq] at hidx htaken
  rcases Nat.lt_or_ge s.committed.length config.maxChunks with hlt | hge
  · rw [Nat.mod_eq_of_lt hlt] at hidx
    rw [hidx, hinv.fresh _ (Nat.le_refl _) hlt] at hwritten
    cases hwritten
  have hpos := config.chunks_pos
  have hlast : s.committed.length - config.maxChunks < s.committed.length := by omega
  have hslot := hinv.slot _ _ (getElem?_eq_getElem hlast) (by omega)
  rw [sub_mod_self hge, ← hidx] at hslot
  rw [hslot.read hwritten r, htaken, decide_eq_true hlast] at hread
  cases hread

omit hinv in
/-- Bytes read from the slot of `obj` can only be those of its frame. -/
theorem Slot.Holds.message_eq (h : slot.Holds config codec obj)
    {buf : Nat → Option UInt8} (hbuf : Extends buf fun i => some (slot.bytes i))
    (hread : readMessage buf = some message) :
    message = messageOf config codec obj := by
  have hslot := readMessage_mono h.2 (readMessage_frame h.1)
  rw [readMessage_mono hbuf hread] at hslot
  exact Option.some.inj hslot

/-- A reader that moves on within a call before it marks its slot. -/
theorem Inv.of_readerPc {pc : ReaderPc} (hnow : (s.readers r).pc.Untaken) (hnext : pc.Untaken)
    (hok : ReaderOk config codec s.committed (s.slots (s.readers r).currentIdx) r
      { s.readers r with pc := pc }) :
    Inv config codec (s.setReader r { s.readers r with pc := pc }) := by
  obtain ⟨hreturned, htaken_le, hle_taken, hidx, -, hsocket⟩ := hinv.reader r
  rw [Reader.taken_eq hnow] at htaken_le hle_taken
  rw [Reader.position_eq hnow] at hidx
  have htaken : Reader.taken { s.readers r with pc := pc } = (s.readers r).returned.length :=
    Reader.taken_eq hnext
  refine hinv.of_reader (htaken.trans (Reader.taken_eq hnow).symm)
    ⟨hreturned, by rw [htaken]; exact htaken_le, by rw [htaken]; exact hle_taken, ?_, hok, hsocket⟩
  rw [Reader.position_eq hnext]
  exact hidx

omit hinv in
theorem overflowMessages_cons (obj : O) (objs : List O) :
    overflowMessages config codec (obj :: objs) =
      (if overflows config codec obj then [allBuffers codec obj] else []) ++
        overflowMessages config codec objs := by
  unfold overflowMessages
  split <;> simp_all

/-- A call that returns the next object of the stream. -/
theorem Inv.of_return {idx : Nat}
    {socket : List (List Bytes)} (hobj : s.committed[(s.readers r).returned.length]? = some obj)
    (htaken : (s.readers r).taken = (s.readers r).returned.length + 1)
    (hidx : idx = ((s.readers r).returned.length + 1) % config.maxChunks)
    (hsocket : (if overflows config codec obj then [allBuffers codec obj] else []) ++ socket =
      (s.readers r).socket) :
    Inv config codec (s.setReader r ⟨.idle, idx, socket, (s.readers r).returned ++ [obj]⟩) := by
  obtain ⟨hreturned, htaken_le, hle_taken, -, -, hsockets⟩ := hinv.reader r
  obtain ⟨hlt, hget⟩ := List.getElem?_eq_some_iff.1 hobj
  have hlength : ((s.readers r).returned ++ [obj]).length = (s.readers r).returned.length + 1 := by
    simp
  refine hinv.of_reader (hlength.trans htaken.symm) ⟨?_, ?_, ?_, ?_, ?_, ?_⟩
  · rw [prefix_iff_eq_take, hlength, take_add_one, ← prefix_iff_eq_take.1 hreturned, hobj]
    rfl
  · simp only [Reader.taken, hlength]
    exact hlt
  · simp only [Reader.taken, hlength]
    rw [htaken] at hle_taken
    exact hle_taken
  · simp only [Reader.position, hlength]
    exact hidx
  · trivial
  · rw [drop_eq_getElem_cons hlt, hget, overflowMessages_cons, ← hsocket, append_assoc] at hsockets
    simp only [hlength]
    exact append_cancel_left hsockets

theorem readerStep_inv (hstep : readerStep config codec s r = .ok s') : Inv config codec s' := by
  obtain ⟨-, -, -, hidx, hok, hsocket⟩ := hinv.reader r
  unfold readerStep at hstep
  cases hpc : (s.readers r).pc with
  | idle => simp only [hpc] at hstep; cases hstep
  | checkingRead =>
    simp only [hpc] at hstep
    cases hstep
    exact hinv.of_readerPc (by rw [hpc]; trivial) trivial fun h => h
  | checkingWritten readFlag =>
    have huntaken : (s.readers r).pc.Untaken := by rw [hpc]; trivial
    simp only [hpc, ReaderOk] at hstep hok
    split at hstep
    · cases hstep
      exact hinv.of_readerPc huntaken trivial trivial
    rename_i hcheck
    cases hstep
    simp only [Bool.or_eq_true, Bool.not_eq_true', not_or, Bool.not_eq_false,
      Bool.not_eq_true] at hcheck
    exact hinv.of_readerPc huntaken trivial
      ⟨hinv.lt_of_readable huntaken hcheck.1 (hok hcheck.2), fun _ _ h => by cases h⟩
  | waiting =>
    simp only [hpc] at hstep
    cases hstep
    exact hinv.of_readerPc (by rw [hpc]; trivial) trivial trivial
  | reading buf =>
    have huntaken : (s.readers r).pc.Untaken := by rw [hpc]; trivial
    simp only [hpc, ReaderOk] at hstep hok
    cases hmessage : readMessage buf with
    | none => simp only [hmessage] at hstep; cases hstep
    | some message =>
      simp only [hmessage] at hstep
      cases hstep
      have hobj := getElem?_eq_getElem hok.1
      obtain ⟨-, hholds, -⟩ := hinv.available hobj (Nat.le_of_eq (Reader.taken_eq huntaken))
      rw [Reader.position_eq huntaken] at hidx
      rw [← hidx] at hholds
      exact hinv.of_readerPc huntaken trivial ⟨_, hobj, hholds.message_eq hok.2 hmessage⟩
  | marking message =>
    simp only [hpc] at hstep
    cases hstep
    exact hinv.mark hpc
  | advancing message =>
    simp only [hpc, ReaderOk] at hstep hok
    obtain ⟨obj, hobj, hmessage⟩ := hok
    have htaken : (s.readers r).taken = (s.readers r).returned.length + 1 := by
      simp only [Reader.taken, hpc]
    have hnext : ((s.readers r).currentIdx + 1) % config.maxChunks =
        ((s.readers r).returned.length + 1) % config.maxChunks := by
      rw [hidx, Nat.mod_add_mod]
      simp only [Reader.position, hpc]
    cases hover : overflows config codec obj with
    | true =>
      obtain rfl : message = .overflow := by rw [hmessage, messageOf, if_pos hover]
      cases hstep
      obtain ⟨hreturned, htaken_le, hle_taken, -, -, -⟩ := hinv.reader r
      rw [htaken] at htaken_le hle_taken
      exact hinv.of_reader htaken.symm
        ⟨hreturned, htaken_le, hle_taken, hnext, ⟨obj, hobj, hover⟩, hsocket⟩
    | false =>
      obtain rfl : message = .inRing (allBuffers codec obj) := by
        rw [hmessage, messageOf, hover]
        rfl
      simp only [show codec.loads (allBuffers codec obj) = some obj from codec.loads_dumps obj]
        at hstep
      cases hstep
      exact hinv.of_return hobj htaken hnext (by simp [hover])
  | receiving =>
    simp only [hpc, ReaderOk] at hstep hok
    obtain ⟨obj, hobj, hover⟩ := hok
    obtain ⟨hlt, hget⟩ := List.getElem?_eq_some_iff.1 hobj
    cases hqueue : (s.readers r).socket with
    | nil => simp only [hqueue] at hstep; cases hstep
    | cons buffers rest =>
      rw [hqueue, drop_eq_getElem_cons hlt, hget, overflowMessages_cons, if_pos hover] at hsocket
      obtain ⟨rfl, -⟩ := List.cons.inj hsocket
      simp only [hqueue,
        show codec.loads (allBuffers codec obj) = some obj from codec.loads_dumps obj] at hstep
      cases hstep
      refine hinv.of_return hobj (by simp only [Reader.taken, hpc]) ?_
        (by rw [if_pos hover, hqueue]; rfl)
      rw [hidx]
      simp only [Reader.position, hpc]

theorem readByte_inv {position : Nat}
    (hstep : readByte s r position = .ok s') : Inv config codec s' := by
  have hok := (hinv.reader r).pc
  unfold readByte at hstep
  cases hpc : (s.readers r).pc with
  | reading buf =>
    simp only [hpc, ReaderOk] at hstep hok
    cases hstep
    refine hinv.of_readerPc (by rw [hpc]; trivial) trivial ⟨hok.1, fun i byte hbyte => ?_⟩
    by_cases hi : i = position
    · subst hi
      rwa [update_self] at hbyte
    · rw [update_of_ne hi] at hbyte
      exact hok.2 i byte hbyte
  | _ => simp only [hpc] at hstep; cases hstep

end

end Steps

end Vllm.Broadcast
