import Vllm.Broadcast.Frame

/-!
# The broadcast queue

One writer and its local readers share a ring of slots; messages that do not fit a slot go
through a socket per reader. Every access to shared memory is one step, so that the steps of
writer and readers interleave in any way; a call in progress is a program counter with the
call's local variables.
-/

namespace Vllm.Broadcast

/-- A chunk of `ShmRingBuffer` and its metadata. -/
structure Slot (nReader : Nat) where
  written : Bool
  read : Fin nReader → Bool
  bytes : Nat → UInt8

/-- Where the writer is in `enqueue`. -/
inductive WriterPc (O : Type)
  | idle
  /-- `check` has summed the flags of the first `i` readers -/
  | counting (obj : O) (i readCount : Nat)
  | checking (obj : O) (readCount : Nat)
  | waiting (obj : O)
  | clearing (obj : O)
  | writing (obj : O) (position : Nat)
  | resetting (obj : O) (i : Nat)
  | publishing (obj : O)
  | advancing (obj : O)
  | sending (obj : O)

/-- Where a reader is in `dequeue`. -/
inductive ReaderPc
  | idle
  | checkingRead
  | checkingWritten (readFlag : Bool)
  | waiting
  /-- the bytes of the slot that have been read -/
  | reading (buf : Nat → Option UInt8)
  | marking (message : Message)
  | advancing (message : Message)
  | receiving

structure Reader (O : Type) where
  pc : ReaderPc
  currentIdx : Nat
  /-- messages that are sent and not yet received -/
  socket : List (List Bytes)
  /-- what the successful calls of `dequeue` have returned -/
  returned : List O

structure State (nReader : Nat) (O : Type) where
  slots : Nat → Slot nReader
  writerPc : WriterPc O
  currentIdx : Nat
  readers : Fin nReader → Reader O
  /-- the objects of the successful calls of `enqueue` -/
  enqueued : List O

inductive Action (nReader : Nat) (O : Type)
  | enqueue (obj : O)
  | writerStep
  /-- `TimeoutError` in `acquire_write` -/
  | writerTimeout
  | dequeue (r : Fin nReader)
  | readerStep (r : Fin nReader)
  | readByte (r : Fin nReader) (position : Nat)
  /-- `TimeoutError` in `_wait_until_readable` -/
  | readerTimeout (r : Fin nReader)
  /-- `TimeoutError` in `recv`, before the message is delivered -/
  | recvTimeout (r : Fin nReader)

/-- The step cannot be taken now. -/
inductive Blocked
  | blocked

variable {nReader : Nat} {O : Type}

namespace State

variable (s : State nReader O)

def initial : State nReader O where
  slots := fun _ => ⟨false, fun _ => false, fun _ => 0⟩
  writerPc := .idle
  currentIdx := 0
  readers := fun _ => ⟨.idle, 0, [], []⟩
  enqueued := []

def setSlot (idx : Nat) (slot : Slot nReader) : State nReader O :=
  { s with slots := Function.update s.slots idx slot }

def setReader (r : Fin nReader) (reader : Reader O) : State nReader O :=
  { s with readers := Function.update s.readers r reader }

/-- `enqueue` returns. -/
def finish (obj : O) : State nReader O :=
  { s with writerPc := .idle, enqueued := s.enqueued ++ [obj] }

/-- `send_multipart`, to the socket of every reader. -/
def send (buffers : List Bytes) : State nReader O :=
  { s with readers := fun r =>
      { s.readers r with socket := (s.readers r).socket ++ [buffers] } }

end State

section Steps

variable (config : RingConfig) (codec : Codec O) (s : State nReader O)

/-- The next access of the writer. -/
def writerStep : Except Blocked (State nReader O) :=
  let slot := s.slots s.currentIdx
  match s.writerPc with
  | .idle => .error .blocked
  | .counting obj i readCount =>
    if h : i < nReader then
      .ok { s with writerPc := .counting obj (i + 1) (readCount + (slot.read ⟨i, h⟩).toNat) }
    else .ok { s with writerPc := .checking obj readCount }
  | .checking obj readCount =>
    if slot.written && readCount != nReader then .ok { s with writerPc := .waiting obj }
    else .ok { s with writerPc := .clearing obj }
  | .waiting obj => .ok { s with writerPc := .counting obj 0 0 }
  | .clearing obj =>
    .ok { s.setSlot s.currentIdx { slot with written := false } with writerPc := .writing obj 0 }
  | .writing obj position =>
    match (frame config codec obj)[position]? with
    | some byte =>
      .ok { s.setSlot s.currentIdx
              { slot with bytes := Function.update slot.bytes position byte } with
            writerPc := .writing obj (position + 1) }
    | none =>
      -- an integer that does not fit raises `OverflowError` out of `acquire_write`
      if encodable config codec obj then .ok { s with writerPc := .resetting obj 0 }
      else .ok { s with writerPc := .idle }
  | .resetting obj i =>
    if h : i < nReader then
      .ok { s.setSlot s.currentIdx
              { slot with read := Function.update slot.read ⟨i, h⟩ false } with
            writerPc := .resetting obj (i + 1) }
    else .ok { s with writerPc := .publishing obj }
  | .publishing obj =>
    .ok { s.setSlot s.currentIdx { slot with written := true } with writerPc := .advancing obj }
  | .advancing obj =>
    let s := { s with currentIdx := (s.currentIdx + 1) % config.maxChunks }
    if overflows config codec obj then .ok { s with writerPc := .sending obj }
    else .ok (s.finish obj)
  | .sending obj => .ok ((s.send (allBuffers codec obj)).finish obj)

/-- The next access of a reader. -/
def readerStep (r : Fin nReader) : Except Blocked (State nReader O) :=
  let reader := s.readers r
  let slot := s.slots reader.currentIdx
  match reader.pc with
  | .idle => .error .blocked
  | .checkingRead => .ok (s.setReader r { reader with pc := .checkingWritten (slot.read r) })
  | .checkingWritten readFlag =>
    if !slot.written || readFlag then .ok (s.setReader r { reader with pc := .waiting })
    else .ok (s.setReader r { reader with pc := .reading fun _ => none })
  | .waiting => .ok (s.setReader r { reader with pc := .checkingRead })
  | .reading buf =>
    match readMessage buf with
    | some message => .ok (s.setReader r { reader with pc := .marking message })
    | none => .error .blocked
  | .marking message =>
    .ok ((s.setSlot reader.currentIdx
      { slot with read := Function.update slot.read r true }).setReader r
        { reader with pc := .advancing message })
  | .advancing message =>
    let reader := { reader with currentIdx := (reader.currentIdx + 1) % config.maxChunks }
    match message with
    | .overflow => .ok (s.setReader r { reader with pc := .receiving })
    | .inRing buffers =>
      .ok (s.setReader r
        { reader with pc := .idle, returned := reader.returned ++ (codec.loads buffers).toList })
  | .receiving =>
    match reader.socket with
    | [] => .error .blocked
    | buffers :: rest =>
      .ok (s.setReader r
        { reader with
          pc := .idle, socket := rest,
          returned := reader.returned ++ (codec.loads buffers).toList })

/-- A reader reads one byte of the slot; `dequeue` reads them in an order of its own. -/
def readByte (r : Fin nReader) (position : Nat) : Except Blocked (State nReader O) :=
  let reader := s.readers r
  match reader.pc with
  | .reading buf =>
    .ok (s.setReader r
      { reader with
        pc := .reading (Function.update buf position
          (some ((s.slots reader.currentIdx).bytes position))) })
  | _ => .error .blocked

def step : Action nReader O → Except Blocked (State nReader O)
  | .enqueue obj =>
    match s.writerPc with
    | .idle =>
      -- without local readers the ring is not used
      if nReader = 0 then .ok (s.finish obj) else .ok { s with writerPc := .counting obj 0 0 }
    | _ => .error .blocked
  | .writerStep => writerStep config codec s
  | .writerTimeout =>
    match s.writerPc with
    | .waiting _ => .ok { s with writerPc := .idle }
    | _ => .error .blocked
  | .dequeue r =>
    match (s.readers r).pc with
    | .idle => .ok (s.setReader r { s.readers r with pc := .checkingRead })
    | _ => .error .blocked
  | .readerStep r => readerStep config codec s r
  | .readByte r position => readByte s r position
  | .readerTimeout r =>
    match (s.readers r).pc with
    | .waiting => .ok (s.setReader r { s.readers r with pc := .idle })
    | _ => .error .blocked
  | .recvTimeout r =>
    match (s.readers r).pc with
    | .receiving => .ok (s.setReader r { s.readers r with pc := .idle })
    | _ => .error .blocked

end Steps

end Vllm.Broadcast
