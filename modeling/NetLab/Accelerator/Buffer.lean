import NetLab.Foundation.Segment

/-! Forward buffers of the split-connection relay: the buffer helpers, `receive_into_buffer`
and `flush_buffer`, with the answers of `recv` and `send` as arguments and the calls they make
as output. -/
namespace NetLab.Accelerator

abbrev Byte := UInt8

def forwardBufferSize : ℕ := 64*1024

/-- The two sockets of one split connection. -/
inductive Side
  | client
  | server
  deriving DecidableEq

def Side.other : Side → Side
  | .client => .server
  | .server => .client

@[simp] theorem Side.other_client : Side.client.other = .server := rfl
@[simp] theorem Side.other_server : Side.server.other = .client := rfl
@[simp] theorem Side.other_other (d : Side) : d.other.other = d := by cases d <;> rfl

theorem Side.other_ne (d : Side) : d.other ≠ d := by cases d <;> decide

theorem Side.ne_other (d : Side) : d ≠ d.other := d.other_ne.symm

theorem Side.eq_or_eq_other (d e : Side) : e = d ∨ e = d.other := by
  cases d <;> cases e <;> decide

/-- `struct io_buffer`; the field `end` of the source is `stop` here. -/
structure IoBuffer where
  data : ℕ → Byte
  start : ℕ
  stop : ℕ

/-- A buffer in a connection object that `calloc` has just zeroed. -/
def IoBuffer.zero : IoBuffer := ⟨fun _ => 0,0,0⟩

def bufferEmpty (buf : IoBuffer) : Bool := buf.start == buf.stop

def bufferPending (buf : IoBuffer) : ℕ := buf.stop-buf.start

def bufferSpace (buf : IoBuffer) : ℕ := forwardBufferSize-buf.stop

def bufferResetIfEmpty (buf : IoBuffer) : IoBuffer :=
  if buf.start = buf.stop then { buf with start := 0, stop := 0 } else buf

def bufferCompact (buf : IoBuffer) : IoBuffer :=
  if buf.start = 0 then buf
  else
    let pending := bufferPending buf
    let data := if 0 < pending then moveCells buf.data 0 buf.start pending else buf.data
    ⟨data,0,pending⟩

/-- What one `recv` answers: `n > 0` with the bytes it wrote, `n == 0`, or `n < 0` with
`EAGAIN`/`EWOULDBLOCK`, `EINTR` or another `errno`. -/
inductive RecvResult
  | data (bytes : List Byte)
  | fin
  | wouldBlock
  | interrupted
  | error
  deriving DecidableEq

/-- What one `send` answers: a count, possibly 0, or an `errno` as for `recv`. -/
inductive SendResult
  | sent (n : ℕ)
  | wouldBlock
  | interrupted
  | error
  deriving DecidableEq

/-- The interest or event bits of `struct epoll_event` that the relay uses. -/
structure Events where
  epollin : Bool := false
  epollout : Bool := false
  epollrdhup : Bool := false
  epollerr : Bool := false
  epollhup : Bool := false
  deriving DecidableEq

/-- `EPOLL_CTL_ADD` and `EPOLL_CTL_MOD`. -/
inductive CtlOp
  | add
  | mod
  deriving DecidableEq

/-- The calls the relay makes on one connection, with the answers it got. `recv` is recorded
with the offset into `data` and the length it was given, `send` with the bytes it was given;
`shutdown` is always with `SHUT_WR`. -/
inductive Call
  | recv (fd : Side) (offset length : ℕ) (answer : RecvResult)
  | send (fd : Side) (bytes : List Byte) (answer : SendResult)
  | shutdown (fd : Side)
  | epollCtl (op : CtlOp) (fd : Side) (events : Events) (ok : Bool)
  | destroy
  deriving DecidableEq

/-- The space `receive_into_buffer` finds after its compaction. -/
def prepareReceive (buf : IoBuffer) : IoBuffer :=
  if bufferSpace buf = 0 ∧ 0 < buf.start then bufferCompact buf else buf

def receiveIntoBuffer (fd : Side) (buf : IoBuffer) (answer : RecvResult) :
    Int × IoBuffer × List Call :=
  let buf := prepareReceive buf
  let space := bufferSpace buf
  if space = 0 then (0,buf,[])
  else
    let call := Call.recv fd buf.stop space answer
    match answer with
    | .data bytes =>
      (1,{ buf with data := storeAt buf.data buf.stop bytes, stop := buf.stop+bytes.length },[call])
    | .fin => (2,buf,[call])
    | .wouldBlock => (0,buf,[call])
    | .interrupted => (0,buf,[call])
    | .error => (-1,buf,[call])

/-- The bytes `data[start..end)`. -/
def IoBuffer.bytes (buf : IoBuffer) : List Byte := segment buf.data buf.start (bufferPending buf)

def flushBuffer (fd : Side) (buf : IoBuffer) (answer : SendResult) :
    Int × IoBuffer × List Call :=
  if bufferEmpty buf then (0,buf,[])
  else
    let call := Call.send fd buf.bytes answer
    match answer with
    | .sent n =>
      if 0 < n then (1,bufferResetIfEmpty { buf with start := buf.start+n },[call])
      else (0,buf,[call])
    | .wouldBlock => (0,buf,[call])
    | .interrupted => (0,buf,[call])
    | .error => (-1,buf,[call])

/-- The bytes one call took from the socket of side `d`. -/
def Call.received (d : Side) : Call → List Byte
  | .recv fd _ _ (.data bytes) => if fd = d then bytes else []
  | _ => []

/-- The bytes one call handed to the socket of side `d`. -/
def Call.sent (d : Side) : Call → List Byte
  | .send fd bytes (.sent n) => if fd = d then bytes.take n else []
  | _ => []

def receivedFrom (d : Side) (log : List Call) : List Byte := log.flatMap (Call.received d)

def sentTo (d : Side) (log : List Call) : List Byte := log.flatMap (Call.sent d)

@[simp] theorem receivedFrom_append (d : Side) (l m : List Call) :
    receivedFrom d (l ++ m) = receivedFrom d l ++ receivedFrom d m := List.flatMap_append

@[simp] theorem sentTo_append (d : Side) (l m : List Call) :
    sentTo d (l ++ m) = sentTo d l ++ sentTo d m := List.flatMap_append

@[simp] theorem receivedFrom_nil (d : Side) : receivedFrom d [] = [] := rfl
@[simp] theorem sentTo_nil (d : Side) : sentTo d [] = [] := rfl

/-- `recv` writes between one byte and the length it was given. -/
def RecvResult.Fits (room : ℕ) : RecvResult → Prop
  | .data bytes => 0 < bytes.length ∧ bytes.length ≤ room
  | _ => True

/-- `send` takes at most the bytes it was given. -/
def SendResult.Fits (pending : ℕ) : SendResult → Prop
  | .sent n => n ≤ pending
  | _ => True

instance (room : ℕ) : (a : RecvResult) → Decidable (a.Fits room)
  | .data bytes => inferInstanceAs (Decidable (0 < bytes.length ∧ bytes.length ≤ room))
  | .fin | .wouldBlock | .interrupted | .error => inferInstanceAs (Decidable True)

instance (pending : ℕ) : (a : SendResult) → Decidable (a.Fits pending)
  | .sent n => inferInstanceAs (Decidable (n ≤ pending))
  | .wouldBlock | .interrupted | .error => inferInstanceAs (Decidable True)

/-- The shape every buffer keeps: `0 ≤ start ≤ end ≤ FORWARD_BUFFER_SIZE`. -/
structure IoBuffer.Wf (buf : IoBuffer) : Prop where
  start_le : buf.start ≤ buf.stop
  stop_le : buf.stop ≤ forwardBufferSize

theorem IoBuffer.zero_wf : IoBuffer.zero.Wf := ⟨le_rfl,Nat.zero_le _⟩

@[simp] theorem IoBuffer.bytes_length (buf : IoBuffer) : buf.bytes.length = bufferPending buf := by
  simp [IoBuffer.bytes]

theorem IoBuffer.Wf.bufferEmpty_iff {buf : IoBuffer} (h : buf.Wf) :
    bufferEmpty buf = true ↔ buf.bytes = [] := by
  have hs := h.start_le
  rw [← List.length_eq_zero_iff,IoBuffer.bytes_length]
  simp only [bufferEmpty,bufferPending,beq_iff_eq]
  omega

theorem bufferCompact_wf {buf : IoBuffer} (h : buf.Wf) : (bufferCompact buf).Wf := by
  have h1 := h.start_le
  have h2 := h.stop_le
  unfold bufferCompact
  split
  · exact h
  · constructor <;> simp only [bufferPending] <;> omega

theorem bufferCompact_bytes {buf : IoBuffer} : (bufferCompact buf).bytes = buf.bytes := by
  unfold bufferCompact
  split
  · rfl
  · by_cases hp : 0 < bufferPending buf
    · simp only [IoBuffer.bytes,hp,if_true]
      exact segment_moveCells _ _ _ _
    · have hz : bufferPending buf = 0 := by omega
      simp only [IoBuffer.bytes,hz]
      rfl

theorem prepareReceive_wf {buf : IoBuffer} (h : buf.Wf) : (prepareReceive buf).Wf := by
  unfold prepareReceive
  split
  · exact bufferCompact_wf h
  · exact h

theorem prepareReceive_bytes (buf : IoBuffer) : (prepareReceive buf).bytes = buf.bytes := by
  unfold prepareReceive
  split
  · exact bufferCompact_bytes
  · rfl

/-- The length `receive_into_buffer` may pass to `recv`; 0 means back-pressure. -/
def receiveRoom (buf : IoBuffer) : ℕ := bufferSpace (prepareReceive buf)

/-- There is room after compaction exactly when the buffer is not full of pending bytes. -/
theorem receiveRoom_pos_iff {buf : IoBuffer} (h : buf.Wf) :
    0 < receiveRoom buf ↔ bufferPending buf < forwardBufferSize := by
  have h1 := h.start_le
  have h2 := h.stop_le
  have hpos : 0 < forwardBufferSize := by decide
  simp only [receiveRoom,prepareReceive]
  split
  · next hc =>
    have hs : buf.start ≠ 0 := by omega
    simp only [bufferCompact,if_neg hs,bufferSpace,bufferPending] at hc ⊢
    omega
  · next hc =>
    simp only [bufferSpace,bufferPending] at hc ⊢
    omega

/-- The source's interest test, stated through `start` and `end`, is the same condition. -/
theorem readable_interest_iff {buf : IoBuffer} (h : buf.Wf) :
    (0 < bufferSpace buf ∨ 0 < buf.start) ↔ bufferPending buf < forwardBufferSize := by
  have h1 := h.start_le
  have h2 := h.stop_le
  have hpos : 0 < forwardBufferSize := by decide
  simp only [bufferSpace,bufferPending]
  omega

/-- Writing at `end` and moving `end` on appends to the pending bytes. -/
theorem IoBuffer.bytes_storeAt {buf : IoBuffer} (h : buf.start ≤ buf.stop) (xs : List Byte) :
    IoBuffer.bytes { buf with data := storeAt buf.data buf.stop xs, stop := buf.stop+xs.length } =
      buf.bytes ++ xs := by
  have hstop : buf.start+(buf.stop-buf.start) = buf.stop := by omega
  have hlen : buf.stop+xs.length-buf.start = (buf.stop-buf.start)+xs.length := by omega
  have happ := segment_storeAt_append buf.data buf.start (buf.stop-buf.start) xs
  rw [hstop] at happ
  simpa only [IoBuffer.bytes,bufferPending,hlen] using happ

/-- What `receive_into_buffer` does to the buffer. -/
theorem receiveIntoBuffer_spec (fd : Side) {buf : IoBuffer} (h : buf.Wf) {a : RecvResult}
    (ha : a.Fits (receiveRoom buf)) :
    (receiveIntoBuffer fd buf a).2.1.Wf ∧
      (receiveIntoBuffer fd buf a).2.1.bytes =
        buf.bytes ++ receivedFrom fd (receiveIntoBuffer fd buf a).2.2 := by
  have hw := prepareReceive_wf h
  have hb := prepareReceive_bytes buf
  unfold receiveIntoBuffer
  by_cases hz : bufferSpace (prepareReceive buf) = 0
  · simp [hz,hw,hb]
  · simp only [if_neg hz]
    cases a with
    | data bytes =>
      have h1 := hw.start_le
      have h2 := hw.stop_le
      have hfit : bytes.length ≤ bufferSpace (prepareReceive buf) := ha.2
      simp only [bufferSpace] at hfit
      constructor
      · constructor <;> simp only <;> omega
      · simpa [receivedFrom,Call.received,hb] using IoBuffer.bytes_storeAt h1 bytes
    | _ => simp [hw,hb,receivedFrom,Call.received]

/-- `recv` is called at most once, with a positive length that ends at the end of `data[]`. -/
theorem receiveIntoBuffer_calls (fd : Side) (buf : IoBuffer) (a : RecvResult) :
    (receiveIntoBuffer fd buf a).2.2 =
      if receiveRoom buf = 0 then []
      else [.recv fd (prepareReceive buf).stop (receiveRoom buf) a] := by
  unfold receiveIntoBuffer receiveRoom
  by_cases hz : bufferSpace (prepareReceive buf) = 0
  · simp [hz]
  · simp only [if_neg hz]
    cases a <;> rfl

theorem receiveIntoBuffer_code (fd : Side) (buf : IoBuffer) (a : RecvResult) :
    ((receiveIntoBuffer fd buf a).1 < 0 ↔ 0 < receiveRoom buf ∧ a = .error) ∧
      ((receiveIntoBuffer fd buf a).1 = 2 ↔ 0 < receiveRoom buf ∧ a = .fin) := by
  unfold receiveIntoBuffer receiveRoom
  by_cases hz : bufferSpace (prepareReceive buf) = 0
  · simp [hz]
  · have hp : 0 < bufferSpace (prepareReceive buf) := by omega
    simp only [if_neg hz]
    cases a <;> simp [hp]

theorem bufferResetIfEmpty_wf {buf : IoBuffer} (h : buf.Wf) : (bufferResetIfEmpty buf).Wf := by
  unfold bufferResetIfEmpty
  split
  · exact ⟨le_rfl,Nat.zero_le _⟩
  · exact h

theorem bufferResetIfEmpty_bytes {buf : IoBuffer} :
    (bufferResetIfEmpty buf).bytes = buf.bytes := by
  unfold bufferResetIfEmpty
  split
  · next h => simp [IoBuffer.bytes,bufferPending,h]
  · rfl

/-- Moving `start` on drops pending bytes from the front. -/
theorem IoBuffer.bytes_advance {buf : IoBuffer} {n : ℕ} (h : n ≤ bufferPending buf) :
    IoBuffer.bytes { buf with start := buf.start+n } = buf.bytes.drop n := by
  simp only [IoBuffer.bytes,segment_drop _ _ _ _ h]
  simp only [bufferPending]
  congr 1
  omega

/-- What `flush_buffer` does to the buffer: the bytes it sent leave at the front. -/
theorem flushBuffer_spec (fd : Side) {buf : IoBuffer} (h : buf.Wf) {a : SendResult}
    (ha : a.Fits (bufferPending buf)) :
    (flushBuffer fd buf a).2.1.Wf ∧
      buf.bytes = sentTo fd (flushBuffer fd buf a).2.2 ++ (flushBuffer fd buf a).2.1.bytes := by
  unfold flushBuffer
  by_cases he : bufferEmpty buf = true
  · simp [he,h]
  · simp only [if_neg he]
    cases a with
    | sent n =>
      have hn : n ≤ bufferPending buf := ha
      have h1 := h.start_le
      have h2 := h.stop_le
      by_cases hp : 0 < n
      · have hw : IoBuffer.Wf { buf with start := buf.start+n } := by
          simp only [bufferPending] at hn
          constructor <;> simp only <;> omega
        simp only [if_pos hp,bufferResetIfEmpty_bytes,IoBuffer.bytes_advance hn]
        exact ⟨bufferResetIfEmpty_wf hw,by simp [sentTo,Call.sent]⟩
      · obtain rfl : n = 0 := by omega
        simp [h,sentTo,Call.sent]
    | _ => simp [h,sentTo,Call.sent]

theorem flushBuffer_calls (fd : Side) (buf : IoBuffer) (a : SendResult) :
    (flushBuffer fd buf a).2.2 = if bufferEmpty buf then [] else [.send fd buf.bytes a] := by
  unfold flushBuffer
  by_cases he : bufferEmpty buf = true
  · simp [he]
  · simp only [if_neg he]
    cases a with
    | sent n => by_cases hp : 0 < n <;> simp [hp]
    | _ => rfl

theorem flushBuffer_code (fd : Side) (buf : IoBuffer) (a : SendResult) :
    (flushBuffer fd buf a).1 < 0 ↔ bufferEmpty buf = false ∧ a = .error := by
  unfold flushBuffer
  by_cases he : bufferEmpty buf = true
  · simp [he]
  · simp only [if_neg he]
    cases a with
    | sent n => by_cases hp : 0 < n <;> simp [hp]
    | _ => simp [he]

end NetLab.Accelerator
