import MBroker.Broker.Boxes
import MBroker.Library.Runs

/-!
# The broker as a machine (`mbroker/mbroker.c`)

One step is one section of a handler: what is done under a lock, one system call,
or one call to TecnicoFS. What the section gets from outside, the result of the
system call or the next request, is its `Answer`. The whole history of the process
is a list of pairs of a worker and an answer.

A worker that waits for a lock has no step until the lock is free. A sleeper in
`pthread_cond_wait` may wake at any time; a broadcast wakes it.
-/

namespace MBroker

open ByteMemory

/-- What `write` does: it takes some bytes, or fails because the other end is
closed, or fails otherwise. -/
inductive WriteResult
  | wrote (n : Nat)
  | epipe
  | error
deriving DecidableEq

/-- What a section gets from outside. -/
inductive Answer
  | none
  | request (r : Request)
  /-- what an uninitialised buffer holds -/
  | stack (garbage : List UInt8)
  | malloced (ok : Bool)
  /-- the descriptor that `open` of this path returns, if it succeeds -/
  | opened (path : CStr) (fd : Option Nat)
  /-- the bytes that `read` delivers; none at the end of the pipe or on an error -/
  | read (bytes : List UInt8)
  | wrote (result : WriteResult)
  /-- `pthread_cond_wait` returns -/
  | wake
deriving DecidableEq

/-- The string in the message buffer; the byte after the buffer is always NUL. -/
def messageStr (message : List UInt8) : CStr := .ofBytes message

/-- A string in a zeroed array of `n` bytes. -/
def zeroPadded (bytes : List UInt8) (n : Nat) : List UInt8 := (bytes ++ List.replicate n 0).take n

theorem length_zeroPadded (bytes : List UInt8) (n : Nat) : (zeroPadded bytes n).length = n := by
  rw [zeroPadded, List.length_take, List.length_append, List.length_replicate]
  exact Nat.min_eq_left (Nat.le_add_left n _)

def errorBytes (errorMsg : String) : List UInt8 :=
  zeroPadded (errorMsg.toList.map fun c => UInt8.ofNat c.toNat) messageLength

namespace Broker

variable (b : Broker) (w : Nat)

/-! ## System calls on the client's pipe -/

/-- `open` is called for the client's pipe. -/
def opens (path : CStr) : Bool := path = (b.clients w).clientPipename.str

@[simp] theorem opens_self : b.opens w (b.clients w).clientPipename.str = true := decide_eq_true rfl

/-- `read` delivers no more than was asked for. The descriptor may be closed by now: a `read`
that was begun before the `close` still delivers bytes. -/
def canRead (bytes : List UInt8) (count : Nat) : Bool := bytes.length ≤ count

/-- A `write` of `bytes` to the client's pipe with this result. It may also have been begun
before the descriptor was closed. -/
def emit (bytes : List UInt8) (result : WriteResult) : Option Broker :=
  if 0 ≤ (b.clients w).clientPipe then
    match result with
    | .wrote n =>
      let line := ((b.clients w).clientPipe.toNat, bytes.take n)
      if n ≤ bytes.length then some { b with sent := Function.update b.sent w (b.sent w ++ [line]) }
      else none
    | _ => some b
  else if result = .error then some b else none

/-- A `write` is recorded and changes nothing else. -/
theorem emit_sent {b b' : Broker} {w : Nat} {bytes : List UInt8} {result : WriteResult}
    (h : b.emit w bytes result = some b') : ∃ s, b' = { b with sent := s } := by
  unfold emit at h
  split at h
  · cases result with
    | wrote n =>
      dsimp only at h
      split at h
      · exact ⟨_, (Option.some.inj h).symm⟩
      · cases h
    | epipe => exact ⟨b.sent, (Option.some.inj h).symm⟩
    | error => exact ⟨b.sent, (Option.some.inj h).symm⟩
  · split at h
    · exact ⟨b.sent, (Option.some.inj h).symm⟩
    · cases h

/-- `finish_client_session`, and the handler returns `result` all the same. -/
def endSession (result : Int) : Broker :=
  (b.finishClientSession w).1.setPc w (.ret result)

/-- `return finish_client_session(client)`. -/
def returnFinish : Broker :=
  let r := b.finishClientSession w
  r.1.setPc w (.ret r.2)

/-! ## `client_session` -/

def handlerOf (opcode : UInt8) : Pc :=
  if opcode = opCodeRegistPub ∨ opcode = opCodeRegistSub then .registerOpen
  else if opcode = opCodeCreateBox then .createLock
  else if opcode = opCodeRemoveBox then .removeLock
  else if opcode = opCodeListBoxes then .listOpen
  else .ret 0

def dequeued (request : Request) : Broker :=
  let client := b.clients w
  let client := { client with
    opcode := request.opcode
    clientPipename := request.clientPipename
    boxName := if request.opcode ≠ opCodeListBoxes then request.boxName else client.boxName }
  { (b.setClient w client).setPc w (handlerOf request.opcode) with
    sent := Function.update b.sent w [] }

/-- A handler that returns -1 leads to `close_server`: worker 0 cannot join
itself and exits the process, another worker waits for worker 0. -/
def returned (result : Int) : Broker :=
  if result = -1 then
    if w = 0 then b.crash else b.setPc w .closing
  else b.setPc w .idle

/-! ## `handle_tfs_register` -/

def registerOpen (path : CStr) (fd : Option Nat) : Option Broker :=
  if b.opens w path then
    match fd with
    | none => some (b.setPc w (.ret (-1)))
    | some fd => do
      let b ← b.takeFd fd
      return (b.setClient w { b.clients w with clientPipe := fd }).setPc w .registerBox
  else none

def registerBox (stack : List UInt8) : Broker :=
  let client := b.clients w
  match b.getBox client.boxName.str with
  | none =>
    let r := b.close client.clientPipe
    r.1.setPc w (.ret (if r.2 then 0 else -1))
  | some i =>
    let b := b.setClient w { client with box := some i }
    if client.opcode = opCodeRegistPub then
      if (b.boxes i).nPublishers = 1 then b.returnFinish w
      else
        (b.setBox i { b.boxes i with nPublishers := addSize (b.boxes i).nPublishers 1 }).setPc w
          (.pubOpcode stack)
    else
      (b.setBox i { b.boxes i with nSubscribers := addSize (b.boxes i).nSubscribers 1 }).setPc w
        (.historyLock i)

/-! ## `handle_messages_from_publisher` -/

/-- The pipe is closed: the session is finished, unless someone else did it. -/
def pipeClosed : Broker :=
  if (b.clients w).box ≠ none then b.endSession w 0 else b.setPc w (.ret 0)

/-- The operation code is read and not looked at. -/
def pubOpcode (message bytes : List UInt8) : Option Broker :=
  if canRead bytes 1 then
    if bytes = [] then some (b.pipeClosed w) else some (b.setPc w (.pubMessage message))
  else none

/-- A short read leaves the end of the buffer as it was. -/
def pubMessage (message bytes : List UInt8) : Option Broker :=
  if canRead bytes messageLength then
    if bytes = [] then some (b.pipeClosed w)
    else
      match (b.clients w).box with
      | none => some b.crash
      | some i => some (b.setPc w (.pubLock i (bytes ++ message.drop bytes.length)))
  else none

/-- Take the lock of a box, if it is free. -/
def lockBox (i : Nat) (next : Pc) : Option Broker :=
  if (b.boxes i).lock = none then
    some ((b.setBox i { b.boxes i with lock := some w }).setPc w next)
  else none

def unlockBox (i : Nat) : Broker := b.setBox i { b.boxes i with lock := none }

def pubOpen (i : Nat) (message : List UInt8) : Broker :=
  match Fs.tfsOpen b.tfs (some (b.boxes i).boxName.str) tfsOAppend with
  | .error _ => b.crash
  | .ok (tfs, fhandle) =>
    let b := { b with tfs := tfs }
    if fhandle < 0 then b.endSession w (-1) else b.setPc w (.pubWrite i message fhandle)

def pubWrite (i : Nat) (message : List UInt8) (fhandle : Int) : Broker :=
  let length := (messageStr message).length + 1
  match Fs.tfsWrite b.tfs fhandle (message ++ [0]) length with
  | .error _ => b.crash
  | .ok (tfs, bytesWritten) =>
    let b := { b with tfs := tfs }
    if bytesWritten < 0 then b.endSession w (-1)
    else if bytesWritten < length then b.endSession w 0
    else b.setPc w (.pubCount i message)

/-- `pthread_cond_broadcast`. -/
def broadcast (i : Nat) : Broker :=
  { b with pcs := fun v => if b.pcs v = .asleep i (b.boxes i).cond then .followLock i else b.pcs v }

def pubCount (i : Nat) (message : List UInt8) : Broker :=
  let b := b.setBox i
    { b.boxes i with boxSize := addSize (b.boxes i).boxSize ((messageStr message).length + 1) }
  ((b.broadcast i).unlockBox i).setPc w (.pubOpcode message)

/-! ## `handle_messages_until_now` -/

def historyOpen : Broker :=
  match Fs.tfsOpen b.tfs (some (b.clients w).boxName.str) tfsOCreat with
  | .error _ => b.crash
  | .ok (tfs, fhandle) =>
    let b := ({ b with tfs := tfs }).setClient w { b.clients w with boxFd := fhandle }
    if fhandle < 0 then b.endSession w (-1) else b.setPc w .historyTest

/-- The history is sent: the lock is given back. -/
def historyDone : Broker :=
  match (b.clients w).box with
  | none => b.crash
  | some i => (b.unlockBox i).setPc w (.followLock i)

/-- Bytes of the box behind the subscriber's offset, as the counter says. -/
def unread (i : Nat) : Nat := subSize (b.boxes i).boxSize (ofSsize (b.clients w).offset)

def historyTest : Broker :=
  match (b.clients w).box with
  | none => b.crash
  | some i => if b.unread w i > 0 then b.setPc w .historyRead else b.historyDone w

def historyRead : Broker :=
  match Fs.tfsRead b.tfs (b.clients w).boxFd boxSize with
  | .error _ => b.crash
  | .ok (tfs, bytesRead, bytes) =>
    let b := { b with tfs := tfs }
    if bytesRead = 0 then b.historyDone w
    else if bytesRead < 0 then b.endSession w (-1)
    else b.setPc w (.historySendOp bytes bytesRead.toNat)

/-- `strcpy` needs a NUL in what was read, and room in `message`. -/
def historySendOp (rest : List UInt8) (bytesRead : Nat) (result : WriteResult) : Option Broker :=
  if (0 : UInt8) ∉ rest ∨ messageLength < (CStr.ofBytes rest).length then some b.crash
  else do
    let b ← b.emit w [opCodeSubscriber] result
    if result = .wrote 1 then return b.setPc w (.historySendMessage rest bytesRead)
    else return b.setPc w (.ret (-1))

def historySendMessage (rest : List UInt8) (bytesRead : Nat) (result : WriteResult) :
    Option Broker := do
  let b ← b.emit w (zeroPadded (CStr.ofBytes rest).bytes messageLength) result
  if result = .wrote messageLength then
    let rest := rest.drop ((CStr.ofBytes rest).length + 1)
    if rest = [] then
      return (b.setClient w { b.clients w with
        offset := (b.clients w).offset + bytesRead }).setPc w .historyTest
    else return b.setPc w (.historySendOp rest bytesRead)
  else return b.setPc w (.ret (-1))

/-! ## `handle_messages_to_subscriber` -/

/-- The test of the wait loop, under the lock of the box. -/
def followLock (i : Nat) : Option Broker :=
  if (b.boxes i).lock = none then
    if b.unread w i = 0 then some (b.setPc w (.asleep i (b.boxes i).cond))
    else some (b.setPc w (.followRead i))
  else none

def followRead (i : Nat) : Broker :=
  match Fs.tfsRead b.tfs (b.clients w).boxFd messageLength with
  | .error _ => b.crash
  | .ok (tfs, bytesRead, bytes) =>
    let b := { b with tfs := tfs }
    if bytesRead = 0 then b.returnFinish w
    else if bytesRead < 0 then b.endSession w (-1)
    else b.setPc w (.followSendOp i (zeroPadded bytes messageLength) bytesRead.toNat)

def followSendOp (i : Nat) (message : List UInt8) (bytesRead : Nat) (result : WriteResult) :
    Option Broker := do
  let b ← b.emit w [opCodeSubscriber] result
  if result = .wrote 0 ∨ result = .epipe then return b.endSession w 0
  else if result = .wrote 1 then return b.setPc w (.followSendMessage i message bytesRead)
  else return b.endSession w (-1)

def followSendMessage (i : Nat) (message : List UInt8) (bytesRead : Nat) (result : WriteResult) :
    Option Broker := do
  let b ← b.emit w message result
  if result = .wrote 0 ∨ result = .epipe then return b.endSession w 0
  else if result = .wrote messageLength then
    return (b.setClient w { b.clients w with
      offset := (b.clients w).offset + bytesRead }).setPc w (.followLock i)
  else return b.endSession w (-1)

/-! ## `handle_tfs_create_box` -/

/-- What the section under `boxes_lock` decides: the table, the return code and the
error message. -/
def createSection (malloced : Bool) : Broker × Int × String :=
  let client := b.clients w
  if b.numBoxes = maxBoxes then (b, -1, "Reached max number of boxes")
  else if b.getBox client.boxName.str ≠ none then (b, -1, "Box already exists")
  else
    let r := b.createBox client.boxName malloced
    if r.2 < 0 then (r.1, -1, "Failed to create box") else (r.1, 0, "")

def createLock (malloced : Bool) : Option Broker :=
  if b.boxesLock = none then
    let r := b.createSection w malloced
    some (r.1.setPc w (.createOpen r.2.1 r.2.2))
  else none

def createOpen (returnCode : Int) (errorMsg : String) (path : CStr) (fd : Option Nat) :
    Option Broker :=
  if b.opens w path then
    match fd with
    | none => some ((b.setClient w { b.clients w with clientPipe := -1 }).setPc w
        (.createFile (-1) "Failed to open pipe"))
    | some fd => do
      let b ← b.takeFd fd
      return (b.setClient w { b.clients w with clientPipe := fd }).setPc w
        (.createFile returnCode errorMsg)
  else none

/-- The three writes of an answer. -/
def answer (opcode : UInt8) (returnCode : Int) (errorMsg : String) : List (List UInt8) :=
  [[opcode], le32 returnCode, errorBytes errorMsg]

def createFile (returnCode : Int) (errorMsg : String) : Broker :=
  match Fs.tfsOpen b.tfs (some (b.clients w).boxName.str) tfsOCreat with
  | .error _ => b.crash
  | .ok (tfs, fhandle) =>
    let b := { b with tfs := tfs }
    if fhandle < 0 then b.setPc w (.ret (-1))
    else
      (b.setClient w { b.clients w with boxFd := fhandle }).setPc w
        (.answering (answer opCodeCreateBoxAnswer returnCode errorMsg) false)

/-- One write of an answer; a failure returns at once. -/
def answering (bytes : List UInt8) (writes : List (List UInt8)) (locked : Bool)
    (result : WriteResult) : Option Broker := do
  let b ← b.emit w bytes result
  if result = .wrote bytes.length then return b.setPc w (.answering writes locked)
  else return b.setPc w (.ret (-1))

def answered (locked : Bool) : Broker :=
  (if locked then { b with boxesLock := none } else b).returnFinish w

/-! ## `handle_tfs_remove_box` -/

def removeLock : Option Broker :=
  if b.boxesLock = none then some ({ b with boxesLock := some w }.setPc w .removeOpen) else none

def removeOpen (path : CStr) (fd : Option Nat) : Option Broker :=
  if b.opens w path then
    match fd with
    | none => some ({ b with boxesLock := none }.setPc w (.ret (-1)))
    | some fd => do
      let b ← b.takeFd fd
      return (b.setClient w { b.clients w with clientPipe := fd }).setPc w .removeBody
  else none

def removeBody : Broker :=
  let boxName := (b.clients w).boxName.str
  if b.getBox boxName = none then
    b.setPc w (.answering (answer opCodeRemoveBoxAnswer (-1) "Box does not exist") true)
  else
    let r := b.finishSessions w boxName 0 b.maxSessions
    if r.2 = -1 then r.1.setPc w (.ret (-1))
    else
      match r.1.removeBox boxName with
      | .error _ => r.1.crash
      | .ok (b, ret) =>
        if ret = -1 then b.setPc w (.ret (-1))
        else b.setPc w (.answering (answer opCodeRemoveBoxAnswer 0 "") true)

/-! ## `handle_tfs_list_boxes` -/

def listOpen (path : CStr) (fd : Option Nat) : Option Broker :=
  if b.opens w path then
    match fd with
    | none => some (b.setPc w (.ret (-1)))
    | some fd => do
      let b ← b.takeFd fd
      return (b.setClient w { b.clients w with clientPipe := fd }).setPc w
        (.listing 0 0 (if b.numBoxes = 0 then 1 else 0))
  else none

/-- Whether the loop passes over slot `i`. -/
def listSkips (i : Nat) : Bool := b.freeBoxes i && b.numBoxes != 0

/-- The frame for slot `i`; the counters are left out when there are no boxes. -/
def listFrame (i : Nat) (last : UInt8) : List UInt8 :=
  let box := b.boxes i
  [opCodeListBoxesAnswer, last] ++ box.boxName.bytes.take boxNameLength ++
    if b.numBoxes ≠ 0 then le64 box.boxSize ++ le64 box.nPublishers ++ le64 box.nSubscribers else []

def listWrite (i count : Nat) (last : UInt8) (result : WriteResult) : Option Broker := do
  let last : UInt8 := if (count + 1 : Nat) = b.numBoxes then 1 else last
  let frame := b.listFrame i last
  let b ← b.emit w frame result
  if result = .wrote frame.length then return b.setPc w (.listing (i + 1) (count + 1) last)
  else return b.setPc w (.ret (-1))

/-! ## Steps -/

def stepWorker : Pc → Answer → Option Broker
  | .idle, .request r => some (b.dequeued w r)
  | .ret result, .none => some (b.returned w result)
  | .registerOpen, .opened path fd => b.registerOpen w path fd
  | .registerBox, .stack garbage =>
    if garbage.length = messageLength then some (b.registerBox w garbage) else none
  | .pubOpcode message, .read bytes => b.pubOpcode w message bytes
  | .pubMessage message, .read bytes => b.pubMessage w message bytes
  | .pubLock i message, .none => b.lockBox w i (.pubOpen i message)
  | .pubOpen i message, .none => some (b.pubOpen w i message)
  | .pubWrite i message fhandle, .none => some (b.pubWrite w i message fhandle)
  | .pubCount i message, .none => some (b.pubCount w i message)
  | .historyLock i, .none => b.lockBox w i .historyOpen
  | .historyOpen, .none => some (b.historyOpen w)
  | .historyTest, .none => some (b.historyTest w)
  | .historyRead, .none => some (b.historyRead w)
  | .historySendOp rest n, .wrote result => b.historySendOp w rest n result
  | .historySendMessage rest n, .wrote result => b.historySendMessage w rest n result
  | .followLock i, .none => b.followLock w i
  | .asleep i _, .wake => some (b.setPc w (.followLock i))
  | .followRead i, .none => some (b.followRead w i)
  | .followSendOp i message n, .wrote result => b.followSendOp w i message n result
  | .followSendMessage i message n, .wrote result => b.followSendMessage w i message n result
  | .createLock, .malloced ok => b.createLock w ok
  | .createOpen returnCode errorMsg, .opened path fd => b.createOpen w returnCode errorMsg path fd
  | .createFile returnCode errorMsg, .none => some (b.createFile w returnCode errorMsg)
  | .removeLock, .none => b.removeLock w
  | .removeOpen, .opened path fd => b.removeOpen w path fd
  | .removeBody, .none => some (b.removeBody w)
  | .answering (bytes :: writes) locked, .wrote result => b.answering w bytes writes locked result
  | .answering [] locked, .none => some (b.answered w locked)
  | .listOpen, .opened path fd => b.listOpen w path fd
  | .listing i count last, .none =>
    if maxBoxes ≤ i then some (b.returnFinish w)
    else if b.listSkips i then some (b.setPc w (.listing (i + 1) count last))
    else none
  | .listing i count last, .wrote result =>
    if i < maxBoxes ∧ b.listSkips i = false then b.listWrite w i count last result else none
  | _, _ => none

/-- One section of worker `e.1`, which gets the answer `e.2`. -/
def step (b : Broker) (e : Nat × Answer) : Option Broker :=
  if b.stopped ∨ b.maxSessions ≤ e.1 then none else b.stepWorker e.1 (b.pcs e.1) e.2

theorem step_eq_some {b b' : Broker} {e : Nat × Answer} :
    b.step e = some b' ↔
      b.stopped = false ∧ e.1 < b.maxSessions ∧ b.stepWorker e.1 (b.pcs e.1) e.2 = some b' := by
  unfold step
  split
  · next h =>
    refine iff_of_false (by simp) fun hc => h.elim (fun hs => ?_) fun hs => ?_
    · rw [hc.1] at hs
      cases hs
    · exact absurd hc.2.1 (Nat.not_lt.mpr hs)
  · next h =>
    rw [not_or, Bool.not_eq_true, Nat.not_le] at h
    exact ⟨fun hs => ⟨h.1, h.2, hs⟩, fun hs => hs.2.2⟩

/-! ## A registration -/

/-- The record of `w` points at box `i`. -/
def attach (b : Broker) (w i : Nat) : Broker := b.setClient w { b.clients w with box := some i }

section Register

variable {b : Broker} {w i : Nat} {stack : List UInt8}

theorem registerBox_absent (h : b.getBox (b.clients w).boxName.str = none) :
    b.registerBox w stack = (b.close (b.clients w).clientPipe).1.setPc w
      (.ret (if (b.close (b.clients w).clientPipe).2 then 0 else -1)) := by
  simp only [registerBox, h]

/-- The box has a publisher: the session is finished like any other. -/
theorem registerBox_rejected (h : b.getBox (b.clients w).boxName.str = some i)
    (hop : (b.clients w).opcode = opCodeRegistPub) (hone : (b.boxes i).nPublishers = 1) :
    b.registerBox w stack = (b.attach w i).returnFinish w := by
  simp only [registerBox, h]
  exact (if_pos hop).trans (if_pos hone)

theorem registerBox_publisher (h : b.getBox (b.clients w).boxName.str = some i)
    (hop : (b.clients w).opcode = opCodeRegistPub) (hone : (b.boxes i).nPublishers ≠ 1) :
    b.registerBox w stack = ((b.attach w i).setBox i
      { b.boxes i with nPublishers := addSize (b.boxes i).nPublishers 1 }).setPc w
      (.pubOpcode stack) := by
  simp only [registerBox, h]
  exact (if_pos hop).trans (if_neg hone)

theorem registerBox_subscriber (h : b.getBox (b.clients w).boxName.str = some i)
    (hop : (b.clients w).opcode ≠ opCodeRegistPub) :
    b.registerBox w stack = ((b.attach w i).setBox i
      { b.boxes i with nSubscribers := addSize (b.boxes i).nSubscribers 1 }).setPc w
      (.historyLock i) := by
  simp only [registerBox, h]
  exact if_neg hop

end Register

/-! ## A removal -/

/-- How the section of `handle_tfs_remove_box` that looks for the box ends. -/
inductive Removes (b : Broker) (w : Nat) : Broker → Prop
  | absent : b.getBox (b.clients w).boxName.str = none →
      Removes b w
        (b.setPc w (.answering (answer opCodeRemoveBoxAnswer (-1) "Box does not exist") true))
  | unfinished {i : Nat} {x : Broker} : b.getBox (b.clients w).boxName.str = some i →
      b.finishSessions w (b.clients w).boxName.str 0 b.maxSessions = (x, -1) →
      Removes b w (x.setPc w (.ret (-1)))
  | crash {i : Nat} {x : Broker} {ret : Int} {e : Fs.Fault} :
      b.getBox (b.clients w).boxName.str = some i →
      b.finishSessions w (b.clients w).boxName.str 0 b.maxSessions = (x, ret) → ret ≠ -1 →
      x.removeBox (b.clients w).boxName.str = .error e → Removes b w x.crash
  | notUnlinked {i : Nat} {x y : Broker} {ret : Int} : b.getBox (b.clients w).boxName.str = some i →
      b.finishSessions w (b.clients w).boxName.str 0 b.maxSessions = (x, ret) → ret ≠ -1 →
      x.removeBox (b.clients w).boxName.str = .ok (y, -1) → Removes b w (y.setPc w (.ret (-1)))
  | removed {i : Nat} {x y : Broker} {ret ret' : Int} :
      b.getBox (b.clients w).boxName.str = some i →
      b.finishSessions w (b.clients w).boxName.str 0 b.maxSessions = (x, ret) → ret ≠ -1 →
      x.removeBox (b.clients w).boxName.str = .ok (y, ret') → ret' ≠ -1 →
      Removes b w (y.setPc w (.answering (answer opCodeRemoveBoxAnswer 0 "") true))

theorem removeBody_removes (b : Broker) (w : Nat) : Removes b w (b.removeBody w) := by
  unfold removeBody
  dsimp only
  split
  · next hnone => exact .absent hnone
  · next hsome =>
    obtain ⟨i, hi⟩ := Option.ne_none_iff_exists'.mp hsome
    generalize hr : b.finishSessions w (b.clients w).boxName.str 0 b.maxSessions = r
    obtain ⟨x, ret⟩ := r
    dsimp only
    split
    · next hret => exact .unfinished hi (hret ▸ hr)
    · next hret =>
      cases hremove : x.removeBox (b.clients w).boxName.str with
      | error e => exact .crash hi hr hret hremove
      | ok u =>
        obtain ⟨y, ret'⟩ := u
        dsimp only
        split
        · next hret' => exact .notUnlinked hi hr hret (hret' ▸ hremove)
        · next hret' => exact .removed hi hr hret hremove hret'

end Broker

end MBroker
