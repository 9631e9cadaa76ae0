import MBroker.Fs.Operations

/-!
# State of the broker (`mbroker/mbroker.h`)

The box table, the records of the workers, TecnicoFS and the descriptors that are
open. A worker is a thread of `client_session`; where it stands is its `Pc`, which
also holds the local variables that are still needed there.

`sent` records what a worker has written in its current session, with the
descriptor it wrote to. No step reads it.
-/

namespace MBroker

/-- `box_t`. `cond` tells apart the condition variables that were set up in the
slot one after another. -/
structure Box where
  boxName : CharArray 32
  boxSize : Nat
  nPublishers : Nat
  nSubscribers : Nat
  cond : Nat
  lock : Option Nat
deriving DecidableEq

/-- `client_t`. -/
structure Client where
  opcode : UInt8
  boxName : CharArray 32
  box : Option Nat
  offset : Int
  boxFd : Int
  clientPipename : CharArray 256
  clientPipe : Int
deriving DecidableEq

/-- `request_t`. -/
structure Request where
  opcode : UInt8
  clientPipename : CharArray 256
  boxName : CharArray 32
deriving DecidableEq

/-- Where a worker stands. -/
inductive Pc
  /-- before `pcq_dequeue` -/
  | idle
  /-- a handler has returned -/
  | ret (result : Int)
  /-- in `pthread_join` of `close_server` -/
  | closing
  -- handle_tfs_register
  | registerOpen
  | registerBox
  -- handle_messages_from_publisher; `message` is the buffer without its last byte
  | pubOpcode (message : List UInt8)
  | pubMessage (message : List UInt8)
  | pubLock (box : Nat) (message : List UInt8)
  | pubOpen (box : Nat) (message : List UInt8)
  | pubWrite (box : Nat) (message : List UInt8) (fhandle : Int)
  | pubCount (box : Nat) (message : List UInt8)
  -- handle_messages_until_now; `rest` are the bytes from `tmp_offset` on
  | historyLock (box : Nat)
  | historyOpen
  | historyTest
  | historyRead
  | historySendOp (rest : List UInt8) (bytesRead : Nat)
  | historySendMessage (rest : List UInt8) (bytesRead : Nat)
  -- handle_messages_to_subscriber
  | followLock (box : Nat)
  | asleep (box : Nat) (cond : Nat)
  | followRead (box : Nat)
  | followSendOp (box : Nat) (message : List UInt8) (bytesRead : Nat)
  | followSendMessage (box : Nat) (message : List UInt8) (bytesRead : Nat)
  -- handle_tfs_create_box
  | createLock
  | createOpen (returnCode : Int) (errorMsg : String)
  | createFile (returnCode : Int) (errorMsg : String)
  -- handle_tfs_remove_box
  | removeLock
  | removeOpen
  | removeBody
  /-- the writes of an answer that are left; `locked` with `boxes_lock` held -/
  | answering (writes : List (List UInt8)) (locked : Bool)
  -- handle_tfs_list_boxes
  | listOpen
  | listing (i count : Nat) (last : UInt8)
deriving DecidableEq

structure Broker where
  maxSessions : Nat
  numBoxes : Int
  boxes : Nat → Box
  freeBoxes : Nat → Bool
  clients : Nat → Client
  /-- the worker that holds `boxes_lock` -/
  boxesLock : Option Nat
  tfs : Fs.State
  /-- the descriptors that are open -/
  fds : Nat → Bool
  pcs : Nat → Pc
  sent : Nat → List (Nat × List UInt8)
  /-- the process has exited or was stopped -/
  stopped : Bool

namespace Broker

def setPc (b : Broker) (w : Nat) (pc : Pc) : Broker :=
  { b with pcs := Function.update b.pcs w pc }

def setClient (b : Broker) (w : Nat) (c : Client) : Broker :=
  { b with clients := Function.update b.clients w c }

def setBox (b : Broker) (i : Nat) (x : Box) : Broker :=
  { b with boxes := Function.update b.boxes i x }

@[simp] theorem setPc_self (b : Broker) (w : Nat) (pc : Pc) : (b.setPc w pc).pcs w = pc :=
  Function.update_self ..

theorem setPc_of_ne (b : Broker) {w v : Nat} (pc : Pc) (h : v ≠ w) :
    (b.setPc w pc).pcs v = b.pcs v := Function.update_of_ne h ..

@[simp] theorem setClient_self (b : Broker) (w : Nat) (c : Client) :
    (b.setClient w c).clients w = c :=
  Function.update_self ..

theorem setClient_of_ne (b : Broker) {w v : Nat} (c : Client) (h : v ≠ w) :
    (b.setClient w c).clients v = b.clients v := Function.update_of_ne h ..

@[simp] theorem setBox_self (b : Broker) (i : Nat) (x : Box) : (b.setBox i x).boxes i = x :=
  Function.update_self ..

theorem setBox_of_ne (b : Broker) {i j : Nat} (x : Box) (h : j ≠ i) :
    (b.setBox i x).boxes j = b.boxes j := Function.update_of_ne h ..

/-- What a field of a box is after an update that keeps it. -/
theorem field_setBox {α : Type} (f : Box → α) {b : Broker} {i : Nat} {x : Box}
    (h : f x = f (b.boxes i)) (j : Nat) : f ((b.setBox i x).boxes j) = f (b.boxes j) := by
  rcases eq_or_ne j i with rfl | hj
  · rw [setBox_self, h]
  · rw [setBox_of_ne b x hj]

theorem field_setClient {α : Type} (f : Client → α) {b : Broker} {w : Nat} {c : Client}
    (h : f c = f (b.clients w)) : f ((b.setClient w c).clients w) = f (b.clients w) := by
  rw [setClient_self, h]

/-- An assertion fails, a null pointer is followed, or an array is overrun. -/
def crash (b : Broker) : Broker := { b with stopped := true }

/-- Whether a descriptor is open. -/
def isOpenFd (b : Broker) (fd : Int) : Bool := 0 ≤ fd && b.fds fd.toNat

/-- `close`: the state and whether it succeeds. -/
def close (b : Broker) (fd : Int) : Broker × Bool :=
  if b.isOpenFd fd then ({ b with fds := Function.update b.fds fd.toNat false }, true)
  else (b, false)

/-- `open` returned a descriptor that was not in use. -/
def takeFd (b : Broker) (fd : Nat) : Option Broker :=
  if b.fds fd then none else some { b with fds := Function.update b.fds fd true }

end Broker

end MBroker
