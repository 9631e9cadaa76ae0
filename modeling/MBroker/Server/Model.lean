import MBroker.Broker.Start
import MBroker.Queue.Order
import MBroker.Wire.Requests

/-!
# The server as a whole (`mbroker/mbroker.c`)

`main` reads requests off the server pipe and puts them into the queue; each worker takes
one from the queue and runs its handler. The three parts are those of the other modules:
`parser` for the pipe, `PcQueue` for the queue, where `main` is the only pusher and worker
`w` is popper `w`, and `Broker` for the handlers. A step of the server is a section of one
of them.

`written` and `handled` record what the clients wrote and what the workers took on. No step
reads them.
-/

namespace MBroker

open Queue

/-- The process, and the bytes on their way to it. -/
structure Server where
  /-- the bytes in the server pipe -/
  pipe : List UInt8
  queue : PcQueue Request
  broker : Broker
  /-- what `pcq_dequeue` has returned to a worker that has not looked at it yet -/
  returned : Nat → Option (Option Request)
  /-- `main` is in `pthread_join` of `close_server` -/
  closing : Bool
  /-- the workers whose threads have returned -/
  ended : Nat → Bool
  /-- the process has ended, or what it does next is undefined -/
  exited : Bool
  written : List ClientRequest
  handled : List (Nat × Request)

inductive ServerEvent
  /-- a client writes its request, with one `write` -/
  | write (c : ClientRequest)
  /-- `main` reads a request and calls `pcq_enqueue`; `fresh` is the memory of the request -/
  | parse (fresh : CharArray 32)
  /-- a section of `pcq_enqueue` or `pcq_dequeue` -/
  | queue (e : Event Request)
  /-- a worker looks at what it got; `null` tells whether a slot that was never written
  holds `NULL` -/
  | dispatch (w : Nat) (null : Bool)
  /-- a section of a handler -/
  | worker (w : Nat) (a : Answer)
  /-- `pthread_join` returns in `close_server` -/
  | join

/-- What happens in the server when the calls of `main` can fail. -/
inductive MainEvent
  | server (e : ServerEvent)
  /-- `open`, `close`, `read` or `malloc` fails in the loop of `main` or in `parser` -/
  | fails
  /-- the server pipe has lost its name when `main` opens it again -/
  | leaves

namespace Server

/-- The server when `main` reaches its loop, if `mbroker_init` and `tfs_init` succeed. -/
def start (maxSessions : Nat) (malloced : Bool) (clients : Nat → Client) (m : Fs.Malloc)
    (fds : Nat → Bool) : Option Server :=
  match pcqCreate maxSessions malloced 1 maxSessions, Fs.tfsInit .static (some brokerParams) m with
  | some queue, .ok (tfs, 0) => some
      { pipe := []
        queue := queue
        broker := { Broker.start maxSessions clients m fds with tfs := tfs }
        returned := fun _ => none
        closing := false
        ended := fun _ => false
        exited := false
        written := []
        handled := [] }
  | _, _ => none

variable (s : Server)

/-- A worker calls `pcq_dequeue` at the top of its loop. -/
def AtTop (w : Nat) : Prop :=
  s.broker.pcs w = .idle ∧ s.returned w = none ∧ s.ended w = false

instance (w : Nat) : Decidable (s.AtTop w) :=
  inferInstanceAs (Decidable (_ ∧ _ ∧ _))

/-- `main` reads the operation code and the rest of a request. In a field without a NUL
`strncpy` reads on behind the buffer, and the model goes no further. -/
def parse (fresh : CharArray 32) : Option Server :=
  match s.closing, s.queue.pushers 0, s.pipe with
  | false, .idle, opCode :: input =>
    match parser fresh opCode input with
    | .request r rest => (s.queue.step (.enqueue 0 r)).map fun q =>
      { s with pipe := rest, queue := q }
    | .failed => some { s with closing := true }
    | .overrun => some { s with exited := true }
  | _, _, _ => none

/-- A section of `pcq_enqueue` or `pcq_dequeue`. With the last signal of `pcq_dequeue` its
result is returned. -/
def queueSection (e : Event Request) : Option Server :=
  match e with
  | .enqueue .. => none
  | .dequeue w => if s.AtTop w then (s.queue.step e).map fun q => { s with queue := q } else none
  | .signalPusher w _ =>
    match s.queue.poppers w with
    | .signalling elem => (s.queue.step e).map fun q =>
        { s with queue := q, returned := Function.update s.returned w (some elem) }
    | _ => none
  | _ => (s.queue.step e).map fun q => { s with queue := q }

/-- A worker returns if it got `NULL`, and takes on the request otherwise. -/
def dispatch (w : Nat) (null : Bool) : Option Server :=
  match s.returned w with
  | some (some r) => (s.broker.step (w, .request r)).map fun b =>
      { s with
        broker := b
        returned := Function.update s.returned w none
        handled := s.handled ++ [(w, r)] }
  | some none =>
    if null then some
      { s with returned := Function.update s.returned w none, ended :=
        Function.update s.ended w true }
    else some { s with exited := true }
  | none => none

/-- A section of a handler; requests come from the queue only. -/
def workerSection (w : Nat) (a : Answer) : Option Server :=
  match a with
  | .request _ => none
  | _ => (s.broker.step (w, a)).map fun b => { s with broker := b }

/-- The threads in `close_server`. -/
def closers : Nat :=
  s.closing.toNat + (List.range s.broker.maxSessions).countP fun w => s.broker.pcs w == .closing

def step (s : Server) (e : ServerEvent) : Option Server :=
  if s.exited || s.broker.stopped then none
  else
    match e with
    | .write c => c.write.map fun bytes => { s
      with pipe := s.pipe ++ bytes, written := s.written ++ [c] }
    | .parse fresh => s.parse fresh
    | .queue e => s.queueSection e
    | .dispatch w null => s.dispatch w null
    | .worker w a => s.workerSection w a
    -- A second `pthread_join` beside one that waits for the same thread is undefined; where
    -- it fails, `close_server` exits.
    | .join => if 0 < s.closers && s.ended 0 ||
      1 < s.closers then some { s with exited := true } else none

/-- `main` is in its loop or in `parser`. -/
def reads : Bool :=
  match s.closing, s.queue.pushers 0 with
  | false, .idle => !(s.exited || s.broker.stopped)
  | _, _ => false

/-- The server with calls of `main` that fail: it goes to `close_server`, or returns if the
server pipe is gone. -/
def mainStep (s : Server) : MainEvent → Option Server
  | .server e => s.step e
  | .fails => if s.reads then some { s with closing := true } else none
  | .leaves => if s.reads then some { s with exited := true } else none

end Server

end MBroker
