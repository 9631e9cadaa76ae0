import MBroker.Common
import MBroker.Library.FirstFit
import MBroker.Library.Runs

/-!
# Producer-consumer queue (`producer-consumer/producer-consumer.c`)

Each section under one lock is one step: the test of `pcq_current_size` with the
wait it may lead to, the access to the slot, the update of the size, the signal.
`pthread_cond_wait` releases the mutex and sleeps in one step; a sleeper woken,
by a signal or spuriously, tests again. A signal wakes one sleeper if there is
one.

`pushed` and `popped` record the elements in the order `pcq_tail` and
`pcq_head` advance. No step reads them.
-/

namespace MBroker.Queue

open FirstFit Transition

/-- Where a thread that calls `pcq_enqueue` is. -/
inductive PusherPc (α : Type*)
  | idle
  | testing (elem : α)
  | asleep (elem : α)
  /-- `pcq_current_size` was not the capacity -/
  | passed (elem : α)
  /-- the element is stored and not counted -/
  | stored
  | signalling

/-- Where a thread that calls `pcq_dequeue` is. -/
inductive PopperPc (α : Type*)
  | idle
  | testing
  | asleep
  /-- `pcq_current_size` was not 0 -/
  | passed
  /-- the slot is read and still counted -/
  | taken (elem : Option α)
  | signalling (elem : Option α)

/-- `pc_queue_t` and the threads that use it. A slot that was never written holds
nothing. -/
structure PcQueue (α : Type*) where
  pcqCapacity : Nat
  pcqCurrentSize : Nat
  pcqHead : Nat
  pcqTail : Nat
  pcqBuffer : Nat → Option α
  nPushers : Nat
  nPoppers : Nat
  pushers : Nat → PusherPc α
  poppers : Nat → PopperPc α
  pushed : List α
  popped : List (Option α)

variable {α : Type*}

/-- `malloc` may fail. -/
def pcqCreate (capacity : Nat) (malloced : Bool) (nPushers nPoppers : Nat) : Option (PcQueue α) :=
  if capacity = 0 ∨ malloced = false then none
  else some
    { pcqCapacity := capacity
      pcqCurrentSize := 0
      pcqHead := 0
      pcqTail := 0
      pcqBuffer := fun _ => none
      nPushers := nPushers
      nPoppers := nPoppers
      pushers := fun _ => .idle
      poppers := fun _ => .idle
      pushed := []
      popped := [] }

/-- The steps of `pcq_enqueue` and `pcq_dequeue`. A signal names the sleeper it
wakes. -/
inductive Event (α : Type*)
  | enqueue (p : Nat) (elem : α)
  | pusherTest (p : Nat)
  | store (p : Nat)
  | countUp (p : Nat)
  | signalPopper (p : Nat) (woken : Option Nat)
  | pusherWakes (p : Nat)
  | dequeue (c : Nat)
  | popperTest (c : Nat)
  | take (c : Nat)
  | countDown (c : Nat)
  | signalPusher (c : Nat) (woken : Option Nat)
  | popperWakes (c : Nat)

namespace PcQueue

def setPusher (q : PcQueue α) (p : Nat) (pc : PusherPc α) : PcQueue α :=
  { q with pushers := Function.update q.pushers p pc }

def setPopper (q : PcQueue α) (c : Nat) (pc : PopperPc α) : PcQueue α :=
  { q with poppers := Function.update q.poppers c pc }

/-- A woken thread goes back to its test; nothing happens if it was not asleep. -/
def wakePusher (q : PcQueue α) (p : Nat) : Option (PcQueue α) :=
  match q.pushers p with
  | .asleep elem => if p < q.nPushers then some (q.setPusher p (.testing elem)) else none
  | _ => none

def wakePopper (q : PcQueue α) (c : Nat) : Option (PcQueue α) :=
  match q.poppers c with
  | .asleep => if c < q.nPoppers then some (q.setPopper c .testing) else none
  | _ => none

def pusherAsleep (q : PcQueue α) (p : Nat) : Bool :=
  match q.pushers p with
  | .asleep _ => true
  | _ => false

def popperAsleep (q : PcQueue α) (c : Nat) : Bool :=
  match q.poppers c with
  | .asleep => true
  | _ => false

/-- `pthread_cond_signal` on `pcq_popper_condvar`. -/
def signalPoppers (q : PcQueue α) : Option Nat → Option (PcQueue α)
  | some c => q.wakePopper c
  | none => if (firstIndex q.popperAsleep q.nPoppers).isNone then some q else none

/-- `pthread_cond_signal` on `pcq_pusher_condvar`. -/
def signalPushers (q : PcQueue α) : Option Nat → Option (PcQueue α)
  | some p => q.wakePusher p
  | none => if (firstIndex q.pusherAsleep q.nPushers).isNone then some q else none

/-- A step of a pusher in `pcq_enqueue`. -/
def pusherStep (q : PcQueue α) (p : Nat) : Event α → PusherPc α → Option (PcQueue α)
  | .enqueue _ elem, .idle => some (q.setPusher p (.testing elem))
  | .pusherTest _, .testing elem =>
    some (q.setPusher p (if q.pcqCurrentSize = q.pcqCapacity then .asleep elem else .passed elem))
  | .store _, .passed elem =>
    some { q.setPusher p .stored with
      pcqBuffer := Function.update q.pcqBuffer q.pcqTail (some elem)
      pcqTail := (q.pcqTail + 1) % q.pcqCapacity
      pushed := q.pushed ++ [elem] }
  | .countUp _, .stored =>
    some { q.setPusher p .signalling with pcqCurrentSize := addSize q.pcqCurrentSize 1 }
  | .signalPopper _ woken, .signalling => (q.setPusher p .idle).signalPoppers woken
  | _, _ => none

/-- A step of a popper in `pcq_dequeue`. -/
def popperStep (q : PcQueue α) (c : Nat) : Event α → PopperPc α → Option (PcQueue α)
  | .dequeue _, .idle => some (q.setPopper c .testing)
  | .popperTest _, .testing =>
    some (q.setPopper c (if q.pcqCurrentSize = 0 then .asleep else .passed))
  | .take _, .passed =>
    some { q.setPopper c (.taken (q.pcqBuffer q.pcqHead)) with
      pcqHead := (q.pcqHead + 1) % q.pcqCapacity
      popped := q.popped ++ [q.pcqBuffer q.pcqHead] }
  | .countDown _, .taken elem =>
    some { q.setPopper c (.signalling elem) with pcqCurrentSize := subSize q.pcqCurrentSize 1 }
  | .signalPusher _ woken, .signalling _ => (q.setPopper c .idle).signalPushers woken
  | _, _ => none

def step (q : PcQueue α) (e : Event α) : Option (PcQueue α) :=
  match e with
  | .enqueue p _ | .pusherTest p | .store p | .countUp p | .signalPopper p _ =>
    if p < q.nPushers then q.pusherStep p e (q.pushers p) else none
  | .dequeue c | .popperTest c | .take c | .countDown c | .signalPusher c _ =>
    if c < q.nPoppers then q.popperStep c e (q.poppers c) else none
  | .pusherWakes p => q.wakePusher p
  | .popperWakes c => q.wakePopper c

end PcQueue

end MBroker.Queue
