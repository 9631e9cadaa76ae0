import MBroker.Broker.Progress
import MBroker.Library.Overlap

/-!
# Sections that take time

In `step` a section is done at once. In the process it takes time, and some sections hold no
lock: `handle_tfs_register` from `get_box` to the counter, `finish_client_session`, and the
loop of `handle_tfs_remove_box` with `remove_box`, whose `boxes_lock` no registration takes.
Where two of these touch the same counters, records or slots at a time, what comes of it is
not what either of them does alone. `clash` says which.

A call on the client's pipe goes by the descriptor as it was when the call was made: a `read`
that waits in a pipe still gets bytes when the descriptor has been closed since.

Results:
1. `threads`: the broker as a machine of threads whose sections take time.
2. `Heard`: a call that is answered at once.
-/

namespace MBroker

open Transition

/-- What a call gets, `opened` if the client's pipe was open when the call was made. -/
def Answer.fits (opened : Bool) : Answer → Bool
  | .read bytes => opened || bytes == []
  | .wrote result => opened || result == .error
  | _ => true

namespace Broker

variable (b : Broker) (e f : Nat × Answer)

/-- The section takes its worker out of the loop of a session. -/
def leavesLoop : Bool :=
  (b.pcs e.1).InSession && (b.step e).any fun x => !(x.pcs e.1).InSession

/-- The slot whose counters the section tests or changes. -/
def countsOn : Option Nat :=
  if b.pcs e.1 = .registerBox then b.getBox (b.clients e.1).boxName.str
  else if b.leavesLoop e then (b.clients e.1).box
  else none

/-- Section `e` looks for a box while `f` creates or removes one. -/
def looksAside : Bool :=
  b.pcs e.1 = .registerBox && (b.pcs f.1 = .createLock || b.pcs f.1 = .removeBody)

/-- Section `e` removes a box. The record of `f`'s worker carries its name or points to it, or
the worker takes a request for it. -/
def removesFrom : Bool :=
  let boxName := (b.clients e.1).boxName.str
  b.pcs e.1 = .removeBody && (b.getBox boxName).isSome &&
    ((b.clients f.1).boxName.str == boxName || (b.clients f.1).box == b.getBox boxName ||
      match f.2 with
      | .request r => r.boxName.str == boxName
      | _ => false)

/-- The two sections are not safe beside each other. -/
def clash : Bool :=
  (b.countsOn e).isSome && b.countsOn e == b.countsOn f || b.looksAside e f || b.looksAside f e ||
    b.removesFrom e f || b.removesFrom f e

/-- A machine whose states have a broker in them, with sections that take time. -/
def threads {σ : Type} (step : σ → Nat × Answer → Option σ) (broker : σ → Broker) :
    Threads σ Nat Answer Bool where
  step := step
  note s w := (broker s).isOpenFd ((broker s).clients w).clientPipe
  allows := Answer.fits
  clash s := (broker s).clash

/-- The broker, with sections that take time. -/
def sections : Threads Broker Nat Answer Bool := threads Broker.step id

abbrev Sections : Type := Timed Broker Nat Answer Bool

/-- The call of the section is made and answered at once. -/
def Heard : Prop := e.2.fits (b.isOpenFd (b.clients e.1).clientPipe) = true

variable {b} {w i : Nat} {a : Answer}

theorem removesFrom_of_box {v : Nat} (hpc : b.pcs w = .removeBody)
    (hi : b.getBox (b.clients w).boxName.str = some i) (hv : (b.clients v).box = some i)
    (a c : Answer) :
    b.clash (w, a) (v, c) = true := by
  have hremoves : b.removesFrom (w, a) (v, c) = true := by
    simp [removesFrom, hpc, hi, hv]
  simp [clash, hremoves]

end Broker

end MBroker
