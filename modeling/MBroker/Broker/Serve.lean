import MBroker.Broker.Start

/-!
# One request served alone

A worker takes a request and goes on until its handler returns, while the other
workers stand still. The environment is the obliging one: the client's pipe opens
and takes every write whole. Whether `malloc` finds memory is left open.

Results:
1. `serve_reaches`: this is a run of the broker.
2. `serve_eq`: it is the obliging run from the first section of the handler.
-/

namespace MBroker

open Transition

namespace Broker

variable {b b' : Broker} {w : Nat} {r : Request} {fd : Nat} {malloced : Bool} {pc : Pc}

/-- What the obliging environment answers where the worker stands; the pipe opens as
descriptor `fd`. -/
def obliging (w fd : Nat) (malloced : Bool) (b : Broker) : Nat × Answer :=
  (w, match b.pcs w with
    | .registerOpen | .createOpen .. | .removeOpen | .listOpen =>
      .opened (b.clients w).clientPipename.str (some fd)
    | .createLock => .malloced malloced
    | .answering (bytes :: _) _ => .wrote (.wrote bytes.length)
    | .listing i _ last =>
      if i < maxBoxes ∧ b.listSkips i = false
        then .wrote (.wrote (b.listFrame i last).length) else .none
    | _ => .none)

def hasReturned (w : Nat) (b : Broker) : Bool :=
  match b.pcs w with
  | .ret _ => true
  | _ => false

/-- More sections than any handler of create, remove and list requests has. -/
def sectionBound : Nat := 80

/-- The state in which the handler has returned. -/
def serve (b : Broker) (w : Nat) (r : Request) (fd : Nat) (malloced : Bool) : Option Broker :=
  (b.step (w, .request r)).bind (drive step (obliging w fd malloced) (hasReturned w) sectionBound)

/-- What the worker has written to descriptor `fd` in its session. -/
def output (b : Broker) (w fd : Nat) : List UInt8 :=
  ((b.sent w).filter fun line => line.1 == fd).flatMap Prod.snd

theorem serve_reaches (h : b.serve w r fd malloced = some b') : Reaches step anyStep b b' := by
  obtain ⟨x, hx, hdrive⟩ := Option.bind_eq_some_iff.mp h
  exact (Reaches.refl.next trivial hx).trans (.of_drive hdrive fun _ _ => trivial)

theorem step_of (hstop : b.stopped = false) (hw : w < b.maxSessions) (a : Answer) :
    b.step (w, a) = b.stepWorker w (b.pcs w) a := by
  refine if_neg ?_
  rw [hstop]
  rintro (h | h)
  · cases h
  · exact Nat.not_lt.mpr h hw

theorem serve_eq (hstop : b.stopped = false) (hw : w < b.maxSessions) (hpc : b.pcs w = .idle) :
    b.serve w r fd malloced
      = drive step (obliging w fd malloced) (hasReturned w) sectionBound (b.dequeued w r) := by
  rw [serve, step_of hstop hw, hpc]
  rfl

theorem hasReturned_of_ret {result : Int} (h : b.pcs w = .ret result) : hasReturned w b = true := by
  rw [hasReturned, h]

/-- The handler has returned. -/
theorem drive_ret {result : Int} (h : b.pcs w = .ret result) (n : Nat) :
    drive step (obliging w fd malloced) (hasReturned w) n b = some b :=
  drive_done (hasReturned_of_ret h)

/-- One section of the handler. -/
theorem drive_section {n : Nat} (hstop : b.stopped = false) (hw : w < b.maxSessions)
    (hpc : b.pcs w = pc) (hret : ∀ result, pc ≠ .ret result)
    (hs : b.stepWorker w pc (b.obliging w fd malloced).2 = some b') :
    drive step (obliging w fd malloced) (hasReturned w) (n + 1) b
      = drive step (obliging w fd malloced) (hasReturned w) n b' := by
  refine drive_next ?_ ?_
  · unfold hasReturned
    rw [hpc]
    split
    · next result => exact absurd rfl (hret result)
    · rfl
  · rw [← hpc] at hs
    exact (step_of hstop hw _).trans hs

/-! ## A write that is taken whole -/

/-- Worker `w` has written `bytes` to its pipe. -/
def wrote (b : Broker) (w : Nat) (bytes : List UInt8) : Broker :=
  { b with sent :=
      Function.update b.sent w (b.sent w ++ [((b.clients w).clientPipe.toNat, bytes)]) }

theorem emit_whole {bytes : List UInt8} (h : b.isOpenFd (b.clients w).clientPipe = true) :
    b.emit w bytes (.wrote bytes.length) = some (b.wrote w bytes) := by
  have hfd : 0 ≤ (b.clients w).clientPipe := of_decide_eq_true (Bool.and_eq_true_iff.mp h).1
  simp [emit, hfd, wrote]

@[simp] theorem wrote_sent (b : Broker) (w : Nat) (bytes : List UInt8) :
    (b.wrote w bytes).sent w = b.sent w ++ [((b.clients w).clientPipe.toNat, bytes)] :=
  Function.update_self ..

/-- All lines went to descriptor `fd`. -/
theorem output_of_sent {lines : List (List UInt8)}
    (h : b.sent w = lines.map fun bytes => (fd, bytes)) : b.output w fd = lines.flatten := by
  rw [output, h, List.filter_eq_self.mpr (by simp), List.flatMap_map, List.flatMap_id']

end Broker

end MBroker
