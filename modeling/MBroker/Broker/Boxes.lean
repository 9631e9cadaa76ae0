import MBroker.Broker.State

/-!
# The box table and the end of a session (`mbroker/mbroker.c`)

`get_box`, `get_free_box`, `create_box`, `remove_box` and
`finish_client_session`.

Results:
1. `finishClientSession_of_closed`, `_of_no_boxFd`, `_of_boxFd`: the three ways in
   which a session ends.
2. `finishClientSession_frame`: it changes the descriptors, the counters of boxes
   and the record of one worker, and nothing else.
-/

namespace MBroker

open FirstFit

namespace Broker

/-- `&boxes[i]`, or none for `NULL`. A slot matches by its name alone. -/
def getBox (b : Broker) (boxName : CStr) : Option Nat :=
  firstIndex (fun i => (b.boxes i).boxName.str == boxName) maxBoxes

def getFreeBox (b : Broker) : Broker × Int :=
  match firstIndex b.freeBoxes maxBoxes with
  | some i => ({ b with freeBoxes := Function.update b.freeBoxes i false }, (i : Int))
  | none => (b, -1)

/-- `malloced` tells whether `malloc` found memory for the new box. -/
def createBox (b : Broker) (boxName : CharArray 32) (malloced : Bool) : Broker × Int :=
  if !malloced then (b, -1)
  else
    let b := { b with numBoxes := b.numBoxes + 1 }
    match b.getFreeBox with
    | (b, boxId) =>
      if boxId = -1 then (b, -1)
      else
        (b.setBox boxId.toNat
          { boxName := boxName.terminate
            boxSize := 0
            nPublishers := 0
            nSubscribers := 0
            cond := (b.boxes boxId.toNat).cond + 1
            lock := none }, 0)

def removeBox (b : Broker) (boxName : CStr) : Except Fs.Fault (Broker × Int) :=
  match b.getBox boxName with
  | none => .ok (b, -1)
  | some i => do
    let b := { b with freeBoxes := Function.update b.freeBoxes i true }
    let (tfs, ret) ← Fs.tfsUnlink b.tfs (some (b.boxes i).boxName.str)
    let b := { b with tfs := tfs }
    if ret = -1 then return (b, -1)
    let b := b.setBox i
      { b.boxes i with
        boxName := (b.boxes i).boxName.clear
        boxSize := 0
        nPublishers := 0
        nSubscribers := 0 }
    return ({ b with numBoxes := b.numBoxes - 1 }, 0)

/-- The counter that a session of this kind holds is decremented. -/
def leaveBox (b : Broker) (opcode : UInt8) (i : Nat) : Broker :=
  if opcode = opCodeRegistPub then
    b.setBox i { b.boxes i with nPublishers := subSize (b.boxes i).nPublishers 1 }
  else if opcode = opCodeRegistSub then
    b.setBox i { b.boxes i with nSubscribers := subSize (b.boxes i).nSubscribers 1 }
  else b

def finishClientSession (b : Broker) (w : Nat) : Broker × Int :=
  let client := b.clients w
  match b.close client.clientPipe with
  | (b, false) => (b, -1)
  | (b, true) =>
    if client.opcode ≠ opCodeListBoxes ∧ client.boxFd = -1 then (b, -1)
    else
      let b :=
        match client.box with
        | some i => b.leaveBox client.opcode i
        | none => b
      (b.setClient w
        { client with
          boxName := client.boxName.clear
          clientPipename := client.clientPipename.clear
          box := none
          boxFd := -1 }, 0)

/-- The loop of `handle_tfs_remove_box`: every session but that of worker `self`
whose record carries the name is finished, from record `i` on. It stops at the
first one that cannot be. -/
def finishSessions (b : Broker) (self : Nat) (boxName : CStr) : Nat → Nat → Broker × Int
  | _, 0 => (b, 0)
  | i, n + 1 =>
    if (b.clients i).boxName.str = boxName ∧ i ≠ self then
      match b.finishClientSession i with
      | (b, ret) => if ret = -1 then (b, -1) else b.finishSessions self boxName (i + 1) n
    else b.finishSessions self boxName (i + 1) n

/-! ## What the end of a session leaves alone -/

/-- `b'` is `b` but for descriptors, counters of boxes and records of workers. -/
structure Kept (b b' : Broker) : Prop where
  maxSessions : b'.maxSessions = b.maxSessions
  numBoxes : b'.numBoxes = b.numBoxes
  freeBoxes : b'.freeBoxes = b.freeBoxes
  boxesLock : b'.boxesLock = b.boxesLock
  tfs : b'.tfs = b.tfs
  pcs : b'.pcs = b.pcs
  sent : b'.sent = b.sent
  stopped : b'.stopped = b.stopped
  boxName : ∀ i, (b'.boxes i).boxName = (b.boxes i).boxName
  boxSize : ∀ i, (b'.boxes i).boxSize = (b.boxes i).boxSize
  cond : ∀ i, (b'.boxes i).cond = (b.boxes i).cond
  lock : ∀ i, (b'.boxes i).lock = (b.boxes i).lock

/-- Moreover the record of `w` is the only one that may differ. -/
structure Frame (b b' : Broker) (w : Nat) : Prop extends Kept b b' where
  clients : ∀ v, v ≠ w → b'.clients v = b.clients v

variable {b : Broker} {w i : Nat}

/-- The boxes and all that is not a descriptor or a record are the same. -/
theorem Kept.of_boxes {b' : Broker} (h : b' = { b with fds := b'.fds, clients := b'.clients }) :
    Kept b b' := by
  rw [h]
  exact ⟨rfl, rfl, rfl, rfl, rfl, rfl, rfl, rfl, fun _ => rfl, fun _ => rfl, fun _ => rfl,
    fun _ => rfl⟩

theorem Kept.trans {b' b'' : Broker} (h : Kept b b') (h' : Kept b' b'') : Kept b b'' where
  maxSessions := h'.maxSessions.trans h.maxSessions
  numBoxes := h'.numBoxes.trans h.numBoxes
  freeBoxes := h'.freeBoxes.trans h.freeBoxes
  boxesLock := h'.boxesLock.trans h.boxesLock
  tfs := h'.tfs.trans h.tfs
  pcs := h'.pcs.trans h.pcs
  sent := h'.sent.trans h.sent
  stopped := h'.stopped.trans h.stopped
  boxName i := (h'.boxName i).trans (h.boxName i)
  boxSize i := (h'.boxSize i).trans (h.boxSize i)
  cond i := (h'.cond i).trans (h.cond i)
  lock i := (h'.lock i).trans (h.lock i)

/-- The slots have the same names, so they are found alike. -/
theorem Kept.getBox {b' : Broker} (h : Kept b b') (name : CStr) : b'.getBox name = b.getBox name :=
  firstIndex_congr fun i _ => by rw [h.boxName]

theorem Frame.refl (b : Broker) (w : Nat) : Frame b b w := ⟨.of_boxes rfl, fun _ _ => rfl⟩

theorem Frame.trans {b' b'' : Broker} (h : Frame b b' w) (h' : Frame b' b'' w) : Frame b b'' w :=
  ⟨h.toKept.trans h'.toKept, fun v hv => (h'.clients v hv).trans (h.clients v hv)⟩

theorem fds_frame (b : Broker) (w : Nat) (fds : Nat → Bool) : Frame b { b with fds := fds } w :=
  ⟨.of_boxes rfl, fun _ _ => rfl⟩

theorem close_frame (b : Broker) (w : Nat) (fd : Int) : Frame b (b.close fd).1 w := by
  unfold close
  split
  · exact fds_frame b w _
  · exact .refl b w

theorem setClient_frame (b : Broker) (w : Nat) (c : Client) : Frame b (b.setClient w c) w :=
  ⟨.of_boxes rfl, fun _ hv => Function.update_of_ne hv ..⟩

/-- A slot that is set to a box that differs in its counters only. -/
theorem setBox_frame (b : Broker) (w i p s : Nat) :
    Frame b (b.setBox i { b.boxes i with nPublishers := p, nSubscribers := s }) w := by
  exact ⟨⟨rfl, rfl, rfl, rfl, rfl, rfl, rfl, rfl, field_setBox Box.boxName rfl,
    field_setBox Box.boxSize rfl, field_setBox Box.cond rfl, field_setBox Box.lock rfl⟩,
    fun _ _ => rfl⟩

theorem leaveBox_frame (b : Broker) (w : Nat) (opcode : UInt8) (i : Nat) :
    Frame b (b.leaveBox opcode i) w := by
  unfold leaveBox
  split
  · exact setBox_frame b w i _ (b.boxes i).nSubscribers
  · split
    · exact setBox_frame b w i (b.boxes i).nPublishers _
    · exact .refl b w

theorem takeFd_eq_some {b' : Broker} {fd : Nat} :
    b.takeFd fd = some b' ↔
      b.fds fd = false ∧ b' = { b with fds := Function.update b.fds fd true } := by
  unfold takeFd
  split
  · next h => simp [h]
  · next h => simp [h, eq_comm]

theorem getBox_lt {name : CStr} (h : b.getBox name = some i) : i < maxBoxes :=
  (firstIndex_eq_some.mp h).1

/-! ## The three ways in which a session ends -/

/-- The session of `w` has left its box. -/
def left (b : Broker) (w : Nat) : Broker :=
  match (b.clients w).box with
  | some i => b.leaveBox (b.clients w).opcode i
  | none => b

/-- The record that a finished session leaves behind. -/
def Client.finished (c : Client) : Client :=
  { c with boxName := c.boxName.clear, clientPipename :=
    c.clientPipename.clear, box := none, boxFd := -1 }

/-- The pipe could not be closed. -/
theorem finishClientSession_of_closed (h : b.isOpenFd (b.clients w).clientPipe = false) :
    b.finishClientSession w = (b, -1) := by
  simp [finishClientSession, close, h]

/-- The pipe is closed and the box is not left. -/
theorem finishClientSession_of_no_boxFd (h : b.isOpenFd (b.clients w).clientPipe = true)
    (hop : (b.clients w).opcode ≠ opCodeListBoxes) (hfd : (b.clients w).boxFd = -1) :
    b.finishClientSession w = ((b.close (b.clients w).clientPipe).1, -1) := by
  simp [finishClientSession, close, h, hop, hfd]

theorem finishClientSession_of_boxFd (h : b.isOpenFd (b.clients w).clientPipe = true)
    (hfd : (b.clients w).opcode = opCodeListBoxes ∨ (b.clients w).boxFd ≠ -1) :
    b.finishClientSession w
      = (((b.close (b.clients w).clientPipe).1.left w).setClient w (Client.finished
        (b.clients w)), 0) := by
  have hno : ¬ ((b.clients w).opcode ≠ opCodeListBoxes ∧ (b.clients w).boxFd = -1) := by
    rintro ⟨hop, hbox⟩
    exact hfd.elim hop (fun hne => hne hbox)
  simp only [finishClientSession, close, h, if_true, if_neg hno]
  rfl

theorem left_frame (b : Broker) (w : Nat) : Frame b (b.left w) w := by
  unfold left
  split
  · exact leaveBox_frame b w _ _
  · exact .refl b w

theorem finishClientSession_frame (b : Broker) (w : Nat) :
    Frame b (b.finishClientSession w).1 w := by
  cases hopen : b.isOpenFd (b.clients w).clientPipe with
  | false =>
    rw [finishClientSession_of_closed hopen]
    exact .refl b w
  | true =>
    by_cases hfd : (b.clients w).opcode = opCodeListBoxes ∨ (b.clients w).boxFd ≠ -1
    · rw [finishClientSession_of_boxFd hopen hfd]
      exact ((close_frame b w _).trans (left_frame _ w)).trans (setClient_frame _ w _)
    · rw [not_or, not_not] at hfd
      rw [finishClientSession_of_no_boxFd hopen hfd.1 hfd.2]
      exact close_frame b w _

end Broker

end MBroker
