import MBroker.Broker.Locks

/-!
# The sessions that a removal ends

`handle_tfs_remove_box` ends the sessions of a box by the name in their records. The
record of a worker keeps that name when a registration finds no box, when a request has
no handler, and when the end of a session fails; and every request but a listing writes
it before it is served. Then the loop calls `finish_client_session` for a worker that is
in no session, and closes a descriptor that this worker has closed already, or that
belongs to someone else by now. The same comes of a handler that finishes its own session
while, or after, a removal does.

Results:
1. `Recognised.step`: as long as these ways are not taken, names and pipes belong to the
   workers whose records hold them.
2. `removal_ends_sessions`: then a removal ends the sessions of its box and no other, and no
   other section closes a pipe that its worker does not hold.
3. `idle_finished`: a registration that finds no box makes a later removal close the
   pipe of the manager that asks for it.
-/

namespace MBroker

open FirstFit Transition Fs

namespace Pc

/-- After the `open` of the client's pipe, and before the end of the session. -/
def HasPipe : Pc → Bool
  | .registerBox | .createFile .. | .removeBody | .answering .. | .listing .. => true
  | pc => pc.InSession

/-- With an answer to a create request, whose pipe may be missing. -/
def Creates : Pc → Bool
  | .createFile .. | .answering _ false => true
  | _ => false

/-- In a request that names a box, outside of the loops of a session, or in a worker that
has failed. -/
def Asks : Pc → Bool
  | .registerOpen | .registerBox | .createLock | .createOpen .. | .createFile ..
  | .removeLock | .removeOpen
  | .removeBody | .answering .. | .closing => true
  | .ret result => result == -1
  | _ => false

end Pc

namespace Broker

variable {b b' x : Broker} {v w i k n : Nat} {pc : Pc} {a : Answer} {self : Nat} {boxName : CStr}

/-! ## What the claims of a removal rest on -/

/-- Worker `v` has a pipe of its own: no one has finished its session. -/
def HoldsPipe (b : Broker) (v : Nat) : Prop :=
  (b.pcs v).HasPipe = true ∧ ((b.pcs v).InSession = true → (b.clients v).box ≠ none)

/-- Worker `w` removes the box in slot `i`, from `b` to `b'`: `finish_client_session` is
called for the sessions on the box. The others keep their records and their pipes. -/
structure EndsExactly (b b' : Broker) (w i : Nat) : Prop where
  called : ∀ v, v ∈ b.finishCalls w (b.clients w).boxName.str 0 b.maxSessions ↔
    b.attached v i = true
  opened : ∀ v ∈ b.finishCalls w (b.clients w).boxName.str 0 b.maxSessions,
    b.isOpenFd (b.clients v).clientPipe = true
  once : ((b.finishCalls w (b.clients w).boxName.str 0 b.maxSessions).map
    fun v => (b.clients v).clientPipe).Nodup
  spared : ∀ v, b.attached v i = false → b'.clients v = b.clients v ∧
    (b.HoldsPipe v → b'.isOpenFd (b.clients v).clientPipe = b.isOpenFd (b.clients v).clientPipe)

/-- Where a handler calls `finish_client_session` for its own session, no one has finished
the session before; and where it returns no error then, `finish_client_session` finds a
`box_fd`. -/
def FinishesOnce (b : Broker) (w : Nat) (a : Answer) : Pc → Prop
  | .pubOpcode _
  | .pubMessage _ => a = .read [] → (b.clients w).box ≠ none → (b.clients w).boxFd ≠ -1
  | .pubOpen i _ =>
      ∀ t fhandle, tfsOpen b.tfs (some (b.boxes i).boxName.str) tfsOAppend = .ok (t, fhandle) →
      fhandle < 0 → (b.clients w).box ≠ none
  | .pubWrite _ message fhandle => ∀ t r,
      tfsWrite b.tfs fhandle (message ++ [0]) ((messageStr message).length + 1) = .ok (t, r) →
      r < ((messageStr message).length + 1 : Nat) → (b.clients w).box ≠ none ∧
      (b.clients w).boxFd ≠ -1
  | .historyOpen =>
      ∀ t fhandle, tfsOpen b.tfs (some (b.clients w).boxName.str) tfsOCreat = .ok (t, fhandle) →
      fhandle < 0 → (b.clients w).box ≠ none
  | .historyRead => ∀ t r bytes, tfsRead b.tfs (b.clients w).boxFd boxSize = .ok (t, r, bytes) →
      r < 0 → (b.clients w).box ≠ none
  | .followRead _ =>
      ∀ t r bytes, tfsRead b.tfs (b.clients w).boxFd messageLength = .ok (t, r, bytes) →
      r ≤ 0 → (b.clients w).box ≠ none
  | .followSendOp .. => a ≠ .wrote (.wrote 1) → (b.clients w).box ≠ none ∧ (b.clients w).boxFd ≠ -1
  | .followSendMessage .. =>
    a ≠ .wrote (.wrote messageLength) → (b.clients w).box ≠ none ∧ (b.clients w).boxFd ≠ -1
  | _ => True

/-- The sections after which the names in the records are still those of sessions, and the
pipes still belong to the workers. -/
structure Recognises (b : Broker) (e : Nat × Answer) : Prop where
  request : ∀ r, e.2 = .request r → handlerOf r.opcode = .ret 0 → r.boxName.str = .empty
  absent : b.pcs e.1 = .registerBox → b.getBox (b.clients e.1).boxName.str = none →
    (b.clients e.1).boxName.str = .empty
  found : FindsUsed b e.1
  finish : b.FinishesOnce e.1 e.2 (b.pcs e.1)
  removal : b.pcs e.1 = .removeBody → ∀ i, b.getBox (b.clients e.1).boxName.str = some i →
    (b.clients e.1).boxName.str ≠ .empty ∧
      (∀ v < b.maxSessions, v ≠ e.1 → (b.pcs v).Asks = true →
        (b.clients v).boxName.str ≠ (b.clients e.1).boxName.str) ∧
      ∀ v, b.attached v i = true → (b.clients v).boxFd ≠ -1

/-- The name in the record of worker `v`. -/
structure Known (b : Broker) (v : Nat) : Prop where
  seat : ∀ i, (b.pcs v).InSession = true → (b.clients v).box = some i →
    i < maxBoxes ∧ b.freeBoxes i = false ∧ b.path i = (b.clients v).boxName.str
  finished : (b.pcs v).InSession = true → (b.clients v).box = none →
    (b.clients v).boxName.str = .empty
  vacant : (b.pcs v).InSession = false → (b.pcs v).Asks = false → (b.clients v).boxName.str = .empty

/-- The pipe of worker `v` is open, but for one that a create request could not open. -/
def Connected (b : Broker) (v : Nat) : Prop :=
  b.isOpenFd (b.clients v).clientPipe = true ∨ (b.clients v).clientPipe = -1 ∧
    (b.pcs v).Creates = true

/-- Names and pipes belong to the workers whose records hold them. -/
structure Recognised (b : Broker) : Prop where
  outside : ∀ v, b.maxSessions ≤ v → b.pcs v = .idle
  known : ∀ v, b.Known v
  connected : ∀ v, b.HoldsPipe v → b.Connected v
  apart : ∀ u v, u ≠ v → b.HoldsPipe u → b.HoldsPipe v →
    b.isOpenFd (b.clients u).clientPipe = true → (b.clients u).clientPipe ≠ (b.clients v).clientPipe
  distinct : b.Distinct

/-! ## What a section does to the pipe of its worker -/

/-- The descriptors stay, or one is opened for `w`, or that of `w` is closed. -/
inductive Turns (b x : Broker) (w : Nat) : Prop
  | same : (∀ fd, x.isOpenFd fd = b.isOpenFd fd) → (x.HoldsPipe w → b.HoldsPipe w ∧
      (x.clients w).clientPipe = (b.clients w).clientPipe ∧
      ((b.pcs w).Creates = true → (x.pcs w).Creates = true)) →
      Turns b x w
  | missing : (∀ fd, x.isOpenFd fd = b.isOpenFd fd) → (x.clients w).clientPipe = -1 →
      (x.pcs w).Creates = true →
      Turns b x w
  | opened {fd : Nat} : b.isOpenFd fd = false →
      (∀ fd' : Int, x.isOpenFd fd' = true ↔ b.isOpenFd fd' = true ∨ fd' = fd) →
      (x.clients w).clientPipe = fd →
      Turns b x w
  | closed : b.HoldsPipe w →
      (∀ fd, x.isOpenFd fd = true ↔ b.isOpenFd fd = true ∧ fd ≠ (b.clients w).clientPipe) →
      ¬ x.HoldsPipe w →
      Turns b x w

theorem Turns.quiet (hopen : ∀ fd, x.isOpenFd fd = b.isOpenFd fd)
    (hno : (x.pcs w).HasPipe = false) :
    Turns b x w :=
  .same hopen fun h => nomatch hno.symm.trans h.1

theorem isOpenFd_opened (b : Broker) (fd : Nat) (fd' : Int) :
    ({ b with fds := Function.update b.fds fd true } : Broker).isOpenFd fd' = true ↔
      b.isOpenFd fd' = true ∨ fd' = fd := by
  rcases eq_or_ne fd' fd with rfl | hne
  · simp [isOpenFd]
  · simp only [isOpenFd, Bool.and_eq_true, decide_eq_true_eq, or_iff_left hne]
    refine and_congr_right fun hpos => ?_
    rw [Function.update_of_ne (by omega)]

theorem isOpenFd_neg_one (b : Broker) : b.isOpenFd (-1) = false := rfl

theorem close_isOpenFd (b : Broker) (fd fd' : Int) :
    (b.close fd).1.isOpenFd fd' = true ↔ b.isOpenFd fd' = true ∧ fd' ≠ fd := by
  cases hopen : b.isOpenFd fd with
  | true => rw [isOpenFd_close_iff hopen, ne_comm]
  | false =>
    rw [close, if_neg (by rw [hopen]; exact Bool.false_ne_true)]
    refine (and_iff_left_of_imp fun hfd => ?_).symm
    rintro rfl
    rw [hopen] at hfd
    cases hfd

theorem finish_isOpenFd (b : Broker) (w : Nat) (fd : Int) :
    (b.finishClientSession w).1.isOpenFd fd = true ↔
    b.isOpenFd fd = true ∧ fd ≠ (b.clients w).clientPipe := by
  rw [← close_isOpenFd]
  cases hopen : b.isOpenFd (b.clients w).clientPipe with
  | false =>
    rw [finishClientSession_of_closed hopen, close,
      if_neg (by rw [hopen]; exact Bool.false_ne_true)]
  | true =>
    by_cases hfd : (b.clients w).opcode = opCodeListBoxes ∨ (b.clients w).boxFd ≠ -1
    · rw [finishClientSession_of_boxFd hopen hfd]
      exact iff_of_eq (congrArg (· = true) (isOpenFd_left w _))
    · rw [not_or, not_not] at hfd
      rw [finishClientSession_of_no_boxFd hopen hfd.1 hfd.2]

/-- `finish_client_session` fails, or the record has no name any more. -/
theorem finish_cleared (b : Broker) (w : Nat) : (b.finishClientSession w).2 = -1 ∨
    ((b.finishClientSession w).1.clients w).boxName.str = .empty := by
  by_cases hret : (b.finishClientSession w).2 = -1
  · exact Or.inl hret
  · obtain ⟨hopen, hfd⟩ := finishClientSession_ne_iff.mp hret
    rw [finishClientSession_of_boxFd hopen hfd, setClient_self]
    exact Or.inr (CharArray.str_clear _)

/-- The handler is left with a finished session. -/
theorem Turns.ends {y : Broker} {r : Int} (hholds : b.HoldsPipe w)
    (hopen : ∀ fd, y.isOpenFd fd = b.isOpenFd fd)
    (hpipe : (y.clients w).clientPipe = (b.clients w).clientPipe) :
    Turns b ((y.finishClientSession w).1.setPc w (.ret r)) w := by
  refine .closed hholds (fun fd => ?_) fun hno => ?_
  · rw [← hopen, ← hpipe]
    exact finish_isOpenFd y w fd
  · have hret := hno.1
    rw [setPc_self] at hret
    cases hret

/-- What a section of a session leaves if the loop goes on. -/
structure GoesOn (b x : Broker) (w : Nat) : Prop where
  session : (x.pcs w).InSession = true
  box : (x.clients w).box = (b.clients w).box
  name : (x.clients w).boxName = (b.clients w).boxName
  pipe : (x.clients w).clientPipe = (b.clients w).clientPipe
  fds : x.fds = b.fds
  table : SameTable b x

theorem GoesOn.of_setPc {y : Broker} (hclients : y.clients w = b.clients w) (hfds : y.fds = b.fds)
    (htable : SameTable b y) (hin : pc.InSession = true) : GoesOn b (y.setPc w pc) w where
  session := by
    rw [setPc_self]
    exact hin
  box := congrArg Client.box hclients
  name := congrArg Client.boxName hclients
  pipe := congrArg Client.clientPipe hclients
  fds := hfds
  table := ⟨htable.numBoxes, htable.freeBoxes, htable.boxName⟩

theorem GoesOn.of_setClient {y : Broker} {c : Client} (hbox : c.box = (b.clients w).box)
    (hname : c.boxName = (b.clients w).boxName) (hpipe : c.clientPipe = (b.clients w).clientPipe)
    (hfds : y.fds = b.fds) (htable : SameTable b y) (hin : pc.InSession = true) :
    GoesOn b ((y.setClient w c).setPc w pc) w where
  session := by
    rw [setPc_self]
    exact hin
  box := (congrArg Client.box (setClient_self ..)).trans hbox
  name := (congrArg Client.boxName (setClient_self ..)).trans hname
  pipe := (congrArg Client.clientPipe (setClient_self ..)).trans hpipe
  fds := hfds
  table := ⟨htable.numBoxes, htable.freeBoxes, htable.boxName⟩

theorem unlockBox_boxName (y : Broker) (i j : Nat) :
    ((y.unlockBox i).boxes j).boxName = (y.boxes j).boxName :=
  field_setBox (x := { y.boxes i with lock := none }) Box.boxName rfl j

theorem pubCount_goesOn {message : List UInt8} : GoesOn b (b.pubCount w i message) w := by
  have hcounted := field_setBox (b := b) (i := i) (x := { b.boxes i with
    boxSize := addSize (b.boxes i).boxSize ((messageStr message).length + 1) }) Box.boxName rfl
  exact .of_setPc rfl rfl ⟨rfl, rfl, fun j => (unlockBox_boxName _ i j).trans (hcounted j)⟩ rfl

theorem Continues.goesOn (h : Continues b w pc x) : GoesOn b x w := by
  have hlock : ∀ {i : Nat} {box : Box}, box.boxName = (b.boxes i).boxName →
    SameTable b (b.setBox i box) :=
    fun hname => ⟨rfl, rfl, field_setBox Box.boxName hname⟩
  cases h with
  | pubOpcode => exact .of_setPc rfl rfl (.refl b) rfl
  | pubMessage => exact .of_setPc rfl rfl (.refl b) rfl
  | pubLock => exact .of_setPc rfl rfl (hlock rfl) rfl
  | pubOpen => exact .of_setPc rfl rfl ⟨rfl, rfl, fun _ => rfl⟩ rfl
  | pubWrite => exact .of_setPc rfl rfl ⟨rfl, rfl, fun _ => rfl⟩ rfl
  | pubCount => exact pubCount_goesOn
  | historyLock => exact .of_setPc rfl rfl (hlock rfl) rfl
  | historyOpen => exact .of_setClient rfl rfl rfl rfl ⟨rfl, rfl, fun _ => rfl⟩ rfl
  | historyTest => exact .of_setPc rfl rfl (.refl b) rfl
  | historyNone => exact .of_setPc rfl rfl (hlock rfl) rfl
  | historyRead => exact .of_setPc rfl rfl ⟨rfl, rfl, fun _ => rfl⟩ rfl
  | historyEnd => exact .of_setPc rfl rfl ⟨rfl, rfl, field_setBox Box.boxName rfl⟩ rfl
  | historySendOp _ _ hx =>
    obtain ⟨sent, rfl⟩ := emit_sent hx
    exact .of_setPc rfl rfl ⟨rfl, rfl, fun _ => rfl⟩ rfl
  | historyNext hx =>
    obtain ⟨sent, rfl⟩ := emit_sent hx
    exact .of_setPc rfl rfl ⟨rfl, rfl, fun _ => rfl⟩ rfl
  | historyLast hx =>
    obtain ⟨sent, rfl⟩ := emit_sent hx
    exact .of_setClient rfl rfl rfl rfl ⟨rfl, rfl, fun _ => rfl⟩ rfl
  | sleep => exact .of_setPc rfl rfl (.refl b) rfl
  | followLock => exact .of_setPc rfl rfl (.refl b) rfl
  | wake => exact .of_setPc rfl rfl (.refl b) rfl
  | followRead => exact .of_setPc rfl rfl ⟨rfl, rfl, fun _ => rfl⟩ rfl
  | followSendOp hx =>
    obtain ⟨sent, rfl⟩ := emit_sent hx
    exact .of_setPc rfl rfl ⟨rfl, rfl, fun _ => rfl⟩ rfl
  | followSendMessage hx =>
    obtain ⟨sent, rfl⟩ := emit_sent hx
    exact .of_setClient rfl rfl rfl rfl ⟨rfl, rfl, fun _ => rfl⟩ rfl

/-! ## What a section does to the name in the record of its worker -/

theorem Pc.hasPipe_of_inSession {pc : Pc} (h : pc.InSession = true) : pc.HasPipe = true := by
  cases pc <;> first | rfl | cases h

theorem Pc.not_creates {pc : Pc} (h : pc.InSession = true) : pc.Creates = false := by
  cases pc <;> first | rfl | cases h

theorem GoesOn.turns (h : GoesOn b x w) (hin : (b.pcs w).InSession = true) : Turns b x w := by
  refine .same (fun fd => by rw [isOpenFd, isOpenFd, h.fds]) fun hholds =>
    ⟨⟨Pc.hasPipe_of_inSession hin, fun _ => ?_⟩, h.pipe, fun hc => ?_⟩
  · rw [← h.box]
    exact hholds.2 h.session
  · rw [Pc.not_creates hin] at hc
    cases hc

theorem GoesOn.known (h : GoesOn b x w) (hin : (b.pcs w).InSession = true) (hk : b.Known w) :
    x.Known w where
  seat i _ hi := by
    obtain ⟨hlt, hused, hpath⟩ := hk.seat i hin (h.box ▸ hi)
    refine ⟨hlt, (congrFun h.table.freeBoxes i).trans hused, ?_⟩
    rw [h.name, ← hpath]
    exact path_eq (h.table.boxName i)
  finished _ hnone := by
    rw [h.name]
    exact hk.finished hin (h.box ▸ hnone)
  vacant hout := by
    rw [h.session] at hout
    cases hout

/-- Worker `w` is in no session then; a request that it is in asks for the name in its
record. -/
structure Outside (b x : Broker) (w : Nat) : Prop where
  out : (x.pcs w).InSession = false
  name : (x.pcs w).Asks = true ∨ (x.clients w).boxName.str = .empty
  turns : Turns b x w
  table : SameTable b x

theorem Outside.known (h : Outside b x w) : x.Known w where
  seat i hin := by
    rw [h.out] at hin
    cases hin
  finished hin := by
    rw [h.out] at hin
    cases hin
  vacant _ hask := h.name.resolve_left fun hc => nomatch hask.symm.trans hc

theorem sameTable_finish (y : Broker) (w : Nat) (pc : Pc) (h : SameTable b y) :
    SameTable b ((y.finishClientSession w).1.setPc w pc) := by
  have hkept := (finishClientSession_frame y w).toKept.sameTable
  exact ⟨hkept.numBoxes.trans h.numBoxes, hkept.freeBoxes.trans h.freeBoxes,
    fun i => (hkept.boxName i).trans (h.boxName i)⟩

/-- A handler that ends its session itself: the record is reset, or it returns an error. -/
theorem Outside.of_finish {y : Broker} {r : Int} (hholds : b.HoldsPipe w)
    (hopen : ∀ fd, y.isOpenFd fd = b.isOpenFd fd)
    (hpipe : (y.clients w).clientPipe = (b.clients w).clientPipe)
    (htable : SameTable b y) (hr : (y.finishClientSession w).2 = -1 → r = -1) :
    Outside b ((y.finishClientSession w).1.setPc w (.ret r)) w where
  out := by
    rw [setPc_self]
    rfl
  name := by
    rw [setPc_self]
    rcases finish_cleared y w with hfail | hcleared
    · rw [hr hfail]
      exact Or.inl rfl
    · exact Or.inr hcleared
  turns := .ends hholds hopen hpipe
  table := sameTable_finish y w _ htable

theorem Outside.of_endSession {y : Broker} {r : Int} (hholds : b.HoldsPipe w)
    (hopen : ∀ fd, y.isOpenFd fd = b.isOpenFd fd)
    (hpipe : (y.clients w).clientPipe = (b.clients w).clientPipe)
    (htable : SameTable b y) (hr : (y.finishClientSession w).2 = -1 → r = -1) :
    Outside b (y.endSession w r) w :=
  .of_finish hholds hopen hpipe htable hr

theorem Outside.of_returnFinish {y : Broker} (hholds : b.HoldsPipe w)
    (hopen : ∀ fd, y.isOpenFd fd = b.isOpenFd fd)
    (hpipe : (y.clients w).clientPipe = (b.clients w).clientPipe)
    (htable : SameTable b y) : Outside b (y.returnFinish w) w :=
  .of_finish hholds hopen hpipe htable id

theorem Ends.outside (h : Ends b w pc a x) (hpc : b.pcs w = pc) (hin : pc.InSession = true)
    (hok : b.FinishesOnce w a pc) (hk : b.Known w) (hconn : b.HoldsPipe w → b.Connected w) :
    Outside b x w := by
  have hholds : (b.clients w).box ≠ none → b.HoldsPipe w := fun hbox =>
    ⟨Pc.hasPipe_of_inSession (hpc ▸ hin), fun _ => hbox⟩
  -- with a box and a `box_fd` the end of the session succeeds
  have hsucceeds : (b.clients w).box ≠ none → (b.clients w).boxFd ≠ -1 → ∀ {y : Broker},
      y.clients w = b.clients w → y.fds = b.fds → (y.finishClientSession w).2 ≠ -1 := by
    intro hbox hfd y hclient hfds
    have hopen := (hconn (hholds hbox)).resolve_right fun hc => by
      rw [hpc, Pc.not_creates hin] at hc
      cases hc.2
    refine finishClientSession_ne_iff.mpr ⟨?_, Or.inr (by rw [hclient]; exact hfd)⟩
    rw [isOpenFd, hfds, hclient]
    exact hopen
  have hsent : ∀ {y : Broker} {bytes : List UInt8} {result : WriteResult},
      b.emit w bytes result = some y →
      Outside b (y.setPc w (.ret (-1))) w := by
    intro y bytes result he
    obtain ⟨sent, rfl⟩ := emit_sent he
    refine ⟨by rw [setPc_self]; rfl, Or.inl (by rw [setPc_self]; rfl), .quiet (fun _ =>
      rfl) ?_, ⟨rfl, rfl, fun _ => rfl⟩⟩
    rw [setPc_self]
    rfl
  cases h with
  | pipeClosed hplace =>
    unfold Broker.pipeClosed
    split
    · next hbox =>
      have hfd : (b.clients w).boxFd ≠ -1 := by
        rcases hplace with rfl | rfl <;> exact hok rfl hbox
      exact .of_endSession (hholds hbox) (fun _ => rfl) rfl (.refl b) fun hc =>
        absurd hc (hsucceeds hbox hfd rfl rfl)
    · next hbox =>
      refine ⟨by rw [setPc_self]; rfl, Or.inr ?_, .quiet (fun _ => rfl) ?_, ⟨rfl, rfl,
        fun _ => rfl⟩⟩
      · exact hk.finished (hpc ▸ hin) (not_not.mp hbox)
      · rw [setPc_self]
        rfl
  | @pubOpen i _ t fhandle hopen hneg =>
    exact .of_endSession (y := { b with tfs := t }) (hholds (hok _ _ hopen hneg)) (fun _ => rfl) rfl
      ⟨rfl, rfl, fun _ => rfl⟩ fun _ => rfl
  | @pubWrite i _ t _ _ result hwrite hcut =>
    obtain ⟨hbox, hfd⟩ := hok _ _ hwrite hcut
    exact .of_endSession (y := { b with tfs := t }) (hholds hbox) (fun _ => rfl) rfl
      ⟨rfl, rfl, fun _ => rfl⟩ fun hc => absurd hc (hsucceeds hbox hfd rfl rfl)
  | @historyOpen t fhandle hopen hneg =>
    exact .of_endSession (y := ({ b with tfs := t } : Broker).setClient w
      { b.clients w with boxFd := fhandle })
      (hholds (hok _ _ hopen hneg)) (fun _ => rfl) (field_setClient Client.clientPipe rfl)
      ⟨rfl, rfl, fun _ => rfl⟩ fun _ => rfl
  | @historyRead t _ _ hread hneg =>
    exact .of_endSession (y := { b with tfs := t }) (hholds (hok _ _ _ hread hneg))
      (fun _ => rfl) rfl
      ⟨rfl, rfl, fun _ => rfl⟩ fun _ => rfl
  | historySendOp he => exact hsent he
  | historySendMessage he => exact hsent he
  | @followNone _ t _ hread =>
    exact .of_returnFinish (y := { b with tfs := t }) (hholds (hok _ _ _ hread le_rfl))
      (fun _ => rfl) rfl
      ⟨rfl, rfl, fun _ => rfl⟩
  | @followRead _ t _ _ hread hneg =>
    exact .of_endSession (y := { b with tfs := t }) (hholds (hok _ _ _ hread (Int.le_of_lt hneg)))
      (fun _ => rfl) rfl
      ⟨rfl, rfl, fun _ => rfl⟩ fun _ => rfl
  | followSendOp he hne =>
    obtain ⟨hbox, hfd⟩ := hok fun hc => hne (Answer.wrote.inj hc)
    obtain ⟨sent, rfl⟩ := emit_sent he
    exact .of_endSession (y := { b with sent := sent }) (hholds hbox) (fun _ => rfl) rfl
      ⟨rfl, rfl, fun _ => rfl⟩ fun hc => absurd hc (hsucceeds hbox hfd rfl rfl)
  | followSendMessage he hne =>
    obtain ⟨hbox, hfd⟩ := hok fun hc => hne (Answer.wrote.inj hc)
    obtain ⟨sent, rfl⟩ := emit_sent he
    exact .of_endSession (y := { b with sent := sent }) (hholds hbox) (fun _ => rfl) rfl
      ⟨rfl, rfl, fun _ => rfl⟩ fun hc => absurd hc (hsucceeds hbox hfd rfl rfl)

theorem handlerOf_cases (opcode : UInt8) : (handlerOf opcode).HasPipe = false ∧
    ((handlerOf opcode).Asks = true ∨ opcode = opCodeListBoxes ∨
      handlerOf opcode = .ret 0 ∧ opcode ≠ opCodeListBoxes) := by
  unfold handlerOf
  split
  · exact ⟨rfl, Or.inl rfl⟩
  · split
    · exact ⟨rfl, Or.inl rfl⟩
    · split
      · exact ⟨rfl, Or.inl rfl⟩
      · split
        · next hlist => exact ⟨rfl, Or.inr (Or.inl hlist)⟩
        · next hno => exact ⟨rfl, Or.inr (Or.inr ⟨rfl, hno⟩)⟩

/-- `w` goes to a section outside of a session, and keeps its pipe if it has one there. -/
theorem Outside.of_setPc {y : Broker} (hout : pc.InSession = false)
    (hname : pc.Asks = true ∨ (y.clients w).boxName.str = .empty)
    (hopen : ∀ fd, y.isOpenFd fd = b.isOpenFd fd)
    (htable : SameTable b y)
    (hpipe : pc.HasPipe = true → (b.pcs w).HasPipe = true ∧ (b.pcs w).InSession = false ∧
      (y.clients w).clientPipe = (b.clients w).clientPipe ∧
      ((b.pcs w).Creates = true → pc.Creates = true)) :
    Outside b (y.setPc w pc) w where
  out := by rwa [setPc_self]
  name := by
    rw [setPc_self]
    exact hname
  turns := by
    refine .same hopen fun hholds => ?_
    have hpc := hholds.1
    rw [setPc_self] at hpc ⊢
    obtain ⟨hhas, hnot, hsame, hcreates⟩ := hpipe hpc
    exact ⟨⟨hhas, fun hin => nomatch hnot.symm.trans hin⟩, hsame, hcreates⟩
  table := ⟨htable.numBoxes, htable.freeBoxes, htable.boxName⟩

theorem dequeued_outside {r : Request} (hk : b.Known w) (hpc : b.pcs w = .idle)
    (hok : handlerOf r.opcode = .ret 0 → r.boxName.str = .empty) :
    Outside b (b.dequeued w r) w := by
  obtain ⟨hpipe, hcase⟩ := handlerOf_cases r.opcode
  refine .of_setPc (y := { b.setClient w _ with sent := Function.update b.sent w [] })
    (handlerOf_inSession _) ?_ (fun _ => rfl) ⟨rfl, rfl, fun _ => rfl⟩ fun hc =>
      nomatch hpipe.symm.trans hc
  refine hcase.imp_right fun hname => ?_
  rw [show (Broker.clients { b.setClient w _ with sent := Function.update b.sent w [] } w).boxName
    = _ from congrArg Client.boxName (setClient_self ..)]
  rcases hname with hlist | ⟨hret, hno⟩
  · rw [if_neg (not_not.mpr hlist)]
    exact hk.vacant (by rw [hpc]; rfl) (by rw [hpc]; rfl)
  · rw [if_pos hno]
    exact hok hret

theorem Serves.outside (h : Serves b w pc a x) (hpc : b.pcs w = pc) (hk : b.Known w)
    (hok : Recognises b (w, a)) (hregister : pc ≠ .registerBox) (hcreate : pc ≠ .createLock)
    (hremove : pc ≠ .removeBody) : Outside b x w := by
  have hsame : SameTable b b := .refl b
  have hvacant : pc.InSession = false → pc.Asks = false → (b.clients w).boxName.str = .empty :=
    fun hout hask =>
    hk.vacant (hpc ▸ hout) (hpc ▸ hask)
  have hholds : pc.HasPipe = true → pc.InSession = false → b.HoldsPipe w := fun hhas hout =>
    ⟨hpc ▸ hhas, fun hin => nomatch (hpc ▸ hout).symm.trans hin⟩
  have hkeep : ∀ {next : Pc}, pc.HasPipe = true → pc.InSession = false →
      (pc.Creates = true → next.Creates = true) →
      (b.pcs w).HasPipe = true ∧ (b.pcs w).InSession = false ∧
        (b.clients
          w).clientPipe = (b.clients w).clientPipe ∧ ((b.pcs w).Creates
            = true → next.Creates = true) :=
    fun hhas hout hcreates => ⟨hpc ▸ hhas, hpc ▸ hout, rfl, hpc ▸ hcreates⟩
  cases h with
  | request => exact dequeued_outside hk hpc (hok.request _ rfl)
  -- A handler that returned without failing has cleared the name of its record.
  | @returned result =>
    unfold Broker.returned
    split
    · next hfail =>
      split
      · refine ⟨congrArg Pc.InSession hpc, Or.inl ?_,
          .quiet (fun _ => rfl) (congrArg Pc.HasPipe hpc), ⟨rfl, rfl, fun _ => rfl⟩⟩
        exact (congrArg Pc.Asks hpc).trans (beq_iff_eq.mpr hfail)
      · exact .of_setPc rfl (Or.inl rfl) (fun _ => rfl) hsame fun hc => Bool.noConfusion hc
    · next hok =>
      exact .of_setPc rfl (Or.inr (hvacant rfl (beq_eq_false_iff_ne.mpr hok))) (fun _ => rfl) hsame
        fun hc => Bool.noConfusion hc
  | @opened _ next _ fd hnext hfd =>
    have hplace : next.InSession = false ∧
      (next.Asks = true ∨ (b.clients w).boxName.str = .empty) := by
      unfold afterOpen at hnext
      split at hnext <;> cases hnext
      · exact ⟨rfl, Or.inl rfl⟩
      · exact ⟨rfl, Or.inl rfl⟩
      · exact ⟨rfl, Or.inl rfl⟩
      · exact ⟨rfl, Or.inr (hvacant rfl rfl)⟩
    have hname := field_setClient (b := { b with fds := Function.update b.fds fd true }) (w := w)
      (c := { b.clients w with clientPipe := (fd : Int) }) Client.boxName rfl
    refine ⟨by rw [setPc_self]; exact hplace.1, ?_, @Turns.opened _ _ _ fd ?_ (fun fd' => ?_)
      (congrArg Client.clientPipe (setClient_self ..)), ⟨rfl, rfl, fun _ => rfl⟩⟩
    · rw [setPc_self]
      exact hplace.2.imp_right fun hempty => (congrArg CharArray.str hname).trans hempty
    · simp [isOpenFd, hfd]
    · exact isOpenFd_opened b fd fd'
  | notOpened hplace =>
    exact .of_setPc rfl (Or.inl rfl) (fun _ => rfl) hsame fun hc => Bool.noConfusion hc
  | registerBox => exact absurd rfl hregister
  | createLock => exact absurd rfl hcreate
  | createNotOpened =>
    refine ⟨by rw [setPc_self]; rfl, Or.inl (by rw [setPc_self]; rfl), .missing (fun _ => rfl)
      (congrArg Client.clientPipe (setClient_self ..)) (by rw [setPc_self]; rfl),
      ⟨rfl, rfl, fun _ => rfl⟩⟩
  | createCrash =>
    exact ⟨congrArg Pc.InSession hpc, Or.inl (congrArg Pc.Asks hpc),
      .same (fun _ => rfl) fun h => ⟨h, rfl, id⟩,
      ⟨rfl, rfl, fun _ => rfl⟩⟩
  | @createFailed _ _ t =>
    exact .of_setPc (y := { b with tfs := t }) rfl (Or.inl rfl) (fun _ => rfl)
      ⟨rfl, rfl, fun _ => rfl⟩ fun hc => Bool.noConfusion hc
  | @createFile _ _ t fhandle =>
    have hpipe := field_setClient (b := { b with tfs := t }) (w := w)
      (c := { b.clients w with boxFd := fhandle }) Client.clientPipe rfl
    exact .of_setPc (y := ({ b with tfs := t } : Broker).setClient w
      { b.clients w with boxFd := fhandle }) rfl
      (Or.inl rfl) (fun _ => rfl) ⟨rfl, rfl, fun _ => rfl⟩
        fun _ => ⟨hpc ▸ rfl, hpc ▸ rfl, hpipe, fun _ => rfl⟩
  | removeLock =>
    exact .of_setPc rfl (Or.inl rfl) (fun _ => rfl) ⟨rfl, rfl,
      fun _ => rfl⟩ fun hc => Bool.noConfusion hc
  | removeNotOpened =>
    exact .of_setPc rfl (Or.inl rfl) (fun _ => rfl) ⟨rfl, rfl,
      fun _ => rfl⟩ fun hc => Bool.noConfusion hc
  | removeBody => exact absurd rfl hremove
  | @answering _ _ locked _ hx =>
    obtain ⟨sent, rfl⟩ := emit_sent hx
    exact .of_setPc rfl (Or.inl rfl) (fun _ => rfl) ⟨rfl, rfl, fun _ => rfl⟩ fun _ =>
      hkeep rfl rfl (by cases locked <;> exact id)
  | notAnswered hx =>
    obtain ⟨sent, rfl⟩ := emit_sent hx
    exact .of_setPc rfl (Or.inl rfl) (fun _ => rfl) ⟨rfl, rfl,
      fun _ => rfl⟩ fun hc => Bool.noConfusion hc
  | @answered locked =>
    cases locked with
    | false => exact .of_returnFinish (hholds rfl rfl) (fun _ => rfl) rfl hsame
    | true => exact .of_returnFinish (y := { b with boxesLock := none }) (hholds
      rfl rfl) (fun _ => rfl) rfl ⟨rfl, rfl, fun _ => rfl⟩
  | listEnd => exact .of_returnFinish (hholds rfl rfl) (fun _ => rfl) rfl hsame
  | listSkip =>
    exact .of_setPc rfl (Or.inr (hvacant rfl rfl)) (fun _ => rfl) hsame fun _ =>
      hkeep rfl rfl fun hc => Bool.noConfusion hc
  | listWrite hx =>
    obtain ⟨sent, rfl⟩ := emit_sent hx
    exact .of_setPc rfl (Or.inr (hvacant rfl rfl)) (fun _ => rfl) ⟨rfl, rfl, fun _ => rfl⟩ fun _ =>
      hkeep rfl rfl fun hc => Bool.noConfusion hc
  | listFailed hx =>
    obtain ⟨sent, rfl⟩ := emit_sent hx
    exact .of_setPc rfl (Or.inl rfl) (fun _ => rfl) ⟨rfl, rfl,
      fun _ => rfl⟩ fun hc => Bool.noConfusion hc

/-- What a section of `w` leaves of its own record and pipe. -/
structure Acts (b x : Broker) (w : Nat) : Prop where
  known : x.Known w
  turns : Turns b x w

theorem Outside.acts (h : Outside b x w) : Acts b x w := ⟨h.known, h.turns⟩

theorem GoesOn.acts (h : GoesOn b x w) (hin : (b.pcs w).InSession = true)
    (hk : b.Known w) : Acts b x w :=
  ⟨h.known hin hk, h.turns hin⟩

/-- A registration that is accepted. -/
theorem session_acts {box : Box} (hpc : b.pcs w = .registerBox)
    (hi : b.getBox (b.clients w).boxName.str = some i) (hfound : FindsUsed b w)
    (hbox : box.boxName = (b.boxes i).boxName) (hin : pc.InSession = true) :
    Acts b (((b.attach w i).setBox i box).setPc w pc) w ∧
      SameTable b (((b.attach w i).setBox i box).setPc w pc) := by
  have hname := field_setClient (b := b) (w := w) (c := { b.clients w with box := some i })
    Client.boxName rfl
  have hpipe := field_setClient (b := b) (w := w) (c := { b.clients w with box := some i })
    Client.clientPipe rfl
  have hslot : ((b.attach w i).clients w).box = some i := congrArg Client.box (setClient_self ..)
  have htable : SameTable b (((b.attach w i).setBox i box).setPc w pc) :=
    ⟨rfl, rfl, field_setBox (b := b.attach w i) Box.boxName hbox⟩
  refine ⟨⟨⟨fun j _ hj => ?_, fun _ hnone => ?_, fun hout => ?_⟩,
    .same (fun _ => rfl) fun _ => ?_⟩, htable⟩
  · obtain rfl := Option.some.inj (hslot.symm.trans hj)
    obtain ⟨hlt, hpath⟩ := getBox_eq_some hi
    refine ⟨hlt, hfound hpc i hi, (path_eq (htable.boxName i)).trans (hpath.trans ?_)⟩
    exact (congrArg CharArray.str hname).symm
  · exact nomatch hslot.symm.trans hnone
  · rw [setPc_self, hin] at hout
    cases hout
  · refine ⟨⟨by rw [hpc]; rfl, fun hc => ?_⟩, hpipe, fun hc => ?_⟩
    · rw [hpc] at hc
      cases hc
    · rw [hpc] at hc
      cases hc

theorem registerBox_acts (hpc : b.pcs w = .registerBox) (hok : Recognises b (w, a))
    (stack : List UInt8) :
    Acts b (b.registerBox w stack) w ∧ SameTable b (b.registerBox w stack) := by
  have hholds : b.HoldsPipe w := ⟨by rw [hpc]; rfl, fun hc => by
    rw [hpc] at hc
    cases hc⟩
  cases hg : b.getBox (b.clients w).boxName.str with
  | none =>
    rw [registerBox_absent hg]
    have hkept := (close_frame b w (b.clients w).clientPipe).toKept.sameTable
    have hclients : ((b.close (b.clients w).clientPipe).1.clients w).boxName
      = (b.clients w).boxName := by
      unfold close
      split <;> rfl
    have hout : Outside b ((b.close (b.clients w).clientPipe).1.setPc w
        (.ret (if (b.close (b.clients w).clientPipe).2 then 0 else -1))) w := by
      refine ⟨by rw [setPc_self]; rfl, Or.inr ((congrArg CharArray.str hclients).trans
        (hok.absent hpc hg)),
        .closed hholds (close_isOpenFd b _) fun hc => ?_,
        ⟨hkept.numBoxes, hkept.freeBoxes, hkept.boxName⟩⟩
      have hret := hc.1
      rw [setPc_self] at hret
      cases hret
    exact ⟨hout.acts, hout.table⟩
  | some i =>
    by_cases hop : (b.clients w).opcode = opCodeRegistPub
    · by_cases hone : (b.boxes i).nPublishers = 1
      · rw [registerBox_rejected hg hop hone]
        have hout : Outside b ((b.attach w i).returnFinish w)
          w := .of_returnFinish hholds (fun _ => rfl)
          (field_setClient (c := { b.clients w with box := some i }) Client.clientPipe rfl)
            ⟨rfl, rfl, fun _ => rfl⟩
        exact ⟨hout.acts, hout.table⟩
      · rw [registerBox_publisher hg hop hone]
        exact session_acts hpc hg hok.found rfl rfl
    · rw [registerBox_subscriber hg hop]
      exact session_acts hpc hg hok.found rfl rfl

theorem createLock_acts (hs : b.step (w, a) = some b') (hpc : b.pcs w = .createLock) :
    Acts b b' w := by
  have hserves := step_serves hs (by rw [hpc]; rfl)
  rw [hpc] at hserves
  have hout : ∀ {y : Broker} {code : Int} {msg : String}, y.fds = b.fds →
      Acts b (y.setPc w (.createOpen code msg)) w := by
    intro y code msg hfds
    refine ⟨⟨fun j hin => ?_, fun hin => ?_, fun _ hask => ?_⟩,
      .quiet (fun fd => ?_) (by rw [setPc_self]; rfl)⟩
    · rw [setPc_self] at hin
      cases hin
    · rw [setPc_self] at hin
      cases hin
    · rw [setPc_self] at hask
      cases hask
    · exact congrArg (fun f : Nat → Bool => decide (0 ≤ fd) && f fd.toNat) hfds
  cases hserves with
  | opened hnext => cases hnext
  | notOpened hplace => rcases hplace with hc | hc <;> cases hc
  | @createLock malloced _ =>
    refine hout ?_
    rcases createSection_cases b w malloced with ⟨msg, heq, -⟩ | ⟨-, -, -, ⟨j, -, heq⟩ | ⟨-, heq⟩⟩
    · rw [heq]
    · rw [heq]
      rfl
    · rw [heq]

theorem Crashes.acts (h : Crashes b pc x) (hk : b.Known w) : Acts b x w ∧ SameTable b x := by
  cases h <;> exact ⟨⟨⟨hk.seat, hk.finished, hk.vacant⟩,
    .same (fun _ => rfl) fun h => ⟨h, rfl, id⟩⟩, ⟨rfl, rfl, fun _ => rfl⟩⟩

/-- What a section leaves of the slots that are in use. -/
def KeepsUsed (b x : Broker) : Prop :=
  ∀ j, b.freeBoxes j = false → x.freeBoxes j = false ∧ x.path j = b.path j

theorem SameTable.keepsUsed (h : SameTable b x) : KeepsUsed b x := fun j hused =>
  ⟨(congrFun h.freeBoxes j).trans hused, path_eq (h.boxName j)⟩

/-- A section that neither creates a box nor removes one. -/
theorem step_acts (h : Recognised b) (hs : b.step (w, a) = some b') (hok : Recognises b (w, a))
    (hcreate : b.pcs w ≠ .createLock) (hremove : b.pcs w ≠ .removeBody) :
    Acts b b' w ∧ SameTable b b' := by
  cases hin : (b.pcs w).InSession with
  | true =>
    rcases step_session hs hin with hends | hcrash | hgoes
    · have hout := hends.outside rfl hin hok.finish (h.known w) (h.connected w)
      exact ⟨hout.acts, hout.table⟩
    · exact hcrash.acts (h.known w)
    · have hgo := hgoes.goesOn
      exact ⟨hgo.acts hin (h.known w), hgo.table⟩
  | false =>
    by_cases hregister : b.pcs w = .registerBox
    · obtain ⟨stack, rfl⟩ := registerBox_of_step hs hregister
      exact registerBox_acts hregister hok stack
    · have hout := (step_serves hs hin).outside rfl (h.known w) hok hregister hcreate hremove
      exact ⟨hout.acts, hout.table⟩

/-! ## The other workers -/

/-- Woken or not, a worker is where it has a pipe, and asks for what it asked for. -/
theorem Stays.places (h : Stays b x v) : (x.pcs v).InSession = (b.pcs v).InSession ∧
    (x.pcs v).HasPipe = (b.pcs v).HasPipe ∧ (x.pcs v).Creates = (b.pcs v).Creates ∧
    (x.pcs v).Asks = (b.pcs v).Asks := by
  rcases h with hsame | ⟨i, n, hasleep, hwoken⟩
  · rw [hsame]
    exact ⟨rfl, rfl, rfl, rfl⟩
  · rw [hasleep, hwoken]
    exact ⟨rfl, rfl, rfl, rfl⟩

theorem Stays.holdsPipe (h : Stays b x v) (hclient : x.clients v = b.clients v) :
    x.HoldsPipe v ↔ b.HoldsPipe v := by
  obtain ⟨hin, hhas, -, -⟩ := h.places
  rw [HoldsPipe, HoldsPipe, hin, hhas, hclient]

theorem Known.beside (h : b.Known v) (hstay : Stays b x v) (hclient : x.clients v = b.clients v)
    (hslot : KeepsUsed b x) : x.Known v := by
  obtain ⟨hin, -, -, hasks⟩ := hstay.places
  refine ⟨fun i hsession hi => ?_, fun hsession hnone => ?_, fun hout hask => ?_⟩
  · rw [hclient] at hi ⊢
    obtain ⟨hlt, hused, hpath⟩ := h.seat i (hin ▸ hsession) hi
    obtain ⟨hused', hpath'⟩ := hslot i hused
    exact ⟨hlt, hused', hpath'.trans hpath⟩
  · rw [hclient] at hnone ⊢
    exact h.finished (hin ▸ hsession) hnone
  · rw [hclient]
    exact h.vacant (hin ▸ hout) (hasks ▸ hask)

theorem Turns.connected (h : Turns b x w) (hconn : b.HoldsPipe w → b.Connected w)
    (hholds : x.HoldsPipe w) :
    x.Connected w := by
  cases h with
  | same hopen hback =>
    obtain ⟨hb, hpipe, hcreates⟩ := hback hholds
    rw [Connected, hpipe, hopen]
    exact (hconn hb).imp_right fun ⟨hnone, hc⟩ => ⟨hnone, hcreates hc⟩
  | missing _ hnone hcreates => exact Or.inr ⟨hnone, hcreates⟩
  | opened _ hopen hpipe =>
    refine Or.inl ((hopen _).mpr (Or.inr hpipe))
  | closed _ _ hno => exact absurd hholds hno

/-- The pipe of another worker stays open. -/
theorem Turns.others (h : Turns b x w) {fd : Int} (hopen : b.isOpenFd fd = true)
    (hother : b.HoldsPipe w → fd ≠ (b.clients w).clientPipe) : x.isOpenFd fd = true := by
  cases h with
  | same hsame => rwa [hsame]
  | missing hsame => rwa [hsame]
  | opened _ hiff => exact (hiff fd).mpr (Or.inl hopen)
  | closed hholds hiff => exact (hiff fd).mpr ⟨hopen, hother hholds⟩

/-- The pipe that `w` has afterwards is none of the others. -/
theorem Turns.apart (h : Turns b x w) (hholds : x.HoldsPipe w) {fd : Int}
    (hopen : b.isOpenFd fd = true)
    (hother : b.HoldsPipe w → fd ≠ (b.clients w).clientPipe) : fd ≠ (x.clients w).clientPipe := by
  cases h with
  | same _ hback =>
    obtain ⟨hb, hpipe, -⟩ := hback hholds
    rw [hpipe]
    exact hother hb
  | missing _ hnone =>
    rintro rfl
    rw [hnone, isOpenFd_neg_one] at hopen
    cases hopen
  | opened hclosed _ hpipe =>
    rintro rfl
    rw [hpipe, hclosed] at hopen
    cases hopen
  | closed _ _ hno => exact absurd hholds hno

theorem Recognised.open_of_open (h : Recognised b) (hholds : b.HoldsPipe v) {fd : Int}
    (hfd : fd = (b.clients v).clientPipe) (hne : fd ≠ -1) : b.isOpenFd fd = true := by
  rw [hfd] at hne ⊢
  exact (h.connected v hholds).resolve_right fun hc => hne hc.1

/-- All workers after a section of `w` that is no removal. -/
theorem Recognised.of_acts (h : Recognised b) (hacts : Acts b x w)
    (hslot : KeepsUsed b x) (hd : Distinct x)
    (hstays : ∀ v, v ≠ w → Stays b x v) (hclients : ∀ v, v ≠ w → x.clients v = b.clients v)
    (hout : ∀ v, x.maxSessions ≤ v → x.pcs v = .idle) : Recognised x where
  outside := hout
  known v := by
    rcases eq_or_ne v w with rfl | hv
    · exact hacts.known
    · exact (h.known v).beside (hstays v hv) (hclients v hv) hslot
  connected v hholds := by
    rcases eq_or_ne v w with rfl | hv
    · exact hacts.turns.connected (h.connected v) hholds
    · have hb := ((hstays v hv).holdsPipe (hclients v hv)).mp hholds
      rw [Connected, hclients v hv, (hstays v hv).places.2.2.1]
      refine (h.connected v hb).imp_left fun hopen => hacts.turns.others hopen fun hw => ?_
      exact h.apart v w hv hb hw hopen
  apart u v huv hu hv hopen := by
    have hne : (x.clients u).clientPipe ≠ -1 := by
      intro hc
      rw [hc, isOpenFd_neg_one] at hopen
      cases hopen
    rcases eq_or_ne u w with rfl | huw
    · have hvu : v ≠ u := Ne.symm huv
      have hb := ((hstays v hvu).holdsPipe (hclients v hvu)).mp hv
      rw [hclients v hvu]
      intro hc
      have hbopen := h.open_of_open hb hc hne
      exact hacts.turns.apart hu hbopen (fun hw => hc ▸ h.apart v u hvu hb hw (hc ▸ hbopen)) rfl
    · have hb := ((hstays u huw).holdsPipe (hclients u huw)).mp hu
      rw [hclients u huw] at hopen hne ⊢
      have hbopen := h.open_of_open hb rfl hne
      rcases eq_or_ne v w with rfl | hvw
      · exact hacts.turns.apart hv hbopen fun hw => h.apart u v huv hb hw hbopen
      · rw [hclients v hvw]
        exact h.apart u v huv hb (((hstays v hvw).holdsPipe (hclients v hvw)).mp hv) hbopen
  distinct := hd

/-! ## A removal -/

/-- A session on the box has a pipe that is open. -/
theorem Recognised.attached_open (h : Recognised b) (hv : b.attached v i = true) :
    b.HoldsPipe v ∧ b.isOpenFd (b.clients v).clientPipe = true := by
  obtain ⟨-, hin, hbox⟩ := attached_eq_true.mp hv
  have hholds : b.HoldsPipe v := ⟨Pc.hasPipe_of_inSession hin,
    fun _ => by rw [hbox]; exact Option.some_ne_none i⟩
  refine ⟨hholds, (h.connected v hholds).resolve_right fun hc => ?_⟩
  rw [Pc.not_creates hin] at hc
  cases hc.2

section Removal

variable (h : Recognised b) (hpc : b.pcs w = .removeBody)
  (hi : b.getBox (b.clients w).boxName.str = some i)
  (hok : Recognises b (w, a))
include h hpc hi hok

/-- The records that carry the name are those of the sessions on the box. -/
theorem carries_iff_attached (v : Nat) :
    b.Carries w (b.clients w).boxName.str 0 b.maxSessions v ↔ b.attached v i = true := by
  obtain ⟨hne, hasks, -⟩ := hok.removal hpc i hi
  obtain ⟨hlt, hpath⟩ := getBox_eq_some hi
  rw [attached_eq_true]
  constructor
  · rintro ⟨-, hv, hself, hname⟩
    rw [Nat.zero_add] at hv
    have hin : (b.pcs v).InSession = true := by
      by_contra hout
      rw [Bool.not_eq_true] at hout
      cases hask : (b.pcs v).Asks with
      | true => exact hasks v hv hself hask hname
      | false => exact hne (hname.symm.trans ((h.known v).vacant hout hask))
    refine ⟨hv, hin, ?_⟩
    cases hbox : (b.clients v).box with
    | none => exact absurd (hname.symm.trans ((h.known v).finished hin hbox)) hne
    | some j =>
      obtain ⟨hjlt, -, hjpath⟩ := (h.known v).seat j hin hbox
      have hsame : b.path i = b.path j := hpath.trans (hname.symm.trans hjpath.symm)
      rw [h.distinct i hlt j hjlt (fun hempty => hne (hpath.symm.trans hempty)) hsame]
  · rintro ⟨hv, hin, hbox⟩
    obtain ⟨-, -, hvpath⟩ := (h.known v).seat i hin hbox
    refine ⟨Nat.zero_le v, by rwa [Nat.zero_add], ?_, hvpath.symm.trans hpath⟩
    rintro rfl
    rw [hpc] at hin
    cases hin

theorem removal_allFinish : b.AllFinish w (b.clients w).boxName.str 0 b.maxSessions := by
  have hiff := carries_iff_attached h hpc hi hok
  intro v hlo hhi hself hname
  have hv := (hiff v).mp ⟨hlo, hhi, hself, hname⟩
  obtain ⟨hholds, hopen⟩ := h.attached_open hv
  refine ⟨⟨hopen, Or.inr ((hok.removal hpc i hi).2.2 v hv)⟩, fun u hlo huv huself huname => ?_⟩
  have hu := (hiff u).mp ⟨hlo, Nat.lt_trans huv hhi, huself, huname⟩
  obtain ⟨huholds, huopen⟩ := h.attached_open hu
  exact h.apart u v (Nat.ne_of_lt huv) huholds hholds huopen

end Removal

/-- After the loop a removal leaves the records and the descriptors alone. -/
theorem Removes.after (h : Removes b w x) (hi : b.getBox (b.clients w).boxName.str = some i) :
    x.clients = (b.finishSessions w (b.clients w).boxName.str 0 b.maxSessions).1.clients ∧
      x.fds = (b.finishSessions w (b.clients w).boxName.str 0 b.maxSessions).1.fds := by
  have hdropped : ∀ {y z : Broker} {ret : Int},
      y.removeBox (b.clients w).boxName.str = .ok (z, ret) →
      z.clients = y.clients ∧ z.fds = y.fds := by
    intro y z ret hz
    cases removedBox_of hz <;> exact ⟨rfl, rfl⟩
  cases h with
  | absent hnone =>
    rw [hi] at hnone
    cases hnone
  | unfinished _ hx =>
    rw [hx]
    exact ⟨rfl, rfl⟩
  | crash _ hx =>
    rw [hx]
    exact ⟨rfl, rfl⟩
  | notUnlinked _ hx _ hy =>
    obtain ⟨hclients, hfds⟩ := hdropped hy
    rw [hx]
    exact ⟨hclients, hfds⟩
  | removed _ hx _ hy =>
    obtain ⟨hclients, hfds⟩ := hdropped hy
    rw [hx]
    exact ⟨hclients, hfds⟩

/-- Where the removal leaves its own worker. -/
theorem Removes.place (h : Removes b w x) (hpc : b.pcs w = .removeBody) :
    (x.pcs w).InSession = false ∧ (x.pcs w).Asks = true ∧
    ((x.pcs w).HasPipe = true → (b.pcs w).HasPipe = true) := by
  have hbefore : (b.pcs w).HasPipe = true := by
    rw [hpc]
    rfl
  cases h with
  | @crash _ y ret e _ hx =>
    have hkept := finishSessions_kept b w (b.clients w).boxName.str 0 b.maxSessions
    rw [hx] at hkept
    have hstay : y.crash.pcs w = .removeBody := (congrFun hkept.pcs w).trans hpc
    rw [hstay]
    exact ⟨rfl, rfl, fun _ => hbefore⟩
  | _ =>
    rw [setPc_self]
    exact ⟨rfl, rfl, fun _ => hbefore⟩

section Removal

variable (h : Recognised b) (hpc : b.pcs w = .removeBody)
  (hi : b.getBox (b.clients w).boxName.str = some i)
  (hok : Recognises b (w, a))
include h hpc hi hok

/-- The records that a removal leaves. -/
theorem removal_clients (v : Nat) :
    (b.attached v i = true → (b.removeBody w).clients v = Client.finished (b.clients v)) ∧
      (b.attached v i = false → (b.removeBody w).clients v = b.clients v) := by
  have hret := finishSessions_iff.mpr (removal_allFinish h hpc hi hok)
  have hiff := carries_iff_attached h hpc hi hok v
  obtain ⟨hdone, hkeep⟩ := (finishSessions_finishesAll hret).clients v
  rw [((removeBody_removes b w).after hi).1]
  exact ⟨fun hv => hdone (hiff.mpr hv), fun hv => hkeep fun hc => nomatch
    hv.symm.trans (hiff.mp hc)⟩

/-- The descriptors that it leaves open. -/
theorem removal_isOpenFd (fd : Int) : (b.removeBody w).isOpenFd fd = true ↔
    b.isOpenFd fd = true ∧ ∀ v, b.attached v i = true → (b.clients v).clientPipe ≠ fd := by
  have hret := finishSessions_iff.mpr (removal_allFinish h hpc hi hok)
  have hfds := (finishSessions_finishesAll hret).isOpenFd fd
  rw [isOpenFd, ← ((removeBody_removes b w).after hi).2, ← isOpenFd] at hfds
  simpa only [carries_iff_attached h hpc hi hok] using hfds

/-- A pipe of a worker that is in no session on the box stays as it is. -/
theorem removal_keeps_pipe (hv : b.attached v i = false) (hholds : b.HoldsPipe v) :
    (b.removeBody w).isOpenFd (b.clients v).clientPipe = b.isOpenFd (b.clients v).clientPipe := by
  rw [Bool.eq_iff_iff, removal_isOpenFd h hpc hi hok]
  refine and_iff_left_of_imp fun hopen u hu => ?_
  have huv : u ≠ v := by
    rintro rfl
    rw [hu] at hv
    cases hv
  obtain ⟨huholds, huopen⟩ := h.attached_open hu
  exact h.apart u v huv huholds hholds huopen

/-- A removal ends the sessions on its box and no other. -/
theorem removal_exact : EndsExactly b (b.removeBody w) w i := by
  have hret := finishSessions_iff.mpr (removal_allFinish h hpc hi hok)
  have hcalled : ∀ v, v ∈ b.finishCalls w (b.clients w).boxName.str 0 b.maxSessions ↔
    b.attached v i = true :=
    fun v => (finishSessions_finishesAll hret).mem_calls_iff.trans
      (carries_iff_attached h hpc hi hok v)
  refine ⟨hcalled, fun v hv => (h.attached_open ((hcalled v).mp hv)).2, ?_, fun v hv =>
    ⟨(removal_clients h hpc hi hok v).2 hv, removal_keeps_pipe h hpc hi hok hv⟩⟩
  refine List.Nodup.map_on (fun u hu v hv hsame => ?_) finishCalls_nodup.1
  by_contra huv
  obtain ⟨huholds, huopen⟩ := h.attached_open ((hcalled u).mp hu)
  exact h.apart u v huv huholds (h.attached_open ((hcalled v).mp hv)).1 huopen hsame

/-- Who has a pipe after the removal is in no session on the box. -/
theorem removal_holdsPipe (hs : b.step (w, a) = some (b.removeBody w))
    (hv : (b.removeBody w).HoldsPipe v) :
    b.attached v i = false ∧ b.HoldsPipe v := by
  rcases eq_or_ne v w with rfl | hvw
  · refine ⟨?_, ((removeBody_removes b v).place hpc).2.2 hv.1, fun hin => ?_⟩
    · rw [Bool.eq_false_iff]
      intro hc
      obtain ⟨-, hin, -⟩ := attached_eq_true.mp hc
      rw [hpc] at hin
      cases hin
    · rw [hpc] at hin
      cases hin
  · obtain ⟨hin, hhas, -⟩ := (step_others hs hvw).places
    cases hatt : b.attached v i with
    | true =>
      obtain ⟨-, hsession, -⟩ := attached_eq_true.mp hatt
      refine absurd ?_ (hv.2 (hin.trans hsession))
      rw [(removal_clients h hpc hi hok v).1 hatt]
      rfl
    | false =>
      refine ⟨rfl, hhas ▸ hv.1, fun hsession => ?_⟩
      rw [← (removal_clients h hpc hi hok v).2 hatt]
      exact hv.2 (hin.trans hsession)

/-- What is left of the removed box: the names and pipes of the others. -/
theorem removal_recognised (hs : b.step (w, a) = some (b.removeBody w)) :
    Recognised (b.removeBody w) := by
  have hremoves := removeBody_removes b w
  have hslots := (removeBody_removes b w).slots
  obtain ⟨hout, hask, -⟩ := hremoves.place hpc
  have hholds : ∀ v, (b.removeBody w).HoldsPipe v → b.attached v i = false ∧ b.HoldsPipe v :=
    fun _ hv => removal_holdsPipe h hpc hi hok hs hv
  have hopen : ∀ v, (b.removeBody w).HoldsPipe v →
      (b.removeBody w).isOpenFd (b.clients v).clientPipe =
      b.isOpenFd (b.clients v).clientPipe := fun v hv =>
    removal_keeps_pipe h hpc hi hok (hholds v hv).1 (hholds v hv).2
  have hclients : ∀ v, (b.removeBody w).HoldsPipe v → (b.removeBody w).clients v
    = b.clients v := fun v hv =>
    (removal_clients h hpc hi hok v).2 (hholds v hv).1
  refine ⟨fun v hv => ?_, fun v => ?_, fun v hv => ?_, fun u v huv hu hv hfd => ?_,
    hslots.distinct h.distinct⟩
  · rw [step_maxSessions hs] at hv
    have hvw : v ≠ w := by
      rintro rfl
      exact absurd (step_eq_some.mp hs).2.1 (Nat.not_lt.mpr hv)
    exact (step_others hs hvw).keep (P := fun pc => pc = .idle) nofun (h.outside v hv)
  · rcases eq_or_ne v w with rfl | hvw
    · refine ⟨fun j hin => ?_, fun hin => ?_, fun _ hno => ?_⟩
      · rw [hout] at hin
        cases hin
      · rw [hout] at hin
        cases hin
      · rw [hask] at hno
        cases hno
    · obtain ⟨hin, -, -, hasks⟩ := (step_others hs hvw).places
      cases hatt : b.attached v i with
      | true =>
        have hdone := (removal_clients h hpc hi hok v).1 hatt
        have hcleared : ((b.removeBody w).clients v).boxName.str = .empty := by
          rw [hdone]
          exact CharArray.str_clear _
        refine ⟨fun j _ hj => ?_, fun _ _ => hcleared, fun _ _ => hcleared⟩
        rw [hdone] at hj
        cases hj
      | false =>
        have hkeep := (removal_clients h hpc hi hok v).2 hatt
        refine ⟨fun j hsession hj => ?_, fun hsession hnone => ?_, fun hleft hno => ?_⟩
        · rw [hkeep] at hj ⊢
          obtain ⟨hlt, hused, hpath⟩ := (h.known v).seat j (hin ▸ hsession) hj
          have hji : j ≠ i := by
            rintro rfl
            have hv : v < b.maxSessions := by
              by_contra hge
              rw [hin, h.outside v (Nat.le_of_not_lt hge)] at hsession
              cases hsession
            rw [attached_eq_true.mpr ⟨hv, hin ▸ hsession, hj⟩] at hatt
            cases hatt
          rcases hslots.slots with hsame | ⟨k, hk, hother, -⟩
          · exact ⟨hlt, (hsame j).1.trans hused, (hsame j).2.trans hpath⟩
          · obtain rfl := Option.some.inj (hi.symm.trans hk)
            exact ⟨hlt, (hother j hji).1.trans hused, (hother j hji).2.trans hpath⟩
        · rw [hkeep] at hnone ⊢
          exact (h.known v).finished (hin ▸ hsession) hnone
        · rw [hkeep]
          exact (h.known v).vacant (hin ▸ hleft) (hasks ▸ hno)
  · rw [Connected, hclients v hv, hopen v hv]
    refine (h.connected v (hholds v hv).2).imp_right fun ⟨hnone, hcreates⟩ => ⟨hnone, ?_⟩
    have hvw : v ≠ w := by
      rintro rfl
      rw [hpc] at hcreates
      cases hcreates
    exact (step_others hs hvw).places.2.2.1.trans hcreates
  · rw [hclients u hu, hopen u hu] at hfd
    rw [hclients u hu, hclients v hv]
    exact h.apart u v huv (hholds u hu).2 (hholds v hv).2 hfd

end Removal

/-- A removal of a box that does not exist. -/
theorem absent_acts (hpc : b.pcs w = .removeBody)
    (hnone : b.getBox (b.clients w).boxName.str = none) :
    Acts b (b.removeBody w) w ∧ SameTable b (b.removeBody w) := by
  have hout : Outside b (b.removeBody w) w := by
    rw [removeBody, if_pos hnone]
    refine .of_setPc rfl (Or.inl rfl) (fun _ => rfl) (.refl b) fun _ => ?_
    rw [hpc]
    exact ⟨rfl, rfl, rfl, fun hc => Bool.noConfusion hc⟩
  exact ⟨hout.acts, hout.table⟩

/-- The step lemma. -/
theorem Recognised.step (h : Recognised b) (hs : b.step (w, a) = some b')
    (hok : Recognises b (w, a)) :
    Recognised b' := by
  have hout : ∀ v, b'.maxSessions ≤ v → b'.pcs v = .idle := by
    intro v hv
    rw [step_maxSessions hs] at hv
    have hvw : v ≠ w := by
      rintro rfl
      exact absurd (step_eq_some.mp hs).2.1 (Nat.not_lt.mpr hv)
    exact (step_others hs hvw).keep (P := fun pc => pc = .idle) nofun (h.outside v hv)
  have hstays : ∀ v, v ≠ w → Stays b b' v := fun v hv => step_others hs hv
  by_cases hremove : b.pcs w = .removeBody
  · obtain rfl := removeBody_of_step hs hremove
    cases hg : b.getBox (b.clients w).boxName.str with
    | none =>
      obtain ⟨hacts, htable⟩ := absent_acts hremove hg
      refine h.of_acts hacts htable.keepsUsed (htable.distinct h.distinct)
        hstays (fun v hv => ?_) hout
      rw [removeBody, if_pos hg]
      rfl
    | some i => exact removal_recognised h hremove hg hok hs
  have hclients : ∀ v, v ≠ w → b'.clients v = b.clients v :=
    fun v hv => (step_beside hs hv hremove).clients
  by_cases hcreate : b.pcs w = .createLock
  · have hafter := createLock_of_step hs hcreate
    exact h.of_acts (createLock_acts hs hcreate)
      (fun j hj => ⟨(hafter.slots j hj).1, (hafter.slots j hj).2.1⟩)
      (hafter.distinct h.distinct) hstays hclients hout
  · obtain ⟨hacts, htable⟩ := step_acts h hs hok hcreate hremove
    exact h.of_acts hacts htable.keepsUsed (htable.distinct h.distinct) hstays hclients hout

/-! ## Runs -/

/-- No worker serves a request or has a name in its record, and no two boxes have one
name. -/
structure Unnamed (b : Broker) : Prop where
  idle : ∀ v, b.pcs v = .idle
  names : ∀ v, (b.clients v).boxName.str = .empty
  distinct : Distinct b

theorem Unnamed.recognised (h : Unnamed b) : Recognised b where
  outside v _ := h.idle v
  known v := by
    refine ⟨fun j hin => ?_, fun hin => ?_, fun _ _ => h.names v⟩
    · rw [h.idle v] at hin
      cases hin
    · rw [h.idle v] at hin
      cases hin
  connected v hv := by
    have hhas := hv.1
    rw [h.idle v] at hhas
    cases hhas
  apart u v _ hu := by
    have hhas := hu.1
    rw [h.idle u] at hhas
    cases hhas
  distinct := h.distinct

/-- What one section does: a removal ends the sessions on its box and no other, and every other
section closes at most the pipe that its worker holds, which it does not hold any more then. -/
structure Finishes (b b' : Broker) (w : Nat) : Prop where
  removal : b.pcs w = .removeBody → ∀ i, b.getBox (b.clients w).boxName.str = some i →
    EndsExactly b b' w i
  turns : b.pcs w ≠ .removeBody → Turns b b' w

theorem Recognised.finishes (h : Recognised b) (hok : Recognises b (w, a))
    (hs : b.step (w, a) = some b') :
    Finishes b b' w := by
  refine ⟨fun hpc i hi => ?_, fun hremove => ?_⟩
  · obtain rfl := removeBody_of_step hs hpc
    exact removal_exact h hpc hi hok
  · by_cases hcreate : b.pcs w = .createLock
    · exact (createLock_acts hs hcreate).turns
    · exact (step_acts h hs hok hcreate hremove).1.turns

/-- Three workers, and the box `/a`. -/
def threeWorkers : Broker := { oneBox (tfsStart .zeros) 0 with maxSessions := 3 }

theorem threeWorkers_unnamed : Unnamed threeWorkers where
  idle _ := rfl
  names _ := CharArray.str_ofStr .empty (by decide)
  distinct i _ j _ hne heq := by
    have hpath : ∀ k, k ≠ 0 → threeWorkers.path k = .empty :=
      fun k hk => @oneBox_path_of_ne k (tfsStart .zeros) 0 hk
    rcases eq_or_ne i 0 with rfl | hi
    · by_contra hj
      exact hne (heq.trans (hpath j (Ne.symm hj)))
    · exact absurd (hpath i hi) hne

theorem recognises_waiting (hpc : b.pcs w = .idle ∨ b.pcs w = .removeLock ∨
    b.pcs w = .removeOpen ∨ b.pcs w = .registerOpen)
    (hrequest : ∀ r, a = .request r → handlerOf r.opcode ≠ .ret 0) : Recognises b (w, a) := by
  refine ⟨fun r hr hc => absurd hc (hrequest r hr), fun hc => ?_, fun hc => ?_, ?_, fun hc => ?_⟩
  · rcases hpc with h | h | h | h <;> exact nomatch h.symm.trans hc
  · rcases hpc with h | h | h | h <;> exact nomatch h.symm.trans hc
  · dsimp only
    rcases hpc with h | h | h | h <;> (rw [h]; trivial)
  · rcases hpc with h | h | h | h <;> exact nomatch h.symm.trans hc

end Broker

end MBroker
