import MBroker.Broker.Names
import MBroker.Broker.Serve

/-!
# Create and remove requests served alone

While one worker serves a request, the state is that of the others with this worker
in some `place`. The handlers of create and remove requests go through at most eight
sections.

Results:
1. `serve_create`: a create request, from the decision under `boxes_lock` to the
   answer.
2. `serve_remove_absent`, `serve_remove_present`: a remove request.
-/

namespace MBroker

open FirstFit Transition Fs

/-- The record of a worker that has taken a request. -/
def Request.record (r : Request) (c : Client) : Client :=
  { c with
    opcode := r.opcode
    clientPipename := r.clientPipename
    boxName := if r.opcode ≠ opCodeListBoxes then r.boxName else c.boxName }

namespace Broker

variable {b y : Broker} {w fd n i : Nat} {malloced : Bool} {c : Client} {pc pc' : Pc}
  {sent : List (Nat × List UInt8)} {r : Request} {t : Fs.State}

/-- Worker `w` stands at `pc`, has the record `c` and has written `sent`. -/
def place (b : Broker) (w : Nat) (c : Client) (pc : Pc) (sent : List (Nat × List UInt8)) : Broker :=
  { b with
    clients := Function.update b.clients w c
    pcs := Function.update b.pcs w pc
    sent := Function.update b.sent w sent }

@[simp] theorem place_clients : (b.place w c pc sent).clients w = c := Function.update_self ..

@[simp] theorem place_pcs : (b.place w c pc sent).pcs w = pc := Function.update_self ..

@[simp] theorem place_sent : (b.place w c pc sent).sent w = sent := Function.update_self ..

theorem place_clients_of_ne {v : Nat} (h : v ≠ w) : (b.place w c pc sent).clients v = b.clients v :=
  Function.update_of_ne h ..

theorem place_pcs_of_ne {v : Nat} (h : v ≠ w) : (b.place w c pc sent).pcs v = b.pcs v :=
  Function.update_of_ne h ..

theorem place_sent_of_ne {v : Nat} (h : v ≠ w) : (b.place w c pc sent).sent v = b.sent v :=
  Function.update_of_ne h ..

/-- The places of two workers. -/
theorem place_comm {v : Nat} {d : Client} {pc' : Pc} {lines : List (Nat × List UInt8)} (h : v ≠ w) :
    (b.place v d pc' lines).place w c pc sent = (b.place w c pc sent).place v d pc' lines := by
  simp only [place, Function.update_comm h]

@[simp] theorem place_isOpenFd {j : Nat} : (b.place w c pc sent).isOpenFd (j : Int) = b.fds j := by
  simp [isOpenFd, place]

@[simp] theorem place_setPc : (b.place w c pc sent).setPc w pc' = b.place w c pc' sent := by
  simp [place, setPc]

@[simp] theorem place_setClient {c' : Client} :
    (b.place w c pc sent).setClient w c' = b.place w c' pc sent := by
  simp [place, setClient]

@[simp] theorem place_wrote {bytes : List UInt8} : (b.place w c pc sent).wrote w bytes
    = b.place w c pc (sent ++ [(c.clientPipe.toNat, bytes)]) := by
  simp [place, wrote]

/-- A write of a worker whose pipe is open as `fd`. -/
theorem emit_place {bytes : List UInt8} (hpipe : c.clientPipe = (fd : Int)) (hfd : b.fds fd = true)
    (hn : bytes.length = n) :
    (b.place w c pc sent).emit w bytes (.wrote n) = some
    (b.place w c pc (sent ++ [(fd, bytes)])) := by
  have hopen : (b.place w c pc sent).isOpenFd
    ((b.place w c pc sent).clients w).clientPipe = true := by
    rw [place_clients, hpipe, place_isOpenFd, hfd]
  rw [← hn, emit_whole hopen, place_wrote, hpipe, Int.toNat_natCast]

theorem dequeued_eq : b.dequeued w r = b.place w (r.record (b.clients w)) (handlerOf r.opcode) [] :=
  rfl

/-- Descriptor `fd` is taken. -/
def withFd (b : Broker) (fd : Nat) : Broker := { b with fds := Function.update b.fds fd true }

theorem takeFd_place (hfd : b.fds fd = false) :
    (b.place w c pc sent).takeFd fd = some ((b.withFd fd).place w c pc sent) :=
  takeFd_eq_some.mpr ⟨hfd, rfl⟩

theorem opens_place : (b.place w c pc sent).opens w c.clientPipename.str = true := by
  have hself := opens_self (b.place w c pc sent) w
  rwa [place_clients] at hself

theorem registerOpen_place (hfd : b.fds fd = false) :
    (b.place w c .registerOpen sent).registerOpen w c.clientPipename.str (some fd)
      = some ((b.withFd fd).place w { c with clientPipe := fd } .registerBox sent) := by
  rw [registerOpen, if_pos opens_place, takeFd_place hfd]
  exact congrArg some (by simp)

theorem removeLock_place (hlock : b.boxesLock = none) : (b.place w c .removeLock sent).removeLock w
    = some (({ b with boxesLock := some w } : Broker).place w c .removeOpen sent) :=
  (if_pos hlock).trans (congrArg some (place_setPc (b := { b with boxesLock := some w })))

theorem removeOpen_place (hfd : b.fds fd = false) :
    (b.place w c .removeOpen sent).removeOpen w c.clientPipename.str (some fd)
      = some ((b.withFd fd).place w { c with clientPipe := fd } .removeBody sent) := by
  rw [removeOpen, if_pos opens_place, takeFd_place hfd]
  exact congrArg some (by simp)

theorem drive_place (hstop : b.stopped = false) (hw : w < b.maxSessions)
    (hret : ∀ result, pc ≠ .ret result)
    {x : Broker} (hs : (b.place w c pc sent).stepWorker w pc
      ((b.place w c pc sent).obliging w fd malloced).2 = some x) :
    drive step (obliging w fd malloced) (hasReturned w) (n + 1) (b.place w c pc sent)
      = drive step (obliging w fd malloced) (hasReturned w) n x :=
  drive_section hstop hw place_pcs hret hs

/-! ## The end of the handlers -/

/-- A session that is neither a publisher nor a subscriber. -/
def NoSession (c : Client) : Prop :=
  c.opcode ≠ opCodeRegistPub ∧ c.opcode ≠ opCodeRegistSub ∧ c.opcode ≠ opCodeListBoxes

theorem left_of_noSession (h : NoSession (b.clients w)) : b.left w = b := by
  unfold left
  cases (b.clients w).box with
  | none => rfl
  | some i => exact (if_neg h.1).trans (if_neg h.2.1)

/-- The pipe is closed; without a handle the session is not finished. -/
theorem returnFinish_place (w : Nat) (pc : Pc) (sent : List (Nat × List UInt8)) (hc : NoSession c)
    {j : Nat} (hpipe : c.clientPipe = j) (hopen : b.fds j = true) :
    ∃ c', (b.place w c pc sent).returnFinish w
        = ({ b with fds := Function.update b.fds j false } : Broker).place w c'
            (.ret (if c.boxFd = -1 then -1 else 0)) sent ∧
      (c.boxFd ≠ -1 → c'.boxName.str = .empty) := by
  have hfd : (b.place w c pc sent).isOpenFd
    ((b.place w c pc sent).clients w).clientPipe = true := by
    rw [place_clients, hpipe, place_isOpenFd]
    exact hopen
  have hclose : ((b.place w c pc sent).close ((b.place w c pc sent).clients w).clientPipe).1
      = ({ b with fds := Function.update b.fds j false } : Broker).place w c pc sent := by
    rw [close, if_pos hfd, place_clients, hpipe]
    rfl
  by_cases hbox : c.boxFd = -1
  · have hfinish := finishClientSession_of_no_boxFd hfd (by rw [place_clients]; exact hc.2.2)
      (by rw [place_clients]; exact hbox)
    refine ⟨c, ?_, fun h => absurd hbox h⟩
    rw [returnFinish, hfinish, hclose, place_setPc, if_pos hbox]
  · have hfinish := finishClientSession_of_boxFd hfd (Or.inr (by rw [place_clients]; exact hbox))
    refine ⟨Client.finished c, ?_, fun _ => CharArray.str_clear _⟩
    rw [returnFinish, hfinish, hclose, left_of_noSession (by rw [place_clients]; exact hc),
      place_setClient, place_setPc, place_clients, if_neg hbox]

/-- The writes of an answer, and the end of the session. -/
theorem drive_answering (hstop : b.stopped = false) (hw : w < b.maxSessions)
    (hc : NoSession c) {j : Nat}
    (hpipe : c.clientPipe = j) (hopen : b.fds j = true) (fd : Nat) (malloced : Bool) (n : Nat)
    (sent : List (Nat × List UInt8)) (writes : List (List UInt8)) (locked : Bool) :
    ∃ c', drive step (obliging w fd malloced) (hasReturned w) (writes.length + 1 + n)
        (b.place w c (.answering writes locked) sent)
      = some (({ b with
          fds := Function.update b.fds j false
          boxesLock := if locked then none else b.boxesLock } : Broker).place w c'
            (.ret (if c.boxFd = -1 then -1 else 0))
              (sent ++ writes.map fun bytes => (j, bytes))) ∧
      (c.boxFd ≠ -1 → c'.boxName.str = .empty) := by
  induction writes generalizing sent with
  | nil =>
    obtain ⟨x, hx, hxanswered⟩ : ∃ x : Broker, x = { b with
        boxesLock := if locked then none else b.boxesLock } ∧
        (b.place w c (.answering [] locked) sent).answered w locked
          = (x.place w c (.answering [] locked) sent).returnFinish w := by
      refine ⟨_, rfl, ?_⟩
      cases locked <;> rfl
    obtain ⟨c', hfinish, hname⟩ := returnFinish_place w (.answering [] locked) sent hc hpipe
      (show x.fds j = true by rw [hx]; exact hopen)
    refine ⟨c', ?_, hname⟩
    rw [List.length_nil, Nat.zero_add, Nat.add_comm, drive_place hstop hw (by simp)
      (by rw [obliging, place_pcs]; exact congrArg some (hxanswered.trans hfinish)),
      drive_ret place_pcs, List.map_nil, List.append_nil, hx]
  | cons bytes writes ih =>
    have hnext : (b.place w c (.answering (bytes :: writes) locked) sent).stepWorker w
        (.answering (bytes :: writes) locked) (.wrote (.wrote bytes.length))
          = some (b.place w c (.answering writes locked) (sent ++ [(j, bytes)])) := by
      rw [stepWorker, answering, emit_place hpipe hopen rfl]
      exact (if_pos rfl).trans (congrArg some place_setPc)
    obtain ⟨c', hdrive, hname⟩ := ih (sent ++ [(j, bytes)])
    refine ⟨c', ?_, hname⟩
    rw [List.length_cons, show writes.length + 1 + 1 + n = writes.length + 1 + n + 1 by omega,
      drive_place hstop hw (by simp) (by rw [obliging, place_pcs]; exact hnext), hdrive,
      List.map_cons, List.append_assoc, List.singleton_append]

/-! ## Creating -/

/-- What the section under `boxes_lock` decides in a consistent table: the table it
leaves, the return code and the message. -/
inductive Decided (b : Broker) (boxName : CharArray 32) (malloced : Bool) :
    Broker → Int → String → Prop
  | refused {errorMsg : String} :
      b.numBoxes = maxBoxes ∨ b.getBox boxName.str ≠ none ∨ malloced = false →
      Decided b boxName malloced b (-1) errorMsg
  | added {i : Nat} : b.numBoxes ≠ maxBoxes → b.getBox boxName.str = none → malloced = true →
      firstIndex b.freeBoxes maxBoxes = some i →
      Decided b boxName malloced (b.addBox i boxName) 0 ""

theorem createSection_decided (w : Nat) (c : Client) (pc : Pc) (sent : List (Nat × List UInt8))
    (htable : TableInvariant b) (malloced : Bool) :
    ∃ y code msg, (b.place w c pc sent).createSection w malloced
      = (y.place w c pc sent, code, msg) ∧
      Decided b c.boxName malloced y code msg := by
  rcases createSection_cases (b.place w c pc sent) w malloced with
    ⟨msg, heq, hwhy⟩ | ⟨hn, hnew, hm, ⟨i, hi, heq⟩ | ⟨hnone, -⟩⟩
  · rw [place_clients] at hwhy
    exact ⟨b, -1, msg, heq, .refused hwhy⟩
  · rw [place_clients] at hnew heq
    exact ⟨b.addBox i c.boxName, 0, "", heq, .added hn hnew hm hi⟩
  · obtain ⟨i, hi⟩ := htable.freeSlot hn
    rw [show firstIndex b.freeBoxes maxBoxes = none from hnone] at hi
    cases hi

/-- Only the table may change. -/
theorem Decided.same {boxName : CharArray 32} {code : Int} {msg : String}
    (h : Decided b boxName malloced y code msg) :
    y = { b with numBoxes := y.numBoxes, boxes := y.boxes, freeBoxes := y.freeBoxes } := by
  cases h <;> rfl

theorem update_back {f : Nat → Bool} {j : Nat} (h : f j = false) :
    Function.update (Function.update f j true) j false = f := by
  rw [Function.update_idem, ← h, Function.update_eq_self]

theorem createFile_of {code : Int} {msg : String} {fhandle : Int}
    (h : tfsOpen b.tfs (some (b.clients w).boxName.str) tfsOCreat = .ok (t, fhandle)) :
    b.createFile w code msg = if fhandle < 0 then ({ b with tfs := t } : Broker).setPc w (.ret (-1))
      else (({ b with tfs := t } : Broker).setClient w
        { b.clients w with boxFd := fhandle }).setPc w
        (.answering (answer opCodeCreateBoxAnswer code msg) false) := by
  simp only [createFile, h]

theorem createFile_place {code : Int} {msg : String} {fhandle : Int}
    (h : tfsOpen b.tfs (some c.boxName.str) tfsOCreat = .ok (t, fhandle)) :
    (b.place w c pc sent).createFile w code msg
      = if fhandle < 0 then ({ b with tfs := t } : Broker).place w c (.ret (-1)) sent
        else ({ b with tfs := t } : Broker).place w { c with boxFd := fhandle }
          (.answering (answer opCodeCreateBoxAnswer code msg) false) sent := by
  have hopen : tfsOpen (b.place w c pc sent).tfs
      (some ((b.place w c pc sent).clients w).boxName.str)
      tfsOCreat = .ok (t, fhandle) := by
    rw [place_clients]
    exact h
  have hplace : ({ b.place w c pc sent with tfs := t } : Broker)
      = ({ b with tfs := t } : Broker).place w c pc sent := rfl
  rw [createFile_of hopen, place_clients, hplace, place_setClient, place_setPc, place_setPc]

/-! ## Removing -/

/-- No other record carries the name, so no session is finished. -/
theorem finishSessions_none {self : Nat} {boxName : CStr} {i n : Nat}
    (h : ∀ v < i + n, v ≠ self → (b.clients v).boxName.str ≠ boxName) :
    b.finishSessions self boxName i n = (b, 0) := by
  induction n generalizing i with
  | zero => rfl
  | succ n ih =>
    have hnot : ¬ ((b.clients i).boxName.str = boxName ∧ i ≠ self) :=
      fun hc => h i (by omega) hc.2 hc.1
    rw [finishSessions, if_neg hnot]
    exact ih fun v hv => h v (by omega)

theorem removeBody_absent (h : b.getBox (b.clients w).boxName.str = none) :
    b.removeBody w
      = b.setPc w (.answering (answer opCodeRemoveBoxAnswer (-1) "Box does not exist") true) :=
  if_pos h

theorem removeBody_present (h : b.getBox (b.clients w).boxName.str = some i)
    (hno : ∀ v < b.maxSessions, v ≠ w → (b.clients v).boxName.str ≠ (b.clients w).boxName.str)
    (hu : tfsUnlink b.tfs (some (b.clients w).boxName.str) = .ok (t, 0)) :
    b.removeBody w = (b.dropBox i t).setPc w
    (.answering (answer opCodeRemoveBoxAnswer 0 "") true) := by
  have hfinish : b.finishSessions w (b.clients w).boxName.str 0 b.maxSessions = (b, 0) :=
    finishSessions_none fun v hv => hno v (by omega)
  have hremove : b.removeBox (b.clients w).boxName.str = .ok (b.dropBox i t, 0) := by
    rw [removeBox_of h, hu]
    rfl
  have hsome : ¬ b.getBox (b.clients w).boxName.str = none := by simp [h]
  simp only [removeBody, if_neg hsome, hfinish, hremove]
  rfl

section Served

variable (hstop : b.stopped = false) (hw : w < b.maxSessions) (hpc : b.pcs w = .idle)
  (hlock : b.boxesLock = none) (hfd : b.fds fd = false)
include hstop hw hpc hlock hfd

/-- The answer is written if `tfs_open` gives a handle. Otherwise the handler returns
-1 and leaves the pipe open. -/
theorem serve_create (hr : r.opcode = opCodeCreateBox) (htable : TableInvariant b) {fhandle : Int}
    (hopen : tfsOpen b.tfs (some r.boxName.str) tfsOCreat = .ok (t, fhandle)) (malloced : Bool) :
    ∃ y code msg, Decided b r.boxName malloced y code msg ∧
      (0 ≤ fhandle → ∃ c, c.boxName.str = .empty ∧ b.serve w r fd malloced
        = some (({ y with tfs := t } : Broker).place w c (.ret 0)
            ((answer opCodeCreateBoxAnswer code msg).map fun bytes => (fd, bytes)))) ∧
      (fhandle < 0 → ∃ c, b.serve w r fd malloced
        = some (({ y with tfs := t, fds := Function.update b.fds fd true } : Broker).place w c
            (.ret (-1)) [])) := by
  generalize hc : r.record (b.clients w) = c
  have hop : c.opcode = opCodeCreateBox := by rw [← hc]; exact hr
  have hname : c.boxName = r.boxName := by
    rw [← hc]
    exact if_pos (by rw [hr]; decide)
  have hdequeued : b.dequeued w r = b.place w c .createLock [] := by
    rw [dequeued_eq, hc, hr]
    rfl
  obtain ⟨y, code, msg, hsection, hdecided⟩ :=
    createSection_decided w c .createLock [] htable malloced
  have hsame := hdecided.same
  rw [hname] at hdecided
  refine ⟨y, code, msg, hdecided, ?_⟩
  have hystop : y.stopped = false := by rw [hsame]; exact hstop
  have hyw : w < y.maxSessions := by rw [hsame]; exact hw
  have hyfds : y.fds = b.fds := by rw [hsame]
  have hytfs : y.tfs = b.tfs := by rw [hsame]
  -- The three sections of the handler before it answers.
  have hone : (b.place w c .createLock []).stepWorker w .createLock (.malloced malloced)
      = some (y.place w c (.createOpen code msg) []) := by
    rw [stepWorker, createLock, hsection]
    exact (if_pos hlock).trans (congrArg some place_setPc)
  have htwo : (y.place w c (.createOpen code msg) []).stepWorker w (.createOpen code msg)
      (.opened c.clientPipename.str (some fd))
        = some (({ y with fds := Function.update b.fds fd true } : Broker).place w
        { c with clientPipe := fd } (.createFile code msg) []) := by
    rw [stepWorker, createOpen, if_pos opens_place, takeFd_place ((congrFun hyfds fd).trans hfd),
      withFd, hyfds]
    simp
  have hserve : b.serve w r fd malloced
      = drive step (obliging w fd malloced) (hasReturned w) 78
          (({ y with fds := Function.update b.fds fd true } : Broker).place w
            { c with clientPipe := fd } (.createFile code msg) []) := by
    rw [serve_eq hstop hw hpc, hdequeued, show sectionBound = 78 + 1 + 1 from rfl,
      drive_place hstop hw (by simp) (by rw [obliging, place_pcs]; exact hone),
      drive_place hystop hyw (by simp) (by rw [obliging, place_pcs, place_clients]; exact htwo)]
  generalize hz : ({ y with fds := Function.update b.fds fd true } : Broker) = z at hserve
  have hzstop : z.stopped = false := by rw [← hz]; exact hystop
  have hzw : w < z.maxSessions := by rw [← hz]; exact hyw
  have hzfds : z.fds fd = true := by
    rw [← hz]
    exact Function.update_self ..
  have hback : Function.update z.fds fd false = b.fds := by
    rw [← hz]
    exact update_back hfd
  have hztfs : tfsOpen z.tfs (some ({ c with clientPipe := fd } : Client).boxName.str) tfsOCreat
      = .ok (t, fhandle) := by
    rw [← hz]
    exact (congrArg₂ (fun s p => tfsOpen s (some (CharArray.str p)) tfsOCreat) hytfs
      hname).trans hopen
  have hthree : (z.place w { c with clientPipe := fd } (.createFile code msg) []).stepWorker w
      (.createFile code msg) .none = some _ := congrArg some (createFile_place hztfs)
  rw [hserve, show 78 = 77 + 1 from rfl,
    drive_place hzstop hzw (by simp) (by rw [obliging, place_pcs]; exact hthree)]
  constructor
  · intro hnn
    rw [if_neg (Int.not_lt.mpr hnn)]
    obtain ⟨c', hdrive, hempty⟩ := drive_answering (b := { z with tfs := t }) (w := w)
      (c := { c with clientPipe := fd, boxFd := fhandle }) hzstop hzw
      ⟨by rw [hop]; decide, by rw [hop]; decide, by rw [hop]; decide⟩ (j := fd)
        rfl hzfds fd malloced 73 []
      (answer opCodeCreateBoxAnswer code msg) false
    have hhandle : ({ c with clientPipe := fd, boxFd := fhandle } : Client).boxFd ≠ -1 := by
      intro heq
      rw [show fhandle = -1 from heq] at hnn
      exact absurd hnn (by decide)
    refine ⟨c', hempty hhandle, hdrive.trans (congrArg some ?_)⟩
    rw [if_neg hhandle, List.nil_append, ← hz]
    rw [← hz] at hback
    rw [hback, ← hyfds]
    rfl
  · intro hneg
    rw [if_pos hneg, drive_ret place_pcs, ← hz]
    exact ⟨_, rfl⟩

/-- The sections up to the one that looks for the box. -/
theorem serve_remove (hr : r.opcode = opCodeRemoveBox) (malloced : Bool) :
    ∃ c, c.boxName = r.boxName ∧ c.boxFd = (b.clients w).boxFd ∧
    c.clientPipe = (fd : Int) ∧ NoSession c ∧
      b.serve w r fd malloced = drive step (obliging w fd malloced) (hasReturned w) 78
        (({ b with boxesLock := some w, fds := Function.update b.fds fd true } : Broker).place w c
          .removeBody []) := by
  generalize hc : r.record (b.clients w) = c
  have hop : c.opcode = opCodeRemoveBox := by rw [← hc]; exact hr
  have hname : c.boxName = r.boxName := by
    rw [← hc]
    exact if_pos (by rw [hr]; decide)
  have hdequeued : b.dequeued w r = b.place w c .removeLock [] := by
    rw [dequeued_eq, hc, hr]
    rfl
  have hone : (b.place w c .removeLock []).stepWorker w .removeLock .none
      = some (({ b with boxesLock := some w } : Broker).place w c .removeOpen []) :=
        removeLock_place hlock
  have htwo : (({ b with boxesLock := some w } : Broker).place w c .removeOpen []).stepWorker w
      .removeOpen (.opened c.clientPipename.str (some fd))
      = some (
        ({ b with boxesLock := some w, fds := Function.update b.fds fd true } : Broker).place w
          { c with clientPipe := fd } .removeBody []) :=
            removeOpen_place (b := { b with boxesLock := some w }) hfd
  refine ⟨{ c with clientPipe := fd }, hname, by rw [← hc]; rfl, rfl,
    ⟨by rw [hop]; decide, by rw [hop]; decide, by rw [hop]; decide⟩, ?_⟩
  rw [serve_eq hstop hw hpc, hdequeued, show sectionBound = 78 + 1 + 1 from rfl,
    drive_place hstop hw (by simp) (by rw [obliging, place_pcs]; exact hone),
    drive_place (b := { b with boxesLock := some w }) hstop hw (by simp)
      (by rw [obliging, place_pcs, place_clients]; exact htwo)]

/-- The box is not there: an answer that says so. -/
theorem serve_remove_absent (hr : r.opcode = opCodeRemoveBox)
    (habsent : b.getBox r.boxName.str = none)
    (malloced : Bool) :
    ∃ c, ((b.clients w).boxFd ≠ -1 → c.boxName.str = .empty) ∧ b.serve w r fd malloced
      = some (b.place w c (.ret (if (b.clients w).boxFd = -1 then -1 else 0))
          ((answer opCodeRemoveBoxAnswer (-1) "Box does not exist").map
            fun bytes => (fd, bytes))) := by
  obtain ⟨c, hname, hboxFd, hpipe, hc, hserve⟩ := serve_remove hstop hw hpc hlock hfd hr malloced
  generalize hz :
    ({ b with boxesLock := some w, fds := Function.update b.fds fd true } : Broker) = z
    at hserve
  have hbody : (z.place w c .removeBody []).removeBody w = z.place w c
      (.answering (answer opCodeRemoveBoxAnswer (-1) "Box does not exist") true) [] := by
    refine (removeBody_absent ?_).trans place_setPc
    rw [place_clients, hname, ← hz]
    exact habsent
  have hzstop : z.stopped = false := by rw [← hz]; exact hstop
  have hzw : w < z.maxSessions := by rw [← hz]; exact hw
  have hback :
    ({ z with fds := Function.update z.fds fd false, boxesLock := none } : Broker) = b := by
    rw [← hz]
    simp only [update_back hfd, ← hlock]
  obtain ⟨c', hdrive, hempty⟩ := drive_answering (b := z) hzstop hzw hc hpipe
    (by rw [← hz]; exact Function.update_self ..) fd malloced 73 []
    (answer opCodeRemoveBoxAnswer (-1) "Box does not exist") true
  rw [if_pos rfl, hback, hboxFd] at hdrive
  refine ⟨c', fun h => hempty (hboxFd ▸ h), ?_⟩
  rw [hserve, show 78 = 77 + 1 from rfl, drive_place hzstop hzw (by simp)
    (by rw [obliging, place_pcs]; exact congrArg some hbody)]
  exact hdrive

/-- The box is there, and no other record carries its name: it is removed and the
answer says so, whatever the handler returns. -/
theorem serve_remove_present (hr : r.opcode = opCodeRemoveBox)
    (hi : b.getBox r.boxName.str = some i)
    (hno : ∀ v < b.maxSessions, v ≠ w → (b.clients v).boxName.str ≠ r.boxName.str)
    (hu : tfsUnlink b.tfs (some r.boxName.str) = .ok (t, 0)) (malloced : Bool) :
    ∃ c, ((b.clients w).boxFd ≠ -1 → c.boxName.str = .empty) ∧ b.serve w r fd malloced
      = some ((b.dropBox i t).place w c (.ret (if (b.clients w).boxFd = -1 then -1 else 0))
          ((answer opCodeRemoveBoxAnswer 0 "").map fun bytes => (fd, bytes))) := by
  obtain ⟨c, hname, hboxFd, hpipe, hc, hserve⟩ := serve_remove hstop hw hpc hlock hfd hr malloced
  generalize hz :
    ({ b with boxesLock := some w, fds := Function.update b.fds fd true } : Broker) = z
    at hserve
  have hbody : (z.place w c .removeBody []).removeBody w
      = (z.dropBox i t).place w c (.answering (answer opCodeRemoveBoxAnswer 0 "") true) [] := by
    refine (removeBody_present ?_ (fun v hv hne => ?_) ?_).trans
      (show ((z.dropBox i t).place w c .removeBody []).setPc w _ = _ from place_setPc)
    · rw [place_clients, hname, ← hz]
      exact hi
    · have hother : (z.place w c .removeBody []).clients v = b.clients v := by
        rw [← hz]
        exact Function.update_of_ne hne ..
      rw [place_clients, hother, hname]
      exact hno v (by rw [← hz] at hv; exact hv) hne
    · rw [place_clients, hname, ← hz]
      exact hu
  have hzstop : z.stopped = false := by rw [← hz]; exact hstop
  have hzw : w < z.maxSessions := by rw [← hz]; exact hw
  have hback :
      ({ z.dropBox i t with fds := Function.update z.fds fd false, boxesLock := none } : Broker)
      = b.dropBox i t := by
    rw [← hz]
    simp only [update_back hfd, ← hlock]
    rfl
  obtain ⟨c', hdrive, hempty⟩ := drive_answering (b := z.dropBox i t) hzstop hzw hc hpipe
    (by rw [← hz]; exact Function.update_self ..) fd malloced 73 []
      (answer opCodeRemoveBoxAnswer 0 "") true
  rw [if_pos rfl, show (z.dropBox i t).fds = z.fds from rfl, hback, hboxFd] at hdrive
  refine ⟨c', fun h => hempty (hboxFd ▸ h), ?_⟩
  rw [hserve, show 78 = 77 + 1 from rfl, drive_place hzstop hzw (by simp)
    (by rw [obliging, place_pcs]; exact congrArg some hbody)]
  exact hdrive

end Served

end Broker

end MBroker
