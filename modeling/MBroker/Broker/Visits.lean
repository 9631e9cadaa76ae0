import MBroker.Broker.Answers

/-!
# Create and remove requests one after another

A `Visit` is one request served alone. Between two visits the broker is `Tidy`: the
table is consistent and the boxes have the files. A create request changes the table
first and opens the file afterwards, and a failure of the second step does not undo
the first one.

Results:
1. `Tidy.create`, `Tidy.remove`: what a visit that meets the condition does.
2. `requests_atomic`: in every run of such visits each request gets one answer, and
   is carried out whole or not at all.
3. `create_no_slash`: a box whose name has no slash is added to the table and has no
   file, and its client no answer.
-/

namespace MBroker

open FirstFit Transition Fs

/-- A request, the worker that takes it, the descriptor that its client's pipe opens
as, and whether `malloc` finds memory for a box. -/
structure Visit where
  worker : Nat
  request : Request
  fd : Nat
  malloced : Bool

def Visit.boxName (v : Visit) : CStr := v.request.boxName.str

/-- The operation code of the answer. -/
def answerOpcode (opcode : UInt8) : UInt8 :=
  if opcode = opCodeCreateBox then opCodeCreateBoxAnswer else opCodeRemoveBoxAnswer

namespace Broker

variable {b b' y : Broker} {v : Visit} {t : Fs.State} {c : Client}
  {code result : Int} {msg : String}

/-- The request is served and the handler's result is looked at. -/
def visit (b : Broker) (v : Visit) : Option Broker :=
  (b.serve v.worker v.request v.fd v.malloced).bind fun x => x.step (v.worker, .none)

/-- The worker waits for a create or remove request, and the pipe of the client opens
as a descriptor that is not in use. -/
structure Admits (b : Broker) (v : Visit) : Prop where
  running : b.stopped = false
  worker : v.worker < b.maxSessions
  idle : b.pcs v.worker = .idle
  fd : b.fds v.fd = false
  opcode : v.request.opcode = opCodeCreateBox ∨ v.request.opcode = opCodeRemoveBox

/-! ## What a request may do -/

/-- The boxes and the files are as they were. -/
structure Unchanged (b b' : Broker) : Prop where
  numBoxes : b'.numBoxes = b.numBoxes
  freeBoxes : b'.freeBoxes = b.freeBoxes
  boxes : b'.boxes = b.boxes
  file : ∀ n, b'.tfs.file n = b.tfs.file n

/-- One box was added, and its file, which is empty. -/
def BoxAdded (b b' : Broker) (boxName : CharArray 32) : Prop :=
  ∃ i, firstIndex b.freeBoxes maxBoxes = some i ∧ b'.numBoxes = (b.addBox i boxName).numBoxes ∧
    b'.freeBoxes = (b.addBox i boxName).freeBoxes ∧ b'.boxes = (b.addBox i boxName).boxes ∧
    b.tfs.file boxName.str.tail = none ∧
    ∀ n, b'.tfs.file n = if n = boxName.str.tail then some [] else b.tfs.file n

/-- One box was removed, and its file. -/
def BoxRemoved (b b' : Broker) (boxName : CharArray 32) : Prop :=
  ∃ i, b.getBox boxName.str = some i ∧ b'.numBoxes = (b.dropBox i b'.tfs).numBoxes ∧
    b'.freeBoxes = (b.dropBox i b'.tfs).freeBoxes ∧ b'.boxes = (b.dropBox i b'.tfs).boxes ∧
    ∀ n, b'.tfs.file n = if n = boxName.str.tail then none else b.tfs.file n

/-- One answer was written; its return code is 0 exactly if the request was carried
out, and otherwise, or if the handler failed, nothing has changed. -/
def Atomic (b b' : Broker) (v : Visit) (result : Int) : Prop :=
  ∃ code msg, b'.output v.worker v.fd = (answer (answerOpcode v.request.opcode) code msg).flatten ∧
    (code = 0 → v.request.opcode = opCodeCreateBox → BoxAdded b b' v.request.boxName) ∧
    (code = 0 → v.request.opcode = opCodeRemoveBox → BoxRemoved b b' v.request.boxName) ∧
    (code ≠ 0 ∨ result = -1 → Unchanged b b')

/-! ## The state between two visits -/

structure Tidy (b : Broker) : Prop where
  lock : b.boxesLock = none
  wf : WellFormed b.tfs
  params : b.tfs.fsParams = brokerParams
  table : TableInvariant b
  named : Named b

/-- Up to the records, the descriptors and where the workers stand. -/
theorem Tidy.of_same (h : Tidy b) (hlock : b'.boxesLock = none) (htfs : b'.tfs = b.tfs)
    (hs : SameTable b b') : Tidy b' where
  lock := hlock
  wf := htfs ▸ h.wf
  params := htfs ▸ h.params
  table := h.table.of_same hs
  named := h.named.of_same hs.hasBox fun n => by rw [htfs]

theorem boxName_le (v : Visit) : v.boxName.tail.length ≤ 39 :=
  v.request.boxName.str_tail_length_lt.le.trans (by decide)

/-- A visit of `v` whose answer has this code leaves `y`, up to the place of the
worker. -/
structure Outcome (b : Broker) (v : Visit) (code result : Int) (y : Broker) : Prop where
  served : ∃ c msg, (result = 0 → c.boxName.str = .empty) ∧
    b.serve v.worker v.request v.fd v.malloced = some (y.place v.worker c (.ret result)
      ((answer (answerOpcode v.request.opcode) code msg).map fun bytes => (v.fd, bytes)))
  frame : y = { b with
    numBoxes := y.numBoxes, boxes := y.boxes, freeBoxes := y.freeBoxes, tfs := y.tfs }
  tidy : Tidy y

theorem Unchanged.place (h : Unchanged b y) {w : Nat} {pc : Pc} {sent : List (Nat × List UInt8)} :
    Unchanged b (y.place w c pc sent) :=
  ⟨h.numBoxes, h.freeBoxes, h.boxes, h.file⟩

theorem Outcome.atomic (h : Outcome b v code result y)
    (hadded : code = 0 → v.request.opcode = opCodeCreateBox → BoxAdded b y v.request.boxName)
    (hremoved : code = 0 → v.request.opcode = opCodeRemoveBox → BoxRemoved b y v.request.boxName)
    (hkept : code ≠ 0 ∨ result = -1 → Unchanged b y) :
    ∃ b', b.serve v.worker v.request v.fd v.malloced = some b' ∧ b'.pcs v.worker = .ret result ∧
      Atomic b b' v result := by
  obtain ⟨c, msg, -, hserve⟩ := h.served
  exact ⟨_, hserve, place_pcs, code, msg, output_of_sent place_sent, hadded, hremoved,
    fun hc => (hkept hc).place⟩

/-- The box is there already, or it is added; a handle is taken in both cases. -/
theorem Tidy.create (h : Tidy b) (ha : Admits b v) (hop : v.request.opcode = opCodeCreateBox)
    (hcan : b.tfs.CanOpen v.boxName)
    (hroom : b.getBox v.boxName ≠ none ∨ b.numBoxes ≠ maxBoxes ∧ v.malloced = true) :
    ∃ code y, Outcome b v code 0 y ∧
      (∃ j, b.tfs.freeHandle = some j ∧
        y.tfs.freeOpenFileEntries = Function.update b.tfs.freeOpenFileEntries j .taken) ∧
      ((b.getBox v.boxName ≠ none ∧ code = -1 ∧ Unchanged b y) ∨
        (b.getBox v.boxName = none ∧ code = 0 ∧ BoxAdded b y v.request.boxName)) := by
  obtain ⟨t, fhandle, hopen, hwf, hparams, hcase⟩ := tfsOpen_creat h.wf (boxName_le v)
  obtain ⟨-, j, rfl, hcreated⟩ := hcase.resolve_left fun hno => hno.1 hcan
  obtain ⟨y, code, msg, hdecided, hserved, -⟩ :=
    serve_create ha.running ha.worker ha.idle h.lock ha.fd hop h.table hopen v.malloced
  obtain ⟨c, hempty, hserve⟩ := hserved (Int.natCast_nonneg j)
  rw [← show answerOpcode v.request.opcode = opCodeCreateBoxAnswer from if_pos hop] at hserve
  have hhandle : ∃ j, b.tfs.freeHandle = some j ∧
      t.freeOpenFileEntries = Function.update b.tfs.freeOpenFileEntries j .taken :=
    ⟨j, hcreated.handle, hcreated.entries⟩
  have hbox : b.tfs.file v.boxName.tail ≠ none ↔ b.getBox v.boxName ≠ none :=
    (h.named.file_iff hcan.1).trans (h.table.hasBox (ne_empty_of_valid hcan.1))
  -- The box is refused only when it exists: the visit is granted a slot and memory.
  cases hdecided with
  | refused hwhy =>
    have hthere : b.getBox v.boxName ≠ none := by
      refine hroom.elim id fun hok => hwhy.elim (fun hn => absurd hn hok.1) fun hw => hw.elim id ?_
      intro hm
      rw [hok.2] at hm
      cases hm
    have hfile : ∀ n, t.file n = b.tfs.file n := fun n =>
      (hcreated.file n).trans (if_neg fun hn => hbox.mpr hthere hn.2)
    refine ⟨-1, { b with tfs := t }, ⟨⟨c, msg, fun _ => hempty, hserve⟩, rfl, ?_⟩, hhandle,
      Or.inl ⟨hthere, rfl, rfl, rfl, rfl, hfile⟩⟩
    exact ⟨h.lock, hwf, hparams.trans h.params, h.table.of_same ⟨rfl, rfl, fun _ => rfl⟩,
      h.named.of_same (fun _ => Iff.rfl) fun n => by rw [hfile]⟩
  | @added i hn hnew hm hi =>
    have habsent : b.tfs.file v.boxName.tail = none := by
      by_contra hf
      exact hbox.mp hf hnew
    have hfile : ∀ n, t.file n = if n = v.boxName.tail then some [] else b.tfs.file n := fun n =>
      (hcreated.file n).trans (if_congr (and_iff_left habsent) rfl rfl)
    refine ⟨0, { b.addBox i v.request.boxName with tfs := t },
      ⟨⟨c, "", fun _ => hempty, hserve⟩, rfl, ?_⟩, hhandle,
      Or.inr ⟨hnew, rfl, i, hi, rfl, rfl, rfl, habsent, hfile⟩⟩
    refine ⟨h.lock, hwf, hparams.trans h.params,
      (h.table.addBox hi hnew hn).of_same ⟨rfl, rfl, fun _ => rfl⟩,
      h.named.create hcan.1 (fun q => hasBox_addBox hi) fun n => ?_⟩
    rw [hfile]
    by_cases hn : n = v.boxName.tail <;> simp [hn]

theorem opcode_remove (hop : v.request.opcode = opCodeRemoveBox) :
    answerOpcode v.request.opcode = opCodeRemoveBoxAnswer := by
  rw [hop]
  rfl

/-- What the handler returns: without a handle in its record the session does not
count as finished. -/
def removeResult (b : Broker) (v : Visit) : Int :=
  if (b.clients v.worker).boxFd = -1 then -1 else 0

theorem Tidy.remove_absent (h : Tidy b) (ha : Admits b v) (hop : v.request.opcode = opCodeRemoveBox)
    (habsent : b.getBox v.boxName = none) : Outcome b v (-1) (b.removeResult v) b := by
  obtain ⟨c, hempty, hserve⟩ := serve_remove_absent ha.running ha.worker ha.idle h.lock ha.fd hop
    habsent v.malloced
  rw [← opcode_remove hop] at hserve
  refine ⟨⟨c, _, fun hres => hempty fun hfd => ?_, hserve⟩, rfl, h⟩
  rw [removeResult, if_pos hfd] at hres
  cases hres

theorem Tidy.remove_present (h : Tidy b) (ha : Admits b v)
    (hop : v.request.opcode = opCodeRemoveBox)
    (hbox : b.HasBox v.boxName)
    (hno : ∀ u < b.maxSessions, u ≠ v.worker → (b.clients u).boxName.str ≠ v.boxName) :
    ∃ y, Outcome b v 0 (b.removeResult v) y ∧ BoxRemoved b y v.request.boxName ∧
      y.tfs.freeOpenFileEntries = b.tfs.freeOpenFileEntries := by
  have hvalid := h.named.valid _ hbox
  have hne := ne_empty_of_valid hvalid
  obtain ⟨i, hi⟩ := Option.ne_none_iff_exists'.mp hbox.getBox
  obtain ⟨t, ret, hunlink, hwf, hparams, hentries, hcase⟩ := tfsUnlink_file h.wf v.boxName
  obtain ⟨-, rfl, hfile⟩ :=
    hcase.resolve_left fun hnot => hnot.1 ⟨hvalid, (h.named.file_iff hvalid).mpr hbox⟩
  obtain ⟨c, hempty, hserve⟩ := serve_remove_present ha.running ha.worker
    ha.idle h.lock ha.fd hop hi
    hno hunlink v.malloced
  rw [← opcode_remove hop] at hserve
  refine ⟨b.dropBox i t, ⟨⟨c, _, fun hres => hempty fun hfd => ?_, hserve⟩, rfl, ?_⟩,
    ⟨i, hi, rfl, rfl, rfl, hfile⟩, hentries⟩
  · rw [removeResult, if_pos hfd] at hres
    cases hres
  · refine ⟨h.lock, hwf, hparams.trans h.params,
      h.table.dropBox (getBox_lt hi) (h.table.getBox_used hi hne) t,
      h.named.remove hvalid (fun q => hasBox_dropBox h.table hi hne t) fun n => ?_⟩
    rw [show (b.dropBox i t).tfs = t from rfl, hfile]
    by_cases hn : n = v.boxName.tail <;> simp [hn]

/-! ## Runs -/

/-- The visit ends with the worker back in its loop, or with the worker or the whole
process on its way out. -/
theorem Outcome.tidy_visit (h : Outcome b v code result y)
    (hv : b.visit v = some b') : Tidy b' := by
  obtain ⟨c, msg, -, hserve⟩ := h.served
  rw [visit, hserve, Option.bind_some] at hv
  obtain ⟨-, -, hs⟩ := step_eq_some.mp hv
  rw [place_pcs] at hs
  obtain rfl := Option.some.inj hs
  unfold returned
  split
  · split
    · exact h.tidy.of_same h.tidy.lock rfl ⟨rfl, rfl, fun _ => rfl⟩
    · exact h.tidy.of_same h.tidy.lock rfl ⟨rfl, rfl, fun _ => rfl⟩
  · exact h.tidy.of_same h.tidy.lock rfl ⟨rfl, rfl, fun _ => rfl⟩

/-- The request can be carried out whole, or is refused before anything is done. A
create request for a box that is not there must find room for it in the table as well
as in TecnicoFS; a remove request needs a record with a handle in it. -/
structure Whole (b : Broker) (v : Visit) : Prop extends Admits b v where
  create : v.request.opcode = opCodeCreateBox → b.tfs.CanOpen v.boxName ∧
    (b.getBox v.boxName ≠ none ∨ b.numBoxes ≠ maxBoxes ∧ v.malloced = true)
  remove : v.request.opcode = opCodeRemoveBox → b.getBox v.boxName ≠ none →
    b.HasBox v.boxName ∧ (b.clients v.worker).boxFd ≠ -1 ∧
      ∀ u < b.maxSessions, u ≠ v.worker → (b.clients u).boxName.str ≠ v.boxName

theorem create_ne_remove (h : v.request.opcode = opCodeCreateBox) :
    v.request.opcode ≠ opCodeRemoveBox := by
  rw [h]
  decide

/-- One visit that meets the condition. -/
theorem Tidy.whole (h : Tidy b) (hv : Whole b v) : ∃ code result y, Outcome b v code result y ∧
    ∃ x, b.serve v.worker v.request v.fd v.malloced = some x ∧ x.pcs v.worker = .ret result ∧
      Atomic b x v result := by
  rcases hv.opcode with hop | hop
  · obtain ⟨hcan, hroom⟩ := hv.create hop
    obtain ⟨code, y, hy, -, hcase⟩ := h.create hv.toAdmits hop hcan hroom
    refine ⟨code, 0, y, hy, hy.atomic (fun hc _ => ?_)
      (fun _ hrem => absurd hrem (create_ne_remove hop)) fun hc => ?_⟩
    · rcases hcase with ⟨-, rfl, -⟩ | ⟨-, -, hadded⟩
      · cases hc
      · exact hadded
    · rcases hcase with ⟨-, -, hsame⟩ | ⟨-, rfl, -⟩
      · exact hsame
      · exact absurd hc (by decide)
  · by_cases hbox : b.getBox v.boxName = none
    · have hy := h.remove_absent hv.toAdmits hop hbox
      refine ⟨-1, _, b, hy, hy.atomic (fun hc => ?_) (fun hc => ?_)
        fun _ => ⟨rfl, rfl, rfl, fun _ => rfl⟩⟩
      · cases hc
      · cases hc
    · obtain ⟨hhas, hfd, hno⟩ := hv.remove hop hbox
      obtain ⟨y, hy, hremoved, -⟩ := h.remove_present hv.toAdmits hop hhas hno
      have hzero : b.removeResult v = 0 := if_neg hfd
      refine ⟨0, _, y, hy, hy.atomic (fun _ hc => absurd hop (create_ne_remove hc))
        (fun _ _ => hremoved) fun hc => ?_⟩
      rw [hzero] at hc
      exact absurd hc (by decide)

theorem Tidy.visit (h : Tidy b) (hv : Whole b v) (hs : b.visit v = some b') : Tidy b' := by
  obtain ⟨code, result, y, hy, -⟩ := h.whole hv
  exact hy.tidy_visit hs

theorem Tidy.of_start {maxSessions : Nat} {clients : Nat → Client}
    {m : Fs.Malloc} {fds : Nat → Bool} :
    Tidy (start maxSessions clients m fds) where
  lock := rfl
  wf := tfsStart_wellFormed m
  params := rfl
  table := .of_start ..
  named := by
    have hnone : ∀ p, ¬ (start maxSessions clients m fds).HasBox p := by
      rintro p ⟨i, -, hused, -⟩
      cases hused
    refine ⟨fun p hp => absurd hp (hnone p), fun n => ?_⟩
    have hfile : (start maxSessions clients m fds).tfs.file n = none :=
      file_of_absent (lookup_initial _ _ _ _)
    exact iff_of_false (not_not.mpr hfile) fun ⟨p, hp, _⟩ => hnone p hp

/-- In every run of visits that meet the condition, and for every next one, there is
one answer and the request is carried out whole or not at all. -/
theorem requests_atomic (maxSessions : Nat) (clients : Nat → Client)
    (m : Fs.Malloc) (fds : Nat → Bool)
    {b : Broker} (hrun : Reaches visit Whole (start maxSessions clients m fds) b) {v : Visit}
    (hv : Whole b v) :
    ∃ b' result, b.serve v.worker v.request v.fd v.malloced = some b' ∧
      b'.pcs v.worker = .ret result ∧ Atomic b b' v result := by
  have htidy : Tidy b := hrun.invariant .of_start fun _ _ _ h hmeets hs => h.visit hmeets hs
  obtain ⟨-, result, -, -, x, hx⟩ := htidy.whole hv
  exact ⟨x, result, hx⟩

/-- The first request of a broker with one worker. -/
def firstVisit (request : Request) : Visit := ⟨0, request, 3, true⟩

theorem fresh_admits {request : Request}
    (hop : request.opcode = opCodeCreateBox ∨ request.opcode = opCodeRemoveBox) :
    Admits (fresh 1) (firstVisit request) :=
  ⟨rfl, Nat.zero_lt_one, rfl, rfl, hop⟩

theorem fresh_getBox {p : CStr} (h : p ≠ .empty) (n : Nat) : (fresh n).getBox p = none :=
  getBox_eq_none.mpr fun _ _ hp => h (hp.symm.trans (CharArray.str_ofStr .empty (by decide)))

/-- The first request is for a new box `/a`. -/
def sampleVisit : Visit := firstVisit (sampleRequest opCodeCreateBox)

theorem requests_atomic_create : ∃ b' result,
    (fresh 1).serve sampleVisit.worker sampleVisit.request sampleVisit.fd
      sampleVisit.malloced = some b' ∧
      b'.pcs sampleVisit.worker = .ret result ∧ Atomic (fresh 1) b' sampleVisit result := by
  have hcan : (fresh 1).tfs.CanOpen sampleVisit.boxName := tfsStart_canOpen (by decide)
  have hwhole : Whole (fresh 1) sampleVisit :=
    ⟨fresh_admits (Or.inl rfl), fun _ => ⟨hcan, Or.inr ⟨by decide, rfl⟩⟩,
      fun hrem => absurd hrem (by decide)⟩
  exact requests_atomic 1 (fun _ => zeroClient) .zeros (fun _ => false) .refl hwhole

/-- A request for a box `a`, without the slash. -/
def slashlessRequest : Request :=
  { sampleRequest opCodeCreateBox with boxName := .ofStr (.ofBytes [97]) (by decide) }

/-- The box is in the table, but `tfs_open` has refused its name. -/
theorem create_no_slash :
    ¬ ∀ (maxSessions : Nat) (clients : Nat → Client) (m : Fs.Malloc) (fds : Nat → Bool) (b : Broker)
      (v : Visit), m.granted = true → Reaches visit Admits (start maxSessions clients m fds) b →
      Admits b v → ∃ b' result, b.serve v.worker v.request v.fd v.malloced = some b' ∧
        b'.pcs v.worker = .ret result ∧ Atomic b b' v result := by
  intro h
  obtain ⟨b', result, hserve, hret, code, msg, -, -, -, hkept⟩ :=
    h 1 _ _ _ _ (firstVisit slashlessRequest) rfl (.refl : Reaches visit Admits _ (fresh 1))
      (fresh_admits (Or.inl rfl))
  obtain ⟨y, code', msg', hdecided, -, hfailed⟩ := serve_create (b := fresh 1) (w := 0) rfl
    Nat.zero_lt_one rfl rfl (show (fresh 1).fds 3 = false from rfl) (r := slashlessRequest) rfl
    (.of_start ..) (tfsOpen_invalid (by decide)) true
  obtain ⟨c, hserve'⟩ := hfailed (by decide)
  obtain rfl := Option.some.inj (hserve.symm.trans hserve')
  obtain rfl : result = -1 := Pc.ret.inj (hret.symm.trans place_pcs)
  have hnum : y.numBoxes = 0 := (hkept (Or.inr rfl)).numBoxes
  cases hdecided with
  | refused hwhy =>
    rcases hwhy with hn | hbox | hm
    · exact absurd hn (by decide)
    · exact hbox (fresh_getBox (by decide) 1)
    · cases hm
  | added => cases hnum

end Broker

end MBroker
