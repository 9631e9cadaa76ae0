import MBroker.Broker.Names
import MBroker.Broker.Progress
import MBroker.Broker.Slots
import MBroker.Fs.Cursors

/-!
# Sessions and the slots they are on

A session keeps a pointer to its slot in `boxes`, a publish in progress keeps another
one, and `get_box` finds slots by their names. As long as a registration finds no free
slot, and no box is removed while a message is on its way to it, the slot of a session
is in use and has the name that the session has registered for.

Results:
1. `Placed.call_cursor`: the calls of the others leave the handle of a publish at the
   end of its file.
2. `Placed.others`, `Placed.own`: what a section leaves of the other sessions and of its
   own.
3. `Placed.step`: sessions stay on boxes of their names.
-/

namespace MBroker

open FirstFit Transition Fs

namespace Pc

/-- The slot of a message that was read and is not counted yet. -/
def inFlight : Pc → Option Nat
  | .pubLock i _ | .pubOpen i _ | .pubWrite i _ _ | .pubCount i _ => some i
  | _ => none

/-- In a subscriber's loops, after its `tfs_open`. -/
def Reads : Pc → Bool
  | .historyTest | .historyRead | .historySendOp .. | .historySendMessage .. | .followLock _
  | .asleep .. | .followRead _ | .followSendOp .. | .followSendMessage .. => true
  | _ => false

variable {pc : Pc} {i : Nat} {message : List UInt8}

theorem inSession_of_inFlight (h : pc.inFlight = some i) : pc.InSession = true := by
  cases pc <;> first | rfl | cases h

theorem inFlight_of_publishing (h : pc.publishing = some (i, message)) : pc.inFlight = some i := by
  cases pc <;> first | (cases h; rfl) | cases h

theorem inSession_of_inHistory (h : pc.InHistory = true) : pc.InSession = true := by
  cases pc <;> first | rfl | cases h

theorem inSession_of_reads (h : pc.Reads = true) : pc.InSession = true := by
  cases pc <;> first | rfl | cases h

theorem inFlight_of_reads (h : pc.Reads = true) : pc.inFlight = none := by
  cases pc <;> first | rfl | cases h

end Pc

namespace Broker

variable {b b' x : Broker} {v w i : Nat} {pc : Pc} {t : Fs.State} {a : Answer} {name : Option CStr}
  {named : Nat → Option CStr} {message : List UInt8} {fh : Int} {c : List UInt8}

/-- Worker `w` is in no session, or its session is on a box of the name that it has
registered for; `name` is that name. -/
structure Seated (b : Broker) (name : Option CStr) (w : Nat) : Prop where
  attached : ∀ i, (b.pcs w).InSession = true → (b.clients w).box = some i → i < maxBoxes ∧
    b.freeBoxes i = false ∧ b.path i = (b.clients w).boxName.str ∧ name = some (b.path i)
  flight : ∀ i, (b.pcs w).inFlight = some i → i < maxBoxes ∧
    b.freeBoxes i = false ∧ name = some (b.path i)
  locked : ∀ i message, (b.pcs w).publishing = some (i, message) → (b.boxes i).lock = some w
  history : ∀ i, (b.pcs w).InHistory = true → (b.clients w).box = some i → (b.boxes i).lock = some w
  waiting : ∀ i j, b.pcs w = .historyLock i → (b.clients w).box = some j → j = i
  /-- the handle of a publish is at the end of the file of the box -/
  cursor : ∀ i message fh, b.pcs w = .pubWrite i message fh →
    validPathname (some (b.path i)) = true ∧
    ∃ c, b.fileOf i = some c ∧ b.tfs.Cursor fh (b.path i).tail c.length
  /-- a subscriber that was finished has lost its handle -/
  reading : (b.pcs w).Reads = true → (b.clients w).boxFd = -1 ∨
    ∃ fd : Nat, (b.clients w).boxFd = fd ∧ b.tfs.IsOpen fd

/-- What holds in every state of a run. `named` is what the workers have registered for. -/
structure Placed (b : Broker) (named : Nat → Option CStr) : Prop where
  robust : Robust b.tfs
  distinct : ∀ i < maxBoxes, ∀ j < maxBoxes, b.path i ≠ .empty → b.path i = b.path j → i = j
  outside : ∀ w, b.maxSessions ≤ w → b.pcs w = .idle
  seated : ∀ w, Seated b (named w) w
  apart : ∀ v w i message fh, (b.pcs v).Reads = true → b.pcs w = .pubWrite i message fh →
    (b.clients v).boxFd ≠ fh

/-- No message is on its way to a box that is removed. -/
def Unhurried (b : Broker) (w : Nat) : Prop :=
  b.pcs w = .removeBody → ∀ i, b.getBox (b.clients w).boxName.str = some i →
    ∀ v, (b.pcs v).inFlight ≠ some i

theorem Seated.ended (h : (x.pcs w).InSession = false) : Seated x name w where
  attached i hs := by
    rw [h] at hs
    cases hs
  flight i hf := by
    rw [Pc.inSession_of_inFlight hf] at h
    cases h
  locked i m hp := by
    rw [Pc.inSession_of_inFlight (Pc.inFlight_of_publishing hp)] at h
    cases h
  history i hh := by
    rw [Pc.inSession_of_inHistory hh] at h
    cases h
  waiting i j hp := by
    rw [hp] at h
    cases h
  cursor i m fh hp := by
    rw [hp] at h
    cases h
  reading hr := by
    rw [Pc.inSession_of_reads hr] at h
    cases h

/-! ## The other sessions -/

/-- A session that the section does not touch, except that it may finish its record or
wake it. -/
theorem Seated.beside (h : Seated b name v) (hstay : Stays b x v) (hrec : Recorded b x v)
    (hslot : ∀ i, i < maxBoxes → b.freeBoxes i = false →
      ((b.pcs v).InSession = true ∧ (x.clients v).box = some i) ∨ (b.pcs v).inFlight = some i →
      x.freeBoxes i = false ∧ x.path i = b.path i ∧
      ((b.boxes i).lock = some v → (x.boxes i).lock = some v))
    (hcur : ∀ i message fh c, b.pcs v = .pubWrite i message fh → b.fileOf i = some c →
      b.tfs.Cursor fh (b.path i).tail c.length →
      x.tfs.file (b.path i).tail = some c ∧ x.tfs.Cursor fh (b.path i).tail c.length)
    (hopen : ∀ fd, b.tfs.IsOpen fd → x.tfs.IsOpen fd) : Seated x name v := by
  -- A broadcast only moves `v` from its sleep to `followLock`.
  have hpcs : ∀ {P : Pc → Prop}, P (x.pcs v) → (∀ i, ¬ P (.followLock i)) → P (b.pcs v) := by
    intro P hp hnot
    rcases hstay with hsame | ⟨i, n, -, hwoken⟩
    · rwa [← hsame]
    · rw [hwoken] at hp
      exact absurd hp (hnot i)
  have hsession : (x.pcs v).InSession = true → (b.pcs v).InSession = true := by
    intro hs
    rcases hstay with hsame | ⟨i, n, hasleep, -⟩
    · rwa [← hsame]
    · rw [hasleep]
      rfl
  have hbox : ∀ i, (x.clients v).box = some i → x.clients v = b.clients v := by
    intro i hi
    refine hrec.resolve_right fun hfinished => ?_
    rw [hfinished.1] at hi
    cases hi
  refine ⟨fun i hs hi => ?_, fun i hf => ?_, fun i m hp => ?_,
    fun i hh hi => ?_, fun i j hp hj => ?_,
    fun i m fh hp => ?_, fun hr => ?_⟩
  · have hsame := hbox i hi
    obtain ⟨hlt, hused, hpath, hname⟩ := h.attached i (hsession hs) (hsame ▸ hi)
    obtain ⟨hused', hpath', -⟩ := hslot i hlt hused (Or.inl ⟨hsession hs, hi⟩)
    exact ⟨hlt, hused', by rw [hpath', hpath, hsame], by rw [hpath', hname]⟩
  · have hf' : (b.pcs v).inFlight = some i := hpcs (P := fun pc => pc.inFlight = some i)
      hf fun _ hc => nomatch hc
    obtain ⟨hlt, hused, hname⟩ := h.flight i hf'
    obtain ⟨hused', hpath', -⟩ := hslot i hlt hused (Or.inr hf')
    exact ⟨hlt, hused', by rw [hpath', hname]⟩
  · have hp' : (b.pcs v).publishing = some (i, m) :=
      hpcs (P := fun pc => pc.publishing = some (i, m)) hp fun _ hc => nomatch hc
    have hf' := Pc.inFlight_of_publishing hp'
    obtain ⟨hlt, hused, -⟩ := h.flight i hf'
    exact (hslot i hlt hused (Or.inr hf')).2.2 (h.locked i m hp')
  · have hh' : (b.pcs v).InHistory = true := hpcs (P := fun pc => pc.InHistory = true)
      hh fun _ hc => nomatch hc
    have hsame := hbox i hi
    obtain ⟨hlt, hused, -⟩ := h.attached i (Pc.inSession_of_inHistory hh') (hsame ▸ hi)
    exact (hslot i hlt hused (Or.inl ⟨Pc.inSession_of_inHistory hh', hi⟩)).2.2
      (h.history i hh' (hsame ▸ hi))
  · have hp' : b.pcs v = .historyLock i := hpcs (P := fun pc => pc = .historyLock i)
      hp fun _ hc => nomatch hc
    exact h.waiting i j hp' (hbox j hj ▸ hj)
  · have hp' : b.pcs v = .pubWrite i m fh := hpcs (P := fun pc => pc = .pubWrite i m fh)
      hp fun _ hc => nomatch hc
    obtain ⟨hlt, hused, -⟩ := h.flight i (by rw [hp']; rfl)
    obtain ⟨-, hpath', -⟩ := hslot i hlt hused (Or.inr (by rw [hp']; rfl))
    obtain ⟨hvalid, c, hc, hcursor⟩ := h.cursor i m fh hp'
    rw [fileOf, hpath']
    exact ⟨hvalid, c, hcur i m fh c hp' hc hcursor⟩
  · rcases hrec with hsame | hfinished
    · have hr' : (b.pcs v).Reads = true := by
        rcases hstay with hstill | ⟨i, n, hasleep, -⟩
        · rwa [← hstill]
        · rw [hasleep]
          rfl
      rw [hsame]
      exact (h.reading hr').imp_right (Exists.imp fun fd => And.imp_right (hopen fd))
    · exact Or.inl hfinished.2

theorem Calls.isOpen (h : Robust b.tfs) (hc : Calls b w pc t) {fd : Nat} (ho : b.tfs.IsOpen fd) :
    t.IsOpen fd := by
  cases hc with
  | pubOpen hopen => exact ((called_open h hopen).isOpen (by decide) ho).1
  | pubWrite hw =>
    rcases overwritten_of_write h (messageStr_fits _) hw with rfl | ⟨fd, k, -, -, hover⟩
    · exact ho
    · exact hover.isOpen ho
  | historyOpen hopen => exact ((called_open h hopen).isOpen (by decide) ho).1
  | historyRead hr =>
    cases called_read h hr with
    | refused => exact ho
    | read _ _ hread => exact hread.isOpen ho
  | followRead hr =>
    cases called_read h hr with
    | refused => exact ho
    | read _ _ hread => exact hread.isOpen ho
  | createFile hopen => exact ((called_open h hopen).isOpen (by decide) ho).1
  | removeBody hu => exact (called_unlink h hu).isOpen ho

theorem step_isOpen (h : Robust b.tfs) (hs : b.step (w, a) = some b')
    {fd : Nat} (ho : b.tfs.IsOpen fd) :
    b'.tfs.IsOpen fd := by
  rcases step_calls hs with hsame | hcall
  · rwa [hsame]
  · exact hcall.isOpen h ho

/-- A file that is open for a publish: no other publisher has a handle on it. -/
theorem Placed.other_file (h : Placed b named) (hv : v ≠ w) {j : Nat}
    {message' : List UInt8} {fh' : Int}
    (hpc : b.pcs v = .pubWrite i message fh) (hpc' : b.pcs w = .pubWrite j message' fh') :
    (b.path i).tail ≠ (b.path j).tail := by
  intro htail
  obtain ⟨hvalid, -⟩ := (h.seated v).cursor i message fh hpc
  obtain ⟨hvalid', -⟩ := (h.seated w).cursor j message' fh' hpc'
  obtain ⟨hi, -⟩ := (h.seated v).flight i (by rw [hpc]; rfl)
  obtain ⟨hj, -⟩ := (h.seated w).flight j (by rw [hpc']; rfl)
  obtain rfl := h.distinct i hi j hj (ne_empty_of_valid hvalid) (path_of_tail hvalid hvalid' htail)
  -- both hold the lock of the box
  have hlock := (h.seated v).locked i message (by rw [hpc]; rfl)
  rw [(h.seated w).locked i message' (by rw [hpc']; rfl)] at hlock
  exact hv (Option.some.inj hlock).symm

theorem Placed.call_cursor (h : Placed b named) (hc : Calls b w (b.pcs w) t) (hok : Unhurried b w)
    (hv : v ≠ w) (hpc : b.pcs v = .pubWrite i message fh) (hfile : b.fileOf i = some c)
    (hcur : b.tfs.Cursor fh (b.path i).tail c.length) :
    t.file (b.path i).tail = some c ∧ t.Cursor fh (b.path i).tail c.length := by
  have hwf := h.robust.toFilesWf
  have hopened : ∀ {p : CStr} {mode : Nat} {r : Int}, hasFlag mode tfsOTrunc = false →
      tfsOpen b.tfs (some p) mode = .ok (t, r) →
      t.file (b.path i).tail = some c ∧ t.Cursor fh (b.path i).tail c.length := by
    intro p mode r hno ho
    have hcalled := called_open h.robust ho
    refine ⟨?_, (hcalled.cursor hwf hno hcur).2⟩
    rcases hcalled.file hwf hno (b.path i).tail with hsame | ⟨hnone, -⟩
    · exact hsame.trans hfile
    · rw [show b.tfs.file (b.path i).tail = some c from hfile] at hnone
      cases hnone
  -- A subscriber reads through a handle that no publisher writes through.
  have hread : ∀ {len : Nat} {r : Int} {bytes : List UInt8}, (b.pcs w).Reads = true →
      tfsRead b.tfs (b.clients w).boxFd len = .ok (t, r, bytes) →
      t.file (b.path i).tail = some c ∧ t.Cursor fh (b.path i).tail c.length := by
    intro len r bytes hreads hr
    cases called_read h.robust hr with
    | refused => exact ⟨hfile, hcur⟩
    | read hh _ hreread =>
      refine ⟨(hreread.sameFiles.file _).trans hfile, hreread.cursor hcur ?_⟩
      rw [← (handle_eq_some hh).1]
      exact (h.apart w v i message fh hreads hpc).symm
  generalize hat : b.pcs w = pc at hc hread
  cases hc with
  | pubOpen ho => exact hopened (by decide) ho
  | historyOpen ho => exact hopened (by decide) ho
  | createFile ho => exact hopened (by decide) ho
  | historyRead hr => exact hread rfl hr
  | followRead hr => exact hread rfl hr
  | @pubWrite j message' fhandle _ _ hw =>
    obtain ⟨hvalid', c', hc', hcur'⟩ := (h.seated w).cursor j message' fhandle hat
    have htail := h.other_file hv hpc hat
    rcases overwritten_of_write h.robust (messageStr_fits _) hw with rfl | ⟨fd, k, hh, hk, hover⟩
    · exact ⟨hfile, hcur⟩
    · obtain ⟨rfl, -⟩ := handle_eq_some hh
      -- The files differ, so the handles do.
      have hne : fh ≠ fd := by
        rintro rfl
        obtain ⟨k₁, hl₁, hh₁⟩ := hcur
        obtain ⟨k₂, hl₂, hh₂⟩ := hcur'
        obtain rfl : k₁ = k₂ := Int.ofNat_inj.mp (hh₁.inumber.symm.trans hh₂.inumber)
        exact htail (hwf.linked.inj _ _ _ hl₁ hl₂)
      obtain ⟨hfiles, hcursors⟩ := Overwritten.appends h.robust hc' hcur' hk hover
      refine ⟨?_, hcursors fh _ _ hne hcur⟩
      rw [hfiles, if_neg htail]
      exact hfile
  | removeBody hu =>
    by_cases hvalid : validPathname (some (b.clients w).boxName.str) = true
    · have hcalled := called_unlink h.robust hu
      obtain ⟨hi, -⟩ := (h.seated v).flight i (by rw [hpc]; rfl)
      have htail : ∀ p, some (b.clients w).boxName.str = some p → (b.path i).tail ≠ p.tail := by
        rintro p hp htail
        obtain rfl := Option.some.inj hp
        -- The unlinked file would be that of the box, which nobody removes during a publish.
        have hsame := path_of_tail ((h.seated v).cursor i message fh hpc).1 hvalid htail
        obtain ⟨j, hj⟩ := Option.ne_none_iff_exists'.mp fun hnone =>
          getBox_eq_none.mp hnone i hi hsame
        obtain ⟨hjlt, hjname⟩ := getBox_eq_some hj
        obtain rfl := h.distinct i hi j hjlt (hsame ▸ ne_empty_of_valid hvalid)
          (hsame.trans hjname.symm)
        exact hok hat i hj v (by rw [hpc]; rfl)
      refine ⟨?_, hcalled.cursor hwf hcur htail⟩
      rcases hcalled.file hwf (b.path i).tail with hsame | ⟨p, hp, hn, -⟩
      · exact hsame.trans hfile
      · exact absurd hn (htail p hp)
    · rw [tfsUnlink_invalid (by simpa using hvalid)] at hu
      cases hu
      exact ⟨hfile, hcur⟩

theorem createLock_of_step (hs : b.step (w, a) = some b') (hpc : b.pcs w = .createLock) :
    AfterCreate b b' := by
  replace hs := (step_eq_some.mp hs).2.2
  dsimp only at hs
  rw [hpc] at hs
  cases a with
  | malloced ok => exact createLock_slots hs
  | _ => cases hs

/-- A record of another worker. -/
theorem step_recorded (hs : b.step (w, a) = some b') (hv : v ≠ w) : Recorded b b' v := by
  by_cases hremove : b.pcs w = .removeBody
  · obtain rfl := removeBody_of_step hs hremove
    exact (removeBody_removes b w).slots.recorded v
  · exact Or.inl (step_beside hs hv hremove).clients

/-- The other sessions after a section. -/
theorem Placed.others (h : Placed b named) (hs : b.step (w, a) = some b')
    (hok : Unhurried b w) (hv : v ≠ w) :
    Seated b' (named v) v := by
  have hcur : ∀ i message fh c, b.pcs v = .pubWrite i message fh → b.fileOf i = some c →
      b.tfs.Cursor fh (b.path i).tail c.length →
      b'.tfs.file (b.path i).tail = some c ∧ b'.tfs.Cursor fh (b.path i).tail c.length := by
    intro i message fh c hpc hfile hcur
    rcases step_calls hs with hsame | hcall
    · rw [hsame]
      exact ⟨hfile, hcur⟩
    · exact h.call_cursor hcall hok hv hpc hfile hcur
  have hopen := fun fd (ho : b.tfs.IsOpen fd) => step_isOpen h.robust hs ho
  have hstays := step_others hs hv
  have hrec := step_recorded hs hv
  by_cases hremove : b.pcs w = .removeBody
  · obtain rfl := removeBody_of_step hs hremove
    obtain ⟨-, hlock, hslots⟩ := (removeBody_removes b w).slots
    refine (h.seated v).beside hstays hrec (fun i hi hused huse => ?_) hcur hopen
    rcases hslots with hsame | ⟨j, hj, hother, -, hfinished⟩
    · exact ⟨(hsame i).1.trans hused, (hsame i).2, fun hl => (hlock i).trans hl⟩
    -- A session on the removed box is finished; `Unhurried` excludes a message in flight.
    · have hij : i ≠ j := by
        rintro rfl
        rcases huse with ⟨hsession, hbox⟩ | hflight
        · have hsame : (b.removeBody w).clients v = b.clients v := hrec.resolve_right fun hc => by
            rw [hc.1] at hbox
            cases hbox
          obtain ⟨-, -, hpath, -⟩ := (h.seated v).attached i hsession (hsame ▸ hbox)
          have hlt : v < b.maxSessions := by
            by_contra hge
            rw [h.outside v (Nat.le_of_not_lt hge)] at hsession
            cases hsession
          rw [hfinished v hlt hv (hpath.symm.trans (getBox_eq_some hj).2)] at hbox
          cases hbox
        · exact hok hremove i hj v hflight
      exact ⟨(hother i hij).1.trans hused, (hother i hij).2, fun hl => (hlock i).trans hl⟩
  · by_cases hcreate : b.pcs w = .createLock
    · have hslots := createLock_of_step hs hcreate
      refine (h.seated v).beside hstays hrec (fun i _ hused _ => ?_) hcur hopen
      obtain ⟨hused', hpath, hlock⟩ := hslots.slots i hused
      exact ⟨hused', hpath, fun hl => hlock.trans hl⟩
    · have haround := step_around hs hcreate hremove (h.seated w).locked (h.seated w).history
      refine (h.seated v).beside hstays hrec (fun i _ hused _ => ?_) hcur hopen
      exact ⟨(congrFun haround.table.freeBoxes i).trans hused, path_eq (haround.table.boxName i),
        haround.lock i v hv⟩

/-! ## The session of the worker -/

instance (b : Broker) (p : CStr) : Decidable (b.HasBox p) :=
  inferInstanceAs (Decidable (∃ i < maxBoxes, b.freeBoxes i = false ∧ (b.boxes i).boxName.str = p))

/-- The name in the registration of `w`, if there is a box of that name. -/
def registered (b : Broker) (w : Nat) : Option CStr :=
  if b.HasBox (b.clients w).boxName.str then some (b.clients w).boxName.str else none

/-- A registration finds no slot that is free. -/
def FindsUsed (b : Broker) (w : Nat) : Prop :=
  b.pcs w = .registerBox → ∀ i, b.getBox (b.clients w).boxName.str = some i → b.freeBoxes i = false

theorem handlerOf_inSession (opcode : UInt8) : (handlerOf opcode).InSession = false := by
  unfold handlerOf
  split
  · rfl
  · split
    · rfl
    · split
      · rfl
      · split <;> rfl

theorem ended_of_setPc (h : pc.InSession = false) : ((x.setPc w pc).pcs w).InSession = false := by
  rwa [setPc_self]

theorem afterOpen_inSession {next : Pc} (h : b.afterOpen pc = some next) :
    next.InSession = false := by
  cases pc <;> cases h <;> rfl

theorem Removes.inSession (h : Removes b w x) (hpc : b.pcs w = .removeBody) :
    (x.pcs w).InSession = false := by
  cases h with
  | @crash _ y _ _ _ hfinish =>
    -- the worker stands where it was
    have hstay : y.crash.pcs w = .removeBody := (congrFun (Kept.of_finish hfinish).pcs w).trans hpc
    rw [hstay]
    rfl
  | _ => exact ended_of_setPc rfl

theorem Serves.inSession (h : Serves b w pc a x) (hpc : b.pcs w = pc)
    (hregister : pc ≠ .registerBox) :
    (x.pcs w).InSession = false := by
  cases h with
  | request => exact ended_of_setPc (handlerOf_inSession _)
  | @returned result =>
    unfold Broker.returned
    split
    · split
      · rw [show b.crash.pcs = b.pcs from rfl, hpc]
        rfl
      · exact ended_of_setPc rfl
    · exact ended_of_setPc rfl
  | opened hnext => exact ended_of_setPc (afterOpen_inSession hnext)
  | registerBox => exact absurd rfl hregister
  | createCrash =>
    rw [show b.crash.pcs = b.pcs from rfl, hpc]
    rfl
  | removeBody => exact (removeBody_removes b w).inSession hpc
  | _ => exact ended_of_setPc rfl

/-- A session begins with its registration. -/
theorem step_inSession (hs : b.step (w, a) = some b') (hout : (b.pcs w).InSession = false)
    (hregister : b.pcs w ≠ .registerBox) : (b'.pcs w).InSession = false :=
  (step_serves hs hout).inSession rfl hregister

theorem Seated.crash (h : Seated b name w) : Seated b.crash name w :=
  ⟨h.attached, h.flight, h.locked, h.history, h.waiting, h.cursor, h.reading⟩

/-- The session goes on at `pc`, on the same slot. -/
theorem Seated.moves (h : Seated b name w) (pc : Pc) (hsession : (b.pcs w).InSession = true)
    (hpc : x.pcs w = pc)
    (htable : SameTable b x) (hbox : (x.clients w).box = (b.clients w).box)
    (hname : (x.clients w).boxName = (b.clients w).boxName)
    (hflight : ∀ i, pc.inFlight = some i → (b.pcs w).inFlight = some i ∨ (b.clients w).box = some i)
    (hlocked : ∀ i message, pc.publishing = some (i, message) → (x.boxes i).lock = some w)
    (hhistory : ∀ i, pc.InHistory = true → (b.clients w).box = some i → (x.boxes i).lock = some w)
    (hwaiting : ∀ i, pc ≠ .historyLock i)
    (hcursor : ∀ i message fh, pc = .pubWrite i message fh →
      validPathname (some (b.path i)) = true ∧
      ∃ c, x.tfs.file (b.path i).tail = some c ∧ x.tfs.Cursor fh (b.path i).tail c.length)
    (hreading : pc.Reads = true → (x.clients w).boxFd = -1 ∨
      ∃ fd : Nat, (x.clients w).boxFd = fd ∧ x.tfs.IsOpen fd) : Seated x name w := by
  subst hpc
  have hfree : ∀ i, x.freeBoxes i = b.freeBoxes i := congrFun htable.freeBoxes
  have hpath : ∀ i, x.path i = b.path i := fun i => path_eq (htable.boxName i)
  refine ⟨fun i _ hi => ?_, fun i hf => ?_, hlocked, fun i hh hi => hhistory i hh (hbox ▸ hi),
    fun i j hp => absurd hp (hwaiting i), fun i m fh hp => ?_, hreading⟩
  · rw [hfree, hpath, hname]
    exact h.attached i hsession (hbox ▸ hi)
  · rw [hfree, hpath]
    rcases hflight i hf with hold | hold
    · exact h.flight i hold
    · obtain ⟨hlt, hused, -, hregistered⟩ := h.attached i hsession hold
      exact ⟨hlt, hused, hregistered⟩
  · rw [fileOf, hpath]
    exact hcursor i m fh hp

/-- A loop of a subscriber goes on. -/
theorem Seated.moves_reading (h : Seated b name w) (pc : Pc)
    (hold : (b.pcs w).Reads = true) (hpc : x.pcs w = pc)
    (hreads : pc.Reads = true) (htable : SameTable b x)
    (hbox : (x.clients w).box = (b.clients w).box)
    (hname : (x.clients w).boxName = (b.clients w).boxName)
    (hfd : (x.clients w).boxFd = (b.clients w).boxFd)
    (hhistory : ∀ i, pc.InHistory = true → (b.clients w).box = some i → (x.boxes i).lock = some w)
    (hopen : ∀ fd, b.tfs.IsOpen fd → x.tfs.IsOpen fd) : Seated x name w := by
  have hnone := Pc.inFlight_of_reads hreads
  refine h.moves pc (Pc.inSession_of_reads hold) hpc htable hbox hname (fun i hc => ?_)
    (fun i m hc => ?_) hhistory
    (fun i hc => ?_) (fun i m fh hc => ?_) fun _ => ?_
  · rw [hnone] at hc
    cases hc
  · rw [Pc.inFlight_of_publishing hc] at hnone
    cases hnone
  · rw [hc] at hreads
    cases hreads
  · rw [hc] at hreads
    cases hreads
  · rw [hfd]
    exact (h.reading hold).imp_right fun ⟨fd, hfd, ho⟩ => ⟨fd, hfd, hopen fd ho⟩

/-- The handle of a publish that begins. -/
theorem pubOpen_cursor (hrobust : Robust b.tfs)
    (ho : tfsOpen b.tfs (some (b.path i)) tfsOAppend = .ok (t, fh))
    (hpos : 0 ≤ fh) : validPathname (some (b.path i)) = true ∧
      ∃ c, t.file (b.path i).tail = some c ∧ t.Cursor fh (b.path i).tail c.length := by
  have hopened := called_open hrobust ho
  obtain ⟨p, c, hp, hvalid, hfile, hcursor⟩ := hopened.append hpos fun p hp hvalid hnone => by
    rw [hp] at ho hvalid
    rw [tfsOpen_absent hrobust.toFilesWf hvalid hnone (by decide)] at ho
    cases ho
    exact absurd hpos (by decide)
  obtain rfl := Option.some.inj hp
  exact ⟨hvalid, c, hfile, hcursor⟩

/-- A section after which the session goes on. -/
theorem Seated.continues (h : Seated b name w) (hrobust : Robust b.tfs)
    (hs : b.step (w, a) = some b')
    (hin : (b.pcs w).InSession = true) (hc : Continues b w (b.pcs w) b') : Seated b' name w := by
  have hopen := fun fd (ho : b.tfs.IsOpen fd) => step_isOpen hrobust hs ho
  have hnot : ∀ pc : Pc, pc.InSession = false → b.pcs w ≠ pc := by
    rintro pc hout rfl
    rw [hin] at hout
    cases hout
  have htable := (step_around hs (hnot _ rfl) (hnot _ rfl) h.locked h.history).table
  have hlocked := h.locked
  have hhistory := h.history
  have hwaiting := h.waiting
  have hgoes := fun pc => h.moves (x := b') pc hin
  have hreads := fun pc => h.moves_reading (x := b') pc
  have hflight : ∀ i, (b.pcs w).inFlight = some i → (b.pcs w).inFlight = some i ∨
    (b.clients w).box = some i :=
    fun _ => Or.inl
  -- `hreads` is for the sections of the two loops after the box is open.
  generalize b.pcs w = pc at *
  cases hc with
  | pubOpcode =>
    exact hgoes _ (setPc_self ..) htable rfl rfl nofun nofun nofun nofun nofun nofun
  | pubMessage hbox =>
    refine hgoes _ (setPc_self ..) htable rfl rfl (fun j hj => ?_) nofun nofun nofun nofun nofun
    cases hj
    exact Or.inr hbox
  | pubLock hfree =>
    refine hgoes _ (setPc_self ..) htable rfl rfl hflight (fun j m hp => ?_) nofun nofun nofun nofun
    cases hp
    exact congrArg Box.lock (setBox_self ..)
  | pubOpen ho hpos =>
    refine hgoes _ (setPc_self ..) htable rfl rfl hflight hlocked nofun nofun
      (fun j m fh hp => ?_) nofun
    cases hp
    exact pubOpen_cursor hrobust ho hpos
  | pubWrite hw hwhole =>
    exact hgoes _ (setPc_self ..) htable rfl rfl hflight hlocked nofun nofun nofun nofun
  | pubCount =>
    exact hgoes _ (setPc_self ..) htable rfl rfl nofun nofun nofun nofun nofun nofun
  | @historyLock i hfree =>
    refine hgoes _ (setPc_self ..) htable rfl rfl nofun nofun (fun j _ hj => ?_) nofun nofun nofun
    obtain rfl := hwaiting i j rfl hj
    exact congrArg Box.lock (setBox_self ..)
  | historyOpen ho hpos =>
    refine hgoes _ (setPc_self ..) htable ?_ ?_ nofun nofun
      (fun j _ hj => hhistory j rfl hj) nofun nofun
      fun _ => Or.inr ?_
    · exact field_setClient Client.box rfl
    · exact field_setClient Client.boxName rfl
    · refine ⟨_, (congrArg Client.boxFd (setClient_self ..)).trans ?_,
        (called_open hrobust ho).handle_open hpos⟩
      exact (Int.toNat_of_nonneg hpos).symm
  | historyTest =>
    exact hreads _ rfl (setPc_self ..) rfl htable rfl rfl rfl (fun j _ => hhistory j rfl) hopen
  | historyNone => exact hreads _ rfl (setPc_self ..) rfl htable rfl rfl rfl nofun hopen
  | historyRead =>
    exact hreads _ rfl (setPc_self ..) rfl htable rfl rfl rfl (fun j _ => hhistory j rfl) hopen
  | historyEnd => exact hreads _ rfl (setPc_self ..) rfl htable rfl rfl rfl nofun hopen
  | historySendOp _ _ hx =>
    obtain ⟨sent, rfl⟩ := emit_sent hx
    exact hreads _ rfl (setPc_self ..) rfl htable rfl rfl rfl (fun j _ => hhistory j rfl) hopen
  | historyNext hx =>
    obtain ⟨sent, rfl⟩ := emit_sent hx
    exact hreads _ rfl (setPc_self ..) rfl htable rfl rfl rfl (fun j _ => hhistory j rfl) hopen
  | historyLast hx =>
    obtain ⟨sent, rfl⟩ := emit_sent hx
    exact hreads _ rfl (setPc_self ..) rfl htable (field_setClient Client.box rfl)
      (field_setClient Client.boxName rfl) (field_setClient Client.boxFd rfl)
      (fun j _ => hhistory j rfl) hopen
  | sleep => exact hreads _ rfl (setPc_self ..) rfl htable rfl rfl rfl nofun hopen
  | followLock => exact hreads _ rfl (setPc_self ..) rfl htable rfl rfl rfl nofun hopen
  | wake => exact hreads _ rfl (setPc_self ..) rfl htable rfl rfl rfl nofun hopen
  | followRead => exact hreads _ rfl (setPc_self ..) rfl htable rfl rfl rfl nofun hopen
  | followSendOp hx =>
    obtain ⟨sent, rfl⟩ := emit_sent hx
    exact hreads _ rfl (setPc_self ..) rfl htable rfl rfl rfl nofun hopen
  | followSendMessage hx =>
    obtain ⟨sent, rfl⟩ := emit_sent hx
    exact hreads _ rfl (setPc_self ..) rfl htable (field_setClient Client.box rfl)
      (field_setClient Client.boxName rfl) (field_setClient Client.boxFd rfl) nofun hopen

/-- A registration that is accepted. -/
theorem Seated.joins (hg : b.getBox (b.clients w).boxName.str = some i)
    (hused : b.freeBoxes i = false)
    (htable : SameTable b x) (hc : x.clients w = { b.clients w with box := some i })
    (hpc : x.pcs w = pc)
    (hflight : pc.inFlight = none) (hhistory : pc.InHistory = false) (hreads : pc.Reads = false)
    (hwaiting : ∀ j, pc = .historyLock j → i = j) : Seated x (b.registered w) w := by
  subst hpc
  obtain ⟨hi, hname⟩ := getBox_eq_some hg
  have hhas : b.HasBox (b.clients w).boxName.str := ⟨i, hi, hused, hname⟩
  refine ⟨fun j _ hj => ?_, fun j hf => ?_, fun j m hp => ?_, fun j hh => ?_, fun j k hp hk => ?_,
    fun j m fh hp => ?_, fun hr => ?_⟩
  · rw [hc] at hj ⊢
    obtain rfl := Option.some.inj hj
    have hpath : x.path i = (b.clients w).boxName.str := (path_eq (htable.boxName i)).trans hname
    exact ⟨hi, (congrFun htable.freeBoxes i).trans hused,
      hpath, by rw [registered, if_pos hhas, hpath]⟩
  · rw [hflight] at hf
    cases hf
  · rw [Pc.inFlight_of_publishing hp] at hflight
    cases hflight
  · rw [hhistory] at hh
    cases hh
  · rw [hc] at hk
    obtain rfl := Option.some.inj hk
    exact hwaiting j hp
  · rw [hp] at hflight
    cases hflight
  · rw [hreads] at hr
    cases hr

theorem registerBox_of_step (hs : b.step (w, a) = some b') (hpc : b.pcs w = .registerBox) :
    ∃ stack, b' = b.registerBox w stack := by
  replace hs := (step_eq_some.mp hs).2.2
  dsimp only at hs
  rw [hpc] at hs
  cases a with
  | stack garbage =>
    dsimp only [stepWorker] at hs
    split at hs
    · exact ⟨garbage, (Option.some.inj hs).symm⟩
    · cases hs
  | _ => cases hs

theorem registerBox_seated (hpc : b.pcs w = .registerBox) (hok : FindsUsed b w)
    (stack : List UInt8) :
    Seated (b.registerBox w stack) (b.registered w) w := by
  have htable := (registerBox_around (b := b) (w := w) stack).table
  cases hg : b.getBox (b.clients w).boxName.str with
  | none =>
    rw [registerBox_absent hg]
    exact .ended (ended_of_setPc rfl)
  | some i =>
    have hused := hok hpc i hg
    by_cases hop : (b.clients w).opcode = opCodeRegistPub
    · by_cases hone : (b.boxes i).nPublishers = 1
      · rw [registerBox_rejected hg hop hone]
        exact .ended (ended_of_setPc rfl)
      · rw [registerBox_publisher hg hop hone] at htable ⊢
        exact .joins hg hused htable (setClient_self ..) (setPc_self ..) rfl rfl rfl nofun
    · rw [registerBox_subscriber hg hop] at htable ⊢
      refine .joins hg hused htable (setClient_self ..) (setPc_self ..) rfl rfl rfl fun j hj => ?_
      cases hj
      rfl

/-- The names after a section of `w`. -/
def renamed (b : Broker) (named : Nat → Option CStr) (w : Nat) : Nat → Option CStr :=
  if b.pcs w = .registerBox then Function.update named w (b.registered w) else named

/-- The session of the worker after a section. -/
theorem Placed.own (h : Placed b named) (hs : b.step (w, a) = some b') (hok : FindsUsed b w) :
    Seated b' (b.renamed named w w) w := by
  by_cases hregister : b.pcs w = .registerBox
  · rw [renamed, if_pos hregister, Function.update_self]
    obtain ⟨stack, rfl⟩ := registerBox_of_step hs hregister
    exact registerBox_seated hregister hok stack
  · rw [renamed, if_neg hregister]
    have hseated := h.seated w
    cases hin : (b.pcs w).InSession with
    | false => exact .ended (step_inSession hs hin hregister)
    | true =>
      rcases step_session hs hin with hends | hcrash | hgoes
      · exact .ended hends.ended
      · have hopen := fun fd (ho : b.tfs.IsOpen fd) => step_isOpen h.robust hs ho
        generalize hpc : b.pcs w = pc at hcrash
        cases hcrash with
        | crash => exact hseated.crash
        | historyRead =>
          refine hseated.moves_reading _ (by rw [hpc]; rfl) hpc rfl
            ⟨rfl, rfl, fun _ => rfl⟩ rfl rfl rfl
            (fun i _ => hseated.history i (by rw [hpc]; rfl)) hopen
      · exact hseated.continues h.robust hs hin hgoes

/-! ## Steps -/

/-- A worker that is in a loop after a section was in it before, or registers. -/
theorem session_before (hs : b.step (w, a) = some b') (hin : (b'.pcs w).InSession = true)
    (hregister : b.pcs w ≠ .registerBox) : (b.pcs w).InSession = true := by
  by_contra hout
  rw [step_inSession hs (Bool.not_eq_true _ ▸ hout) hregister] at hin
  cases hin

/-- A registration does not leave its worker where it reads or writes. -/
theorem registerBox_pcs (b : Broker) (w : Nat) (stack : List UInt8) :
    ((b.registerBox w stack).pcs w).Reads = false ∧
    ((b.registerBox w stack).pcs w).inFlight = none := by
  have hat : ∀ {y : Broker} {pc : Pc}, pc.Reads = false → pc.inFlight = none →
      ((y.setPc w pc).pcs w).Reads = false ∧ ((y.setPc w pc).pcs w).inFlight = none := by
    intro y pc hreads hflight
    rw [setPc_self]
    exact ⟨hreads, hflight⟩
  cases hg : b.getBox (b.clients w).boxName.str with
  | none =>
    rw [registerBox_absent hg]
    exact hat rfl rfl
  | some i =>
    by_cases hop : (b.clients w).opcode = opCodeRegistPub
    · by_cases hone : (b.boxes i).nPublishers = 1
      · rw [registerBox_rejected hg hop hone]
        exact hat rfl rfl
      · rw [registerBox_publisher hg hop hone]
        exact hat rfl rfl
    · rw [registerBox_subscriber hg hop]
      exact hat rfl rfl

/-- A subscriber that reads was reading, or has just opened its box. -/
theorem reads_before (hs : b.step (w, a) = some b') (hreads : (b'.pcs w).Reads = true) :
    ((b.pcs w).Reads = true ∧ (b'.clients w).boxFd = (b.clients w).boxFd) ∨
      tfsOpen b.tfs (some (b.clients w).boxName.str) tfsOCreat
        = .ok (b'.tfs, (b'.clients w).boxFd) := by
  have hregister : b.pcs w ≠ .registerBox := by
    intro hpc
    obtain ⟨stack, rfl⟩ := registerBox_of_step hs hpc
    rw [(registerBox_pcs b w stack).1] at hreads
    cases hreads
  rcases step_session hs (session_before hs (Pc.inSession_of_reads hreads) hregister) with
    hends | hcrash | hgoes
  · have hout := hends.ended
    rw [Pc.inSession_of_reads hreads] at hout
    cases hout
  · obtain ⟨hpcs, hclients⟩ := hcrash.same
    rw [hpcs] at hreads
    exact Or.inl ⟨hreads, by rw [hclients]⟩
  · have hset : ∀ {y : Broker} {pc : Pc}, ((y.setPc w pc).pcs w).Reads = true →
      pc.Reads = true := by
      intro y pc hr
      rwa [setPc_self] at hr
    generalize b.pcs w = pc at hgoes
    cases hgoes with
    | pubOpcode => cases hset hreads
    | pubMessage => cases hset hreads
    | pubLock => cases hset hreads
    | pubOpen => cases hset hreads
    | pubWrite => cases hset hreads
    | pubCount => cases hset hreads
    | historyLock => cases hset hreads
    -- The one section that opens a handle for reading.
    | @historyOpen t fhandle ho =>
      have hfd : ((({ b with tfs := t } : Broker).setClient w
          { b.clients w with boxFd := fhandle }).clients w).boxFd = fhandle :=
        congrArg Client.boxFd (setClient_self ..)
      exact Or.inr (ho.trans (congrArg (fun r => Except.ok (t, r)) hfd.symm))
    | historyTest => exact Or.inl ⟨rfl, rfl⟩
    | historyNone => exact Or.inl ⟨rfl, rfl⟩
    | historyRead => exact Or.inl ⟨rfl, rfl⟩
    | historyEnd => exact Or.inl ⟨rfl, rfl⟩
    | historySendOp _ _ hx =>
      obtain ⟨sent, rfl⟩ := emit_sent hx
      exact Or.inl ⟨rfl, rfl⟩
    | historyNext hx =>
      obtain ⟨sent, rfl⟩ := emit_sent hx
      exact Or.inl ⟨rfl, rfl⟩
    | historyLast hx =>
      obtain ⟨sent, rfl⟩ := emit_sent hx
      exact Or.inl ⟨rfl, field_setClient Client.boxFd rfl⟩
    | sleep => exact Or.inl ⟨rfl, rfl⟩
    | followLock => exact Or.inl ⟨rfl, rfl⟩
    | wake => exact Or.inl ⟨rfl, rfl⟩
    | followRead => exact Or.inl ⟨rfl, rfl⟩
    | followSendOp hx =>
      obtain ⟨sent, rfl⟩ := emit_sent hx
      exact Or.inl ⟨rfl, rfl⟩
    | followSendMessage hx =>
      obtain ⟨sent, rfl⟩ := emit_sent hx
      exact Or.inl ⟨rfl, field_setClient Client.boxFd rfl⟩

/-- A publish at its write was there, or has just opened the file. -/
theorem pubWrite_before (hs : b.step (w, a) = some b') (hpc : b'.pcs w = .pubWrite i message fh) :
    b.pcs w = .pubWrite i message fh ∨
      tfsOpen b.tfs (some (b.path i)) tfsOAppend = .ok (b'.tfs, fh) := by
  have hflight : (b'.pcs w).inFlight = some i := by
    rw [hpc]
    rfl
  have hregister : b.pcs w ≠ .registerBox := by
    intro hat
    obtain ⟨stack, rfl⟩ := registerBox_of_step hs hat
    rw [(registerBox_pcs b w stack).2] at hflight
    cases hflight
  rcases step_session hs (session_before hs (Pc.inSession_of_inFlight hflight) hregister) with
    hends | hcrash | hgoes
  · have hout := hends.ended
    rw [Pc.inSession_of_inFlight hflight] at hout
    cases hout
  · rw [hcrash.same.1] at hpc
    exact Or.inl hpc
  · have hset : ∀ {y : Broker} {pc : Pc}, (y.setPc w pc).pcs w = .pubWrite i message fh →
        pc = .pubWrite i message fh := by
      intro y pc hp
      rwa [setPc_self] at hp
    generalize b.pcs w = pc at hgoes
    cases hgoes with
    | pubOpen ho =>
      cases hset hpc
      exact Or.inr ho
    | _ => cases hset hpc

/-- No handle of a subscriber is that of a publish. -/
theorem Placed.apart_step (h : Placed b named) (hs : b.step (w, a) = some b')
    (hok : FindsUsed b w) {v u : Nat}
    (hreads : (b'.pcs v).Reads = true) (hwrite : b'.pcs u = .pubWrite i message fh) :
    (b'.clients v).boxFd ≠ fh := by
  have hother : ∀ v ≠ w, (b'.pcs v).Reads = true →
      ((b.pcs v).Reads = true ∧ b'.clients v = b.clients v) ∨ (b'.clients v).boxFd = -1 := by
    intro v hv hreads
    rcases step_recorded hs hv with hsame | hfinished
    · refine Or.inl ⟨?_, hsame⟩
      rcases step_others hs hv with hstill | ⟨i, n, hasleep, -⟩
      · rwa [← hstill]
      · rw [hasleep]
        rfl
    · exact Or.inr hfinished.2
  have hstill : ∀ u ≠ w, b'.pcs u = .pubWrite i message fh → b.pcs u = .pubWrite i message fh := by
    intro u hu hpc
    rcases step_others hs hu with hsame | ⟨i, n, -, hwoken⟩
    · rwa [← hsame]
    · rw [hwoken] at hpc
      cases hpc
  have hne : v ≠ u := by
    rintro rfl
    rw [hwrite] at hreads
    cases hreads
  have hfinished : ∀ {v : Nat}, 0 ≤ fh → (b'.clients v).boxFd = -1 → (b'.clients v).boxFd ≠ fh := by
    intro v hpos hfd
    rw [hfd]
    omega
  by_cases hu : u = w
  · subst hu
    rcases pubWrite_before hs hwrite with hold | ho
    · obtain ⟨-, c, -, hcur⟩ := (h.seated u).cursor i message fh hold
      rcases hother v hne hreads with ⟨hread, hsame⟩ | hfd
      · rw [hsame]
        exact h.apart v u i message fh hread hold
      · exact hfinished hcur.nonneg hfd
    · -- the handle is a new one
      have hpos : 0 ≤ fh := by
        obtain ⟨-, c, -, hcur⟩ := (h.own hs hok).cursor i message fh hwrite
        exact hcur.nonneg
      rcases hother v hne hreads with ⟨hread, hsame⟩ | hfd
      · rcases (h.seated v).reading hread with hfd | ⟨fd, hfd, hopen⟩
        · exact hfinished hpos (hsame ▸ hfd)
        · rw [hsame, hfd]
          exact fun heq => ((called_open h.robust ho).isOpen (by decide) hopen).2 heq.symm
      · exact hfinished hpos hfd
  · have hold := hstill u hu hwrite
    obtain ⟨-, c, -, hcur⟩ := (h.seated u).cursor i message fh hold
    by_cases hv : v = w
    · subst hv
      rcases reads_before hs hreads with ⟨hread, hfd⟩ | ho
      · rw [hfd]
        exact h.apart v u i message fh hread hold
      · exact ((called_open h.robust ho).cursor h.robust.toFilesWf (by decide) hcur).1.symm
    · rcases hother v hv hreads with ⟨hread, hsame⟩ | hfd
      · rw [hsame]
        exact h.apart v u i message fh hread hold
      · exact hfinished hcur.nonneg hfd

/-- No two slots have one name, but for those that have none. -/
theorem Placed.distinct_step (h : Placed b named) (hs : b.step (w, a) = some b') :
    ∀ i < maxBoxes, ∀ j < maxBoxes, b'.path i ≠ .empty → b'.path i = b'.path j → i = j := by
  have hd : Distinct b := h.distinct
  by_cases hremove : b.pcs w = .removeBody
  · obtain rfl := removeBody_of_step hs hremove
    exact (removeBody_removes b w).slots.distinct hd
  · by_cases hcreate : b.pcs w = .createLock
    · exact (createLock_of_step hs hcreate).distinct hd
    · exact (step_around hs hcreate hremove (h.seated w).locked
        (h.seated w).history).table.distinct hd

/-- The step lemma: sessions stay on boxes of their names. -/
theorem Placed.step (h : Placed b named) (hs : b.step (w, a) = some b') (hfinds : FindsUsed b w)
    (hok : Unhurried b w) : Placed b' (b.renamed named w) where
  robust := by
    rcases step_calls hs with hsame | hcall
    · rw [hsame]
      exact h.robust
    · exact hcall.robust h.robust
  distinct := h.distinct_step hs
  outside v hv := by
    rw [step_maxSessions hs] at hv
    have hne : v ≠ w := by
      rintro rfl
      exact absurd (step_eq_some.mp hs).2.1 (Nat.not_lt.mpr hv)
    exact (step_others hs hne).keep (P := fun pc => pc = .idle) nofun (h.outside v hv)
  seated v := by
    by_cases hv : v = w
    · subst hv
      exact h.own hs hfinds
    · have hname : b.renamed named w v = named v := by
        rw [renamed]
        split
        · exact Function.update_of_ne hv ..
        · rfl
      exact hname ▸ h.others hs hok hv
  apart v u i message fh := h.apart_step hs hfinds

end Broker

end MBroker
