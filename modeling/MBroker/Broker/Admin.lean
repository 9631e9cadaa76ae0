import MBroker.Broker.Sessions
import MBroker.Broker.Visits

/-!
# Create and remove requests at the same time

The sections of several workers come in any order. The table changes under
`boxes_lock`, but `handle_tfs_create_box` opens the file after it has given the lock
back, and does so too when it is going to answer an error. `handle_tfs_remove_box`
finishes the sessions of all other workers whose records carry the name of the box.

Results:
1. `Workers.move`, `Matched.same`: how a section of one worker keeps what is known of
   the others, and of the boxes and their files.
2. `Sound.step`: a section of a run that is granted what it needs, and in which the
   requests stay apart.
3. `serve_orderly`: a request that nothing stands in the way of is served in such a run.
4. `admin_safe`: in every such run no handler returns -1 or gets stuck, and the boxes
   have the files whenever no request is being served.
5. `remove_twice`: the second remove request that a worker serves returns -1.
-/

namespace MBroker

open FirstFit Transition Fs

/-- The record of a worker that serves a create or remove request. -/
structure Client.Asked (c : Client) : Prop where
  opcode : c.opcode = opCodeCreateBox ∨ c.opcode = opCodeRemoveBox
  name : validPathname (some c.boxName.str) = true

/-- The client's pipe is open. -/
def Client.HasPipe (c : Client) (fds : Nat → Bool) : Prop :=
  ∃ j : Nat, c.clientPipe = j ∧ fds j = true

namespace Pc

/-- The worker has opened its client's pipe. -/
def Piped : Pc → Prop
  | .createFile .. | .removeBody | .answering .. => True
  | _ => False

/-- The worker holds `boxes_lock`. -/
def HoldsLock : Pc → Prop
  | .removeOpen | .removeBody | .answering _ true => True
  | _ => False

/-- The worker has decided about a new box, and has not opened its file yet. -/
def Opening : Pc → Prop
  | .createOpen .. | .createFile .. => True
  | _ => False

/-- A handler is in progress. -/
def Serving : Pc → Prop
  | .idle | .ret _ | .closing => False
  | _ => True

/-- More than the sections that are left until the worker is back in its loop. -/
def sectionsLeft : Pc → Nat
  | .ret _ => 1
  | .answering writes _ => writes.length + 2
  | .createLock => 8
  | .createOpen .. => 7
  | .createFile .. => 6
  | .removeLock => 8
  | .removeOpen => 7
  | .removeBody => 6
  | _ => 0

/-- What the record of a worker is where it stands. -/
def Fits (fds : Nat → Bool) (c : Client) : Pc → Prop
  | .idle => True
  | .ret result => result = 0
  | .createLock | .createOpen .. | .removeLock | .removeOpen => c.Asked
  | .createFile .. | .removeBody => c.Asked ∧ c.HasPipe fds
  | .answering _ locked => c.Asked ∧ c.HasPipe fds ∧ (locked = false → c.boxFd ≠ -1)
  | _ => False

theorem Fits.asked {fds : Nat → Bool} {c : Client} {pc : Pc} (h : pc.Fits fds c) (hs : pc.Serving) :
    c.Asked := by
  cases pc <;> first | exact hs.elim | exact h.elim | exact h | exact h.1

theorem Fits.hasPipe {fds : Nat → Bool} {c : Client} {pc : Pc} (h : pc.Fits fds c) (hp : pc.Piped) :
    c.HasPipe fds := by
  cases pc <;> first | exact hp.elim | exact h.2.1 | exact h.2

/-- Only the descriptor of the client's pipe matters. -/
theorem Fits.of_fds {fds fds' : Nat → Bool} {c : Client} {pc : Pc} (h : pc.Fits fds c)
    (hfds : pc.Piped → c.HasPipe fds → c.HasPipe fds') : pc.Fits fds' c := by
  cases pc with
  | createFile => exact ⟨h.1, hfds trivial h.2⟩
  | removeBody => exact ⟨h.1, hfds trivial h.2⟩
  | answering => exact ⟨h.1, hfds trivial h.2.1, h.2.2⟩
  | _ => exact h

theorem HoldsLock.serving {pc : Pc} (h : pc.HoldsLock) : pc.Serving := by
  cases pc <;> first | exact h.elim | trivial

theorem Opening.serving {pc : Pc} (h : pc.Opening) : pc.Serving := by
  cases pc <;> first | exact h.elim | trivial

theorem Serving.ne_idle {pc : Pc} (h : pc.Serving) : pc ≠ .idle := by
  rintro rfl
  exact h

end Pc

namespace Broker

variable {b b' x : Broker} {w i : Nat} {p : CStr} {pc : Pc}

/-! ## The workers -/

/-- Where the workers stand, and what their records are. -/
structure Workers (b : Broker) : Prop where
  running : b.stopped = false
  worker : ∀ w, b.pcs w ≠ .idle → w < b.maxSessions
  fits : ∀ w, (b.pcs w).Fits b.fds (b.clients w)
  pipes : ∀ v w, v ≠ w → (b.pcs v).Piped → (b.pcs w).Piped →
    (b.clients v).clientPipe ≠ (b.clients w).clientPipe
  lock : ∀ w, b.boxesLock = some w → (b.pcs w).HoldsLock

/-- In the section from `b` to `x` worker `w` moves to `pc`, and no other. -/
structure Moves (b x : Broker) (w : Nat) (pc : Pc) : Prop where
  maxSessions : x.maxSessions = b.maxSessions
  stopped : x.stopped = b.stopped
  pcs : x.pcs = Function.update b.pcs w pc
  clients : ∀ v, v ≠ w → x.clients v = b.clients v
  left : b.pcs w ≠ .idle → pc.sectionsLeft < (b.pcs w).sectionsLeft

/-- The descriptors may change, but not those of the other workers' pipes. -/
def PipesKept (b x : Broker) (w : Nat) (pc : Pc) : Prop :=
  ∀ v, v ≠ w → (b.pcs v).Piped → ∀ j : Nat, (b.clients v).clientPipe = j → b.fds j = true →
    x.fds j = true ∧ (pc.Piped → (x.clients w).clientPipe ≠ j)

/-- `boxes_lock` is where it was, is given back, or is taken. -/
def LockMoves (b x : Broker) (w : Nat) (pc : Pc) : Prop :=
  ∀ v, x.boxesLock = some v → (v = w ∧ pc.HoldsLock) ∨ (v ≠ w ∧ b.boxesLock = some v)

theorem Moves.self (h : Moves b x w pc) : x.pcs w = pc := by
  rw [h.pcs, Function.update_self]

theorem Moves.other (h : Moves b x w pc) {v : Nat} (hv : v ≠ w) : x.pcs v = b.pcs v := by
  rw [h.pcs, Function.update_of_ne hv]

theorem Workers.move (h : Workers b) (hm : Moves b x w pc) (hw : w < b.maxSessions)
    (hfits : pc.Fits x.fds (x.clients w)) (hpipes : PipesKept b x w pc)
    (hlock : LockMoves b x w pc) :
    Workers x where
  running := hm.stopped.trans h.running
  worker v hv := by
    rw [hm.maxSessions]
    rcases eq_or_ne v w with rfl | hvw
    · exact hw
    · rw [hm.other hvw] at hv
      exact h.worker v hv
  fits v := by
    rcases eq_or_ne v w with rfl | hvw
    · rw [hm.self]
      exact hfits
    · rw [hm.other hvw, hm.clients v hvw]
      refine (h.fits v).of_fds fun hp hj => ?_
      obtain ⟨j, hj, hopen⟩ := hj
      exact ⟨j, hj, (hpipes v hvw hp j hj hopen).1⟩
  pipes := by
    -- Two other workers had different pipes before; only the pipe of `w` may be new.
    have hself : ∀ v, v ≠ w → (x.pcs v).Piped → (x.pcs w).Piped →
        (x.clients w).clientPipe ≠ (x.clients v).clientPipe := by
      intro v hv hp hpw
      rw [hm.other hv] at hp
      rw [hm.self] at hpw
      obtain ⟨j, hj, hopen⟩ := (h.fits v).hasPipe hp
      rw [hm.clients v hv, hj]
      exact (hpipes v hv hp j hj hopen).2 hpw
    intro v u hvu hpv hpu
    by_cases hvw : v = w
    · subst hvw
      exact hself u (Ne.symm hvu) hpu hpv
    · by_cases huw : u = w
      · subst huw
        exact (hself v hvw hpv hpu).symm
      · rw [hm.clients v hvw, hm.clients u huw]
        rw [hm.other hvw] at hpv
        rw [hm.other huw] at hpu
        exact h.pipes v u hvu hpv hpu
  lock v hv := by
    rcases hlock v hv with ⟨rfl, hpc⟩ | ⟨hvw, hold⟩
    · rw [hm.self]
      exact hpc
    · rw [hm.other hvw]
      exact h.lock v hold

/-- A section that leaves the descriptors alone, and opens no pipe. -/
theorem PipesKept.of_same (h : Workers b) (hfds : x.fds = b.fds)
    (hpipe : pc.Piped → (b.pcs w).Piped ∧ (x.clients w).clientPipe = (b.clients w).clientPipe) :
    PipesKept b x w pc := by
  intro v hv hpv j hj hopen
  rw [hfds]
  refine ⟨hopen, fun hp => ?_⟩
  obtain ⟨hpw, heq⟩ := hpipe hp
  rw [heq, ← hj]
  exact h.pipes w v (Ne.symm hv) hpw hpv

/-- The descriptor `fd` was not in use, and is that of the worker's pipe now. -/
theorem PipesKept.of_open {fd : Nat} (hfd : b.fds fd = false)
    (hfds : x.fds = Function.update b.fds fd true) (hpipe : (x.clients w).clientPipe = fd) :
    PipesKept b x w pc := by
  intro v hv hpv j hj hopen
  have hne : j ≠ fd := by
    rintro rfl
    rw [hfd] at hopen
    cases hopen
  rw [hfds, Function.update_of_ne hne, hpipe]
  exact ⟨hopen, fun _ heq => hne (Int.ofNat.inj heq).symm⟩

/-- The worker has closed its pipe. -/
theorem PipesKept.of_close (h : Workers b) {fd : Nat} (hpipe : (b.clients w).clientPipe = fd)
    (hp : (b.pcs w).Piped) (hfds : x.fds = Function.update b.fds fd false) (hpc : ¬ pc.Piped) :
    PipesKept b x w pc := by
  intro v hv hpv j hj hopen
  have hne : j ≠ fd := by
    rintro rfl
    exact h.pipes w v (Ne.symm hv) hp hpv (hpipe.trans hj.symm)
  rw [hfds, Function.update_of_ne hne]
  exact ⟨hopen, fun hpc' => absurd hpc' hpc⟩

/-- A section that leaves `boxes_lock` alone. -/
theorem LockMoves.of_same (h : Workers b) (hlock : x.boxesLock = b.boxesLock)
    (hpc : (b.pcs w).HoldsLock → pc.HoldsLock) : LockMoves b x w pc := by
  intro v hv
  rw [hlock] at hv
  rcases eq_or_ne v w with rfl | hvw
  · exact Or.inl ⟨rfl, hpc (h.lock v hv)⟩
  · exact Or.inr ⟨hvw, hv⟩

/-! ## The boxes and their files -/

/-- A create request for this box is past its decision, and has not opened the file. -/
def WillOpen (b : Broker) (p : CStr) : Prop :=
  ∃ w, (b.pcs w).Opening ∧ (b.clients w).boxName.str = p

/-- Every file has its box, and every box its file or a worker that is about to open
it. -/
structure Matched (b : Broker) : Prop where
  wf : WellFormed b.tfs
  params : b.tfs.fsParams = brokerParams
  table : TableInvariant b
  valid : ∀ p, b.HasBox p → validPathname (some p) = true
  box : ∀ n, b.tfs.file n ≠ none → ∃ p, b.HasBox p ∧ p.tail = n
  file : ∀ p, b.HasBox p → b.tfs.file p.tail ≠ none ∨ b.WillOpen p

/-- A section that leaves the table and TecnicoFS alone. -/
theorem Matched.same (h : Matched b) (hs : SameTable b x) (htfs : x.tfs = b.tfs)
    (hopens : ∀ p, b.WillOpen p → x.WillOpen p) : Matched x where
  wf := htfs ▸ h.wf
  params := htfs ▸ h.params
  table := h.table.of_same hs
  valid p hp := h.valid p ((hs.hasBox p).mp hp)
  box n hn := by
    rw [htfs] at hn
    obtain ⟨p, hp, htail⟩ := h.box n hn
    exact ⟨p, (hs.hasBox p).mpr hp, htail⟩
  file p hp := by
    rw [htfs]
    exact (h.file p ((hs.hasBox p).mp hp)).imp id (hopens p)

/-- The other workers open what they opened, and so does `w` if it did. -/
theorem Moves.opens (hm : Moves b x w pc)
    (hw : (b.pcs w).Opening → pc.Opening ∧ (x.clients w).boxName = (b.clients w).boxName) (p : CStr)
    (h : b.WillOpen p) : x.WillOpen p := by
  obtain ⟨v, hv, hp⟩ := h
  rcases eq_or_ne v w with rfl | hvw
  · obtain ⟨hpc, hname⟩ := hw hv
    exact ⟨v, by rw [hm.self]; exact hpc, by rw [hname]; exact hp⟩
  · exact ⟨v, by rw [hm.other hvw]; exact hv, by rw [hm.clients v hvw]; exact hp⟩

/-- When no handler is in progress the boxes have the files. -/
theorem Matched.named (h : Matched b) (hquiet : ∀ w, ¬ (b.pcs w).Serving) : Named b where
  valid := h.valid
  files n := by
    refine ⟨h.box n, ?_⟩
    rintro ⟨p, hp, rfl⟩
    refine (h.file p hp).resolve_right ?_
    rintro ⟨w, hw, -⟩
    exact hquiet w hw.serving

/-- The section of a create request under `boxes_lock`. -/
theorem Matched.add (h : Matched b) {boxName : CharArray 32}
    (hi : firstIndex b.freeBoxes maxBoxes = some i) (hnew : b.getBox boxName.str = none)
    (hn : b.numBoxes ≠ maxBoxes) (hv : validPathname (some boxName.str) = true)
    (hs : SameTable (b.addBox i boxName) x) (htfs : x.tfs = b.tfs) (hself : x.WillOpen boxName.str)
    (hopens : ∀ p, b.WillOpen p → x.WillOpen p) : Matched x := by
  have hbox : ∀ q, x.HasBox q ↔ q = boxName.str ∨ b.HasBox q := fun q =>
    (hs.hasBox q).trans (hasBox_addBox hi)
  refine ⟨htfs ▸ h.wf, htfs ▸ h.params, (h.table.addBox hi hnew hn).of_same hs, fun q hq => ?_,
    fun n hfile => ?_, fun q hq => ?_⟩
  · rcases (hbox q).mp hq with rfl | hold
    · exact hv
    · exact h.valid q hold
  · rw [htfs] at hfile
    obtain ⟨q, hq, htail⟩ := h.box n hfile
    exact ⟨q, (hbox q).mpr (Or.inr hq), htail⟩
  · rw [htfs]
    rcases (hbox q).mp hq with rfl | hold
    · exact Or.inr hself
    · exact (h.file q hold).imp id (hopens q)

/-- The file of a box that is there is opened, and created if need be. -/
theorem Matched.open (h : Matched b) {t : Fs.State} {j : Nat} (hp : b.HasBox p) (hwf : WellFormed t)
    (hparams : t.fsParams = b.tfs.fsParams) (hcreated : Created b.tfs t p.tail j)
    (hs : SameTable b x) (htfs : x.tfs = t) (hopens : ∀ q, q ≠ p → b.WillOpen q → x.WillOpen q) :
    Matched x := by
  have hfile : ∀ n, t.file n ≠ none ↔ n = p.tail ∨ b.tfs.file n ≠ none := by
    intro n
    rw [hcreated.file]
    by_cases hn : n = p.tail <;> by_cases hnone : b.tfs.file p.tail = none <;> simp [hn, hnone]
  refine ⟨htfs ▸ hwf, by rw [htfs, hparams, h.params], h.table.of_same hs,
    fun q hq => h.valid q ((hs.hasBox q).mp hq), fun n hn => ?_, fun q hq => ?_⟩
  · rw [htfs, hfile] at hn
    rcases hn with rfl | hold
    · exact ⟨p, (hs.hasBox p).mpr hp, rfl⟩
    · obtain ⟨q, hq, htail⟩ := h.box n hold
      exact ⟨q, (hs.hasBox q).mpr hq, htail⟩
  · rw [htfs, hfile]
    rcases eq_or_ne q p with rfl | hqp
    · exact Or.inl (Or.inl rfl)
    · exact (h.file q ((hs.hasBox q).mp hq)).imp Or.inr (hopens q hqp)

/-- A box that no create request is about is dropped, and its file. -/
theorem Matched.drop (h : Matched b) {t : Fs.State} (hi : b.getBox p = some i)
    (hv : validPathname (some p) = true) (hwf : WellFormed t)
    (hparams : t.fsParams = b.tfs.fsParams)
    (hfile : ∀ n, t.file n = if n = p.tail then none else b.tfs.file n)
    (hs : SameTable (b.dropBox i t) x) (htfs : x.tfs = t)
    (hopens : ∀ q, b.WillOpen q → x.WillOpen q) :
    Matched x := by
  have hne := ne_empty_of_valid hv
  have hbox : ∀ q, x.HasBox q ↔ q ≠ p ∧ b.HasBox q := fun q =>
    (hs.hasBox q).trans (hasBox_dropBox h.table hi hne t)
  refine ⟨htfs ▸ hwf, by rw [htfs, hparams, h.params],
    (h.table.dropBox (getBox_lt hi) (h.table.getBox_used hi hne) t).of_same hs,
    fun q hq => h.valid q ((hbox q).mp hq).2, fun n hn => ?_, fun q hq => ?_⟩
  · rw [htfs, hfile] at hn
    have hnp : n ≠ p.tail := fun heq => hn (if_pos heq)
    rw [if_neg hnp] at hn
    obtain ⟨q, hq, rfl⟩ := h.box n hn
    exact ⟨q, (hbox q).mpr ⟨fun hqp => hnp (congrArg CStr.tail hqp), hq⟩, rfl⟩
  · obtain ⟨hqp, hold⟩ := (hbox q).mp hq
    have htail : q.tail ≠ p.tail := fun heq => hqp (path_of_tail (h.valid q hold) hv heq)
    rw [htfs, hfile, if_neg htail]
    exact (h.file q hold).imp id (hopens q)

/-! ## Sections -/

/-- What a run of create and remove requests is granted: valid names, pipes that open
and take every write whole, and room in TecnicoFS. -/
def Granted (b : Broker) (e : Nat × Answer) : Prop :=
  match b.pcs e.1, e.2 with
  | _, .request r => (r.opcode = opCodeCreateBox ∨ r.opcode = opCodeRemoveBox) ∧
      validPathname (some r.boxName.str) = true
  | _, .opened _ fd => fd ≠ none
  | .answering (bytes :: _) _, .wrote result => result = .wrote bytes.length
  | .createFile .., _ => b.tfs.freeInode ≠ none ∧ b.tfs.freeHandle ≠ none
  | _, _ => True

/-- The requests stay apart: the box is still there when its file is opened, nobody
else's record carries the name of a box that is removed, and a remove request ends
with a handle in its record. -/
def Apart (b : Broker) (e : Nat × Answer) : Prop :=
  match b.pcs e.1 with
  | .createFile .. => b.getBox (b.clients e.1).boxName.str ≠ none
  | .removeBody => b.getBox (b.clients e.1).boxName.str ≠ none →
      ∀ v < b.maxSessions, v ≠ e.1 → (b.clients v).boxName.str ≠ (b.clients e.1).boxName.str
  | .answering [] true => (b.clients e.1).boxFd ≠ -1
  | _ => True

def Orderly (b : Broker) (e : Nat × Answer) : Prop := Granted b e ∧ Apart b e

instance (b : Broker) (e : Nat × Answer) : Decidable (Granted b e) := by
  unfold Granted
  split <;> infer_instance

instance (b : Broker) (e : Nat × Answer) : Decidable (Apart b e) := by
  unfold Apart
  split <;> infer_instance

instance (b : Broker) (e : Nat × Answer) : Decidable (Orderly b e) :=
  inferInstanceAs (Decidable (_ ∧ _))

structure Sound (b : Broker) : Prop extends Workers b, Matched b

/-- Worker `w` moves, and everything is in order again. -/
def Advances (b b' : Broker) (w : Nat) : Prop := ∃ pc, Moves b b' w pc ∧ Sound b'

theorem Workers.asked (h : Workers b) (hpc : b.pcs w = pc) (hs : pc.Serving) :
    (b.clients w).Asked :=
  (h.fits w).asked (by rw [hpc]; exact hs)

theorem Workers.hasPipe (h : Workers b) (hpc : b.pcs w = pc) (hp : pc.Piped) :
    (b.clients w).HasPipe b.fds := (h.fits w).hasPipe (by rw [hpc]; exact hp)

/-- A section that leaves the table and TecnicoFS alone. -/
theorem Sound.advance (h : Sound b) (hm : Moves b x w pc) (hw : w < b.maxSessions)
    (hs : SameTable b x) (htfs : x.tfs = b.tfs) (hfits : pc.Fits x.fds (x.clients w))
    (hpipes : PipesKept b x w pc) (hlock : LockMoves b x w pc)
    (hopen : (b.pcs w).Opening → pc.Opening ∧ (x.clients w).boxName = (b.clients w).boxName) :
    Advances b x w :=
  ⟨pc, hm, h.toWorkers.move hm hw hfits hpipes hlock, h.toMatched.same hs htfs (hm.opens hopen)⟩

section Sections

variable (h : Sound b) (hw : w < b.maxSessions)
include h hw

theorem Sound.dequeued (hpc : b.pcs w = .idle) {r : Request}
    (hop : r.opcode = opCodeCreateBox ∨ r.opcode = opCodeRemoveBox)
    (hv : validPathname (some r.boxName.str) = true) : Advances b (b.dequeued w r) w := by
  have hclient : (b.dequeued w r).clients w = r.record (b.clients w) := Function.update_self ..
  have hnotList : r.opcode ≠ opCodeListBoxes := by
    rcases hop with hop | hop <;> rw [hop] <;> decide
  have hasked : (r.record (b.clients w)).Asked := by
    refine ⟨hop, ?_⟩
    rw [show (r.record (b.clients w)).boxName = r.boxName from if_pos hnotList]
    exact hv
  have hnext : handlerOf r.opcode = .createLock ∨ handlerOf r.opcode = .removeLock :=
    hop.imp (fun hop => by rw [hop]; rfl) (fun hop => by rw [hop]; rfl)
  have hm : Moves b (b.dequeued w r) w (handlerOf r.opcode) :=
    ⟨rfl, rfl, rfl, fun v hv => Function.update_of_ne hv .., fun hne => absurd hpc hne⟩
  refine h.advance hm hw ⟨rfl, rfl, fun _ => rfl⟩ rfl ?_ (.of_same h.toWorkers rfl ?_)
    (.of_same h.toWorkers rfl ?_) ?_
  · rw [hclient]
    rcases hnext with hnext | hnext <;> rw [hnext] <;> exact hasked
  · rcases hnext with hnext | hnext <;> rw [hnext] <;> exact False.elim
  · rw [hpc]
    exact False.elim
  · rw [hpc]
    exact False.elim

theorem Sound.returned {result : Int} (hpc : b.pcs w = .ret result) :
    Advances b (b.returned w result) w := by
  have hzero : result = 0 := by
    have hfits := h.fits w
    rw [hpc] at hfits
    exact hfits
  subst hzero
  have hm : Moves b (b.setPc w .idle) w .idle :=
    ⟨rfl, rfl, rfl, fun _ _ => rfl, fun _ => by rw [hpc]; decide⟩
  refine h.advance hm hw ⟨rfl, rfl, fun _ => rfl⟩ rfl trivial (.of_same h.toWorkers rfl False.elim)
    (.of_same h.toWorkers rfl ?_) ?_
  · rw [hpc]
    exact False.elim
  · rw [hpc]
    exact False.elim

theorem Sound.createSection (hpc : b.pcs w = .createLock) (malloced : Bool) :
    Advances b ((b.createSection w malloced).1.setPc w
      (.createOpen (b.createSection w malloced).2.1 (b.createSection w malloced).2.2)) w := by
  have hasked := h.asked hpc trivial
  have hnotOpening : ¬ (b.pcs w).Opening := by
    rw [hpc]
    exact id
  have hmoves : ∀ y : Broker, y.maxSessions = b.maxSessions →
      y.stopped = b.stopped → y.pcs = b.pcs →
      y.clients = b.clients → ∀ code msg,
        Moves b (y.setPc w (.createOpen code msg)) w (.createOpen code msg) := by
    intro y hmax hstop hpcs hclients code msg
    refine ⟨hmax, hstop, congrArg (Function.update · w _) hpcs, fun v _ => congrFun hclients v,
      fun _ => ?_⟩
    rw [hpc]
    exact Nat.lt_succ_self 7
  rcases createSection_cases b w malloced with
    ⟨msg, heq, -⟩ | ⟨hn, hnew, -, ⟨i, hi, heq⟩ | ⟨hnone, -⟩⟩
  · rw [heq]
    have hm := hmoves b rfl rfl rfl rfl (-1) msg
    exact h.advance hm hw ⟨rfl, rfl, fun _ => rfl⟩ rfl hasked (.of_same h.toWorkers rfl False.elim)
      (.of_same h.toWorkers rfl (by rw [hpc]; exact False.elim)) fun ho => absurd ho hnotOpening
  · rw [heq]
    have hm := hmoves (b.addBox i (b.clients w).boxName) rfl rfl rfl rfl 0 ""
    refine ⟨_, hm, h.toWorkers.move hm hw hasked (.of_same h.toWorkers rfl False.elim)
      (.of_same h.toWorkers rfl (by rw [hpc]; exact False.elim)), ?_⟩
    refine h.toMatched.add hi hnew hn hasked.name ⟨rfl, rfl, fun _ => rfl⟩ rfl ⟨w, ?_, rfl⟩
      (hm.opens fun ho => absurd ho hnotOpening)
    rw [hm.self]
    trivial
  · obtain ⟨i, hi⟩ := h.table.freeSlot hn
    rw [hnone] at hi
    cases hi

/-- Both handlers open the pipe the same way and go on at `pc`. -/
theorem Sound.opened (pc : Pc) {fd : Nat} (hm : Moves b x w pc) (hfd : b.fds fd = false)
    (hfds : x.fds = Function.update b.fds fd true)
    (hclient : x.clients w = { b.clients w with clientPipe := (fd : Int) })
    (hasked : (b.clients w).Asked)
    (hnext : (∃ code msg, pc = .createFile code msg) ∨ pc = .removeBody)
    (htable : SameTable b x) (htfs : x.tfs = b.tfs) (hlock : LockMoves b x w pc)
    (hopen : (b.pcs w).Opening → pc.Opening) : Advances b x w := by
  have hfits : (x.clients w).Asked ∧ (x.clients w).HasPipe x.fds := by
    rw [hclient, hfds]
    exact ⟨⟨hasked.opcode, hasked.name⟩, fd, rfl, Function.update_self ..⟩
  refine h.advance hm hw htable htfs ?_ (.of_open hfd hfds (by rw [hclient])) hlock fun ho =>
    ⟨hopen ho, by rw [hclient]⟩
  rcases hnext with ⟨code, msg, rfl⟩ | rfl
  · exact hfits
  · exact hfits

theorem Sound.createOpen {code : Int} {msg : String}
    (hpc : b.pcs w = .createOpen code msg) {fd : Nat}
    (hfd : b.fds fd = false) :
    Advances b ((b.pipeOpened w fd).setPc w (.createFile code msg)) w := by
  refine h.opened hw (.createFile code msg)
    ⟨rfl, rfl, rfl, fun v hv => setClient_of_ne _ _ hv,
      fun _ => by rw [hpc]; exact Nat.lt_succ_self 6⟩
    hfd rfl (setClient_self ..) (h.asked hpc trivial) (Or.inl ⟨code, msg, rfl⟩)
    ⟨rfl, rfl, fun _ => rfl⟩ rfl (.of_same h.toWorkers rfl ?_) fun _ => trivial
  rw [hpc]
  exact False.elim

theorem Sound.removeLock (hpc : b.pcs w = .removeLock) :
    Advances b (({ b with boxesLock := some w } : Broker).setPc w .removeOpen) w := by
  have hm : Moves b (({ b with boxesLock := some w } : Broker).setPc w .removeOpen) w .removeOpen :=
    ⟨rfl, rfl, rfl, fun _ _ => rfl, fun _ => by rw [hpc]; exact Nat.lt_succ_self 7⟩
  refine h.advance hm hw ⟨rfl, rfl, fun _ => rfl⟩ rfl (h.asked hpc trivial)
    (.of_same h.toWorkers rfl False.elim) (fun v hv => ?_) ?_
  · exact Or.inl ⟨(Option.some.inj hv).symm, trivial⟩
  · rw [hpc]
    exact False.elim

theorem Sound.removeOpen (hpc : b.pcs w = .removeOpen) {fd : Nat} (hfd : b.fds fd = false) :
    Advances b ((b.pipeOpened w fd).setPc w .removeBody) w := by
  refine h.opened hw .removeBody
    ⟨rfl, rfl, rfl, fun v hv => setClient_of_ne _ _ hv,
      fun _ => by rw [hpc]; exact Nat.lt_succ_self 6⟩
    hfd rfl (setClient_self ..) (h.asked hpc trivial) (Or.inr rfl)
    ⟨rfl, rfl, fun _ => rfl⟩ rfl (.of_same h.toWorkers rfl fun _ => trivial) ?_
  rw [hpc]
  exact False.elim

/-- The box is there, so its name is that of a file or of one that can be created. -/
theorem Sound.createFile {code : Int} {msg : String} (hpc : b.pcs w = .createFile code msg)
    (hroom : b.tfs.freeInode ≠ none ∧ b.tfs.freeHandle ≠ none)
    (hbox : b.getBox (b.clients w).boxName.str ≠ none) :
    Advances b (b.createFile w code msg) w := by
  have hasked := h.asked hpc trivial
  -- Each file is that of a box, and the root directory has more entries than there are boxes.
  have hslot : b.tfs.freeSlot ≠ none := by
    refine freeSlot_ne_none h.wf h.box ?_
    rw [State.maxDirEntries, h.params]
    decide
  have hhas : b.HasBox (b.clients w).boxName.str :=
    (h.table.hasBox (ne_empty_of_valid hasked.name)).mpr hbox
  have hlen : (b.clients w).boxName.str.tail.length ≤ 39 :=
    (b.clients w).boxName.str_tail_length_lt.le.trans (by decide)
  obtain ⟨t, fhandle, hopen, hwf, hparams, hcase⟩ := tfsOpen_creat h.wf hlen
  obtain ⟨-, j, rfl, hcreated⟩ :=
    hcase.resolve_left fun hno => hno.1 ⟨hasked.name, hroom.2, Or.inr ⟨hroom.1, hslot⟩⟩
  rw [createFile_of hopen, if_neg (Int.not_lt.mpr (Int.natCast_nonneg j))]
  generalize hx : Broker.setPc _ _ _ = x
  have hclient : x.clients w = { b.clients w with boxFd := (j : Int) } := by
    rw [← hx]
    exact setClient_self ..
  have hm : Moves b x w (.answering (answer opCodeCreateBoxAnswer code msg) false) := by
    rw [← hx]
    exact ⟨rfl, rfl, rfl, fun v hv => setClient_of_ne _ _ hv,
      fun _ => by rw [hpc]; exact Nat.lt_succ_self 5⟩
  have hfds : x.fds = b.fds := by rw [← hx]; rfl
  have hlock : x.boxesLock = b.boxesLock := by rw [← hx]; rfl
  have hpipe := h.hasPipe hpc trivial
  refine ⟨_, hm, h.toWorkers.move hm hw ?_
    (.of_same h.toWorkers hfds fun _ => ⟨?_, by rw [hclient]⟩)
    (.of_same h.toWorkers hlock ?_), ?_⟩
  · rw [hclient, hfds]
    refine ⟨⟨hasked.opcode, hasked.name⟩, hpipe, fun _ hneg => ?_⟩
    have hneg : (j : Int) = -1 := hneg
    omega
  · rw [hpc]
    trivial
  · rw [hpc]
    exact False.elim
  -- The file is there now: its name no longer needs a worker that is about to open it.
  · refine h.toMatched.open hhas hwf hparams hcreated ?_ (by rw [← hx]; rfl) ?_
    · rw [← hx]
      exact ⟨rfl, rfl, fun _ => rfl⟩
    · rintro q hq ⟨v, hv, hname⟩
      have hvw : v ≠ w := by
        rintro rfl
        exact hq hname.symm
      exact ⟨v, by rw [hm.other hvw]; exact hv, by rw [hm.clients v hvw]; exact hname⟩

/-- Nobody else's record carries the name, so no session is finished and no create
request is about to open the file. -/
theorem Sound.removed (hpc : b.pcs w = .removeBody)
    (hi : b.getBox (b.clients w).boxName.str = some i)
    (hothers : ∀ v < b.maxSessions, v ≠ w → (b.clients v).boxName.str ≠ (b.clients w).boxName.str) :
    ∃ t, b.removeBody w = (b.dropBox i t).setPc w
    (.answering (answer opCodeRemoveBoxAnswer 0 "") true) ∧
      WellFormed t ∧ t.fsParams = b.tfs.fsParams ∧
      ∀ n, t.file n = if n = (b.clients w).boxName.str.tail then none else b.tfs.file n := by
  have hasked := h.asked hpc trivial
  have hhas : b.HasBox (b.clients w).boxName.str :=
    (h.table.hasBox (ne_empty_of_valid hasked.name)).mpr (by rw [hi]; exact Option.some_ne_none i)
  -- A box without a file would have a create request under way, whose record carries the name.
  have hfile : b.tfs.file (b.clients w).boxName.str.tail ≠ none := by
    refine (h.file _ hhas).resolve_right ?_
    rintro ⟨v, hv, hname⟩
    have hvw : v ≠ w := by
      rintro rfl
      rw [hpc] at hv
      exact hv
    exact hothers v (h.worker v hv.serving.ne_idle) hvw hname
  obtain ⟨t, ret, hunlink, hwf, hparams, -, hcase⟩ := tfsUnlink_file h.wf (b.clients w).boxName.str
  obtain ⟨-, rfl, hfiles⟩ := hcase.resolve_left fun hnot => hnot.1 ⟨hasked.name, hfile⟩
  exact ⟨t, removeBody_present hi hothers hunlink, hwf, hparams, hfiles⟩

theorem Sound.removeBody (hpc : b.pcs w = .removeBody)
    (hno : b.getBox (b.clients w).boxName.str ≠ none →
      ∀ v < b.maxSessions, v ≠ w → (b.clients v).boxName.str ≠ (b.clients w).boxName.str) :
    Advances b (b.removeBody w) w := by
  have hasked := h.asked hpc trivial
  have hpipe := h.hasPipe hpc trivial
  have hfits : ∀ writes, (Pc.answering writes true).Fits b.fds (b.clients w) := fun _ =>
    ⟨hasked, hpipe, fun hc => by cases hc⟩
  have hpiped : (b.pcs w).Piped := by
    rw [hpc]
    trivial
  have hopening : ¬ (b.pcs w).Opening := by
    rw [hpc]
    exact id
  have hleft : b.pcs w ≠ .idle → 5 < (b.pcs w).sectionsLeft := fun _ => by
    rw [hpc]
    exact Nat.lt_succ_self 5
  cases hi : b.getBox (b.clients w).boxName.str with
  | none =>
    rw [removeBody_absent hi]
    have hm : Moves b
        (b.setPc w (.answering (answer opCodeRemoveBoxAnswer (-1) "Box does not exist") true))
        w (.answering (answer opCodeRemoveBoxAnswer (-1) "Box does not exist") true) :=
      ⟨rfl, rfl, rfl, fun _ _ => rfl, hleft⟩
    exact h.advance hm hw ⟨rfl, rfl, fun _ => rfl⟩ rfl (hfits _)
      (.of_same h.toWorkers rfl fun _ => ⟨hpiped, rfl⟩) (.of_same h.toWorkers rfl fun _ => trivial)
      fun ho => absurd ho hopening
  | some i =>
    have hothers := hno (by rw [hi]; exact Option.some_ne_none i)
    obtain ⟨t, hremoved, hwf, hparams, hfiles⟩ := h.removed hw hpc hi hothers
    rw [hremoved]
    have hm :
        Moves b ((b.dropBox i t).setPc w (.answering (answer opCodeRemoveBoxAnswer 0 "") true)) w
        (.answering (answer opCodeRemoveBoxAnswer 0 "") true) :=
      ⟨rfl, rfl, rfl, fun _ _ => rfl, hleft⟩
    refine ⟨_, hm, h.toWorkers.move hm hw (hfits _)
      (.of_same h.toWorkers rfl fun _ => ⟨hpiped, rfl⟩)
      (.of_same h.toWorkers rfl fun _ => trivial), ?_⟩
    exact h.toMatched.drop hi hasked.name hwf hparams hfiles ⟨rfl, rfl, fun _ => rfl⟩ rfl
      (hm.opens fun ho => absurd ho hopening)

theorem Sound.answering {bytes : List UInt8} {writes : List (List UInt8)} {locked : Bool}
    (hpc : b.pcs w = .answering (bytes :: writes) locked)
    (hx : b.emit w bytes (.wrote bytes.length) = some x) :
    Advances b (x.setPc w (.answering writes locked)) w := by
  have hfits := h.fits w
  rw [hpc] at hfits
  obtain ⟨sent, rfl⟩ := emit_sent hx
  have hm : Moves b (({ b with sent := sent } : Broker).setPc w (.answering writes locked)) w
      (.answering writes locked) := by
    refine ⟨rfl, rfl, rfl, fun _ _ => rfl, fun _ => ?_⟩
    rw [hpc]
    exact Nat.lt_succ_self (writes.length + 2)
  refine h.advance hm hw ⟨rfl, rfl, fun _ => rfl⟩ rfl hfits
    (.of_same h.toWorkers rfl fun _ => ⟨?_, rfl⟩)
    (.of_same h.toWorkers rfl ?_) ?_
  · rw [hpc]
    trivial
  · rw [hpc]
    cases locked <;> exact id
  · rw [hpc]
    exact False.elim

theorem Sound.answered {locked : Bool} (hpc : b.pcs w = .answering [] locked)
    (hhandle : locked = true → (b.clients w).boxFd ≠ -1) : Advances b (b.answered w locked) w := by
  have hfits := h.fits w
  rw [hpc] at hfits
  obtain ⟨hasked, ⟨j, hj, hopen⟩, hboxFd⟩ := hfits
  have hfd : (b.clients w).boxFd ≠ -1 := by
    cases locked with
    | true => exact hhandle rfl
    | false => exact hboxFd rfl
  have hno : NoSession (b.clients w) := by
    rcases hasked.opcode with hop | hop <;> rw [NoSession, hop] <;> decide
  -- The remove request unlocks the table first; both kinds of request then finish their record.
  obtain ⟨y, hy, hylock⟩ : ∃ y : Broker, b.answered w locked = y.returnFinish w ∧
      y = { b with boxesLock := if locked then none else b.boxesLock } := by
    refine ⟨_, ?_, rfl⟩
    cases locked <;> rfl
  have hplace : y = y.place w (b.clients w) (b.pcs w) (b.sent w) := by
    rw [hylock]
    simp [place]
  obtain ⟨c, hfinish, -⟩ := returnFinish_place w (b.pcs w) (b.sent w) hno hj
    (show y.fds j = true by rw [hylock]; exact hopen)
  rw [← hplace, if_neg hfd] at hfinish
  rw [hy, hfinish]
  generalize hx : Broker.place _ _ _ _ _ = x
  have hm : Moves b x w (.ret 0) := by
    rw [← hx, hylock]
    refine ⟨rfl, rfl, rfl, fun v hv => Function.update_of_ne hv .., fun _ => ?_⟩
    rw [hpc]
    exact Nat.lt_succ_self 1
  have hfds : x.fds = Function.update b.fds j false := by rw [← hx, hylock]; rfl
  have hpiped : (b.pcs w).Piped := by
    rw [hpc]
    trivial
  refine h.advance hm hw ?_ (by rw [← hx, hylock]; rfl) rfl
    (.of_close h.toWorkers hj hpiped hfds id)
    ?_ ?_
  · rw [← hx, hylock]
    exact ⟨rfl, rfl, fun _ => rfl⟩
  · cases locked with
    | true =>
      intro v hv
      rw [← hx, hylock] at hv
      cases hv
    | false =>
      refine .of_same h.toWorkers (by rw [← hx, hylock]; rfl) ?_
      rw [hpc]
      exact id
  · rw [hpc]
    exact False.elim

end Sections

theorem createFile_of_step {a : Answer} {code : Int} {msg : String} (hs : b.step (w, a) = some b')
    (hpc : b.pcs w = .createFile code msg) : b.createFile w code msg = b' := by
  replace hs := (step_eq_some.mp hs).2.2
  rw [hpc] at hs
  cases a with
  | none => exact Option.some.inj hs
  | _ => cases hs

theorem fits_outside {fds : Nat → Bool} {c : Client} (h : pc.Fits fds c) :
    pc.InSession = false := by
  cases pc <;> first | rfl | cases h

/-- A section that is granted what it needs, while the requests stay apart. -/
theorem Sound.step (h : Sound b) {e : Nat × Answer} (hok : Orderly b e) (hs : b.step e = some b') :
    Advances b b' e.1 := by
  obtain ⟨w, a⟩ := e
  have hw : w < b.maxSessions := (step_eq_some.mp hs).2.1
  have hfits := h.fits w
  have hserves := step_serves hs (fits_outside hfits)
  obtain ⟨hgranted, hapart⟩ := hok
  unfold Granted at hgranted
  unfold Apart at hapart
  dsimp only at hgranted hapart ⊢
  generalize hpc : b.pcs w = pc at hfits hserves hgranted hapart
  -- The sections of a session and those that fail are ruled out by `Fits` and by `Granted`.
  cases hserves with
  | request => exact h.dequeued hw hpc hgranted.1 hgranted.2
  | returned => exact h.returned hw hpc
  | @opened pc _ _ _ hnext hfree =>
    cases pc with
    | createOpen =>
      cases hnext
      exact h.createOpen hw hpc hfree
    | removeOpen =>
      cases hnext
      exact h.removeOpen hw hpc hfree
    | _ => cases hnext <;> exact hfits.elim
  | notOpened => exact absurd rfl hgranted
  | createLock => exact h.createSection hw hpc _
  | createNotOpened => exact absurd rfl hgranted
  | createCrash => exact createFile_of_step hs hpc ▸ h.createFile hw hpc hgranted hapart
  | createFailed => exact createFile_of_step hs hpc ▸ h.createFile hw hpc hgranted hapart
  | createFile => exact createFile_of_step hs hpc ▸ h.createFile hw hpc hgranted hapart
  | removeLock => exact h.removeLock hw hpc
  | removeNotOpened => exact absurd rfl hgranted
  | removeBody => exact h.removeBody hw hpc hapart
  | answering hx => exact h.answering hw hpc hx
  | notAnswered _ hne => exact absurd hgranted hne
  | answered =>
    refine h.answered hw hpc fun hl => ?_
    subst hl
    exact hapart
  | _ => exact hfits.elim

theorem Sound.of_start (maxSessions : Nat) (clients : Nat → Client)
    (m : Fs.Malloc) (fds : Nat → Bool) :
    Sound (start maxSessions clients m fds) where
  running := rfl
  worker _ h := absurd rfl h
  fits _ := trivial
  pipes _ _ _ h := h.elim
  lock _ h := nomatch h
  wf := Tidy.of_start.wf
  params := Tidy.of_start.params
  table := Tidy.of_start.table
  valid := Tidy.of_start.named.valid
  box n := (Tidy.of_start.named.files n).mp
  file p hp := Or.inl ((Tidy.of_start.named.files p.tail).mpr ⟨p, hp, rfl⟩)

/-! ## No worker gets stuck -/

/-- A worker in a handler can go on, unless it waits for `boxes_lock`. -/
theorem Sound.enabled (h : Sound b) (hs : (b.pcs w).Serving)
    (hlock : b.pcs w = .createLock ∨ b.pcs w = .removeLock → b.boxesLock = none) {fd : Nat}
    (hfd : b.fds fd = false) (malloced : Bool) :
    ∃ b', b.step (b.obliging w fd malloced) = some b' := by
  have hw := h.worker w hs.ne_idle
  have hfits := h.fits w
  have htake : b.takeFd fd = some { b with fds := Function.update b.fds fd true } :=
    takeFd_eq_some.mpr ⟨hfd, rfl⟩
  rw [obliging, step_of h.running hw]
  cases hpc : b.pcs w with
  | createLock => exact ⟨_, if_pos (hlock (Or.inl hpc))⟩
  | createOpen code msg => exact ⟨_, by simp [stepWorker, Broker.createOpen, htake]; rfl⟩
  | createFile code msg => exact ⟨_, rfl⟩
  | removeLock => exact ⟨_, if_pos (hlock (Or.inr hpc))⟩
  | removeOpen => exact ⟨_, by simp [stepWorker, Broker.removeOpen, htake]; rfl⟩
  | removeBody => exact ⟨_, rfl⟩
  | answering writes locked =>
    cases writes with
    | nil => exact ⟨_, rfl⟩
    | cons bytes writes =>
      rw [hpc] at hfits
      obtain ⟨-, ⟨j, hj, hopen⟩, -⟩ := hfits
      have hfd : b.isOpenFd (b.clients w).clientPipe = true := by
        rw [hj, isOpenFd]
        simp [hopen]
      exact ⟨_, by simp [stepWorker, Broker.answering, emit_whole hfd]; rfl⟩
  | _ =>
    rw [hpc] at hs hfits
    first | exact hs.elim | exact hfits.elim

/-- If it waits, the worker that holds the lock can go on. -/
theorem Sound.goesOn (h : Sound b) (hs : (b.pcs w).Serving) {fd : Nat} (hfd : b.fds fd = false)
    (malloced : Bool) :
    ∃ v b', (b.pcs v).Serving ∧ b.step (b.obliging v fd malloced) = some b' := by
  cases hl : b.boxesLock with
  | none =>
    obtain ⟨b', hb'⟩ := h.enabled hs (fun _ => hl) hfd malloced
    exact ⟨w, b', hs, hb'⟩
  | some v =>
    have hv := h.lock v hl
    have hnot : ¬ (b.pcs v = .createLock ∨ b.pcs v = .removeLock) := by
      rintro (hpc | hpc) <;> rw [hpc] at hv <;> exact hv
    obtain ⟨b', hb'⟩ := h.enabled hv.serving (fun hpc => absurd hpc hnot) hfd malloced
    exact ⟨v, b', hv.serving, hb'⟩

/-- The run keeps everything in order. -/
theorem Sound.reaches (h : Sound b) (hrun : Reaches Broker.step Orderly b b') : Sound b' :=
  hrun.invariant h fun _ _ _ ht hok hs => (ht.step hok hs).elim fun _ hnext => hnext.2

/-! ## Handlers that nothing stands in the way of -/

/-- TecnicoFS can create and open one more file. -/
def CanCreate (b : Broker) : Prop := b.tfs.freeInode ≠ none ∧ b.tfs.freeHandle ≠ none

/-- No other record carries the name that the record of `w` carries. -/
def Unshared (b : Broker) (w : Nat) : Prop :=
  ∀ v < b.maxSessions, v ≠ w → (b.clients v).boxName.str ≠ (b.clients w).boxName.str

/-- What the handler of `w` still needs is there: room for a box and its file, or the
name to itself and a handle. -/
def Unhindered (b : Broker) (w : Nat) : Prop :=
  match b.pcs w with
  | .createLock => b.numBoxes ≠ maxBoxes ∧ b.CanCreate
  | .createOpen .. | .createFile .. => b.getBox (b.clients w).boxName.str ≠ none ∧ b.CanCreate
  | .removeLock | .removeOpen | .removeBody => b.Unshared w ∧ (b.clients w).boxFd ≠ -1
  | .answering _ true => (b.clients w).boxFd ≠ -1
  | .answering _ false | .ret _ => True
  | _ => False

variable {fd n : Nat}

theorem Unhindered.outside (h : Unhindered b w) : (b.pcs w).InSession = false := by
  unfold Unhindered at h
  generalize b.pcs w = pc at h ⊢
  cases pc <;> first | rfl | exact h.elim

/-- The obliging answers are granted, and the requests stay apart. -/
theorem Unhindered.orderly (h : Unhindered b w) : Orderly b (obliging w fd true b) := by
  unfold Unhindered at h
  unfold Orderly Granted Apart obliging
  dsimp only
  generalize b.pcs w = pc at h ⊢
  cases pc with
  | createLock => exact ⟨trivial, trivial⟩
  | createOpen => exact ⟨Option.some_ne_none fd, trivial⟩
  | createFile => exact ⟨h.2, h.1⟩
  | removeLock => exact ⟨trivial, trivial⟩
  | removeOpen => exact ⟨Option.some_ne_none fd, trivial⟩
  | removeBody => exact ⟨trivial, fun _ => h.1⟩
  | ret => exact ⟨trivial, trivial⟩
  | answering writes locked =>
    cases writes with
    | cons => exact ⟨rfl, trivial⟩
    | nil =>
      cases locked with
      | false => exact ⟨trivial, trivial⟩
      | true => exact ⟨trivial, h⟩
  | _ => exact h.elim

theorem Unhindered.step (h : Sound b) (hu : Unhindered b w) (hret : hasReturned w b = false)
    (hs : b.step (obliging w fd true b) = some b') : Unhindered b' w := by
  have hserves := step_serves (a := (obliging w fd true b).2) hs hu.outside
  obtain ⟨_, -, hsound⟩ := h.step hu.orderly hs
  unfold Unhindered at hu
  generalize ha : (obliging w fd true b).2 = a at hserves
  generalize hpc : b.pcs w = pc at hu hserves
  unfold obliging at ha
  dsimp only at ha
  rw [hpc] at ha
  cases hserves with
  | returned =>
    rw [hasReturned_of_ret hpc] at hret
    cases hret
  | @opened pc _ _ fd' hnext =>
    -- Only the descriptor of the record changes.
    have hclient : (b.pipeOpened w fd').clients w
      = { b.clients w with clientPipe := (fd' : Int) } :=
      setClient_self ..
    have hothers : ∀ v, v ≠ w → (b.pipeOpened w fd').clients v = b.clients v := fun v hv =>
      setClient_of_ne _ _ hv
    cases pc with
    | createOpen =>
      cases hnext
      unfold Unhindered
      rw [setPc_self]
      refine ⟨?_, hu.2⟩
      change b.getBox ((b.pipeOpened w fd').clients w).boxName.str ≠ none
      rw [hclient]
      exact hu.1
    | removeOpen =>
      cases hnext
      unfold Unhindered
      rw [setPc_self]
      refine ⟨fun v hv hvw => ?_, ?_⟩
      · change ((b.pipeOpened w fd').clients v).boxName.str
          ≠ ((b.pipeOpened w fd').clients w).boxName.str
        rw [hothers v hvw, hclient]
        exact hu.1 v hv hvw
      · change ((b.pipeOpened w fd').clients w).boxFd ≠ -1
        rw [hclient]
        exact hu.2
    | _ => cases hnext <;> exact hu.elim
  | notOpened hat => rcases hat with rfl | rfl <;> exact hu.elim
  | createCrash => exact absurd hsound.running (by simp [crash])
  | createLock =>
    obtain rfl := Answer.malloced.inj ha
    unfold Unhindered
    rw [setPc_self]
    rcases createSection_cases b w true with
      ⟨msg, heq, hfull | hname | hm⟩ | ⟨hn, hnew, -, ⟨i, hi, heq⟩ | ⟨hnone, -⟩⟩
    · exact absurd hfull hu.1
    · rw [heq]
      exact ⟨hname, hu.2⟩
    · cases hm
    · have htable := h.table.addBox hi hnew hn
      have hhas : (b.addBox i (b.clients w).boxName).HasBox (b.clients w).boxName.str :=
        (hasBox_addBox hi).mpr (Or.inl rfl)
      have hname := (h.asked hpc trivial).name
      rw [heq]
      exact ⟨(htable.hasBox (ne_empty_of_valid hname)).mp hhas, hu.2⟩
    · obtain ⟨i, hi⟩ := h.table.freeSlot hn
      rw [hnone] at hi
      cases hi
  | createNotOpened => cases ha
  | createFailed =>
    unfold Unhindered
    rw [setPc_self]
    trivial
  | createFile =>
    unfold Unhindered
    rw [setPc_self]
    trivial
  | removeLock =>
    unfold Unhindered
    rw [setPc_self]
    exact hu
  | removeNotOpened => cases ha
  | removeBody =>
    have hw : w < b.maxSessions := (step_eq_some.mp hs).2.1
    change Unhindered (b.removeBody w) w
    unfold Unhindered
    cases hi : b.getBox (b.clients w).boxName.str with
    | none =>
      rw [removeBody_absent hi, setPc_self]
      exact hu.2
    | some i =>
      obtain ⟨t, hremoved, -⟩ := h.removed hw hpc hi hu.1
      rw [hremoved, setPc_self]
      exact hu.2
  | @answering bytes writes locked x hx =>
    obtain ⟨sent, rfl⟩ := emit_sent hx
    unfold Unhindered
    rw [setPc_self]
    cases locked <;> exact hu
  | notAnswered _ hne => exact absurd (Answer.wrote.inj ha).symm hne
  | answered =>
    unfold Unhindered
    rw [answered, returnFinish, setPc_self]
    trivial
  | _ => exact hu.elim

/-- A handler that nothing stands in the way of goes on in an orderly run. -/
theorem drive_orderly (h : Sound b) (hu : Unhindered b w)
    (hdrive : drive Broker.step (obliging w fd true) (hasReturned w) n b = some b') :
    Reaches Broker.step Orderly b b' :=
  .of_drive_of (I := fun b => Sound b ∧ Unhindered b w) hdrive ⟨h, hu⟩
    (fun _ _ ht hret hs => ⟨(ht.1.step ht.2.orderly hs).elim fun _ hnext => hnext.2,
      ht.2.step ht.1 hret hs⟩)
    fun _ ht _ => ht.2.orderly

/-- So does a request that is taken from the queue. -/
theorem serve_orderly (h : Sound b) (hpc : b.pcs w = .idle) {r : Request}
    (hop : r.opcode = opCodeCreateBox ∨ r.opcode = opCodeRemoveBox)
    (hv : validPathname (some r.boxName.str) = true) (hw : w < b.maxSessions)
    (hu : Unhindered (b.dequeued w r) w) (hserve : b.serve w r fd true = some b') :
    Reaches Broker.step Orderly b b' := by
  have hok : Orderly b (w, .request r) := by
    unfold Orderly Granted Apart
    dsimp only
    rw [hpc]
    exact ⟨⟨hop, hv⟩, trivial⟩
  have hs : b.step (w, .request r) = some (b.dequeued w r) := by
    rw [step_of h.running hw, hpc]
    rfl
  obtain ⟨-, -, hsound⟩ := h.dequeued hw hpc hop hv
  rw [serve_eq h.running hw hpc] at hserve
  exact (Reaches.refl.next hok hs).trans (drive_orderly hsound hu hserve)

/-! ## Runs -/

/-- No handler has returned -1, the boxes have the files while no handler is in
progress, and a handler that is in progress does not get stuck as long as pipes can
be opened. -/
structure AdminSafe (b : Broker) : Prop where
  running : b.stopped = false
  returns : ∀ w result, b.pcs w = .ret result → result = 0
  stays : ∀ w, b.pcs w ≠ .closing
  named : (∀ w, ¬ (b.pcs w).Serving) → Named b
  goesOn : ∀ fd malloced, b.fds fd = false → (∃ w, (b.pcs w).Serving) →
    ∃ w b', (b.pcs w).Serving ∧ b.step (b.obliging w fd malloced) = some b'

theorem Sound.safe (h : Sound b) : AdminSafe b where
  running := h.running
  returns w result hpc := by
    have hfits := h.fits w
    rw [hpc] at hfits
    exact hfits
  stays w hpc := by
    have hfits := h.fits w
    rw [hpc] at hfits
    exact hfits
  named := h.toMatched.named
  goesOn _ malloced hfd := fun ⟨_, hw⟩ => h.goesOn hw hfd malloced

/-- In every run of create and remove requests that stay apart; and each section of a
handler brings it closer to its end, whatever the others do. -/
theorem admin_safe (maxSessions : Nat) (clients : Nat → Client) (m : Fs.Malloc) (fds : Nat → Bool)
    {b : Broker} (hrun : Reaches Broker.step Orderly (start maxSessions clients m fds) b) :
    AdminSafe b ∧ ∀ e b', Orderly b e → b.step e = some b' →
      (b.pcs e.1 ≠ .idle → (b'.pcs e.1).sectionsLeft < (b.pcs e.1).sectionsLeft) ∧
      ∀ v, v ≠ e.1 → b'.pcs v = b.pcs v := by
  have hsound : Sound b := (Sound.of_start ..).reaches hrun
  refine ⟨hsound.safe, fun e b' hok hs => ?_⟩
  obtain ⟨pc, hm, -⟩ := hsound.step hok hs
  exact ⟨fun hne => hm.self ▸ hm.left hne, fun v hv => hm.other hv⟩

/-- Worker 1 waits with a remove request for `/a` while worker 0 creates the box. -/
theorem created_meanwhile : ∃ z, FirstBox z 2 ∧
    z.sent 0 = (answer opCodeCreateBoxAnswer 0 "").map (fun bytes => (3, bytes)) ∧
    Reaches Broker.step Orderly (fresh 2) (z.dequeued 1 (sampleRequest opCodeRemoveBox)) := by
  have htaken : Reaches Broker.step Orderly (fresh 2)
    ((fresh 2).dequeued 1 (sampleRequest opCodeRemoveBox)) :=
    Reaches.refl.next (e := (1, .request (sampleRequest opCodeRemoveBox))) (by decide) rfl
  rw [dequeued_eq] at htaken
  generalize hd : (sampleRequest opCodeRemoveBox).record ((fresh 2).clients 1) = d at htaken
  obtain ⟨c, hempty, hserve⟩ := serve_first (b := (fresh 2).place 1 d .removeLock []) (n := 2)
    rfl Nat.two_pos
    (place_pcs_of_ne (by decide)) rfl rfl ⟨rfl, rfl, fun _ => rfl⟩ rfl
  have hroom : Unhindered (((fresh 2).place 1 d .removeLock []).dequeued 0
    (sampleRequest opCodeCreateBox)) 0 := by
    unfold Unhindered
    rw [dequeued_eq, place_pcs]
    refine ⟨show (0 : Int) ≠ maxBoxes by decide, show (tfsStart .zeros).freeInode ≠ none from ?_,
      show (tfsStart .zeros).freeHandle ≠ none from ?_⟩
    · rw [tfsStart_freeInode]
      exact Option.some_ne_none 1
    · rw [tfsStart_freeHandle]
      exact Option.some_ne_none 0
  have hrun := htaken.trans (serve_orderly ((Sound.of_start ..).reaches htaken)
    (place_pcs_of_ne (by decide))
    (Or.inl rfl) (by decide) Nat.two_pos hroom hserve)
  refine ⟨_, FirstBox.of_created hempty, place_sent, ?_⟩
  -- It is as if worker 1 took its request only now.
  rw [dequeued_eq, place_clients_of_ne (by decide), place_comm (by decide)]
  exact hd ▸ hrun

/-- Then it takes `boxes_lock`, and removes the box. -/
theorem created_then_removed : ∃ b, Reaches Broker.step Orderly (fresh 2) b ∧
    b.pcs 0 = .ret 0 ∧ b.pcs 1 = .ret 0 ∧
    b.sent 0 = (answer opCodeCreateBoxAnswer 0 "").map (fun bytes => (3, bytes)) ∧
    b.sent 1 = (answer opCodeRemoveBoxAnswer 0 "").map fun bytes => (4, bytes) := by
  obtain ⟨z, hz, hsent, hrun⟩ := created_meanwhile
  have hrecord : (z.dequeued 1 (sampleRequest opCodeRemoveBox)).clients 1
      = (sampleRequest opCodeRemoveBox).record zeroClient := by
    rw [dequeued_eq, place_clients, hz.clients 1 (by decide)]
  have hothers : ∀ v < z.maxSessions, v ≠ 1 → (z.clients v).boxName.str ≠ sampleName.str := by
    intro v hv hne
    rw [hz.maxSessions] at hv
    obtain rfl : v = 0 := by omega
    rw [hz.name]
    decide
  have hclear : Unhindered (z.dequeued 1 (sampleRequest opCodeRemoveBox)) 1 := by
    unfold Unhindered
    rw [dequeued_eq, place_pcs, ← dequeued_eq]
    refine ⟨fun v hv hne => ?_, ?_⟩
    · rw [hrecord, dequeued_eq, place_clients_of_ne hne]
      exact hothers v hv hne
    · rw [hrecord]
      decide
  obtain ⟨t, ret, hunlink, -, -, -, hcase⟩ :=
    tfsUnlink_file (oneFile_wellFormed (m := .zeros) (n := sampleName.str.tail) (by decide)
      (by decide)) sampleName.str
  have hfile : (oneFile .zeros sampleName.str.tail).file sampleName.str.tail ≠ none := by
    rw [oneFile_file (by decide) (by decide), if_pos rfl]
    exact Option.some_ne_none []
  obtain ⟨-, rfl, -⟩ := hcase.resolve_left fun hnot => hnot.1 ⟨by decide, hfile⟩
  have hidle : z.pcs 1 = .idle := by
    rw [hz.pcs]
    exact Function.update_of_ne (by decide) ..
  have hw : 1 < z.maxSessions := by
    rw [hz.maxSessions]
    exact Nat.one_lt_two
  obtain ⟨c, -, hserve⟩ := serve_remove_present (r := sampleRequest opCodeRemoveBox)
    hz.stopped hw hidle
    hz.boxesLock (congrFun hz.fds 4) rfl hz.getBox hothers (by rw [hz.tfs]; exact hunlink) true
  rw [serve_eq hz.stopped hw hidle] at hserve
  refine ⟨_, hrun.trans (drive_orderly ((Sound.of_start ..).reaches hrun) hclear hserve),
    ?_, ?_, ?_, ?_⟩
  · rw [place_pcs_of_ne (by decide)]
    exact (congrFun hz.pcs 0).trans (Function.update_self ..)
  · rw [place_pcs, hz.clients 1 (by decide)]
    rfl
  · exact (place_sent_of_ne Nat.zero_ne_one).trans hsent
  · exact place_sent

/-- The broker removes the box that was created meanwhile, and both clients are told. -/
theorem admin_safe_two : ∃ b, Reaches Broker.step Orderly (fresh 2) b ∧
    b.pcs 0 = .ret 0 ∧ b.pcs 1 = .ret 0 ∧
    b.sent 0 = (answer opCodeCreateBoxAnswer 0 "").map (fun bytes => (3, bytes)) ∧
    b.sent 1 = (answer opCodeRemoveBoxAnswer 0 "").map (fun bytes => (4, bytes)) ∧ AdminSafe b := by
  obtain ⟨b, hrun, hcreate, hremove, hsent0, hsent1⟩ := created_then_removed
  exact ⟨b, hrun, hcreate, hremove, hsent0, hsent1, (admin_safe 2 _ _ _ hrun).1⟩

/-- The sections of a remove request for a box that is not there. -/
def removeAbsent : List (Nat × Answer) :=
  [(0, .request (sampleRequest opCodeRemoveBox)), (0, .none),
    (0, .opened samplePath (some 3)), (0, .none),
    (0, .wrote (.wrote 1)), (0, .wrote (.wrote 4)), (0, .wrote (.wrote messageLength)), (0, .none)]

/-- The end of the first request leaves no handle in the record, and the end of the
second one asks for it. -/
theorem remove_twice :
    ¬ ∀ (maxSessions : Nat) (clients : Nat → Client) (m : Fs.Malloc)
    (fds : Nat → Bool) (b : Broker),
      m.granted = true → Reaches Broker.step Granted (start maxSessions clients m fds) b →
      ∀ w result, b.pcs w = .ret result → result = 0 := by
  intro h
  have hrun : (exec Broker.step (fresh 1) (removeAbsent ++ (0, .none) :: removeAbsent)).map
      (fun b => b.pcs 0) = some (.ret (-1)) := by
    decide +kernel
  obtain ⟨b, hb, hret⟩ := Option.map_eq_some_iff.mp hrun
  have hmeets : execOk Broker.step Granted (fresh 1)
    (removeAbsent ++ (0, .none) :: removeAbsent) := by
    decide +kernel
  have hzero := h 1 _ _ _ b rfl (.of_exec hb hmeets) 0 (-1) hret
  cases hzero

end Broker

end MBroker
