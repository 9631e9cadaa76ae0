import MBroker.Broker.Bystanders
import MBroker.Fs.AnyUse

/-!
# What a section does beyond its worker

A section makes at most one call to TecnicoFS. Apart from a broadcast, and from
`handle_tfs_remove_box`, it leaves the other workers and their records alone.

Results:
1. `step_calls`: TecnicoFS after a section is as before, or as its call has left it.
2. `Calls.robust`: the calls keep TecnicoFS consistent, whatever their handles are.
3. `step_beside`, `step_others`: what becomes of the other workers.
-/

namespace MBroker

open FirstFit Transition Fs

namespace Broker

/-- The call of a section of worker `w`, and the state of TecnicoFS that it leaves. -/
inductive Calls (b : Broker) (w : Nat) : Pc → Fs.State → Prop
  | pubOpen {i : Nat} {message : List UInt8} {t : Fs.State} {r : Int} :
      tfsOpen b.tfs (some (b.boxes i).boxName.str) tfsOAppend = .ok (t, r) →
      Calls b w (.pubOpen i message) t
  | pubWrite {i : Nat} {message : List UInt8} {fhandle : Int} {t : Fs.State} {r : Int} :
      tfsWrite b.tfs fhandle (message ++ [0]) ((messageStr message).length + 1) = .ok (t, r) →
      Calls b w (.pubWrite i message fhandle) t
  | historyOpen {t : Fs.State} {r : Int} :
      tfsOpen b.tfs (some (b.clients w).boxName.str) tfsOCreat = .ok (t, r) →
      Calls b w .historyOpen t
  | historyRead {t : Fs.State} {r : Int} {bytes : List UInt8} :
      tfsRead b.tfs (b.clients w).boxFd boxSize = .ok (t, r, bytes) → Calls b w .historyRead t
  | followRead {i : Nat} {t : Fs.State} {r : Int} {bytes : List UInt8} :
      tfsRead b.tfs (b.clients w).boxFd messageLength = .ok (t, r, bytes) →
      Calls b w (.followRead i) t
  | createFile {code : Int} {msg : String} {t : Fs.State} {r : Int} :
      tfsOpen b.tfs (some (b.clients w).boxName.str) tfsOCreat = .ok (t, r) →
      Calls b w (.createFile code msg) t
  | removeBody {t : Fs.State} {r : Int} :
      tfsUnlink b.tfs (some (b.clients w).boxName.str) = .ok (t, r) → Calls b w .removeBody t

variable {b b' x : Broker} {v w i : Nat} {pc : Pc} {t : Fs.State}

/-! ## The calls keep TecnicoFS consistent -/

theorem messageStr_fits (message : List UInt8) :
    (messageStr message).length + 1 ≤ (message ++ [0]).length := by
  rw [List.length_append]
  exact Nat.succ_le_succ (CStr.length_ofBytes_le message)

/-- A write through any handle, as a case of what `tfs_write` can do. -/
theorem overwritten_of_write {s t : Fs.State} (h : Robust s) {fhandle r : Int} {buffer : List UInt8}
    {n : Nat} (hn : n ≤ buffer.length) (hw : tfsWrite s fhandle buffer n = .ok (t, r)) :
    t = s ∨ ∃ fd k, s.handle fhandle = some fd ∧ s.Refers fd k ∧
    Overwritten s fd k buffer (t, r) := by
  cases hh : s.handle fhandle with
  | none =>
    rw [tfsWrite_closed h.root.toSized hh] at hw
    cases hw
    exact Or.inl rfl
  | some fd =>
    obtain ⟨k, hk⟩ := h.refers hh
    rcases tfsWrite_part h hh hk hn with herr | ⟨u, hu, hover⟩
    · rw [herr] at hw
      cases hw
    · rw [hu] at hw
      cases hw
      exact Or.inr ⟨fd, k, rfl, hk, hover⟩

theorem called_open {s t : Fs.State} (h : Robust s) {p : CStr} {mode : Nat} {r : Int}
    (ho : tfsOpen s (some p) mode = .ok (t, r)) : Opened s (some p) mode (t, r) := by
  obtain ⟨u, hu, hopened⟩ := tfsOpen_cases h.toFilesWf (some p) mode
  obtain rfl := Except.ok.inj (hu.symm.trans ho)
  exact hopened

theorem fsStep_read {s t : Fs.State} {fhandle r : Int} {len : Nat} {bytes : List UInt8}
    (hr : tfsRead s fhandle len = .ok (t, r, bytes)) : fsStep s (.tfsRead fhandle len) = some t :=
  fsStep_eq_some.mpr ⟨_, hr⟩

theorem called_read {s t : Fs.State} (h : Robust s) {fhandle r : Int}
    {len : Nat} {bytes : List UInt8}
    (hr : tfsRead s fhandle len = .ok (t, r, bytes)) : Called s (.tfsRead fhandle len) t :=
  h.called (fsStep_read hr)

theorem fsStep_unlink {s t : Fs.State} {p : CStr} {r : Int}
    (hu : tfsUnlink s (some p) = .ok (t, r)) :
    fsStep s (.tfsUnlink (some p)) = some t := by
  have hstep : tfsStep s (.tfsUnlink (some p)) = .ok (t, r, []) := by
    rw [tfsStep, hu]
    rfl
  exact fsStep_eq_some.mpr ⟨_, hstep⟩

theorem called_unlink {s t : Fs.State} (h : Robust s) {p : CStr} {r : Int}
    (hu : tfsUnlink s (some p) = .ok (t, r)) : Unlinked s (some p) (t, r) := by
  obtain ⟨u, hu', hunlinked⟩ := tfsUnlink_cases h.toFilesWf (some p)
  obtain rfl := Except.ok.inj (hu'.symm.trans hu)
  exact hunlinked

theorem Calls.robust (h : Robust b.tfs) (hc : Calls b w pc t) : Robust t := by
  cases hc with
  | pubOpen ho => exact (called_open h ho).robust h
  | pubWrite hw =>
    rcases overwritten_of_write h (messageStr_fits _) hw with rfl | ⟨fd, k, -, hk, hover⟩
    · exact h
    · exact hover.robust h hk
  | historyOpen ho => exact (called_open h ho).robust h
  | historyRead hr => exact h.step (fsStep_read hr)
  | followRead hr => exact h.step (fsStep_read hr)
  | createFile ho => exact (called_open h ho).robust h
  | removeBody hu => exact h.step (fsStep_unlink hu)

theorem Calls.params (h : Robust b.tfs) (hc : Calls b w pc t) : t.fsParams = b.tfs.fsParams := by
  cases hc with
  | pubOpen ho => exact (called_open h ho).params
  | pubWrite hw =>
    rcases overwritten_of_write h (messageStr_fits _) hw with rfl | ⟨fd, k, -, -, hover⟩
    · rfl
    · cases hover <;> rfl
  | historyOpen ho => exact (called_open h ho).params
  | historyRead hr => exact (called_read h hr).params
  | followRead hr => exact (called_read h hr).params
  | createFile ho => exact (called_open h ho).params
  | removeBody hu => exact (called_unlink h hu).params

/-! ## The call of a section -/

theorem endSession_tfs (b : Broker) (w : Nat) (result : Int) :
    (b.endSession w result).tfs = b.tfs :=
  (finishClientSession_frame b w).tfs

theorem returnFinish_tfs (b : Broker) (w : Nat) : (b.returnFinish w).tfs = b.tfs :=
  (finishClientSession_frame b w).tfs

/-- The call is the section's, and nothing after it touches TecnicoFS. -/
theorem Calls.of_eq (h : Calls b w pc t) (ht : x.tfs = t) : x.tfs = b.tfs ∨ Calls b w pc x.tfs :=
  Or.inr (ht ▸ h)

theorem emit_tfs {bytes : List UInt8} {result : WriteResult} (h : b.emit w bytes result = some x) :
    x.tfs = b.tfs := by
  obtain ⟨sent, rfl⟩ := emit_sent h
  rfl

theorem returned_tfs (result : Int) : (b.returned w result).tfs = b.tfs := by
  unfold returned
  split
  · split <;> rfl
  · rfl

theorem registerBox_tfs (stack : List UInt8) : (b.registerBox w stack).tfs = b.tfs := by
  unfold registerBox
  dsimp only
  split
  · exact (close_frame b w _).tfs
  · split
    · split
      · exact (returnFinish_tfs _ w).trans rfl
      · rfl
    · rfl

theorem pipeClosed_tfs : (b.pipeClosed w).tfs = b.tfs := by
  unfold pipeClosed
  split
  · exact endSession_tfs b w 0
  · rfl

theorem createSection_tfs (malloced : Bool) : (b.createSection w malloced).1.tfs = b.tfs := by
  rcases createSection_cases b w malloced with ⟨msg, heq, -⟩ | ⟨-, -, -, ⟨j, -, heq⟩ | ⟨-, heq⟩⟩ <;>
    exact congrArg (fun p => p.1.tfs) heq

theorem removeBox_calls {name : CStr} {r : Int} (h : b.removeBox name = .ok (x, r)) :
    x.tfs = b.tfs ∨ ∃ r', tfsUnlink b.tfs (some name) = .ok (x.tfs, r') := by
  cases removedBox_of h with
  | absent => exact Or.inl rfl
  | linked _ hu => exact Or.inr ⟨_, hu⟩
  | dropped _ hu => exact Or.inr ⟨_, hu⟩

theorem Removes.calls (h : Removes b w x) : x.tfs = b.tfs ∨ Calls b w .removeBody x.tfs := by
  have hunlink : ∀ {y z : Broker} {ret ret' : Int} {pc : Pc},
      b.finishSessions w (b.clients w).boxName.str 0 b.maxSessions = (y, ret) →
      y.removeBox (b.clients w).boxName.str = .ok (z, ret') →
      (z.setPc w pc).tfs = b.tfs ∨ Calls b w .removeBody (z.setPc w pc).tfs := by
    intro y z ret ret' pc hfinish hremove
    have htfs := (Kept.of_finish hfinish).tfs
    rcases removeBox_calls hremove with hsame | ⟨r', hu⟩
    · exact Or.inl (hsame.trans htfs)
    · rw [htfs] at hu
      exact Or.inr (.removeBody hu)
  cases h with
  | absent => exact Or.inl rfl
  | unfinished _ hfinish => exact Or.inl (Kept.of_finish hfinish).tfs
  | crash _ hfinish => exact Or.inl (Kept.of_finish hfinish).tfs
  | notUnlinked _ hfinish _ hremove => exact hunlink hfinish hremove
  | removed _ hfinish _ hremove => exact hunlink hfinish hremove

theorem answered_tfs (locked : Bool) : (b.answered w locked).tfs = b.tfs := by
  unfold answered
  split <;> exact returnFinish_tfs _ w

theorem historyDone_tfs : (b.historyDone w).tfs = b.tfs := by
  unfold historyDone
  split <;> rfl

theorem Ends.calls {a : Answer} (h : Ends b w pc a x) : x.tfs = b.tfs ∨ Calls b w pc x.tfs := by
  cases h with
  | pipeClosed => exact Or.inl pipeClosed_tfs
  | pubOpen ho => exact Calls.of_eq (.pubOpen ho) (endSession_tfs ..)
  | pubWrite hw => exact Calls.of_eq (.pubWrite hw) (endSession_tfs ..)
  | historyOpen ho => exact Calls.of_eq (.historyOpen ho) (endSession_tfs ..)
  | historyRead hr => exact Calls.of_eq (.historyRead hr) (endSession_tfs ..)
  | historySendOp hx => exact Or.inl (emit_tfs hx :)
  | historySendMessage hx => exact Or.inl (emit_tfs hx :)
  | followNone hr => exact Calls.of_eq (.followRead hr) (returnFinish_tfs ..)
  | followRead hr => exact Calls.of_eq (.followRead hr) (endSession_tfs ..)
  | followSendOp hx => exact Or.inl ((endSession_tfs ..).trans (emit_tfs hx))
  | followSendMessage hx => exact Or.inl ((endSession_tfs ..).trans (emit_tfs hx))

theorem Continues.calls (h : Continues b w pc x) : x.tfs = b.tfs ∨ Calls b w pc x.tfs := by
  cases h with
  | pubOpen ho => exact Or.inr (.pubOpen ho)
  | pubWrite hw => exact Or.inr (.pubWrite hw)
  | historyOpen ho => exact Or.inr (.historyOpen ho)
  | historyRead hr => exact Or.inr (.historyRead hr)
  | historyEnd hr => exact Or.inr (.historyRead hr)
  | followRead hr => exact Or.inr (.followRead hr)
  | historySendOp _ _ hx => exact Or.inl (emit_tfs hx :)
  | historyNext hx => exact Or.inl (emit_tfs hx :)
  | historyLast hx => exact Or.inl (emit_tfs hx :)
  | followSendOp hx => exact Or.inl (emit_tfs hx :)
  | followSendMessage hx => exact Or.inl (emit_tfs hx :)
  | _ => exact Or.inl rfl

theorem Serves.calls {a : Answer} (h : Serves b w pc a x) : x.tfs = b.tfs ∨ Calls b w pc x.tfs := by
  cases h with
  | returned => exact Or.inl (returned_tfs _)
  | registerBox => exact Or.inl (registerBox_tfs _)
  | createLock => exact Or.inl (createSection_tfs _)
  | createFailed ho => exact Or.inr (.createFile ho)
  | createFile ho => exact Or.inr (.createFile ho)
  | removeBody => exact (removeBody_removes b w).calls
  | answering hx => exact Or.inl (emit_tfs hx :)
  | notAnswered hx => exact Or.inl (emit_tfs hx :)
  | answered => exact Or.inl (answered_tfs _)
  | listEnd => exact Or.inl (returnFinish_tfs ..)
  | listWrite hx => exact Or.inl (emit_tfs hx :)
  | listFailed hx => exact Or.inl (emit_tfs hx :)
  | _ => exact Or.inl rfl

theorem historyRead_calls :
    (b.historyRead w).tfs = b.tfs ∨ Calls b w .historyRead (b.historyRead w).tfs := by
  unfold Broker.historyRead
  split
  · exact Or.inl rfl
  · next hr =>
    dsimp only
    split
    · exact Calls.of_eq (.historyRead hr) historyDone_tfs
    · split
      · exact Calls.of_eq (.historyRead hr) (endSession_tfs ..)
      · exact Or.inr (.historyRead hr)

theorem historyRead_of_step {a : Answer} (hs : b.step (w, a) = some b')
    (hpc : b.pcs w = .historyRead) :
    b' = b.historyRead w := by
  replace hs := (step_eq_some.mp hs).2.2
  rw [hpc] at hs
  cases a with
  | none => exact (Option.some.inj hs).symm
  | _ => cases hs

theorem step_calls {a : Answer} (hs : b.step (w, a) = some b') :
    b'.tfs = b.tfs ∨ Calls b w (b.pcs w) b'.tfs := by
  by_cases hread : b.pcs w = .historyRead
  · -- the process may stop after this call
    rw [historyRead_of_step hs hread, hread]
    exact historyRead_calls
  · rcases step_cases hs with hends | hcrash | hgoes | hserves
    · exact hends.calls
    · generalize b.pcs w = pc at hcrash hread
      cases hcrash with
      | crash => exact Or.inl rfl
      | historyRead => exact absurd rfl hread
    · exact hgoes.calls
    · exact hserves.calls

/-! ## The other workers -/

/-- Worker `v` is where it was, or a broadcast has woken it. -/
def Stays (b x : Broker) (v : Nat) : Prop :=
  x.pcs v = b.pcs v ∨ ∃ i n, b.pcs v = .asleep i n ∧ x.pcs v = .followLock i

/-- Moreover its record is the same. -/
structure Beside (b x : Broker) (v : Nat) : Prop where
  maxSessions : x.maxSessions = b.maxSessions
  stays : Stays b x v
  clients : x.clients v = b.clients v

theorem Spares.beside (h : Spares b x v) : Beside b x v := ⟨h.maxSessions, Or.inl h.pcs, h.clients⟩

theorem pubCount_beside (hv : v ≠ w) (message : List UInt8) :
    Beside b (b.pubCount w i message) v := by
  refine ⟨rfl, ?_, rfl⟩
  have hpcs : (b.pubCount w i message).pcs v = (((b.setBox i { b.boxes i with
      boxSize := addSize (b.boxes i).boxSize ((messageStr message).length + 1) }).broadcast
        i).unlockBox i).pcs v :=
    setPc_of_ne _ _ hv
  rw [Stays, hpcs]
  by_cases hasleep : b.pcs v = .asleep i (b.boxes i).cond
  · refine Or.inr ⟨i, _, hasleep, if_pos ?_⟩
    rw [setBox_self]
    exact hasleep
  · refine Or.inl (if_neg fun hc => hasleep ?_)
    rwa [setBox_self] at hc

theorem Continues.beside (h : Continues b w pc x) (hv : v ≠ w) : Beside b x v := by
  by_cases hcount : ∃ i message, pc = .pubCount i message
  · obtain ⟨i, message, rfl⟩ := hcount
    cases h
    exact pubCount_beside hv message
  · exact (h.spares hv fun i message hpc => absurd ⟨i, message, hpc⟩ hcount).beside

theorem Serves.beside {a : Answer} (h : Serves b w pc a x) (hv : v ≠ w)
    (hremove : pc ≠ .removeBody) :
    Beside b x v := by
  by_cases hopen : ∃ (path : CStr) (fd : Nat), a = .opened path (some fd)
  · obtain ⟨path, fd, rfl⟩ := hopen
    cases h
    exact ⟨rfl, Or.inl (setPc_of_ne _ _ hv), setClient_of_ne _ _ hv⟩
  · exact (h.spares hv (fun hpc => absurd hpc hremove) fun path fd hfd => absurd
      ⟨path, fd, hfd⟩ hopen).beside

/-- Only `handle_tfs_remove_box` writes the record of another worker. -/
theorem step_beside {a : Answer} (hs : b.step (w, a) = some b') (hv : v ≠ w)
    (hremove : b.pcs w ≠ .removeBody) : Beside b b' v := by
  rcases step_cases hs with hends | hcrash | hgoes | hserves
  · exact (hends.spares hv).beside
  · exact hcrash.spares.beside
  · exact hgoes.beside hv
  · exact hserves.beside hv hremove

theorem Removes.stays (h : Removes b w x) :
    x.maxSessions = b.maxSessions ∧ ∀ v ≠ w, x.pcs v = b.pcs v := by
  have hunlink : ∀ {y z : Broker} {ret ret' : Int} {pc : Pc},
      b.finishSessions w (b.clients w).boxName.str 0 b.maxSessions = (y, ret) →
      y.removeBox (b.clients w).boxName.str = .ok (z, ret') →
      (z.setPc w pc).maxSessions = b.maxSessions ∧ ∀ v ≠ w, (z.setPc w pc).pcs v = b.pcs v := by
    intro y z ret ret' pc hfinish hremove
    have hkept := Kept.of_finish hfinish
    have hpcs : z.pcs = b.pcs := (removeBox_pcs hremove).trans hkept.pcs
    exact ⟨(removeBox_same hremove).1.trans hkept.maxSessions,
      fun v hv => (setPc_of_ne _ _ hv).trans (congrFun hpcs v)⟩
  cases h with
  | absent => exact ⟨rfl, fun v hv => setPc_of_ne _ _ hv⟩
  | unfinished _ hfinish =>
    have hkept := Kept.of_finish hfinish
    exact ⟨hkept.maxSessions, fun v hv => (setPc_of_ne _ _ hv).trans (congrFun hkept.pcs v)⟩
  | crash _ hfinish =>
    have hkept := Kept.of_finish hfinish
    exact ⟨hkept.maxSessions, fun v _ => congrFun hkept.pcs v⟩
  | notUnlinked _ hfinish _ hremove => exact hunlink hfinish hremove
  | removed _ hfinish _ hremove => exact hunlink hfinish hremove

theorem removeBody_of_step {a : Answer} (hs : b.step (w, a) = some b')
    (hpc : b.pcs w = .removeBody) :
    b' = b.removeBody w := by
  replace hs := (step_eq_some.mp hs).2.2
  rw [hpc] at hs
  cases a with
  | none => exact (Option.some.inj hs).symm
  | _ => cases hs

/-- A section moves no other worker, but for the sleepers that it wakes. -/
theorem step_others {a : Answer} (hs : b.step (w, a) = some b') (hv : v ≠ w) : Stays b b' v := by
  by_cases hremove : b.pcs w = .removeBody
  · obtain rfl := removeBody_of_step hs hremove
    exact Or.inl ((removeBody_removes b w).stays.2 v hv)
  · exact (step_beside hs hv hremove).stays

theorem step_maxSessions {a : Answer} (hs : b.step (w, a) = some b') :
    b'.maxSessions = b.maxSessions := by
  by_cases hremove : b.pcs w = .removeBody
  · obtain rfl := removeBody_of_step hs hremove
    exact (removeBody_removes b w).stays.1
  · exact (step_beside hs (Nat.succ_ne_self w) hremove).maxSessions

/-- What holds of where a worker stands is kept by the sections of the others, if waking
up keeps it. -/
theorem Stays.keep {P : Pc → Prop} (h : Stays b x v)
    (hwake : ∀ i n, P (.asleep i n) → P (.followLock i))
    (hp : P (b.pcs v)) : P (x.pcs v) := by
  rcases h with hsame | ⟨i, n, hasleep, hwoken⟩
  · rwa [hsame]
  · rw [hasleep] at hp
    rw [hwoken]
    exact hwake i n hp

end Broker

end MBroker
