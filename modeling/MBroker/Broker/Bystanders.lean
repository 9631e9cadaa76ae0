import MBroker.Broker.Table

/-!
# What a section leaves alone

A section of worker `w` moves `w` and writes its record. Another worker `v` is moved by
a broadcast only, and its record is written by `handle_tfs_remove_box` only, which
closes the client's pipe first.

Results:
1. `step_spares`: a worker whose pipe is closed and that is not asleep stays where it
   is, with the same record and the pipe closed, in every section of another worker
   that does not open a descriptor of the same number.
-/

namespace MBroker

open FirstFit

namespace Broker

variable {b b' x y : Broker} {v w i : Nat} {pc : Pc} {c : Client} {a : Answer}

/-- From `b` to `x` worker `v` does not move, its record is the same, and the pipe is
not opened. -/
structure Spares (b x : Broker) (v : Nat) : Prop where
  maxSessions : x.maxSessions = b.maxSessions
  pcs : x.pcs v = b.pcs v
  clients : x.clients v = b.clients v
  closed : b.isOpenFd (b.clients v).clientPipe = false → x.isOpenFd (b.clients v).clientPipe = false

theorem Spares.of_same (hmax : x.maxSessions = b.maxSessions) (hpcs : x.pcs = b.pcs)
    (hclients : x.clients = b.clients) (hfds : x.fds = b.fds) : Spares b x v where
  maxSessions := hmax
  pcs := by rw [hpcs]
  clients := by rw [hclients]
  closed h := by
    rw [isOpenFd, hfds]
    exact h

theorem Spares.refl (b : Broker) (v : Nat) : Spares b b v := .of_same rfl rfl rfl rfl

theorem Spares.trans (h : Spares b x v) (h' : Spares x y v) : Spares b y v where
  maxSessions := h'.maxSessions.trans h.maxSessions
  pcs := h'.pcs.trans h.pcs
  clients := h'.clients.trans h.clients
  closed hclosed := h.clients ▸ h'.closed (h.clients ▸ h.closed hclosed)

theorem Spares.crash (h : Spares b x v) : Spares b x.crash v := ⟨h.1, h.2, h.3, h.4⟩

theorem Spares.setPc (h : Spares b x v) (hv : v ≠ w) : Spares b (x.setPc w pc) v :=
  ⟨h.1, (setPc_of_ne x pc hv).trans h.2, h.3, h.4⟩

theorem Spares.setClient (h : Spares b x v) (hv : v ≠ w) : Spares b (x.setClient w c) v :=
  ⟨h.1, h.2, (setClient_of_ne x c hv).trans h.3, h.4⟩

theorem Spares.setBox (h : Spares b x v) (i : Nat) (box : Box) : Spares b (x.setBox i box) v :=
  ⟨h.1, h.2, h.3, h.4⟩

theorem Spares.tfs (h : Spares b x v) (t : Fs.State) : Spares b { x with tfs := t } v :=
  ⟨h.1, h.2, h.3, h.4⟩

theorem isOpenFd_close {fd fd' : Int} (h : b.isOpenFd fd' = false) :
    (b.close fd).1.isOpenFd fd' = false := by
  unfold close
  split
  · unfold isOpenFd at h ⊢
    rw [Bool.and_eq_false_iff] at h ⊢
    refine h.imp id fun hfds => ?_
    rcases eq_or_ne fd'.toNat fd.toNat with heq | hne
    · rw [heq]
      exact Function.update_self ..
    · exact (Function.update_of_ne hne ..).trans hfds
  · exact h

theorem Spares.close (h : Spares b x v) (fd : Int) : Spares b (x.close fd).1 v where
  maxSessions := (close_frame x v fd).maxSessions.trans h.maxSessions
  pcs := (congrFun (close_frame x v fd).pcs v).trans h.pcs
  clients := by
    rw [← h.clients]
    exact (close_frame x (v + 1) fd).clients v (by omega)
  closed hclosed := isOpenFd_close (h.closed hclosed)

theorem isOpenFd_left (w : Nat) (fd : Int) : (b.left w).isOpenFd fd = b.isOpenFd fd := by
  unfold left leaveBox
  split
  · split
    · rfl
    · split <;> rfl
  · rfl

/-- The end of another worker's session. -/
theorem finishClientSession_spares (hv : v ≠ w) : Spares b (b.finishClientSession w).1 v where
  maxSessions := (finishClientSession_frame b w).maxSessions
  pcs := congrFun (finishClientSession_frame b w).pcs v
  clients := (finishClientSession_frame b w).clients v hv
  closed hclosed := by
    cases hopen : b.isOpenFd (b.clients w).clientPipe with
    | false =>
      rw [finishClientSession_of_closed hopen]
      exact hclosed
    | true =>
      by_cases hfd : (b.clients w).opcode = opCodeListBoxes ∨ (b.clients w).boxFd ≠ -1
      · rw [finishClientSession_of_boxFd hopen hfd]
        exact (isOpenFd_left ..).trans (isOpenFd_close hclosed)
      · rw [not_or, not_not] at hfd
        rw [finishClientSession_of_no_boxFd hopen hfd.1 hfd.2]
        exact isOpenFd_close hclosed

theorem Spares.endSession (h : Spares b x v) (hv : v ≠ w) (result : Int) :
    Spares b (x.endSession w result) v := (h.trans (finishClientSession_spares hv)).setPc hv

theorem Spares.returnFinish (h : Spares b x v) (hv : v ≠ w) : Spares b (x.returnFinish w) v :=
  (h.trans (finishClientSession_spares hv)).setPc hv

/-- A session whose pipe is closed cannot be finished. -/
theorem finishSessions_spares {self : Nat} {boxName : CStr} {n : Nat}
    (hclosed : b.isOpenFd (b.clients v).clientPipe = false) :
    Spares b (b.finishSessions self boxName i n).1 v := by
  have hall := finishSessions_induction
    (R := fun b x => b.isOpenFd (b.clients v).clientPipe = false → Spares b x v)
      (fun b _ => .refl b v)
    (fun b y x hfirst hrest hclosed => ?_) (fun b u hclosed => ?_) b self boxName i n
  · exact hall hclosed
  · have hspares := hfirst hclosed
    exact hspares.trans (hrest (by rw [hspares.clients]; exact hspares.closed hclosed))
  · rcases eq_or_ne v u with rfl | hv
    · rw [finishClientSession_of_closed hclosed]
      exact .refl b v
    · exact finishClientSession_spares hv

theorem removeBox_same {name : CStr} {r : Int} (h : b.removeBox name = .ok (x, r)) :
    x.maxSessions = b.maxSessions ∧ x.clients = b.clients ∧ x.fds = b.fds := by
  cases removedBox_of h <;> exact ⟨rfl, rfl, rfl⟩

theorem removeBox_spares {name : CStr} {r : Int} (h : b.removeBox name = .ok (x, r)) :
    Spares b x v :=
  .of_same (removeBox_same h).1 (removeBox_pcs h) (removeBox_same h).2.1 (removeBox_same h).2.2

/-- The descriptor is not that of `v`'s pipe. -/
theorem takeFd_spares {fd : Nat} (h : b.takeFd fd = some x) (hfd : (b.clients v).clientPipe ≠ fd) :
    Spares b x v := by
  obtain ⟨-, rfl⟩ := takeFd_eq_some.mp h
  refine ⟨rfl, rfl, rfl, fun hclosed => ?_⟩
  unfold isOpenFd at hclosed ⊢
  rw [Bool.and_eq_false_iff] at hclosed ⊢
  by_cases hnn : 0 ≤ (b.clients v).clientPipe
  · refine hclosed.imp id fun hfds => (Function.update_of_ne ?_ ..).trans hfds
    omega
  · exact Or.inl (by simpa using hnn)

theorem emit_spares {bytes : List UInt8} {result : WriteResult}
    (h : b.emit w bytes result = some x) :
    Spares b x v := by
  obtain ⟨sent, rfl⟩ := emit_sent h
  exact .of_same rfl rfl rfl rfl

/-! ## The sections -/

/-- A broadcast moves sleepers only. -/
theorem broadcast_spares (hawake : ∀ i n, b.pcs v ≠ .asleep i n) (i : Nat) :
    Spares b (b.broadcast i) v :=
  ⟨rfl, if_neg (hawake i _), rfl, id⟩

theorem createSection_spares (malloced : Bool) : Spares b (b.createSection w malloced).1 v := by
  rcases createSection_cases b w malloced with ⟨msg, heq, -⟩ | ⟨-, -, -,
    ⟨j, -, heq⟩ | ⟨-, heq⟩⟩ <;> rw [heq] <;>
    exact .of_same rfl rfl rfl rfl

section Sections

variable (hv : v ≠ w)
include hv

theorem returned_spares (result : Int) : Spares b (b.returned w result) v := by
  unfold returned
  split
  · split
    · exact (Spares.refl b v).crash
    · exact (Spares.refl b v).setPc hv
  · exact (Spares.refl b v).setPc hv

theorem registerBox_spares (stack : List UInt8) : Spares b (b.registerBox w stack) v := by
  unfold registerBox
  dsimp only
  split
  · exact ((Spares.refl b v).close _).setPc hv
  · split
    · split
      · exact ((Spares.refl b v).setClient hv).returnFinish hv
      · exact (((Spares.refl b v).setClient hv).setBox _ _).setPc hv
    · exact (((Spares.refl b v).setClient hv).setBox _ _).setPc hv

theorem pipeClosed_spares : Spares b (b.pipeClosed w) v := by
  unfold pipeClosed
  split
  · exact (Spares.refl b v).endSession hv 0
  · exact (Spares.refl b v).setPc hv

theorem pubCount_spares (hawake : ∀ i n, b.pcs v ≠ .asleep i n) (message : List UInt8) :
    Spares b (b.pubCount w i message) v := by
  have hbroadcast : ∀ box, Spares b ((b.setBox i box).broadcast i) v := fun box =>
    ((Spares.refl b v).setBox i box).trans (broadcast_spares (b := b.setBox i box) hawake i)
  exact ((hbroadcast _).setBox _ _).setPc hv

theorem Removes.spares (h : Removes b w x) (hclosed : b.isOpenFd (b.clients v).clientPipe = false) :
    Spares b x v := by
  have hspares : ∀ {y : Broker} {ret : Int},
      b.finishSessions w (b.clients w).boxName.str 0 b.maxSessions = (y, ret) → Spares b y v := by
    intro y ret hfinish
    have hsessions : Spares b (b.finishSessions w (b.clients w).boxName.str 0 b.maxSessions).1 v :=
      finishSessions_spares hclosed
    rwa [hfinish] at hsessions
  cases h with
  | absent => exact (Spares.refl b v).setPc hv
  | unfinished _ hfinish => exact (hspares hfinish).setPc hv
  | crash _ hfinish => exact (hspares hfinish).crash
  | notUnlinked _ hfinish _ hremove =>
    exact ((hspares hfinish).trans (removeBox_spares hremove)).setPc hv
  | removed _ hfinish _ hremove =>
    exact ((hspares hfinish).trans (removeBox_spares hremove)).setPc hv

theorem answered_spares (locked : Bool) : Spares b (b.answered w locked) v := by
  unfold answered
  split
  · exact (Spares.of_same rfl rfl rfl rfl : Spares b { b with boxesLock := none } v).returnFinish hv
  · exact (Spares.refl b v).returnFinish hv

/-! ## The cases -/

theorem Ends.spares (h : Ends b w pc a x) : Spares b x v := by
  have htfs : ∀ t, Spares b { b with tfs := t } v := (Spares.refl b v).tfs
  cases h with
  | pipeClosed => exact pipeClosed_spares hv
  | pubOpen => exact (htfs _).endSession hv _
  | pubWrite => exact (htfs _).endSession hv _
  | historyOpen => exact ((htfs _).setClient hv).endSession hv _
  | historyRead => exact (htfs _).endSession hv _
  | historySendOp hx => exact (emit_spares hx).setPc hv
  | historySendMessage hx => exact (emit_spares hx).setPc hv
  | followNone => exact (htfs _).returnFinish hv
  | followRead => exact (htfs _).endSession hv _
  | followSendOp hx => exact (emit_spares hx).endSession hv _
  | followSendMessage hx => exact (emit_spares hx).endSession hv _

theorem Continues.spares (h : Continues b w pc x)
    (hawake : ∀ i message, pc = .pubCount i message → ∀ j n, b.pcs v ≠ .asleep j n) :
    Spares b x v := by
  have hset : ∀ pc, Spares b (b.setPc w pc) v := fun pc => (Spares.refl b v).setPc hv
  have htfs : ∀ t, Spares b { b with tfs := t } v := (Spares.refl b v).tfs
  cases h with
  | pubOpcode => exact hset _
  | pubMessage => exact hset _
  | pubLock => exact ((Spares.refl b v).setBox _ _).setPc hv
  | pubOpen => exact (htfs _).setPc hv
  | pubWrite => exact (htfs _).setPc hv
  | pubCount => exact pubCount_spares hv (hawake _ _ rfl) _
  | historyLock => exact ((Spares.refl b v).setBox _ _).setPc hv
  | historyOpen => exact ((htfs _).setClient hv).setPc hv
  | historyTest => exact hset _
  | historyNone => exact ((Spares.refl b v).setBox _ _).setPc hv
  | historyRead => exact (htfs _).setPc hv
  | historyEnd => exact ((htfs _).setBox _ _).setPc hv
  | historySendOp _ _ hx => exact (emit_spares hx).setPc hv
  | historyNext hx => exact (emit_spares hx).setPc hv
  | historyLast hx => exact ((emit_spares hx).setClient hv).setPc hv
  | sleep => exact hset _
  | followLock => exact hset _
  | wake => exact hset _
  | followRead => exact (htfs _).setPc hv
  | followSendOp hx => exact (emit_spares hx).setPc hv
  | followSendMessage hx => exact ((emit_spares hx).setClient hv).setPc hv

theorem Serves.spares (h : Serves b w pc a x)
    (hclosed : pc = .removeBody → b.isOpenFd (b.clients v).clientPipe = false)
    (hfd : ∀ (path : CStr) (fd : Nat), a = .opened path (some fd) → (b.clients v).clientPipe ≠ fd) :
    Spares b x v := by
  have hset : ∀ pc, Spares b (b.setPc w pc) v := fun pc => (Spares.refl b v).setPc hv
  have htfs : ∀ t, Spares b { b with tfs := t } v := (Spares.refl b v).tfs
  have hlock : ∀ lock, Spares b { b with boxesLock := lock } v := fun _ => .of_same rfl rfl rfl rfl
  cases h with
  | request => exact (((Spares.refl b v).setClient hv).setPc hv).trans (.of_same rfl rfl rfl rfl)
  | returned => exact returned_spares hv _
  | opened _ hfree =>
    have htake := takeFd_spares (takeFd_eq_some.mpr ⟨hfree, rfl⟩) (hfd _ _ rfl)
    exact (htake.setClient hv).setPc hv
  | notOpened => exact hset _
  | registerBox => exact registerBox_spares hv _
  | createLock => exact (createSection_spares _).setPc hv
  | createNotOpened => exact ((Spares.refl b v).setClient hv).setPc hv
  | createCrash => exact (Spares.refl b v).crash
  | createFailed => exact (htfs _).setPc hv
  | createFile => exact ((htfs _).setClient hv).setPc hv
  | removeLock => exact (hlock _).setPc hv
  | removeNotOpened => exact (hlock _).setPc hv
  | removeBody => exact (removeBody_removes b w).spares hv (hclosed rfl)
  | answering hx => exact (emit_spares hx).setPc hv
  | notAnswered hx => exact (emit_spares hx).setPc hv
  | answered => exact answered_spares hv _
  | listEnd => exact (Spares.refl b v).returnFinish hv
  | listSkip => exact hset _
  | listWrite hx => exact (emit_spares hx).setPc hv
  | listFailed hx => exact (emit_spares hx).setPc hv

end Sections

theorem Crashes.spares (h : Crashes b pc x) : Spares b x v := by
  cases h <;> exact .of_same rfl rfl rfl rfl

/-- A worker that is awake, and whose pipe is closed, is left alone by the others. -/
theorem step_spares (hs : b.step (w, a) = some b') (hv : v ≠ w)
    (hclosed : b.isOpenFd (b.clients v).clientPipe = false) (hawake : ∀ i n, b.pcs v ≠ .asleep i n)
    (hfd : ∀ (path : CStr) (fd : Nat), a = .opened path (some fd) → (b.clients v).clientPipe ≠ fd) :
    Spares b b' v := by
  rcases step_cases hs with hends | hcrash | hgoes | hserves
  · exact hends.spares hv
  · exact hcrash.spares
  · exact hgoes.spares hv fun _ _ _ => hawake
  · exact hserves.spares hv (fun _ => hclosed) hfd

end Broker

end MBroker
