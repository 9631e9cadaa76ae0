import MBroker.Broker.Placement

/-!
# Locks

A worker takes the lock of a box for each message that it publishes, and while it reads
the history of the box; a remove request holds `boxes_lock` from its first section up to
its answer. The handlers return early when a call fails while they hold a lock, and then
they do not give it back.

Results:
1. `Balanced.step`: a section in which nothing fails under a lock.
2. `locks_balanced`: in every run of such sections a worker that is outside of them
   holds no lock; and any other section leaves its handler with the lock held.
3. `full_box_locked`: a full box stays locked.
-/

namespace MBroker

open Transition Fs

/-- Where a worker has the lock of box `i`; `box` is the pointer of its record. -/
def Pc.HasBoxLock (i : Nat) (box : Option Nat) : Pc → Prop
  | .pubOpen j _ | .pubWrite j _ _ | .pubCount j _ => j = i
  | .historyOpen | .historyTest | .historyRead | .historySendOp .. | .historySendMessage .. =>
    box = none ∨ box = some i
  | _ => False

/-- Where a worker has `boxes_lock`. -/
def Pc.HasTableLock : Pc → Prop
  | .removeOpen | .removeBody | .answering _ true => True
  | _ => False

/-- Inside of a section that needs a lock. -/
def Pc.Locked : Pc → Bool
  | .pubOpen .. | .pubWrite .. | .pubCount .. | .historyOpen | .historyTest | .historyRead
  | .historySendOp .. | .historySendMessage .. | .removeOpen | .removeBody
  | .answering _ true => true
  | _ => false

namespace Broker

variable {b b' x : Broker} {v w i n : Nat} {pc : Pc} {a : Answer}

/-- Worker `w` has no lock. -/
def HoldsNothing (b : Broker) (w : Nat) : Prop :=
  b.boxesLock ≠ some w ∧ ∀ i, (b.boxes i).lock ≠ some w

/-! ## Sections in which nothing fails under a lock -/

/-- Where worker `w` stands under a lock, its call succeeds and its write is taken whole. -/
def SmoothAt (b : Broker) (w : Nat) (a : Answer) : Pc → Prop
  | .pubOpen i _ => ∀ t fhandle,
      tfsOpen b.tfs (some (b.boxes i).boxName.str) tfsOAppend = .ok (t, fhandle) → 0 ≤ fhandle
  | .pubWrite _ message fhandle => ∀ t r,
      tfsWrite b.tfs fhandle (message ++ [0]) ((messageStr message).length + 1) = .ok (t, r) →
      ((messageStr message).length + 1 : Nat) ≤ r
  | .historyOpen => ∀ t fhandle,
      tfsOpen b.tfs (some (b.clients w).boxName.str) tfsOCreat = .ok (t, fhandle) → 0 ≤ fhandle
  | .historyRead =>
    ∀ t r bytes, tfsRead b.tfs (b.clients w).boxFd boxSize = .ok (t, r, bytes) → 0 ≤ r
  | .historySendOp .. => a = .wrote (.wrote 1)
  | .historySendMessage .. => a = .wrote (.wrote messageLength)
  | .removeBody => b.getBox (b.clients w).boxName.str ≠ none →
      b.AllFinish w (b.clients w).boxName.str 0 b.maxSessions ∧
        ∀ t r, tfsUnlink b.tfs (some (b.clients w).boxName.str) = .ok (t, r) → r ≠ -1
  | .answering (bytes :: _) true => a = .wrote (.wrote bytes.length)
  | _ => True

def Smooth (b : Broker) (e : Nat × Answer) : Prop := b.SmoothAt e.1 e.2 (b.pcs e.1)

/-- All locks are as they were. -/
def SameLocks (b x : Broker) : Prop :=
  (∀ i, (x.boxes i).lock = (b.boxes i).lock) ∧ x.boxesLock = b.boxesLock

/-- No lock is taken. -/
def NoneTaken (b x : Broker) : Prop :=
  (∀ i v, (x.boxes i).lock = some v → (b.boxes i).lock = some v) ∧
    ∀ v, x.boxesLock = some v → b.boxesLock = some v

theorem SameLocks.refl (b : Broker) : SameLocks b b := ⟨fun _ => rfl, rfl⟩

theorem SameLocks.noneTaken (h : SameLocks b x) : NoneTaken b x :=
  ⟨fun i _ hl => (h.1 i).symm.trans hl, fun _ hl => h.2.symm.trans hl⟩

theorem sameLocks_of_kept (h : Kept b x) : SameLocks b x := ⟨h.lock, h.boxesLock⟩

theorem sameLocks_finish (b : Broker) (w : Nat) : SameLocks b (b.finishClientSession w).1 :=
  sameLocks_of_kept (finishClientSession_frame b w).toKept

theorem sameLocks_emit {bytes : List UInt8} {result : WriteResult}
    (h : b.emit w bytes result = some x) :
    SameLocks b x := by
  obtain ⟨sent, rfl⟩ := emit_sent h
  exact .refl b

theorem SameLocks.holdsNothing (h : SameLocks b x) : x.HoldsNothing w ↔ b.HoldsNothing w := by
  rw [HoldsNothing, HoldsNothing, h.2]
  simp only [h.1]

theorem unlockBox_noneTaken (b : Broker) (i : Nat) : NoneTaken b (b.unlockBox i) := by
  refine ⟨fun j v hl => ?_, fun _ hl => hl⟩
  rcases eq_or_ne j i with rfl | hj
  · rw [unlockBox, setBox_self] at hl
    cases hl
  · rw [unlockBox, setBox_of_ne _ _ hj] at hl
    exact hl

theorem Ends.sameLocks (h : Ends b w pc a x) : SameLocks b x := by
  have hend : ∀ (y : Broker) (result : Int), SameLocks y (y.endSession w result) := fun y _ =>
    sameLocks_finish y w
  cases h with
  | pipeClosed =>
    unfold Broker.pipeClosed
    split
    · exact hend b 0
    · exact .refl b
  | @pubOpen i _ t _ _ _ => exact hend { b with tfs := t } _
  | @pubWrite i _ t _ _ _ _ _ => exact hend { b with tfs := t } _
  | @historyOpen t fhandle _ _ =>
    exact hend (({ b with tfs := t } : Broker).setClient w { b.clients w with boxFd := fhandle }) _
  | @historyRead t _ _ _ _ => exact hend { b with tfs := t } _
  | @historySendOp _ _ _ y he _ =>
    show SameLocks b (y.setPc w (.ret (-1)))
    exact ⟨fun i => (sameLocks_emit he).1 i, (sameLocks_emit he).2⟩
  | @historySendMessage _ _ _ y he _ =>
    show SameLocks b (y.setPc w (.ret (-1)))
    exact ⟨fun i => (sameLocks_emit he).1 i, (sameLocks_emit he).2⟩
  | @followNone _ t _ _ => exact sameLocks_finish { b with tfs := t } w
  | @followRead _ t _ _ _ _ => exact hend { b with tfs := t } _
  | @followSendOp _ _ _ _ code y he =>
    have hsame := hend y code
    exact ⟨fun i => (hsame.1 i).trans ((sameLocks_emit he).1 i),
      hsame.2.trans (sameLocks_emit he).2⟩
  | @followSendMessage _ _ _ _ code y he =>
    have hsame := hend y code
    exact ⟨fun i => (hsame.1 i).trans ((sameLocks_emit he).1 i),
      hsame.2.trans (sameLocks_emit he).2⟩

theorem Crashes.sameLocks (h : Crashes b pc x) : SameLocks b x := by
  cases h <;> exact ⟨fun _ => rfl, rfl⟩

/-! ## Each lock is held where it is needed -/

/-- The locks of worker `w` are those that its section needs. -/
structure Owns (b : Broker) (w : Nat) : Prop where
  boxes : ∀ i, (b.boxes i).lock = some w → (b.pcs w).HasBoxLock i (b.clients w).box
  table : b.boxesLock = some w → (b.pcs w).HasTableLock
  waiting : ∀ i, b.pcs w = .historyLock i → (b.clients w).box = none ∨ (b.clients w).box = some i

/-- No worker but `w` gets a lock. -/
def TakenBy (b x : Broker) (w : Nat) : Prop :=
  (∀ i v, v ≠ w → (x.boxes i).lock = some v → (b.boxes i).lock = some v) ∧
    ∀ v, v ≠ w → x.boxesLock = some v → b.boxesLock = some v

theorem NoneTaken.takenBy (h : NoneTaken b x) (w : Nat) : TakenBy b x w :=
  ⟨fun i v _ => h.1 i v, fun v _ => h.2 v⟩

theorem lockBox_takenBy (b : Broker) (w i : Nat) (pc : Pc) :
    TakenBy b ((b.setBox i { b.boxes i with lock := some w }).setPc w pc) w := by
  refine ⟨fun j v hv hl => ?_, fun _ _ hl => hl⟩
  change ((b.setBox i { b.boxes i with lock := some w }).boxes j).lock = some v at hl
  rcases eq_or_ne j i with rfl | hj
  · rw [setBox_self] at hl
    exact absurd (Option.some.inj hl).symm hv
  · rwa [setBox_of_ne _ _ hj] at hl

/-- No lock is needed outside of the sections that take one. -/
theorem Pc.not_hasBoxLock {pc : Pc} {box : Option Nat} (h : pc.Locked = false) :
    ¬ pc.HasBoxLock i box := by
  cases pc <;> first | exact id | cases h

theorem Pc.not_hasTableLock {pc : Pc} (h : pc.Locked = false) : ¬ pc.HasTableLock := by
  cases pc <;> first | exact id | cases h | skip
  next writes locked =>
    cases locked
    · exact id
    · cases h

theorem Owns.holdsNothing (h : Owns b w) (hfree : (b.pcs w).Locked = false) : b.HoldsNothing w :=
  ⟨fun hl => Pc.not_hasTableLock hfree (h.table hl),
    fun i hl => Pc.not_hasBoxLock hfree (h.boxes i hl)⟩

theorem NoneTaken.holdsNothing (h : NoneTaken b x) (hb : b.HoldsNothing w) : x.HoldsNothing w :=
  ⟨fun hl => hb.1 (h.2 w hl), fun i hl => hb.2 i (h.1 i w hl)⟩

theorem HoldsNothing.owns (h : x.HoldsNothing w) (hno : ∀ i, x.pcs w ≠ .historyLock i) : Owns x w :=
  ⟨fun i hl => absurd hl (h.2 i), fun hl => absurd hl h.1, fun i hi => absurd hi (hno i)⟩

/-- `w` goes on with the locks that it had. -/
theorem Owns.moves {y : Broker} {next : Pc} (h : Owns b w) (hpc : b.pcs w = pc)
    (hnone : NoneTaken b y)
    (hbox : ∀ i, pc.HasBoxLock i (b.clients w).box → next.HasBoxLock i (y.clients w).box)
    (htable : pc.HasTableLock → next.HasTableLock) (hno : ∀ i, next ≠ .historyLock i) :
    Owns (y.setPc w next) w := by
  subst hpc
  refine ⟨fun i hl => ?_, fun hl => ?_, fun i hi => ?_⟩
  · rw [setPc_self]
    exact hbox i (h.boxes i (hnone.1 i w hl))
  · rw [setPc_self]
    exact htable (h.table (hnone.2 w hl))
  · rw [setPc_self] at hi
    exact absurd hi (hno i)

/-- `w` takes the lock of box `i` and had none. -/
theorem Owns.locks {pc : Pc} (h : Owns b w) (hfree : (b.pcs w).Locked = false)
    (hhas : pc.HasBoxLock i (b.clients w).box) (hno : ∀ j, pc ≠ .historyLock j) :
    Owns ((b.setBox i { b.boxes i with lock := some w }).setPc w pc) w := by
  have hnone := h.holdsNothing hfree
  refine ⟨fun j hl => ?_, fun hl => absurd hl hnone.1, fun j hj => ?_⟩
  · change ((b.setBox i { b.boxes i with lock := some w }).boxes j).lock = some w at hl
    rw [setPc_self]
    rcases eq_or_ne j i with rfl | hj
    · exact hhas
    · rw [setBox_of_ne _ _ hj] at hl
      exact absurd hl (hnone.2 j)
  · rw [setPc_self] at hj
    exact absurd hj (hno j)

/-- `w` gives the lock of box `i` back and had no other. -/
theorem Owns.unlocks {y : Broker} (h : Owns b w) (hnone : NoneTaken b y)
    (honly : ∀ j, (b.pcs w).HasBoxLock j (b.clients w).box → j = i)
    (htable : ¬ (b.pcs w).HasTableLock) :
    (y.unlockBox i).HoldsNothing w := by
  refine ⟨fun hl => htable (h.table (hnone.2 w hl)), fun j hl => ?_⟩
  have hlock := hnone.1 j w ((unlockBox_noneTaken y i).1 j w hl)
  obtain rfl := honly j (h.boxes j hlock)
  rw [unlockBox, setBox_self] at hl
  cases hl

theorem HoldsNothing.goes {y : Broker} {next : Pc} (h : y.HoldsNothing w)
    (hno : ∀ i, next ≠ .historyLock i) :
    Owns (y.setPc w next) w :=
  HoldsNothing.owns (x := y.setPc w next) h fun i hi => hno i ((setPc_self ..).symm.trans hi)

/-- The counter of a box is no lock. -/
theorem boxSize_sameLocks (b : Broker) (i n : Nat) :
    SameLocks b (b.setBox i { b.boxes i with boxSize := n }) :=
  ⟨field_setBox Box.lock rfl, rfl⟩

theorem pubCount_owns {message : List UInt8} (hpc : b.pcs w = .pubCount i message) (h : Owns b w) :
    Owns (b.pubCount w i message) w := by
  have hsame :=
    boxSize_sameLocks b i (addSize (b.boxes i).boxSize ((messageStr message).length + 1))
  have hfree := h.unlocks (i := i) hsame.noneTaken
    (fun j hj => (hpc ▸ hj : (Pc.pubCount i message).HasBoxLock j (b.clients w).box).symm)
    (fun hl => (hpc ▸ hl : (Pc.pubCount i message).HasTableLock))
  exact HoldsNothing.goes (y := ((b.setBox i { b.boxes i with
    boxSize := addSize (b.boxes i).boxSize ((messageStr message).length + 1) }).broadcast
      i).unlockBox i)
    hfree nofun

theorem Continues.owns (h : Continues b w pc x) (hpc : b.pcs w = pc) (ho : Owns b w) :
    Owns x w := by
  have hsame : NoneTaken b b := (SameLocks.refl b).noneTaken
  -- The history loop is left in two ways, and unlocks the box in both.
  have hdone : ∀ {i : Nat} {t : Fs.State}, pc = .historyTest ∨ pc = .historyRead →
      (b.clients w).box = some i →
      Owns ((({ b with tfs := t } : Broker).unlockBox i).setPc w (.followLock i)) w := by
    intro i t hplace hbox
    have honly : ∀ j, (b.pcs w).HasBoxLock j (b.clients w).box → j = i := by
      intro j hj
      rw [hbox, hpc] at hj
      rcases hplace with rfl | rfl <;> exact (hj.elim nofun Option.some.inj).symm
    have htable : ¬ (b.pcs w).HasTableLock := by
      rw [hpc]
      rcases hplace with rfl | rfl <;> exact id
    exact HoldsNothing.goes (ho.unlocks (y := { b with tfs := t }) hsame honly htable) nofun
  cases h with
  | pubOpcode => exact ho.moves hpc hsame (fun _ => id) id nofun
  | pubMessage => exact ho.moves hpc hsame (fun _ => id) id nofun
  | pubLock => exact ho.locks (by rw [hpc]; rfl) rfl nofun
  | pubOpen => exact ho.moves hpc hsame (fun _ => id) id nofun
  | pubWrite => exact ho.moves hpc hsame (fun _ => id) id nofun
  | pubCount => exact pubCount_owns hpc ho
  | historyLock => exact ho.locks (by rw [hpc]; rfl) (ho.waiting _ hpc) nofun
  | @historyOpen t fhandle =>
    have hbox := field_setClient (b := { b with tfs := t }) (w := w)
      (c := { b.clients w with boxFd := fhandle }) Client.box rfl
    exact ho.moves hpc hsame
      (fun i hi => (congrArg (Pc.HasBoxLock i · .historyTest) hbox).mpr hi) id nofun
  | historyTest => exact ho.moves hpc hsame (fun _ => id) id nofun
  | historyNone hbox => exact hdone (Or.inl rfl) hbox
  | historyRead => exact ho.moves hpc hsame (fun _ => id) id nofun
  | historyEnd _ hbox => exact hdone (Or.inr rfl) hbox
  | historySendOp _ _ hx =>
    obtain ⟨sent, rfl⟩ := emit_sent hx
    exact ho.moves hpc hsame (fun _ => id) id nofun
  | historyNext hx =>
    obtain ⟨sent, rfl⟩ := emit_sent hx
    exact ho.moves hpc hsame (fun _ => id) id nofun
  | @historyLast _ n _ hx =>
    obtain ⟨sent, rfl⟩ := emit_sent hx
    have hbox := field_setClient (b := { b with sent := sent }) (w := w)
      (c := { b.clients w with offset := (b.clients w).offset + n }) Client.box rfl
    exact ho.moves hpc hsame
      (fun i hi => (congrArg (Pc.HasBoxLock i · .historyTest) hbox).mpr hi) id nofun
  | sleep => exact ho.moves hpc hsame (fun _ => id) id nofun
  | followLock => exact ho.moves hpc hsame (fun _ => id) id nofun
  | wake => exact ho.moves hpc hsame (fun _ => id) id nofun
  | followRead => exact ho.moves hpc hsame (fun _ => id) id nofun
  | followSendOp hx =>
    obtain ⟨sent, rfl⟩ := emit_sent hx
    exact ho.moves hpc hsame (fun _ => id) id nofun
  | followSendMessage hx =>
    obtain ⟨sent, rfl⟩ := emit_sent hx
    exact ho.moves hpc hsame (fun _ => False.elim) id nofun

theorem addBox_noneTaken (b : Broker) (i : Nat) (boxName : CharArray 32) :
    NoneTaken b (b.addBox i boxName) := by
  refine ⟨fun j v hl => ?_, fun _ hl => hl⟩
  rcases eq_or_ne j i with rfl | hj
  · rw [addBox, setBox_self] at hl
    cases hl
  · rw [addBox, setBox_of_ne _ _ hj] at hl
    exact hl

theorem Removes.sameLocks (h : Removes b w x) : SameLocks b x := by
  have hsessions : ∀ {x : Broker} {ret : Int},
      b.finishSessions w (b.clients w).boxName.str 0 b.maxSessions = (x, ret) → SameLocks b x := by
    intro x ret hx
    have hkept := finishSessions_kept b w (b.clients w).boxName.str 0 b.maxSessions
    rw [hx] at hkept
    exact sameLocks_of_kept hkept
  have hdropped : ∀ {x y : Broker} {ret : Int}, SameLocks b x →
      x.removeBox (b.clients w).boxName.str = .ok (y, ret) → SameLocks b y := by
    intro x y ret hx hy
    cases removedBox_of hy with
    | absent => exact hx
    | linked => exact hx
    | @dropped i _ _ _ _ _ =>
      refine ⟨fun j => Eq.trans ?_ (hx.1 j), hx.2⟩
      exact field_setBox (b := x) (i := i) (x := { x.boxes i with
        boxName := (x.boxes i).boxName.clear, boxSize := 0, nPublishers :=
          0, nSubscribers := 0 }) Box.lock rfl j
  cases h with
  | absent => exact .refl b
  | unfinished _ hx =>
    have hsame := hsessions hx
    exact hsame
  | crash _ hx =>
    have hsame := hsessions hx
    exact hsame
  | notUnlinked _ hx _ hy =>
    have hsame := hdropped (hsessions hx) hy
    exact hsame
  | removed _ hx _ hy =>
    have hsame := hdropped (hsessions hx) hy
    exact hsame

theorem registerBox_noneTaken (b : Broker) (w : Nat) (stack : List UInt8) :
    NoneTaken b (b.registerBox w stack) := by
  suffices hsame : SameLocks b (b.registerBox w stack) from hsame.noneTaken
  cases hg : b.getBox (b.clients w).boxName.str with
  | none =>
    rw [registerBox_absent hg]
    exact ⟨(close_frame b w _).lock, (close_frame b w _).boxesLock⟩
  | some i =>
    by_cases hop : (b.clients w).opcode = opCodeRegistPub
    · by_cases hone : (b.boxes i).nPublishers = 1
      · rw [registerBox_rejected hg hop hone]
        exact sameLocks_finish (b.attach w i) w
      · rw [registerBox_publisher hg hop hone]
        exact ⟨field_setBox Box.lock rfl, rfl⟩
    · rw [registerBox_subscriber hg hop]
      exact ⟨field_setBox Box.lock rfl, rfl⟩

theorem registerBox_owns (ho : Owns b w) (hpc : b.pcs w = .registerBox) (stack : List UInt8) :
    Owns (b.registerBox w stack) w := by
  have hfree := (registerBox_noneTaken b w stack).holdsNothing (ho.holdsNothing (by rw [hpc]; rfl))
  refine ⟨fun i hl => absurd hl (hfree.2 i), fun hl => absurd hl hfree.1, fun i hi => ?_⟩
  cases hg : b.getBox (b.clients w).boxName.str with
  | none =>
    rw [registerBox_absent hg, setPc_self] at hi
    cases hi
  | some j =>
    by_cases hop : (b.clients w).opcode = opCodeRegistPub
    · by_cases hone : (b.boxes j).nPublishers = 1
      · rw [registerBox_rejected hg hop hone, returnFinish, setPc_self] at hi
        cases hi
      · rw [registerBox_publisher hg hop hone, setPc_self] at hi
        cases hi
    · rw [registerBox_subscriber hg hop] at hi ⊢
      rw [setPc_self] at hi
      cases hi
      exact Or.inr (congrArg Client.box (setClient_self ..))

/-- A remove request under `boxes_lock` goes on to its answer. -/
theorem removeBody_owns (ho : Owns b w) (hpc : b.pcs w = .removeBody)
    (hok : b.SmoothAt w .none .removeBody)
    (h : Removes b w x) : Owns x w := by
  have hsame := h.sameLocks.noneTaken
  have hholds : (x.pcs w).HasTableLock → Owns x w := by
    intro htable
    refine ⟨fun i hl => ?_, fun _ => htable, fun i hi => ?_⟩
    · exact (hpc ▸ ho.boxes i (hsame.1 i w hl) : Pc.removeBody.HasBoxLock i (b.clients w).box).elim
    · rw [hi] at htable
      exact htable.elim
  have hrest : ∀ {i : Nat} {x : Broker} {ret : Int}, b.getBox (b.clients w).boxName.str = some i →
      b.finishSessions w (b.clients w).boxName.str 0 b.maxSessions = (x, ret) →
      ret ≠ -1 ∧ Kept b x ∧ ∀ t r, tfsUnlink b.tfs (some (b.clients w).boxName.str)
        = .ok (t, r) → r ≠ -1 := by
    intro i x ret hi hx
    obtain ⟨hall, hunlink⟩ := hok (by rw [hi]; exact Option.some_ne_none i)
    have hkept := finishSessions_kept b w (b.clients w).boxName.str 0 b.maxSessions
    have hret := finishSessions_iff.mpr hall
    rw [hx] at hkept hret
    exact ⟨hret, hkept, hunlink⟩
  cases h with
  | absent => exact hholds (by rw [setPc_self]; trivial)
  | unfinished hi hx => exact absurd rfl (hrest hi hx).1
  | @crash i y _ _ hi hx =>
    have hpcs : y.crash.pcs w = .removeBody := (congrFun (hrest hi hx).2.1.pcs w).trans hpc
    exact hholds (by rw [hpcs]; trivial)
  | notUnlinked hi hx _ hy =>
    obtain ⟨-, hkept, hunlink⟩ := hrest hi hx
    cases removedBox_of hy with
    | absent hnone =>
      rw [hkept.getBox, hi] at hnone
      cases hnone
    | linked _ hu => exact absurd rfl (hunlink _ _ (hkept.tfs ▸ hu))
  | removed => exact hholds (by rw [setPc_self]; trivial)

theorem handlerOf_ne_historyLock (opcode : UInt8) (i : Nat) :
    handlerOf opcode ≠ .historyLock i := by
  intro hc
  have hin := handlerOf_inSession opcode
  rw [hc] at hin
  cases hin

theorem returnFinish_owns {y : Broker} (h : y.HoldsNothing w) : Owns (y.returnFinish w) w :=
  HoldsNothing.goes (((sameLocks_finish y w).holdsNothing).mpr h) nofun

theorem Serves.owns (h : Serves b w pc a x) (hpc : b.pcs w = pc)
    (hok : b.SmoothAt w a pc) (ho : Owns b w) :
    Owns x w := by
  have hsame : NoneTaken b b := (SameLocks.refl b).noneTaken
  have hfree : pc.Locked = false → b.HoldsNothing w := fun hf => ho.holdsNothing (hpc ▸ hf)
  cases h with
  | request =>
    exact HoldsNothing.goes (y := { b.setClient w _ with sent := Function.update b.sent w [] })
      (hfree rfl)
      (handlerOf_ne_historyLock _)
  | @returned result =>
    unfold Broker.returned
    split
    · split
      · exact HoldsNothing.owns (x := b.crash) (hfree rfl) fun i hi =>
          Pc.noConfusion (hpc.symm.trans hi)
      · exact HoldsNothing.goes (hfree rfl) nofun
    · exact HoldsNothing.goes (hfree rfl) nofun
  | opened hnext =>
    unfold afterOpen at hnext
    split at hnext
    · cases hnext
      exact HoldsNothing.goes (hfree rfl) nofun
    · cases hnext
      exact HoldsNothing.goes (hfree rfl) nofun
    · cases hnext
      exact ho.moves hpc hsame (fun _ => False.elim) id nofun
    · cases hnext
      exact HoldsNothing.goes (hfree rfl) nofun
    · cases hnext
  | notOpened hplace =>
    exact HoldsNothing.goes (hfree (by rcases hplace with rfl | rfl <;> rfl)) nofun
  | registerBox => exact registerBox_owns ho hpc _
  | @createLock malloced _ =>
    refine HoldsNothing.goes ?_ nofun
    rcases createSection_cases b w malloced with ⟨msg, heq, -⟩ | ⟨-, -, -, ⟨j, -, heq⟩ | ⟨-, heq⟩⟩
    · rw [heq]
      exact hfree rfl
    · rw [heq]
      exact (addBox_noneTaken b j _).holdsNothing (hfree rfl)
    · rw [heq]
      exact hfree rfl
  | createNotOpened => exact HoldsNothing.goes (hfree rfl) nofun
  | createCrash =>
    exact HoldsNothing.owns (x := b.crash) (hfree rfl) fun i hi =>
      Pc.noConfusion (hpc.symm.trans hi)
  | createFailed => exact HoldsNothing.goes (hfree rfl) nofun
  | createFile => exact HoldsNothing.goes (hfree rfl) nofun
  | removeLock =>
    refine ⟨fun i hl => absurd hl ((hfree rfl).2 i), fun _ => ?_, fun i hi => ?_⟩
    · rw [setPc_self]
      trivial
    · rw [setPc_self] at hi
      cases hi
  -- The handler that cannot open the pipe unlocks the table before it returns.
  | removeNotOpened =>
    refine HoldsNothing.goes ⟨nofun, fun i hl => ?_⟩ nofun
    exact (hpc ▸ ho.boxes i hl : Pc.removeOpen.HasBoxLock i (b.clients w).box)
  | removeBody => exact removeBody_owns ho hpc hok (removeBody_removes b w)
  | @answering _ _ locked _ hx =>
    obtain ⟨sent, rfl⟩ := emit_sent hx
    exact ho.moves hpc hsame (fun _ => id) (by cases locked <;> exact id) nofun
  | @notAnswered bytes _ locked result _ hx hne =>
    obtain ⟨sent, rfl⟩ := emit_sent hx
    cases locked with
    | false => exact HoldsNothing.goes (hfree rfl) nofun
    -- A removal whose answer fails returns with the table locked: `SmoothAt` rules it out.
    | true => exact absurd (Answer.wrote.inj hok) hne
  | @answered locked =>
    cases locked with
    | false => exact returnFinish_owns (hfree rfl)
    | true =>
      refine returnFinish_owns (y := { b with boxesLock := none }) ⟨nofun, fun i hl => ?_⟩
      exact (hpc ▸ ho.boxes i hl : (Pc.answering [] true).HasBoxLock i (b.clients w).box)
  | listEnd => exact returnFinish_owns (hfree rfl)
  | listSkip => exact HoldsNothing.goes (hfree rfl) nofun
  | listWrite hx =>
    obtain ⟨sent, rfl⟩ := emit_sent hx
    exact HoldsNothing.goes (hfree rfl) nofun
  | listFailed hx =>
    obtain ⟨sent, rfl⟩ := emit_sent hx
    exact HoldsNothing.goes (hfree rfl) nofun

theorem Ends.returns (h : Ends b w pc a x) : ∃ r, x.pcs w = .ret r := by
  cases h with
  | pipeClosed =>
    unfold Broker.pipeClosed
    split <;> exact ⟨0, setPc_self ..⟩
  | _ => exact ⟨_, setPc_self ..⟩

/-- A session ends under a lock only because a call fails or a write is cut. -/
theorem Ends.not_smooth (h : Ends b w pc a x) (hlock : pc.Locked = true) : ¬ b.SmoothAt w a pc := by
  intro hok
  cases h with
  | pipeClosed hplace => rcases hplace with rfl | rfl <;> cases hlock
  | pubOpen hopen hneg => exact absurd (hok _ _ hopen) (not_le.mpr hneg)
  | pubWrite hwrite hcut => exact absurd (hok _ _ hwrite) (not_le.mpr hcut)
  | historyOpen hopen hneg => exact absurd (hok _ _ hopen) (not_le.mpr hneg)
  | historyRead hread hneg => exact absurd (hok _ _ _ hread) (not_le.mpr hneg)
  | historySendOp _ hne => exact hne (Answer.wrote.inj hok)
  | historySendMessage _ hne => exact hne (Answer.wrote.inj hok)
  | followNone => cases hlock
  | followRead => cases hlock
  | followSendOp => cases hlock
  | followSendMessage => cases hlock

theorem Ends.owns (h : Ends b w pc a x) (hpc : b.pcs w = pc)
    (hok : b.SmoothAt w a pc) (ho : Owns b w) :
    Owns x w := by
  have hfree : pc.Locked = false := by
    by_contra hlock
    exact h.not_smooth (Bool.not_eq_false _ ▸ hlock) hok
  have hnone := h.sameLocks.holdsNothing.mpr (ho.holdsNothing (hpc ▸ hfree))
  obtain ⟨r, hr⟩ := h.returns
  exact hnone.owns fun i hi => Pc.noConfusion (hr.symm.trans hi)

theorem Crashes.owns (h : Crashes b pc x) (ho : Owns b w) : Owns x w := by
  obtain ⟨hpcs, hclients⟩ := h.same
  obtain ⟨hlock, htable⟩ := h.sameLocks
  refine ⟨fun i hl => ?_, fun hl => ?_, fun i hi => ?_⟩
  · rw [hpcs, hclients]
    exact ho.boxes i ((hlock i).symm.trans hl)
  · rw [hpcs]
    exact ho.table (htable.symm.trans hl)
  · rw [hpcs] at hi
    rw [hclients]
    exact ho.waiting i hi

/-! ## Every worker -/

theorem Continues.takenBy (h : Continues b w pc x) : TakenBy b x w := by
  have hsame := (SameLocks.refl b).noneTaken.takenBy w
  have hset : ∀ {t : Fs.State} {i : Nat},
    TakenBy b (({ b with tfs := t } : Broker).unlockBox i) w :=
    fun {t i} => (unlockBox_noneTaken ({ b with tfs := t } : Broker) i).takenBy w
  cases h with
  | pubLock => exact lockBox_takenBy b w _ _
  | historyLock => exact lockBox_takenBy b w _ _
  | @pubCount i message =>
    have hsame :=
      boxSize_sameLocks b i (addSize (b.boxes i).boxSize ((messageStr message).length + 1))
    refine ⟨fun j v _ hl => hsame.noneTaken.1 j v ?_, fun _ _ hl => hl⟩
    exact (unlockBox_noneTaken _ i).1 j v hl
  | historyNone => exact hset
  | historyEnd => exact hset
  | historySendOp _ _ hx =>
    obtain ⟨sent, rfl⟩ := emit_sent hx
    exact hsame
  | historyNext hx =>
    obtain ⟨sent, rfl⟩ := emit_sent hx
    exact hsame
  | historyLast hx =>
    obtain ⟨sent, rfl⟩ := emit_sent hx
    exact hsame
  | followSendOp hx =>
    obtain ⟨sent, rfl⟩ := emit_sent hx
    exact hsame
  | followSendMessage hx =>
    obtain ⟨sent, rfl⟩ := emit_sent hx
    exact hsame
  | _ => exact hsame

theorem Serves.takenBy (h : Serves b w pc a x) : TakenBy b x w := by
  have hsame := (SameLocks.refl b).noneTaken.takenBy w
  have hfinish : ∀ y : Broker, TakenBy y (y.returnFinish w) w := fun y =>
    (sameLocks_finish y w).noneTaken.takenBy w
  cases h with
  | returned =>
    unfold Broker.returned
    split
    · split <;> exact hsame
    · exact hsame
  | registerBox => exact (registerBox_noneTaken b w _).takenBy w
  | @createLock malloced _ =>
    rcases createSection_cases b w malloced with ⟨msg, heq, -⟩ | ⟨-, -, -, ⟨j, -, heq⟩ | ⟨-, heq⟩⟩
    · rw [heq]
      exact hsame
    · rw [heq]
      exact (addBox_noneTaken b j _).takenBy w
    · rw [heq]
      exact hsame
  | removeLock => exact ⟨fun _ _ _ hl => hl, fun v hv hl => absurd (Option.some.inj hl).symm hv⟩
  | removeNotOpened => exact ⟨fun _ _ _ hl => hl, nofun⟩
  | removeBody => exact (removeBody_removes b w).sameLocks.noneTaken.takenBy w
  | answering hx =>
    obtain ⟨sent, rfl⟩ := emit_sent hx
    exact hsame
  | notAnswered hx =>
    obtain ⟨sent, rfl⟩ := emit_sent hx
    exact hsame
  | @answered locked =>
    cases locked with
    | false => exact hfinish b
    | true =>
      have hfin := hfinish { b with boxesLock := none }
      exact ⟨hfin.1, fun v hv hl => nomatch hfin.2 v hv hl⟩
  | listEnd => exact hfinish b
  | listWrite hx =>
    obtain ⟨sent, rfl⟩ := emit_sent hx
    exact hsame
  | listFailed hx =>
    obtain ⟨sent, rfl⟩ := emit_sent hx
    exact hsame
  | _ => exact hsame

theorem step_takenBy (hs : b.step (w, a) = some b') : TakenBy b b' w := by
  cases hin : (b.pcs w).InSession with
  | false => exact (step_serves hs hin).takenBy
  | true =>
    rcases step_session hs hin with hends | hcrash | hgoes
    · exact hends.sameLocks.noneTaken.takenBy w
    · exact hcrash.sameLocks.noneTaken.takenBy w
    · exact hgoes.takenBy

/-- The others keep what they have. -/
theorem Owns.beside (h : Owns b v) (hs : b.step (w, a) = some b') (hv : v ≠ w) : Owns b' v := by
  obtain ⟨hboxes, htable⟩ := step_takenBy hs
  have hrecord : (b'.clients v).box = (b.clients v).box ∨ (b'.clients v).box = none :=
    (step_recorded hs hv).imp (congrArg Client.box) And.left
  rcases step_others hs hv with hstay | ⟨i, n, hasleep, hwoken⟩
  · refine ⟨fun i hl => ?_, fun hl => ?_, fun i hi => ?_⟩
    · have hhas := h.boxes i (hboxes i v hv hl)
      rw [hstay]
      rcases hrecord with hbox | hbox
      · rwa [hbox]
      · rw [hbox]
        cases hpc : b.pcs v with
        | historyOpen | historyTest | historyRead | historySendOp
        | historySendMessage => exact Or.inl rfl
        | _ =>
          rw [hpc] at hhas
          exact hhas
    · rw [hstay]
      exact h.table (htable v hv hl)
    · rw [hstay] at hi
      rcases hrecord with hbox | hbox
      · rw [hbox]
        exact h.waiting i hi
      · exact Or.inl hbox
  · have hnone := h.holdsNothing (by rw [hasleep]; rfl)
    exact HoldsNothing.owns ⟨fun hl => hnone.1 (htable v hv hl),
      fun j hl => hnone.2 j (hboxes j v hv hl)⟩
      fun j hj => Pc.noConfusion (hwoken.symm.trans hj)

/-- Each lock is held by a worker in a section that needs it. -/
def Balanced (b : Broker) : Prop := ∀ w, Owns b w

theorem Balanced.step (h : Balanced b) (hs : b.step (w, a) = some b') (hok : Smooth b (w, a)) :
    Balanced b' := by
  intro v
  rcases eq_or_ne v w with rfl | hv
  · cases hin : (b.pcs v).InSession with
    | false => exact (step_serves hs hin).owns rfl hok (h v)
    | true =>
      rcases step_session hs hin with hends | hcrash | hgoes
      · exact hends.owns rfl hok (h v)
      · exact hcrash.owns (h v)
      · exact hgoes.owns rfl (h v)
  · exact (h v).beside hs hv

theorem Balanced.reaches {b₀ : Broker} (h : Balanced b₀) (hr : Reaches Broker.step Smooth b₀ b) :
    Balanced b :=
  hr.invariant h fun _ _ _ hbal hok hs => hbal.step hs hok

/-! ## The sections that keep a lock -/

theorem Crashes.stops (h : Crashes b pc x) : x.stopped = true := by
  cases h <;> rfl

/-- A write to a subscriber that fails, while its history is sent. -/
theorem historySend_rough {rest : List UInt8} {n : Nat} (hs : b.stepWorker w pc a = some x)
    (hpc : pc = .historySendOp rest n ∨ pc = .historySendMessage rest n)
    (hrough : ¬ b.SmoothAt w a pc)
    (hrun : x.stopped = false) : (∃ r, x.pcs w = .ret r) ∧ SameLocks b x := by
  have hret : ∀ {y : Broker} {bytes : List UInt8} {result : WriteResult},
      b.emit w bytes result = some y →
      (∃ r, (y.setPc w (.ret (-1))).pcs w = .ret r) ∧ SameLocks b (y.setPc w (.ret (-1))) :=
        fun {y} _ _ he =>
    ⟨⟨-1, setPc_self ..⟩, fun i => (sameLocks_emit he).1 i, (sameLocks_emit he).2⟩
  rcases hpc with rfl | rfl
  · cases a with
    | wrote result =>
      replace hs : b.historySendOp w rest n result = some x := hs
      unfold Broker.historySendOp at hs
      split at hs
      · cases hs
        cases hrun
      · replace ⟨y, hy, hs⟩ := Option.bind_eq_some_iff.mp hs
        rw [if_neg fun hone => hrough (congrArg Answer.wrote hone)] at hs
        cases hs
        exact hret hy
    | _ => cases hs
  · cases a with
    | wrote result =>
      replace hs : b.historySendMessage w rest n result = some x := hs
      replace ⟨y, hy, hs⟩ := Option.bind_eq_some_iff.mp hs
      rw [if_neg fun hall => hrough (congrArg Answer.wrote hall)] at hs
      cases hs
      exact hret hy
    | _ => cases hs

/-- A loop goes on after a section under a lock only if nothing failed. -/
theorem Continues.smooth (h : Continues b w pc x)
    (hsend : ∀ rest n, pc ≠ .historySendOp rest n ∧ pc ≠ .historySendMessage rest n) :
    b.SmoothAt w a pc := by
  cases h with
  | pubOpen hopen hpos =>
    intro t fhandle ht
    rw [hopen] at ht
    cases ht
    exact hpos
  | pubWrite hwrite hwhole =>
    intro t r ht
    rw [hwrite] at ht
    cases ht
    exact hwhole
  | historyOpen hopen hpos =>
    intro t fhandle ht
    rw [hopen] at ht
    cases ht
    exact hpos
  | historyRead hread hpos =>
    intro t r bytes ht
    rw [hread] at ht
    cases ht
    exact Int.le_of_lt hpos
  | historyEnd hread =>
    intro t r bytes ht
    rw [hread] at ht
    cases ht
    exact le_rfl
  | historySendOp => exact absurd rfl (hsend _ _).1
  | historyNext => exact absurd rfl (hsend _ _).2
  | historyLast => exact absurd rfl (hsend _ _).2
  | _ => trivial

/-- A removal that fails returns with `boxes_lock` held. -/
theorem Removes.rough (h : Removes b w x) (hrough : ¬ b.SmoothAt w .none .removeBody)
    (hrun : x.stopped = false) : (∃ r, x.pcs w = .ret r) ∧ SameLocks b x := by
  refine ⟨?_, h.sameLocks⟩
  cases h with
  | absent hnone => exact absurd (fun hne => absurd hnone hne) hrough
  | unfinished => exact ⟨-1, setPc_self ..⟩
  | crash => cases hrun
  | notUnlinked => exact ⟨-1, setPc_self ..⟩
  | removed hi hx hret hy hret' =>
    refine absurd (fun _ => ⟨?_, fun t r hu => ?_⟩) hrough
    · refine finishSessions_iff.mp ?_
      rw [hx]
      exact hret
    · have hkept := finishSessions_kept b w (b.clients w).boxName.str 0 b.maxSessions
      rw [hx] at hkept
      cases removedBox_of hy with
      | absent => exact absurd rfl hret'
      | linked => exact absurd rfl hret'
      | dropped _ hu' hne =>
        rw [hkept.tfs, hu] at hu'
        cases hu'
        exact hne

theorem Serves.rough (h : Serves b w pc a x) (hrough : ¬ b.SmoothAt w a pc)
    (hrun : x.stopped = false) :
    (∃ r, x.pcs w = .ret r) ∧ SameLocks b x := by
  cases h with
  | opened hnext =>
    unfold afterOpen at hnext
    split at hnext <;> first | exact absurd trivial hrough | cases hnext
  | notOpened hplace => rcases hplace with rfl | rfl <;> exact absurd trivial hrough
  | removeBody => exact (removeBody_removes b w).rough hrough hrun
  | @answering _ _ locked =>
    cases locked
    · exact absurd trivial hrough
    · exact absurd rfl hrough
  | notAnswered hx => exact ⟨⟨-1, setPc_self ..⟩, fun i => (sameLocks_emit hx).1 i,
    (sameLocks_emit hx).2⟩
  | _ => exact absurd trivial hrough

/-- A section under a lock in which something fails: its handler returns and the locks
stay as they are. -/
theorem rough_returns (hs : b.step (w, a) = some b') (hrough : ¬ b.Smooth (w, a))
    (hrun : b'.stopped = false) :
    (∃ r, b'.pcs w = .ret r) ∧ SameLocks b b' := by
  cases hin : (b.pcs w).InSession with
  | false => exact (step_serves hs hin).rough hrough hrun
  | true =>
    rcases step_session hs hin with hends | hcrash | hgoes
    · exact ⟨hends.returns, hends.sameLocks⟩
    · rw [hcrash.stops] at hrun
      cases hrun
    · by_cases hsend : ∀ rest n, b.pcs w ≠ .historySendOp rest n ∧
        b.pcs w ≠ .historySendMessage rest n
      · exact absurd (hgoes.smooth hsend) hrough
      · simp only [not_forall, not_and_or, not_not] at hsend
        obtain ⟨rest, n, hsend⟩ := hsend
        exact historySend_rough (step_eq_some.mp hs).2.2 hsend hrough hrun

/-- In every run in which nothing fails under a lock, a worker that stands outside of the
sections under a lock has none; and a worker that has a lock when something fails returns
with it. -/
theorem locks_balanced (b : Broker) (w : Nat) :
    (∀ b₀ : Broker, (∀ v, b₀.pcs v = .idle) → (∀ v, b₀.HoldsNothing v) → Reaches step Smooth b₀ b →
      (b.pcs w).Locked = false → b.HoldsNothing w) ∧
    ∀ (b' : Broker) (a : Answer), b.step (w, a) = some b' → ¬ b.HoldsNothing w →
      ¬ b.Smooth (w, a) → b'.stopped = false → (∃ r, b'.pcs w = .ret r) ∧ ¬ b'.HoldsNothing w := by
  constructor
  · intro b₀ hidle hnone hrun hfree
    have hstart : Balanced b₀ := fun u =>
      (hnone u).owns fun i hi => Pc.noConfusion ((hidle u).symm.trans hi)
    exact (hstart.reaches hrun w).holdsNothing hfree
  · intro b' a hs hholds hrough hrun
    obtain ⟨hret, hsame⟩ := rough_returns hs hrough hrun
    exact ⟨hret, fun hc => hholds (hsame.holdsNothing.mp hc)⟩

/-- A remove request gives `boxes_lock` back when the pipe of its client cannot be opened,
and keeps it when the client has closed the pipe before the answer. -/
theorem locks_balanced_removal : ∃ b b' b'' : Broker, b.HoldsNothing 0 ∧ ¬ b'.HoldsNothing 0 ∧
    (∃ r, b''.pcs 0 = .ret r) ∧ ¬ b''.HoldsNothing 0 := by
  have hidle : ∀ v, (fresh 1).pcs v = .idle := fun _ => rfl
  have hnone : ∀ v, (fresh 1).HoldsNothing v := fun _ => ⟨nofun, nofun⟩
  have hstates : ∃ b₁ b₂ b₃ b₄ b₅ b₆ : Broker,
      ((fresh 1).step (0, .request (sampleRequest opCodeRemoveBox)) = some b₁ ∧
        b₁.pcs 0 = .removeLock) ∧
      (b₁.step (0, .none) = some b₂ ∧ b₂.pcs 0 = .removeOpen) ∧
      (b₂.step (0, .opened samplePath none) = some b₃ ∧ b₃.pcs 0 = .ret (-1)) ∧
      (b₂.step (0, .opened samplePath (some 3)) = some b₄ ∧ b₄.pcs 0 = .removeBody) ∧
      (b₄.step (0, .none) = some b₅ ∧ b₅.boxesLock = some 0 ∧
        b₅.pcs 0 = .answering (answer opCodeRemoveBoxAnswer (-1) "Box does not exist") true) ∧
      b₅.step (0, .wrote .epipe) = some b₆ ∧ b₆.stopped = false :=
    ⟨_, _, _, _, _, _, ⟨rfl, rfl⟩, ⟨rfl, rfl⟩, ⟨rfl, rfl⟩, ⟨rfl, rfl⟩, ⟨rfl, rfl, rfl⟩, rfl, rfl⟩
  obtain ⟨b₁, b₂, b₃, b₄, b₅, b₆, ⟨hs₁, hpc₁⟩, ⟨hs₂, hpc₂⟩, ⟨hs₃, hpc₃⟩, -,
    ⟨-, hlock, hpc₅⟩, hs₆, hstop⟩ :=
    hstates
  have hsmooth : ∀ {b : Broker} {a : Answer}, b.pcs 0 = .idle ∨
      b.pcs 0 = .removeLock ∨ b.pcs 0 = .removeOpen →
      Smooth b (0, a) := by
    rintro b a (hpc | hpc | hpc) <;>
      · rw [Smooth, hpc]
        trivial
  have hrun := ((Reaches.refl.next (hsmooth (Or.inl rfl)) hs₁).next
    (hsmooth (Or.inr (Or.inl hpc₁))) hs₂).next
    (hsmooth (Or.inr (Or.inr hpc₂))) hs₃
  have hholds : ¬ b₅.HoldsNothing 0 := fun hc => hc.1 hlock
  have hrough : ¬ Smooth b₅ (0, .wrote .epipe) := by
    rw [Smooth, hpc₅]
    exact fun hc => nomatch (hc : Answer.wrote .epipe = .wrote (.wrote 1))
  exact ⟨b₃, b₅, b₆, (locks_balanced _ 0).1 _ hidle hnone hrun (by rw [hpc₃]; rfl), hholds,
    (locks_balanced _ 0).2 _ _ hs₆ hholds hrough hstop⟩

/-! ## A full box -/

section FullBox

variable {message buffer : List UInt8} (hstop : b.stopped = false) (hw : w < b.maxSessions)
include hstop hw

/-- A publisher reads a message and takes the lock of its box. -/
theorem message_locked (hpc : b.pcs w = .pubOpcode buffer)
    (hbox : (b.clients w).box = some i) (hlock : (b.boxes i).lock = none)
    (hbuffer : buffer.length = messageLength)
    (hm : message.length = messageLength) :
    ∃ x, Reaches step anyStep b x ∧ x.pcs w = .pubOpen i message ∧ (x.boxes i).lock = some w ∧
      (∀ j, x.path j = b.path j) ∧ x.tfs = b.tfs ∧ x.stopped = false ∧
      x.maxSessions = b.maxSessions := by
  generalize hx : b.setPc w (.pubMessage buffer) = x
  have hopcode : b.step (w, .read [opCodePublisher]) = some x := by
    rw [step_of hstop hw, hpc, ← hx]
    rfl
  have hnil : message ≠ [] := by
    rintro rfl
    cases hm
  generalize hy : x.setPc w (.pubLock i message) = y
  have hmessage : x.step (w, .read message) = some y := by
    have hwhole : message ++ buffer.drop message.length = message := by
      rw [List.drop_eq_nil_of_le (by omega), List.append_nil]
    have hbox' : (x.clients w).box = some i := hx ▸ hbox
    rw [step_of (hx ▸ hstop) (hx ▸ hw), show x.pcs w = .pubMessage buffer by rw [← hx, setPc_self]]
    change Broker.pubMessage x w buffer message = some y
    have hread : canRead message messageLength = true := decide_eq_true hm.le
    rw [Broker.pubMessage, if_pos hread, if_neg hnil, hbox', ← hy]
    exact congrArg (fun m => some (x.setPc w (.pubLock i m))) hwhole
  have hfree : (y.boxes i).lock = none := by
    rw [← hy, ← hx]
    exact hlock
  have hlocked : y.step (w, .none) = some
    ((y.setBox i { y.boxes i with lock := some w }).setPc w (.pubOpen i message)) := by
    rw [step_of (by rw [← hy, ← hx]; exact hstop) (by rw [← hy, ← hx]; exact hw),
      show y.pcs w = .pubLock i message by rw [← hy, setPc_self]]
    exact if_pos hfree
  refine ⟨_, ((Reaches.refl.next trivial hopcode).next trivial hmessage).next trivial hlocked,
    setPc_self .., ?_⟩
  have hpath : ∀ j, (y.setBox i { y.boxes i with lock := some w }).path j = y.path j :=
    field_setBox (fun x : Box => x.boxName.str) rfl
  refine ⟨congrArg Box.lock (setBox_self ..), fun j => (hpath j).trans ?_, ?_⟩
  · rw [← hy, ← hx]
    rfl
  · subst hy hx
    exact ⟨rfl, hstop, rfl⟩

/-- The write to a full box is cut, and the handler returns with the lock. -/
theorem full_box_returns (hpc : b.pcs w = .pubOpen i message) (hwf : WellFormed b.tfs)
    (hm : message.length = messageLength) (hopen : b.Opens i) {c : List UInt8}
    (hc : b.fileOf i = some c)
    (hne : c ≠ []) (hfull : b.tfs.fsParams.blockSize < c.length + (messageStr message).length + 1) :
    ∃ b', Reaches step anyStep b b' ∧ b'.pcs w = .ret 0 ∧ SameLocks b b' := by
  rcases tfsOpen_cursor hwf hopen.1 hc (Or.inl ⟨rfl, rfl⟩) with ⟨-, hnone⟩ |
    ⟨t, j, -, hopened, hwft, hsame, hcursor, -⟩
  · exact absurd hnone hopen.2
  generalize hx : ({ b with tfs := t } : Broker).setPc w (.pubWrite i message j) = x
  have hpcx : x.pcs w = .pubWrite i message j := by rw [← hx, setPc_self]
  have hfirst : b.step (w, .none) = some x := by
    rw [step_of hstop hw, hpc, ← hx]
    exact congrArg some (pubOpen_opened hopened)
  have hsize : (messageStr message).length + 1 ≤ (message ++ [0]).length := by
    rw [List.length_append]
    exact Nat.succ_le_succ (CStr.length_ofBytes_le message)
  have hword : (messageStr message).length + 1 < 9223372036854775808 := by
    rw [List.length_append, hm] at hsize
    exact Nat.lt_of_le_of_lt hsize (by decide)
  rcases tfsWrite_append hwft ((hsame.file _).trans hc) hcursor hsize hword rfl with
    ⟨-, -, hnil, -⟩ | ⟨u, hwrite, -⟩
  · exact absurd hnil hne
  have hcut : min ((messageStr message).length + 1) (t.fsParams.blockSize - c.length)
      < (messageStr message).length + 1 := by
    rw [hsame.params]
    omega
  have hsecond : x.step (w, .none) = some (({ x with tfs := u } : Broker).endSession w 0) := by
    rw [step_of (by rw [← hx]; exact hstop) (by rw [← hx]; exact hw), hpcx]
    refine congrArg some (pubWrite_cut ?_ hcut)
    rw [← hx]
    exact hwrite
  refine ⟨_, (Reaches.refl.next trivial hfirst).next trivial hsecond, setPc_self .., ?_⟩
  have hend := sameLocks_finish ({ x with tfs := u } : Broker) w
  rw [← hx] at hend ⊢
  exact hend

end FullBox

theorem oneBox_holdsNothing (t : Fs.State) (size v : Nat) : (oneBox t size).HoldsNothing v := by
  refine ⟨nofun, fun j hl => ?_⟩
  rcases eq_or_ne j 0 with rfl | hj
  · cases hl
  · dsimp only [oneBox] at hl
    rw [Function.update_of_ne hj] at hl
    cases hl

/-- Worker 0 serves a publisher of the box. -/
theorem oneBox_joined (t : Fs.State) (size : Nat) {stack : List UInt8}
    (hstack : stack.length = messageLength) :
    ∃ b, Reaches step anyStep (oneBox t size) b ∧ b.pcs 0 = .pubOpcode stack ∧
    b.isOpenFd (b.clients 0).clientPipe = true ∧
    (b.clients 0).box = some 0 ∧ (b.boxes 0).lock = none ∧ b.path 0 = sampleName.str ∧ b.tfs = t ∧
    b.stopped = false ∧ b.maxSessions = 1 := by
  have hstates : ∃ b₁ b₂ : Broker,
      (oneBox t size).step (0, .request (sampleRequest opCodeRegistPub)) = some b₁ ∧
      b₁.step (0, .opened samplePath (some 3)) = some b₂ ∧ b₂.pcs 0 = .registerBox ∧
      b₂.stopped = false ∧
      b₂.maxSessions = 1 ∧ b₂.getBox (b₂.clients 0).boxName.str = some 0 ∧
      (b₂.clients 0).opcode = opCodeRegistPub ∧ (b₂.boxes 0) = ⟨sampleName, size, 0, 0, 1, none⟩ ∧
      b₂.isOpenFd (b₂.clients 0).clientPipe = true ∧ b₂.tfs = t :=
    ⟨_, _, rfl, rfl, rfl, rfl, rfl, rfl, rfl, rfl, rfl, rfl⟩
  obtain ⟨b₁, b₂, hs₁, hs₂, hpc, hstop, hmax, hg, hop, hbox, hpipe, htfs⟩ := hstates
  have hregistered := @registerBox_publisher b₂ 0 0 stack hg hop
    (by rw [hbox]; exact Nat.zero_ne_one)
  have hs₃ : b₂.step (0, .stack stack) = some (b₂.registerBox 0 stack) := by
    rw [step_of hstop (by rw [hmax]; decide), hpc]
    exact if_pos hstack
  rw [hregistered] at hs₃
  refine ⟨_, ((Reaches.refl.next trivial hs₁).next trivial hs₂).next trivial hs₃, setPc_self .., ?_⟩
  refine ⟨?_, congrArg Client.box (setClient_self ..), ?_, ?_, htfs, hstop, hmax⟩
  · exact (congrArg b₂.isOpenFd (congrArg Client.clientPipe (setClient_self ..))).trans hpipe
  · exact (congrArg Box.lock (setBox_self ..)).trans (congrArg Box.lock hbox)
  · exact congrArg CharArray.str ((congrArg Box.boxName (setBox_self ..)).trans
      (congrArg Box.boxName hbox))

/-- A box with room for one byte more, and a publisher that sends two. -/
theorem full_box_locked :
    ¬ ∀ (b₀ b : Broker) (w : Nat) (r : Int), (∀ v, b₀.pcs v = .idle) → (∀ v, b₀.HoldsNothing v) →
      Reaches step anyStep b₀ b → b.pcs w = .ret r → b.HoldsNothing w := by
  intro h
  have hlength := length_encode_almostFull
  obtain ⟨t, hwf, hparams, hfile, hfree⟩ := first_filled .zeros
    (show 0 < sampleName.str.tail.length by decide)
    (by decide) (show (TerminatedStream.encode almostFull).length ≤ boxSize by rw [hlength]; decide)
  have hstored := (hfile _).trans (if_pos rfl)
  obtain ⟨stack, hstack⟩ : ∃ stack : List UInt8, stack.length = messageLength :=
    ⟨List.replicate messageLength 0, List.length_replicate⟩
  obtain ⟨b₁, hjoin, hpc, -, hbox, hlock, hpath, htfs, hstop, hmax⟩ :=
    oneBox_joined t (TerminatedStream.encode almostFull).length hstack
  obtain ⟨b₂, hlocked, hpc₂, hlock₂, hpath₂, htfs₂, hstop₂, hmax₂⟩ := message_locked hstop
    (by rw [hmax]; decide) hpc hbox hlock hstack shortMessage_length
  rw [htfs] at htfs₂
  have hname : b₂.path 0 = sampleName.str := (hpath₂ 0).trans hpath
  have hopens : b₂.Opens 0 := by
    refine ⟨by rw [hname]; decide, ?_⟩
    rw [htfs₂, hfree]
    exact Option.some_ne_none 1
  have hfull : b₂.tfs.fsParams.blockSize <
      (TerminatedStream.encode almostFull).length + (messageStr shortMessage).length + 1 := by
    rw [htfs₂, hparams, hlength, messageStr_short, length_letters]
    decide
  obtain ⟨b₃, hreturns, hret, hsame⟩ := full_box_returns hstop₂ (by rw [hmax₂, hmax]; decide) hpc₂
    (htfs₂ ▸ hwf) shortMessage_length hopens (by rw [fileOf, hname, htfs₂]; exact hstored)
    (fun hnil => absurd (congrArg List.length hnil) (by rw [hlength]; decide)) hfull
  refine (h _ b₃ 0 0 (fun _ => rfl) (oneBox_holdsNothing t _)
    ((hjoin.trans hlocked).trans hreturns) hret).2 0 ?_
  exact (hsame.1 0).trans hlock₂

end Broker

end MBroker
