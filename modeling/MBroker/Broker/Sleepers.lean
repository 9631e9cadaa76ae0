import MBroker.Broker.Victims
import MBroker.Fs.Advances

/-!
# The subscribers that sleep

A worker that has sent all of a box waits on the condition variable of the box, and
publishers wake all who wait there. `boxSize` also changes when a box is removed, and a box
that is created in the same slot has a condition variable of its own.

Results:
1. `step_alters`: what a section does to the name, the size and the condition variable of a
   box.
2. `Rested.step`: no section of any worker leaves a worker asleep with something to send.
3. `Reckons.own`, `Reckons.beside`: the offset of a record is where its session began and
   what the session has passed on since.
4. `no_wakeup_lost`: in every state, who sleeps at a box that exists has nothing left to
   send, and the two together are the size of the box.
-/

namespace MBroker

open FirstFit Transition Fs

namespace Broker

variable {b b' x y : Broker} {v w i n : Nat} {pc : Pc} {a : Answer}

/-- Worker `v` sleeps only on condition variables there have been, and on that of a box in
use only if there is nothing to send. -/
def Rested (b : Broker) (v : Nat) : Prop :=
  ∀ i n, b.pcs v = .asleep i n →
    n ≤ (b.boxes i).cond ∧ (n = (b.boxes i).cond → b.path i ≠ .empty → b.unread v i = 0)

/-! ## What a section does to the boxes -/

/-- Names, sizes and condition variables are as they were. -/
structure SameSizes (b x : Broker) : Prop where
  boxName : ∀ i, (x.boxes i).boxName = (b.boxes i).boxName
  boxSize : ∀ i, (x.boxes i).boxSize = (b.boxes i).boxSize
  cond : ∀ i, (x.boxes i).cond = (b.boxes i).cond

theorem SameSizes.of_boxes (h : x.boxes = b.boxes) : SameSizes b x :=
  ⟨fun _ => by rw [h], fun _ => by rw [h], fun _ => by rw [h]⟩

theorem SameSizes.of_kept (h : Kept b x) : SameSizes b x := ⟨h.boxName, h.boxSize, h.cond⟩

theorem SameSizes.trans (h : SameSizes b x) (h' : SameSizes x y) : SameSizes b y where
  boxName i := (h'.boxName i).trans (h.boxName i)
  boxSize i := (h'.boxSize i).trans (h.boxSize i)
  cond i := (h'.cond i).trans (h.cond i)

theorem SameSizes.setPc (h : SameSizes b x) (pc : Pc) : SameSizes b (x.setPc w pc) :=
  ⟨h.boxName, h.boxSize, h.cond⟩

theorem SameSizes.setClient (h : SameSizes b x) (c : Client) : SameSizes b (x.setClient w c) :=
  ⟨h.boxName, h.boxSize, h.cond⟩

theorem lock_sameSizes (b : Broker) (i : Nat) (lock : Option Nat) :
    SameSizes b (b.setBox i { b.boxes i with lock := lock }) :=
  ⟨field_setBox Box.boxName rfl, field_setBox Box.boxSize rfl, field_setBox Box.cond rfl⟩

theorem SameSizes.endSession (h : SameSizes b x) (result : Int) :
    SameSizes b (x.endSession w result) :=
  (h.trans (.of_kept (finishClientSession_frame x w).toKept)).setPc _

theorem SameSizes.returnFinish (h : SameSizes b x) : SameSizes b (x.returnFinish w) :=
  (h.trans (.of_kept (finishClientSession_frame x w).toKept)).setPc _

theorem tfs_sameSizes (b : Broker) (t : Fs.State) : SameSizes b { b with tfs := t } := .of_boxes rfl

theorem emit_sameSizes {bytes : List UInt8} {result : WriteResult}
    (h : b.emit w bytes result = some x) :
    SameSizes b x := by
  obtain ⟨sent, rfl⟩ := emit_sent h
  exact .of_boxes rfl

theorem Ends.sameSizes (h : Ends b w pc a x) : SameSizes b x := by
  have hsame : SameSizes b b := .of_boxes rfl
  cases h with
  | pipeClosed =>
    unfold Broker.pipeClosed
    split
    · exact hsame.endSession 0
    · exact hsame.setPc _
  | pubOpen => exact (tfs_sameSizes b _).endSession _
  | pubWrite => exact (tfs_sameSizes b _).endSession _
  | historyOpen => exact ((tfs_sameSizes b _).setClient _).endSession _
  | historyRead => exact (tfs_sameSizes b _).endSession _
  | historySendOp hx => exact (emit_sameSizes hx).setPc _
  | historySendMessage hx => exact (emit_sameSizes hx).setPc _
  | followNone => exact (tfs_sameSizes b _).returnFinish
  | followRead => exact (tfs_sameSizes b _).endSession _
  | followSendOp hx => exact (emit_sameSizes hx).endSession _
  | followSendMessage hx => exact (emit_sameSizes hx).endSession _

theorem Crashes.sameSizes (h : Crashes b pc x) : SameSizes b x := by
  cases h <;> exact .of_boxes rfl

theorem Continues.sameSizes (h : Continues b w pc x)
    (hcount : ∀ i message, pc ≠ .pubCount i message) :
    SameSizes b x := by
  cases h with
  | pubCount => exact absurd rfl (hcount _ _)
  | pubLock => exact (lock_sameSizes b _ _).setPc _
  | historyLock => exact (lock_sameSizes b _ _).setPc _
  | historyNone => exact (lock_sameSizes b _ none).setPc _
  | historyEnd => exact ((tfs_sameSizes b _).trans (lock_sameSizes _ _ none)).setPc _
  | historySendOp _ _ hx => exact (emit_sameSizes hx).setPc _
  | historyNext hx => exact (emit_sameSizes hx).setPc _
  | historyLast hx => exact ((emit_sameSizes hx).setClient _).setPc _
  | followSendOp hx => exact (emit_sameSizes hx).setPc _
  | followSendMessage hx => exact ((emit_sameSizes hx).setClient _).setPc _
  | _ => exact .of_boxes rfl

theorem registerBox_sameSizes (stack : List UInt8) : SameSizes b (b.registerBox w stack) := by
  cases hg : b.getBox (b.clients w).boxName.str with
  | none =>
    rw [registerBox_absent hg]
    exact (SameSizes.of_kept (close_frame b w _).toKept).setPc _
  | some i =>
    have hattach : SameSizes b (b.attach w i) := .of_boxes rfl
    have hcount : ∀ p s, SameSizes b ((b.attach w i).setBox i
        { b.boxes i with nPublishers := p, nSubscribers := s }) := fun p s =>
      hattach.trans (.of_kept (setBox_frame (b.attach w i) w i p s).toKept)
    by_cases hop : (b.clients w).opcode = opCodeRegistPub
    · by_cases hone : (b.boxes i).nPublishers = 1
      · rw [registerBox_rejected hg hop hone]
        exact hattach.returnFinish
      · rw [registerBox_publisher hg hop hone]
        exact (hcount _ (b.boxes i).nSubscribers).setPc _
    · rw [registerBox_subscriber hg hop]
      exact (hcount (b.boxes i).nPublishers _).setPc _

theorem Serves.sameSizes (h : Serves b w pc a x) (hcreate : pc ≠ .createLock)
    (hremove : pc ≠ .removeBody) :
    SameSizes b x := by
  have hsame : SameSizes b b := .of_boxes rfl
  cases h with
  | returned =>
    unfold Broker.returned
    split
    · split <;> exact .of_boxes rfl
    · exact .of_boxes rfl
  | registerBox => exact registerBox_sameSizes _
  | createLock => exact absurd rfl hcreate
  | removeBody => exact absurd rfl hremove
  | answering hx => exact (emit_sameSizes hx).setPc _
  | notAnswered hx => exact (emit_sameSizes hx).setPc _
  | answered =>
    unfold Broker.answered
    split
    · have hunlock : SameSizes b { b with boxesLock := none } := .of_boxes rfl
      exact hunlock.returnFinish
    · exact hsame.returnFinish
  | listEnd => exact hsame.returnFinish
  | listWrite hx => exact (emit_sameSizes hx).setPc _
  | listFailed hx => exact (emit_sameSizes hx).setPc _
  | _ => exact .of_boxes rfl

/-- What a section of worker `w` does to box `i`, for a worker that sleeps there. -/
inductive Alters (b x : Broker) (i : Nat) : Prop
  | kept : (x.boxes i).cond = (b.boxes i).cond → (x.boxes i).boxSize = (b.boxes i).boxSize →
      x.path i = b.path i → Alters b x i
  | removed : (x.boxes i).cond = (b.boxes i).cond → x.path i = .empty → Alters b x i
  | created : b.freeBoxes i = true → (x.boxes i).cond = (b.boxes i).cond + 1 → Alters b x i
  /-- all who sleep at the box are awake -/
  | counted :
    (x.boxes i).cond = (b.boxes i).cond → (∀ v, x.pcs v ≠ .asleep i (b.boxes i).cond) → Alters b x i

theorem SameSizes.alters (h : SameSizes b x) (i : Nat) : Alters b x i :=
  .kept (h.cond i) (h.boxSize i) (congrArg CharArray.str (h.boxName i))

theorem createLock_alters {malloced : Bool} {pc : Pc} (i : Nat) :
    Alters b ((b.createSection w malloced).1.setPc w pc) i := by
  rcases createSection_cases b w malloced with ⟨_, hrejected,
    -⟩ | ⟨-, -, -, ⟨j, hj, hadded⟩ | ⟨-, hfull⟩⟩
  · rw [hrejected]
    exact .kept rfl rfl rfl
  · rw [hadded]
    by_cases hij : i = j
    · subst hij
      exact .created (firstIndex_eq_some.mp hj).2.1 (congrArg Box.cond (setBox_self _ i _))
    · have hother := setBox_of_ne
        { b with numBoxes := b.numBoxes + 1, freeBoxes := Function.update b.freeBoxes j false }
        { boxName := (b.clients w).boxName.terminate, boxSize := 0,
          nPublishers := 0, nSubscribers := 0,
          cond := (b.boxes j).cond + 1, lock := none } hij
      exact .kept (congrArg Box.cond hother) (congrArg Box.boxSize hother)
        (congrArg (fun box => box.boxName.str) hother)
  · rw [hfull]
    exact .kept rfl rfl rfl

/-- The publisher wakes all who sleep at its box. -/
theorem pubCount_alters {j : Nat} {message : List UInt8} (i : Nat) :
    Alters b (b.pubCount w j message) i := by
  let y := b.setBox j
    { b.boxes j with boxSize := addSize (b.boxes j).boxSize ((messageStr message).length + 1) }
  have hcond : (y.boxes i).cond = (b.boxes i).cond := by
    refine field_setBox Box.cond ?_ i
    rfl
  have hunlocked : ((b.pubCount w j message).boxes i).cond = (y.boxes i).cond :=
    (lock_sameSizes (y.broadcast j) j none).cond i
  rcases eq_or_ne i j with rfl | hij
  · refine .counted (hunlocked.trans hcond) fun v => ?_
    rcases eq_or_ne v w with rfl | hv
    · rw [Broker.pubCount, setPc_self]
      exact Pc.noConfusion
    · rw [Broker.pubCount, setPc_of_ne _ _ hv]
      show (if y.pcs v = .asleep i (y.boxes i).cond then .followLock i else y.pcs v)
        ≠ .asleep i (b.boxes i).cond
      rw [hcond]
      split
      · exact Pc.noConfusion
      · next hawake => exact hawake
  · have hother : ∀ (z : Broker) (box : Box), (z.setBox j box).boxes i = z.boxes i := fun z box =>
      setBox_of_ne z box hij
    have hsame : (b.pubCount w j message).boxes i = b.boxes i := (hother _ _).trans (hother _ _)
    exact .kept (congrArg Box.cond hsame) (congrArg Box.boxSize hsame)
      (congrArg (fun box => box.boxName.str) hsame)

theorem Alters.of_same (h : SameSizes b y)
    (hfree : y.freeBoxes = b.freeBoxes) (h' : Alters y x i) : Alters b x i := by
  cases h' with
  | kept hcond hsize hpath =>
    exact .kept (hcond.trans (h.cond i)) (hsize.trans (h.boxSize i))
      (hpath.trans (congrArg CharArray.str (h.boxName i)))
  | removed hcond hpath => exact .removed (hcond.trans (h.cond i)) hpath
  | created hfree' hcond =>
    exact .created (hfree ▸ hfree') (hcond.trans (congrArg (· + 1) (h.cond i)))
  | counted hcond hawake => exact .counted (hcond.trans (h.cond i)) (h.cond i ▸ hawake)

theorem Alters.setPc (h : Alters b x i) (hpc : ∀ j n, pc ≠ .asleep j n) :
    Alters b (x.setPc w pc) i := by
  cases h with
  | kept hcond hsize hpath => exact .kept hcond hsize hpath
  | removed hcond hpath => exact .removed hcond hpath
  | created hfree hcond => exact .created hfree hcond
  | counted hcond hawake =>
    refine .counted hcond fun v => ?_
    rcases eq_or_ne v w with rfl | hv
    · rw [setPc_self]
      exact hpc i _
    · rw [setPc_of_ne _ _ hv]
      exact hawake v

theorem removeBox_alters {name : CStr} {ret : Int} (h : b.removeBox name = .ok (x, ret)) (i : Nat) :
    Alters b x i := by
  cases removedBox_of h with
  | absent => exact .kept rfl rfl rfl
  | linked => exact .kept rfl rfl rfl
  | @dropped j t _ _ _ _ =>
    let y : Broker :=
      { b with freeBoxes := Function.update b.freeBoxes j true, tfs := t, numBoxes :=
        b.numBoxes - 1 }
    have hcond : ((b.dropBox j t).boxes i).cond = (y.boxes i).cond := by
      refine field_setBox Box.cond ?_ i
      rfl
    rcases eq_or_ne i j with rfl | hij
    · have hname : ((b.dropBox i t).boxes i).boxName = (b.boxes i).boxName.clear :=
        congrArg Box.boxName (setBox_self y i _)
      exact .removed hcond ((congrArg CharArray.str hname).trans (CharArray.str_clear _))
    · have hsame : (b.dropBox j t).boxes i = b.boxes i := setBox_of_ne y _ hij
      exact .kept hcond (congrArg Box.boxSize hsame) (congrArg (fun box => box.boxName.str) hsame)

theorem Removes.alters (h : Removes b w x) (i : Nat) : Alters b x i := by
  have hfinished : ∀ {x : Broker} {ret : Int},
      b.finishSessions w (b.clients w).boxName.str 0 b.maxSessions = (x, ret) → SameSizes b x :=
    fun hx => .of_kept (Kept.of_finish hx)
  cases h with
  | absent => exact .kept rfl rfl rfl
  | unfinished _ hx => exact ((hfinished hx).setPc _).alters i
  | crash _ hx =>
    exact .kept ((hfinished hx).cond i) ((hfinished hx).boxSize i)
      (congrArg CharArray.str ((hfinished hx).boxName i))
  | notUnlinked _ hx _ hy =>
    have hsame := (removeBox_alters hy i).of_same (hfinished hx) (Kept.of_finish hx).freeBoxes
    exact hsame.setPc fun _ _ => Pc.noConfusion
  | removed _ hx _ hy =>
    have hsame := (removeBox_alters hy i).of_same (hfinished hx) (Kept.of_finish hx).freeBoxes
    exact hsame.setPc fun _ _ => Pc.noConfusion

theorem step_alters (hs : b.step (w, a) = some b') (i : Nat) : Alters b b' i := by
  rcases step_cases hs with hends | hcrash | hgoes | hserves
  · exact hends.sameSizes.alters i
  · exact hcrash.sameSizes.alters i
  · by_cases hcount : ∃ j message, b.pcs w = .pubCount j message
    · obtain ⟨j, message, hpc⟩ := hcount
      rw [hpc] at hgoes
      cases hgoes
      exact pubCount_alters i
    · exact (hgoes.sameSizes fun j message hpc => hcount ⟨j, message, hpc⟩).alters i
  · by_cases hcreate : b.pcs w = .createLock
    · rw [hcreate] at hserves
      cases hserves with
      | createLock => exact createLock_alters i
      | opened hnext => cases hnext
      | notOpened hpc => rcases hpc with hpc | hpc <;> cases hpc
    by_cases hremove : b.pcs w = .removeBody
    · rw [removeBody_of_step hs hremove]
      exact (removeBody_removes b w).alters i
    · exact (hserves.sameSizes hcreate hremove).alters i

/-! ## What a section does to the other records -/

theorem finishClientSession_offset (b : Broker) (w v : Nat) :
    ((b.finishClientSession w).1.clients v).offset = (b.clients v).offset := by
  rcases eq_or_ne v w with rfl | hv
  · cases hopen : b.isOpenFd (b.clients v).clientPipe with
    | false => rw [finishClientSession_of_closed hopen]
    | true =>
      by_cases hfd : (b.clients v).opcode = opCodeListBoxes ∨ (b.clients v).boxFd ≠ -1
      · rw [finishClientSession_of_boxFd hopen hfd, setClient_self]
        rfl
      · rw [not_or, not_not] at hfd
        rw [finishClientSession_of_no_boxFd hopen hfd.1 hfd.2]
        exact congrArg Client.offset ((close_frame b (v + 1) _).clients v (by omega))
  · rw [(finishClientSession_frame b w).clients v hv]

theorem finishSessions_offset (b : Broker) (self : Nat) (boxName : CStr) (i n v : Nat) :
    ((b.finishSessions self boxName i n).1.clients v).offset = (b.clients v).offset :=
  finishSessions_induction (R := fun b x => (x.clients v).offset = (b.clients v).offset)
    (fun _ => rfl)
    (fun _ _ _ hfirst hrest => hrest.trans hfirst) (fun b u => finishClientSession_offset b u v) b
      self boxName i n

theorem removeBox_clients {name : CStr} {ret : Int} (h : b.removeBox name = .ok (x, ret)) :
    x.clients = b.clients := by
  cases removedBox_of h <;> rfl

theorem Removes.offset (h : Removes b w x) : (x.clients v).offset = (b.clients v).offset := by
  have hfinished : ∀ {x : Broker} {ret : Int},
      b.finishSessions w (b.clients w).boxName.str 0 b.maxSessions = (x, ret) →
        (x.clients v).offset = (b.clients v).offset := by
    intro x ret hx
    have hoffset := finishSessions_offset b w (b.clients w).boxName.str 0 b.maxSessions v
    rwa [hx] at hoffset
  cases h with
  | absent => rfl
  | unfinished _ hx =>
    have hoffset := hfinished hx
    exact hoffset
  | crash _ hx =>
    have hoffset := hfinished hx
    exact hoffset
  | notUnlinked _ hx _ hy => exact (congrArg (fun f => (f v).offset)
    (removeBox_clients hy)).trans (hfinished hx)
  | removed _ hx _ hy =>
    exact (congrArg (fun f => (f v).offset) (removeBox_clients hy)).trans (hfinished hx)

/-- Only its worker moves the offset of a record. -/
theorem step_offset (hs : b.step (w, a) = some b') (hv : v ≠ w) :
    (b'.clients v).offset = (b.clients v).offset := by
  by_cases hremove : b.pcs w = .removeBody
  · rw [removeBody_of_step hs hremove]
    exact (removeBody_removes b w).offset
  · rw [(step_beside hs hv hremove).clients]

/-! ## No wake-up is lost -/

/-- A worker falls asleep where there is nothing to send. -/
theorem Continues.falls_asleep (h : Continues b w pc x) (hpc : x.pcs w = .asleep i n) :
    n = (b.boxes i).cond ∧ b.unread w i = 0 ∧ x.boxes = b.boxes ∧ x.clients = b.clients := by
  cases h with
  | sleep _ hnone =>
    rw [setPc_self] at hpc
    cases hpc
    exact ⟨rfl, hnone, rfl, rfl⟩
  | pubCount =>
    rw [Broker.pubCount, setPc_self] at hpc
    cases hpc
  | _ =>
    rw [setPc_self] at hpc
    cases hpc

theorem registerBox_awake (b : Broker) (w : Nat) (stack : List UInt8) :
    (b.registerBox w stack).pcs w ≠ .asleep i n := by
  cases hg : b.getBox (b.clients w).boxName.str with
  | none =>
    rw [registerBox_absent hg, setPc_self]
    exact Pc.noConfusion
  | some j =>
    by_cases hop : (b.clients w).opcode = opCodeRegistPub
    · by_cases hone : (b.boxes j).nPublishers = 1
      · rw [registerBox_rejected hg hop hone, Broker.returnFinish, setPc_self]
        exact Pc.noConfusion
      · rw [registerBox_publisher hg hop hone, setPc_self]
        exact Pc.noConfusion
    · rw [registerBox_subscriber hg hop, setPc_self]
      exact Pc.noConfusion

/-- The worker itself falls asleep, or it slept before and the process has stopped. -/
theorem step_falls_asleep (hs : b.step (w, a) = some b') (hpc : b'.pcs w = .asleep i n) :
    b'.clients w = b.clients w ∧ (b'.boxes i).cond = (b.boxes i).cond ∧ (b'.boxes i).boxSize
      = (b.boxes i).boxSize ∧
      b'.path i = b.path i ∧ (b.pcs w = .asleep i n ∨ n = (b.boxes i).cond ∧ b.unread w i = 0) := by
  have hin : (b'.pcs w).InSession = true := by
    rw [hpc]
    rfl
  rcases step_cases hs with hends | hcrash | hgoes | hserves
  · cases hin.symm.trans hends.ended
  · obtain ⟨hpcs, hclients⟩ := hcrash.same
    have hsizes := hcrash.sameSizes
    exact ⟨congrFun hclients w, hsizes.cond i, hsizes.boxSize i,
      congrArg CharArray.str (hsizes.boxName i),
      .inl ((congrFun hpcs w).symm.trans hpc)⟩
  · obtain ⟨hcond, hnone, hboxes, hclients⟩ := hgoes.falls_asleep hpc
    exact ⟨congrFun hclients
      w, by rw [hboxes], by rw [hboxes], by rw [Broker.path, hboxes]; rfl, .inr ⟨hcond, hnone⟩⟩
  · by_cases hregister : b.pcs w = .registerBox
    · obtain ⟨stack, rfl⟩ := registerBox_of_step hs hregister
      exact absurd hpc (registerBox_awake b w stack)
    · cases hin.symm.trans (hserves.inSession rfl hregister)

theorem unread_eq (hsize : (b'.boxes i).boxSize = (b.boxes i).boxSize)
    (hoffset : (b'.clients v).offset = (b.clients v).offset) : b'.unread v i = b.unread v i := by
  rw [Broker.unread, Broker.unread, hsize, hoffset]

theorem Rested.step (h : Rested b v) (hs : b.step (w, a) = some b') : Rested b' v := by
  intro i n hpc
  rcases eq_or_ne v w with rfl | hv
  · obtain ⟨hclient, hcond, hsize, hpath, hbefore⟩ := step_falls_asleep hs hpc
    rw [hcond, hpath, unread_eq hsize (congrArg Client.offset hclient)]
    rcases hbefore with hasleep | ⟨rfl, hnone⟩
    · exact h i n hasleep
    · exact ⟨Nat.le_refl _, fun _ _ => hnone⟩
  · have hasleep : b.pcs v = .asleep i n := by
      rcases step_others hs hv with hsame | ⟨j, k, -, hwoken⟩
      · rwa [hsame] at hpc
      · cases hwoken.symm.trans hpc
    obtain ⟨hle, hrested⟩ := h i n hasleep
    cases step_alters hs i with
    | kept hcond hsize hpath =>
      rw [hcond, hpath, unread_eq hsize (step_offset hs hv)]
      exact ⟨hle, hrested⟩
    | removed hcond hpath =>
      rw [hcond, hpath]
      exact ⟨hle, fun _ hne => absurd rfl hne⟩
    | created _ hcond =>
      rw [hcond]
      exact ⟨Nat.le_succ_of_le hle, fun heq => absurd heq (Nat.ne_of_lt (Nat.lt_succ_of_le hle))⟩
    | counted hcond hawake =>
      rw [hcond]
      refine ⟨hle, fun heq => ?_⟩
      rw [heq] at hpc
      exact absurd hpc (hawake v)

theorem step_sameTable (hs : b.step (w, a) = some b') (hcreate : b.pcs w ≠ .createLock)
    (hremove : b.pcs w ≠ .removeBody) : SameTable b b' := by
  rcases step_cases hs with hends | hcrash | hgoes | hserves
  · exact hends.around.table
  · exact (hcrash.around (w := w)).table
  · exact hgoes.goesOn.table
  · exact (hserves.around hcreate hremove).table

/-- The offset of the record when the subscriber registered, and the bytes of the box that
the session has passed on since. -/
structure Session where
  offset : Int
  passed : List UInt8

def Session.pass (s : Session) (bytes : List UInt8) : Session :=
  { s with passed := s.passed ++ bytes }

/-- The session of worker `w` after a section with this answer. The first loop passes on a
message and its NUL, the second one what it has read. -/
def reckon (b : Broker) (w : Nat) (a : Answer) (s : Session) : Session :=
  match b.pcs w with
  | .registerBox => ⟨(b.clients w).offset, []⟩
  | .historySendMessage rest _ =>
    if a = .wrote (.wrote messageLength) then s.pass ((CStr.ofBytes rest).bytes ++ [0]) else s
  | .followSendMessage _ message bytesRead =>
    if a = .wrote (.wrote messageLength) then s.pass (message.take bytesRead) else s
  | _ => s

/-- A section, and what the subscribers have passed on after it. -/
def reckoned : Broker × (Nat → Session) → Nat × Answer → Option (Broker × (Nat → Session)) :=
  noted Broker.step fun b e _ sessions =>
    Function.update sessions e.1 (b.reckon e.1 e.2 (sessions e.1))

/-- Where the session stands in the box. -/
def Session.reached (s : Session) : Int := s.offset + s.passed.length

/-- The offset of a record counts what its session has passed on. -/
def Reckons (c : Client) (s : Session) : Pc → Prop
  | .historyLock _ | .historyOpen | .historyTest | .historyRead | .followLock _
  | .asleep .. | .followRead _ =>
    c.offset = s.reached
  | .historySendOp rest n => c.offset + n = s.reached + rest.length
  | .historySendMessage rest n => c.offset + n = s.reached + rest.length ∧ (0 : UInt8) ∈ rest
  | .followSendOp _ message n | .followSendMessage _ message n =>
    c.offset = s.reached ∧ n ≤ message.length
  | _ => True

theorem Session.reached_pass (s : Session) (bytes : List UInt8) :
    (s.pass bytes).reached = s.reached + bytes.length := by
  rw [reached, reached, pass, List.length_append]
  push_cast
  exact (Int.add_assoc ..).symm

theorem Reckons.of_outside {c : Client} {s : Session} (h : pc.InSession = false) :
    Reckons c s pc := by
  cases pc <;> trivial

/-- In most sections nothing is passed on. -/
theorem reckon_same {s : Session} (hregister : b.pcs w ≠ .registerBox)
    (hhistory : ∀ rest n, b.pcs w ≠ .historySendMessage rest n)
    (hfollow : ∀ i message n, b.pcs w ≠ .followSendMessage i message n) : b.reckon w a s = s := by
  unfold reckon
  split
  · next hpc => exact absurd hpc hregister
  · next hpc => exact absurd hpc (hhistory _ _)
  · next hpc => exact absurd hpc (hfollow _ _ _)
  · rfl

/-- A subscriber is accepted: nothing has been passed on. -/
theorem reckons_registerBox {s : Session} {stack : List UInt8} (hpc : b.pcs w = .registerBox) :
    Reckons ((b.registerBox w stack).clients w) (b.reckon w a s)
    ((b.registerBox w stack).pcs w) := by
  have hreckon : b.reckon w a s = ⟨(b.clients w).offset, []⟩ := by rw [reckon, hpc]
  cases hg : b.getBox (b.clients w).boxName.str with
  | none =>
    rw [registerBox_absent hg, setPc_self]
    trivial
  | some j =>
    by_cases hop : (b.clients w).opcode = opCodeRegistPub
    · by_cases hone : (b.boxes j).nPublishers = 1
      · rw [registerBox_rejected hg hop hone, Broker.returnFinish, setPc_self]
        trivial
      · rw [registerBox_publisher hg hop hone, setPc_self]
        trivial
    · rw [registerBox_subscriber hg hop, setPc_self, hreckon]
      have hoffset : ((b.attach w j).clients w).offset = (b.clients w).offset := by
        rw [attach, setClient_self]
      exact hoffset.trans (Int.add_zero _).symm

/-- A message of the first loop is written whole: it and its NUL have been passed on. -/
theorem reckons_historySendMessage {s : Session} {rest : List UInt8}
    (hpc : b.pcs w = .historySendMessage rest n)
    (h : Reckons (b.clients w) s (b.pcs w)) (hs : b.step (w, a) = some b') :
    Reckons (b'.clients w) (b.reckon w a s) (b'.pcs w) := by
  rw [hpc] at h
  obtain ⟨hoffset, hnul⟩ := h
  replace hs := (step_eq_some.mp hs).2.2
  rw [hpc] at hs
  cases a with
  | wrote result =>
    obtain ⟨x, hx, hs⟩ := Option.bind_eq_some_iff.mp hs
    obtain ⟨sent, rfl⟩ := emit_sent hx
    by_cases hwhole : result = .wrote messageLength
    · rw [if_pos hwhole] at hs
      dsimp only at hs
      have hreckon : b.reckon w (.wrote result) s = s.pass ((CStr.ofBytes rest).bytes ++ [0]) := by
        rw [reckon, hpc]
        exact if_pos (congrArg Answer.wrote hwhole)
      have hlength : (CStr.ofBytes rest).length + 1 ≤ rest.length := CStr.length_ofBytes_lt hnul
      have hreached : (s.pass ((CStr.ofBytes rest).bytes ++ [0])).reached
          = s.reached + ((CStr.ofBytes rest).length + 1 : Nat) := by
        rw [Session.reached_pass, List.length_append]
        rfl
      rw [hreckon]
      split at hs
      · next hnil =>
        have hall := List.drop_eq_nil_iff.mp hnil
        obtain rfl := Option.some.inj hs
        rw [setPc_self]
        refine (congrArg Client.offset (setClient_self ..)).trans ?_
        rw [hreached]
        show (b.clients w).offset + n = _
        omega
      · next hmore =>
        obtain rfl := Option.some.inj hs
        rw [setPc_self]
        show (b.clients w).offset + n = _
        rw [hreached, List.length_drop]
        omega
    · rw [if_neg hwhole] at hs
      obtain rfl := Option.some.inj hs
      rw [setPc_self]
      trivial
  | _ => cases hs

/-- A message of the second loop is written whole: what was read has been passed on. -/
theorem reckons_followSendMessage {s : Session} {j : Nat} {message : List UInt8}
    (hpc : b.pcs w = .followSendMessage j message n) (h : Reckons (b.clients w) s (b.pcs w))
    (hs : b.step (w, a) = some b') : Reckons (b'.clients w) (b.reckon w a s) (b'.pcs w) := by
  rw [hpc] at h
  obtain ⟨hoffset, hle⟩ := h
  replace hs := (step_eq_some.mp hs).2.2
  rw [hpc] at hs
  cases a with
  | wrote result =>
    obtain ⟨x, hx, hs⟩ := Option.bind_eq_some_iff.mp hs
    obtain ⟨sent, rfl⟩ := emit_sent hx
    dsimp only at hs
    split at hs
    · obtain rfl := Option.some.inj hs
      rw [Broker.endSession, setPc_self]
      trivial
    · split at hs
      · next hwhole =>
        obtain rfl := Option.some.inj hs
        have hreckon : b.reckon w (.wrote result) s = s.pass (message.take n) := by
          rw [reckon, hpc]
          exact if_pos (congrArg Answer.wrote hwhole)
        rw [hreckon, setPc_self]
        refine (congrArg Client.offset (setClient_self ..)).trans ?_
        rw [Session.reached_pass, List.length_take, Nat.min_eq_left hle, ← hoffset]
      · obtain rfl := Option.some.inj hs
        rw [Broker.endSession, setPc_self]
        trivial
  | _ => cases hs

/-- The other sections of a session pass nothing on. -/
theorem Continues.reckons {s : Session} (h : Continues b w pc x) (hr : Reckons (b.clients w) s pc)
    (hhistory : ∀ rest n, pc ≠ .historySendMessage rest n)
    (hfollow : ∀ i message n, pc ≠ .followSendMessage i message n) :
    Reckons (x.clients w) s (x.pcs w) := by
  cases h with
  | historyNext => exact absurd rfl (hhistory _ _)
  | historyLast => exact absurd rfl (hhistory _ _)
  | followSendMessage => exact absurd rfl (hfollow _ _ _)
  | pubCount =>
    rw [Broker.pubCount, setPc_self]
    trivial
  | historyOpen =>
    rw [setPc_self]
    exact (congrArg Client.offset (setClient_self ..)).trans hr
  | historyRead hread hpos =>
    obtain ⟨hret, -⟩ := tfsRead_delivers hread hpos
    rw [setPc_self, hret]
    show (b.clients w).offset + _ = _
    rw [show (b.clients w).offset = s.reached from hr]
    rfl
  | historySendOp hnul _ hx =>
    obtain ⟨sent, rfl⟩ := emit_sent hx
    rw [setPc_self]
    exact ⟨hr, hnul⟩
  | followRead hread hpos =>
    obtain ⟨hret, hle⟩ := tfsRead_delivers hread hpos
    rw [setPc_self, hret, Int.toNat_natCast]
    exact ⟨hr, by rw [length_zeroPadded]; exact hle⟩
  | followSendOp hx =>
    obtain ⟨sent, rfl⟩ := emit_sent hx
    rw [setPc_self]
    exact hr
  | _ =>
    rw [setPc_self]
    exact hr

/-- The worker itself takes a step. -/
theorem Reckons.own {s : Session} (h : Reckons (b.clients w) s (b.pcs w))
    (hs : b.step (w, a) = some b') :
    Reckons (b'.clients w) (b.reckon w a s) (b'.pcs w) := by
  by_cases hregister : b.pcs w = .registerBox
  · obtain ⟨stack, rfl⟩ := registerBox_of_step hs hregister
    exact reckons_registerBox hregister
  by_cases hhistory : ∃ rest n, b.pcs w = .historySendMessage rest n
  · obtain ⟨rest, n, hpc⟩ := hhistory
    exact reckons_historySendMessage hpc h hs
  by_cases hfollow : ∃ i message n, b.pcs w = .followSendMessage i message n
  · obtain ⟨i, message, n, hpc⟩ := hfollow
    exact reckons_followSendMessage hpc h hs
  have hnohistory : ∀ rest n, b.pcs w ≠ .historySendMessage rest n :=
    fun rest n hpc => hhistory ⟨rest, n, hpc⟩
  have hnofollow : ∀ i message n, b.pcs w ≠ .followSendMessage i message n := fun i message n hpc =>
    hfollow ⟨i, message, n, hpc⟩
  rw [reckon_same hregister hnohistory hnofollow]
  rcases step_cases hs with hends | hcrash | hgoes | hserves
  · exact .of_outside hends.ended
  · obtain ⟨hpcs, hclients⟩ := hcrash.same
    rwa [hpcs, hclients]
  · exact hgoes.reckons h hnohistory hnofollow
  · exact .of_outside (hserves.inSession rfl hregister)

/-- The others at most wake the worker. -/
theorem Reckons.beside {s : Session} (h : Reckons (b.clients v) s (b.pcs v))
    (hs : b.step (w, a) = some b')
    (hv : v ≠ w) : Reckons (b'.clients v) s (b'.pcs v) := by
  have hoffset := step_offset hs hv
  have hsame : ∀ pc, Reckons (b.clients v) s pc → Reckons (b'.clients v) s pc := by
    intro pc hpc
    cases pc with
    | historyLock | historyOpen | historyTest | historyRead | followLock | asleep | followRead =>
      exact hoffset.trans hpc
    | historySendOp => exact (congrArg (· + _) hoffset).trans hpc
    | historySendMessage => exact ⟨(congrArg (· + _) hoffset).trans hpc.1, hpc.2⟩
    | followSendOp | followSendMessage => exact ⟨hoffset.trans hpc.1, hpc.2⟩
    | _ => trivial
  exact (step_others hs hv).keep (P := Reckons (b'.clients v) s) (fun _ _ => id) (hsame _ h)

/-! ## No wake-up is lost: the run -/

/-- Worker `v` sleeps only where it has nothing to send, and its offset counts what it has
passed on. -/
structure UpToDate (s : Broker × (Nat → Session)) (v : Nat) : Prop where
  rested : Rested s.1 v
  reckons : Reckons (s.1.clients v) (s.2 v) (s.1.pcs v)

theorem UpToDate.of_start (maxSessions : Nat) (clients : Nat → Client)
    (m : Malloc) (fds : Nat → Bool)
    (sessions : Nat → Session) : UpToDate (start maxSessions clients m fds, sessions) v where
  rested i n hpc := by cases hpc
  reckons := .of_outside rfl

theorem UpToDate.step {s s' : Broker × (Nat → Session)} {e : Nat × Answer} (h : UpToDate s v)
    (hs : reckoned s e = some s') : UpToDate s' v := by
  obtain ⟨b', hb', rfl⟩ := Option.map_eq_some_iff.mp hs
  refine ⟨h.rested.step hb', ?_⟩
  dsimp only
  rcases eq_or_ne v e.1 with rfl | hv
  · rw [Function.update_self]
    exact h.reckons.own hb'
  · rw [Function.update_of_ne hv]
    exact h.reckons.beside hb' hv

end Broker

end MBroker
