import MBroker.Broker.Calls
import MBroker.Broker.Publish
import MBroker.Broker.Removal

/-!
# What a section leaves of the slots

Only `create_box` and `remove_box` change which slots of `boxes` are in use and what
their names are. The lock of a slot is given back by the worker that has it, or is a new
one.

Results:
1. `step_around`: the sections that do not create or remove a box.
2. `Removes.slots`, `createLock_slots`: those that do.
-/

namespace MBroker

open FirstFit Transition Fs

/-- In `handle_messages_until_now`, with the lock of the box. -/
def Pc.InHistory : Pc → Bool
  | .historyOpen | .historyTest | .historyRead | .historySendOp .. | .historySendMessage .. => true
  | _ => false

namespace Broker

variable {b b' x y : Broker} {v w i j : Nat} {pc : Pc} {t : Fs.State} {a : Answer}

/-! ## The table and the locks -/

/-- The table is the same, and no lock of another worker than `w` is released. -/
structure Around (b x : Broker) (w : Nat) : Prop where
  table : SameTable b x
  lock : ∀ i v, v ≠ w → (b.boxes i).lock = some v → (x.boxes i).lock = some v

theorem Around.of_boxes (hnum : x.numBoxes = b.numBoxes) (hfree : x.freeBoxes = b.freeBoxes)
    (hboxes : x.boxes = b.boxes) : Around b x w :=
  ⟨⟨hnum, hfree, fun _ => by rw [hboxes]⟩, fun _ _ _ h => by rwa [hboxes]⟩

theorem Around.refl (b : Broker) (w : Nat) : Around b b w := .of_boxes rfl rfl rfl

theorem Around.trans (h : Around b x w) (h' : Around x y w) : Around b y w where
  table := ⟨h'.table.numBoxes.trans h.table.numBoxes, h'.table.freeBoxes.trans h.table.freeBoxes,
    fun i => (h'.table.boxName i).trans (h.table.boxName i)⟩
  lock i v hv hl := h'.lock i v hv (h.lock i v hv hl)

theorem Around.of_kept (h : Kept b x) : Around b x w :=
  ⟨h.sameTable, fun i _ _ hl => (h.lock i).trans hl⟩

theorem Around.setPc (h : Around b x w) (pc : Pc) : Around b (x.setPc w pc) w :=
  h.trans (.of_boxes rfl rfl rfl)

theorem Around.setClient (h : Around b x w) (c : Client) : Around b (x.setClient w c) w :=
  h.trans (.of_boxes rfl rfl rfl)

theorem Around.endSession (h : Around b x w) (result : Int) : Around b (x.endSession w result) w :=
  (h.trans (.of_kept (finishClientSession_frame x w).toKept)).setPc _

theorem Around.returnFinish (h : Around b x w) : Around b (x.returnFinish w) w :=
  (h.trans (.of_kept (finishClientSession_frame x w).toKept)).setPc _

/-- A box is written, with the same name; a lock that it had before was of worker `w`. -/
theorem Around.setBox {box : Box} (hname : box.boxName = (b.boxes i).boxName)
    (hlock : ∀ v ≠ w, (b.boxes i).lock = some v → box.lock = some v) :
    Around b (b.setBox i box) w := by
  refine ⟨⟨rfl, rfl, field_setBox Box.boxName hname⟩, fun j v hv hl => ?_⟩
  rcases eq_or_ne j i with rfl | hj
  · rw [setBox_self]
    exact hlock v hv hl
  · rw [setBox_of_ne _ _ hj]
    exact hl

theorem unlockBox_around (hheld : (b.boxes i).lock = some w) : Around b (b.unlockBox i) w := by
  refine .setBox rfl fun v hv hl => ?_
  rw [hheld] at hl
  exact absurd (Option.some.inj hl).symm hv

theorem lockBox_around (hfree : (b.boxes i).lock = none) :
    Around b (b.setBox i { b.boxes i with lock := some w }) w := by
  refine .setBox rfl fun v _ hl => ?_
  rw [hfree] at hl
  cases hl

theorem emit_around {bytes : List UInt8} {result : WriteResult}
    (h : b.emit w bytes result = some x) :
    Around b x w := by
  obtain ⟨sent, rfl⟩ := emit_sent h
  exact .of_boxes rfl rfl rfl

theorem returned_around (result : Int) : Around b (b.returned w result) w := by
  unfold returned
  split
  · split
    · exact .of_boxes rfl rfl rfl
    · exact (Around.refl b w).setPc _
  · exact (Around.refl b w).setPc _

theorem registerBox_around (stack : List UInt8) : Around b (b.registerBox w stack) w := by
  have hattach : ∀ i, Around b (b.attach w i) w := fun i => (Around.refl b w).setClient _
  cases hg : b.getBox (b.clients w).boxName.str with
  | none =>
    rw [registerBox_absent hg]
    exact (Around.of_kept (close_frame b w _).toKept).setPc _
  | some i =>
    have hcount : ∀ p s, Around b ((b.attach w i).setBox i
        { b.boxes i with nPublishers := p, nSubscribers := s }) w := fun p s =>
      (hattach i).trans (.of_kept (setBox_frame (b.attach w i) w i p s).toKept)
    by_cases hop : (b.clients w).opcode = opCodeRegistPub
    · by_cases hone : (b.boxes i).nPublishers = 1
      · rw [registerBox_rejected hg hop hone]
        exact (hattach i).returnFinish
      · rw [registerBox_publisher hg hop hone]
        exact (hcount _ (b.boxes i).nSubscribers).setPc _
    · rw [registerBox_subscriber hg hop]
      exact (hcount (b.boxes i).nPublishers _).setPc _

theorem pipeClosed_around : Around b (b.pipeClosed w) w := by
  unfold pipeClosed
  split
  · exact (Around.refl b w).endSession 0
  · exact (Around.refl b w).setPc _

theorem tfs_around (b : Broker) (w : Nat) (t : Fs.State) :
    Around b { b with tfs := t } w := .of_boxes rfl rfl rfl

theorem pubCount_around (hheld : (b.boxes i).lock = some w) (message : List UInt8) :
    Around b (b.pubCount w i message) w := by
  have hsize : ∀ n, Around b (b.setBox i { b.boxes i with boxSize := n }) w := fun n =>
    .setBox rfl fun _ _ hl => hl
  have hcount : ∀ n,
    Around b ((b.setBox i { b.boxes i with boxSize := n }).broadcast i) w := fun n =>
    (hsize n).trans (.of_boxes rfl rfl rfl)
  have hlock : ∀ n,
    (((b.setBox i { b.boxes i with boxSize := n }).broadcast i).boxes i).lock = some w :=
    fun n => (congrArg Box.lock (setBox_self b i _)).trans hheld
  exact ((hcount _).trans (unlockBox_around (hlock _))).setPc _

theorem answered_around (locked : Bool) : Around b (b.answered w locked) w := by
  unfold answered
  split
  · have hunlock : Around b { b with boxesLock := none } w := .of_boxes rfl rfl rfl
    exact hunlock.returnFinish
  · exact (Around.refl b w).returnFinish

theorem Ends.around (h : Ends b w pc a x) : Around b x w := by
  cases h with
  | pipeClosed => exact pipeClosed_around
  | pubOpen => exact (tfs_around b w _).endSession _
  | pubWrite => exact (tfs_around b w _).endSession _
  | historyOpen => exact ((tfs_around b w _).setClient _).endSession _
  | historyRead => exact (tfs_around b w _).endSession _
  | historySendOp hx => exact (emit_around hx).setPc _
  | historySendMessage hx => exact (emit_around hx).setPc _
  | followNone => exact (tfs_around b w _).returnFinish
  | followRead => exact (tfs_around b w _).endSession _
  | followSendOp hx => exact (emit_around hx).endSession _
  | followSendMessage hx => exact (emit_around hx).endSession _

theorem Crashes.around (h : Crashes b pc x) : Around b x w := by
  cases h <;> exact .of_boxes rfl rfl rfl

theorem Continues.around (h : Continues b w pc x)
    (hlocked : ∀ i m, pc.publishing = some (i, m) → (b.boxes i).lock = some w)
    (hhistory : ∀ i, pc.InHistory = true → (b.clients w).box = some i → (b.boxes i).lock = some w) :
    Around b x w := by
  have hset : ∀ pc, Around b (b.setPc w pc) w := (Around.refl b w).setPc
  cases h with
  | pubOpcode => exact hset _
  | pubMessage => exact hset _
  | pubLock hfree => exact (lockBox_around hfree).setPc _
  | pubOpen => exact (tfs_around b w _).setPc _
  | pubWrite => exact (tfs_around b w _).setPc _
  | pubCount => exact pubCount_around (hlocked _ _ rfl) _
  | historyLock hfree => exact (lockBox_around hfree).setPc _
  | historyOpen => exact ((tfs_around b w _).setClient _).setPc _
  | historyTest => exact hset _
  | historyNone hbox => exact (unlockBox_around (hhistory _ rfl hbox)).setPc _
  | historyRead => exact (tfs_around b w _).setPc _
  | @historyEnd t _ _ _ hbox =>
    have hunlock : Around { b with tfs := t } (({ b with tfs := t } : Broker).unlockBox _) w :=
      unlockBox_around (hhistory _ rfl hbox)
    exact ((tfs_around b w t).trans hunlock).setPc _
  | historySendOp _ _ hx => exact (emit_around hx).setPc _
  | historyNext hx => exact (emit_around hx).setPc _
  | historyLast hx => exact ((emit_around hx).setClient _).setPc _
  | sleep => exact hset _
  | followLock => exact hset _
  | wake => exact hset _
  | followRead => exact (tfs_around b w _).setPc _
  | followSendOp hx => exact (emit_around hx).setPc _
  | followSendMessage hx => exact ((emit_around hx).setClient _).setPc _

theorem Serves.around (h : Serves b w pc a x) (hcreate : pc ≠ .createLock)
    (hremove : pc ≠ .removeBody) :
    Around b x w := by
  have hset : ∀ pc, Around b (b.setPc w pc) w := (Around.refl b w).setPc
  cases h with
  | request => exact .of_boxes rfl rfl rfl
  | returned => exact returned_around _
  | opened => exact .of_boxes rfl rfl rfl
  | notOpened => exact hset _
  | registerBox => exact registerBox_around _
  | createLock => exact absurd rfl hcreate
  | createNotOpened => exact ((Around.refl b w).setClient _).setPc _
  | createCrash => exact .of_boxes rfl rfl rfl
  | createFailed => exact (tfs_around b w _).setPc _
  | createFile => exact ((tfs_around b w _).setClient _).setPc _
  | removeLock => exact .of_boxes rfl rfl rfl
  | removeNotOpened => exact .of_boxes rfl rfl rfl
  | removeBody => exact absurd rfl hremove
  | answering hx => exact (emit_around hx).setPc _
  | notAnswered hx => exact (emit_around hx).setPc _
  | answered => exact answered_around _
  | listEnd => exact (Around.refl b w).returnFinish
  | listSkip => exact hset _
  | listWrite hx => exact (emit_around hx).setPc _
  | listFailed hx => exact (emit_around hx).setPc _

/-- A section other than those that create and remove boxes. The worker has the locks
that it gives back. -/
theorem step_around (hs : b.step (w, a) = some b') (hcreate : b.pcs w ≠ .createLock)
    (hremove : b.pcs w ≠ .removeBody)
    (hlocked : ∀ i m, (b.pcs w).publishing = some (i, m) → (b.boxes i).lock = some w)
    (hhistory : ∀ i, (b.pcs w).InHistory = true → (b.clients w).box = some i →
      (b.boxes i).lock = some w) :
    Around b b' w := by
  rcases step_cases hs with hends | hcrash | hgoes | hserves
  · exact hends.around
  · exact hcrash.around
  · exact hgoes.around hlocked hhistory
  · exact hserves.around hcreate hremove

/-! ## The removal of a box -/

/-- The record is as it was, or that of a session that was finished. -/
def Recorded (b x : Broker) (v : Nat) : Prop :=
  x.clients v = b.clients v ∨ (x.clients v).box = none ∧ (x.clients v).boxFd = -1

theorem Recorded.trans (h : Recorded b x v) (h' : Recorded x y v) : Recorded b y v := by
  rcases h' with hsame | hfinished
  · rwa [Recorded, hsame]
  · exact Or.inr hfinished

theorem finishClientSession_recorded (b : Broker) (w v : Nat) :
    Recorded b (b.finishClientSession w).1 v := by
  rcases eq_or_ne v w with rfl | hv
  · cases hopen : b.isOpenFd (b.clients v).clientPipe with
    | false =>
      rw [finishClientSession_of_closed hopen]
      exact Or.inl rfl
    | true =>
      by_cases hfd : (b.clients v).opcode = opCodeListBoxes ∨ (b.clients v).boxFd ≠ -1
      · rw [finishClientSession_of_boxFd hopen hfd, Recorded, setClient_self]
        exact Or.inr ⟨rfl, rfl⟩
      · rw [not_or, not_not] at hfd
        rw [finishClientSession_of_no_boxFd hopen hfd.1 hfd.2]
        exact Or.inl ((close_frame b (v + 1) _).clients v (by omega))
  · exact Or.inl ((finishClientSession_frame b w).clients v hv)

theorem finishSessions_recorded (b : Broker) (self : Nat) (boxName : CStr) (i n v : Nat) :
    Recorded b (b.finishSessions self boxName i n).1 v :=
  finishSessions_induction (R := fun b x => Recorded b x v) (fun _ => Or.inl rfl)
    (fun _ _ _ => Recorded.trans)
    (fun b u => finishClientSession_recorded b u v) b self boxName i n

/-- What `handle_tfs_remove_box` leaves: at most one slot is free that was not, and no
session that carries its name has a slot. -/
structure AfterRemove (b x : Broker) (w : Nat) : Prop where
  recorded : ∀ v, Recorded b x v
  lock : ∀ j, (x.boxes j).lock = (b.boxes j).lock
  slots : (∀ j, x.freeBoxes j = b.freeBoxes j ∧ x.path j = b.path j) ∨
    ∃ i, b.getBox (b.clients w).boxName.str = some i ∧
      (∀ j ≠ i, x.freeBoxes j = b.freeBoxes j ∧ x.path j = b.path j) ∧
      (x.path i = b.path i ∨ x.path i = .empty) ∧
      ∀ v < b.maxSessions, v ≠ w → (b.clients v).boxName.str = (b.clients w).boxName.str →
        (x.clients v).box = none

/-- `remove_box` empties at most the slot of the name. -/
theorem removeBox_slots {name : CStr} {r : Int} (h : b.removeBox name = .ok (x, r))
    (hi : b.getBox name = some i) :
    (∀ j, (x.boxes j).lock = (b.boxes j).lock) ∧
      (∀ j ≠ i, x.freeBoxes j = b.freeBoxes j ∧ x.path j = b.path j) ∧
      (x.path i = b.path i ∨ x.path i = .empty) := by
  cases removedBox_of h with
  | absent hnone =>
    rw [hi] at hnone
    cases hnone
  | linked hg =>
    obtain rfl := Option.some.inj (hi.symm.trans hg)
    exact ⟨fun _ => rfl, fun j hj => ⟨Function.update_of_ne hj .., rfl⟩, Or.inl rfl⟩
  | @dropped _ t _ hg =>
    obtain rfl := Option.some.inj (hi.symm.trans hg)
    have hother : ∀ j ≠ i, (b.dropBox i t).boxes j = b.boxes j := fun j hj => setBox_of_ne _ _ hj
    refine ⟨fun j => ?_, fun j hj => ⟨Function.update_of_ne hj ..,
      path_eq (congrArg Box.boxName (hother j hj))⟩,
      Or.inr ?_⟩
    · rcases eq_or_ne j i with rfl | hj
      · rw [dropBox, setBox_self]
      · rw [hother j hj]
    · rw [path, dropBox, setBox_self, CharArray.str_clear]

theorem Removes.slots (h : Removes b w x) : AfterRemove b x w := by
  have hfinished : ∀ {y : Broker} {ret : Int},
      b.finishSessions w (b.clients w).boxName.str 0 b.maxSessions = (y, ret) →
      (∀ v, Recorded b y v) ∧ (∀ j, (y.boxes j).lock = (b.boxes j).lock) ∧
        ∀ j, y.freeBoxes j = b.freeBoxes j ∧ y.path j = b.path j := by
    intro y ret hfinish
    have hrec := finishSessions_recorded b w (b.clients w).boxName.str 0 b.maxSessions
    rw [hfinish] at hrec
    have hkept := Kept.of_finish hfinish
    exact ⟨hrec, hkept.lock, fun j => ⟨congrFun hkept.freeBoxes j, path_eq (hkept.boxName j)⟩⟩
  have hunlink : ∀ {i : Nat} {y z : Broker} {ret ret' : Int} {pc : Pc},
      b.getBox (b.clients w).boxName.str = some i →
      b.finishSessions w (b.clients w).boxName.str 0 b.maxSessions = (y, ret) → ret ≠ -1 →
      y.removeBox (b.clients w).boxName.str = .ok (z, ret') → AfterRemove b (z.setPc w pc) w := by
    intro i y z ret ret' pc hi hfinish hret hremove
    obtain ⟨hrec, hlock, hslots⟩ := hfinished hfinish
    have hclients : z.clients = y.clients := (removeBox_same hremove).2.1
    obtain ⟨hlock', hothers, hself⟩ := removeBox_slots hremove
      (((Kept.of_finish hfinish).getBox _).trans hi)
    refine ⟨fun v => ?_, fun j => (hlock' j).trans (hlock j),
      Or.inr ⟨i, hi, fun j hj => ?_, ?_, fun v hv hne hname => ?_⟩⟩
    · rw [Recorded, show (z.setPc w pc).clients = y.clients from hclients]
      exact hrec v
    · exact ⟨(hothers j hj).1.trans (hslots j).1, (hothers j hj).2.trans (hslots j).2⟩
    · exact hself.imp_left fun hsame => hsame.trans (hslots i).2
    · have hall := finishSessions_finishesAll (b := b) (n := b.maxSessions) (i := 0)
        (by rw [hfinish]; exact hret)
      rw [hfinish] at hall
      rw [show (z.setPc w pc).clients = y.clients from hclients]
      exact (hall.frees ⟨Nat.zero_le v, by rwa [Nat.zero_add], hne, hname⟩).1
  cases h with
  | absent => exact ⟨fun _ => Or.inl rfl, fun _ => rfl, Or.inl fun _ => ⟨rfl, rfl⟩⟩
  | unfinished _ hfinish =>
    obtain ⟨hrec, hlock, hslots⟩ := hfinished hfinish
    exact ⟨hrec, hlock, Or.inl hslots⟩
  | crash _ hfinish =>
    obtain ⟨hrec, hlock, hslots⟩ := hfinished hfinish
    exact ⟨hrec, hlock, Or.inl hslots⟩
  | notUnlinked hi hfinish hret hremove => exact hunlink hi hfinish hret hremove
  | removed hi hfinish hret hremove => exact hunlink hi hfinish hret hremove

/-! ## The creation of a box -/

/-- What `handle_tfs_create_box` leaves: at most one slot is filled that was free, with a
name that no slot had. -/
structure AfterCreate (b x : Broker) : Prop where
  slots : ∀ j, b.freeBoxes j = false →
    x.freeBoxes j = false ∧ x.path j = b.path j ∧ (x.boxes j).lock = (b.boxes j).lock
  names : (∀ j, x.path j = b.path j) ∨ ∃ i, (∀ j ≠ i, x.path j = b.path j) ∧
    ∀ j < maxBoxes, b.path j ≠ x.path i

theorem createLock_slots {malloced : Bool} (hs : b.createLock w malloced = some b') :
    AfterCreate b b' := by
  unfold Broker.createLock at hs
  split at hs
  swap
  · cases hs
  obtain rfl := Option.some.inj hs
  rcases createSection_cases b w malloced with
    ⟨msg, heq, -⟩ | ⟨-, hnew, -, ⟨i, hi, heq⟩ | ⟨-, heq⟩⟩
  · rw [heq]
    exact ⟨fun _ hj => ⟨hj, rfl, rfl⟩, Or.inl fun _ => rfl⟩
  · rw [heq]
    obtain ⟨-, hfree, -⟩ := firstIndex_eq_some.mp hi
    have hother : ∀ j ≠ i, (b.addBox i (b.clients w).boxName).boxes j = b.boxes j := fun j hj =>
      setBox_of_ne _ _ hj
    have hname : (b.addBox i (b.clients w).boxName).path i = (b.clients w).boxName.str := by
      rw [path, addBox, setBox_self, CharArray.str_terminate]
    refine ⟨fun j hj => ?_,
      Or.inr ⟨i, fun j hj => path_eq (congrArg Box.boxName (hother j hj)), ?_⟩⟩
    · have hji : j ≠ i := by
        rintro rfl
        rw [hfree] at hj
        cases hj
      exact ⟨(Function.update_of_ne hji ..).trans hj, path_eq (congrArg Box.boxName (hother j hji)),
        congrArg Box.lock (hother j hji)⟩
    · intro j hj
      rw [show ((b.addBox i (b.clients w).boxName).setPc w _).path i = _ from hname]
      exact getBox_eq_none.mp hnew j hj
  · rw [heq]
    exact ⟨fun _ hj => ⟨hj, rfl, rfl⟩, Or.inl fun _ => rfl⟩

/-! ## The names of the slots -/

/-- No two slots have one name, but for those that have none. -/
def Distinct (b : Broker) : Prop :=
  ∀ i < maxBoxes, ∀ j < maxBoxes, b.path i ≠ .empty → b.path i = b.path j → i = j

/-- One slot gets a name that no slot has, or loses its name. -/
theorem Distinct.rename {k : Nat} (hd : Distinct b) (hother : ∀ j ≠ k, x.path j = b.path j)
    (hk : x.path k = b.path k ∨ x.path k = .empty ∨ ∀ j < maxBoxes, b.path j ≠ x.path k) :
    Distinct x := by
  intro i hi j hj hne heq
  by_cases hik : i = k
  · subst hik
    by_contra hij
    rw [hother j (Ne.symm hij)] at heq
    rcases hk with hsame | hempty | hfresh
    · exact hij (hd i hi j hj (hsame ▸ hne) (hsame.symm.trans heq))
    · exact hne hempty
    · exact hfresh j hj heq.symm
  · rw [hother i hik] at heq hne
    by_cases hjk : j = k
    · subst hjk
      rcases hk with hsame | hempty | hfresh
      · exact hd i hi j hj hne (heq.trans hsame)
      · exact absurd (heq.trans hempty) hne
      · exact absurd heq (hfresh i hi)
    · rw [hother j hjk] at heq
      exact hd i hi j hj hne heq

theorem Distinct.of_paths (hd : Distinct b) (hsame : ∀ j, x.path j = b.path j) : Distinct x :=
  hd.rename (k := 0) (fun j _ => hsame j) (Or.inl (hsame 0))

theorem SameTable.distinct (h : SameTable b x) (hd : Distinct b) : Distinct x :=
  hd.of_paths fun j => path_eq (h.boxName j)

theorem AfterRemove.distinct (h : AfterRemove b x w) (hd : Distinct b) : Distinct x := by
  rcases h.slots with hsame | ⟨k, -, hother, hk, -⟩
  · exact hd.of_paths fun j => (hsame j).2
  · exact hd.rename (fun j hj => (hother j hj).2) (hk.imp_right Or.inl)

theorem AfterCreate.distinct (h : AfterCreate b x) (hd : Distinct b) : Distinct x := by
  rcases h.names with hsame | ⟨k, hother, hfresh⟩
  · exact hd.of_paths hsame
  · exact hd.rename hother (Or.inr (Or.inr hfresh))

end Broker

end MBroker
