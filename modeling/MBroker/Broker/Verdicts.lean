import MBroker.Broker.Guarded

/-!
# The verdict on a request and the answer to it

`handle_tfs_create_box` and `handle_tfs_remove_box` decide in a section under `boxes_lock`.
The answer is written in other sections, which the other workers may go between, and a
removal of the same name may finish the session meanwhile: it clears the name in the record.

Results:
1. `Decides`: the section that decides, and the return code and the text that it leads to.
2. `Says.own`, `Says.beside`: whatever the sections of the worker and of the others, what it
   has written is a beginning of the answer that its decision led to.
-/

namespace MBroker

open FirstFit Transition Fs

namespace Pc

/-- In a create or remove request whose pipe is not open yet. -/
def Unopened : Pc → Bool
  | .createLock | .createOpen .. | .removeLock | .removeOpen => true
  | _ => false

/-- The answer is written, and the session is finished next. -/
def Answered : Pc → Bool
  | .answering [] _ => true
  | _ => false

theorem hasPipe_of_unopened {pc : Pc} (h : pc.Unopened = true) : pc.HasPipe = false := by
  cases pc <;> first | rfl | cases h

end Pc

namespace Broker

variable {b b' x y : Broker} {v w i : Nat} {pc : Pc} {a : Answer} {r : Request}
  {code : Int} {msg : String}

/-! ## Decisions -/

/-- In the section from `x` to `y` worker `w` decides about the request. Where it looks for the
name it may find its own record cleared. -/
inductive Decides (r : Request) (w : Nat) (x : Broker) (a : Answer) (y : Broker) :
    Int → String → Prop
  | added {i : Nat} : r.opcode = opCodeCreateBox → x.getBox r.boxName.str = none →
      firstIndex x.freeBoxes maxBoxes = some i → SameTable (x.addBox i r.boxName) y →
      Decides r w x a y 0 ""
  | full : r.opcode = opCodeCreateBox → x.numBoxes = maxBoxes → SameTable x y →
      Decides r w x a y (-1) "Reached max number of boxes"
  | present : r.opcode = opCodeCreateBox → x.getBox r.boxName.str ≠ none ∨
      (x.clients w).boxName.str = .empty →
      SameTable x y → Decides r w x a y (-1) "Box already exists"
  | noMemory : r.opcode = opCodeCreateBox → a = .malloced false → SameTable x y →
      Decides r w x a y (-1) "Failed to create box"
  | removed {i : Nat} {t : Fs.State} :
      r.opcode = opCodeRemoveBox → x.getBox r.boxName.str = some i →
      SameTable (x.dropBox i t) y → Decides r w x a y 0 ""
  | absent : r.opcode = opCodeRemoveBox → x.getBox r.boxName.str = none ∨
      (x.clients w).boxName.str = .empty →
      SameTable x y → Decides r w x a y (-1) "Box does not exist"

/-- The record of the worker has the name of the request, or a removal has cleared it. -/
def AsksFor (b : Broker) (w : Nat) (r : Request) : Prop :=
  (b.clients w).boxName = r.boxName ∨ (b.clients w).boxName.str = .empty

theorem createSection_decides (htable : TableInvariant b) (hname : b.AsksFor w r)
    (hr : r.opcode = opCodeCreateBox)
    {malloced : Bool} {c : Int} {m : String} (hsection : b.createSection w malloced = (x, c, m))
    (hy : SameTable x y) :
    Decides r w b (.malloced malloced) y c m := by
  unfold Broker.createSection at hsection
  dsimp only at hsection
  split at hsection
  · next hfull =>
    obtain ⟨rfl, rfl, rfl⟩ := hsection
    exact .full hr hfull hy
  next hroom =>
  split at hsection
  · next hpresent =>
    obtain ⟨rfl, rfl, rfl⟩ := hsection
    refine .present hr ?_ hy
    rcases hname with hsame | hcleared
    · exact .inl (hsame ▸ hpresent)
    · exact .inr hcleared
  next habsent =>
  obtain ⟨i, hi⟩ := htable.freeSlot hroom
  cases malloced with
  | false =>
    rw [show b.createBox (b.clients w).boxName false = (b, -1) from rfl,
      if_pos (show (-1 : Int) < 0 by decide)] at hsection
    obtain ⟨rfl, rfl, rfl⟩ := hsection
    exact .noMemory hr rfl hy
  | true =>
    rw [createBox_of hi, if_neg (show ¬ (0 : Int) < 0 by decide)] at hsection
    obtain ⟨rfl, rfl, rfl⟩ := hsection
    have hnone := not_not.mp habsent
    rcases hname with hsame | hcleared
    · rw [hsame] at hnone hy
      exact .added hr hnone hi hy
    · -- A free slot has the empty name, so that name is found.
      obtain ⟨hlt, hfree, -⟩ := firstIndex_eq_some.mp hi
      rw [hcleared] at hnone
      exact absurd ((htable.free i hlt).mp hfree) (getBox_eq_none.mp hnone i hlt)

theorem SameTable.dropBox (h : SameTable b x) (i : Nat) (t u : Fs.State) :
    SameTable (b.dropBox i t) (x.dropBox i u) := by
  refine ⟨congrArg (· - 1) h.numBoxes, congrArg
    (fun f : Nat → Bool => Function.update f i true) h.freeBoxes,
    fun j => ?_⟩
  rcases eq_or_ne j i with rfl | hj
  · rw [Broker.dropBox, setBox_self, Broker.dropBox, setBox_self]
    exact congrArg CharArray.clear (h.boxName j)
  · rw [Broker.dropBox, setBox_of_ne _ _ hj, Broker.dropBox, setBox_of_ne _ _ hj]
    exact h.boxName j

theorem ne_empty_of_unlink {s t : Fs.State} {p : CStr} {ret : Int}
    (hu : tfsUnlink s (some p) = .ok (t, ret))
    (hret : ret ≠ -1) : p ≠ .empty := by
  rintro rfl
  rw [tfsUnlink_invalid (by decide)] at hu
  cases hu
  exact hret rfl

/-- Where the worker stands after the section. -/
theorem Removes.next (h : Removes b w x) :
    (∃ code msg, x.pcs w = .answering (answer opCodeRemoveBoxAnswer code msg) true) ∨
    x.pcs w = .ret (-1) ∨ x.pcs w = b.pcs w := by
  cases h with
  | absent => exact .inl ⟨_, _, setPc_self ..⟩
  | unfinished => exact .inr (.inl (setPc_self ..))
  | crash _ hfinish => exact .inr (.inr (congrFun (Kept.of_finish hfinish).pcs w))
  | notUnlinked => exact .inr (.inl (setPc_self ..))
  | removed => exact .inl ⟨_, _, setPc_self ..⟩

theorem Removes.decides (h : Removes b w x) (hname : b.AsksFor w r)
    (hr : r.opcode = opCodeRemoveBox) :
    (∃ code msg, x.pcs w = .answering (answer opCodeRemoveBoxAnswer code msg) true ∧
      Decides r w b a x code msg) ∨
      x.pcs w = .ret (-1) ∨ x.pcs w = b.pcs w := by
  cases h with
  | absent hnone =>
    refine .inl ⟨_, _, setPc_self .., .absent hr ?_ ⟨rfl, rfl, fun _ => rfl⟩⟩
    rcases hname with hsame | hcleared
    · exact .inl (hsame ▸ hnone)
    · exact .inr hcleared
  | unfinished => exact .inr (.inl (setPc_self ..))
  | crash _ hfinish => exact .inr (.inr (congrFun (Kept.of_finish hfinish).pcs w))
  | notUnlinked => exact .inr (.inl (setPc_self ..))
  | @removed i x' y ret ret' hi hfinish _ hremoved hret' =>
    refine .inl ⟨_, _, setPc_self .., ?_⟩
    have hkept := Kept.of_finish hfinish
    cases removedBox_of hremoved with
    | absent => exact absurd rfl hret'
    | linked => exact absurd rfl hret'
    | @dropped j t _ hj hunlink hunlinked =>
      -- A name that was cleared has no file, so `tfs_unlink` fails.
      have hsame := hname.resolve_right (ne_empty_of_unlink hunlink hunlinked)
      rw [hkept.getBox, hsame] at hj
      have hdropped := hkept.sameTable.dropBox j t t
      exact .removed hr hj ⟨hdropped.numBoxes, hdropped.freeBoxes, hdropped.boxName⟩

/-! ## What the worker writes -/

/-- What worker `w` has written in its session. -/
def spoken (b : Broker) (w : Nat) : List UInt8 := (b.sent w).flatMap Prod.snd

theorem emit_spoken {bytes : List UInt8} {result : WriteResult}
    (h : b.emit w bytes result = some x) :
    ∃ part, part <+: bytes ∧ x.spoken w = b.spoken w ++ part ∧
    (result = .wrote bytes.length → part = bytes) ∧
      ((b.clients w).clientPipe < 0 → part = []) := by
  unfold Broker.emit at h
  have hnone : result ≠ .wrote bytes.length → x = b → ∃ part, part <+: bytes ∧
      x.spoken w = b.spoken w ++ part ∧
      (result = .wrote bytes.length → part = bytes) ∧
      ((b.clients w).clientPipe < 0 → part = []) := by
    rintro hne rfl
    exact ⟨[], List.nil_prefix, (List.append_nil _).symm, fun heq => absurd heq hne, fun _ => rfl⟩
  split at h
  · next hopen =>
    cases result with
    | wrote n =>
      obtain ⟨hn, h⟩ := Option.ite_none_right_eq_some.mp h
      obtain rfl := Option.some.inj h
      refine ⟨bytes.take n, List.take_prefix n bytes, ?_, fun heq => ?_, fun hclosed => ?_⟩
      · simp [Broker.spoken]
      · rw [WriteResult.wrote.inj heq, List.take_length]
      · exact absurd hclosed (Int.not_lt.mpr hopen)
    | epipe => exact hnone nofun (Option.some.inj h).symm
    | error => exact hnone nofun (Option.some.inj h).symm
  · obtain ⟨rfl, h⟩ := Option.ite_none_right_eq_some.mp h
    exact hnone nofun (Option.some.inj h).symm

/-- What is written and what is still to be written are an answer that was decided on. -/
def Answers (told : Int → String → Prop) (spoken rest : List UInt8) : Prop :=
  ∃ op code msg, told code msg ∧ spoken ++ rest = (answer op code msg).flatten

/-- What a worker has written, where it stands. A pipe that did not open is written to in vain. -/
def Says (r : Request) (told : Int → String → Prop) (c : Client) (spoken : List UInt8) : Pc → Prop
  | .createLock => r.opcode = opCodeCreateBox ∧ spoken = []
  | .createOpen code msg => spoken = [] ∧ told code msg
  | .createFile code msg => spoken = [] ∧ (told code msg ∨ c.clientPipe = -1)
  | .removeLock | .removeOpen | .removeBody => r.opcode = opCodeRemoveBox ∧ spoken = []
  | .answering writes _ => Answers told spoken writes.flatten ∨ (spoken = [] ∧ c.clientPipe = -1)
  | .ret _ | .idle | .closing => spoken = [] ∨ ∃ rest, Answers told spoken rest
  | _ => False

variable {told told' : Int → String → Prop} {c : Client} {spoken : List UInt8}

theorem Answers.mono {rest : List UInt8} (h : Answers told spoken rest)
    (hmono : ∀ code msg, told code msg → told' code msg) :
    Answers told' spoken rest := by
  obtain ⟨op, code, msg, htold, heq⟩ := h
  exact ⟨op, code, msg, hmono code msg htold, heq⟩

theorem Says.mono (h : Says r told c spoken pc)
    (hmono : ∀ code msg, told code msg → told' code msg) :
    Says r told' c spoken pc := by
  cases pc with
  | createOpen => exact ⟨h.1, hmono _ _ h.2⟩
  | createFile => exact ⟨h.1, h.2.imp (hmono _ _) id⟩
  | answering => exact h.imp (·.mono hmono) id
  | ret => exact h.imp id fun ⟨rest, hrest⟩ => ⟨rest, hrest.mono hmono⟩
  | idle => exact h.imp id fun ⟨rest, hrest⟩ => ⟨rest, hrest.mono hmono⟩
  | closing => exact h.imp id fun ⟨rest, hrest⟩ => ⟨rest, hrest.mono hmono⟩
  | _ => exact h

theorem Says.begun (h : Says r told c spoken pc) :
    spoken = [] ∨ ∃ rest, Answers told spoken rest := by
  cases pc with
  | createLock => exact .inl h.2
  | createOpen => exact .inl h.1
  | createFile => exact .inl h.1
  | removeLock => exact .inl h.2
  | removeOpen => exact .inl h.2
  | removeBody => exact .inl h.2
  | answering => exact h.elim (fun hanswers => .inr ⟨_, hanswers⟩) fun hnone => .inl hnone.1
  | ret => exact h
  | idle => exact h
  | closing => exact h
  | _ => exact h.elim

theorem Says.outside (h : Says r told c spoken pc) : pc.InSession = false := by
  cases pc <;> first | rfl | exact h.elim

theorem createSection_sent (b : Broker) (w : Nat) (malloced : Bool) :
    (b.createSection w malloced).1.sent = b.sent := by
  rcases createSection_cases b w malloced with ⟨msg, heq, -⟩ | ⟨-, -, -, ⟨i, -, heq⟩ | ⟨-, heq⟩⟩
  · rw [heq]
  · rw [heq]
    rfl
  · rw [heq]

theorem Removes.sent (h : Removes b w x) : x.sent = b.sent := by
  have hremoved : ∀ {y z : Broker} {name : CStr} {ret : Int},
    y.removeBox name = .ok (z, ret) → z.sent = y.sent :=
    fun hr => by cases removedBox_of hr <;> rfl
  cases h with
  | absent => rfl
  | unfinished _ hfinish => exact (Kept.of_finish hfinish).sent
  | crash _ hfinish => exact (Kept.of_finish hfinish).sent
  | notUnlinked _ hfinish _ hr => exact (hremoved hr).trans (Kept.of_finish hfinish).sent
  | removed _ hfinish _ hr => exact (hremoved hr).trans (Kept.of_finish hfinish).sent

theorem spoken_eq (h : x.sent w = b.sent w) : x.spoken w = b.spoken w :=
  congrArg (List.flatMap Prod.snd) h

/-- A section of the worker itself: it decides, writes the next part of the answer, or gives up. -/
theorem Says.own (h : Says r told (b.clients w) (b.spoken w) (b.pcs w))
    (hguard : Guarded b) (hname : b.AsksFor w r)
    (hs : b.step (w, a) = some b') (halone : ∀ r', a ≠ .request r')
    (hmono : ∀ code msg, told code msg → told' code msg)
    (hnew : ∀ code msg, Decides r w b a b' code msg → told' code msg) :
    Says r told' (b'.clients w) (b'.spoken w) (b'.pcs w) := by
  have hserves := step_serves hs h.outside
  have hkept : ∀ {y : Broker}, y.clients w = b.clients w → y.sent w = b.sent w → y.pcs w = b.pcs w →
      Says r told' (y.clients w) (y.spoken w) (y.pcs w) := by
    intro y hclient hsent hpc
    rw [hclient, spoken_eq hsent, hpc]
    exact h.mono hmono
  generalize hpc : b.pcs w = pc at h hserves
  cases hserves with
  | request => exact absurd rfl (halone _)
  | returned =>
    unfold Broker.returned
    split
    · split
      · exact hkept rfl rfl rfl
      · rw [setPc_self]
        exact h.mono hmono
    · rw [setPc_self]
      exact h.mono hmono
  | @opened pc next _ fd hnext =>
    rw [setPc_self]
    cases pc <;> cases hnext
    · exact h.elim
    · exact ⟨h.1, .inl (hmono _ _ h.2)⟩
    · exact h
    · exact h.elim
  | notOpened hpc => rcases hpc with rfl | rfl <;> exact h.elim
  | registerBox => exact h.elim
  | @createLock malloced hfree =>
    rw [setPc_self]
    generalize hsection : b.createSection w malloced = section' at hnew
    obtain ⟨x, c, m⟩ := section'
    refine ⟨?_, hnew _ _ (createSection_decides (hguard.table_free hfree) hname h.1 hsection
      ⟨rfl, rfl, fun _ => rfl⟩)⟩
    have hsent := createSection_sent b w malloced
    rw [hsection] at hsent
    exact (spoken_eq (congrFun hsent w)).trans h.2
  | createNotOpened =>
    rw [setPc_self]
    exact ⟨h.1, .inr (congrArg Client.clientPipe (setClient_self b w _))⟩
  | createCrash => exact hkept rfl rfl rfl
  | createFailed =>
    rw [setPc_self]
    exact .inl h.1
  | @createFile code msg t fhandle =>
    rw [setPc_self]
    obtain ⟨hnone, htold⟩ := h
    rcases htold with htold | hpipe
    · exact .inl ⟨opCodeCreateBoxAnswer, code, msg, hmono _ _ htold,
        congrArg (· ++ (answer opCodeCreateBoxAnswer code msg).flatten) hnone⟩
    · refine .inr ⟨hnone, ?_⟩
      exact (congrArg Client.clientPipe (setClient_self ({ b with tfs := t } : Broker) w _)).trans
        hpipe
  | removeLock =>
    rw [setPc_self]
    exact h
  | removeNotOpened =>
    rw [setPc_self]
    exact .inl h.2
  | removeBody =>
    have hremoves := removeBody_removes b w
    have hsent := spoken_eq (congrFun hremoves.sent w)
    rw [hsent]
    rcases hremoves.decides (a := .none) hname h.1 with ⟨code, msg, hnext,
      hdecides⟩ | hfailed | hsame
    · rw [hnext]
      exact .inl ⟨opCodeRemoveBoxAnswer, code, msg, hnew code msg hdecides,
        congrArg (· ++ (answer opCodeRemoveBoxAnswer code msg).flatten) h.2⟩
    · rw [hfailed]
      exact .inl h.2
    · rw [hsame, hpc]
      exact h
  | @answering bytes writes locked y hy =>
    rw [setPc_self]
    obtain ⟨part, -, hspoken, hwhole, hclosed⟩ := emit_spoken hy
    have hclient : y.clients w = b.clients w := by
      obtain ⟨sent, rfl⟩ := emit_sent hy
      rfl
    rcases h with ⟨op, code, msg, htold, heq⟩ | ⟨hnone, hpipe⟩
    · refine .inl ⟨op, code, msg, hmono _ _ htold, ?_⟩
      rw [show (y.setPc w _).spoken w = y.spoken w from rfl, hspoken, hwhole rfl, List.append_assoc]
      exact heq
    · refine .inr ⟨?_, (congrArg Client.clientPipe hclient).trans hpipe⟩
      rw [show (y.setPc w _).spoken w = y.spoken w from rfl, hspoken, hnone,
        hclosed (by rw [hpipe]; decide)]
      rfl
  | @notAnswered bytes writes locked result y hy =>
    rw [setPc_self]
    obtain ⟨part, ⟨later, hpart⟩, hspoken, -, hclosed⟩ := emit_spoken hy
    rcases h with ⟨op, code, msg, htold, heq⟩ | ⟨hnone, hpipe⟩
    · refine .inr ⟨later ++ writes.flatten, op, code, msg, hmono _ _ htold, ?_⟩
      rw [show (y.setPc w _).spoken w = y.spoken w from rfl, hspoken, ← heq,
        List.flatten_cons, ← hpart]
      simp only [List.append_assoc]
    · refine .inl ?_
      rw [show (y.setPc w _).spoken w = y.spoken w from rfl, hspoken, hnone,
        hclosed (by rw [hpipe]; decide)]
      rfl
  | @answered locked =>
    have hsent : (b.answered w locked).sent w = b.sent w := by
      unfold Broker.answered
      exact congrFun ((finishClientSession_frame _ w).sent.trans (by split <;> rfl)) w
    rw [spoken_eq hsent, Broker.answered, returnFinish, setPc_self]
    exact h.elim (fun hanswers => .inr ⟨_, hanswers.mono hmono⟩) fun hnone => .inl hnone.1
  | listEnd => exact h.elim
  | listSkip => exact h.elim
  | listWrite => exact h.elim
  | listFailed => exact h.elim

/-! ## The other workers -/

theorem emit_sent_other {bytes : List UInt8} {result : WriteResult}
    (h : b.emit w bytes result = some y)
    (hx : x.sent = y.sent) (hv : v ≠ w) : x.sent v = b.sent v := by
  rw [hx]
  unfold Broker.emit at h
  split at h
  · cases result with
    | wrote n =>
      obtain ⟨-, h⟩ := Option.ite_none_right_eq_some.mp h
      obtain rfl := Option.some.inj h
      exact Function.update_of_ne hv ..
    | epipe => rw [Option.some.inj h]
    | error => rw [Option.some.inj h]
  · rw [Option.some.inj (Option.ite_none_right_eq_some.mp h).2]

theorem endSession_sent (y : Broker) (w : Nat) (result : Int) :
    (y.endSession w result).sent = y.sent :=
  (finishClientSession_frame y w).sent

theorem Ends.sent (h : Ends b w pc a x) (hv : v ≠ w) : x.sent v = b.sent v := by
  have hend : ∀ (y : Broker) (result : Int), y.sent v = b.sent v →
    (y.endSession w result).sent v = b.sent v :=
    fun y result hy => (congrFun (endSession_sent y w result) v).trans hy
  cases h with
  | pipeClosed =>
    unfold Broker.pipeClosed
    split
    · exact hend b 0 rfl
    · rfl
  | historySendOp hx => exact emit_sent_other hx rfl hv
  | historySendMessage hx => exact emit_sent_other hx rfl hv
  | followSendOp hx => exact hend _ _ (emit_sent_other hx rfl hv)
  | followSendMessage hx => exact hend _ _ (emit_sent_other hx rfl hv)
  | _ => exact hend _ _ rfl

theorem Continues.sent (h : Continues b w pc x) (hv : v ≠ w) : x.sent v = b.sent v := by
  cases h with
  | historySendOp _ _ hx => exact emit_sent_other hx rfl hv
  | historyNext hx => exact emit_sent_other hx rfl hv
  | historyLast hx => exact emit_sent_other hx rfl hv
  | followSendOp hx => exact emit_sent_other hx rfl hv
  | followSendMessage hx => exact emit_sent_other hx rfl hv
  | _ => rfl

theorem registerBox_sent (b : Broker) (w : Nat) (stack : List UInt8) :
    (b.registerBox w stack).sent = b.sent := by
  unfold Broker.registerBox
  dsimp only
  split
  · exact (close_frame b w _).sent
  · split
    · split
      · exact (finishClientSession_frame _ w).sent
      · rfl
    · rfl

theorem Serves.sent (h : Serves b w pc a x) (hv : v ≠ w) : x.sent v = b.sent v := by
  have hfinish : ∀ y : Broker, y.sent = b.sent → (y.returnFinish w).sent v = b.sent v :=
    fun y hy => congrFun ((finishClientSession_frame y w).sent.trans hy) v
  cases h with
  | request => exact Function.update_of_ne hv ..
  | returned =>
    unfold Broker.returned
    split
    · split <;> rfl
    · rfl
  | registerBox => exact congrFun (registerBox_sent b w _) v
  | createLock => exact congrFun (createSection_sent b w _) v
  | removeBody => exact congrFun (removeBody_removes b w).sent v
  | answering hx => exact emit_sent_other hx rfl hv
  | notAnswered hx => exact emit_sent_other hx rfl hv
  | answered => exact hfinish _ (by split <;> rfl)
  | listEnd => exact hfinish b rfl
  | listWrite hx => exact emit_sent_other hx rfl hv
  | listFailed hx => exact emit_sent_other hx rfl hv
  | _ => rfl

theorem step_sent (hs : b.step (w, a) = some b') (hv : v ≠ w) : b'.sent v = b.sent v := by
  rcases step_cases hs with hends | hcrash | hgoes | hserves
  · exact hends.sent hv
  · generalize b.pcs w = pc at hcrash
    cases hcrash <;> rfl
  · exact hgoes.sent hv
  · exact hserves.sent hv

/-- The names in a record are as they were, or the session has been finished and they are
cleared. -/
structure SameNames (c c' : Client) : Prop where
  boxName : c'.boxName = c.boxName ∨ c'.boxName.str = .empty
  clientPipename : c'.clientPipename = c.clientPipename ∨ c'.clientPipename.str = .empty

theorem SameNames.refl (c : Client) : SameNames c c := ⟨.inl rfl, .inl rfl⟩

theorem SameNames.trans {c' c'' : Client} (h : SameNames c c') (h' : SameNames c' c'') :
    SameNames c c'' where
  boxName := h'.boxName.elim (fun hsame => hsame ▸ h.boxName) .inr
  clientPipename := h'.clientPipename.elim (fun hsame => hsame ▸ h.clientPipename) .inr

/-- The record may have been finished, and the pipe is remembered. -/
structure Remembers (c c' : Client) : Prop extends SameNames c c' where
  clientPipe : c'.clientPipe = c.clientPipe

theorem Remembers.refl (c : Client) : Remembers c c := ⟨.refl c, rfl⟩

theorem Remembers.trans {c' c'' : Client} (h : Remembers c c') (h' : Remembers c' c'') :
    Remembers c c'' :=
  ⟨h.toSameNames.trans h'.toSameNames, h'.clientPipe.trans h.clientPipe⟩

theorem finishClientSession_remembers (b : Broker) (w v : Nat) :
    Remembers (b.clients v) ((b.finishClientSession w).1.clients v) := by
  rcases eq_or_ne v w with rfl | hv
  · cases hopen : b.isOpenFd (b.clients v).clientPipe with
    | false =>
      rw [finishClientSession_of_closed hopen]
      exact .refl _
    | true =>
      by_cases hfd : (b.clients v).opcode = opCodeListBoxes ∨ (b.clients v).boxFd ≠ -1
      · rw [finishClientSession_of_boxFd hopen hfd, setClient_self]
        exact ⟨⟨.inr (CharArray.str_clear _), .inr (CharArray.str_clear _)⟩, rfl⟩
      · rw [not_or, not_not] at hfd
        rw [finishClientSession_of_no_boxFd hopen hfd.1 hfd.2,
          (close_frame b (v + 1) _).clients v (by omega)]
        exact .refl _
  · rw [(finishClientSession_frame b w).clients v hv]
    exact .refl _

theorem finishSessions_remembers (b : Broker) (self : Nat) (boxName : CStr) (i n v : Nat) :
    Remembers (b.clients v) ((b.finishSessions self boxName i n).1.clients v) :=
  finishSessions_induction (R := fun b x => Remembers (b.clients v) (x.clients v))
    (fun _ => .refl _)
    (fun _ _ _ => .trans) (fun b u => finishClientSession_remembers b u v) b self boxName i n

theorem Removes.remembers (h : Removes b w x) (v : Nat) :
    Remembers (b.clients v) (x.clients v) := by
  have hfinished : ∀ {x : Broker} {ret : Int},
      b.finishSessions w (b.clients w).boxName.str 0 b.maxSessions = (x, ret) →
        Remembers (b.clients v) (x.clients v) := by
    intro x ret hx
    have hremembers := finishSessions_remembers b w (b.clients w).boxName.str 0 b.maxSessions v
    rwa [hx] at hremembers
  cases h with
  | absent => exact .refl _
  | unfinished _ hx =>
    have hremembers := hfinished hx
    exact hremembers
  | crash _ hx =>
    have hremembers := hfinished hx
    exact hremembers
  | notUnlinked _ hx _ hy =>
    have hremembers := hfinished hx
    rwa [← removeBox_clients hy] at hremembers
  | removed _ hx _ hy =>
    have hremembers := hfinished hx
    rwa [← removeBox_clients hy] at hremembers

theorem step_remembers (hs : b.step (w, a) = some b') (hv : v ≠ w) :
    Remembers (b.clients v) (b'.clients v) := by
  by_cases hremove : b.pcs w = .removeBody
  · rw [removeBody_of_step hs hremove]
    exact (removeBody_removes b w).remembers v
  · rw [(step_beside hs hv hremove).clients]
    exact .refl _

/-- A worker that serves such a request moves in its own sections only. -/
theorem Says.stands (h : Says r told (b.clients v) (b.spoken v) (b.pcs v))
    (hs : b.step (w, a) = some b') (hv : v ≠ w) :
    b'.pcs v = b.pcs v := by
  rcases step_others hs hv with hsame | ⟨i, n, hasleep, -⟩
  · exact hsame
  · rw [hasleep] at h
    exact h.elim

theorem Says.beside (h : Says r told (b.clients v) (b.spoken v) (b.pcs v))
    (hs : b.step (w, a) = some b') (hv : v ≠ w) :
    Says r told (b'.clients v) (b'.spoken v) (b'.pcs v) := by
  have hpc := h.stands hs hv
  have hpipe := (step_remembers hs hv).clientPipe
  rw [spoken_eq (step_sent hs hv), hpc]
  generalize b.pcs v = pc at h
  cases pc with
  | createFile => exact ⟨h.1, h.2.imp id (hpipe.trans ·)⟩
  | answering => exact h.imp id fun hnone => ⟨hnone.1, hpipe.trans hnone.2⟩
  | _ => exact h

theorem AsksFor.beside (h : b.AsksFor v r) (hs : b.step (w, a) = some b') (hv : v ≠ w) :
    b'.AsksFor v r := by
  rcases (step_remembers hs hv).boxName with hsame | hcleared
  · rw [Broker.AsksFor, hsame]
    exact h
  · exact .inr hcleared

/-! ## The worker's own sections -/

theorem emit_line {bytes : List UInt8} {result : WriteResult} (h : b.emit w bytes result = some x) :
    x.sent w = b.sent w ∨ ∃ part, 0 ≤ (b.clients w).clientPipe ∧
      x.sent w = b.sent w ++ [((b.clients w).clientPipe.toNat, part)] := by
  unfold Broker.emit at h
  split at h
  · next hopen =>
    cases result with
    | wrote n =>
      obtain ⟨-, h⟩ := Option.ite_none_right_eq_some.mp h
      obtain rfl := Option.some.inj h
      exact .inr ⟨bytes.take n, hopen, Function.update_self ..⟩
    | epipe => exact .inl (Option.some.inj h ▸ rfl)
    | error => exact .inl (Option.some.inj h ▸ rfl)
  · exact .inl ((Option.ite_none_right_eq_some.mp h).2 |> Option.some.inj |> fun heq => heq ▸ rfl)

/-- A worker writes the answer to its own descriptor, and nothing else. -/
theorem Says.writes (h : Says r told (b.clients w) (b.spoken w) (b.pcs w))
    (hs : b.step (w, a) = some b') (halone : ∀ r', a ≠ .request r') :
    b'.sent w = b.sent w ∨ ∃ bytes writes locked part, b.pcs w
      = .answering (bytes :: writes) locked ∧
      0 ≤ (b.clients w).clientPipe ∧ b'.sent w = b.sent w
        ++ [((b.clients w).clientPipe.toNat, part)] := by
  have hserves := step_serves hs h.outside
  generalize b.pcs w = pc at h hserves
  cases hserves with
  | request => exact absurd rfl (halone _)
  | returned =>
    unfold Broker.returned
    split
    · split <;> exact .inl rfl
    · exact .inl rfl
  | registerBox => exact h.elim
  | @createLock malloced => exact .inl (congrFun (createSection_sent b w malloced) w)
  | removeBody => exact .inl (congrFun (removeBody_removes b w).sent w)
  | answering hy =>
    exact (emit_line hy).imp_right fun ⟨part, hpipe, hsent⟩ => ⟨_, _, _, part, rfl, hpipe, hsent⟩
  | notAnswered hy =>
    exact (emit_line hy).imp_right fun ⟨part, hpipe, hsent⟩ => ⟨_, _, _, part, rfl, hpipe, hsent⟩
  | @answered locked =>
    have hsent : (b.answered w locked).sent = b.sent := by
      unfold Broker.answered
      exact (finishClientSession_frame _ w).sent.trans (by split <;> rfl)
    exact .inl (congrFun hsent w)
  | listEnd => exact h.elim
  | listSkip => exact h.elim
  | listWrite => exact h.elim
  | listFailed => exact h.elim
  | _ => exact .inl rfl

theorem Says.names (h : Says r told (b.clients w) (b.spoken w) (b.pcs w))
    (hs : b.step (w, a) = some b') (halone : ∀ r', a ≠ .request r') :
    SameNames (b.clients w) (b'.clients w) := by
  have hserves := step_serves hs h.outside
  have hset : ∀ {y : Broker} {c : Client} {pc : Pc}, SameNames (b.clients w) c →
      SameNames (b.clients w) (((y.setClient w c).setPc w pc).clients w) := fun {y c pc} hc => by
    rw [show ((y.setClient w c).setPc w pc).clients w = c from setClient_self y w c]
    exact hc
  have hemit : ∀ {y : Broker} {bytes : List UInt8} {result : WriteResult} {pc : Pc},
      b.emit w bytes result = some y →
      SameNames (b.clients w) ((y.setPc w pc).clients w) := fun hy => by
    obtain ⟨sent, rfl⟩ := emit_sent hy
    exact .refl _
  generalize b.pcs w = pc at h hserves
  cases hserves with
  | request => exact absurd rfl (halone _)
  | returned =>
    unfold Broker.returned
    split
    · split <;> exact .refl _
    · exact .refl _
  | opened => exact hset ⟨.inl rfl, .inl rfl⟩
  | registerBox => exact h.elim
  | @createLock malloced =>
    have hspares : Spares b (b.createSection w malloced).1 w := createSection_spares malloced
    exact hspares.clients ▸ SameNames.refl _
  | createNotOpened => exact hset ⟨.inl rfl, .inl rfl⟩
  | createFile => exact hset ⟨.inl rfl, .inl rfl⟩
  | removeBody => exact ((removeBody_removes b w).remembers w).toSameNames
  | answering hy => exact hemit hy
  | notAnswered hy => exact hemit hy
  | @answered locked =>
    have hfinish : ∀ y : Broker, y.clients = b.clients →
      SameNames (b.clients w) ((y.returnFinish w).clients w) := by
      intro y hclients
      have hnames := (finishClientSession_remembers y w w).toSameNames
      rwa [hclients] at hnames
    exact hfinish _ (by split <;> rfl)
  | listEnd => exact h.elim
  | listSkip => exact h.elim
  | listWrite => exact h.elim
  | listFailed => exact h.elim
  | _ => exact .refl _

theorem Says.unspoken (h : Says r told c spoken pc) (hpc : pc.Unopened = true) : spoken = [] := by
  cases pc with
  | createLock => exact h.2
  | createOpen => exact h.1
  | removeLock => exact h.2
  | removeOpen => exact h.2
  | _ => cases hpc

/-- The pipe is opened once, and before the answer is written. -/
inductive Opening (b : Broker) (w : Nat) (a : Answer) (b' : Broker) : Prop
  | before : (b.pcs w).Unopened = true → (b'.pcs w).Unopened = true →
      (∀ path fd, a ≠ .opened path (some fd)) → Opening b w a b'
  | opens {fd : Nat} : (b.pcs w).Unopened = true → (b'.pcs w).Unopened = false →
      a = .opened (b.clients w).clientPipename.str (some fd) → (b'.clients w).clientPipe = fd →
      b'.isOpenFd fd = true → Opening b w a b'
  | after : (b.pcs w).HasPipe = true → (b'.pcs w).Unopened = false → (b.pcs w).Answered = false →
      (∀ path fd, a ≠ .opened path (some fd)) →
      (b'.clients w).clientPipe = (b.clients w).clientPipe → Opening b w a b'
  | without : (b'.pcs w).Unopened = false → (∀ path fd, a ≠ .opened path (some fd)) →
      (b'.pcs w).HasPipe = false ∨ (b'.clients w).clientPipe = -1 → Opening b w a b'

theorem Says.opening (h : Says r told (b.clients w) (b.spoken w) (b.pcs w))
    (hs : b.step (w, a) = some b') (halone : ∀ r', a ≠ .request r') : Opening b w a b' := by
  have hserves := step_serves hs h.outside
  generalize hpc : b.pcs w = pc at h hserves
  have hret : ∀ {y : Broker} {result : Int}, (∀ path fd, a ≠ .opened path (some fd)) →
      Opening b w a (y.setPc w (.ret result)) := fun hanswer =>
    .without (by rw [setPc_self]; rfl) hanswer (.inl (by rw [setPc_self]; rfl))
  have hemit : ∀ {y : Broker} {bytes : List UInt8} {result : WriteResult} {pc : Pc},
      b.emit w bytes result = some y →
      ((y.setPc w pc).clients w).clientPipe = (b.clients w).clientPipe := fun hy => by
    obtain ⟨sent, rfl⟩ := emit_sent hy
    rfl
  cases hserves with
  | request => exact absurd rfl (halone _)
  | returned =>
    unfold Broker.returned
    split
    · split
      · exact .without (by rw [show b.crash.pcs w = _ from hpc]; rfl) (fun _ _ => by simp)
          (.inl (by rw [show b.crash.pcs w = _ from hpc]; rfl))
      · exact .without (by rw [setPc_self]; rfl) (fun _ _ => by simp)
          (.inl (by rw [setPc_self]; rfl))
    · exact .without (by rw [setPc_self]; rfl) (fun _ _ => by simp) (.inl (by rw [setPc_self]; rfl))
  | @opened pc next path fd hnext hfree hpath =>
    have hpipe : (((b.pipeOpened w fd).setPc w next).clients w).clientPipe = fd :=
      congrArg Client.clientPipe
        (setClient_self ({ b with fds := Function.update b.fds fd true } : Broker) w _)
    have hopen : ((b.pipeOpened w fd).setPc w next).isOpenFd fd = true := by
      simp [Broker.isOpenFd, pipeOpened, setPc, setClient]
    obtain rfl : path = _ := of_decide_eq_true hpath
    cases pc <;> cases hnext
    · exact h.elim
    · exact .opens (by rw [hpc]; rfl) (by rw [setPc_self]; rfl) rfl hpipe hopen
    · exact .opens (by rw [hpc]; rfl) (by rw [setPc_self]; rfl) rfl hpipe hopen
    · exact h.elim
  | notOpened hpc => rcases hpc with rfl | rfl <;> exact h.elim
  | registerBox => exact h.elim
  | createLock => exact .before (by rw [hpc]; rfl) (by rw [setPc_self]; rfl) fun _ _ => by simp
  | createNotOpened =>
    refine .without (by rw [setPc_self]; rfl) (fun _ _ => by simp) (.inr ?_)
    exact congrArg Client.clientPipe (setClient_self b w _)
  | createCrash =>
    have hsame : b.crash.pcs w = _ := hpc
    exact .after (by rw [hpc]; rfl) (by rw [hsame]; rfl) (by rw [hpc]; rfl) (fun _ _ => by simp) rfl
  | createFailed => exact hret fun _ _ => by simp
  | @createFile code msg t fhandle =>
    refine .after (by rw [hpc]; rfl) (by rw [setPc_self]; rfl)
      (by rw [hpc]; rfl) (fun _ _ => by simp) ?_
    exact (congrArg Client.clientPipe (setClient_self ({ b with tfs := t } : Broker) w _)).trans rfl
  | removeLock => exact .before (by rw [hpc]; rfl) (by rw [setPc_self]; rfl) fun _ _ => by simp
  | removeNotOpened => exact hret fun _ _ => by simp
  | removeBody =>
    have hremoves := removeBody_removes b w
    have hpipe := (hremoves.remembers w).clientPipe
    rcases hremoves.next with ⟨code, msg, hnext⟩ | hfailed | hsame
    · exact .after (by rw [hpc]; rfl) (by rw [hnext]; rfl) (by rw [hpc]; rfl)
        (fun _ _ => by simp) hpipe
    · exact .without (by rw [hfailed]; rfl) (fun _ _ => by simp) (.inl (by rw [hfailed]; rfl))
    · exact .after (by rw [hpc]; rfl) (by rw [hsame, hpc]; rfl) (by rw [hpc]; rfl)
        (fun _ _ => by simp) hpipe
  | answering hy =>
    exact .after (by rw [hpc]; rfl) (by rw [setPc_self]; rfl) (by rw [hpc]; rfl)
      (fun _ _ => by simp) (hemit hy)
  | notAnswered => exact hret fun _ _ => by simp
  | answered =>
    unfold Broker.answered returnFinish
    exact hret fun _ _ => by simp
  | listEnd => exact h.elim
  | listSkip => exact h.elim
  | listWrite => exact h.elim
  | listFailed => exact h.elim

theorem Decides.returnCode (h : Decides r w x a y code msg) : code = 0 ∨ code = -1 := by
  cases h <;> first | exact .inl rfl | exact .inr rfl

end Broker

end MBroker
