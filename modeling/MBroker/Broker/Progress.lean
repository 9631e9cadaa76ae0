import MBroker.Broker.Machine

/-!
# What a section does, case by case

What one section of the loop of a publisher or subscriber does: the session goes on, or
it ends, or the process stops. And what a section outside these loops does.

Results:
1. `step_session`: these are all the sections of a session.
2. `step_serves`: these are all the others.
-/

namespace MBroker

open Transition Fs

namespace Pc

/-- In the loop of a publisher or subscriber. -/
def InSession : Pc → Bool
  | .pubOpcode _ | .pubMessage _ | .pubLock .. | .pubOpen .. | .pubWrite .. | .pubCount ..
  | .historyLock _ | .historyOpen | .historyTest | .historyRead | .historySendOp ..
  | .historySendMessage .. | .followLock _ | .asleep .. | .followRead _ | .followSendOp ..
  | .followSendMessage .. => true
  | _ => false

end Pc

namespace Broker

/-- A section after which the session goes on, and the state that it leaves. -/
inductive Continues (b : Broker) (w : Nat) : Pc → Broker → Prop
  | pubOpcode {message : List UInt8} :
    Continues b w (.pubOpcode message) (b.setPc w (.pubMessage message))
  | pubMessage {message bytes : List UInt8} {i : Nat} : (b.clients w).box = some i →
      bytes.length ≤ messageLength → bytes ≠ [] → Continues b w (.pubMessage message)
        (b.setPc w (.pubLock i (bytes ++ message.drop bytes.length)))
  | pubLock {i : Nat} {message : List UInt8} :
      (b.boxes i).lock = none → Continues b w (.pubLock i message)
      ((b.setBox i { b.boxes i with lock := some w }).setPc w (.pubOpen i message))
  | pubOpen {i : Nat} {message : List UInt8} {t : Fs.State} {fhandle : Int} :
      tfsOpen b.tfs (some (b.boxes i).boxName.str) tfsOAppend = .ok (t, fhandle) → 0 ≤ fhandle →
      Continues b w (.pubOpen i message)
        (({ b with tfs := t } : Broker).setPc w (.pubWrite i message fhandle))
  | pubWrite {i : Nat} {message : List UInt8} {t : Fs.State} {fhandle r : Int} :
      tfsWrite b.tfs fhandle (message ++ [0]) ((messageStr message).length + 1) = .ok (t, r) →
      ((messageStr message).length + 1 : Nat) ≤ r → Continues b w (.pubWrite i message fhandle)
        (({ b with tfs := t } : Broker).setPc w (.pubCount i message))
  | pubCount {i : Nat} {message : List UInt8} :
    Continues b w (.pubCount i message) (b.pubCount w i message)
  | historyLock {i : Nat} : (b.boxes i).lock = none → Continues b w (.historyLock i)
      ((b.setBox i { b.boxes i with lock := some w }).setPc w .historyOpen)
  | historyOpen {t : Fs.State} {fhandle : Int} :
      tfsOpen b.tfs (some (b.clients w).boxName.str) tfsOCreat = .ok (t, fhandle) → 0 ≤ fhandle →
      Continues b w .historyOpen ((({ b with tfs := t } : Broker).setClient w
        { b.clients w with boxFd := fhandle }).setPc w .historyTest)
  | historyTest {i : Nat} : (b.clients w).box = some i → 0 < b.unread w i →
      Continues b w .historyTest (b.setPc w .historyRead)
  | historyNone {i : Nat} : (b.clients w).box = some i → b.unread w i = 0 →
      Continues b w .historyTest ((b.unlockBox i).setPc w (.followLock i))
  | historyRead {t : Fs.State} {r : Int} {bytes : List UInt8} :
      tfsRead b.tfs (b.clients w).boxFd boxSize = .ok (t, r, bytes) → 0 < r →
      Continues b w .historyRead
        (({ b with tfs := t } : Broker).setPc w (.historySendOp bytes r.toNat))
  | historyEnd {t : Fs.State} {bytes : List UInt8} {i : Nat} :
      tfsRead b.tfs (b.clients w).boxFd boxSize = .ok (t, 0, bytes) → (b.clients w).box = some i →
      Continues b w .historyRead
      ((({ b with tfs := t } : Broker).unlockBox i).setPc w (.followLock i))
  | historySendOp {rest : List UInt8} {n : Nat} {x : Broker} : (0 : UInt8) ∈ rest →
      (CStr.ofBytes rest).length ≤ messageLength → b.emit w [opCodeSubscriber] (.wrote 1) = some x →
      Continues b w (.historySendOp rest n) (x.setPc w (.historySendMessage rest n))
  | historyNext {rest : List UInt8} {n : Nat} {x : Broker} :
      b.emit w (zeroPadded (CStr.ofBytes rest).bytes messageLength)
      (.wrote messageLength) = some x →
      rest.drop ((CStr.ofBytes rest).length + 1) ≠ [] → Continues b w (.historySendMessage rest n)
        (x.setPc w (.historySendOp (rest.drop ((CStr.ofBytes rest).length + 1)) n))
  | historyLast {rest : List UInt8} {n : Nat} {x : Broker} :
      b.emit w (zeroPadded (CStr.ofBytes rest).bytes messageLength)
      (.wrote messageLength) = some x →
      rest.drop ((CStr.ofBytes rest).length + 1) = [] → Continues b w (.historySendMessage rest n)
        ((x.setClient w { x.clients w with offset := (x.clients w).offset + n }).setPc
          w .historyTest)
  | sleep {i : Nat} : (b.boxes i).lock = none → b.unread w i = 0 →
      Continues b w (.followLock i) (b.setPc w (.asleep i (b.boxes i).cond))
  | followLock {i : Nat} : (b.boxes i).lock = none → b.unread w i ≠ 0 →
      Continues b w (.followLock i) (b.setPc w (.followRead i))
  | wake {i n : Nat} : Continues b w (.asleep i n) (b.setPc w (.followLock i))
  | followRead {i : Nat} {t : Fs.State} {r : Int} {bytes : List UInt8} :
      tfsRead b.tfs (b.clients w).boxFd messageLength = .ok (t, r, bytes) → 0 < r →
      Continues b w (.followRead i) (({ b with tfs := t } : Broker).setPc w
        (.followSendOp i (zeroPadded bytes messageLength) r.toNat))
  | followSendOp {i n : Nat} {message : List UInt8} {x : Broker} :
      b.emit w [opCodeSubscriber] (.wrote 1) = some x →
      Continues b w (.followSendOp i message n) (x.setPc w (.followSendMessage i message n))
  | followSendMessage {i n : Nat} {message : List UInt8} {x : Broker} :
      b.emit w message (.wrote messageLength) = some x →
      Continues b w (.followSendMessage i message n)
        ((x.setClient w { x.clients w with offset := (x.clients w).offset + n }).setPc w
          (.followLock i))

/-- A section that ends the session with this answer, and the state that it leaves. -/
inductive Ends (b : Broker) (w : Nat) : Pc → Answer → Broker → Prop
  | pipeClosed {pc : Pc} {message : List UInt8} :
      pc = .pubOpcode message ∨ pc = .pubMessage message →
      Ends b w pc (.read []) (b.pipeClosed w)
  | pubOpen {i : Nat} {message : List UInt8} {t : Fs.State} {fhandle : Int} :
      tfsOpen b.tfs (some (b.boxes i).boxName.str) tfsOAppend = .ok (t, fhandle) → fhandle < 0 →
      Ends b w (.pubOpen i message) .none (({ b with tfs := t } : Broker).endSession w (-1))
  | pubWrite {i : Nat} {message : List UInt8} {t : Fs.State} {fhandle r result : Int} :
      tfsWrite b.tfs fhandle (message ++ [0]) ((messageStr message).length + 1) = .ok (t, r) →
      r < ((messageStr message).length + 1 : Nat) → Ends b w (.pubWrite i message fhandle) .none
        (({ b with tfs := t } : Broker).endSession w result)
  | historyOpen {t : Fs.State} {fhandle : Int} :
      tfsOpen b.tfs (some (b.clients w).boxName.str) tfsOCreat = .ok (t, fhandle) → fhandle < 0 →
      Ends b w .historyOpen .none ((({ b with tfs := t } : Broker).setClient w
        { b.clients w with boxFd := fhandle }).endSession w (-1))
  | historyRead {t : Fs.State} {r : Int} {bytes : List UInt8} :
      tfsRead b.tfs (b.clients w).boxFd boxSize = .ok (t, r, bytes) → r < 0 →
      Ends b w .historyRead .none (({ b with tfs := t } : Broker).endSession w (-1))
  | historySendOp {rest : List UInt8} {n : Nat} {result : WriteResult} {x : Broker} :
      b.emit w [opCodeSubscriber] result = some x → result ≠ .wrote 1 →
      Ends b w (.historySendOp rest n) (.wrote result) (x.setPc w (.ret (-1)))
  | historySendMessage {rest : List UInt8} {n : Nat} {result : WriteResult} {x : Broker} :
      b.emit w (zeroPadded (CStr.ofBytes rest).bytes messageLength) result = some x →
      result ≠ .wrote messageLength →
      Ends b w (.historySendMessage rest n) (.wrote result) (x.setPc w (.ret (-1)))
  | followNone {i : Nat} {t : Fs.State} {bytes : List UInt8} :
      tfsRead b.tfs (b.clients w).boxFd messageLength = .ok (t, 0, bytes) →
      Ends b w (.followRead i) .none (({ b with tfs := t } : Broker).returnFinish w)
  | followRead {i : Nat} {t : Fs.State} {r : Int} {bytes : List UInt8} :
      tfsRead b.tfs (b.clients w).boxFd messageLength = .ok (t, r, bytes) → r < 0 →
      Ends b w (.followRead i) .none (({ b with tfs := t } : Broker).endSession w (-1))
  | followSendOp {i n : Nat} {message : List UInt8} {result : WriteResult}
      {code : Int} {x : Broker} :
      b.emit w [opCodeSubscriber] result = some x → result ≠ .wrote 1 →
      Ends b w (.followSendOp i message n) (.wrote result) (x.endSession w code)
  | followSendMessage {i n : Nat} {message : List UInt8} {result : WriteResult}
      {code : Int} {x : Broker} :
      b.emit w message result = some x → result ≠ .wrote messageLength →
      Ends b w (.followSendMessage i message n) (.wrote result) (x.endSession w code)

/-- A section that stops the process, perhaps after its call. -/
inductive Crashes (b : Broker) : Pc → Broker → Prop
  | crash {pc : Pc} : Crashes b pc b.crash
  | historyRead {t : Fs.State} : Crashes b .historyRead ({ b with tfs := t } : Broker).crash

variable {b b' x : Broker} {w : Nat} {pc : Pc} {a : Answer}

theorem Crashes.same (h : Crashes b pc x) : x.pcs = b.pcs ∧ x.clients = b.clients := by
  cases h <;> exact ⟨rfl, rfl⟩

theorem Ends.ended (h : Ends b w pc a x) : (x.pcs w).InSession = false := by
  have hend : ∀ (y : Broker) (r : Int), ((y.endSession w r).pcs w).InSession
    = false := fun y r => by
    rw [endSession, setPc_self]
    rfl
  cases h with
  | pipeClosed =>
    unfold Broker.pipeClosed
    split
    · exact hend ..
    · rw [setPc_self]
      rfl
  | pubOpen => exact hend ..
  | pubWrite => exact hend ..
  | historyOpen => exact hend ..
  | historyRead => exact hend ..
  | historySendOp =>
    rw [setPc_self]
    rfl
  | historySendMessage =>
    rw [setPc_self]
    rfl
  | followNone =>
    rw [returnFinish, setPc_self]
    rfl
  | followRead => exact hend ..
  | followSendOp => exact hend ..
  | followSendMessage => exact hend ..

section Sections

variable {i n : Nat} {message rest bytes : List UInt8} {fhandle : Int} {result : WriteResult}

theorem pubOpcode_session (hs : b.pubOpcode w message bytes = some b') :
    Ends b w (.pubOpcode message) (.read bytes) b' ∨ Continues b w (.pubOpcode message) b' := by
  unfold Broker.pubOpcode at hs
  split at hs
  · split at hs <;> obtain rfl := Option.some.inj hs
    · next hnil => exact Or.inl (hnil ▸ .pipeClosed (Or.inl rfl))
    · exact Or.inr .pubOpcode
  · cases hs

theorem pubMessage_session (hs : b.pubMessage w message bytes = some b') :
    Ends b w (.pubMessage message) (.read bytes) b' ∨ Crashes b (.pubMessage message) b' ∨
    Continues b w (.pubMessage message) b' := by
  unfold Broker.pubMessage at hs
  split at hs
  · next hread =>
    rw [canRead, decide_eq_true_eq] at hread
    split at hs
    · next hnil =>
      obtain rfl := Option.some.inj hs
      exact Or.inl (hnil ▸ .pipeClosed (Or.inr rfl))
    · next hne =>
      split at hs <;> obtain rfl := Option.some.inj hs
      · exact Or.inr (Or.inl .crash)
      · next hbox => exact Or.inr (Or.inr (.pubMessage hbox hread hne))
  · cases hs

theorem lockBox_eq_some {next : Pc} (hs : b.lockBox w i next = some b') : (b.boxes i).lock = none ∧
    b' = (b.setBox i { b.boxes i with lock := some w }).setPc w next := by
  unfold lockBox at hs
  split at hs
  · next hfree => exact ⟨hfree, (Option.some.inj hs).symm⟩
  · cases hs

theorem pubOpen_session (b : Broker) (w i : Nat) (message : List UInt8) :
    Ends b w (.pubOpen i message) .none (b.pubOpen w i message) ∨
    Crashes b (.pubOpen i message) (b.pubOpen w i message) ∨
      Continues b w (.pubOpen i message) (b.pubOpen w i message) := by
  unfold Broker.pubOpen
  split
  · exact Or.inr (Or.inl .crash)
  · next hopen =>
    dsimp only
    split
    · next hneg => exact Or.inl (.pubOpen hopen hneg)
    · next hpos => exact Or.inr (Or.inr (.pubOpen hopen (Int.not_lt.mp hpos)))

theorem pubWrite_session (b : Broker) (w i : Nat) (message : List UInt8) (fhandle : Int) :
    Ends b w (.pubWrite i message fhandle) .none (b.pubWrite w i message fhandle) ∨
      Crashes b (.pubWrite i message fhandle) (b.pubWrite w i message fhandle) ∨
      Continues b w (.pubWrite i message fhandle) (b.pubWrite w i message fhandle) := by
  unfold Broker.pubWrite
  dsimp only
  split
  · exact Or.inr (Or.inl .crash)
  · next hwrite =>
    split
    · next hneg => exact Or.inl (.pubWrite hwrite (Int.lt_of_lt_of_le hneg (Int.natCast_nonneg _)))
    · split
      · next hcut => exact Or.inl (.pubWrite hwrite hcut)
      · next hwhole => exact Or.inr (Or.inr (.pubWrite hwrite (Int.not_lt.mp hwhole)))

theorem historyOpen_session (b : Broker) (w : Nat) : Ends b w .historyOpen .none (b.historyOpen w) ∨
    Crashes b .historyOpen (b.historyOpen w) ∨ Continues b w .historyOpen (b.historyOpen w) := by
  unfold Broker.historyOpen
  split
  · exact Or.inr (Or.inl .crash)
  · next hopen =>
    dsimp only
    split
    · next hneg => exact Or.inl (.historyOpen hopen hneg)
    · next hpos => exact Or.inr (Or.inr (.historyOpen hopen (Int.not_lt.mp hpos)))

theorem historyTest_session (b : Broker) (w : Nat) :
    Crashes b .historyTest (b.historyTest w) ∨ Continues b w .historyTest (b.historyTest w) := by
  unfold Broker.historyTest
  split
  · exact Or.inl .crash
  · next hbox =>
    split
    · next hmore => exact Or.inr (.historyTest hbox hmore)
    · next hnone =>
      simp only [historyDone, hbox]
      exact Or.inr (.historyNone hbox (Nat.eq_zero_of_not_pos hnone))

theorem historyRead_session (b : Broker) (w : Nat) : Ends b w .historyRead .none (b.historyRead w) ∨
    Crashes b .historyRead (b.historyRead w) ∨ Continues b w .historyRead (b.historyRead w) := by
  unfold Broker.historyRead
  split
  · exact Or.inr (Or.inl .crash)
  · next t r bytes hread =>
    dsimp only
    split
    · next hzero =>
      subst hzero
      unfold historyDone
      split
      · exact Or.inr (Or.inl .historyRead)
      · next hbox => exact Or.inr (Or.inr (.historyEnd hread hbox))
    · next hne =>
      split
      · next hneg => exact Or.inl (.historyRead hread hneg)
      · next hpos => exact Or.inr (Or.inr (.historyRead hread (by omega)))

theorem historySendOp_session (hs : b.historySendOp w rest n result = some b') :
    Ends b w (.historySendOp rest n) (.wrote result) b' ∨ Crashes b (.historySendOp rest n) b' ∨
    Continues b w (.historySendOp rest n) b' := by
  unfold Broker.historySendOp at hs
  split at hs
  · obtain rfl := Option.some.inj hs
    exact Or.inr (Or.inl .crash)
  · next hfits =>
    rw [not_or, not_not, Nat.not_lt] at hfits
    replace ⟨x, hx, hs⟩ := Option.bind_eq_some_iff.mp hs
    split at hs
    · next hone =>
      subst hone
      exact Option.some.inj hs ▸ Or.inr (Or.inr (.historySendOp hfits.1 hfits.2 hx))
    · next hne => exact Option.some.inj hs ▸ Or.inl (.historySendOp hx hne)

theorem historySendMessage_session (hs : b.historySendMessage w rest n result = some b') :
    Ends b w (.historySendMessage rest n) (.wrote result) b' ∨
    Continues b w (.historySendMessage rest n) b' := by
  replace ⟨x, hx, hs⟩ := Option.bind_eq_some_iff.mp hs
  dsimp only at hs
  split at hs
  · next hall =>
    subst hall
    split at hs
    · next hlast => exact Option.some.inj hs ▸ Or.inr (.historyLast hx hlast)
    · next hmore => exact Option.some.inj hs ▸ Or.inr (.historyNext hx hmore)
  · next hne => exact Option.some.inj hs ▸ Or.inl (.historySendMessage hx hne)

theorem followLock_session (hs : b.followLock w i = some b') :
    Continues b w (.followLock i) b' := by
  unfold Broker.followLock at hs
  split at hs
  · next hfree =>
    split at hs <;> obtain rfl := Option.some.inj hs
    · next hzero => exact .sleep hfree hzero
    · next hmore => exact .followLock hfree hmore
  · cases hs

theorem followRead_session (b : Broker) (w i : Nat) :
    Ends b w (.followRead i) .none (b.followRead w i) ∨
    Crashes b (.followRead i) (b.followRead w i) ∨
    Continues b w (.followRead i) (b.followRead w i) := by
  unfold Broker.followRead
  split
  · exact Or.inr (Or.inl .crash)
  · next t r bytes hread =>
    dsimp only
    split
    · next hzero =>
      subst hzero
      exact Or.inl (.followNone hread)
    · next hne =>
      split
      · next hneg => exact Or.inl (.followRead hread hneg)
      · next hpos => exact Or.inr (Or.inr (.followRead hread (by omega)))

theorem followSendOp_session (hs : b.followSendOp w i message n result = some b') :
    Ends b w (.followSendOp i message n) (.wrote result) b' ∨
    Continues b w (.followSendOp i message n) b' := by
  replace ⟨x, hx, hs⟩ := Option.bind_eq_some_iff.mp hs
  split at hs
  · next hclosed =>
    refine Option.some.inj hs ▸ Or.inl (.followSendOp hx ?_)
    rintro rfl
    rcases hclosed with hc | hc <;> cases hc
  · split at hs
    · next hall =>
      subst hall
      exact Option.some.inj hs ▸ Or.inr (.followSendOp hx)
    · next hne => exact Option.some.inj hs ▸ Or.inl (.followSendOp hx hne)

theorem followSendMessage_session (hs : b.followSendMessage w i message n result = some b') :
    Ends b w (.followSendMessage i message n) (.wrote result) b' ∨
    Continues b w (.followSendMessage i message n) b' := by
  replace ⟨x, hx, hs⟩ := Option.bind_eq_some_iff.mp hs
  split at hs
  · next hclosed =>
    refine Option.some.inj hs ▸ Or.inl (.followSendMessage hx ?_)
    rintro rfl
    rcases hclosed with hc | hc <;> cases hc
  · split at hs
    · next hall =>
      subst hall
      exact Option.some.inj hs ▸ Or.inr (.followSendMessage hx)
    · next hne => exact Option.some.inj hs ▸ Or.inl (.followSendMessage hx hne)

end Sections

/-- One section of a session. -/
theorem step_session (hs : b.step (w, a) = some b') (hin : (b.pcs w).InSession = true) :
    Ends b w (b.pcs w) a b' ∨ Crashes b (b.pcs w) b' ∨ Continues b w (b.pcs w) b' := by
  replace hs := (step_eq_some.mp hs).2.2
  dsimp only at hs
  generalize b.pcs w = pc at hs hin
  cases pc with
  | idle => cases hin
  | ret => cases hin
  | closing => cases hin
  | registerOpen => cases hin
  | registerBox => cases hin
  | createLock => cases hin
  | createOpen => cases hin
  | createFile => cases hin
  | removeLock => cases hin
  | removeOpen => cases hin
  | removeBody => cases hin
  | answering => cases hin
  | listOpen => cases hin
  | listing => cases hin
  | pubOpcode message =>
    cases a with
    | read bytes => exact (pubOpcode_session hs).imp_right Or.inr
    | _ => cases hs
  | pubMessage message =>
    cases a with
    | read bytes => exact pubMessage_session hs
    | _ => cases hs
  | pubLock i message =>
    cases a with
    | none =>
      obtain ⟨hfree, rfl⟩ := lockBox_eq_some hs
      exact Or.inr (Or.inr (.pubLock hfree))
    | _ => cases hs
  | pubOpen i message =>
    cases a with
    | none => exact Option.some.inj hs ▸ pubOpen_session b w i message
    | _ => cases hs
  | pubWrite i message fhandle =>
    cases a with
    | none => exact Option.some.inj hs ▸ pubWrite_session b w i message fhandle
    | _ => cases hs
  | pubCount i message =>
    cases a with
    | none => exact Option.some.inj hs ▸ Or.inr (Or.inr .pubCount)
    | _ => cases hs
  | historyLock i =>
    cases a with
    | none =>
      obtain ⟨hfree, rfl⟩ := lockBox_eq_some hs
      exact Or.inr (Or.inr (.historyLock hfree))
    | _ => cases hs
  | historyOpen =>
    cases a with
    | none => exact Option.some.inj hs ▸ historyOpen_session b w
    | _ => cases hs
  | historyTest =>
    cases a with
    | none => exact Option.some.inj hs ▸ Or.inr (historyTest_session b w)
    | _ => cases hs
  | historyRead =>
    cases a with
    | none => exact Option.some.inj hs ▸ historyRead_session b w
    | _ => cases hs
  | historySendOp rest n =>
    cases a with
    | wrote result => exact historySendOp_session hs
    | _ => cases hs
  | historySendMessage rest n =>
    cases a with
    | wrote result => exact (historySendMessage_session hs).imp_right Or.inr
    | _ => cases hs
  | followLock i =>
    cases a with
    | none => exact Or.inr (Or.inr (followLock_session hs))
    | _ => cases hs
  | asleep i n =>
    cases a with
    | wake => exact Option.some.inj hs ▸ Or.inr (Or.inr .wake)
    | _ => cases hs
  | followRead i =>
    cases a with
    | none => exact Option.some.inj hs ▸ followRead_session b w i
    | _ => cases hs
  | followSendOp i message n =>
    cases a with
    | wrote result => exact (followSendOp_session hs).imp_right Or.inr
    | _ => cases hs
  | followSendMessage i message n =>
    cases a with
    | wrote result => exact (followSendMessage_session hs).imp_right Or.inr
    | _ => cases hs

/-! ## The sections outside a session -/

/-- Where a handler goes on when the pipe of its client is open. -/
def afterOpen (b : Broker) : Pc → Option Pc
  | .registerOpen => some .registerBox
  | .createOpen returnCode errorMsg => some (.createFile returnCode errorMsg)
  | .removeOpen => some .removeBody
  | .listOpen => some (.listing 0 0 (if b.numBoxes = 0 then 1 else 0))
  | _ => none

/-- The pipe of the client of `w` was opened. -/
def pipeOpened (b : Broker) (w fd : Nat) : Broker :=
  ({ b with fds := Function.update b.fds fd true } : Broker).setClient w
    { b.clients w with clientPipe := fd }

/-- A section outside the loops of a session, its answer, and the state that it leaves. -/
inductive Serves (b : Broker) (w : Nat) : Pc → Answer → Broker → Prop
  | request {r : Request} : Serves b w .idle (.request r) (b.dequeued w r)
  | returned {result : Int} : Serves b w (.ret result) .none (b.returned w result)
  | opened {pc next : Pc} {path : CStr} {fd : Nat} : b.afterOpen pc = some next → b.fds fd = false →
      b.opens w path = true → Serves b w pc (.opened path (some fd))
      ((b.pipeOpened w fd).setPc w next)
  | notOpened {pc : Pc} {path : CStr} : pc = .registerOpen ∨ pc = .listOpen →
      Serves b w pc (.opened path none) (b.setPc w (.ret (-1)))
  | registerBox {stack : List UInt8} : stack.length = messageLength →
      Serves b w .registerBox (.stack stack) (b.registerBox w stack)
  | createLock {malloced : Bool} : b.boxesLock = none → Serves b w .createLock (.malloced malloced)
      ((b.createSection w malloced).1.setPc w
        (.createOpen (b.createSection w malloced).2.1 (b.createSection w malloced).2.2))
  | createNotOpened {code : Int} {msg : String} {path : CStr} :
      Serves b w (.createOpen code msg) (.opened path none)
      ((b.setClient w { b.clients w with clientPipe := -1 }).setPc w
        (.createFile (-1) "Failed to open pipe"))
  | createCrash {code : Int} {msg : String} : Serves b w (.createFile code msg) .none b.crash
  | createFailed {code : Int} {msg : String} {t : Fs.State} {fhandle : Int} :
      tfsOpen b.tfs (some (b.clients w).boxName.str) tfsOCreat = .ok (t, fhandle) → fhandle < 0 →
      Serves b w (.createFile code msg) .none (({ b with tfs := t } : Broker).setPc w (.ret (-1)))
  | createFile {code : Int} {msg : String} {t : Fs.State} {fhandle : Int} :
      tfsOpen b.tfs (some (b.clients w).boxName.str) tfsOCreat = .ok (t, fhandle) → 0 ≤ fhandle →
      Serves b w (.createFile code msg) .none ((({ b with tfs := t } : Broker).setClient w
        { b.clients w with boxFd := fhandle }).setPc w
        (.answering (answer opCodeCreateBoxAnswer code msg) false))
  | removeLock : b.boxesLock = none →
      Serves b w .removeLock .none (({ b with boxesLock := some w } : Broker).setPc w .removeOpen)
  | removeNotOpened {path : CStr} : Serves b w .removeOpen (.opened path none)
      (({ b with boxesLock := none } : Broker).setPc w (.ret (-1)))
  | removeBody : Serves b w .removeBody .none (b.removeBody w)
  | answering {bytes : List UInt8} {writes : List (List UInt8)} {locked : Bool} {x : Broker} :
      b.emit w bytes (.wrote bytes.length) = some x →
      Serves b w (.answering (bytes :: writes) locked)
        (.wrote (.wrote bytes.length)) (x.setPc w (.answering writes locked))
  | notAnswered {bytes : List UInt8} {writes : List (List UInt8)}
      {locked : Bool} {result : WriteResult}
      {x : Broker} : b.emit w bytes result = some x → result ≠ .wrote bytes.length →
      Serves b w (.answering (bytes :: writes) locked) (.wrote result) (x.setPc w (.ret (-1)))
  | answered {locked : Bool} : Serves b w (.answering [] locked) .none (b.answered w locked)
  | listEnd {i count : Nat} {last : UInt8} : maxBoxes ≤ i →
      Serves b w (.listing i count last) .none (b.returnFinish w)
  | listSkip {i count : Nat} {last : UInt8} : b.listSkips i = true →
      Serves b w (.listing i count last) .none (b.setPc w (.listing (i + 1) count last))
  | listWrite {i count : Nat} {last flag : UInt8} {x : Broker} :
      b.emit w (b.listFrame i flag) (.wrote (b.listFrame i flag).length) = some x →
      Serves b w (.listing i count last) (.wrote (.wrote (b.listFrame i flag).length))
        (x.setPc w (.listing (i + 1) (count + 1) flag))
  | listFailed {i count : Nat} {last flag : UInt8} {result : WriteResult} {x : Broker} :
      b.emit w (b.listFrame i flag) result = some x →
      Serves b w (.listing i count last) (.wrote result) (x.setPc w (.ret (-1)))

theorem opened_serves {next : Pc} {path : CStr} {fd : Nat} (hnext : b.afterOpen pc = some next)
    (hpath : b.opens w path = true)
    (hs : (b.takeFd fd).bind (fun x =>
      some
        ((x.setClient w { x.clients w with clientPipe := (fd : Int) }).setPc w next)) = some b') :
    Serves b w pc (.opened path (some fd)) b' := by
  obtain ⟨x, hx, hs⟩ := Option.bind_eq_some_iff.mp hs
  obtain rfl := Option.some.inj hs
  obtain ⟨hfree, rfl⟩ := takeFd_eq_some.mp hx
  exact .opened hnext hfree hpath

theorem createFile_serves (b : Broker) (w : Nat) (code : Int) (msg : String) :
    Serves b w (.createFile code msg) .none (b.createFile w code msg) := by
  unfold Broker.createFile
  split
  · exact .createCrash
  · next ho =>
    dsimp only
    split
    · next hneg => exact .createFailed ho hneg
    · next hpos => exact .createFile ho (Int.not_lt.mp hpos)

/-- One section outside the loops of a session. -/
theorem step_serves (hs : b.step (w, a) = some b') (hout : (b.pcs w).InSession = false) :
    Serves b w (b.pcs w) a b' := by
  replace hs := (step_eq_some.mp hs).2.2
  dsimp only at hs
  generalize b.pcs w = pc at hs hout
  cases pc with
  | idle =>
    cases a with
    | request r => exact Option.some.inj hs ▸ .request
    | _ => cases hs
  | ret result =>
    cases a with
    | none => exact Option.some.inj hs ▸ .returned
    | _ => cases hs
  | closing => cases a <;> cases hs
  | registerOpen =>
    cases a with
    | opened path fd =>
      obtain ⟨hpath, hs⟩ := Option.ite_none_right_eq_some.mp hs
      cases fd with
      | none => exact Option.some.inj hs ▸ .notOpened (Or.inl rfl)
      | some fd => exact opened_serves rfl hpath hs
    | _ => cases hs
  | registerBox =>
    cases a with
    | stack garbage =>
      dsimp only [stepWorker] at hs
      split at hs
      · next hlen => exact Option.some.inj hs ▸ .registerBox hlen
      · cases hs
    | _ => cases hs
  | createLock =>
    cases a with
    | malloced ok =>
      replace hs : b.createLock w ok = some b' := hs
      unfold Broker.createLock at hs
      split at hs
      · next hfree => exact Option.some.inj hs ▸ .createLock hfree
      · cases hs
    | _ => cases hs
  | createOpen code msg =>
    cases a with
    | opened path fd =>
      obtain ⟨hpath, hs⟩ := Option.ite_none_right_eq_some.mp hs
      cases fd with
      | none => exact Option.some.inj hs ▸ .createNotOpened
      | some fd => exact opened_serves rfl hpath hs
    | _ => cases hs
  | createFile code msg =>
    cases a with
    | none => exact Option.some.inj hs ▸ createFile_serves b w code msg
    | _ => cases hs
  | removeLock =>
    cases a with
    | none =>
      replace hs : b.removeLock w = some b' := hs
      unfold Broker.removeLock at hs
      split at hs
      · next hfree => exact Option.some.inj hs ▸ .removeLock hfree
      · cases hs
    | _ => cases hs
  | removeOpen =>
    cases a with
    | opened path fd =>
      obtain ⟨hpath, hs⟩ := Option.ite_none_right_eq_some.mp hs
      cases fd with
      | none => exact Option.some.inj hs ▸ .removeNotOpened
      | some fd => exact opened_serves rfl hpath hs
    | _ => cases hs
  | removeBody =>
    cases a with
    | none => exact Option.some.inj hs ▸ .removeBody
    | _ => cases hs
  | answering writes locked =>
    cases writes with
    | nil =>
      cases a with
      | none => exact Option.some.inj hs ▸ .answered
      | _ => cases hs
    | cons bytes writes =>
      cases a with
      | wrote result =>
        replace ⟨x, hx, hs⟩ := Option.bind_eq_some_iff.mp hs
        split at hs
        · next hall =>
          subst hall
          exact Option.some.inj hs ▸ .answering hx
        · next hne => exact Option.some.inj hs ▸ .notAnswered hx hne
      | _ => cases hs
  | listOpen =>
    cases a with
    | opened path fd =>
      obtain ⟨hpath, hs⟩ := Option.ite_none_right_eq_some.mp hs
      cases fd with
      | none => exact Option.some.inj hs ▸ .notOpened (Or.inr rfl)
      | some fd =>
        obtain ⟨x, hx, hs⟩ := Option.bind_eq_some_iff.mp hs
        obtain ⟨hfree, rfl⟩ := takeFd_eq_some.mp hx
        exact Option.some.inj hs ▸ .opened rfl hfree hpath
    | _ => cases hs
  | listing i count last =>
    cases a with
    | none =>
      dsimp only [stepWorker] at hs
      split at hs
      · next hend => exact Option.some.inj hs ▸ .listEnd hend
      · split at hs
        · next hskip => exact Option.some.inj hs ▸ .listSkip hskip
        · cases hs
    | wrote result =>
      dsimp only [stepWorker] at hs
      split at hs
      · unfold Broker.listWrite at hs
        generalize (if ((count + 1 : Nat) : Int) = b.numBoxes
          then (1 : UInt8) else last) = flag at hs
        replace ⟨x, hx, hs⟩ := Option.bind_eq_some_iff.mp hs
        split at hs
        · next hall =>
          subst hall
          exact Option.some.inj hs ▸ .listWrite hx
        · exact Option.some.inj hs ▸ .listFailed hx
      · cases hs
    | _ => cases hs
  | _ => cases hout

theorem step_cases (hs : b.step (w, a) = some b') :
    Ends b w (b.pcs w) a b' ∨ Crashes b (b.pcs w) b' ∨
    Continues b w (b.pcs w) b' ∨ Serves b w (b.pcs w) a b' := by
  cases hin : (b.pcs w).InSession with
  | true => exact (step_session hs hin).imp_right (·.imp_right Or.inl)
  | false => exact Or.inr (Or.inr (Or.inr (step_serves hs hin)))

end Broker

end MBroker
