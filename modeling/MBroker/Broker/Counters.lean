import MBroker.Broker.Victims

/-!
# The counters of a box (`n_publishers`, `n_subscribers`)

`handle_tfs_register` increments the counter of the box, and `finish_client_session`
decrements it, unless `box_fd` is -1. A publisher never sets `box_fd`: it is what `malloc`
left in the record, or -1 once the worker has finished a session. So the last section of a
publisher counts only in the first session of its worker; and a publisher that is refused
there decrements the counter that it did not increment.

Results:
1. `Tally.step`: a section begins or ends a session and moves the counter with it.
2. `counters_tally`: as long as publishers leave with a `box_fd`, are refused without one,
   histories are sent, and no two sections count on one box at a time, the counters are the
   numbers of sessions.
3. `publisher_uncounted`: a publisher that is refused counts out the one that is connected.
-/

namespace MBroker

open FirstFit Transition Fs

/-- The kinds of sessions. -/
inductive Role
  | publisher
  | subscriber
deriving DecidableEq

namespace Role

def opcode : Role → UInt8
  | .publisher => opCodeRegistPub
  | .subscriber => opCodeRegistSub

/-- The counter of a box for the sessions of this kind. -/
def counter : Role → Box → Nat
  | .publisher => Box.nPublishers
  | .subscriber => Box.nSubscribers

end Role

namespace Pc

/-- The kind of the session whose loop the worker is in. -/
def role : Pc → Option Role
  | .pubOpcode _ | .pubMessage _ | .pubLock .. | .pubOpen .. | .pubWrite ..
  | .pubCount .. => some .publisher
  | .historyLock _ | .historyOpen | .historyTest | .historyRead
  | .historySendOp .. | .historySendMessage ..
  | .followLock _ | .asleep .. | .followRead _ | .followSendOp ..
  | .followSendMessage .. => some .subscriber
  | _ => none

/-- Where a worker stands that serves registrations only. -/
def Visiting : Pc → Bool
  | .idle | .ret _ | .closing | .registerOpen | .registerBox => true
  | pc => pc.InSession

variable {pc : Pc}

theorem visiting_of_inSession (h : pc.InSession = true) : pc.Visiting = true := by
  cases pc <;> first | rfl | cases h

theorem role_of_inSession (h : pc.InSession = true) : ∃ r, pc.role = some r := by
  cases pc <;> first | exact ⟨_, rfl⟩ | cases h

theorem inSession_of_role {r : Role} (h : pc.role = some r) : pc.InSession = true := by
  cases pc <;> first | rfl | cases h

end Pc

namespace Broker

variable {b b' x y : Broker} {v w i j : Nat} {pc pc' : Pc} {t : Fs.State} {a : Answer} {r : Role}

/-- Worker `w` is in a session of this kind on the box in slot `i`. -/
def Attends (b : Broker) (r : Role) (i w : Nat) : Prop :=
  (b.pcs w).role = some r ∧ (b.clients w).box = some i

instance (b : Broker) (r : Role) (i : Nat) : DecidablePred (b.Attends r i) := fun w =>
  inferInstanceAs (Decidable ((b.pcs w).role = some r ∧ (b.clients w).box = some i))

/-- The sessions of this kind on the box in slot `i`. -/
def sessions (b : Broker) (r : Role) (i : Nat) : Nat := Nat.count (b.Attends r i) b.maxSessions

/-- The box of the session of `w` is in use. -/
def OnUsed (b : Broker) (w : Nat) : Prop := ∃ i, (b.clients w).box = some i ∧ b.freeBoxes i = false

/-- In this section a publisher's session ends: its pipe is closed, or the box cannot be
opened, or the message is not written whole. -/
def PublisherLeaves (b : Broker) (e : Nat × Answer) : Prop :=
  match b.pcs e.1, e.2 with
  | .pubOpcode _, .read bytes | .pubMessage _, .read bytes => bytes = []
  | .pubOpen i _, _ => ∃ t fhandle,
      tfsOpen b.tfs (some (b.boxes i).boxName.str) tfsOAppend = .ok (t, fhandle) ∧ fhandle < 0
  | .pubWrite _ message fhandle, _ => ∃ t n,
      tfsWrite b.tfs fhandle (message ++ [0]) ((messageStr message).length + 1) = .ok (t, n) ∧
        n < ((messageStr message).length + 1 : Nat)
  | _, _ => False

/-- In this section a subscriber's session ends before its history is sent: the box cannot
be opened, or a write to the client is not done whole. -/
def HistoryFails (b : Broker) (e : Nat × Answer) : Prop :=
  match b.pcs e.1, e.2 with
  | .historyOpen, _ => ∃ t fhandle,
      tfsOpen b.tfs (some (b.clients e.1).boxName.str) tfsOCreat = .ok (t, fhandle) ∧ fhandle < 0
  | .historySendOp .., .wrote result => result ≠ .wrote 1
  | .historySendMessage .., .wrote result => result ≠ .wrote messageLength
  | _, _ => False

/-- Only registrations come. -/
def Registers (_ : Broker) (e : Nat × Answer) : Prop :=
  ∀ r, e.2 = .request r → r.opcode = opCodeRegistPub ∨ r.opcode = opCodeRegistSub

/-- For the boxes in use, a publisher is refused only by a worker whose `box_fd` is -1, a
publisher leaves only if it is not, and the history is sent to every subscriber. -/
structure KeepsCount (b : Broker) (e : Nat × Answer) : Prop where
  registers : b.Registers e
  refused : b.pcs e.1 = .registerBox → (b.clients e.1).opcode = opCodeRegistPub →
    ∀ i, b.getBox (b.clients e.1).boxName.str = some i → b.freeBoxes i = false →
      (b.boxes i).nPublishers = 1 → (b.clients e.1).boxFd = -1
  leaves : b.PublisherLeaves e → b.OnUsed e.1 → (b.clients e.1).boxFd ≠ -1
  history : b.OnUsed e.1 → ¬ b.HistoryFails e

/-! ## What a section does to the counters -/

/-- What a section of `w` does to one counter of one box, and to the session of `w`. -/
inductive Tallies (b x : Broker) (w : Nat) (r : Role) (i : Nat) : Prop
  | same : r.counter (x.boxes i) = r.counter (b.boxes i) → (x.Attends r i w ↔ b.Attends r i w) →
      Tallies b x w r i
  | joins : r.counter (x.boxes i) = addSize (r.counter (b.boxes i)) 1 → ¬ b.Attends r i w →
      x.Attends r i w → (r = .publisher → r.counter (b.boxes i) ≠ 1) → Tallies b x w r i
  | leaves : r.counter (x.boxes i) = subSize (r.counter (b.boxes i)) 1 → b.Attends r i w →
      ¬ x.Attends r i w → Tallies b x w r i

theorem not_attends (h : (b.pcs w).InSession = false) : ¬ b.Attends r i w := fun hc => by
  rw [Pc.inSession_of_role hc.1] at h
  cases h

theorem not_attends_of_ne (h : (b.clients w).box = some j) (hne : i ≠ j) :
    ¬ b.Attends r i w := fun hc => by
  rw [hc.2] at h
  exact hne (Option.some.inj h)

/-- A worker that is in no session before or after. -/
theorem Tallies.outside (hcounter : r.counter (x.boxes i) = r.counter (b.boxes i))
    (hb : (b.pcs w).InSession = false) (hx : (x.pcs w).InSession = false) : Tallies b x w r i :=
  .same hcounter (iff_of_false (not_attends hx) (not_attends hb))

theorem counter_leaveBox (b : Broker) (r r' : Role) (i j : Nat) :
    r.counter ((b.leaveBox r'.opcode j).boxes i)
    = if r = r' ∧ i = j then subSize (r.counter (b.boxes i)) 1 else r.counter (b.boxes i) := by
  by_cases hij : i = j
  · subst hij
    cases r <;> cases r' <;> simp [leaveBox, Role.opcode, Role.counter,
      opCodeRegistPub, opCodeRegistSub]
  · rw [if_neg fun hc => hij hc.2]
    unfold leaveBox
    split
    · rw [setBox_of_ne _ _ hij]
    · split
      · rw [setBox_of_ne _ _ hij]
      · rfl

/-- The end of a session on the box in slot `j`, if the pipe is open: without a `box_fd` the
counter stays. -/
theorem finishClientSession_counter (hpipe : y.isOpenFd (y.clients w).clientPipe = true)
    (hop : (y.clients w).opcode = r.opcode) (hbox : (y.clients w).box = some j)
    (r' : Role) (i : Nat) :
    r'.counter ((y.finishClientSession w).1.boxes i)
      = if (y.clients w).boxFd ≠ -1 ∧ r' = r ∧ i = j then subSize (r'.counter (y.boxes i)) 1
        else r'.counter (y.boxes i) := by
  have hlist : (y.clients w).opcode ≠ opCodeListBoxes := by
    rw [hop]
    cases r <;> decide
  have hclose : (y.close (y.clients w).clientPipe).1.boxes = y.boxes := by
    unfold close
    split <;> rfl
  by_cases hno : (y.clients w).boxFd = -1
  · rw [finishClientSession_of_no_boxFd hpipe hlist hno, hclose, if_neg fun hc => hc.1 hno]
  · have hclients : (y.close (y.clients w).clientPipe).1.clients w = y.clients w :=
      (close_frame y (w + 1) _).clients w (Nat.ne_of_lt (Nat.lt_succ_self w))
    have hleft : ((y.close (y.clients w).clientPipe).1.left w).boxes
        = ((y.close (y.clients w).clientPipe).1.leaveBox r.opcode j).boxes := by
      rw [left, hclients, hbox, hop]
    rw [finishClientSession_of_boxFd hpipe (Or.inr hno)]
    refine (congrArg (fun f : Nat → Box => r'.counter (f i)) hleft).trans ?_
    rw [counter_leaveBox, hclose]
    simp only [ne_eq, hno, not_false_eq_true, true_and]

/-- A session is finished. -/
theorem finishClientSession_tallies (hboxes : y.boxes = b.boxes)
    (hpipe : y.isOpenFd (y.clients w).clientPipe = true) (hrole : (b.pcs w).role = some r)
    (hop : (y.clients w).opcode = r.opcode) (hbox : (y.clients w).box = some j)
    (hold : (b.clients w).box = some j) (hfd : b.freeBoxes j = false → (y.clients w).boxFd ≠ -1)
    (result : Int) (r' : Role) (hi : b.freeBoxes i = false) :
    Tallies b ((y.finishClientSession w).1.setPc w (.ret result)) w r' i := by
  have hout : ¬ ((y.finishClientSession w).1.setPc w (.ret result)).Attends r' i w :=
    not_attends (by rw [setPc_self]; rfl)
  have hcounter := finishClientSession_counter hpipe hop hbox r' i
  rw [hboxes] at hcounter
  by_cases hwhich : (y.clients w).boxFd ≠ -1 ∧ r' = r ∧ i = j
  · rw [if_pos hwhich] at hcounter
    obtain ⟨-, rfl, rfl⟩ := hwhich
    exact .leaves hcounter ⟨hrole, hold⟩ hout
  · rw [if_neg hwhich] at hcounter
    -- a session on a slot in use has a `box_fd`
    refine .same hcounter (iff_of_false hout fun hc => hwhich ?_)
    obtain rfl : i = j := Option.some.inj (hc.2.symm.trans hold)
    exact ⟨hfd hi, Option.some.inj (hc.1.symm.trans hrole), rfl⟩

/-- The session goes on, of the same kind and with the counters as they were. -/
structure Continued (b x : Broker) (w : Nat) (pc : Pc) : Prop where
  role : (x.pcs w).role = pc.role
  opcode : (x.clients w).opcode = (b.clients w).opcode
  counter : ∀ r i, Role.counter r (x.boxes i) = Role.counter r (b.boxes i)
  handle : (x.pcs w).Reads = true →
    pc.Reads = true ∧ (x.clients w).boxFd = (b.clients w).boxFd ∨ 0 ≤ (x.clients w).boxFd

section Continued

variable {box : Box} {n : Int}

/-- The worker moves, and perhaps the offset of its subscriber. -/
theorem Continued.of_same (hrole : pc'.role = pc.role) (hreads : pc'.Reads = true → pc.Reads = true)
    (hclients : x.clients w = { b.clients w with offset := n })
    (hcounter : ∀ r i, Role.counter r (x.boxes i) = Role.counter r (b.boxes i)) :
    Continued b (x.setPc w pc') w pc where
  role := by rw [setPc_self, hrole]
  opcode := (congrArg Client.opcode hclients :)
  counter := hcounter
  handle h := by
    rw [setPc_self] at h
    exact Or.inl ⟨hreads h, (congrArg Client.boxFd hclients :)⟩

/-- The lock of a box, or what it counts in bytes, is no counter of sessions. -/
theorem counter_setBox (hpub : box.nPublishers = (b.boxes i).nPublishers)
    (hsub : box.nSubscribers = (b.boxes i).nSubscribers) (r : Role) (j : Nat) :
    r.counter ((b.setBox i box).boxes j) = r.counter (b.boxes j) := by
  cases r with
  | publisher => exact field_setBox Box.nPublishers hpub j
  | subscriber => exact field_setBox Box.nSubscribers hsub j

theorem counter_unlockBox (b : Broker) (i : Nat) (r : Role) (j : Nat) :
    r.counter ((b.unlockBox i).boxes j) = r.counter (b.boxes j) := by
  refine counter_setBox ?_ ?_ r j <;> rfl

theorem pubCount_continued {message : List UInt8} :
    Continued b (b.pubCount w i message) w (.pubCount i message) := by
  refine .of_same rfl nofun rfl (fun r j => ?_)
  rw [counter_unlockBox]
  refine counter_setBox (b := b) ?_ ?_ r j <;> rfl

theorem Continues.continued (h : Continues b w pc x) : Continued b x w pc := by
  cases h with
  | pubOpcode => exact .of_same rfl nofun rfl (fun _ _ => rfl)
  | pubMessage => exact .of_same rfl nofun rfl (fun _ _ => rfl)
  | pubLock => exact .of_same rfl nofun rfl (counter_setBox rfl rfl)
  | pubOpen => exact .of_same rfl nofun rfl (fun _ _ => rfl)
  | pubWrite => exact .of_same rfl nofun rfl (fun _ _ => rfl)
  | pubCount => exact pubCount_continued
  | historyLock => exact .of_same rfl nofun rfl (counter_setBox rfl rfl)
  | @historyOpen t fhandle _ hpos =>
    have hfd :
        ((({ b with tfs := t } : Broker).setClient w
          { b.clients w with boxFd := fhandle }).clients w).boxFd
        = fhandle := congrArg Client.boxFd (setClient_self ..)
    refine ⟨by rw [setPc_self]; rfl, field_setClient Client.opcode rfl, fun _ _ => rfl,
      fun _ => Or.inr ?_⟩
    exact le_of_le_of_eq hpos hfd.symm
  | historyTest => exact .of_same rfl (fun _ => rfl) rfl (fun _ _ => rfl)
  | historyNone => exact .of_same rfl (fun _ => rfl) rfl (counter_unlockBox b _)
  | historyRead => exact .of_same rfl (fun _ => rfl) rfl (fun _ _ => rfl)
  | historyEnd => exact .of_same rfl (fun _ => rfl) rfl (counter_unlockBox _ _)
  | historySendOp _ _ hx =>
    obtain ⟨sent, rfl⟩ := emit_sent hx
    exact .of_same rfl (fun _ => rfl) rfl (fun _ _ => rfl)
  | historyNext hx =>
    obtain ⟨sent, rfl⟩ := emit_sent hx
    exact .of_same rfl (fun _ => rfl) rfl (fun _ _ => rfl)
  | historyLast hx =>
    obtain ⟨sent, rfl⟩ := emit_sent hx
    exact .of_same rfl (fun _ => rfl) (setClient_self ..) (fun _ _ => rfl)
  | sleep => exact .of_same rfl (fun _ => rfl) rfl (fun _ _ => rfl)
  | followLock => exact .of_same rfl (fun _ => rfl) rfl (fun _ _ => rfl)
  | wake => exact .of_same rfl (fun _ => rfl) rfl (fun _ _ => rfl)
  | followRead => exact .of_same rfl (fun _ => rfl) rfl (fun _ _ => rfl)
  | followSendOp hx =>
    obtain ⟨sent, rfl⟩ := emit_sent hx
    exact .of_same rfl (fun _ => rfl) rfl (fun _ _ => rfl)
  | followSendMessage hx =>
    obtain ⟨sent, rfl⟩ := emit_sent hx
    exact .of_same rfl (fun _ => rfl) (setClient_self ..) (fun _ _ => rfl)

end Continued

/-! ## Runs of registrations -/

/-- What is known of a worker that serves registrations. -/
structure Enrolled (b : Broker) (w : Nat) : Prop where
  place : (b.pcs w).Visiting = true
  asked : b.pcs w = .registerOpen ∨ b.pcs w = .registerBox →
    (b.clients w).opcode = opCodeRegistPub ∨ (b.clients w).opcode = opCodeRegistSub
  opcode : ∀ r, (b.pcs w).role = some r → (b.clients w).opcode = r.opcode
  box : (b.pcs w).InSession = true → ∃ i, (b.clients w).box = some i
  pipe : (b.pcs w).HasPipe = true → b.isOpenFd (b.clients w).clientPipe = true
  handle : (b.pcs w).Reads = true → (b.clients w).boxFd ≠ -1

/-- The invariant: the counters of the boxes in use are the numbers of sessions. -/
structure Tally (b : Broker) : Prop where
  few : b.maxSessions < word
  enrolled : ∀ w, Enrolled b w
  apart : ∀ v w, v ≠ w → (b.pcs v).HasPipe = true → (b.pcs w).HasPipe = true →
    (b.clients v).clientPipe ≠ (b.clients w).clientPipe
  counted : ∀ r i, b.freeBoxes i = false → Role.counter r (b.boxes i) = b.sessions r i
  single : ∀ i, b.freeBoxes i = false → b.sessions .publisher i ≤ 1

/-- What a section of `w` does to its own session, to the descriptors and to the counters. -/
structure Conducts (b x : Broker) (w : Nat) : Prop where
  enrolled : Enrolled x w
  free : x.freeBoxes = b.freeBoxes
  tallies : ∀ r i, b.freeBoxes i = false → Tallies b x w r i
  /-- no descriptor is closed but the worker's own pipe -/
  kept : ∀ fd, b.isOpenFd fd = true →
    ((b.pcs w).HasPipe = true → fd ≠ (b.clients w).clientPipe) → x.isOpenFd fd = true
  /-- a pipe that is opened was not open -/
  fresh : (x.pcs w).HasPipe = true →
    (b.pcs w).HasPipe = true ∧ (x.clients w).clientPipe = (b.clients w).clientPipe ∨
      b.isOpenFd (x.clients w).clientPipe = false

theorem sessions_le (b : Broker) (r : Role) (i : Nat) : b.sessions r i ≤ b.maxSessions :=
  Nat.count_le _

theorem stays_attends (h : Stays b x v) (hclients : x.clients v = b.clients v) :
    x.Attends r i v ↔ b.Attends r i v := by
  rw [Attends, Attends, hclients]
  rcases h with hsame | ⟨j, n, hasleep, hwoken⟩
  · rw [hsame]
  · rw [hasleep, hwoken]
    exact Iff.rfl

/-- The counter moves with the number of sessions, and passes neither end of its range. -/
theorem Tallies.counted (h : Tallies b x w r i) (hw : w < b.maxSessions)
    (hmax : x.maxSessions = b.maxSessions)
    (hfew : b.maxSessions < word) (hothers : ∀ v ≠ w, (x.Attends r i v ↔ b.Attends r i v))
    (hcounted : r.counter (b.boxes i) = b.sessions r i) :
    r.counter (x.boxes i) = x.sessions r i ∧
      (r = .publisher → b.sessions r i ≤ 1 → x.sessions r i ≤ 1) ∧
      x.sessions r i ≤ b.sessions r i + 1 ∧ b.sessions r i ≤ x.sessions r i + 1 := by
  have hle := sessions_le x r i
  cases h with
  | same hcounter hown =>
    have hsame : x.sessions r i = b.sessions r i := by
      rw [sessions, hmax]
      refine count_congr fun v _ => ?_
      rcases eq_or_ne v w with rfl | hv
      · exact hown
      · exact hothers v hv
    rw [hcounter, hcounted, hsame]
    exact ⟨rfl, fun _ => id, Nat.le_succ _, Nat.le_succ _⟩
  | joins hcounter hout hin hfirst =>
    have hmore : x.sessions r i = b.sessions r i + 1 := by
      rw [sessions, hmax]
      exact count_gain hw hout hin fun v _ hv => hothers v hv
    refine ⟨?_, fun hpub hone => ?_, hmore.le, by omega⟩
    · rw [hcounter, hcounted, hmore]
      exact addSize_of_lt (by omega)
    · have hne := hfirst hpub
      omega
  | leaves hcounter hin hout =>
    have hless : b.sessions r i = x.sessions r i + 1 := by
      rw [sessions, sessions, hmax]
      exact count_gain hw hout hin fun v _ hv => (hothers v hv).symm
    refine ⟨?_, fun _ hone => by omega, by omega, hless.le⟩
    have hleb := sessions_le b r i
    rw [hcounter, hcounted, hless]
    exact (subSize_of_le (Nat.le_add_left 1 _) (by omega)).trans (Nat.add_sub_cancel ..)

theorem Enrolled.not_removeBody (h : Enrolled b w) : b.pcs w ≠ .removeBody := by
  intro hat
  have hplace := h.place
  rw [hat] at hplace
  cases hplace

/-- A handler has returned. -/
theorem Enrolled.returned {result : Int} (hat : x.pcs w = .ret result) : Enrolled x w := by
  have hout : ∀ {P : Prop}, (x.pcs w).InSession = true → P := by
    intro P hc
    rw [hat] at hc
    cases hc
  refine ⟨by rw [hat]; rfl, ?_, fun r hr => hout (Pc.inSession_of_role hr), hout, fun hc => ?_,
    fun hc => hout (Pc.inSession_of_reads hc)⟩
  · rw [hat]
    rintro (hc | hc) <;> cases hc
  · rw [hat] at hc
    cases hc

theorem Enrolled.beside (h : Enrolled b v) (hstays : Stays b x v)
    (hclients : x.clients v = b.clients v)
    (hpipe : (b.pcs v).HasPipe = true → x.isOpenFd (b.clients v).clientPipe = true) :
    Enrolled x v := by
  have hback : ∀ {P : Pc → Prop}, (∀ i n, P (.followLock i) → P (.asleep i n)) →
    P (x.pcs v) → P (b.pcs v) := by
    intro P hwake hp
    rcases hstays with hsame | ⟨i, n, hasleep, hwoken⟩
    · rwa [← hsame]
    · rw [hwoken] at hp
      rw [hasleep]
      exact hwake i n hp
  refine ⟨hstays.keep (P := fun pc => pc.Visiting = true) (fun _ _ => id) h.place, ?_, ?_,
    ?_, ?_, ?_⟩ <;>
    rw [hclients]
  · exact fun ha => h.asked (hback (P := fun pc => pc = .registerOpen ∨ pc = .registerBox) nofun ha)
  · exact fun r hr => h.opcode r (hback (P := fun pc => pc.role = some r) (fun _ _ => id) hr)
  · exact fun hin => h.box (hback (P := fun pc => pc.InSession = true) (fun _ _ => id) hin)
  · exact fun hp => hpipe (hback (P := fun pc => pc.HasPipe = true) (fun _ _ => id) hp)
  · exact fun hr => h.handle (hback (P := fun pc => pc.Reads = true) (fun _ _ => id) hr)

/-- What a section of `w` that does this does to the counters of the boxes in use. -/
theorem Tally.counted_after (h : Tally b) (hs : b.step (w, a) = some b') (hc : Conducts b b' w)
    (hi : b.freeBoxes i = false) : Role.counter r (b'.boxes i) = b'.sessions r i ∧
      (r = .publisher → b.sessions r i ≤ 1 → b'.sessions r i ≤ 1) ∧
      b'.sessions r i ≤ b.sessions r i + 1 ∧ b.sessions r i ≤ b'.sessions r i + 1 := by
  refine (hc.tallies r i hi).counted (step_eq_some.mp hs).2.1
    (step_maxSessions hs) h.few (fun v hv => ?_)
    (h.counted r i hi)
  exact stays_attends (step_others hs hv) (step_beside hs hv (h.enrolled w).not_removeBody).clients

/-- The invariant is kept by a section that does this. -/
theorem Tally.conducts (h : Tally b) (hs : b.step (w, a) = some b') (hc : Conducts b b' w) :
    Tally b' := by
  have hmax := step_maxSessions hs
  have hstays : ∀ v ≠ w, Stays b b' v := fun v hv => step_others hs hv
  have hclients : ∀ v ≠ w, b'.clients v = b.clients v :=
    fun v hv => (step_beside hs hv (h.enrolled w).not_removeBody).clients
  have hholds : ∀ v ≠ w, (b'.pcs v).HasPipe = true → (b.pcs v).HasPipe = true := by
    intro v hv hp
    rcases hstays v hv with hsame | ⟨i, n, hasleep, -⟩
    · rwa [← hsame]
    · rw [hasleep]
      rfl
  have hpipe : ∀ v ≠ w, (b.pcs v).HasPipe = true → b'.isOpenFd (b.clients v).clientPipe = true :=
    fun v hv hp => hc.kept _ ((h.enrolled v).pipe hp) fun hpw => h.apart v w hv hp hpw
  -- the pipe of `w` is its own
  have hown : ∀ v ≠ w, (b'.pcs v).HasPipe = true → (b'.pcs w).HasPipe = true →
      (b'.clients v).clientPipe ≠ (b'.clients w).clientPipe := by
    intro v hv hpv hpw
    rw [hclients v hv]
    rcases hc.fresh hpw with ⟨hold, hsame⟩ | hclosed
    · rw [hsame]
      exact h.apart v w hv (hholds v hv hpv) hold
    · intro heq
      rw [← heq, (h.enrolled v).pipe (hholds v hv hpv)] at hclosed
      cases hclosed
  refine ⟨hmax ▸ h.few, fun v => ?_, fun u v huv hpu hpv => ?_, fun r i hi => ?_, fun i hi => ?_⟩
  · rcases eq_or_ne v w with rfl | hv
    · exact hc.enrolled
    · exact (h.enrolled v).beside (hstays v hv) (hclients v hv) (hpipe v hv)
  · rcases eq_or_ne u w with rfl | hu
    · exact (hown v huv.symm hpv hpu).symm
    · rcases eq_or_ne v w with rfl | hv
      · exact hown u hu hpu hpv
      · rw [hclients u hu, hclients v hv]
        exact h.apart u v huv (hholds u hu hpu) (hholds v hv hpv)
  · exact (h.counted_after hs hc (hc.free ▸ hi)).1
  · exact (h.counted_after hs hc (hc.free ▸ hi)).2.1 rfl (h.single i (hc.free ▸ hi))

/-! ## The sections -/

/-- A worker that is in no session and moves to where it is in none. -/
theorem Conducts.idles (hplace : (x.pcs w).Visiting = true) (hout : (b.pcs w).InSession = false)
    (hnone : (x.pcs w).HasPipe = false)
    (hasked : x.pcs w = .registerOpen →
      (x.clients w).opcode = opCodeRegistPub ∨ (x.clients w).opcode = opCodeRegistSub)
    (hfree : x.freeBoxes = b.freeBoxes)
    (hboxes : ∀ r i, b.freeBoxes i = false → Role.counter r (x.boxes i)
      = Role.counter r (b.boxes i))
    (hkept : ∀ fd, b.isOpenFd fd = true →
      ((b.pcs w).HasPipe = true → fd ≠ (b.clients w).clientPipe) → x.isOpenFd fd = true) :
    Conducts b x w := by
  have hpipe : ∀ {P : Prop}, (x.pcs w).HasPipe = true → P := fun hc => nomatch hnone.symm.trans hc
  have hin : (x.pcs w).InSession = false := by
    by_contra hc
    exact hpipe (Pc.hasPipe_of_inSession (Bool.not_eq_false _ ▸ hc))
  have hno : ∀ {P : Prop}, (x.pcs w).InSession = true → P := fun hc => nomatch hin.symm.trans hc
  refine ⟨⟨hplace, fun ha => ?_, fun r hr => hno (Pc.inSession_of_role hr), hno, hpipe,
    fun hr => hno (Pc.inSession_of_reads hr)⟩, hfree, fun r i hi =>
      .outside (hboxes r i hi) hout hin, hkept, hpipe⟩
  rcases ha with ha | ha
  · exact hasked ha
  · exact hpipe (congrArg Pc.HasPipe ha)

theorem dequeued_conducts {request : Request} (hpc : b.pcs w = .idle)
    (hr : request.opcode = opCodeRegistPub ∨ request.opcode = opCodeRegistSub) :
    Conducts b (b.dequeued w request) w := by
  have hat : (b.dequeued w request).pcs w = .registerOpen := by
    refine (setPc_self ..).trans ?_
    rw [handlerOf, if_pos hr]
  have hopcode : ((b.dequeued w request).clients w).opcode = request.opcode :=
    congrArg Client.opcode (setClient_self ..)
  refine .idles (by rw [hat]; rfl) (by rw [hpc]; rfl) (by rw [hat]; rfl)
    (fun _ => ?_) rfl (fun _ _ _ => rfl)
    fun _ hopen _ => hopen
  rw [hopcode]
  exact hr

/-- The worker goes to a place outside of its sessions. -/
theorem Conducts.rests (hpc : b.pcs w = pc) (hout : pc.InSession = false)
    (hplace : pc'.Visiting = true)
    (hnone : pc'.HasPipe = false) (hne : pc' ≠ .registerOpen) : Conducts b (b.setPc w pc') w := by
  refine .idles (by rwa [setPc_self]) (by rwa [hpc]) (by rwa [setPc_self])
    (fun hat => ?_) rfl (fun _ _ _ => rfl)
    fun _ hopen _ => hopen
  rw [setPc_self] at hat
  exact absurd hat hne

theorem Crashes.conducts (h : Crashes b pc x) (hb : Enrolled b w) : Conducts b x w := by
  have hsame : ∀ {y : Broker}, y.pcs w = b.pcs w → y.clients w = b.clients w → y.fds = b.fds →
      y.boxes = b.boxes → y.freeBoxes = b.freeBoxes → Conducts b y w := by
    intro y hpc hclient hfds hboxes hfree
    have hopen : ∀ fd, b.isOpenFd fd = true → y.isOpenFd fd = true := fun fd hfd => by
      rw [isOpenFd, hfds]
      exact hfd
    refine ⟨⟨?_, ?_, ?_, ?_, ?_, ?_⟩, hfree, fun r i _ => .same (by rw [hboxes]) ?_,
      fun fd hfd _ => hopen fd hfd,
      fun hp => Or.inl ⟨hpc ▸ hp, by rw [hclient]⟩⟩
    · rw [hpc]
      exact hb.place
    · rw [hpc, hclient]
      exact hb.asked
    · rw [hpc, hclient]
      exact hb.opcode
    · rw [hpc, hclient]
      exact hb.box
    · rw [hpc, hclient]
      exact fun hp => hopen _ (hb.pipe hp)
    · rw [hpc, hclient]
      exact hb.handle
    · rw [Attends, Attends, hpc, hclient]
  cases h <;> exact hsame rfl rfl rfl rfl rfl

theorem returned_conducts {result : Int} (hpc : b.pcs w = .ret result) (hb : Enrolled b w) :
    Conducts b (b.returned w result) w := by
  unfold returned
  split
  · split
    · exact (Crashes.crash : Crashes b (.ret result) b.crash).conducts hb
    · exact .rests hpc rfl rfl rfl nofun
  · exact .rests hpc rfl rfl rfl nofun

/-- The pipe of the client is opened. -/
theorem pipeOpened_conducts {fd : Nat} (hpc : b.pcs w = .registerOpen) (hb : Enrolled b w)
    (hfd : b.fds fd = false) : Conducts b ((b.pipeOpened w fd).setPc w .registerBox) w := by
  have hat : ((b.pipeOpened w fd).setPc w .registerBox).pcs w = .registerBox := setPc_self ..
  have hopcode : (((b.pipeOpened w fd).setPc w .registerBox).clients w).opcode
    = (b.clients w).opcode :=
    field_setClient (b := { b with fds := Function.update b.fds fd true })
      (c := { b.clients w with clientPipe := (fd : Int) }) Client.opcode rfl
  have hpipe : (((b.pipeOpened w fd).setPc w .registerBox).clients w).clientPipe = fd :=
    congrArg Client.clientPipe (setClient_self ..)
  have hopen := isOpenFd_opened b fd
  have hout : ∀ {P : Prop}, (((b.pipeOpened w fd).setPc w .registerBox).pcs w).InSession
    = true → P := by
    intro P hc
    rw [hat] at hc
    cases hc
  refine ⟨⟨by rw [hat]; rfl, fun _ => ?_, fun r hr => hout (Pc.inSession_of_role hr), hout,
    fun _ => (hopen _).mpr (Or.inr hpipe), fun hr => hout (Pc.inSession_of_reads hr)⟩, rfl,
    fun r i _ => .outside rfl (by rw [hpc]; rfl) (by rw [hat]; rfl),
    fun fd' hfd' _ => (hopen fd').mpr (Or.inl hfd'),
    fun _ => Or.inr ?_⟩
  · rw [hopcode]
    exact hb.asked (Or.inl hpc)
  · rw [hpipe]
    simp [isOpenFd, hfd]

/-- A registration that is accepted. -/
theorem Conducts.joins {box : Box} (hpc : b.pcs w = .registerBox) (hb : Enrolled b w)
    (hrole : pc.role = some r)
    (hop : (b.clients w).opcode = r.opcode) (hreads : pc.Reads = false)
    (hmore : r.counter box = addSize (r.counter (b.boxes i)) 1)
    (hkept : ∀ r', r' ≠ r → r'.counter box = r'.counter (b.boxes i))
    (hfirst : r = .publisher → r.counter (b.boxes i) ≠ 1) :
    Conducts b (((b.attach w i).setBox i box).setPc w pc) w := by
  have hin := Pc.inSession_of_role hrole
  have hat : (((b.attach w i).setBox i box).setPc w pc).pcs w = pc := setPc_self ..
  have hclient : (((b.attach w i).setBox i box).setPc w pc).clients w
    = { b.clients w with box := some i } :=
    setClient_self ..
  have hout : ∀ r' j, ¬ b.Attends r' j w := fun r' j => not_attends (by rw [hpc]; rfl)
  have hopen := hb.pipe (by rw [hpc]; rfl)
  refine ⟨⟨?_, ?_, fun r' hr' => ?_, fun _ => ⟨i, ?_⟩, fun _ => ?_, fun hr => ?_⟩, rfl,
    fun r' j _ => ?_,
    fun _ hfd _ => hfd, fun _ => Or.inl ⟨by rw [hpc]; rfl, by rw [hclient]⟩⟩
  · rw [hat]
    exact Pc.visiting_of_inSession hin
  · rw [hat]
    rintro (rfl | rfl) <;> cases hin
  · rw [hat, hrole] at hr'
    obtain rfl := Option.some.inj hr'
    rw [hclient]
    exact hop
  · rw [hclient]
  · rw [hclient]
    exact hopen
  · rw [hat, hreads] at hr
    cases hr
  -- Only the counter of the role the session takes, and only in its own box, is one more.
  · have hself : (((b.attach w i).setBox i box).setPc w pc).boxes i = box := setBox_self ..
    by_cases hwhich : r' = r ∧ j = i
    · obtain ⟨rfl, rfl⟩ := hwhich
      exact .joins (by rw [hself, hmore]) (hout r' j) ⟨by rw [hat, hrole], by rw [hclient]⟩ hfirst
    · refine .same ?_ (iff_of_false (fun hc => hwhich ?_) (hout r' j))
      · by_cases hj : j = i
        · subst hj
          rw [hself]
          exact hkept r' fun hr => hwhich ⟨hr, rfl⟩
        · exact congrArg r'.counter (setBox_of_ne _ _ hj)
      · obtain ⟨hr', hj⟩ := hc
        rw [hat, hrole] at hr'
        rw [hclient] at hj
        exact ⟨(Option.some.inj hr').symm, (Option.some.inj hj).symm⟩

theorem registerBox_conducts (hpc : b.pcs w = .registerBox) (hb : Enrolled b w)
    (hok : KeepsCount b (w, a))
    (stack : List UInt8) : Conducts b (b.registerBox w stack) w := by
  have hout : (b.pcs w).InSession = false := by rw [hpc]; rfl
  have hpipe := hb.pipe (by rw [hpc]; rfl)
  have hleaves : ∀ {y : Broker} {result : Int}, y.freeBoxes = b.freeBoxes →
      (∀ r i, b.freeBoxes i = false → Role.counter r (y.boxes i) = Role.counter r (b.boxes i)) →
      (∀ fd, b.isOpenFd fd = true → fd ≠ (b.clients w).clientPipe → y.isOpenFd fd = true) →
      Conducts b (y.setPc w (.ret result)) w := fun hfree hboxes hkept =>
    .idles (by rw [setPc_self]; rfl) hout (by rw [setPc_self]; rfl)
      (fun hat => by rw [setPc_self] at hat; cases hat)
      hfree hboxes fun fd hfd hne => hkept fd hfd (hne (by rw [hpc]; rfl))
  cases hg : b.getBox (b.clients w).boxName.str with
  | none =>
    rw [registerBox_absent hg]
    have hframe := close_frame b w (b.clients w).clientPipe
    refine hleaves hframe.freeBoxes (fun r i _ => ?_) fun fd hfd hne =>
      (close_isOpenFd b _ fd).mpr ⟨hfd, hne⟩
    unfold close
    split <;> rfl
  | some i =>
    by_cases hop : (b.clients w).opcode = opCodeRegistPub
    · by_cases hone : (b.boxes i).nPublishers = 1
      · rw [registerBox_rejected hg hop hone]
        have hclient : (b.attach w i).clients w = { b.clients w with box := some i } :=
          setClient_self ..
        refine hleaves (finishClientSession_frame _ w).freeBoxes
          (fun r j hj => ?_) fun fd hfd hne => ?_
        · rw [finishClientSession_counter (r := .publisher) (j := i) (by rw [hclient]; exact hpipe)
            (by rw [hclient]; exact hop) (by rw [hclient]), hclient, if_neg]
          · rfl
          · -- only the counter of a slot that is not in use may move
            rintro ⟨hfd, -, rfl⟩
            exact hfd (hok.refused hpc hop j hg hj hone)
        · refine (finish_isOpenFd _ w fd).mpr ⟨hfd, ?_⟩
          rw [hclient]
          exact hne
      · rw [registerBox_publisher hg hop hone]
        refine .joins (r := .publisher) hpc hb rfl hop rfl rfl (fun r' hr' => ?_) fun _ => hone
        cases r' with
        | publisher => exact absurd rfl hr'
        | subscriber => rfl
    · rw [registerBox_subscriber hg hop]
      refine .joins (r := .subscriber) hpc hb rfl ((hb.asked (Or.inr hpc)).resolve_left hop) rfl rfl
        (fun r' hr' => ?_) nofun
      cases r' with
      | publisher => rfl
      | subscriber => exact absurd rfl hr'

theorem Continues.conducts (h : Continues b w pc x) (hpc : b.pcs w = pc) (hin : pc.InSession = true)
    (hb : Enrolled b w) : Conducts b x w := by
  obtain ⟨hsession, hbox, -, hpipe, hfds, htable⟩ := h.goesOn
  obtain ⟨hrole, hopcode, hcounter, hhandle⟩ := h.continued
  have hopen : ∀ fd, b.isOpenFd fd = true → x.isOpenFd fd = true := fun fd hfd => by
    rw [isOpenFd, hfds]
    exact hfd
  refine ⟨⟨Pc.visiting_of_inSession hsession, fun ha => ?_, fun r hr => ?_, fun _ => ?_,
    fun _ => ?_, fun hr => ?_⟩,
    htable.freeBoxes, fun r i _ => .same (hcounter r i) ?_, fun fd hfd _ => hopen fd hfd,
    fun _ => Or.inl ⟨Pc.hasPipe_of_inSession (hpc ▸ hin), hpipe⟩⟩
  · rcases ha with ha | ha <;>
      · rw [ha] at hsession
        cases hsession
  · rw [hopcode]
    exact hb.opcode r (by rw [hpc, ← hrole, hr])
  · rw [hbox]
    exact hb.box (hpc ▸ hin)
  · rw [hpipe]
    exact hopen _ (hb.pipe (Pc.hasPipe_of_inSession (hpc ▸ hin)))
  · rcases hhandle hr with ⟨hreads, hsame⟩ | hpos
    · rw [hsame]
      exact hb.handle (hpc ▸ hreads)
    · omega
  · rw [Attends, Attends, hrole, hpc, hbox]

/-- A handler that finishes its own session. -/
theorem Conducts.finishes {result : Int} (hb : Enrolled b w) (hin : (b.pcs w).InSession = true)
    (hboxes : y.boxes = b.boxes) (hfds : y.fds = b.fds) (hfree : y.freeBoxes = b.freeBoxes)
    (hbox : (y.clients w).box = (b.clients w).box)
    (hop : (y.clients w).opcode = (b.clients w).opcode)
    (hpipe : (y.clients w).clientPipe = (b.clients w).clientPipe)
    (hfd : b.OnUsed w → (y.clients w).boxFd ≠ -1) :
    Conducts b ((y.finishClientSession w).1.setPc w (.ret result)) w := by
  have hopen : ∀ fd, y.isOpenFd fd = b.isOpenFd fd := fun fd => by rw [isOpenFd, isOpenFd, hfds]
  have hpipeOpen := hb.pipe (Pc.hasPipe_of_inSession hin)
  have hat : ((y.finishClientSession w).1.setPc w (.ret result)).pcs w
    = .ret result := setPc_self ..
  obtain ⟨j, hj⟩ := hb.box hin
  obtain ⟨r, hr⟩ := Pc.role_of_inSession hin
  refine ⟨.returned hat, (finishClientSession_frame y w).freeBoxes.trans hfree, fun r' i hi => ?_,
    fun fd hfd' hne => ?_, fun hc => ?_⟩
  · exact finishClientSession_tallies hboxes (by rw [hopen, hpipe]; exact hpipeOpen) hr
      (hop.trans (hb.opcode r hr)) (hbox.trans hj) hj (fun hused => hfd ⟨j, hj, hused⟩) result r' hi
  · refine (finish_isOpenFd y w fd).mpr ⟨by rw [hopen]; exact hfd', ?_⟩
    rw [hpipe]
    exact hne (Pc.hasPipe_of_inSession hin)
  · rw [hat] at hc
    cases hc

/-- The history is not sent: the handler returns without the end of its session. -/
theorem Conducts.abandons {result : Int} (hb : Enrolled b w) (hin : (b.pcs w).InSession = true)
    (hfds : y.fds = b.fds) (hfree : y.freeBoxes = b.freeBoxes) (hboxes : y.boxes = b.boxes)
    (hunused : ¬ b.OnUsed w) : Conducts b (y.setPc w (.ret result)) w := by
  have hat : (y.setPc w (.ret result)).pcs w = .ret result := setPc_self ..
  obtain ⟨j, hj⟩ := hb.box hin
  refine ⟨.returned hat, hfree, fun r i hi => ?_, fun fd hfd _ => ?_, fun hc => ?_⟩
  · refine .same (congrArg (fun f : Nat → Box => r.counter (f i)) hboxes)
      (iff_of_false (not_attends (by rw [hat]; rfl)) (not_attends_of_ne hj ?_))
    rintro rfl
    exact hunused ⟨i, hj, hi⟩
  · rw [isOpenFd] at hfd ⊢
    exact (congrArg (fun f : Nat → Bool => decide (0 ≤ fd) && f fd.toNat) hfds).trans hfd
  · rw [hat] at hc
    cases hc

theorem Ends.conducts (h : Ends b w pc a x) (hpc : b.pcs w = pc)
    (hin : pc.InSession = true) (hb : Enrolled b w)
    (hok : KeepsCount b (w, a)) : Conducts b x w := by
  have hsession : (b.pcs w).InSession = true := hpc ▸ hin
  have hreads : pc.Reads = true → (b.clients w).boxFd ≠ -1 := fun hr => hb.handle (hpc ▸ hr)
  -- a publisher leaves
  have hleaves : b.PublisherLeaves (w, a) → b.OnUsed w → (b.clients w).boxFd ≠ -1 := hok.leaves
  have hhistory : b.HistoryFails (w, a) → ¬ b.OnUsed w :=
    fun hfails hused => hok.history hused hfails
  cases h with
  | pipeClosed hplace =>
    obtain ⟨i, hi⟩ := hb.box hsession
    rw [Broker.pipeClosed, if_pos (by rw [hi]; exact Option.some_ne_none i)]
    refine .finishes hb hsession rfl rfl rfl rfl rfl rfl (hleaves ?_)
    unfold PublisherLeaves
    rcases hplace with rfl | rfl <;> rw [hpc]
  | @pubOpen _ _ t fhandle hopen hneg =>
    refine .finishes (y := { b with tfs := t }) hb hsession rfl rfl rfl rfl rfl rfl (hleaves ?_)
    unfold PublisherLeaves
    rw [hpc]
    exact ⟨t, fhandle, hopen, hneg⟩
  | @pubWrite _ _ t _ r _ hwrite hcut =>
    refine .finishes (y := { b with tfs := t }) hb hsession rfl rfl rfl rfl rfl rfl (hleaves ?_)
    unfold PublisherLeaves
    rw [hpc]
    exact ⟨t, r, hwrite, hcut⟩
  | @historyOpen t fhandle hopen hneg =>
    refine .finishes (y := ({ b with tfs := t } : Broker).setClient w
      { b.clients w with boxFd := fhandle })
      hb hsession rfl rfl rfl (field_setClient Client.box rfl) (field_setClient Client.opcode rfl)
      (field_setClient Client.clientPipe rfl) fun hused => absurd hused (hhistory ?_)
    unfold HistoryFails
    rw [hpc]
    exact ⟨t, fhandle, hopen, hneg⟩
  | @historyRead t =>
    exact .finishes (y := { b with tfs := t }) hb hsession rfl rfl rfl rfl
      rfl rfl fun _ => hreads rfl
  | historySendOp he hne =>
    obtain ⟨sent, rfl⟩ := emit_sent he
    refine .abandons hb hsession rfl rfl rfl (hhistory ?_)
    unfold HistoryFails
    rw [hpc]
    exact hne
  | historySendMessage he hne =>
    obtain ⟨sent, rfl⟩ := emit_sent he
    refine .abandons hb hsession rfl rfl rfl (hhistory ?_)
    unfold HistoryFails
    rw [hpc]
    exact hne
  | @followNone _ t =>
    exact .finishes (y := { b with tfs := t }) hb hsession rfl rfl rfl rfl
      rfl rfl fun _ => hreads rfl
  | @followRead _ t =>
    exact .finishes (y := { b with tfs := t }) hb hsession rfl rfl rfl rfl
      rfl rfl fun _ => hreads rfl
  | followSendOp he =>
    obtain ⟨sent, rfl⟩ := emit_sent he
    exact .finishes (y := { b with sent := sent }) hb hsession rfl rfl rfl rfl
      rfl rfl fun _ => hreads rfl
  | followSendMessage he =>
    obtain ⟨sent, rfl⟩ := emit_sent he
    exact .finishes (y := { b with sent := sent }) hb hsession rfl rfl rfl rfl
      rfl rfl fun _ => hreads rfl

/-- What a section that meets the condition does. -/
theorem Tally.step_conducts (h : Tally b) (hs : b.step (w, a) = some b')
    (hok : KeepsCount b (w, a)) :
    Conducts b b' w := by
  have hb := h.enrolled w
  cases hin : (b.pcs w).InSession with
  | true =>
    rcases step_session hs hin with hends | hcrash | hgoes
    · exact hends.conducts rfl hin hb hok
    · exact hcrash.conducts hb
    · exact hgoes.conducts rfl hin hb
  | false =>
    have hserves := step_serves hs hin
    have hplace := hb.place
    generalize hpc : b.pcs w = pc at hserves hplace
    cases hserves with
    | request => exact dequeued_conducts hpc (hok.registers _ rfl)
    | returned => exact returned_conducts hpc hb
    | @opened _ next _ fd hnext hfd =>
      cases pc with
      | registerOpen =>
        cases hnext
        exact pipeOpened_conducts hpc hb hfd
      | createOpen => cases hplace
      | removeOpen => cases hplace
      | listOpen => cases hplace
      | _ => cases hnext
    | notOpened hwhich =>
      rcases hwhich with rfl | rfl
      · exact .rests hpc rfl rfl rfl nofun
      · cases hplace
    | registerBox => exact registerBox_conducts hpc hb hok _
    | _ => cases hplace

/-- The step lemma: as long as sessions are finished with a handle, the counters of the boxes
in use are the numbers of their sessions. -/
theorem Tally.step (h : Tally b) (hs : b.step (w, a) = some b')
    (hok : KeepsCount b (w, a)) : Tally b' :=
  h.conducts hs (h.step_conducts hs hok)

/-! ## Runs -/

/-- Nobody is served, and the boxes in use count no session. -/
structure Uncounted (b : Broker) : Prop where
  few : b.maxSessions < word
  idle : ∀ w, b.pcs w = .idle
  counters : ∀ r i, b.freeBoxes i = false → Role.counter r (b.boxes i) = 0

/-- The counters of the box in slot `i` are the numbers of its sessions, and a publisher is
accepted there if and only if there is none. -/
structure CountsSessions (b : Broker) (i : Nat) : Prop where
  publishers : (b.boxes i).nPublishers = b.sessions .publisher i
  single : b.sessions .publisher i ≤ 1
  subscribers : (b.boxes i).nSubscribers = b.sessions .subscriber i
  accepts : ∀ w stack, (b.clients w).opcode = opCodeRegistPub →
    b.getBox (b.clients w).boxName.str = some i →
    (((b.registerBox w stack).pcs w).InSession = true ↔ ∀ v < b.maxSessions,
      ¬ b.Attends .publisher i v)

theorem Uncounted.tally (h : Uncounted b) : Tally b := by
  have hout : ∀ w, (b.pcs w).InSession = false := fun w => by
    rw [h.idle w]
    rfl
  have hnone : ∀ r i, b.sessions r i = 0 := fun r i =>
    Nat.count_iff_forall_not.mpr fun w _ => not_attends (hout w)
  refine ⟨h.few, fun w => ?_, fun v w _ hp => ?_, fun r i hi => ?_, fun i _ => ?_⟩
  · have hat := h.idle w
    refine ⟨by rw [hat]; rfl, ?_, fun r hr => ?_, fun hc => ?_, fun hc => ?_, fun hc => ?_⟩
    · rw [hat]
      rintro (hc | hc) <;> cases hc
    · exact nomatch (hout w).symm.trans (Pc.inSession_of_role hr)
    · exact nomatch (hout w).symm.trans hc
    · rw [hat] at hc
      cases hc
    · exact nomatch (hout w).symm.trans (Pc.inSession_of_reads hc)
  · rw [h.idle v] at hp
    cases hp
  · rw [h.counters r i hi, hnone]
  · rw [hnone]
    exact Nat.zero_le 1

theorem Tally.countsSessions (h : Tally b) (hi : b.freeBoxes i = false) : CountsSessions b i := by
  have hpub : (b.boxes i).nPublishers = b.sessions .publisher i := h.counted .publisher i hi
  have hone := h.single i hi
  refine ⟨hpub, hone, h.counted .subscriber i hi, fun w stack hop hg => ?_⟩
  have hnone : b.sessions .publisher i = 0 ↔ ∀ v < b.maxSessions, ¬ b.Attends .publisher i v :=
    Nat.count_iff_forall_not
  rw [← hnone]
  by_cases hfull : (b.boxes i).nPublishers = 1
  · rw [registerBox_rejected hg hop hfull, returnFinish, setPc_self]
    refine iff_of_false (fun hc => Bool.noConfusion hc) fun hzero => ?_
    rw [hpub, hzero] at hfull
    cases hfull
  · rw [registerBox_publisher hg hop hfull, setPc_self]
    exact iff_of_true rfl (by omega)

theorem Tally.moves (h : Tally b) {e : Nat × Answer} (hok : KeepsCount b e)
    (hs : b.step e = some b') (r : Role)
    (hi : b.freeBoxes i = false) : Role.counter r (b'.boxes i) ≤ Role.counter r (b.boxes i) + 1 ∧
      Role.counter r (b.boxes i) ≤ Role.counter r (b'.boxes i) + 1 := by
  obtain ⟨hcounted, -, hmore, hless⟩ := h.counted_after (r := r) hs (h.step_conducts hs hok) hi
  rw [hcounted, h.counted r i hi]
  exact ⟨hmore, hless⟩

/-- In every run of registrations where each session that ends is finished with a handle, no
refused one is, and no two sections work on the counters of one box at a time, the counters
of the boxes in use are the numbers of their sessions, there is one publisher at most, and
nothing moves a counter past the end of its range. -/
theorem counters_tally (b₀ : Broker) (s : Sections) (h₀ : Uncounted b₀)
    (hrun : Reaches sections.timed (sections.Meets KeepsCount) (.quiet b₀) s) :
    (∀ i, s.state.freeBoxes i = false → CountsSessions s.state i) ∧
      ∀ e s', sections.Meets KeepsCount s e → sections.timed s e = some s' →
        ∀ r i, s.state.freeBoxes i = false →
          Role.counter r (s'.state.boxes i) ≤ Role.counter r (s.state.boxes i) + 1 ∧
            Role.counter r (s.state.boxes i) ≤ Role.counter r (s'.state.boxes i) + 1 := by
  have h : Tally s.state :=
    hrun.of_timed.invariant h₀.tally fun _ _ _ htally hok hs => htally.step hs hok
  refine ⟨fun i hi => h.countsSessions hi, fun e s' hok hs r i hi => ?_⟩
  rcases (Threads.moves_of_timed hok.calm hs).state hok with hsame | ⟨d, hmeets, hstep⟩
  · rw [hsame]
    exact ⟨Nat.le_succ _, Nat.le_succ _⟩
  · exact h.moves hmeets hstep r hi

/-! ## A publisher that is refused -/

theorem threeWorkers_uncounted : Uncounted threeWorkers where
  few := by decide
  idle _ := rfl
  counters r i hi := by
    obtain rfl := (@oneBox_used i (tfsStart .zeros) 0).mp hi
    cases r <;> rfl

theorem keepsCount_waiting (hpc : b.pcs w = .idle ∨ b.pcs w = .registerOpen)
    (hok : b.Registers (w, a)) :
    KeepsCount b (w, a) := by
  refine ⟨hok, fun hc => ?_, fun hc => ?_, fun _ hc => ?_⟩
  · rcases hpc with h | h <;> cases h.symm.trans hc
  · unfold PublisherLeaves at hc
    rcases hpc with h | h <;>
      · rw [h] at hc
        cases hc
  · unfold HistoryFails at hc
    rcases hpc with h | h <;>
      · rw [h] at hc
        cases hc

/-- A section that meets the condition and whose call is answered at once. -/
def CountedHeard (b : Broker) (e : Nat × Answer) : Prop := KeepsCount b e ∧ b.Heard e

/-- Two publishers want to register for the box, with workers 1 and 2. -/
theorem two_register :
    ∃ b, Reaches Broker.step CountedHeard threeWorkers b ∧ b.stopped = false ∧ b.maxSessions = 3 ∧
    b.freeBoxes 0 = false ∧ (b.boxes 0).nPublishers = 0 ∧ ∀ w, w = 1 ∨
    w = 2 → b.pcs w = .registerBox ∧
      b.getBox (b.clients w).boxName.str = some 0 ∧ (b.clients w).opcode = opCodeRegistPub ∧
      (b.clients w).boxFd = 0 ∧ b.isOpenFd (b.clients w).clientPipe = true := by
  have hstates : ∃ b₁ b₂ b₃ b₄ : Broker,
      threeWorkers.step (1, .request (sampleRequest opCodeRegistPub)) = some b₁ ∧
      (b₁.step (1, .opened samplePath (some 3)) = some b₂ ∧ b₁.pcs 1 = .registerOpen) ∧
      (b₂.step (2, .request (sampleRequest opCodeRegistPub)) = some b₃ ∧ b₂.pcs 2 = .idle) ∧
      (b₃.step (2, .opened samplePath (some 4)) = some b₄ ∧ b₃.pcs 2 = .registerOpen) ∧
      b₄.stopped = false ∧ b₄.maxSessions = 3 ∧ b₄.freeBoxes 0 = false ∧
      (b₄.boxes 0).nPublishers = 0 ∧
      (b₄.pcs 1 = .registerBox ∧ b₄.getBox (b₄.clients 1).boxName.str = some 0 ∧
        (b₄.clients 1).opcode = opCodeRegistPub ∧ (b₄.clients 1).boxFd = 0 ∧
        b₄.isOpenFd (b₄.clients 1).clientPipe = true) ∧
      b₄.pcs 2 = .registerBox ∧ b₄.getBox (b₄.clients 2).boxName.str = some 0 ∧
        (b₄.clients 2).opcode = opCodeRegistPub ∧ (b₄.clients 2).boxFd = 0 ∧
        b₄.isOpenFd (b₄.clients 2).clientPipe = true :=
    ⟨_, _, _, _, rfl, ⟨rfl, rfl⟩, ⟨rfl, rfl⟩, ⟨rfl, rfl⟩, rfl, rfl, rfl, rfl,
      ⟨rfl, rfl, rfl, rfl, rfl⟩,
      rfl, rfl, rfl, rfl, rfl⟩
  obtain ⟨b₁, b₂, b₃, b₄, hs₁, ⟨hs₂, hpc₁⟩, ⟨hs₃, hpc₂⟩, ⟨hs₄, hpc₃⟩, hstop, hmax, hused,
    hzero, hone, htwo⟩ := hstates
  have hasks : ∀ {b : Broker} {w : Nat},
    b.Registers (w, .request (sampleRequest opCodeRegistPub)) := by
    intro b w r hr
    rw [← Answer.request.inj hr]
    exact Or.inl rfl
  have hopened : ∀ {b : Broker} {w : Nat} {path : CStr} {fd : Option Nat},
    b.Registers (w, .opened path fd) := nofun
  refine ⟨b₄, ?_, hstop, hmax, hused, hzero, fun w hw => ?_⟩
  · exact (((Reaches.refl.next ⟨keepsCount_waiting (Or.inl rfl) hasks, rfl⟩ hs₁).next
      ⟨keepsCount_waiting (Or.inr hpc₁) hopened, rfl⟩ hs₂).next
        ⟨keepsCount_waiting (Or.inl hpc₂) hasks, rfl⟩ hs₃).next
      ⟨keepsCount_waiting (Or.inr hpc₃) hopened, rfl⟩ hs₄
  · rcases hw with rfl | rfl
    · exact hone
    · exact htwo

/-- The section of `two_register` in which the first one is accepted. -/
theorem publisher_accepted {stack : List UInt8} (hstack : stack.length = messageLength) :
    ∃ b, Reaches Broker.step CountedHeard threeWorkers b ∧ b.stopped = false ∧ b.maxSessions = 3 ∧
      b.freeBoxes 0 = false ∧ (b.boxes 0).nPublishers = 1 ∧ b.Attends .publisher 0 1 ∧
      b.pcs 2 = .registerBox ∧
      b.getBox (b.clients 2).boxName.str = some 0 ∧ (b.clients 2).opcode = opCodeRegistPub ∧
      (b.clients 2).boxFd = 0 ∧ b.isOpenFd (b.clients 2).clientPipe = true := by
  obtain ⟨b, hrun, hstop, hmax, hused, hzero, hboth⟩ := two_register
  obtain ⟨hpc, hget, hop, -, -⟩ := hboth 1 (Or.inl rfl)
  obtain ⟨hpc₂, hget₂, hop₂, hfd₂, hopen₂⟩ := hboth 2 (Or.inr rfl)
  have hregistered := @registerBox_publisher b 1 0 stack hget hop
    (by rw [hzero]; exact Nat.zero_ne_one)
  generalize hx : ((b.attach 1 0).setBox 0 _).setPc 1 _ = x at hregistered
  have hs : b.step (1, .stack stack) = some x := by
    rw [step_of hstop (by rw [hmax]; decide), hpc]
    exact (if_pos hstack).trans (congrArg some hregistered)
  have hok : KeepsCount b (1, .stack stack) := by
    refine ⟨nofun, fun _ _ i hi _ hone => ?_, fun hc => ?_, fun _ hc => ?_⟩
    · obtain rfl := Option.some.inj (hget.symm.trans hi)
      rw [hzero] at hone
      cases hone
    · unfold PublisherLeaves at hc
      dsimp only at hc
      rw [hpc] at hc
      cases hc
    · unfold HistoryFails at hc
      dsimp only at hc
      rw [hpc] at hc
      cases hc
  have hclient : x.clients 2 = b.clients 2 := by
    rw [← hx]
    exact b.setClient_of_ne { b.clients 1 with box := some 0 } (show (2 : Nat) ≠ 1 by decide)
  have hname : x.getBox (b.clients 2).boxName.str = b.getBox (b.clients 2).boxName.str := by
    rw [← hx]
    refine firstIndex_congr fun j _ => congrArg (fun a : CharArray 32 => a.str == _) ?_
    exact field_setBox (b := b)
      (x := { b.boxes 0 with nPublishers := addSize (b.boxes 0).nPublishers 1 }) Box.boxName rfl j
  refine ⟨x, hrun.next ⟨hok, rfl⟩ hs, ?_, ?_, ?_, ?_, ⟨?_, ?_⟩, ?_, ?_, ?_, ?_, ?_⟩
  · rw [← hx]
    exact hstop
  · rw [← hx]
    exact hmax
  · rw [← hx]
    exact hused
  · rw [← hx]
    refine (congrArg Box.nPublishers (setBox_self ..)).trans ?_
    rw [hzero]
    rfl
  · rw [← hx, setPc_self]
    rfl
  · rw [← hx]
    exact congrArg Client.box (setClient_self ..)
  · rw [← hx, setPc_of_ne _ _ (by decide)]
    exact hpc₂
  · rw [hclient, hname, hget₂]
  · rw [hclient, hop₂]
  · rw [hclient, hfd₂]
  · rw [hclient, ← hx]
    exact hopen₂

/-- One publisher is connected, and counted. -/
theorem counters_publisher :
    ∃ b, (∃ w < b.maxSessions, b.Attends .publisher 0 w) ∧ CountsSessions b 0 := by
  obtain ⟨stack, hstack⟩ : ∃ stack : List UInt8, stack.length = messageLength :=
    ⟨List.replicate messageLength 0, List.length_replicate⟩
  obtain ⟨b, hrun, -, hmax, hused, -, hin, -⟩ := publisher_accepted hstack
  have htimed := (Reaches.timed (m := sections) hrun).mono fun _ _ hok => hok.1
  exact ⟨b, ⟨1, by rw [hmax]; decide, hin⟩,
    (counters_tally _ _ threeWorkers_uncounted htimed).1 0 hused⟩

/-- A publisher registers for a box that has one. Its record was never used, so that `box_fd`
is not -1, and the refusal counts out the publisher that is connected. -/
theorem publisher_uncounted :
    ¬ ∀ b₀ b, Uncounted b₀ → Reaches Broker.step Registers b₀ b → ∀ i,
    b.freeBoxes i = false → CountsSessions b i := by
  intro h
  obtain ⟨stack, hstack⟩ : ∃ stack : List UInt8, stack.length = messageLength :=
    ⟨List.replicate messageLength 0, List.length_replicate⟩
  obtain ⟨b, hrun, hstop, hmax, hused, hone, hin, hpc, hget, hop, hfd, hopen⟩ :=
    publisher_accepted hstack
  have hs : b.step (2, .stack stack) = some ((b.attach 2 0).returnFinish 2) := by
    rw [step_of hstop (by rw [hmax]; decide), hpc]
    exact (if_pos hstack).trans (congrArg some (registerBox_rejected hget hop hone))
  have hclient : (b.attach 2 0).clients 2 = { b.clients 2 with box := some 0 } := setClient_self ..
  have hcounter := finishClientSession_counter (y := b.attach 2 0) (w := 2)
    (r := .publisher) (j := 0)
    (by rw [hclient]; exact hopen) (by rw [hclient]; exact hop) (by rw [hclient]) .publisher 0
  rw [if_pos ⟨by rw [hclient, hfd]; decide, rfl, rfl⟩] at hcounter
  have hcounts := h _ _ threeWorkers_uncounted
    ((hrun.mono fun _ _ hok => hok.1.registers).next (fun _ hr => by cases hr) hs) 0 ?_
  · have hzero : (((b.attach 2 0).returnFinish 2).boxes 0).nPublishers = 0 := by
      refine hcounter.trans ?_
      rw [show Role.counter .publisher ((b.attach 2 0).boxes 0) = 1 from hone]
      rfl
    have hstill : ((b.attach 2 0).returnFinish 2).Attends .publisher 0 1 := by
      have hother : ((b.attach 2 0).returnFinish 2).clients 1 = b.clients 1 :=
        ((finishClientSession_frame _ 2).clients 1 (by decide)).trans
          (setClient_of_ne _ _ (by decide))
      have hplace : ((b.attach 2 0).returnFinish 2).pcs 1 = b.pcs 1 :=
        (setPc_of_ne _ _ (by decide)).trans
          (congrFun (finishClientSession_frame (b.attach 2 0) 2).pcs 1)
      rw [Attends, hplace, hother]
      exact hin
    have hnobody := hcounts.publishers.symm.trans hzero
    refine Nat.count_iff_forall_not.mp hnobody 1 ?_ hstill
    rw [show ((b.attach 2 0).returnFinish 2).maxSessions = 3 from
      (finishClientSession_frame (b.attach 2 0) 2).maxSessions.trans hmax]
    decide
  · exact (congrFun (finishClientSession_frame (b.attach 2 0) 2).freeBoxes 0).trans hused

end Broker

end MBroker
