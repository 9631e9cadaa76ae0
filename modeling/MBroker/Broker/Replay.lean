import MBroker.Broker.Publish
import MBroker.Broker.Sessions

/-!
# Replaying a box to a new subscriber (`handle_messages_until_now`)

A publisher appends each message and its NUL to the file of its box. A new subscriber
reads the whole file at once, cuts what it has read at the NULs, and sends a frame for
each piece.

Results:
1. `Published.holds`: after a list of messages was published to an empty box its file
   is their stream, and `box_size` the length of it.
2. `drive_sending`: the inner loop sends one frame for each string of a stream.
3. `published_replayed`: publishing goes through while the block has room, and a new
   subscriber is sent exactly the messages.
-/

namespace MBroker

open Transition Fs TerminatedStream

namespace Broker

variable {b b' x : Broker} {w i fd n k : Nat} {c : Client} {message : List UInt8} {ms : List CStr}
  {sent : List (Nat × List UInt8)}

/-! ## Publishing to a box -/

/-- The file of box `i` holds these messages, and they are counted. -/
structure HoldsStream (b : Broker) (i : Nat) (ms : List CStr) : Prop where
  wf : WellFormed b.tfs
  params : b.tfs.fsParams = brokerParams
  valid : validPathname (some (b.path i)) = true
  short : ∀ m ∈ ms, m.length ≤ messageLength
  file : b.fileOf i = some (encode ms)
  counted : (b.boxes i).boxSize = (encode ms).length

/-- Box `i` is as it was, whatever else has happened. -/
structure SameBox (b b' : Broker) (i : Nat) : Prop where
  wf : WellFormed b'.tfs
  params : b'.tfs.fsParams = b.tfs.fsParams
  path : b'.path i = b.path i
  file : b'.fileOf i = b.fileOf i
  boxSize : (b'.boxes i).boxSize = (b.boxes i).boxSize

/-- Box `i` was empty, and then these messages were published to it one after the
other: each time the loop of the publisher went on to the next message. -/
inductive Published (i : Nat) : Broker → List CStr → Prop
  | empty {b : Broker} : b.HoldsStream i [] → Published i b []
  | meanwhile {b b' : Broker} {ms : List CStr} :
    Published i b ms → SameBox b b' i → Published i b' ms
  | publish {b : Broker} {ms : List CStr} {w : Nat} {message : List UInt8} : Published i b ms →
      message.length = messageLength → b.pcs w = .pubOpen i message →
      (b.publish w i message).pcs w = .pubOpcode message →
      Published i (b.publish w i message) (ms ++ [messageStr message])

theorem SameBox.holds (h : SameBox b b' i) (hb : b.HoldsStream i ms) : b'.HoldsStream i ms where
  wf := h.wf
  params := h.params.trans hb.params
  valid := h.path.symm ▸ hb.valid
  short := hb.short
  file := h.file.trans hb.file
  counted := h.boxSize.trans hb.counted

/-- There is an open file entry for the publish, its message fits behind the others,
and the first message finds a block. -/
def HasRoom (b : Broker) (ms : List CStr) (message : List UInt8) : Prop :=
  b.tfs.freeHandle ≠ none ∧ (encode ms).length + ((messageStr message).length + 1) ≤ boxSize ∧
    (ms = [] → b.tfs.freeBlock ≠ none)

theorem messageStr_le (hm : message.length = messageLength) :
    (messageStr message).length ≤ messageLength :=
  hm ▸ CStr.length_ofBytes_le message

/-- The counter of a box that holds a stream has room for one more message. -/
theorem HoldsStream.count (h : b.HoldsStream i ms) (hm : message.length = messageLength) :
    addSize (b.boxes i).boxSize ((messageStr message).length + 1)
      = (encode (ms ++ [messageStr message])).length := by
  have hle : (encode ms).length ≤ boxSize := by
    have := file_length_le h.wf.toFilesWf h.file
    rwa [h.params] at this
  have hshort := messageStr_le hm
  rw [h.counted, encode_concat, List.length_append, List.length_append, List.length_singleton]
  refine addSize_of_lt (Nat.lt_of_le_of_lt (Nat.add_le_add hle (Nat.succ_le_succ hshort)) ?_)
  decide

/-- A publish to a box that holds a stream: either the session ends, because there was
no room, or the message is behind the others and the loop goes on. -/
theorem HoldsStream.publish (h : b.HoldsStream i ms) (hm : message.length = messageLength) :
    ((∃ result, (b.publish w i message).pcs w = .ret result) ∧ ¬ b.HasRoom ms message) ∨
      ((b.publish w i message).pcs w = .pubOpcode message ∧
        (b.publish w i message).path i = b.path i ∧
        (b.publish w i message).HoldsStream i (ms ++ [messageStr message])) := by
  have hended : ∀ (x : Broker) (result : Int), (x.endSession w result).pcs w = .ret result :=
    fun x result => by
    rw [(endSession_frame x w result).2.2, Function.update_self]
  have hshort := messageStr_le hm
  rcases tfsOpen_cursor h.wf h.valid h.file (Or.inl ⟨rfl, rfl⟩) with ⟨hrefused, hnone⟩ |
    ⟨t, j, hfree, hopen, hwft, hsame, hcursor, -⟩
  · refine Or.inl ⟨⟨-1, ?_⟩, fun hroom => hroom.1 hnone⟩
    rw [Broker.publish, pubOpen_refused hrefused, publishWrite_endSession]
    exact hended _ _
  have hft : t.file (b.path i).tail = some (encode ms) := (hsame.file _).trans h.file
  have hsize : (messageStr message).length + 1 ≤ (message ++ [0]).length := by
    rw [List.length_append, hm]
    exact Nat.succ_le_succ hshort
  have hword : (messageStr message).length + 1 < 9223372036854775808 :=
    Nat.lt_of_le_of_lt (Nat.succ_le_succ hshort) (by decide)
  obtain ⟨m, hmin⟩ : ∃ m, m = min ((messageStr message).length + 1)
      (t.fsParams.blockSize - (encode ms).length) := ⟨_, rfl⟩
  have hblock : t.fsParams.blockSize = boxSize := by
    rw [hsame.params, h.params]
    rfl
  generalize hb : ({ b with tfs := t } : Broker).setPc w (.pubWrite i message j) = b₁
  have htfs : b₁.tfs = t := by rw [← hb]; rfl
  have hpc : b₁.pcs w = .pubWrite i message j := by rw [← hb]; exact Function.update_self ..
  have hpublish : b.publish w i message = (b₁.pubWrite w i message j).publishCount w := by
    rw [Broker.publish, pubOpen_opened hopen, hb, publishWrite, hpc]
  have hwrite := tfsWrite_append hwft hft hcursor hsize hword hmin
  rw [← htfs] at hwrite
  rw [hpublish]
  rcases hwrite with ⟨hwrite, -, hnil, hfull⟩ | ⟨u, hwrite, hdone, -⟩
  · refine Or.inl ⟨⟨-1, ?_⟩, fun hroom => hroom.2.2 (encode_eq_nil.mp hnil) ?_⟩
    · rw [pubWrite_refused hwrite, publishCount_endSession]
      exact hended _ _
    · rw [htfs, hsame.freeBlock] at hfull
      exact hfull
  -- The write is cut at the end of the block, or it is whole.
  rcases Nat.lt_or_ge m ((messageStr message).length + 1) with hlt | hge
  · refine Or.inl ⟨⟨0, ?_⟩, fun hroom => ?_⟩
    · rw [pubWrite_cut hwrite hlt, publishCount_endSession]
      exact hended _ _
    · have hfits := hroom.2.1
      omega
  · right
    obtain rfl : m = (messageStr message).length + 1 := by omega
    rw [pubWrite_whole hwrite rfl, publishCount, setPc_self]
    have hbytes : (message ++ [0]).take ((messageStr message).length + 1)
        = (messageStr message).bytes ++ [0] := CStr.take_ofBytes message
    have hpath : (({ b₁ with tfs := u } : Broker).setPc w (.pubCount i message) |>.pubCount w i
        message).path i
        = b.path i := by
      rw [← hb]
      simp [pubCount, path, setPc, unlockBox, broadcast, setBox]
    refine ⟨setPc_self .., hpath, hdone.wf, ?_, hpath.symm ▸ h.valid, ?_, ?_, ?_⟩
    · rw [← h.params, ← hsame.params, ← htfs]
      exact hdone.params
    · intro m hmem
      rcases List.mem_append.mp hmem with hold | hnew
      · exact h.short m hold
      · obtain rfl := List.mem_singleton.mp hnew
        exact hshort
    · rw [fileOf, hpath, encode_concat, ← hbytes]
      exact (hdone.file _).trans (if_pos rfl)
    · rw [← h.count hm, ← hb]
      simp [pubCount, setPc, unlockBox, broadcast, setBox]

theorem Published.holds (h : Published i b ms) : b.HoldsStream i ms := by
  induction h with
  | empty h => exact h
  | meanwhile _ hsame ih => exact hsame.holds ih
  | publish _ hm _ hpc ih =>
    rcases ih.publish hm with ⟨⟨result, hret⟩, -⟩ | ⟨-, -, hholds⟩
    · rw [hret] at hpc
      cases hpc
    · exact hholds

/-- A publish goes through if there is room. -/
theorem Published.next (h : Published i b ms) (hm : message.length = messageLength)
    (hpc : b.pcs w = .pubOpen i message) (hroom : b.HasRoom ms message) :
    Published i (b.publish w i message) (ms ++ [messageStr message]) := by
  rcases h.holds.publish hm with ⟨-, hno⟩ | ⟨hdone, -⟩
  · exact absurd hroom hno
  · exact h.publish hm hpc hdone

/-! ## The history of a new subscriber -/

theorem ofSsize_natCast {n : Nat} (h : n < word) : ofSsize (n : Int) = n := by
  rw [ofSsize, Int.emod_eq_of_lt (Int.natCast_nonneg n) (Int.ofNat_lt.mpr h), Int.toNat_natCast]

/-- What the subscriber is sent for one message. -/
def frameLines (fd : Nat) (m : CStr) : List (Nat × List UInt8) :=
  [(fd, [opCodeSubscriber]), (fd, zeroPadded m.bytes messageLength)]

/-- The pipe of the subscriber takes every write whole. -/
def taking (w : Nat) (b : Broker) : Nat × Answer :=
  (w, match b.pcs w with
    | .historySendOp .. => .wrote (.wrote 1)
    | .historySendMessage .. => .wrote (.wrote messageLength)
    | _ => .none)

/-- `handle_messages_until_now` has returned. -/
def upToNow (w : Nat) (b : Broker) : Bool :=
  match b.pcs w with
  | .followLock _ | .ret _ => true
  | _ => false

/-- One section of the subscriber. -/
theorem drive_taking {pc : Pc} {a : Answer} (hstop : b.stopped = false) (hw : w < b.maxSessions)
    (hup : upToNow w (b.place w c pc sent) = false) (ha : taking w (b.place w c pc sent) = (w, a))
    (hs : (b.place w c pc sent).stepWorker w pc a = some x) :
    drive step (taking w) (upToNow w) (n + 1) (b.place w c pc sent)
      = drive step (taking w) (upToNow w) n x := by
  refine drive_next hup ?_
  rw [ha, step_of (b := b.place w c pc sent) hstop hw, place_pcs]
  exact hs

/-- The frame of the first message of a stream. -/
theorem drive_frame (hstop : b.stopped = false) (hw : w < b.maxSessions)
    (hpipe : c.clientPipe = (fd : Int))
    (hfd : b.fds fd = true) {m : CStr} (hm : m.length ≤ messageLength) (ms : List CStr) :
    drive step (taking w) (upToNow w) (n + 2)
    (b.place w c (.historySendOp (encode (m :: ms)) k) sent)
      = drive step (taking w) (upToNow w) n
        (if encode ms = [] then
          b.place w { c with offset := c.offset + k } .historyTest (sent ++ frameLines fd m)
        else b.place w c (.historySendOp (encode ms) k) (sent ++ frameLines fd m)) := by
  have hfirst : CStr.ofBytes (encode (m :: ms)) = m := ofBytes_encode_cons m ms
  have hpos : (0 : UInt8) ∈ encode (m :: ms) := by
    rw [encode_cons]
    exact List.mem_append_right _ (List.mem_cons_self ..)
  have hop : (b.place w c (.historySendOp (encode (m :: ms)) k) sent).stepWorker w
      (.historySendOp (encode (m :: ms)) k) (.wrote (.wrote 1))
      = some (b.place w c (.historySendMessage (encode (m :: ms)) k)
        (sent ++ [(fd, [opCodeSubscriber])])) := by
    have hgood : ¬ ((0 : UInt8) ∉ encode (m :: ms) ∨
        messageLength < (CStr.ofBytes (encode (m :: ms))).length) := by
      rw [hfirst]
      exact fun h => h.elim (fun hno => hno hpos) (Nat.not_lt.mpr hm)
    rw [stepWorker, historySendOp, if_neg hgood, emit_place hpipe hfd (List.length_singleton ..)]
    exact congrArg some place_setPc
  have hmessage : (b.place w c (.historySendMessage (encode (m :: ms)) k)
      (sent ++ [(fd, [opCodeSubscriber])])).stepWorker w (.historySendMessage (encode (m :: ms)) k)
      (.wrote (.wrote messageLength)) = some (if encode ms = [] then
          b.place w { c with offset := c.offset + k } .historyTest (sent ++ frameLines fd m)
        else b.place w c (.historySendOp (encode ms) k) (sent ++ frameLines fd m)) := by
    rw [stepWorker, historySendMessage, hfirst, drop_encode_cons,
      emit_place hpipe hfd (length_zeroPadded ..),
      List.append_assoc]
    dsimp only [Option.bind_eq_bind, Option.bind_some]
    rw [if_pos rfl]
    split
    · exact congrArg some (by rw [place_clients, place_setClient, place_setPc]; rfl)
    · exact congrArg some place_setPc
  rw [show n + 2 = n + 1 + 1 from rfl,
    drive_taking hstop hw (by rw [upToNow, place_pcs]) (by rw [taking, place_pcs]) hop,
    drive_taking hstop hw (by rw [upToNow, place_pcs]) (by rw [taking, place_pcs]) hmessage]

/-- The inner loop: one frame for each message of the stream, and then the offset is
behind it. -/
theorem drive_sending (hne : ms ≠ []) (hms : ∀ m ∈ ms, m.length ≤ messageLength)
    (hstop : b.stopped = false) (hw : w < b.maxSessions) (hpipe : c.clientPipe = (fd : Int))
    (hfd : b.fds fd = true) :
    drive step (taking w) (upToNow w) (n + 2 * ms.length)
    (b.place w c (.historySendOp (encode ms) k) sent)
      = drive step (taking w) (upToNow w) n
        (b.place w { c with offset := c.offset + k } .historyTest
          (sent ++ ms.flatMap (frameLines fd))) := by
  induction ms generalizing sent with
  | nil => exact absurd rfl hne
  | cons m ms ih =>
    have hm := hms m (List.mem_cons_self ..)
    rw [List.length_cons, show n + 2 * (ms.length + 1) = n + 2 * ms.length + 2 by omega,
      drive_frame hstop hw hpipe hfd hm]
    cases ms with
    | nil => rw [if_pos encode_nil, List.flatMap_cons, List.flatMap_nil, List.append_nil]; rfl
    | cons m' ms =>
      rw [if_neg (mt encode_eq_nil.mp (List.cons_ne_nil m' ms)),
        ih (List.cons_ne_nil m' ms) fun y hy => hms y (List.mem_cons_of_mem m hy),
        List.append_assoc]
      rfl

/-- A subscriber that has just been registered for box `i`: its pipe is open as `fd`,
it has read nothing yet, and an open file entry is left for it. -/
structure NewSubscriber (b : Broker) (w i fd : Nat) : Prop where
  running : b.stopped = false
  worker : w < b.maxSessions
  pc : b.pcs w = .historyLock i
  box : (b.clients w).box = some i
  name : (b.clients w).boxName.str = b.path i
  offset : (b.clients w).offset = 0
  pipe : (b.clients w).clientPipe = (fd : Int)
  opened : b.fds fd = true
  unlocked : (b.boxes i).lock = none
  handle : b.tfs.freeHandle ≠ none

/-- The subscriber has read as much as is counted. -/
theorem drive_upToDate (hstop : b.stopped = false) (hw : w < b.maxSessions) (hbox : c.box = some i)
    (hoffset : c.offset = ((b.boxes i).boxSize : Int)) (hlt : (b.boxes i).boxSize < word) :
    drive step (taking w) (upToNow w) (n + 1) (b.place w c .historyTest sent)
      = some ((b.setBox i { b.boxes i with lock := none }).place w c (.followLock i) sent) := by
  have hnone : subSize (b.boxes i).boxSize (ofSsize c.offset) = 0 := by
    rw [hoffset, ofSsize_natCast hlt]
    exact (subSize_eq_zero_iff hlt hlt).mpr rfl
  have htest : (b.place w c .historyTest sent).stepWorker w .historyTest .none
      = some ((b.setBox i { b.boxes i with lock := none }).place w c (.followLock i) sent) :=
    congrArg some (historyTest_place hbox hnone)
  rw [drive_taking hstop hw (by rw [upToNow, place_pcs]) (by rw [taking, place_pcs]) htest]
  exact drive_done (by rw [upToNow, place_pcs])

/-- The outer loop over a file that was opened just now. -/
theorem drive_history (hstop : b.stopped = false) (hw : w < b.maxSessions)
    (hbox : c.box = some i) (hoffset : c.offset = 0) (hpipe : c.clientPipe = (fd : Int))
    (hfd : b.fds fd = true) (hh : b.HoldsStream i ms)
    (hcursor : b.tfs.Cursor c.boxFd (b.path i).tail 0) :
    ∃ b', drive step (taking w) (upToNow w) (2 * ms.length + 3)
    (b.place w c .historyTest sent) = some b' ∧
      b'.pcs w = .followLock i ∧ b'.sent w = sent ++ ms.flatMap (frameLines fd) ∧
      (b'.clients w).offset = ((encode ms).length : Int) ∧ (b'.boxes i).boxSize =
      (encode ms).length := by
  have hle : (encode ms).length ≤ boxSize := by
    have := file_length_le hh.wf.toFilesWf hh.file
    rwa [hh.params] at this
  have hlt : (b.boxes i).boxSize < word := by
    rw [hh.counted]
    exact Nat.lt_of_le_of_lt hle (by decide)
  by_cases hnil : ms = []
  · subst hnil
    have hempty : c.offset = ((b.boxes i).boxSize : Int) := by
      rw [hoffset, hh.counted]
      rfl
    refine ⟨_, drive_upToDate hstop hw hbox hempty hlt, place_pcs, ?_, ?_, ?_⟩
    · rw [place_sent, List.flatMap_nil, List.append_nil]
    · rw [place_clients, hoffset]
      rfl
    · exact (congrArg Box.boxSize (setBox_self ..)).trans hh.counted
  have hpos : 0 < (encode ms).length := List.length_pos_of_ne_nil (mt encode_eq_nil.mp hnil)
  -- there is something behind the offset
  have htest : (b.place w c .historyTest sent).stepWorker w .historyTest .none
      = some (b.place w c .historyRead sent) := by
    have hunread : (b.place w c .historyTest sent).unread w i > 0 := by
      rw [unread, place_clients, hoffset, show (b.place w c .historyTest sent).boxes
        = b.boxes from rfl,
        show ofSsize 0 = 0 from rfl, subSize_of_le (Nat.zero_le _) hlt, hh.counted]
      exact hpos
    rw [stepWorker, historyTest, place_clients, hbox]
    exact congrArg some ((if_pos hunread).trans place_setPc)
  -- one read takes the whole file
  obtain ⟨k, hl, hk⟩ := hcursor
  have hcontent : b.tfs.content k = encode ms :=
    Option.some.inj ((file_of_lookup hl).symm.trans hh.file)
  obtain ⟨u, hread, -⟩ := @tfsRead_rest _ _ _ hh.wf _ _ boxSize hk hl (Nat.zero_le _)
  rw [hcontent, List.drop_zero, List.take_of_length_le hle] at hread
  have hhistory : (b.place w c .historyRead sent).stepWorker w .historyRead .none
      = some (({ b with tfs := u } : Broker).place w c
        (.historySendOp (encode ms) (encode ms).length) sent) := by
    have hread' : tfsRead (b.place w c .historyRead sent).tfs
        ((b.place w c .historyRead sent).clients w).boxFd
        boxSize = .ok (u, ((encode ms).length : Int), encode ms) := by
      rw [place_clients]
      exact hread
    have hsome : ¬ ((encode ms).length : Int) = 0 := by omega
    have hnn : ¬ ((encode ms).length : Int) < 0 := by omega
    rw [stepWorker, historyRead, hread']
    dsimp only
    rw [if_neg hsome, if_neg hnn, Int.toNat_natCast]
    exact congrArg some (place_setPc (b := { b with tfs := u }))
  have hdone : ({ c with offset := c.offset + ((encode ms).length : Int) } : Client).offset
      = ((({ b with tfs := u } : Broker).boxes i).boxSize : Int) := by
    rw [hoffset, Int.zero_add]
    exact congrArg Nat.cast hh.counted.symm
  have hlast := @drive_upToDate { b with tfs := u } w i 0
    { c with offset := c.offset + ((encode ms).length : Int) } (sent ++ ms.flatMap (frameLines fd))
    hstop hw hbox hdone hlt
  refine ⟨_, Eq.trans ?_ hlast, place_pcs, ?_, ?_, ?_⟩
  · rw [show 2 * ms.length + 3 = 0 + 1 + 2 * ms.length + 1 + 1 by omega,
      drive_taking hstop hw (by rw [upToNow, place_pcs]) (by rw [taking, place_pcs]) htest,
      drive_taking hstop hw (by rw [upToNow, place_pcs]) (by rw [taking, place_pcs]) hhistory]
    exact drive_sending (b := { b with tfs := u }) hnil hh.short hstop hw hpipe hfd
  · rw [place_sent]
  · rw [place_clients, hoffset, Int.zero_add]
  · exact (congrArg Box.boxSize (setBox_self ..)).trans hh.counted

/-- `handle_messages_until_now` sends one frame for each message of the box. -/
theorem HoldsStream.replayed (h : b.HoldsStream i ms) (hs : NewSubscriber b w i fd) :
    ∃ b', drive step (taking w) (upToNow w) (2 * ms.length + 5) b = some b' ∧
    b'.pcs w = .followLock i ∧
      b'.sent w = b.sent w ++ ms.flatMap (frameLines fd) ∧
      (b'.clients w).offset = ((b'.boxes i).boxSize : Int) ∧ (b'.boxes i).boxSize =
      (b.boxes i).boxSize := by
  have hplace : b = b.place w (b.clients w) (.historyLock i) (b.sent w) := by
    rw [← hs.pc]
    simp [place]
  have hlocked := @historyLock_place b w i (b.clients w) (b.sent w) hs.unlocked
  generalize hz : b.setBox i { b.boxes i with lock := some w } = z at hlocked
  have hpath : z.path i = b.path i := by
    rw [← hz]
    exact path_eq (field_setBox (x := { b.boxes i with lock := some w }) Box.boxName rfl i)
  rcases tfsOpen_cursor h.wf h.valid h.file (Or.inr ⟨rfl, rfl⟩) with ⟨-, hnone⟩ |
    ⟨t, j, -, hopen, hwft, hsame, hcursor, -⟩
  · exact absurd hnone hs.handle
  have hopened := @historyOpen_place z w (b.clients w) (b.sent w) t j
    (by rw [← hz, hs.name]; exact hopen)
  -- Opening a file that exists changes no file.
  have hholds : ({ z with tfs := t } : Broker).HoldsStream i ms := by
    refine ⟨hwft, hsame.params.trans h.params, hpath.symm ▸ h.valid, h.short, ?_, ?_⟩
    · rw [fileOf, show ({ z with tfs := t } : Broker).path i = b.path i from hpath]
      exact (hsame.file _).trans h.file
    · rw [← h.counted, ← hz]
      exact field_setBox (x := { b.boxes i with lock := some w }) Box.boxSize rfl i
  obtain ⟨b', hdrive, hpc, hsent, hoffset, hsize⟩ := @drive_history { z with tfs := t } w i fd
    { b.clients w with boxFd := (j : Int) } ms (b.sent w)
    (show z.stopped = false from hz ▸ hs.running) (show w < z.maxSessions from hz ▸ hs.worker)
    hs.box hs.offset hs.pipe (show z.fds fd = true from hz ▸ hs.opened) hholds
    (show t.Cursor j (z.path i).tail 0 from hpath.symm ▸ hcursor)
  refine ⟨b', ?_, hpc, hsent, by rw [hoffset, hsize], by rw [hsize, h.counted]⟩
  have hlock : (b.place w (b.clients w) (.historyLock i) (b.sent w)).stepWorker w
    (.historyLock i) .none = _ :=
    hlocked
  have hopen' : (z.place w (b.clients w) .historyOpen (b.sent w)).stepWorker w
    .historyOpen .none = _ :=
    congrArg some hopened
  rw [show 2 * ms.length + 5 = 2 * ms.length + 3 + 1 + 1 from rfl]
  refine (congrArg _ hplace).trans ?_
  rw [drive_taking hs.running hs.worker (by rw [upToNow, place_pcs])
    (by rw [taking, place_pcs]) hlock,
    drive_taking (show z.stopped = false from hz ▸ hs.running)
      (show w < z.maxSessions from hz ▸ hs.worker)
      (by rw [upToNow, place_pcs]) (by rw [taking, place_pcs]) hopen']
  exact hdrive

/-- A buffer of zeroes that a string of at most 1023 bytes was copied to. -/
theorem messageStr_zeroPadded {m : CStr} (hm : m.length ≤ messageLength) :
    messageStr (zeroPadded m.bytes messageLength) = m := by
  obtain ⟨d, hd⟩ := Nat.exists_eq_add_of_le hm
  have htake : zeroPadded m.bytes messageLength = m.bytes
    ++ (List.replicate messageLength 0).take d := by
    rw [zeroPadded]
    exact (congrArg (fun n => (m.bytes ++ List.replicate messageLength 0).take n) hd).trans
      (List.take_length_add_append d)
  rw [messageStr, htake]
  cases d with
  | zero => rw [List.take_zero, List.append_nil, CStr.ofBytes_self]
  | succ d => exact CStr.ofBytes_append_nul m _

/-- Every string of at most 1023 bytes is the message of some buffer. -/
theorem exists_message {m : CStr} (hm : m.length ≤ messageLength) :
    ∃ message : List UInt8, message.length = messageLength ∧ messageStr message = m :=
  ⟨zeroPadded m.bytes messageLength, length_zeroPadded _ _, messageStr_zeroPadded hm⟩

/-- Messages are published to an empty box as long as there is room for them, and a
new subscriber is then sent one frame for each of them, in order, and nothing else. Its
offset is `box_size` when it has caught up. -/
theorem published_replayed :
    (∀ m : CStr, m.length ≤ messageLength → ∃ message : List UInt8, message.length = messageLength ∧
      messageStr message = m) ∧
    (∀ (b : Broker) (w i : Nat) (message : List UInt8) (ms : List CStr), Published i b ms →
      message.length = messageLength → b.pcs w = .pubOpen i message → b.HasRoom ms message →
      Published i (b.publish w i message) (ms ++ [messageStr message])) ∧
    ∀ (b : Broker) (w i fd : Nat) (ms : List CStr), Published i b ms → NewSubscriber b w i fd →
      ∃ b', drive step (taking w) (upToNow w) (2 * ms.length + 5) b = some b' ∧
        b'.pcs w = .followLock i ∧ b'.sent w = b.sent w ++ ms.flatMap (frameLines fd) ∧
        (b'.clients w).offset = ((b'.boxes i).boxSize : Int) ∧
        (b'.boxes i).boxSize = (b.boxes i).boxSize :=
  ⟨fun _ => exists_message, fun _ _ _ _ _ h hm hpc hroom => h.next hm hpc hroom,
    fun _ _ _ _ _ h hs => h.holds.replayed hs⟩

/-- A subscriber of the box `/a`, of whose file `size` bytes are counted. -/
def oneSubscriber (t : Fs.State) (size : Nat) : Broker :=
  { oneBox t size with
    clients := fun _ => { zeroClient with
      opcode := opCodeRegistSub, boxName := sampleName, box := some 0, clientPipe := 3 }
    fds := fun _ => true
    pcs := fun _ => .historyLock 0 }

/-- Another state in which the box `/a` is as it was. -/
theorem Published.sameBox (h : Published 0 b ms) (hpath : b.path 0 = sampleName.str)
    (hx : x.path 0 = sampleName.str)
    (hwf : WellFormed x.tfs) (hparams : x.tfs.fsParams = brokerParams)
    (hfile : x.tfs.file sampleName.str.tail = some (encode ms))
    (hsize : (x.boxes 0).boxSize = (encode ms).length) :
    SameBox b x 0 := by
  refine ⟨hwf, hparams.trans h.holds.params.symm, hx.trans hpath.symm, ?_,
    hsize.trans h.holds.counted.symm⟩
  rw [h.holds.file, fileOf, hx]
  exact hfile

theorem Published.samePath (h : Published 0 b ms) (hm : message.length = messageLength)
    (hroom : b.HasRoom ms message) :
    (b.publish 0 0 message).path 0 = b.path 0 := by
  rcases h.holds.publish (w := 0) hm with ⟨-, hno⟩ | ⟨-, hsame, -⟩
  · exact absurd hroom hno
  · exact hsame

/-- The messages `xx` and `x` are published to the box `/a` and replayed. -/
theorem published_replayed_two : ∃ b b', Published 0 b [letters 2, letters 1] ∧
    drive step (taking 0) (upToNow 0) 9 b = some b' ∧
    b'.sent 0 = frameLines 3 (letters 2) ++ frameLines 3 (letters 1) := by
  have hpos : 0 < sampleName.str.tail.length := by decide
  have hlen : sampleName.str.tail.length ≤ 39 := by decide
  obtain ⟨first, hfirst, hxx⟩ := exists_message (m := letters 2) (by decide)
  -- the box is empty, and a publisher has read `xx`
  generalize ht : oneFile .zeros sampleName.str.tail = t
  generalize hb : (oneBox t 0).setPc 0 (.pubOpen 0 first) = b₀
  have htfs : b₀.tfs = t := by rw [← hb]; rfl
  have hpath : b₀.path 0 = sampleName.str := by rw [← hb]; exact @oneBox_path t 0
  have hempty : b₀.HoldsStream 0 [] := by
    refine ⟨?_, ?_, by rw [hpath]; decide, fun m hm => (nomatch hm), ?_, by rw [← hb]; rfl⟩
    · rw [htfs, ← ht]
      exact oneFile_wellFormed hpos hlen
    · rw [htfs, ← ht]
      exact (sameFiles_openHandle _ _ _).params
    · rw [fileOf, hpath, htfs, ← ht]
      exact (oneFile_file hpos hlen _).trans (if_pos rfl)
  have hroom : b₀.HasRoom [] first := by
    refine ⟨?_, by rw [hxx, length_letters]; decide, fun _ => ?_⟩
    · rw [htfs, ← ht, oneFile_freeHandle]
      exact Option.some_ne_none 1
    · rw [htfs, ← ht, oneFile_freeBlock]
      exact Option.some_ne_none 1
  have hone := published_replayed.2.1 b₀ 0 0 first [] (.empty hempty) hfirst
    (by rw [← hb]; exact setPc_self ..) hroom
  rw [hxx, List.nil_append] at hone
  have hpath₁ := (Published.samePath (.empty hempty) hfirst hroom).trans hpath
  -- meanwhile a publisher has read `x`
  obtain ⟨u, hwf, hparams, hfile, hfree⟩ := first_filled .zeros hpos hlen
    (show (encode [letters 2]).length ≤ boxSize by decide)
  generalize hc : (oneBox u 3).setPc 0 (.pubOpen 0 shortMessage) = b₁
  have htfs₁ : b₁.tfs = u := by rw [← hc]; rfl
  have hpath₂ : b₁.path 0 = sampleName.str := by rw [← hc]; exact @oneBox_path u 3
  have hstill := hone.meanwhile (hone.sameBox hpath₁ hpath₂ (htfs₁ ▸ hwf) (htfs₁ ▸ hparams)
    (by rw [htfs₁]; exact (hfile _).trans (if_pos rfl)) (by rw [← hc]; rfl))
  have hroom₁ : b₁.HasRoom [letters 2] shortMessage := by
    refine ⟨by rw [htfs₁, hfree]; exact Option.some_ne_none 1, by rw [messageStr_short]; decide,
      fun hnil => absurd hnil (List.cons_ne_nil _ _)⟩
  have htwo := published_replayed.2.1 b₁ 0 0 shortMessage _ hstill shortMessage_length
    (by rw [← hc]; exact setPc_self ..) hroom₁
  rw [messageStr_short] at htwo
  have hpath₃ := (hstill.samePath shortMessage_length hroom₁).trans hpath₂
  -- meanwhile a subscriber has come
  obtain ⟨v, hwf', hparams', hfile', hfree'⟩ := first_filled .zeros hpos hlen
    (show (encode [letters 2, letters 1]).length ≤ boxSize by decide)
  have hjoined := htwo.meanwhile (htwo.sameBox (x := oneSubscriber v 5) hpath₃
    (@oneBox_path v 5) hwf' hparams'
    ((hfile' _).trans (if_pos rfl)) rfl)
  have hnew : NewSubscriber (oneSubscriber v 5) 0 0 3 := by
    refine ⟨rfl, show 0 < 1 by decide, rfl, rfl, (@oneBox_path v 5).symm, rfl, rfl, rfl, rfl, ?_⟩
    rw [show (oneSubscriber v 5).tfs = v from rfl, hfree']
    exact Option.some_ne_none 1
  obtain ⟨b', hdrive, -, hsent, -⟩ := published_replayed.2.2 _ 0 0 3
    [letters 2, letters 1] hjoined hnew
  exact ⟨_, b', hjoined, hdrive, hsent⟩

end Broker

end MBroker
