import MBroker.Broker.Handles
import MBroker.Broker.Placement
import MBroker.Broker.Replay
import MBroker.Library.Stream

/-!
# A publisher and a subscriber of one box

The publisher appends to the file of the box while the subscriber reads behind what it has
read before. What the subscriber's program decodes is compared with what the box stores.

Results:
1. `received_frames`: the program decodes one message from each frame.
2. `Delivers.inOrder`: what it has decoded is a prefix of what is stored, and all of it when
   the subscriber has caught up, while `Delivers` holds.
3. `Delivers.publisher_step`: the sections of the publisher keep `Delivers`.
-/

namespace MBroker

open ByteStream FirstFit Transition Fs TerminatedStream

/-! ## The subscriber -/

/-- What `main` of `subscriber/sub.c` prints: it reads an operation code that it does not
look at, and then a message. It waits where there is no whole frame. -/
def received : List UInt8 → List CStr
  | [] => []
  | _ :: input =>
    match _h : takeBytes messageLength input with
    | none => []
    | some (message, rest) => messageStr message :: received rest
termination_by input => input.length
decreasing_by
  have := (takeBytes_length _h).2
  rw [List.length_cons]
  omega

theorem received_nil : received [] = [] := by rw [received]

/-- The operation code alone is not a frame. -/
theorem received_opcode (op : UInt8) : received [op] = [] := by
  rw [received]
  split
  · rfl
  · next hread =>
    have hlen := (takeBytes_length hread).2
    unfold messageLength at hlen
    rw [List.length_nil] at hlen
    omega

theorem received_frame {op : UInt8} {message rest : List UInt8}
    (h : message.length = messageLength) :
    received (op :: (message ++ rest)) = messageStr message :: received rest := by
  have hmessage : takeBytes messageLength (message ++ rest) = some (message, rest) :=
    takeBytes_append h
  rw [received]
  split
  · next hnone =>
    rw [hmessage] at hnone
    cases hnone
  · next hsome =>
    rw [hmessage] at hsome
    cases hsome
    rfl

/-! ## Frames -/

namespace Broker

variable {b b' x : Broker} {v w p s i j fd n : Nat} {q : CStr}
  {ms ns done rs : List CStr} {m : CStr}
  {message rest : List UInt8} {pc : Pc} {c : Client} {sent : List (Nat × List UInt8)} {t : Fs.State}

/-- The zeroes of the frame start at the NUL of the message. -/
theorem zeroPadded_terminated (bytes : List UInt8) (n : Nat) :
    zeroPadded (bytes ++ [0]) n = zeroPadded bytes n := by
  have hle : n ≤ (bytes ++ List.replicate n 0).length := by
    rw [List.length_append, List.length_replicate]
    exact Nat.le_add_left n _
  have hzeros : bytes ++ [0] ++ List.replicate n (0 : UInt8) = bytes
    ++ List.replicate n 0 ++ [0] := by
    rw [List.append_assoc, List.append_assoc, List.singleton_append,
      ← List.replicate_succ, List.replicate_succ']
  rw [zeroPadded, hzeros, List.take_append_of_le_length hle, zeroPadded]

/-- The bytes of these frames. -/
def frameBytes (ms : List CStr) : List UInt8 :=
  ms.flatMap fun m => opCodeSubscriber :: zeroPadded m.bytes messageLength

theorem received_frames (h : ∀ m ∈ ms, m.length ≤ messageLength) (rest : List UInt8) :
    received (frameBytes ms ++ rest) = ms ++ received rest := by
  induction ms with
  | nil => rfl
  | cons m ms ih =>
    have hm := h m (List.mem_cons_self ..)
    rw [frameBytes, List.flatMap_cons, List.append_assoc, List.cons_append,
      received_frame (length_zeroPadded _ _), messageStr_zeroPadded hm, List.cons_append]
    exact congrArg _ (ih fun y hy => h y (List.mem_cons_of_mem m hy))

/-- What the subscriber of worker `s` decodes. -/
def delivered (b : Broker) (s fd : Nat) : List CStr := received (b.output s fd)

/-- All lines went to the pipe of the subscriber. -/
theorem output_frames {lines : List (Nat × List UInt8)}
    (h : b.sent s = done.flatMap (frameLines fd) ++ lines)
    (hlines : ∀ line ∈ lines, line.1 = fd) :
    b.output s fd = frameBytes done ++ lines.flatMap Prod.snd := by
  have hall : ∀ line ∈ done.flatMap (frameLines fd) ++ lines, (line.1 == fd) = true := by
    intro line hline
    rcases List.mem_append.mp hline with hframe | hlast
    · obtain ⟨m, -, hm⟩ := List.mem_flatMap.mp hframe
      simp only [frameLines, List.mem_cons, List.not_mem_nil, or_false] at hm
      rcases hm with rfl | rfl <;> simp
    · simpa using hlines line hlast
  have hframe : (fun m => (frameLines fd m).flatMap Prod.snd)
      = fun m => opCodeSubscriber :: zeroPadded m.bytes messageLength := by
    funext m
    simp [frameLines]
  rw [output, h, List.filter_eq_self.mpr hall, List.flatMap_append,
    List.flatMap_assoc, hframe, frameBytes]

/-! ## The publisher and the subscriber of a box -/

/-- These messages are stored in box `i`: the counted part of its file is their stream. -/
def HasMessages (b : Broker) (i : Nat) (ms : List CStr) : Prop :=
  ∃ c, b.fileOf i = some c ∧ c.take (b.boxes i).boxSize = encode ms

/-- The subscriber has decoded a prefix of the messages of the box, and all of them if it
has caught up. -/
def InOrder (b : Broker) (s i fd : Nat) : Prop :=
  ∃ ms, b.HasMessages i ms ∧ b.delivered s fd <+: ms ∧
    ((b.clients s).offset = ((b.boxes i).boxSize : Int) → b.delivered s fd = ms)

/-- Worker `p` serves the publisher of box `i` and worker `s` a new subscriber, which was
sent nothing so far. -/
structure Linked (b : Broker) (p s i fd : Nat) (ms : List CStr) : Prop where
  holds : b.HoldsStream i ms
  subscriber : NewSubscriber b s i fd
  unsent : b.sent s = []
  apart : p ≠ s
  publisher : ∃ message, b.pcs p = .pubOpcode message ∧ message.length = messageLength
  box : (b.clients p).box = some i
  pipe : (b.clients p).clientPipe ≠ (fd : Int)

/-- The result of a write of the subscriber that its pipe takes whole. -/
def wholeWrite : Pc → WriteResult
  | .historySendOp .. | .followSendOp .. => .wrote 1
  | _ => .wrote messageLength

/-- A section of one of the two sessions. The message of a publish fits in the box, the
subscriber finds an open file entry, and its pipe takes every write whole. -/
structure Alongside (p s : Nat) (b : Broker) (e : Nat × Answer) : Prop where
  worker : e.1 = p ∨ e.1 = s
  session : ∀ r, e.2 ≠ .request r
  fits : ∀ i message fhandle, b.pcs e.1 = .pubWrite i message fhandle → ∀ c, b.fileOf i = some c →
    c.length + ((messageStr message).length + 1) ≤ boxSize
  opens : b.pcs e.1 = .historyOpen → b.tfs.freeHandle ≠ none
  writes : ∀ result, e.2 = .wrote result → result = wholeWrite (b.pcs e.1)

/-- The second loop reads one message and its NUL, if it reads now. -/
def TakesOne (b : Broker) (e : Nat × Answer) : Prop :=
  ∀ i, b.pcs e.1 = .followRead i → ∃ (m : CStr) (c : List UInt8), b.fileOf i = some c ∧
    (c.drop (b.clients e.1).offset.toNat).take messageLength = m.bytes ++ [0]

/-- The message that is in the file and not counted. -/
def uncounted : Pc → List CStr
  | .pubCount _ message => [messageStr message]
  | _ => []

/-- The file of box `i`, whose name is `q`. -/
structure Shelf (b : Broker) (i : Nat) (q : CStr) (ms ns : List CStr) : Prop where
  wf : WellFormed b.tfs
  params : b.tfs.fsParams = brokerParams
  path : b.path i = q
  valid : validPathname (some q) = true
  short : ∀ m ∈ ms, m.length ≤ messageLength
  file : b.tfs.file q.tail = some (encode (ms ++ ns))
  counted : (b.boxes i).boxSize = (encode ms).length

/-- Where the publisher of box `i` may stand. -/
def PublishesTo (i : Nat) : Pc → Prop
  | .idle | .ret _ | .closing => True
  | .pubOpcode message | .pubMessage message => message.length = messageLength
  | .pubLock j message | .pubOpen j message | .pubWrite j message _ | .pubCount j message =>
    j = i ∧ message.length = messageLength
  | _ => False

structure Writer (b : Broker) (p i fd : Nat) (q : CStr) (ms : List CStr) : Prop where
  place : PublishesTo i (b.pcs p)
  box : ∀ j, (b.clients p).box = some j → j = i
  pipe : (b.clients p).clientPipe ≠ (fd : Int)
  locked : (b.pcs p).publishing ≠ none → (b.boxes i).lock = some p
  cursor : ∀ j message fh, b.pcs p = .pubWrite j message fh →
    b.tfs.Cursor fh q.tail (encode ms).length

/-- The subscriber was sent `done`, and its offset and its cursor are behind them. -/
structure Even (c : Client) (cursor : Nat → Prop) (done : List CStr) : Prop where
  offset : c.offset = ((encode done).length : Int)
  cursor : cursor (encode done).length

/-- It has read `rs`, all in all `n` bytes with what it has sent of them, and its offset
does not know yet. -/
structure Ahead (c : Client) (cursor : Nat → Prop) (ms done rs : List CStr) (n : Nat) : Prop where
  stored : done ++ rs <+: ms
  some : 0 < n
  offset : c.offset + n = ((encode (done ++ rs)).length : Int)
  cursor : cursor (encode (done ++ rs)).length

/-- Where the subscriber may stand when it was sent `done`. -/
def FollowsAt (c : Client) (sent : List (Nat × List UInt8)) (cursor : Nat → Prop) (i fd : Nat)
    (ms done : List CStr) : Pc → Prop
  | .historyLock j => j = i ∧ done = [] ∧ sent = [] ∧ c.offset = 0
  | .historyOpen => done = [] ∧ sent = [] ∧ c.offset = 0
  | .historyTest | .historyRead => Even c cursor done ∧ sent = done.flatMap (frameLines fd)
  | .followLock j | .asleep j _ => j = i ∧ Even c cursor done ∧ sent = done.flatMap (frameLines fd)
  | .followRead j => j = i ∧ Even c cursor done ∧ sent = done.flatMap (frameLines fd) ∧
    done.length < ms.length
  | .historySendOp rest n => ∃ rs, rs ≠ [] ∧ rest = encode rs ∧ Ahead c cursor ms done rs n ∧
    sent = done.flatMap (frameLines fd)
  | .historySendMessage rest n => ∃ rs, rs ≠ [] ∧ rest = encode rs ∧ Ahead c cursor ms done rs n ∧
    sent = done.flatMap (frameLines fd) ++ [(fd, [opCodeSubscriber])]
  | .followSendOp j message n => j = i ∧ ∃ m, message = zeroPadded m.bytes messageLength ∧
    Ahead c cursor ms done [m] n ∧ sent = done.flatMap (frameLines fd)
  | .followSendMessage j message n => j = i ∧ ∃ m, message = zeroPadded m.bytes messageLength ∧
    Ahead c cursor ms done [m] n ∧ sent = done.flatMap (frameLines fd) ++ [(fd, [opCodeSubscriber])]
  | _ => False

structure Reader (b : Broker) (s i fd : Nat) (q : CStr) (ms done : List CStr) : Prop where
  box : (b.clients s).box = some i
  name : (b.clients s).boxName.str = q
  pipe : (b.clients s).clientPipe = (fd : Int)
  opened : b.fds fd = true
  locked : (b.pcs s).InHistory = true → (b.boxes i).lock = some s
  sofar : done <+: ms
  place : FollowsAt (b.clients s) (b.sent s) (b.tfs.Cursor (b.clients s).boxFd q.tail) i fd ms
    done (b.pcs s)

/-- The box holds `ms`, of which the subscriber was sent `done`. -/
structure Delivers (b : Broker) (p s i fd : Nat) (q : CStr) (ms done : List CStr) : Prop where
  shelf : Shelf b i q ms (uncounted (b.pcs p))
  writer : Writer b p i fd q ms
  reader : Reader b s i fd q ms done
  apart : p ≠ s
  handles : ∀ j message fh, b.pcs p = .pubWrite j message fh → (b.pcs s).Reads = true →
    fh ≠ (b.clients s).boxFd

theorem Shelf.hasMessages (h : Shelf b i q ms ns) : b.HasMessages i ms := by
  refine ⟨_, (congrArg (fun p => b.tfs.file (CStr.tail p)) h.path).trans h.file, ?_⟩
  rw [h.counted, encode_append]
  exact List.take_left

theorem Shelf.room (h : Shelf b i q ms ns) : (encode (ms ++ ns)).length ≤ boxSize := by
  have hle := file_length_le h.wf.toFilesWf h.file
  rwa [h.params] at hle

theorem length_encode_le (h : ms <+: ns) : (encode ms).length ≤ (encode ns).length := by
  obtain ⟨rs, rfl⟩ := h
  rw [encode_append, List.length_append]
  exact Nat.le_add_right _ _

/-- What was sent and what the offset knows, wherever the subscriber stands. -/
theorem FollowsAt.cases {cursor : Nat → Prop} (h : FollowsAt c sent cursor i fd ms done pc) :
    (sent = done.flatMap (frameLines fd) ∨
        sent = done.flatMap (frameLines fd) ++ [(fd, [opCodeSubscriber])]) ∧
      (c.offset = ((encode done).length : Int) ∨ ∃ rs n, Ahead c cursor ms done rs n) := by
  cases pc with
  | historyLock j =>
    obtain ⟨-, rfl, hsent, hoffset⟩ := h
    exact ⟨Or.inl hsent, Or.inl hoffset⟩
  | historyOpen =>
    obtain ⟨rfl, hsent, hoffset⟩ := h
    exact ⟨Or.inl hsent, Or.inl hoffset⟩
  | historyTest => exact ⟨Or.inl h.2, Or.inl h.1.offset⟩
  | historyRead => exact ⟨Or.inl h.2, Or.inl h.1.offset⟩
  | followLock j => exact ⟨Or.inl h.2.2, Or.inl h.2.1.offset⟩
  | asleep j n => exact ⟨Or.inl h.2.2, Or.inl h.2.1.offset⟩
  | followRead j => exact ⟨Or.inl h.2.2.1, Or.inl h.2.1.offset⟩
  | historySendOp rest n =>
    obtain ⟨rs, -, -, hahead, hsent⟩ := h
    exact ⟨Or.inl hsent, Or.inr ⟨rs, n, hahead⟩⟩
  | historySendMessage rest n =>
    obtain ⟨rs, -, -, hahead, hsent⟩ := h
    exact ⟨Or.inr hsent, Or.inr ⟨rs, n, hahead⟩⟩
  | followSendOp j message n =>
    obtain ⟨-, m, -, hahead, hsent⟩ := h
    exact ⟨Or.inl hsent, Or.inr ⟨[m], n, hahead⟩⟩
  | followSendMessage j message n =>
    obtain ⟨-, m, -, hahead, hsent⟩ := h
    exact ⟨Or.inr hsent, Or.inr ⟨[m], n, hahead⟩⟩
  | _ => exact h.elim

/-- What the subscriber decodes is what it was sent, whether or not an operation code has
gone ahead. -/
theorem Reader.delivered (h : Reader b s i fd q ms done) (hs : Shelf b i q ms ns) :
    b.delivered s fd = done := by
  have hshort : ∀ m ∈ done, m.length ≤ messageLength := fun m hm => hs.short m (h.sofar.subset hm)
  have hframes : ∀ lines : List (Nat × List UInt8), (∀ line ∈ lines, line.1 = fd) →
      received (lines.flatMap Prod.snd) = [] → b.sent s = done.flatMap (frameLines fd) ++ lines →
      b.delivered s fd = done := by
    intro lines hlines hnone hsent
    rw [Broker.delivered, output_frames hsent hlines, received_frames hshort, hnone,
      List.append_nil]
  rcases h.place.cases.1 with hsent | hsent
  · refine hframes [] (fun _ hline => nomatch hline) received_nil ?_
    rw [hsent, List.append_nil]
  · refine hframes [(fd, [opCodeSubscriber])] (fun line hline => ?_) (received_opcode _) hsent
    rw [List.mem_singleton.mp hline]

/-- The subscriber has caught up only when it was sent everything. -/
theorem Reader.caughtUp (h : Reader b s i fd q ms done) (hs : Shelf b i q ms ns)
    (heven : (b.clients s).offset = ((b.boxes i).boxSize : Int)) : done = ms := by
  rw [hs.counted] at heven
  rcases h.place.cases.2 with hoffset | ⟨rs, n, hahead⟩
  · have hlen : (encode done).length = (encode ms).length := Int.ofNat_inj.mp
      (hoffset.symm.trans heven)
    obtain ⟨rs, rfl⟩ := h.sofar
    rw [encode_append, List.length_append] at hlen
    have hnil := List.eq_nil_of_length_eq_zero (Nat.add_eq_left.mp hlen.symm)
    rw [encode_eq_nil.mp hnil, List.append_nil]
  · have hle := length_encode_le hahead.stored
    have hoffset := hahead.offset
    have hpos := hahead.some
    omega

theorem Delivers.inOrder (h : Delivers b p s i fd q ms done) : b.InOrder s i fd := by
  refine ⟨ms, h.shelf.hasMessages, ?_, fun heven => ?_⟩
  · rw [h.reader.delivered h.shelf]
    exact h.reader.sofar
  · rw [h.reader.delivered h.shelf]
    exact h.reader.caughtUp h.shelf heven

theorem Linked.delivers (h : Linked b p s i fd ms) : Delivers b p s i fd (b.path i) ms [] := by
  obtain ⟨message, hpc, hlen⟩ := h.publisher
  have hs := h.subscriber
  refine ⟨⟨h.holds.wf, h.holds.params, rfl, h.holds.valid, h.holds.short, ?_, h.holds.counted⟩,
    ⟨?_, ?_, h.pipe, ?_, ?_⟩, ⟨hs.box, hs.name, hs.pipe, hs.opened, ?_,
      List.nil_prefix, ?_⟩, h.apart, ?_⟩
  · have hnone : uncounted (.pubOpcode message) = [] := rfl
    rw [hpc, hnone, List.append_nil]
    exact h.holds.file
  · rw [hpc]
    exact hlen
  · intro j hj
    exact Option.some.inj (hj.symm.trans h.box)
  · intro hpublishing
    rw [hpc] at hpublishing
    exact absurd rfl hpublishing
  · intro j m fh hw
    rw [hpc] at hw
    cases hw
  · intro hin
    rw [hs.pc] at hin
    cases hin
  · rw [hs.pc]
    exact ⟨rfl, rfl, h.unsent, hs.offset⟩
  · intro j m fh hw
    rw [hpc] at hw
    cases hw

/-! ## The sections of the publisher -/

/-- What the subscriber has read stays a prefix when messages are added. -/
theorem Ahead.mono {cursor cursor' : Nat → Prop} (h : Ahead c cursor ms done rs n) (hms : ms <+: ns)
    (hcur : ∀ k, cursor k → cursor' k) : Ahead c cursor' ns done rs n :=
  ⟨h.stored.trans hms, h.some, h.offset, hcur _ h.cursor⟩

/-- The first of them is sent. -/
theorem Ahead.next {cursor : Nat → Prop} (h : Ahead c cursor ms done (m :: rs) n) :
    Ahead c cursor ms (done ++ [m]) rs n := by
  have hcons := List.append_cons done m rs
  exact ⟨hcons ▸ h.stored, h.some, hcons ▸ h.offset, hcons ▸ h.cursor⟩

/-- All of them are sent, and the offset is moved. -/
theorem Ahead.even {cursor : Nat → Prop} (h : Ahead c cursor ms done [] n) :
    Even { c with offset := c.offset + n } cursor done := by
  have hnil := List.append_nil done
  exact ⟨hnil ▸ h.offset, hnil ▸ h.cursor⟩

theorem FollowsAt.mono {cursor cursor' : Nat → Prop} (h : FollowsAt c sent cursor i fd ms done pc)
    (hms : ms <+: ns) (hcur : pc.Reads = true → ∀ k, cursor k → cursor' k) :
    FollowsAt c sent cursor' i fd ns done pc := by
  have heven : pc.Reads = true → Even c cursor done → Even c cursor' done := fun hr he =>
    ⟨he.offset, hcur hr _ he.cursor⟩
  cases pc with
  | historyLock j => exact h
  | historyOpen => exact h
  | historyTest => exact ⟨heven rfl h.1, h.2⟩
  | historyRead => exact ⟨heven rfl h.1, h.2⟩
  | followLock j => exact ⟨h.1, heven rfl h.2.1, h.2.2⟩
  | asleep j n => exact ⟨h.1, heven rfl h.2.1, h.2.2⟩
  | followRead j => exact ⟨h.1, heven rfl h.2.1, h.2.2.1, Nat.lt_of_lt_of_le h.2.2.2 hms.length_le⟩
  | historySendOp rest n =>
    obtain ⟨rs, hne, hrest, hahead, hsent⟩ := h
    exact ⟨rs, hne, hrest, hahead.mono hms (hcur rfl), hsent⟩
  | historySendMessage rest n =>
    obtain ⟨rs, hne, hrest, hahead, hsent⟩ := h
    exact ⟨rs, hne, hrest, hahead.mono hms (hcur rfl), hsent⟩
  | followSendOp j message n =>
    obtain ⟨hj, m, hm, hahead, hsent⟩ := h
    exact ⟨hj, m, hm, hahead.mono hms (hcur rfl), hsent⟩
  | followSendMessage j message n =>
    obtain ⟨hj, m, hm, hahead, hsent⟩ := h
    exact ⟨hj, m, hm, hahead.mono hms (hcur rfl), hsent⟩
  | _ => exact h.elim

theorem FollowsAt.hasCursor {cursor : Nat → Prop} (h : FollowsAt c sent cursor i fd ms done pc)
    (hr : pc.Reads = true) : ∃ k, cursor k := by
  cases pc with
  | historyTest => exact ⟨_, h.1.cursor⟩
  | historyRead => exact ⟨_, h.1.cursor⟩
  | followLock j => exact ⟨_, h.2.1.cursor⟩
  | asleep j n => exact ⟨_, h.2.1.cursor⟩
  | followRead j => exact ⟨_, h.2.1.cursor⟩
  | historySendOp rest n => obtain ⟨rs, -, -, hahead, -⟩ := h; exact ⟨_, hahead.cursor⟩
  | historySendMessage rest n => obtain ⟨rs, -, -, hahead, -⟩ := h; exact ⟨_, hahead.cursor⟩
  | followSendOp j message n => obtain ⟨-, m, -, hahead, -⟩ := h; exact ⟨_, hahead.cursor⟩
  | followSendMessage j message n => obtain ⟨-, m, -, hahead, -⟩ := h; exact ⟨_, hahead.cursor⟩
  | _ => cases hr

/-- The subscriber while the publisher moves. It may be woken. -/
theorem Reader.beside (h : Reader b s i fd q ms done) (hstays : Stays b x s)
    (hclient : x.clients s = b.clients s)
    (hsent : x.sent s = b.sent s) (hfd : x.fds fd = b.fds fd)
    (hlock : (b.boxes i).lock = some s → (x.boxes i).lock = some s) (hms : ms <+: ns)
    (hcur : (b.pcs s).Reads = true → ∀ k, b.tfs.Cursor (b.clients s).boxFd q.tail k →
      x.tfs.Cursor (b.clients s).boxFd q.tail k) : Reader x s i fd q ns done := by
  have hplace := h.place.mono hms hcur
  refine ⟨hclient ▸ h.box, hclient ▸ h.name, hclient ▸ h.pipe, hfd.trans h.opened, fun hin => ?_,
    h.sofar.trans hms, ?_⟩
  · rcases hstays with hsame | ⟨j, n, -, hwoken⟩
    · rw [hsame] at hin
      exact hlock (h.locked hin)
    · rw [hwoken] at hin
      cases hin
  · rw [hclient, hsent]
    exact hstays.keep (P := FollowsAt _ _ _ _ _ _ _) (fun _ _ hwake => hwake) hplace

/-- The publisher goes on without TecnicoFS. -/
theorem Delivers.publisher_moves (h : Delivers b p s i fd q ms done) (hf : Frame b x p)
    (hfd : x.fds fd = b.fds fd) (hold : uncounted (b.pcs p) = []) (hnew : pc.publishing = none)
    (hplace : PublishesTo i pc) (hbox : ∀ j, (x.clients p).box = some j → j = i)
    (hpipe : (x.clients p).clientPipe ≠ (fd : Int)) :
    Delivers (x.setPc p pc) p s i fd q ms done := by
  have hsp : s ≠ p := h.apart.symm
  have hnone : uncounted pc = [] := by
    cases pc <;> first | rfl | cases hnew
  have hs : (x.setPc p pc).pcs s = b.pcs s := (setPc_of_ne x pc hsp).trans (congrFun hf.pcs s)
  have hshelf := h.shelf
  have hfile := hshelf.file
  rw [hold] at hfile
  refine ⟨⟨?_, ?_, ?_, hshelf.valid, hshelf.short, ?_, ?_⟩, ⟨?_, hbox, hpipe, ?_, ?_⟩,
    h.reader.beside (Or.inl hs) (hf.clients s hsp) ?_ hfd ?_ List.prefix_rfl ?_, h.apart, ?_⟩
  · exact hf.tfs ▸ hshelf.wf
  · exact (congrArg State.fsParams hf.tfs).trans hshelf.params
  · exact (path_eq (hf.boxName i)).trans hshelf.path
  · rw [setPc_self, hnone, show (x.setPc p pc).tfs = b.tfs from hf.tfs]
    exact hfile
  · exact (hf.boxSize i).trans hshelf.counted
  · rw [setPc_self]
    exact hplace
  · rw [setPc_self]
    exact fun hne => absurd hnew hne
  · rw [setPc_self]
    rintro j message fh rfl
    cases hnew
  · exact congrFun hf.sent s
  · intro hl
    exact (hf.lock i).trans hl
  · intro _ k hk
    rw [show (x.setPc p pc).tfs = b.tfs from hf.tfs]
    exact hk
  · rw [setPc_self]
    rintro j message fh rfl
    cases hnew

/-- The end of a session closes the session's own pipe. -/
theorem close_fds {fd' : Int} (hne : fd' ≠ (fd : Int)) : (b.close fd').1.fds fd = b.fds fd := by
  unfold close
  split
  · next hopen =>
    simp only [isOpenFd, Bool.and_eq_true, decide_eq_true_eq] at hopen
    refine Function.update_of_ne ?_ ..
    omega
  · rfl

theorem left_fds (b : Broker) (w : Nat) : (b.left w).fds = b.fds := by
  unfold left leaveBox
  split
  · split
    · rfl
    · split <;> rfl
  · rfl

/-- What the end of a session leaves of its record. -/
structure AfterSession (b x : Broker) (w fd : Nat) : Prop where
  fds : x.fds fd = b.fds fd
  pipe : (x.clients w).clientPipe = (b.clients w).clientPipe
  box : ∀ j, (x.clients w).box = some j → (b.clients w).box = some j

theorem finishClientSession_after (hne : (b.clients w).clientPipe ≠ (fd : Int)) :
    AfterSession b (b.finishClientSession w).1 w fd := by
  have hclosed : (b.close (b.clients w).clientPipe).1.clients w = b.clients w :=
    (close_frame b (w + 1) _).clients w (Nat.succ_ne_self w).symm
  cases hopen : b.isOpenFd (b.clients w).clientPipe with
  | false =>
    rw [finishClientSession_of_closed hopen]
    exact ⟨rfl, rfl, fun _ hj => hj⟩
  | true =>
    by_cases hfd : (b.clients w).opcode = opCodeListBoxes ∨ (b.clients w).boxFd ≠ -1
    · rw [finishClientSession_of_boxFd hopen hfd]
      refine ⟨?_, ?_, ?_⟩
      · exact (congrFun (left_fds _ w) fd).trans (close_fds hne)
      · rw [setClient_self]
        rfl
      · rw [setClient_self]
        exact fun j hj => nomatch hj
    · rw [not_or, not_not] at hfd
      rw [finishClientSession_of_no_boxFd hopen hfd.1 hfd.2]
      exact ⟨close_fds hne, by rw [hclosed], fun j hj => by rwa [hclosed] at hj⟩

/-- The publisher's session ends. -/
theorem Delivers.publisher_ends (h : Delivers b p s i fd q ms done)
    (hold : uncounted (b.pcs p) = [])
    (result : Int) : Delivers (b.endSession p result) p s i fd q ms done := by
  have hafter := finishClientSession_after h.writer.pipe
  refine h.publisher_moves (finishClientSession_frame b p) hafter.fds hold rfl trivial ?_ ?_
  · exact fun j hj => h.writer.box j (hafter.box j hj)
  · rw [hafter.pipe]
    exact h.writer.pipe

theorem Delivers.publisher_stands (h : Delivers b p s i fd q ms done)
    (hold : uncounted (b.pcs p) = [])
    (hnew : pc.publishing = none) (hplace : PublishesTo i pc) :
    Delivers (b.setPc p pc) p s i fd q ms done :=
  h.publisher_moves (Frame.refl b p) rfl hold hnew hplace h.writer.box h.writer.pipe

theorem Delivers.crash (h : Delivers b p s i fd q ms done) : Delivers b.crash p s i fd q ms done :=
  ⟨⟨h.shelf.wf, h.shelf.params, h.shelf.path, h.shelf.valid, h.shelf.short,
    h.shelf.file, h.shelf.counted⟩,
    ⟨h.writer.place, h.writer.box, h.writer.pipe, h.writer.locked, h.writer.cursor⟩,
    ⟨h.reader.box, h.reader.name, h.reader.pipe, h.reader.opened, h.reader.locked,
      h.reader.sofar, h.reader.place⟩,
    h.apart, h.handles⟩

theorem Delivers.pipeClosed (h : Delivers b p s i fd q ms done) (hold : uncounted (b.pcs p) = []) :
    Delivers (b.pipeClosed p) p s i fd q ms done := by
  unfold Broker.pipeClosed
  split
  · exact h.publisher_ends hold 0
  · exact h.publisher_stands hold rfl trivial

theorem Delivers.pubOpcode (h : Delivers b p s i fd q ms done) (hpc : b.pcs p = .pubOpcode message)
    {bytes : List UInt8} (hs : b.pubOpcode p message bytes = some b') :
    Delivers b' p s i fd q ms done := by
  have hold : uncounted (b.pcs p) = [] := by rw [hpc]; rfl
  have hplace := h.writer.place
  rw [hpc] at hplace
  unfold Broker.pubOpcode at hs
  split at hs
  · split at hs
    · obtain rfl := Option.some.inj hs
      exact h.pipeClosed hold
    · obtain rfl := Option.some.inj hs
      exact h.publisher_stands hold rfl hplace
  · cases hs

theorem Delivers.pubMessage (h : Delivers b p s i fd q ms done)
    (hpc : b.pcs p = .pubMessage message)
    {bytes : List UInt8} (hs : b.pubMessage p message bytes = some b') :
    Delivers b' p s i fd q ms done := by
  have hold : uncounted (b.pcs p) = [] := by rw [hpc]; rfl
  have hlen : message.length = messageLength := by
    have hplace := h.writer.place
    rwa [hpc] at hplace
  unfold Broker.pubMessage at hs
  split at hs
  · next hread =>
    have hle : bytes.length ≤ messageLength := of_decide_eq_true hread
    split at hs
    · obtain rfl := Option.some.inj hs
      exact h.pipeClosed hold
    · cases hbox : (b.clients p).box with
      | none =>
        rw [hbox] at hs
        obtain rfl := Option.some.inj hs
        exact h.crash
      | some j =>
        rw [hbox] at hs
        obtain rfl := Option.some.inj hs
        refine h.publisher_stands hold rfl ⟨h.writer.box j hbox, ?_⟩
        rw [List.length_append, List.length_drop, hlen]
        exact Nat.add_sub_cancel' hle
  · cases hs

theorem Delivers.returned (h : Delivers b p s i fd q ms done) {result : Int}
    (hpc : b.pcs p = .ret result) :
    Delivers (b.returned p result) p s i fd q ms done := by
  have hold : uncounted (b.pcs p) = [] := by rw [hpc]; rfl
  unfold Broker.returned
  split
  · split
    · exact h.crash
    · exact h.publisher_stands hold rfl trivial
  · exact h.publisher_stands hold rfl trivial

/-- The publisher takes the lock of the box, which no history holds. -/
theorem Delivers.pubLock (h : Delivers b p s i fd q ms done) (hpc : b.pcs p = .pubLock j message)
    (hs : b.lockBox p j (.pubOpen j message) = some b') : Delivers b' p s i fd q ms done := by
  have hplace := h.writer.place
  rw [hpc] at hplace
  obtain ⟨rfl, hlen⟩ := hplace
  have hshelf := h.shelf
  have hsp : s ≠ p := h.apart.symm
  unfold Broker.lockBox at hs
  split at hs
  · next hfree =>
    obtain rfl := Option.some.inj hs
    have hname := field_setBox (x := { b.boxes j with lock := some p }) Box.boxName rfl j
    have hsize := field_setBox (x := { b.boxes j with lock := some p }) Box.boxSize rfl j
    have hfile := hshelf.file
    rw [hpc] at hfile
    have hpcs : ((b.setBox j { b.boxes j with lock := some p }).setPc p (.pubOpen j message)).pcs
      s = b.pcs s :=
      setPc_of_ne _ _ hsp
    refine ⟨⟨hshelf.wf, hshelf.params, (path_eq hname).trans hshelf.path,
      hshelf.valid, hshelf.short, ?_,
      hsize.trans hshelf.counted⟩, ⟨?_, h.writer.box, h.writer.pipe, fun _ => ?_, ?_⟩,
      h.reader.beside (Or.inl hpcs) rfl rfl rfl ?_ List.prefix_rfl fun _ _ hk => hk, h.apart, ?_⟩
    · rw [setPc_self]
      exact hfile
    · rw [setPc_self]
      exact ⟨rfl, hlen⟩
    · exact congrArg Box.lock (setBox_self ..)
    · rw [setPc_self]
      exact fun _ _ _ hw => nomatch hw
    · intro hl
      rw [hfree] at hl
      cases hl
    · rw [setPc_self]
      exact fun _ _ _ hw => nomatch hw
  · cases hs

/-- The publisher opens the file, if an entry is free. -/
theorem Delivers.pubOpen (h : Delivers b p s i fd q ms done) (hpc : b.pcs p = .pubOpen j message) :
    Delivers (b.pubOpen p j message) p s i fd q ms done := by
  have hold : uncounted (b.pcs p) = [] := by rw [hpc]; rfl
  have hplace := h.writer.place
  rw [hpc] at hplace
  obtain ⟨rfl, hlen⟩ := hplace
  have hlock := h.writer.locked (by rw [hpc]; simp [Pc.publishing])
  have hshelf := h.shelf
  have hfile := hshelf.file
  rw [hold, List.append_nil] at hfile
  have hvalid := hshelf.valid
  have hopened := @tfsOpen_cursor _ _ hshelf.wf hshelf.valid _ hfile
    tfsOAppend _ (Or.inl ⟨rfl, rfl⟩)
  rw [← hshelf.path] at hopened
  rcases hopened with ⟨hrefused, -⟩ | ⟨t, k, -, hopen, hwf, hsame, hcursor, hothers⟩
  · rw [pubOpen_refused hrefused]
    exact h.publisher_ends hold _
  · rw [hshelf.path] at hcursor
    have hsp : s ≠ p := h.apart.symm
    have hpcs : (({ b with tfs := t } : Broker).setPc p (.pubWrite j message k)).pcs s = b.pcs s :=
      setPc_of_ne _ _ hsp
    rw [pubOpen_opened hopen]
    refine ⟨⟨hwf, hsame.params.trans hshelf.params, hshelf.path, hshelf.valid,
      hshelf.short, ?_, hshelf.counted⟩,
      ⟨?_, h.writer.box, h.writer.pipe, fun _ => hlock, ?_⟩,
      h.reader.beside (Or.inl hpcs) rfl rfl rfl id List.prefix_rfl ?_, h.apart, ?_⟩
    · rw [setPc_self]
      exact (hsame.file _).trans
        (by rw [hfile]; exact congrArg _ (congrArg _ (List.append_nil ms).symm))
    · rw [setPc_self]
      exact ⟨rfl, hlen⟩
    · rw [setPc_self]
      rintro j' m' fh ⟨⟩
      exact hcursor
    · exact fun _ k' hk' => (hothers _ _ _ hk').2
    · rw [setPc_self, hpcs]
      rintro j' m' fh ⟨⟩ hreads
      obtain ⟨k', hk'⟩ := h.reader.place.hasCursor hreads
      exact (hothers _ _ _ hk').1.symm

/-- The publisher appends a message that fits, or the session ends because no block is
free for it. -/
theorem Delivers.pubWrite (h : Delivers b p s i fd q ms done) {fh : Int}
    (hpc : b.pcs p = .pubWrite j message fh)
    (hfits : ∀ c, b.fileOf j = some c → c.length + ((messageStr message).length + 1) ≤ boxSize) :
    Delivers (b.pubWrite p j message fh) p s i fd q ms done := by
  have hold : uncounted (b.pcs p) = [] := by rw [hpc]; rfl
  have hplace := h.writer.place
  rw [hpc] at hplace
  obtain ⟨rfl, hlen⟩ := hplace
  have hlock := h.writer.locked (by rw [hpc]; simp [Pc.publishing])
  have hshelf := h.shelf
  have hfile := hshelf.file
  rw [hold, List.append_nil] at hfile
  have hroom := hfits _ ((congrArg (fun p => b.tfs.file (CStr.tail p)) hshelf.path).trans hfile)
  have hsize : (messageStr message).length + 1 ≤ (message ++ [0]).length := messageStr_fits message
  have hword : (messageStr message).length + 1 < 9223372036854775808 := by
    have hle := messageStr_le hlen
    unfold messageLength at hle
    omega
  -- The message fits in the block, so the write is not cut.
  have hall : (messageStr message).length + 1
      = min ((messageStr message).length + 1) (b.tfs.fsParams.blockSize - (encode ms).length) := by
    have hblock : b.tfs.fsParams.blockSize = boxSize := congrArg TfsParams.blockSize hshelf.params
    omega
  rcases tfsWrite_append hshelf.wf hfile (h.writer.cursor j message fh hpc) hsize hword hall with
    ⟨hwrite, -⟩ | ⟨t, hwrite, hdone, -⟩
  · rw [pubWrite_refused hwrite]
    exact h.publisher_ends hold _
  · have hbytes : (message ++ [0]).take ((messageStr message).length + 1)
        = (messageStr message).bytes ++ [0] := CStr.take_ofBytes message
    -- The file is one message ahead of the size until the message is counted.
    rw [hbytes, ← encode_concat] at hdone
    have hsp : s ≠ p := h.apart.symm
    have hpcs : (({ b with tfs := t } : Broker).setPc p (.pubCount j message)).pcs s = b.pcs s :=
      setPc_of_ne _ _ hsp
    rw [pubWrite_whole hwrite rfl]
    refine ⟨⟨hdone.wf, hdone.params.trans hshelf.params, hshelf.path, hshelf.valid,
      hshelf.short, ?_, hshelf.counted⟩,
      ⟨?_, h.writer.box, h.writer.pipe, fun _ => hlock, ?_⟩,
      h.reader.beside (Or.inl hpcs) rfl rfl rfl id List.prefix_rfl ?_, h.apart, ?_⟩
    · rw [setPc_self]
      exact (hdone.file _).trans (if_pos rfl)
    · rw [setPc_self]
      exact ⟨rfl, hlen⟩
    · rw [setPc_self]
      exact fun _ _ _ hw => Pc.noConfusion hw
    · exact fun hreads k hk => hdone.cursor (h.handles j message fh hpc hreads).symm hk
    · rw [setPc_self]
      exact fun _ _ _ hw => Pc.noConfusion hw

/-- The publisher counts the message: it is stored from now on. -/
theorem Delivers.pubCount (h : Delivers b p s i fd q ms done)
    (hpc : b.pcs p = .pubCount j message) :
    Delivers (b.pubCount p j message) p s i fd q (ms ++ [messageStr message]) done := by
  have hplace := h.writer.place
  rw [hpc] at hplace
  obtain ⟨rfl, hlen⟩ := hplace
  have hlock := h.writer.locked (by rw [hpc]; simp [Pc.publishing])
  have hshelf := h.shelf
  have hfile : b.tfs.file q.tail = some (encode (ms ++ [messageStr message])) := by
    have hfile := hshelf.file
    rwa [hpc] at hfile
  have hroom := hshelf.room
  rw [hpc] at hroom
  have hcount : addSize (b.boxes j).boxSize ((messageStr message).length + 1)
      = (encode (ms ++ [messageStr message])).length := by
    have hsplit : (encode (ms ++ [messageStr message])).length
        = (encode ms).length + ((messageStr message).length + 1) := by
      rw [encode_concat, List.length_append, List.length_append, List.length_singleton]
      rfl
    rw [hsplit, hshelf.counted]
    refine addSize_of_lt (Nat.lt_of_le_of_lt (hsplit ▸ hroom) ?_)
    decide
  have hsp : s ≠ p := h.apart.symm
  have hbeside := @pubCount_beside b s p j hsp message
  refine ⟨⟨hshelf.wf, hshelf.params, ?_, hshelf.valid, ?_, ?_, ?_⟩,
    ⟨?_, h.writer.box, h.writer.pipe, ?_, ?_⟩,
    h.reader.beside hbeside.stays hbeside.clients rfl rfl ?_ (List.prefix_append _ _) fun _ _ hk =>
      hk, h.apart, ?_⟩
  · rw [← hshelf.path]
    simp [Broker.pubCount, path, setPc, unlockBox, broadcast, setBox]
  · intro m hm
    rcases List.mem_append.mp hm with hold | hnew
    · exact hshelf.short m hold
    · obtain rfl := List.mem_singleton.mp hnew
      exact messageStr_le hlen
  · have hnone : uncounted ((b.pubCount p j message).pcs p)
      = [] := congrArg uncounted (setPc_self _ p _)
    rw [hnone, List.append_nil]
    exact hfile
  · rw [← hcount]
    simp [Broker.pubCount, setPc, unlockBox, broadcast, setBox]
  · exact (setPc_self _ p (.pubOpcode message)).symm ▸ hlen
  · exact fun hne => absurd (congrArg Pc.publishing (setPc_self _ p (.pubOpcode message))) hne
  · intro j' m' fh hw
    cases (setPc_self _ p (.pubOpcode message)).symm.trans hw
  · intro hl
    rw [hlock] at hl
    exact absurd (Option.some.inj hl) h.apart
  · intro j' m' fh hw
    cases (setPc_self _ p (.pubOpcode message)).symm.trans hw

theorem Delivers.publisher_step (h : Delivers b p s i fd q ms done) {a : Answer}
    (hok : Alongside p s b (p, a))
    (hs : b.step (p, a) = some b') : Delivers b' p s i fd q (ms ++ uncounted (b.pcs p)) done := by
  obtain ⟨-, -, hs⟩ := step_eq_some.mp hs
  dsimp only at hs
  have hplace := h.writer.place
  -- Only `pubCount` adds a message; the other sections leave the list as it is.
  have hnothing : uncounted (b.pcs p) = [] → Delivers b' p s i fd q ms done →
      Delivers b' p s i fd q (ms ++ uncounted (b.pcs p)) done := by
    intro hnone hb'
    rwa [hnone, List.append_nil]
  cases hpc : b.pcs p with
  | idle =>
    rw [hpc] at hs
    cases a with
    | request r => exact absurd rfl (hok.session r)
    | _ => cases hs
  | ret result =>
    rw [hpc] at hs hnothing
    cases a with
    | none =>
      obtain rfl := Option.some.inj hs
      exact hnothing rfl (h.returned hpc)
    | _ => cases hs
  | closing =>
    rw [hpc] at hs
    cases a <;> cases hs
  | pubOpcode message =>
    rw [hpc] at hs hnothing
    cases a with
    | read bytes => exact hnothing rfl (h.pubOpcode hpc hs)
    | _ => cases hs
  | pubMessage message =>
    rw [hpc] at hs hnothing
    cases a with
    | read bytes => exact hnothing rfl (h.pubMessage hpc hs)
    | _ => cases hs
  | pubLock j message =>
    rw [hpc] at hs hnothing
    cases a with
    | none => exact hnothing rfl (h.pubLock hpc hs)
    | _ => cases hs
  | pubOpen j message =>
    rw [hpc] at hs hnothing
    cases a with
    | none =>
      obtain rfl := Option.some.inj hs
      exact hnothing rfl (h.pubOpen hpc)
    | _ => cases hs
  | pubWrite j message fhandle =>
    rw [hpc] at hs hnothing
    cases a with
    | none =>
      obtain rfl := Option.some.inj hs
      exact hnothing rfl (h.pubWrite hpc (hok.fits j message fhandle hpc))
    | _ => cases hs
  | pubCount j message =>
    rw [hpc] at hs
    cases a with
    | none =>
      obtain rfl := Option.some.inj hs
      exact h.pubCount hpc
    | _ => cases hs
  | _ =>
    rw [hpc] at hplace
    exact hplace.elim

end Broker

end MBroker
