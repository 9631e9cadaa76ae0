import MBroker.Broker.Placement
import MBroker.Broker.Start
import MBroker.Broker.Overlap

/-!
# Where messages come from

A ghost records what every worker has registered for, the messages that the pipes of
publishers have delivered, and, for each file, the pieces it was written in, each with the
message that its writer had last received and what it had registered for. A name counts only
if the registration found a box of that name.

The code has three ways out. `get_box` compares names and does not look at `free_boxes`, and
the name of a free slot is empty: a registration with an empty name gets a free slot. A
publish keeps its pointer to the slot, or its handle, across a removal of the box. And a
message that `read` delivers in part is completed with what the buffer held before.

Results:
1. `Bears.step`: a publish carries the message that its pipe has delivered.
2. `Authentic.step`: a write adds this message to the box that the publisher registered for.
3. `messages_authentic`: so in every run in which registrations find no free slot, no box is
   removed under a publish and messages are read whole, and there sessions are on boxes of
   their names.
4. `registered_nowhere`: the registration with an empty name.
-/

namespace MBroker

open FirstFit Transition Fs

/-- A part of a file, what its writer had registered for, and the message that the pipe of
the writer had delivered last. -/
structure Piece where
  author : Option CStr
  message : List UInt8
  bytes : List UInt8

namespace Piece

/-- The message and its NUL, as a publish stores them. -/
def sent (x : Piece) : List UInt8 := (messageStr x.message).bytes ++ [0]

end Piece

/-- What the workers have registered for, what their pipes have delivered last and in all,
each message with what its worker had registered for, and what the files are made of. -/
structure Origins where
  named : Nat → Option CStr
  latest : Nat → List UInt8
  received : List (Option CStr × List UInt8)
  pieces : CStr → List Piece

/-- The pipe of worker `w` delivers a message, if any. -/
def Origins.receives (o : Origins) (w : Nat) : Option (List UInt8) → Origins
  | none => o
  | some message =>
    { o with
      latest := Function.update o.latest w message
      received := o.received ++ [(o.named w, message)] }

/-- The pieces of a file after a section of a worker that has registered for `author` and
has received `message`: what the file has grown by is a new piece. -/
def grown (old new : Option (List UInt8)) (author : Option CStr) (message : List UInt8)
    (pieces : List Piece) : List Piece :=
  match new with
  | none => []
  | some c =>
    let kept := old.getD []
    if c = kept then pieces else pieces ++ [⟨author, message, c.drop kept.length⟩]

/-- The file `n` is its pieces. Each is a message that was received from a writer that had
registered for the box of the file; only the last one may be cut, where the file is full. -/
structure Genuine (file : Option (List UInt8)) (pieces : List Piece) (n : CStr)
    (received : List (Option CStr × List UInt8)) : Prop where
  absent : file = none → pieces = []
  stored : ∀ c, file = some c → c = pieces.flatMap Piece.bytes
  authors : ∀ x ∈ pieces, ∃ p, x.author = some p ∧ validPathname (some p) = true ∧ p.tail = n
  received : ∀ x ∈ pieces, (x.author, x.message) ∈ received
  whole : ∀ x ∈ pieces.dropLast, x.bytes = x.sent
  last : ∀ x ∈ pieces.getLast?, x.bytes = x.sent ∨
    x.bytes <+: x.sent ∧ ∀ c, file = some c → c.length = boxSize

section Files

variable {old new : Option (List UInt8)} {pieces : List Piece} {n p : CStr} {author : Option CStr}
  {c message : List UInt8} {received received' : List (Option CStr × List UInt8)}

theorem Genuine.of_absent : Genuine none [] n received where
  absent _ := rfl
  stored _ hc := by cases hc
  authors _ hx := absurd hx List.not_mem_nil
  received _ hx := absurd hx List.not_mem_nil
  whole _ hx := absurd hx List.not_mem_nil
  last _ hx := by cases hx

theorem Genuine.mono (h : Genuine old pieces n received) (hmore : ∀ x ∈ received, x ∈ received') :
    Genuine old pieces n received' :=
  { h with received := fun x hx => hmore _ (h.received x hx) }

/-- A file that is as it was, or new and empty, or gone. -/
theorem Genuine.same (h : Genuine old pieces n received)
    (hnew : new = old ∨ old = none ∧ new = some [] ∨ new = none) :
    Genuine new (grown old new author message pieces) n received := by
  rcases hnew with rfl | ⟨rfl, rfl⟩ | rfl
  · have hpieces : grown new new author message pieces = pieces := by
      cases new with
      | none => exact (h.absent rfl).symm
      | some c => exact if_pos rfl
    rwa [hpieces]
  · have hpieces : grown none (some []) author message pieces = [] := by
      rw [grown]
      exact (if_pos rfl).trans (h.absent rfl)
    rw [hpieces]
    exact { Genuine.of_absent with
      absent := fun hc => by cases hc
      stored := fun c hc => (Option.some.inj hc).symm
      last := fun x hx => by cases hx }
  · exact .of_absent

/-- In a file that is not full every piece is whole. -/
theorem Genuine.all_whole (h : Genuine (some c) pieces n received) (hroom : c.length < boxSize) :
    ∀ x ∈ pieces, x.bytes = x.sent := by
  intro x hx
  rcases List.eq_nil_or_concat' pieces with rfl | ⟨init, y, rfl⟩
  · exact absurd hx List.not_mem_nil
  · rcases List.mem_append.mp hx with hold | hnew
    · exact h.whole x (by rwa [List.dropLast_concat])
    · obtain rfl := List.mem_singleton.mp hnew
      refine (h.last x (by rw [List.getLast?_concat]; rfl)).resolve_right fun hcut => ?_
      have hfull := hcut.2 c rfl
      omega

/-- A file that a publisher of its box has written to: as much of the message as there is
room for. -/
theorem Genuine.append {m : Nat} (h : Genuine (some c) pieces p.tail received)
    (hvalid : validPathname (some p) = true)
    (hle : c.length ≤ boxSize) (hreceived : (some p, message) ∈ received)
    (hm : m = 0 ∨ m = min ((messageStr message).length + 1) (boxSize - c.length)) :
    Genuine (some (c ++ (message ++ [0]).take m))
      (grown (some c) (some (c ++ (message ++ [0]).take m)) (some p) message pieces) p.tail
        received := by
  by_cases hnil : (message ++ [0]).take m = []
  · rw [hnil, List.append_nil]
    exact h.same (Or.inl rfl)
  have hpos : m ≠ 0 := by
    rintro rfl
    exact hnil (List.take_zero ..)
  replace hm := hm.resolve_left hpos
  have hold := h.all_whole (by omega)
  have hne : c ++ (message ++ [0]).take m ≠ c := fun heq => hnil (List.append_right_eq_self.mp heq)
  have hpieces : grown (some c) (some (c ++ (message ++ [0]).take m)) (some p) message pieces
      = pieces ++ [⟨some p, message, (message ++ [0]).take m⟩] :=
    (if_neg hne).trans (by rw [Option.getD_some, List.drop_left])
  -- the message and its NUL are the beginning of the buffer
  have hsize := Broker.messageStr_fits message
  have hsent : (message ++ [0]).take ((messageStr message).length + 1)
    = (messageStr message).bytes ++ [0] :=
    CStr.take_ofBytes message
  have hcut : (message ++ [0]).take m <+: (messageStr message).bytes ++ [0] := by
    rw [← hsent]
    exact List.take_prefix_take_left (by omega)
  rw [hpieces]
  refine ⟨fun hc => (by cases hc), fun c' hc' => ?_, fun x hx => ?_, fun x hx => ?_,
    fun x hx => ?_, fun x hx => ?_⟩
  · obtain rfl := Option.some.inj hc'
    rw [List.flatMap_append, ← h.stored c rfl, List.flatMap_singleton]
  · rcases List.mem_append.mp hx with hx | hx
    · exact h.authors x hx
    · rw [List.mem_singleton.mp hx]
      exact ⟨p, rfl, hvalid, rfl⟩
  · rcases List.mem_append.mp hx with hx | hx
    · exact h.received x hx
    · rw [List.mem_singleton.mp hx]
      exact hreceived
  · rw [List.dropLast_concat] at hx
    exact hold x hx
  · obtain rfl := Option.some.inj ((List.getLast?_concat ..).symm.trans hx)
    by_cases hwhole : m = (messageStr message).length + 1
    · exact Or.inl (hwhole ▸ hsent)
    · refine Or.inr ⟨hcut, fun c' hc' => ?_⟩
      obtain rfl := Option.some.inj hc'
      rw [List.length_append, List.length_take]
      omega

end Files

namespace Broker

variable {b b' : Broker} {v w i : Nat} {a : Answer} {o : Origins} {pc : Pc} {message : List UInt8}
  {s s' : Broker × Origins} {e : Nat × Answer} {n p : CStr} {c : List UInt8}

/-- The message that the pipe of the client delivers in this section. -/
def messageRead (b : Broker) (e : Nat × Answer) : Option (List UInt8) :=
  match b.pcs e.1, e.2 with
  | .pubMessage _, .read bytes => if bytes = [] then none else some bytes
  | _, _ => none

/-- Where things come from after a section that leads to `b'`. -/
def traced (b b' : Broker) (e : Nat × Answer) (o : Origins) : Origins :=
  { o.receives e.1 (b.messageRead e) with
    named := b.renamed o.named e.1
    pieces := fun n => grown (b.tfs.file n) (b'.tfs.file n) (o.named e.1)
      (o.latest e.1) (o.pieces n) }

/-- A section, and where things come from after it. -/
def witnessed : Broker × Origins → Nat × Answer → Option (Broker × Origins) :=
  noted Broker.step fun b e b' => traced b b' e

/-- A registration finds no free slot, no box is removed under a publish, and a message is
read whole. -/
structure Cautious (b : Broker) (e : Nat × Answer) : Prop where
  finds : FindsUsed b e.1
  unhurried : Unhurried b e.1
  whole : ∀ message, b.messageRead e = some message → message.length = messageLength

/-! ## What a publish carries -/

/-- A publish has the message that the pipe has delivered last. -/
def Bears (o : Origins) (w : Nat) : Pc → Prop
  | .pubOpcode message | .pubMessage message => message.length = messageLength
  | .pubLock _ message | .pubOpen _ message | .pubWrite _ message _ | .pubCount _ message =>
    message.length = messageLength ∧ message = o.latest w ∧ (o.named w, message) ∈ o.received
  | _ => True

theorem Bears.outside (h : pc.InSession = false) : Bears o w pc := by
  cases pc <;> trivial

theorem traced_of_none (h : b.messageRead e = none) :
    (traced b b' e o).latest = o.latest ∧ (traced b b' e o).received = o.received := by
  unfold traced
  rw [h]
  exact ⟨rfl, rfl⟩

theorem received_traced {x : Option CStr × List UInt8} (hx : x ∈ o.received) :
    x ∈ (traced b b' e o).received := by
  unfold traced
  cases b.messageRead e with
  | none => exact hx
  | some message => exact List.mem_append_left _ hx

/-- The sections of the others change nothing of it. -/
theorem Bears.beside (h : Bears o v (b.pcs v)) (hs : b.step (w, a) = some b') (hv : v ≠ w) :
    Bears (traced b b' (w, a) o) v (b'.pcs v) := by
  have hnamed : (traced b b' (w, a) o).named v = o.named v := by
    show b.renamed o.named w v = o.named v
    unfold renamed
    split
    · exact Function.update_of_ne hv ..
    · rfl
  have hlatest : (traced b b' (w, a) o).latest v = o.latest v := by
    unfold traced
    cases b.messageRead (w, a) with
    | none => rfl
    | some message => exact Function.update_of_ne hv ..
  rcases step_others hs hv with hsame | ⟨j, k, -, hwoken⟩
  · rw [hsame]
    generalize b.pcs v = pc at h
    cases pc <;> first
      | exact h
      | exact ⟨h.1, h.2.1.trans hlatest.symm, hnamed ▸ received_traced h.2.2⟩
  · rw [hwoken]
    trivial

theorem pubMessage_of_step (hs : b.step (w, a) = some b') (hpc : b.pcs w = .pubMessage message) :
    ∃ bytes, a = .read bytes ∧ b.pubMessage w message bytes = some b' := by
  replace hs := (step_eq_some.mp hs).2.2
  dsimp only at hs
  rw [hpc] at hs
  cases a with
  | read bytes => exact ⟨bytes, rfl, hs⟩
  | _ => cases hs

/-- A message that was read whole. -/
theorem Bears.pubMessage (h : Bears o w (b.pcs w)) (hs : b.step (w, a) = some b')
    (hpc : b.pcs w = .pubMessage message)
    (hok : Cautious b (w, a)) : Bears (traced b b' (w, a) o) w (b'.pcs w) := by
  rw [hpc] at h
  have hlength : message.length = messageLength := h
  obtain ⟨bytes, rfl, hread⟩ := pubMessage_of_step hs hpc
  unfold Broker.pubMessage at hread
  split at hread
  · split at hread
    · obtain rfl := Option.some.inj hread
      refine .outside ?_
      rw [pipeClosed]
      split
      · rw [endSession, setPc_self]
        rfl
      · rw [setPc_self]
        rfl
    · next hne =>
      have hmessage : b.messageRead (w, .read bytes) = some bytes := by
        unfold messageRead
        dsimp only
        rw [hpc]
        exact if_neg hne
      have hwhole := hok.whole bytes hmessage
      split at hread
      · obtain rfl := Option.some.inj hread
        rw [show b.crash.pcs = b.pcs from rfl, hpc]
        exact hlength
      · obtain rfl := Option.some.inj hread
        have hbytes : bytes ++ message.drop bytes.length = bytes := by
          rw [List.drop_of_length_le (by omega), List.append_nil]
        have hnamed : b.renamed o.named w = o.named := if_neg fun hc => by
          rw [hpc] at hc
          cases hc
        rw [setPc_self, hbytes]
        unfold traced
        rw [hmessage]
        dsimp only
        rw [hnamed]
        have hlatest : (o.receives w (some bytes)).latest w = bytes := Function.update_self ..
        exact ⟨hwhole, hlatest.symm, List.mem_append_right _ (List.mem_singleton_self _)⟩
  · cases hread

/-- A registration begins with an empty buffer of the right size. -/
theorem bears_registered (hs : b.step (w, a) = some b') (hpc : b.pcs w = .registerBox) :
    Bears o w (b'.pcs w) := by
  have hserves := step_serves hs (by rw [hpc]; rfl)
  rw [hpc] at hserves
  cases hserves with
  | opened hnext => cases hnext
  | notOpened hat => rcases hat with hat | hat <;> cases hat
  | @registerBox stack hstack =>
    cases hg : b.getBox (b.clients w).boxName.str with
    | none =>
      rw [registerBox_absent hg, setPc_self]
      trivial
    | some j =>
      by_cases hop : (b.clients w).opcode = opCodeRegistPub
      · by_cases hone : (b.boxes j).nPublishers = 1
        · rw [registerBox_rejected hg hop hone, returnFinish, setPc_self]
          trivial
        · rw [registerBox_publisher hg hop hone, setPc_self]
          exact hstack
      · rw [registerBox_subscriber hg hop, setPc_self]
        trivial

theorem Bears.own (h : Bears o w (b.pcs w)) (hs : b.step (w, a) = some b')
    (hok : Cautious b (w, a)) :
    Bears (traced b b' (w, a) o) w (b'.pcs w) := by
  by_cases hread : ∃ message, b.pcs w = .pubMessage message
  · obtain ⟨message, hpc⟩ := hread
    exact h.pubMessage hs hpc hok
  by_cases hregister : b.pcs w = .registerBox
  · exact bears_registered hs hregister
  have hnone : b.messageRead (w, a) = none := by
    unfold messageRead
    dsimp only
    split
    · next message bytes hpc => exact absurd ⟨message, hpc⟩ hread
    · rfl
  have hghost : (traced b b' (w, a) o).latest = o.latest ∧
    (traced b b' (w, a) o).received = o.received :=
    traced_of_none hnone
  have hnamed : (traced b b' (w, a) o).named w = o.named w := congrFun (if_neg hregister) w
  -- the ghost of `w` is as it was
  have hsame : ∀ pc, Bears o w pc → Bears (traced b b' (w, a) o) w pc := by
    intro pc hb
    cases pc <;> first
      | exact hb
      | (refine ⟨hb.1, ?_, ?_⟩
         · rw [hghost.1]
           exact hb.2.1
         · rw [hnamed, hghost.2]
           exact hb.2.2)
  rcases step_cases hs with hends | hcrash | hgoes | hserves
  · exact .outside hends.ended
  · rw [hcrash.same.1]
    exact hsame _ h
  · refine hsame _ ?_
    have hset : ∀ {y : Broker} {pc : Pc}, Bears o w pc → Bears o w ((y.setPc w pc).pcs w) := by
      intro y pc hb
      rwa [setPc_self]
    generalize hpc : b.pcs w = pc at h hgoes
    cases hgoes with
    | pubOpcode => exact hset h
    | pubMessage => exact absurd ⟨_, hpc⟩ hread
    | pubLock => exact hset h
    | pubOpen => exact hset h
    | pubWrite => exact hset h
    | pubCount => exact hset h.1
    | _ => exact hset trivial
  · exact .outside (hserves.inSession rfl hregister)

/-- The step lemma of the publishes. -/
theorem Bears.step (h : ∀ v, Bears o v (b.pcs v)) (hs : b.step (w, a) = some b')
    (hok : Cautious b (w, a)) (v : Nat) :
    Bears (traced b b' (w, a) o) v (b'.pcs v) := by
  rcases eq_or_ne v w with rfl | hv
  · exact (h v).own hs hok
  · exact (h v).beside hs hv

/-! ## What the files are made of -/

/-- All files are made of messages of publishers that had registered for their boxes. -/
def Authentic (b : Broker) (o : Origins) : Prop :=
  ∀ n, Genuine (b.tfs.file n) (o.pieces n) n o.received

/-- What a section does to a file, other than a write. -/
theorem Calls.file_cases {t : Fs.State} {pc : Pc} (h : Robust b.tfs) (hc : Calls b w pc t)
    (hpc : ∀ i message fhandle, pc ≠ .pubWrite i message fhandle) (n : CStr) :
    t.file n = b.tfs.file n ∨ b.tfs.file n = none ∧ t.file n = some [] ∨ t.file n = none := by
  have hopened : ∀ {p : CStr} {mode : Nat} {r : Int}, hasFlag mode tfsOTrunc = false →
      tfsOpen b.tfs (some p) mode = .ok (t, r) →
      t.file n = b.tfs.file n ∨ b.tfs.file n = none ∧ t.file n = some [] ∨ t.file n = none :=
    fun hno ho => ((called_open h ho).file h.toFilesWf hno n).imp_right Or.inl
  have hread : ∀ {fhandle r : Int} {len : Nat} {bytes : List UInt8},
      tfsRead b.tfs fhandle len = .ok (t, r, bytes) → t.file n = b.tfs.file n := by
    intro fhandle r len bytes hr
    cases called_read h hr with
    | refused => rfl
    | read _ _ hreread => exact hreread.sameFiles.file n
  cases hc with
  | pubOpen ho => exact hopened (by decide) ho
  | pubWrite => exact absurd rfl (hpc _ _ _)
  | historyOpen ho => exact hopened (by decide) ho
  | historyRead hr => exact Or.inl (hread hr)
  | followRead hr => exact Or.inl (hread hr)
  | createFile ho => exact hopened (by decide) ho
  | removeBody hu =>
    rcases (called_unlink h hu).file h.toFilesWf n with hsame | ⟨p, -, -, hgone⟩
    · exact Or.inl hsame
    · exact Or.inr (Or.inr hgone)

/-- The write of a publish. -/
theorem Calls.write_file {t : Fs.State} {fhandle : Int} {named : Nat → Option CStr}
    (hplaced : Placed b named)
    (hparams : b.tfs.fsParams = brokerParams) (hlen : message.length = messageLength)
    (hpc : b.pcs w = .pubWrite i message fhandle) (hc : Calls b w (.pubWrite i message fhandle) t) :
    ∃ c m, b.fileOf i = some c ∧ c.length ≤ boxSize ∧
      (m = 0 ∨ m = min ((messageStr message).length + 1) (boxSize - c.length)) ∧
      ∀ n, t.file n = if n = (b.path i).tail then some (c ++ (message ++ [0]).take m)
        else b.tfs.file n := by
  obtain ⟨-, c, hfile, hcur⟩ := (hplaced.seated w).cursor i message fhandle hpc
  have hword : (messageStr message).length + 1 < 9223372036854775808 := by
    have hle : (messageStr message).length ≤ message.length := CStr.length_ofBytes_le message
    unfold messageLength at hlen
    omega
  have hblock : b.tfs.fsParams.blockSize = boxSize := congrArg TfsParams.blockSize hparams
  cases hc with
  | @pubWrite _ _ _ _ r hw =>
    obtain ⟨hle, hr, hfiles⟩ := appended_of_write hplaced.robust hfile hcur
      (messageStr_fits _) hword hw
    rw [hblock] at hle hr
    refine ⟨c, r.toNat, hfile, hle, ?_, hfiles⟩
    rcases hr with rfl | rfl
    · exact Or.inl rfl
    · exact Or.inr (Int.toNat_natCast _)

/-- The step lemma: a write adds a piece of the box that its publisher has registered
for. -/
theorem Authentic.step (h : Authentic b o) (hplaced : Placed b o.named)
    (hparams : b.tfs.fsParams = brokerParams)
    (hbears : Bears o w (b.pcs w)) (hs : b.step (w, a) = some b') :
    Authentic b' (traced b b' (w, a) o) := by
  have hgrown : ∀ n, Genuine (b'.tfs.file n)
      (grown (b.tfs.file n) (b'.tfs.file n) (o.named w) (o.latest w) (o.pieces n)) n
        o.received := by
    intro n
    rcases step_calls hs with hsame | hcall
    · exact (h n).same (Or.inl (by rw [hsame]))
    by_cases hpc : ∃ i message fhandle, b.pcs w = .pubWrite i message fhandle
    · obtain ⟨i, message, fhandle, hpc⟩ := hpc
      rw [hpc] at hcall hbears
      obtain ⟨hlen, hlatest, hreceived⟩ := hbears
      obtain ⟨c, m, hfile, hle, hm, hfiles⟩ := hcall.write_file hplaced hparams hlen hpc
      rw [hfiles n, ← hlatest]
      by_cases hn : n = (b.path i).tail
      · obtain ⟨hvalid, -⟩ := (hplaced.seated w).cursor i message fhandle hpc
        obtain ⟨-, -, hname⟩ := (hplaced.seated w).flight i (by rw [hpc]; rfl)
        have hold := h (b.path i).tail
        rw [show b.tfs.file (b.path i).tail = some c from hfile] at hold
        rw [if_pos hn, hn, hname, show b.tfs.file (b.path i).tail = some c from hfile]
        exact hold.append hvalid hle (hname ▸ hreceived) hm
      · rw [if_neg hn]
        exact (h n).same (Or.inl rfl)
    · exact (h n).same (hcall.file_cases hplaced.robust (fun i m fh hat => hpc ⟨i, m, fh, hat⟩) n)
  exact fun n => (hgrown n).mono fun x hx => received_traced hx

theorem Placed.of_start (maxSessions : Nat) (clients : Nat → Client)
    (m : Malloc) (fds : Nat → Bool) :
    Placed (start maxSessions clients m fds) fun _ => none where
  robust := initial_robust brokerParams_inRange.usable
  distinct _ _ _ _ hne := absurd (CharArray.str_ofStr .empty (by decide)) hne
  outside _ _ := rfl
  seated _ := .ended rfl
  apart _ _ _ _ _ hreads := nomatch hreads

theorem genuine_of_start (m : Malloc) (n : CStr) : Genuine ((tfsStart m).file n) [] n [] := by
  have hnone : (tfsStart m).file n = none := file_of_absent (lookup_initial _ _ _ _)
  rw [hnone]
  exact .of_absent

/-! ## Runs -/

/-- What holds in every state of a run. -/
structure Traced (s : Broker × Origins) : Prop where
  authentic : Authentic s.1 s.2
  placed : Placed s.1 s.2.named
  bears : ∀ w, Bears s.2 w (s.1.pcs w)
  params : s.1.tfs.fsParams = brokerParams

theorem Traced.step (h : Traced s) (hok : Cautious s.1 e) (hs : witnessed s e = some s') :
    Traced s' := by
  obtain ⟨b', hb', rfl⟩ := Option.map_eq_some_iff.mp hs
  refine ⟨h.authentic.step h.placed h.params (h.bears e.1) hb',
    h.placed.step hb' hok.finds hok.unhurried,
    Bears.step h.bears hb' hok, ?_⟩
  rcases step_calls hb' with hsame | hcall
  · rw [hsame]
    exact h.params
  · exact (hcall.params h.placed.robust).trans h.params

/-- The broker before anything has come. -/
def unwritten (b : Broker) : Broker × Origins := (b, ⟨fun _ => none, fun _ => [], [], fun _ => []⟩)

theorem Traced.of_start (maxSessions : Nat) (clients : Nat → Client)
    (m : Malloc) (fds : Nat → Bool) :
    Traced (start maxSessions clients m fds).unwritten :=
  ⟨fun n => genuine_of_start m n, .of_start maxSessions clients m fds, fun _ => trivial, rfl⟩

end Broker

end MBroker
