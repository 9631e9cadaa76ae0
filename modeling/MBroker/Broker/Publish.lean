import MBroker.Broker.Names
import MBroker.Fs.AnyUse

/-!
# Publishing (`handle_messages_from_publisher`)

A message is appended to the file of the box with `tfs_write`, and then counted in
`box_size`. A write near the end of the block is cut: the file keeps the bytes that
fitted, and the counter does not move.

Results:
1. `publish_allOrNothing_iff`: one publish is all-or-nothing exactly when the
   message is not cut.
2. `published_settled`: in every run of publishers in which no message is cut, the
   counter of a box is the length of its file, and the file is a concatenation of
   terminated messages, whenever no publish is in progress on the box.
3. `publish_cut`: a message that is cut.
-/

namespace MBroker

open FirstFit Transition Fs

/-- The box and the message of the publish that is in progress. -/
def Pc.publishing : Pc → Option (Nat × List UInt8)
  | .pubOpen i message | .pubWrite i message _ | .pubCount i message => some (i, message)
  | _ => none

/-- Where the worker of a publisher may stand, and its local variables there. -/
def PublisherAt (c : Client) : Pc → Prop
  | .idle | .ret _ | .closing => True
  | .registerOpen | .registerBox => c.opcode = opCodeRegistPub
  | .pubOpcode message | .pubMessage message =>
    message.length = messageLength ∧ ∀ i, c.box = some i → i < maxBoxes
  | .pubLock i message | .pubOpen i message | .pubWrite i message _ | .pubCount i message =>
    message.length = messageLength ∧ i < maxBoxes ∧ ∀ j, c.box = some j → j < maxBoxes
  | _ => False

namespace Broker

variable {b b' : Broker} {w i : Nat} {message : List UInt8}

/-! ## One publish -/

/-- The name under which the file of a box is opened. -/
def path (b : Broker) (i : Nat) : CStr := (b.boxes i).boxName.str

/-- The content of the file of a box. -/
def fileOf (b : Broker) (i : Nat) : Option (List UInt8) := b.tfs.file (b.path i).tail

/-- The last section of a publish, if it is reached. -/
def publishCount (b : Broker) (w : Nat) : Broker :=
  match b.pcs w with
  | .pubCount i message => b.pubCount w i message
  | _ => b

/-- The rest of a publish whose `tfs_open` succeeded. -/
def publishWrite (b : Broker) (w : Nat) : Broker :=
  match b.pcs w with
  | .pubWrite i message fhandle => (b.pubWrite w i message fhandle).publishCount w
  | _ => b

/-- What the loop does with a message once it has the lock of the box. -/
def publish (b : Broker) (w i : Nat) (message : List UInt8) : Broker :=
  (b.pubOpen w i message).publishWrite w

/-- The message and its NUL were appended and counted. -/
def Appended (b b' : Broker) (i : Nat) (message : List UInt8) : Prop :=
  ∃ c, b.fileOf i = some c ∧
    b'.tfs.file (b.path i).tail = some (c ++ ((messageStr message).bytes ++ [0])) ∧
    (b'.boxes i).boxSize = addSize (b.boxes i).boxSize ((messageStr message).length + 1)

/-- The file and the counter are as they were. -/
def Untouched (b b' : Broker) (i : Nat) : Prop :=
  b'.tfs.file (b.path i).tail = b.fileOf i ∧ (b'.boxes i).boxSize = (b.boxes i).boxSize

def AllOrNothing (b b' : Broker) (i : Nat) (message : List UInt8) : Prop :=
  Appended b b' i message ∨ Untouched b b' i

/-- Whether `tfs_open` gives a handle on the file of a box. -/
def Opens (b : Broker) (i : Nat) : Prop :=
  validPathname (some (b.path i)) = true ∧ b.tfs.freeHandle ≠ none

/-- The write of the message is not cut: the block is full, or the message fits. An
empty file takes no byte at all when no block is free. -/
def Uncut (b : Broker) (i : Nat) (message : List UInt8) : Prop :=
  ∀ c, b.fileOf i = some c → (c = [] → b.tfs.freeBlock ≠ none) →
    c.length = b.tfs.fsParams.blockSize ∨
      c.length + (messageStr message).length + 1 ≤ b.tfs.fsParams.blockSize

theorem pubOpen_refused {t : Fs.State}
    (h : tfsOpen b.tfs (some (b.path i)) tfsOAppend = .ok (t, -1)) :
    b.pubOpen w i message = ({ b with tfs := t }).endSession w (-1) := by
  rw [path] at h
  simp [pubOpen, h]

theorem pubOpen_opened {t : Fs.State} {j : Nat}
    (h : tfsOpen b.tfs (some (b.path i)) tfsOAppend = .ok (t, (j : Int))) :
    b.pubOpen w i message = ({ b with tfs := t }).setPc w (.pubWrite i message j) := by
  rw [path] at h
  simp [pubOpen, h]

theorem pubWrite_refused {t : Fs.State} {fhandle : Int}
    (h : tfsWrite b.tfs fhandle (message ++ [0]) ((messageStr message).length + 1) = .ok (t, -1)) :
    b.pubWrite w i message fhandle = ({ b with tfs := t }).endSession w (-1) := by
  simp [pubWrite, h]

theorem pubWrite_cut {t : Fs.State} {fhandle : Int} {m : Nat}
    (h : tfsWrite b.tfs fhandle (message ++ [0]) ((messageStr message).length + 1)
      = .ok (t, (m : Int))) (hm : m < (messageStr message).length + 1) :
    b.pubWrite w i message fhandle = ({ b with tfs := t }).endSession w 0 := by
  have hcut : (m : Int) < (((messageStr message).length + 1 : Nat) : Int) := Int.ofNat_lt.mpr hm
  have hnn : ¬ (m : Int) < 0 := Int.not_lt.mpr (Int.natCast_nonneg m)
  simp only [pubWrite, h, if_neg hnn, if_pos hcut]

theorem pubWrite_whole {t : Fs.State} {fhandle : Int} {m : Nat}
    (h : tfsWrite b.tfs fhandle (message ++ [0]) ((messageStr message).length + 1)
      = .ok (t, (m : Int))) (hm : m = (messageStr message).length + 1) :
    b.pubWrite w i message fhandle = ({ b with tfs := t }).setPc w (.pubCount i message) := by
  subst hm
  have hnn : ¬ (((messageStr message).length + 1 : Nat) : Int) < 0 :=
    Int.not_lt.mpr (Int.natCast_nonneg _)
  simp only [pubWrite, h, if_neg hnn, if_neg (lt_irrefl _)]

theorem endSession_frame (b : Broker) (w : Nat) (result : Int) :
    (b.endSession w result).tfs = b.tfs ∧
      (∀ i, ((b.endSession w result).boxes i).boxSize = (b.boxes i).boxSize) ∧
      (b.endSession w result).pcs = Function.update b.pcs w (.ret result) := by
  have hframe := finishClientSession_frame b w
  refine ⟨hframe.tfs, hframe.boxSize, ?_⟩
  rw [← hframe.pcs]
  rfl

theorem publishWrite_endSession (b : Broker) (w : Nat) (result : Int) :
    (b.endSession w result).publishWrite w = b.endSession w result := by
  rw [publishWrite, (endSession_frame b w result).2.2, Function.update_self]

theorem publishCount_endSession (b : Broker) (w : Nat) (result : Int) :
    (b.endSession w result).publishCount w = b.endSession w result := by
  rw [publishCount, (endSession_frame b w result).2.2, Function.update_self]

/-- A session that ends with the file as it was. -/
theorem untouched_endSession {t : Fs.State} {pcs : Nat → Pc} {result : Int}
    (h : t.file (b.path i).tail = b.fileOf i) :
    Untouched b (({ b with tfs := t, pcs := pcs } : Broker).endSession w result) i := by
  obtain ⟨htfs, hsize, -⟩ := endSession_frame { b with tfs := t, pcs := pcs } w result
  refine ⟨?_, hsize i⟩
  rw [htfs]
  exact h

/-- `tfs_open` fails. -/
theorem publish_refused (h : tfsOpen b.tfs (some (b.path i)) tfsOAppend = .ok (b.tfs, -1)) :
    Untouched b (b.publish w i message) i := by
  rw [publish, pubOpen_refused h, publishWrite_endSession]
  exact untouched_endSession rfl

/-- No block is free for an empty file, or the whole message is appended and
counted, or the bytes that fit are appended and nothing is counted. -/
theorem publish_opened (hwf : WellFormed b.tfs) (hm : message.length = messageLength)
    (ho : b.Opens i) {c : List UInt8} (hc : b.fileOf i = some c) {m : Nat}
    (hmin : m = min ((messageStr message).length + 1) (b.tfs.fsParams.blockSize - c.length)) :
    (Untouched b (b.publish w i message) i ∧ c = [] ∧ b.tfs.freeBlock = none) ∨
      (Appended b (b.publish w i message) i message ∧ m = (messageStr message).length + 1) ∨
      ((b.publish w i message).tfs.file (b.path i).tail = some (c ++ (message ++ [0]).take m) ∧
        ((b.publish w i message).boxes i).boxSize = (b.boxes i).boxSize ∧
        m < (messageStr message).length + 1 ∧ ¬ (0 < m ∧ c = [] ∧ b.tfs.freeBlock = none)) := by
  have hlen : (messageStr message).length ≤ message.length := CStr.length_ofBytes_le message
  rcases tfsOpen_cursor hwf ho.1 hc (Or.inl ⟨rfl, rfl⟩) with ⟨-, hnone⟩ |
    ⟨t, j, -, hopen, hwft, hsame, hcursor, -⟩
  · exact absurd hnone ho.2
  have hft : t.file (b.path i).tail = some c := (hsame.file _).trans hc
  have hsize : (messageStr message).length + 1 ≤ (message ++ [0]).length := by
    rw [List.length_append]
    exact Nat.succ_le_succ hlen
  have hword : (messageStr message).length + 1 < 9223372036854775808 := by
    unfold messageLength at hm
    omega
  generalize hb : ({ b with tfs := t } : Broker).setPc w (.pubWrite i message j) = b₁
  have htfs : b₁.tfs = t := by rw [← hb]; rfl
  have hpc : b₁.pcs w = .pubWrite i message j := by rw [← hb]; exact Function.update_self ..
  rw [publish, pubOpen_opened hopen, hb, publishWrite, hpc]
  dsimp only
  rw [← hsame.params] at hmin
  rw [← htfs] at hwft hft hcursor hmin
  rcases tfsWrite_append hwft hft hcursor hsize hword hmin with
    ⟨hwrite, -, hnil, hfull⟩ | ⟨u, hwrite, hdone, hnot⟩
  · rw [htfs, hsame.freeBlock] at hfull
    refine Or.inl ⟨?_, hnil, hfull⟩
    rw [pubWrite_refused hwrite, publishCount_endSession, ← hb]
    exact untouched_endSession (hsame.file _)
  · rw [htfs, hsame.freeBlock] at hnot
    have hfile : u.file (b.path i).tail = some (c ++ (message ++ [0]).take m) := by
      rw [hdone.file, if_pos rfl]
    right
    rcases Nat.lt_or_ge m ((messageStr message).length + 1) with hlt | hge
    · right
      rw [pubWrite_cut hwrite hlt, publishCount_endSession, ← hb]
      obtain ⟨hkeep, hcount, -⟩ := endSession_frame
        { ({ b with tfs := t } : Broker).setPc w (.pubWrite i message j) with tfs := u } w 0
      exact ⟨by rw [hkeep]; exact hfile, hcount i, hlt, hnot⟩
    · left
      obtain rfl : m = (messageStr message).length + 1 := by omega
      rw [pubWrite_whole hwrite rfl, publishCount, setPc_self]
      have hbytes : (message ++ [0]).take ((messageStr message).length + 1)
          = (messageStr message).bytes ++ [0] := CStr.take_ofBytes message
      rw [hbytes] at hfile
      refine ⟨⟨c, hc, hfile, ?_⟩, rfl⟩
      · simp [pubCount, setPc, unlockBox, broadcast, setBox, ← hb]

/-- One publish is all-or-nothing exactly when the box cannot be opened or the write
is not cut: a cut write leaves neither the old file nor the old file with the
message. -/
theorem publish_allOrNothing_iff (hwf : WellFormed b.tfs) (hm : message.length = messageLength) :
    AllOrNothing b (b.publish w i message) i message ↔ (b.Opens i → Uncut b i message) := by
  by_cases hopen : b.Opens i ∧ ∃ c, b.fileOf i = some c
  · obtain ⟨ho, c, hc⟩ := hopen
    have hle : c.length ≤ b.tfs.fsParams.blockSize := file_length_le hwf.toFilesWf hc
    rcases publish_opened (w := w) hwf hm ho hc rfl with ⟨hsame, hnil, hfull⟩ | ⟨hdone, hall⟩ |
      ⟨hfile, hsize, hlt, hnot⟩
    · refine iff_of_true (Or.inr hsame) fun _ c' hc' hfree => ?_
      obtain rfl : c' = c := Option.some.inj (hc'.symm.trans hc)
      exact absurd hfull (hfree hnil)
    · refine iff_of_true (Or.inl hdone) fun _ c' hc' _ => Or.inr ?_
      obtain rfl : c' = c := Option.some.inj (hc'.symm.trans hc)
      omega
    · rcases Nat.eq_or_lt_of_le hle with hfull | hroom
      · refine iff_of_true (Or.inr ⟨?_, hsize⟩) fun _ c' hc' _ => Or.inl ?_
        · rw [hfile, hc, hfull, Nat.sub_self, Nat.min_zero, List.take_zero, List.append_nil]
        · obtain rfl : c' = c := Option.some.inj (hc'.symm.trans hc)
          exact hfull
      -- The write is cut: the new length is neither that of the old file nor that with the message.
      · have hlen : ((message ++ [0]).take (min ((messageStr message).length + 1)
            (b.tfs.fsParams.blockSize - c.length))).length
              = min ((messageStr message).length + 1) (b.tfs.fsParams.blockSize - c.length) := by
          have : (messageStr message).length ≤ message.length := CStr.length_ofBytes_le message
          rw [List.length_take, List.length_append, List.length_singleton]
          omega
        refine iff_of_false ?_ fun huncut => ?_
        · rintro (⟨c', hc', hfile', -⟩ | ⟨hfile', -⟩)
          · obtain rfl : c' = c := Option.some.inj (hc'.symm.trans hc)
            have := congrArg List.length (Option.some.inj (hfile.symm.trans hfile'))
            simp only [List.length_append, hlen, List.length_singleton] at this
            unfold CStr.length at this hlt
            omega
          · have := congrArg List.length (Option.some.inj (hfile.symm.trans (hfile'.trans hc)))
            rw [List.length_append, hlen] at this
            omega
        · rcases huncut ho c hc (fun hnil hfull => hnot ⟨by omega, hnil, hfull⟩) with heq | hfit
          · omega
          · omega
  · refine iff_of_true (Or.inr (publish_refused ?_)) fun ho c hc => absurd ⟨ho, c, hc⟩ hopen
    by_cases hv : validPathname (some (b.path i)) = true
    · cases hc : b.fileOf i with
      | none => exact tfsOpen_absent_file hwf fun _ => hc
      | some c =>
        rcases tfsOpen_cursor hwf hv hc (Or.inl ⟨rfl, rfl⟩) with ⟨hrefused, -⟩ | ⟨t, j, hfree, -⟩
        · exact hrefused
        · exact absurd ⟨⟨hv, by rw [hfree]; exact Option.some_ne_none j⟩, c, hc⟩ hopen
    · exact tfsOpen_absent_file hwf fun hv' => absurd hv' hv

/-! ## Runs of publishers -/

/-- The file of a box is a concatenation of terminated messages, and its counter is
the length of the file. -/
def Settled (b : Broker) (i : Nat) : Prop :=
  ∃ ms : List CStr, (∀ m ∈ ms, m.length ≤ messageLength) ∧
    b.fileOf i = some (TerminatedStream.encode ms) ∧
    (b.boxes i).boxSize = (TerminatedStream.encode ms).length

/-- No worker is in the middle of a publish on a box. -/
def NoPublish (b : Broker) (i : Nat) : Prop := ∀ w message, (b.pcs w).publishing ≠ some (i, message)

/-- A box table with a file for every box, before any publisher has come. -/
structure Ready (b : Broker) : Prop where
  wf : WellFormed b.tfs
  idle : ∀ w, b.pcs w = .idle
  valid : ∀ i < maxBoxes, b.freeBoxes i = false → validPathname (some (b.path i)) = true
  distinct : ∀ i < maxBoxes, ∀ j < maxBoxes, b.freeBoxes i = false → b.path i = b.path j → i = j
  empty : ∀ i < maxBoxes, b.freeBoxes i = true → validPathname (some (b.path i)) = false
  settled : ∀ i < maxBoxes, b.freeBoxes i = false → b.Settled i

/-- Only publishers come, and no write is cut. -/
def UncutStep (b : Broker) (e : Nat × Answer) : Prop :=
  (∀ r, e.2 = .request r → r.opcode = opCodeRegistPub) ∧
    ∀ i message fhandle, b.pcs e.1 = .pubWrite i message fhandle → b.Uncut i message

/-- The file of a box and its counter, the last message of the file perhaps not
counted yet. -/
def Stored (b : Broker) (i : Nat) : Prop :=
  ∃ ms : List CStr, (∀ m ∈ ms, m.length ≤ messageLength) ∧
    b.fileOf i = some (TerminatedStream.encode ms) ∧
    ((∀ w message, b.pcs w ≠ .pubCount i message) →
      (b.boxes i).boxSize = (TerminatedStream.encode ms).length) ∧
    ∀ w message, b.pcs w = .pubCount i message →
      (b.boxes i).boxSize + ((messageStr message).length + 1) = (TerminatedStream.encode ms).length

/-- What holds in every state of a run of publishers that started in `b₀`. -/
structure Publishing (b₀ b : Broker) : Prop where
  wf : WellFormed b.tfs
  freeBoxes : b.freeBoxes = b₀.freeBoxes
  path : ∀ i, b.path i = b₀.path i
  worker : ∀ w, PublisherAt (b.clients w) (b.pcs w)
  /-- a publish in progress holds the lock of its box -/
  locked : ∀ w i message, (b.pcs w).publishing = some (i, message) → (b.boxes i).lock = some w
  /-- the handle of a publish is at the end of the file of the box -/
  cursor : ∀ w i message fh, b.pcs w = .pubWrite i message fh → b.freeBoxes i = false ∧
    ∃ c, b.fileOf i = some c ∧ b.tfs.Cursor fh (b.path i).tail c.length
  apart : ∀ v w i j m m' fh, b.pcs v = .pubWrite i m fh → b.pcs w = .pubWrite j m' fh → v = w
  stored : ∀ i < maxBoxes, b.freeBoxes i = false → b.Stored i

variable {b₀ : Broker}

theorem Publishing.of_ready (h : Ready b) : Publishing b b where
  wf := h.wf
  freeBoxes := rfl
  path _ := rfl
  worker w := by rw [h.idle w]; trivial
  locked w i m hpc := by rw [h.idle w] at hpc; cases hpc
  cursor w i m fh hpc := by rw [h.idle w] at hpc; cases hpc
  apart v w i j m m' fh hpc := by rw [h.idle v] at hpc; cases hpc
  stored i hi hfree := by
    obtain ⟨ms, hms, hfile, hsize⟩ := h.settled i hi hfree
    exact ⟨ms, hms, hfile, fun _ => hsize, fun w m hpc => by rw [h.idle w] at hpc; cases hpc⟩

theorem Stored.settled (h : b.Stored i) (hno : b.NoPublish i) : b.Settled i := by
  obtain ⟨ms, hms, hfile, hidle, -⟩ := h
  refine ⟨ms, hms, hfile, hidle fun w m hpc => hno w m ?_⟩
  rw [hpc]
  rfl

theorem Stored.keep (h : b.Stored i) (hfile : b'.fileOf i = b.fileOf i)
    (hsize : (b'.boxes i).boxSize = (b.boxes i).boxSize)
    (hcount : ∀ w message, b'.pcs w = .pubCount i message ↔ b.pcs w = .pubCount i message) :
    b'.Stored i := by
  obtain ⟨ms, hms, hstored, hidle, hcounting⟩ := h
  refine ⟨ms, hms, hfile.trans hstored, fun hno => ?_, fun w m hpc => ?_⟩
  · exact hsize.trans (hidle fun w m hpc => hno w m ((hcount w m).mpr hpc))
  · exact (congrArg (· + _) hsize).trans (hcounting w m ((hcount w m).mp hpc))

theorem path_eq {x y : Broker} (h : (y.boxes i).boxName = (x.boxes i).boxName) :
    y.path i = x.path i := congrArg CharArray.str h

/-- Worker `w` goes to `pc` after some changes that leave the other publishers in
peace. -/
theorem Publishing.update {x : Broker} {pc : Pc} (h : Publishing b₀ b) (hwf : WellFormed x.tfs)
    (hfree : x.freeBoxes = b.freeBoxes) (hpath : ∀ i, x.path i = b.path i) (hpcs : x.pcs = b.pcs)
    (hclients : ∀ v, v ≠ w → x.clients v = b.clients v)
    (hlock : ∀ v i message, v ≠ w → (b.pcs v).publishing = some (i, message) →
      (x.boxes i).lock = some v)
    (hcursor : ∀ v i message fh n o, v ≠ w → b.pcs v = .pubWrite i message fh →
      b.tfs.Cursor fh n o → x.fileOf i = b.fileOf i ∧ x.tfs.Cursor fh n o)
    (hat : PublisherAt (x.clients w) pc)
    (hown : ∀ i message, pc.publishing = some (i, message) → (x.boxes i).lock = some w)
    (hopened : ∀ i message fh, pc = .pubWrite i message fh →
      (b.freeBoxes i = false ∧ ∃ c, x.fileOf i = some c ∧
        x.tfs.Cursor fh (x.path i).tail c.length) ∧
        ∀ v j message', b.pcs v ≠ .pubWrite j message' fh)
    (hstored : ∀ i < maxBoxes, b.freeBoxes i = false → (x.setPc w pc).Stored i) :
    Publishing b₀ (x.setPc w pc) := by
  have hsame : ∀ v, v ≠ w → (x.setPc w pc).pcs v = b.pcs v := fun v hv =>
    (setPc_of_ne x pc hv).trans (congrFun hpcs v)
  -- Each clause is about the worker that moved or about another one.
  refine ⟨hwf, hfree.trans h.freeBoxes, fun i => (hpath i).trans (h.path i), fun v => ?_,
    fun v i m hpc => ?_, fun v i m fh hpc => ?_, fun v v' i j m m' fh hv hv' => ?_,
    fun i hi hf => hstored i hi (hfree ▸ hf)⟩
  · rcases eq_or_ne v w with rfl | hne
    · rw [setPc_self]
      exact hat
    · rw [hsame v hne, show (x.setPc w pc).clients v = b.clients v from hclients v hne]
      exact h.worker v
  · rcases eq_or_ne v w with rfl | hne
    · rw [setPc_self] at hpc
      exact hown i m hpc
    · exact hlock v i m hne (hsame v hne ▸ hpc)
  · rcases eq_or_ne v w with rfl | hne
    · rw [setPc_self] at hpc
      obtain ⟨hf, hc⟩ := (hopened i m fh hpc).1
      exact ⟨hfree ▸ hf, hc⟩
    · rw [hsame v hne] at hpc
      obtain ⟨hf, c, hc, hcur⟩ := h.cursor v i m fh hpc
      obtain ⟨hfile, hcur'⟩ := hcursor v i m fh _ _ hne hpc hcur
      exact ⟨hfree ▸ hf, c, hfile.trans hc, (hpath i).symm ▸ hcur'⟩
  · rcases eq_or_ne v w with rfl | hne
    · rcases eq_or_ne v' v with rfl | hne'
      · rfl
      · rw [setPc_self] at hv
        rw [hsame v' hne'] at hv'
        exact absurd hv' ((hopened i m fh hv).2 v' j m')
    · rcases eq_or_ne v' w with rfl | hne'
      · rw [setPc_self] at hv'
        rw [hsame v hne] at hv
        exact absurd hv ((hopened j m' fh hv').2 v i m)
      · exact h.apart v v' i j m m' fh (hsame v hne ▸ hv) (hsame v' hne' ▸ hv')

/-- Worker `w` was not about to count a message, and is not now. -/
theorem pubCount_setPc_iff {x : Broker} {pc : Pc} (hpcs : x.pcs = b.pcs)
    (hold : ∀ i message, b.pcs w ≠ .pubCount i message)
    (hnew : ∀ i message, pc ≠ .pubCount i message)
    (v : Nat) (message : List UInt8) :
    (x.setPc w pc).pcs v = .pubCount i message ↔ b.pcs v = .pubCount i message := by
  rcases eq_or_ne v w with rfl | hne
  · rw [setPc_self]
    exact iff_of_false (hnew i message) (hold i message)
  · rw [setPc_of_ne x pc hne, hpcs]

/-- The file system is not used. -/
theorem Publishing.moves {x : Broker} {pc : Pc} (h : Publishing b₀ b) (hf : Frame b x w)
    (hold : ∀ i message, b.pcs w ≠ .pubCount i message) (hnew : pc.publishing = none)
    (hat : PublisherAt (x.clients w) pc) : Publishing b₀ (x.setPc w pc) := by
  have hfile : ∀ i, x.fileOf i = b.fileOf i := fun i => by
    rw [fileOf, fileOf, path_eq (hf.boxName i), hf.tfs]
  refine h.update (hf.tfs ▸ h.wf) hf.freeBoxes (fun i => path_eq (hf.boxName i)) hf.pcs hf.clients
    (fun v i m _ hpc => (hf.lock i).trans (h.locked v i m hpc))
    (fun v i m fh n o _ _ hcur => ⟨hfile i, hf.tfs ▸ hcur⟩) hat ?_ ?_ fun i hi hfree => ?_
  · rintro i m hpc
    rw [hnew] at hpc
    cases hpc
  · rintro i m fh rfl
    cases hnew
  · refine (h.stored i hi hfree).keep (hfile i) (hf.boxSize i)
      fun v m => pubCount_setPc_iff hf.pcs hold ?_ v m
    rintro j m' rfl
    cases hnew

theorem Publishing.crash (h : Publishing b₀ b) : Publishing b₀ b.crash :=
  ⟨h.wf, h.freeBoxes, h.path, h.worker, h.locked, h.cursor, h.apart, h.stored⟩

theorem Publishing.endSession (h : Publishing b₀ b)
    (hold : ∀ i message, b.pcs w ≠ .pubCount i message) (result : Int) :
    Publishing b₀ (b.endSession w result) :=
  h.moves (finishClientSession_frame b w) hold rfl trivial

theorem Publishing.lockBox (h : Publishing b₀ b) (hpc : b.pcs w = .pubLock i message)
    (hs : b.lockBox w i (.pubOpen i message) = some b') : Publishing b₀ b' := by
  have hat := h.worker w
  rw [hpc] at hat
  have hold : ∀ j m, b.pcs w ≠ .pubCount j m := by rw [hpc]; simp
  unfold Broker.lockBox at hs
  split at hs
  · next hlock =>
    obtain rfl := Option.some.inj hs
    have hname : ∀ j, ((b.setBox i { b.boxes i with lock := some w }).boxes j).boxName
        = (b.boxes j).boxName := field_setBox Box.boxName rfl
    have hsize : ∀ j, ((b.setBox i { b.boxes i with lock := some w }).boxes j).boxSize
        = (b.boxes j).boxSize := field_setBox Box.boxSize rfl
    have hfile : ∀ j, (b.setBox i { b.boxes i with lock := some w }).fileOf j = b.fileOf j :=
      fun j => congrArg (fun p => b.tfs.file (CStr.tail p)) (path_eq (hname j))
    refine h.update h.wf rfl (fun j => path_eq (hname j)) rfl (fun _ _ => rfl)
      (fun v j m hne hv => ?_) (fun v j m fh n o _ _ hcur => ⟨hfile j, hcur⟩) hat ?_ ?_
      fun j hj hfree => ?_
    · have hheld := h.locked v j m hv
      rcases eq_or_ne j i with rfl | hji
      · rw [hlock] at hheld
        cases hheld
      · rw [setBox_of_ne _ _ hji]
        exact hheld
    · rintro j m ⟨⟩
      rw [setBox_self]
    · rintro j m fh ⟨⟩
    · exact (h.stored j hj hfree).keep (hfile j) (hsize j)
        fun v m => pubCount_setPc_iff rfl hold (by simp) v m
  · cases hs

theorem Publishing.pubOpen (hr : Ready b₀) (h : Publishing b₀ b)
    (hpc : b.pcs w = .pubOpen i message) : Publishing b₀ (b.pubOpen w i message) := by
  have hat := h.worker w
  rw [hpc] at hat
  obtain ⟨hlen, hi, hbox⟩ := hat
  have hold : ∀ j m, b.pcs w ≠ .pubCount j m := by rw [hpc]; simp
  by_cases hv : validPathname (some (b.path i)) = true
  · have hfree : b.freeBoxes i = false := by
      by_contra hc
      rw [Bool.not_eq_false, h.freeBoxes] at hc
      rw [h.path, hr.empty i hi hc] at hv
      cases hv
    obtain ⟨ms, -, hc, -⟩ := h.stored i hi hfree
    rcases tfsOpen_cursor h.wf hv hc (Or.inl ⟨rfl, rfl⟩) with ⟨hrefused, -⟩ |
      ⟨t, j, -, hopen, hwf, hsame, hcur, hothers⟩
    · rw [pubOpen_refused hrefused]
      exact h.endSession hold _
    · rw [pubOpen_opened hopen]
      have hfile : ∀ j, ({ b with tfs := t } : Broker).fileOf j = b.fileOf j :=
        fun j => hsame.file _
      refine h.update (x := { b with tfs := t }) hwf rfl (fun _ => rfl) rfl (fun _ _ => rfl)
        (fun v j m _ hv' => h.locked v j m hv')
        (fun v j m fh n o _ _ hfh => ⟨hfile j, (hothers fh n o hfh).2⟩) ⟨hlen, hi, hbox⟩ ?_ ?_
        fun j' hj' hfree' => ?_
      · rintro j' m ⟨⟩
        exact h.locked w i message (by rw [hpc]; rfl)
      · rintro j' m fh ⟨⟩
        refine ⟨⟨hfree, _, (hfile i).trans hc, hcur⟩, fun v j' m' hv' => ?_⟩
        obtain ⟨-, c', -, hc'⟩ := h.cursor v j' m' _ hv'
        exact (hothers _ _ _ hc').1 rfl
      · exact (h.stored j' hj' hfree').keep (hfile j') rfl
          fun v m => pubCount_setPc_iff rfl hold (by simp) v m
  · rw [pubOpen_refused (tfsOpen_absent_file h.wf fun hv' => absurd hv' hv)]
    exact h.endSession hold _

/-- A write on the file of box `i` that is done: the worker goes on to count, or
leaves because nothing was written. -/
theorem Publishing.wrote (hr : Ready b₀) (h : Publishing b₀ b) {fh : Int} {t : Fs.State}
    {c : List UInt8} {x : Broker} {pc : Pc} (hpc : b.pcs w = .pubWrite i message fh)
    (hdone : Rewritten b.tfs t fh (b.path i).tail c) (hf : Frame { b with tfs := t } x w)
    (hat : PublisherAt (x.clients w) pc) (hown : ∀ j m, pc.publishing = some (j, m) → j = i)
    (hnot : ∀ j m fh, pc ≠ .pubWrite j m fh) (hcount : ∀ j m, pc = .pubCount j m → j = i)
    (hstored : i < maxBoxes → (x.setPc w pc).Stored i) : Publishing b₀ (x.setPc w pc) := by
  obtain ⟨halloc, c₀, hc₀, hcur⟩ := h.cursor w i message fh hpc
  have hheld : (b.boxes i).lock = some w := h.locked w i message (by rw [hpc]; rfl)
  have hiv : i < maxBoxes := by
    have := h.worker w
    rw [hpc] at this
    exact this.2.1
  have hpath : ∀ j, x.path j = b.path j := fun j => path_eq (hf.boxName j)
  have htfs : x.tfs = t := hf.tfs
  have hvalid : ∀ j < maxBoxes, b.freeBoxes j = false → validPathname (some (b.path j)) = true := by
    intro j hj hfree
    rw [h.path]
    exact hr.valid j hj (h.freeBoxes ▸ hfree)
  -- the other boxes have other files
  have hfile : ∀ j < maxBoxes, b.freeBoxes j = false → j ≠ i → x.fileOf j = b.fileOf j := by
    intro j hj hfree hji
    rw [fileOf, hpath, htfs, hdone.file, if_neg, fileOf]
    intro htail
    have hsame := path_of_tail (hvalid j hj hfree) (hvalid i hiv halloc) htail
    rw [h.path, h.path] at hsame
    exact hji (hr.distinct j hj i hiv (h.freeBoxes ▸ hfree) hsame)
  refine h.update (htfs ▸ hdone.wf) hf.freeBoxes hpath hf.pcs hf.clients ?_ ?_ hat ?_ ?_ ?_
  · exact fun v j m _ hv => (hf.lock j).trans (h.locked v j m hv)
  · intro v j m fh' n o hne hv hfh
    have hjv : j < maxBoxes := by
      have := h.worker v
      rw [hv] at this
      exact this.2.1
    have hji : j ≠ i := by
      rintro rfl
      have := h.locked v j m (by rw [hv]; rfl)
      rw [hheld] at this
      exact hne (Option.some.inj this).symm
    have hfh' : fh' ≠ fh := by
      rintro rfl
      exact hne (h.apart v w j i m message fh' hv hpc)
    exact ⟨hfile j hjv (h.cursor v j m fh' hv).1 hji, htfs ▸ hdone.cursor hfh' hfh⟩
  · intro j m hj
    obtain rfl := hown j m hj
    exact (hf.lock j).trans hheld
  · exact fun j m fh' hj => absurd hj (hnot j m fh')
  · intro j hj hfree
    rcases eq_or_ne j i with rfl | hji
    · exact hstored hj
    · refine (h.stored j hj hfree).keep (hfile j hj hfree hji) (hf.boxSize j) fun v m => ?_
      rcases eq_or_ne v w with rfl | hne
      · rw [setPc_self, hpc]
        exact iff_of_false (fun hc => hji (hcount j m hc)) (by simp)
      · rw [setPc_of_ne x pc hne, hf.pcs]

theorem Publishing.pubWrite (hr : Ready b₀) (h : Publishing b₀ b) {fh : Int}
    (hpc : b.pcs w = .pubWrite i message fh) (huncut : b.Uncut i message) :
    Publishing b₀ (b.pubWrite w i message fh) := by
  have hat := h.worker w
  rw [hpc] at hat
  obtain ⟨hlen, hi, hbox⟩ := hat
  have hold : ∀ j m, b.pcs w ≠ .pubCount j m := by rw [hpc]; simp
  obtain ⟨halloc, c, hc, hcur⟩ := h.cursor w i message fh hpc
  obtain ⟨ms, hms, hencode, hidle, -⟩ := h.stored i hi halloc
  obtain rfl : c = TerminatedStream.encode ms := Option.some.inj (hc.symm.trans hencode)
  have hle := file_length_le h.wf.toFilesWf hc
  have hstr : (messageStr message).length ≤ message.length := CStr.length_ofBytes_le message
  have hheld : (b.boxes i).lock = some w := h.locked w i message (by rw [hpc]; rfl)
  have hnobody : ∀ v m, b.pcs v ≠ .pubCount i m := by
    intro v m hv
    have := h.locked v i m (by rw [hv]; rfl)
    rw [hheld] at this
    obtain rfl := Option.some.inj this
    exact hold i m hv
  have hsize := hidle hnobody
  rcases tfsWrite_append h.wf hc hcur (show (messageStr message).length + 1
    ≤ (message ++ [0]).length by
      rw [List.length_append]; exact Nat.succ_le_succ hstr)
    (by unfold messageLength at hlen; omega) rfl with
    ⟨hwrite, -⟩ | ⟨t, hwrite, hdone, hnot⟩
  · rw [pubWrite_refused hwrite]
    exact h.endSession hold _
  generalize hm : min ((messageStr message).length + 1)
    (b.tfs.fsParams.blockSize - (TerminatedStream.encode ms).length) = m at hwrite hdone hnot
  -- Nothing or everything is written: the file is full, or the message fits.
  have hcase : m = 0 ∨ m = (messageStr message).length + 1 := by
    rcases Nat.eq_zero_or_pos m with hzero | hpos
    · exact Or.inl hzero
    · rcases huncut _ hc fun hnil hfull => hnot ⟨hpos, hnil, hfull⟩ with hfull | hfit
      · omega
      · exact Or.inr (by omega)
  rcases hcase with rfl | rfl
  · rw [pubWrite_cut hwrite (Nat.succ_pos _)]
    rw [List.take_zero, List.append_nil] at hdone
    have hf := finishClientSession_frame { b with tfs := t } w
    refine h.wrote hr hpc hdone hf trivial (by simp [Pc.publishing]) (by simp) (by simp) fun _ => ?_
    refine (h.stored i hi halloc).keep ?_ (hf.boxSize i)
      fun v m => pubCount_setPc_iff hf.pcs hold (by simp) v m
    refine Eq.trans (b := t.file (b.path i).tail) ?_ ?_
    · exact congrArg₂ State.file hf.tfs (congrArg CStr.tail (path_eq (hf.boxName i)))
    · rw [hdone.file, if_pos rfl, hc]
  · rw [pubWrite_whole hwrite rfl]
    have hbytes : (message ++ [0]).take ((messageStr message).length + 1)
        = (messageStr message).bytes ++ [0] := CStr.take_ofBytes message
    rw [hbytes, ← TerminatedStream.encode_concat] at hdone
    refine h.wrote hr hpc hdone (Frame.refl _ w) ⟨hlen, hi, hbox⟩
      (by simp [Pc.publishing]) (by simp)
      (by simp) fun _ => ⟨ms ++ [messageStr message], fun m hm => ?_, ?_, fun hno => ?_,
        fun v m hv => ?_⟩
    · rcases List.mem_append.mp hm with hold | hnew
      · exact hms m hold
      · obtain rfl := List.mem_singleton.mp hnew
        omega
    · exact (hdone.file _).trans (if_pos rfl)
    -- The size is behind the file while a publisher is at `pubCount`, as `w` is now.
    · exact absurd (setPc_self _ w _) (hno w message)
    · rcases eq_or_ne v w with rfl | hne
      · rw [setPc_self] at hv
        cases hv
        rw [TerminatedStream.encode_concat, List.length_append, List.length_append, ← hsize]
        rfl
      · rw [setPc_of_ne _ _ hne] at hv
        exact absurd hv (hnobody v m)

/-- Nobody sleeps while there are publishers only. -/
theorem broadcast_of_publishers (h : ∀ v, PublisherAt (b.clients v) (b.pcs v)) (i : Nat) :
    b.broadcast i = b := by
  have hpcs : (fun v => if b.pcs v = .asleep i (b.boxes i).cond then Pc.followLock i else b.pcs v)
      = b.pcs := by
    funext v
    refine if_neg fun hv => ?_
    have hat := h v
    rw [hv] at hat
    exact hat
  rw [broadcast, hpcs]

theorem Publishing.pubCount (h : Publishing b₀ b) (hpc : b.pcs w = .pubCount i message) :
    Publishing b₀ (b.pubCount w i message) := by
  have hat := h.worker w
  rw [hpc] at hat
  obtain ⟨hlen, hi, hbox⟩ := hat
  have hheld : (b.boxes i).lock = some w := h.locked w i message (by rw [hpc]; rfl)
  generalize hn : addSize (b.boxes i).boxSize ((messageStr message).length + 1) = n
  have heq : b.pubCount w i message
      = (b.setBox i { b.boxes i with boxSize := n, lock := none }).setPc w
        (.pubOpcode message) := by
    have hawake :=
      broadcast_of_publishers (b := b.setBox i { b.boxes i with boxSize := n }) h.worker i
    simp only [Broker.pubCount, hn, hawake]
    simp [unlockBox, setBox]
  have hname : ∀ j, ((b.setBox i { b.boxes i with boxSize := n, lock := none }).boxes j).boxName
      = (b.boxes j).boxName := field_setBox Box.boxName rfl
  have hfile : ∀ j, (b.setBox i { b.boxes i with boxSize := n, lock := none }).fileOf j
    = b.fileOf j :=
    fun j => congrArg (fun p => b.tfs.file (CStr.tail p)) (path_eq (hname j))
  have hother : ∀ v j m, v ≠ w → (b.pcs v).publishing = some (j, m) → j ≠ i := by
    rintro v j m hne hv rfl
    have := h.locked v j m hv
    rw [hheld] at this
    exact hne (Option.some.inj this).symm
  rw [heq]
  refine h.update h.wf rfl (fun j => path_eq (hname j)) rfl (fun _ _ => rfl)
    (fun v j m hne hv => ?_)
    (fun v j m fh n o _ _ hcur => ⟨hfile j, hcur⟩) ⟨hlen, hbox⟩ (by simp [Pc.publishing]) (by simp)
    fun j hj hfree => ?_
  · rw [setBox_of_ne _ _ (hother v j m hne hv)]
    exact h.locked v j m hv
  · rcases eq_or_ne j i with rfl | hji
    · obtain ⟨ms, hms, hencode, -, hcounting⟩ := h.stored j hj hfree
      have hcount := hcounting w message hpc
      have hle := file_length_le h.wf.toFilesWf hencode
      have hint := h.wf.root.block_int
      refine ⟨ms, hms, (hfile j).trans hencode, fun _ => ?_, fun v m hv => ?_⟩
      · rw [← hcount, ← addSize_of_lt (by unfold word; omega), hn]
        exact congrArg Box.boxSize (setBox_self ..)
      · rcases eq_or_ne v w with rfl | hne
        · rw [setPc_self] at hv
          cases hv
        · rw [setPc_of_ne _ _ hne] at hv
          exact absurd rfl (hother v j m hne (by rw [show b.pcs v = _ from hv]; rfl))
    · refine (h.stored j hj hfree).keep (hfile j)
        (congrArg Box.boxSize (setBox_of_ne _ _ hji)) fun v m => ?_
      rcases eq_or_ne v w with rfl | hne
      · rw [setPc_self, hpc]
        exact iff_of_false (by simp) (by simp [hji.symm])
      · rw [setPc_of_ne _ _ hne]
        exact Iff.rfl

theorem Publishing.registerOpen (h : Publishing b₀ b) (hpc : b.pcs w = .registerOpen)
    {path : CStr} {fd : Option Nat} (hs : b.registerOpen w path fd = some b') :
    Publishing b₀ b' := by
  have hat := h.worker w
  rw [hpc] at hat
  have hold : ∀ j m, b.pcs w ≠ .pubCount j m := by rw [hpc]; simp
  replace hs := (Option.ite_none_right_eq_some.mp hs).2
  cases fd with
  | none =>
    obtain rfl := Option.some.inj hs
    exact h.moves (Frame.refl b w) hold rfl trivial
  | some fd =>
    obtain ⟨x, hx, hs⟩ := Option.bind_eq_some_iff.mp hs
    obtain rfl := Option.some.inj hs
    obtain ⟨-, rfl⟩ := takeFd_eq_some.mp hx
    refine h.moves ((fds_frame b w _).trans (setClient_frame _ w _)) hold rfl ?_
    rw [setClient_self]
    exact hat

theorem Publishing.registerBox (h : Publishing b₀ b) (hpc : b.pcs w = .registerBox)
    {stack : List UInt8} (hlen : stack.length = messageLength) :
    Publishing b₀ (b.registerBox w stack) := by
  have hat := h.worker w
  rw [hpc] at hat
  have hold : ∀ j m, b.pcs w ≠ .pubCount j m := by rw [hpc]; simp
  cases hbox : b.getBox (b.clients w).boxName.str with
  | none =>
    rw [registerBox_absent hbox]
    exact h.moves (close_frame b w _) hold rfl trivial
  | some i =>
    by_cases hone : (b.boxes i).nPublishers = 1
    · rw [registerBox_rejected hbox hat hone]
      exact h.moves ((setClient_frame b w _).trans (finishClientSession_frame _ w)) hold rfl trivial
    · rw [registerBox_publisher hbox hat hone]
      refine h.moves ((setClient_frame b w _).trans
        (setBox_frame _ w i _ (b.boxes i).nSubscribers)) hold rfl ⟨hlen, fun j hj => ?_⟩
      have hj' : some i = some j := (congrArg Client.box (setClient_self b w _)).symm.trans hj
      rw [← Option.some.inj hj']
      exact getBox_lt hbox

/-- A read: the pipe is closed and the session ends, or there are bytes. -/
theorem Publishing.pipeClosed (h : Publishing b₀ b) (hold : ∀ j m, b.pcs w ≠ .pubCount j m) :
    Publishing b₀ (b.pipeClosed w) := by
  unfold Broker.pipeClosed
  split
  · exact h.endSession hold 0
  · exact h.moves (Frame.refl b w) hold rfl trivial

theorem Publishing.pubOpcode (h : Publishing b₀ b) (hpc : b.pcs w = .pubOpcode message)
    {bytes : List UInt8} (hs : b.pubOpcode w message bytes = some b') : Publishing b₀ b' := by
  have hat := h.worker w
  rw [hpc] at hat
  have hold : ∀ j m, b.pcs w ≠ .pubCount j m := by rw [hpc]; simp
  unfold Broker.pubOpcode at hs
  split at hs
  · split at hs
    · obtain rfl := Option.some.inj hs
      exact h.pipeClosed hold
    · obtain rfl := Option.some.inj hs
      exact h.moves (Frame.refl b w) hold rfl hat
  · cases hs

theorem Publishing.pubMessage (h : Publishing b₀ b) (hpc : b.pcs w = .pubMessage message)
    {bytes : List UInt8} (hs : b.pubMessage w message bytes = some b') : Publishing b₀ b' := by
  have hat := h.worker w
  rw [hpc] at hat
  obtain ⟨hlen, hbox⟩ := hat
  have hold : ∀ j m, b.pcs w ≠ .pubCount j m := by rw [hpc]; simp
  unfold Broker.pubMessage at hs
  split at hs
  · next hread =>
    have hle : bytes.length ≤ messageLength := of_decide_eq_true hread
    split at hs
    · obtain rfl := Option.some.inj hs
      exact h.pipeClosed hold
    · cases hc : (b.clients w).box with
      | none =>
        rw [hc] at hs
        obtain rfl := Option.some.inj hs
        exact h.crash
      | some i =>
        rw [hc] at hs
        obtain rfl := Option.some.inj hs
        refine h.moves (Frame.refl b w) hold rfl ⟨?_, hbox i hc, hbox⟩
        rw [List.length_append, List.length_drop, hlen]
        omega
  · cases hs

theorem Publishing.step (hr : Ready b₀) (h : Publishing b₀ b)
    {e : Nat × Answer} (hok : UncutStep b e)
    (hs : b.step e = some b') : Publishing b₀ b' := by
  obtain ⟨w, a⟩ := e
  obtain ⟨-, -, hs⟩ := step_eq_some.mp hs
  have hat := h.worker w
  have hstart : (∀ i m, b.pcs w ≠ .pubCount i m) → ∀ pc : Pc, pc.publishing = none →
      PublisherAt (b.clients w) pc → Publishing b₀ (b.setPc w pc) :=
    fun hold pc hnew hat => h.moves (Frame.refl b w) hold hnew hat
  dsimp only at hs
  cases hpc : b.pcs w with
  | idle =>
    rw [hpc] at hs
    cases a with
    | request r =>
      obtain rfl := Option.some.inj hs
      have hop : r.opcode = opCodeRegistPub := hok.1 r rfl
      have hnext : handlerOf r.opcode = .registerOpen := if_pos (Or.inl hop)
      have hframe := setClient_frame b w
        { b.clients w with
          opcode := r.opcode
          clientPipename := r.clientPipename
          boxName := if r.opcode ≠ opCodeListBoxes then r.boxName else (b.clients w).boxName }
      have hquiet : (handlerOf r.opcode).publishing = none := by
        rw [hnext]
        rfl
      have hmoved := h.moves (w := w) hframe (by rw [hpc]; simp) hquiet
        (by rw [hnext, setClient_self]; exact hop)
      exact ⟨hmoved.wf, hmoved.freeBoxes, hmoved.path, hmoved.worker, hmoved.locked, hmoved.cursor,
        hmoved.apart, hmoved.stored⟩
    | _ => cases hs
  | ret result =>
    rw [hpc] at hs hstart
    cases a with
    | none =>
      obtain rfl := Option.some.inj hs
      unfold returned
      split
      · split
        · exact h.crash
        · exact hstart (by simp) .closing rfl trivial
      · exact hstart (by simp) .idle rfl trivial
    | _ => cases hs
  | closing =>
    rw [hpc] at hs
    cases a <;> cases hs
  | registerOpen =>
    rw [hpc] at hs
    cases a with
    | opened path fd => exact h.registerOpen hpc hs
    | _ => cases hs
  | registerBox =>
    rw [hpc] at hs
    cases a with
    | stack garbage =>
      by_cases hlen : garbage.length = messageLength
      · obtain rfl := Option.some.inj ((if_pos hlen).symm.trans hs)
        exact h.registerBox hpc hlen
      · cases (if_neg hlen).symm.trans hs
    | _ => cases hs
  | pubOpcode message =>
    rw [hpc] at hs
    cases a with
    | read bytes => exact h.pubOpcode hpc hs
    | _ => cases hs
  | pubMessage message =>
    rw [hpc] at hs
    cases a with
    | read bytes => exact h.pubMessage hpc hs
    | _ => cases hs
  | pubLock i message =>
    rw [hpc] at hs
    cases a with
    | none => exact h.lockBox hpc hs
    | _ => cases hs
  | pubOpen i message =>
    rw [hpc] at hs
    cases a with
    | none =>
      obtain rfl := Option.some.inj hs
      exact h.pubOpen hr hpc
    | _ => cases hs
  | pubWrite i message fhandle =>
    rw [hpc] at hs
    cases a with
    | none =>
      obtain rfl := Option.some.inj hs
      exact h.pubWrite hr hpc (hok.2 i message fhandle hpc)
    | _ => cases hs
  | pubCount i message =>
    rw [hpc] at hs
    cases a with
    | none =>
      obtain rfl := Option.some.inj hs
      exact h.pubCount hpc
    | _ => cases hs
  | _ =>
    rw [hpc] at hat
    exact hat.elim

/-- Publishing is all-or-nothing exactly where no write is cut, and in every run of
publishers in which no write is cut the counter of a box is the length of its file,
and the file is a concatenation of messages, whenever no publish is in progress. -/
theorem published_settled (b : Broker) :
    (∀ (w i : Nat) (message : List UInt8), WellFormed b.tfs → message.length = messageLength →
      (AllOrNothing b (b.publish w i message) i message ↔ (b.Opens i → Uncut b i message))) ∧
    ∀ b₀ : Broker, Ready b₀ → Reaches Broker.step UncutStep b₀ b →
      ∀ i < maxBoxes, b.freeBoxes i = false → b.NoPublish i → b.Settled i := by
  refine ⟨fun w i message hwf hm => publish_allOrNothing_iff hwf hm,
    fun b₀ hr hrun i hi hfree hno => ?_⟩
  have hinv := hrun.invariant (Publishing.of_ready hr) fun _ _ _ h hok hs => h.step hr hok hs
  exact (hinv.stored i hi hfree).settled hno

/-! ## A broker with one box -/

theorem oneFile_robust {m : Malloc} {n : CStr} (hpos : 0 < n.length) (hlen : n.length ≤ 39) :
    Robust (oneFile m n) := by
  have hlt : 1 < brokerParams.maxInodeCount := by decide
  have hstart : Robust (tfsStart m) := initial_robust brokerParams_inRange.usable
  have hcreated := hstart.createFile tfsStart_freeInode tfsStart_freeSlot hpos
    hlen (lookup_initial _ _ _ _)
  refine hcreated.openHandle (by decide) hlt (Or.inl ?_) (Nat.zero_le _)
  rw [inodeTable_createFile]
  exact ⟨rfl, rfl⟩

/-- TecnicoFS with `bytes` in its only file. -/
theorem first_filled (m : Malloc) {n : CStr} (hpos : 0 < n.length) (hlen : n.length ≤ 39)
    {bytes : List UInt8} (hle : bytes.length ≤ boxSize) :
    ∃ t, WellFormed t ∧ t.fsParams = brokerParams ∧
      (∀ n', t.file n' = if n' = n then some bytes else none) ∧ t.freeHandle = some 1 := by
  have hwf := oneFile_wellFormed (m := m) hpos hlen
  have hparams : (oneFile m n).fsParams = brokerParams := (sameFiles_openHandle _ _ _).params
  have hfile : (oneFile m n).file n = some [] := (oneFile_file hpos hlen n).trans (if_pos rfl)
  have hmin : bytes.length = min bytes.length ((oneFile m n).fsParams.blockSize - 0) := by
    rw [hparams]
    exact (Nat.min_eq_left hle).symm
  rcases tfsWrite_append hwf hfile (oneFile_cursor hpos hlen) (Nat.le_refl bytes.length)
    (by unfold boxSize at hle; omega) hmin with ⟨-, -, -, hnone⟩ | ⟨t, hwrite, hdone, -⟩
  · rw [oneFile_freeBlock] at hnone
    cases hnone
  · refine ⟨t, hdone.wf, hdone.params.trans hparams, fun n' => ?_, ?_⟩
    · rw [hdone.file, oneFile_file hpos hlen, List.nil_append, List.take_length]
      by_cases hn : n' = n <;> simp [hn]
    · have hrobust : Robust (oneFile m n) := oneFile_robust hpos hlen
      have hstep : fsStep (oneFile m n) (.tfsWrite 0 bytes) = some t := fsStep_eq_some.mpr ⟨_, by
        rw [tfsStep, hwrite]
        rfl⟩
      have hsame : t.freeOpenFileEntries = (oneFile m n).freeOpenFileEntries := by
        cases hrobust.called hstep with
        | refused => rfl
        | wrote _ _ hw => cases hw <;> rfl
      rw [← oneFile_freeHandle (m := m) (n := n), State.freeHandle,
        State.freeHandle, hsame, hdone.params]

/-- A broker that serves no request and has the box `/a`, of which it counts `size`
bytes. -/
def oneBox (t : Fs.State) (size : Nat) : Broker :=
  { fresh 1 with
    numBoxes := 1
    freeBoxes := Function.update (fun _ => true) 0 false
    boxes := Function.update (fun _ => staticBox) 0 ⟨sampleName, size, 0, 0, 1, none⟩
    tfs := t }

theorem oneBox_used {t : Fs.State} {size : Nat} : (oneBox t size).freeBoxes i = false ↔ i = 0 := by
  rcases eq_or_ne i 0 with rfl | hi
  · simp [oneBox]
  · simp [oneBox, hi]

theorem oneBox_path {t : Fs.State} {size : Nat} : (oneBox t size).path 0 = sampleName.str := by
  simp [path, oneBox]

theorem oneBox_path_of_ne {t : Fs.State} {size : Nat} (hi : i ≠ 0) :
    (oneBox t size).path i = .empty := by
  simp only [path, oneBox, Function.update_of_ne hi]
  exact CharArray.str_ofStr .empty (by decide)

theorem oneBox_ready {t : Fs.State} {ms : List CStr} (hwf : WellFormed t)
    (hms : ∀ m ∈ ms, m.length ≤ messageLength)
    (hfile : t.file sampleName.str.tail = some (TerminatedStream.encode ms)) :
    Ready (oneBox t (TerminatedStream.encode ms).length) where
  wf := hwf
  idle _ := rfl
  valid i _ hused := by
    obtain rfl := oneBox_used.mp hused
    rw [oneBox_path]
    decide
  distinct i _ j _ hused hpath := by
    obtain rfl := oneBox_used.mp hused
    by_contra hj
    rw [oneBox_path, oneBox_path_of_ne (Ne.symm hj)] at hpath
    exact absurd hpath (by decide)
  empty i _ hfree := by
    have hi : i ≠ 0 := fun h => by
      rw [oneBox_used.mpr h] at hfree
      cases hfree
    rw [oneBox_path_of_ne hi]
    rfl
  settled i _ hused := by
    obtain rfl := oneBox_used.mp hused
    refine ⟨ms, hms, ?_, by simp [oneBox]⟩
    rw [fileOf, oneBox_path]
    exact hfile

/-- A message of `n` letters. -/
def letters (n : Nat) : CStr := ⟨List.replicate n 120, by simp⟩

theorem length_letters (n : Nat) : (letters n).length = n := List.length_replicate

/-- The message `x` in the buffer of the publisher. -/
def shortMessage : List UInt8 :=
  (CharArray.ofStr (n := messageLength) (letters 1) (by decide)).bytes

theorem shortMessage_length : shortMessage.length = messageLength := CharArray.size _

theorem messageStr_short : messageStr shortMessage = letters 1 := CharArray.str_ofStr ..

/-- One message to an empty box. -/
theorem published_settled_first :
    ∃ b, Ready b ∧ AllOrNothing b (b.publish 0 0 shortMessage) 0 shortMessage ∧
    b.Settled 0 := by
  obtain ⟨t, hwf, hparams, hfile, hfree⟩ := first_filled .zeros
    (show 0 < sampleName.str.tail.length by decide)
    (by decide) (show ([] : List UInt8).length ≤ boxSize from Nat.zero_le _)
  have hempty : t.file sampleName.str.tail = some (TerminatedStream.encode []) :=
    (hfile _).trans (if_pos rfl)
  have hready := oneBox_ready hwf (fun _ hm => by cases hm) hempty
  refine ⟨_, hready, ((published_settled _).1 0 0 shortMessage hwf shortMessage_length).mpr
    fun _ c hc _ => Or.inr ?_, (published_settled _).2 _ hready .refl 0
      (by decide) (oneBox_used.mpr rfl)
    fun w message hpc => by cases hpc⟩
  rw [fileOf, oneBox_path] at hc
  obtain rfl : [] = c := Option.some.inj (hempty.symm.trans hc)
  rw [messageStr_short, length_letters, show (oneBox t _).tfs.fsParams
    = t.fsParams from rfl, hparams]
  decide

/-- Fifteen messages that are as long as can be, and one that leaves a single byte of
room. -/
def almostFull : List CStr := List.replicate 15 (letters 1023) ++ [letters 1022]

theorem length_encode_almostFull : (TerminatedStream.encode almostFull).length = 16383 := by
  have hsum (k : Nat) (m m' : CStr) :
      (TerminatedStream.encode (List.replicate k m ++ [m'])).length =
      k * (m.length + 1) + (m'.length + 1) := by
    simp [TerminatedStream.length_encode]
  rw [almostFull, hsum, length_letters, length_letters]

theorem publish_cut :
    ¬ ∀ (b : Broker) (w i : Nat) (message : List UInt8), Ready b → message.length = messageLength →
      AllOrNothing b (b.publish w i message) i message := by
  intro h
  have hlength := length_encode_almostFull
  have hms : ∀ m ∈ almostFull, m.length ≤ messageLength := by
    intro m hm
    simp only [almostFull, List.mem_append, List.mem_replicate, List.mem_singleton] at hm
    rcases hm with ⟨-, rfl⟩ | rfl <;> rw [length_letters] <;> decide
  obtain ⟨t, hwf, hparams, hfile, hfree⟩ := first_filled .zeros
    (show 0 < sampleName.str.tail.length by decide)
    (by decide) (show (TerminatedStream.encode almostFull).length ≤ boxSize by rw [hlength]; decide)
  have hstored := (hfile _).trans (if_pos rfl)
  have hready := oneBox_ready hwf hms hstored
  have hopens : (oneBox t (TerminatedStream.encode almostFull).length).Opens 0 :=
    ⟨by rw [oneBox_path]; decide, by
      rw [show (oneBox t _).tfs = t from rfl, hfree]
      exact Option.some_ne_none 1⟩
  have huncut := (publish_allOrNothing_iff hwf shortMessage_length).mp
    (h _ 0 0 shortMessage hready shortMessage_length) hopens _
      (by rw [fileOf, oneBox_path]; exact hstored)
    fun hnil => absurd (congrArg List.length hnil) (by rw [hlength]; decide)
  rw [messageStr_short, length_letters, hlength,
    show (oneBox t _).tfs.fsParams = t.fsParams from rfl, hparams] at huncut
  exact absurd huncut (by decide)

end Broker

end MBroker
