import MBroker.Wire.Listing

/-!
# The end of the list

The broker decides by the number of boxes where its answer ends, the manager by the flag
and by an empty name. When there are no boxes the broker writes a frame for each of the 64
slots, and the manager returns after the first one.

Results:
1. `bytesRead_longer`: the manager does not look behind the place where it returns.
2. `listWrites_noBoxes`, `listWrites_boxes`: what each side does with no boxes and with some.
3. `list_consumed_iff`: the manager reads exactly what the broker writes if there is a box,
   and never otherwise.
-/

namespace MBroker

open ByteMemory ByteStream Transition

variable {qsort : List ListedBox → List ListedBox} {input rest : List UInt8}

/-! ## What the manager has read -/

/-- What is left in the pipe when `list_boxes` returns 0. -/
def Listed.unread : Listed → Option (List UInt8)
  | .noBoxes rest | .printed _ rest => some rest
  | .failed | .overrun => none

/-- How many bytes `list_boxes` has read when it returns 0; none if it would go on reading
behind this input. -/
def bytesRead (qsort : List ListedBox → List ListedBox) (input : List UInt8) : Option Nat :=
  (listBoxes qsort input).unread.map fun rest => input.length - rest.length

theorem readUint64_longer {n : Nat} (h : readUint64 input = some (n, rest)) (more : List UInt8) :
    readUint64 (input ++ more) = some (n, rest ++ more) := by
  obtain ⟨⟨bytes, rest'⟩, htake, hn⟩ := Option.bind_eq_some_iff.mp h
  cases hn
  rw [readUint64, takeBytes_longer htake]
  rfl

theorem readCounters_longer {boxName : List UInt8} {box : ListedBox}
    (h : readCounters boxName input = some (box, rest)) (more : List UInt8) :
    readCounters boxName (input ++ more) = some (box, rest ++ more) := by
  obtain ⟨⟨boxSize, input₁⟩, hsize, h⟩ := Option.bind_eq_some_iff.mp h
  obtain ⟨⟨nPublishers, input₂⟩, hpub, h⟩ := Option.bind_eq_some_iff.mp h
  obtain ⟨⟨nSubscribers, input₃⟩, hsub, h⟩ := Option.bind_eq_some_iff.mp h
  cases h
  simp only [readCounters, readUint64_longer hsize, readUint64_longer hpub, readUint64_longer hsub,
    Option.bind_eq_bind, Option.bind_some]
  rfl

theorem listLoop_longer {room : Nat} {boxes : List ListedBox}
    (h : (listLoop qsort room boxes input).unread = some rest) (more : List UInt8) :
    (listLoop qsort room boxes (input ++ more)).unread = some (rest ++ more) := by
  -- The loop stops before `rest`, so bytes behind that change no branch.
  induction room generalizing boxes input with
  | zero =>
    rcases input with _ | ⟨opCode, _ | ⟨last, input⟩⟩
    · cases h
    · cases h
    · rw [listLoop] at h
      split at h <;> cases h
  | succ room ih =>
    rcases input with _ | ⟨opCode, _ | ⟨last, input⟩⟩
    · cases h
    · cases h
    · rw [List.cons_append, List.cons_append, listLoop]
      rw [listLoop] at h
      split at h
      · cases h
      next hop =>
      rw [if_neg hop]
      dsimp only at h ⊢
      split at h
      · cases h
      next boxName input' htake =>
      rw [takeBytes_longer htake]
      dsimp only
      split at h
      · next hempty =>
        rw [if_pos hempty]
        exact congrArg (Option.map (· ++ more)) h
      next hname =>
      rw [if_neg hname]
      split at h
      · cases h
      next box input'' hread =>
      rw [readCounters_longer hread]
      dsimp only
      split at h
      · next hlast =>
        rw [if_pos hlast]
        exact ih h
      · next hlast =>
        rw [if_neg hlast]
        exact congrArg (Option.map (· ++ more)) h

/-- Where the manager returns, it does so whatever comes behind. -/
theorem bytesRead_longer (h : (listBoxes qsort input).unread = some rest) (more : List UInt8) :
    (listBoxes qsort (input ++ more)).unread = some (rest ++ more) :=
  listLoop_longer h more

/-- The manager reads all that is written, and it has not returned yet when a write starts. -/
structure ConsumedExactly (qsort : List ListedBox → List ListedBox) (writes : List (List UInt8)) :
    Prop where
  exact : bytesRead qsort writes.flatten = some writes.flatten.length
  reading : ∀ k < writes.length, bytesRead qsort (writes.take k).flatten = none

/-- It is enough that it leaves nothing. -/
theorem ConsumedExactly.of_unread {writes : List (List UInt8)} (hne : ∀ bytes ∈ writes, bytes ≠ [])
    (h : (listBoxes qsort writes.flatten).unread = some []) : ConsumedExactly qsort writes where
  exact := by
    rw [bytesRead, h]
    rfl
  reading k hk := by
    rw [bytesRead, Option.map_eq_none_iff, Option.eq_none_iff_forall_ne_some]
    intro rest hrest
    -- a manager that has returned would leave the bytes of this write
    have hall := bytesRead_longer hrest (writes.drop k).flatten
    rw [← List.flatten_append, List.take_append_drop, h, Option.some.injEq] at hall
    have hnil : (writes.drop k).flatten = [] := (List.append_eq_nil_iff.mp hall.symm).2
    have hmem : writes[k] ∈ writes.drop k := by
      rw [List.drop_eq_getElem_cons hk]
      exact List.mem_cons_self
    exact hne _ (List.getElem_mem hk) (List.flatten_eq_nil_iff.mp hnil _ hmem)

/-! ## What the broker has written -/

/-- The box as its frame shows it. -/
def Box.wrapped (x : Box) : Box :=
  { x with
    boxSize := x.boxSize % word
    nPublishers := x.nPublishers % word
    nSubscribers := x.nSubscribers % word }

theorem Box.wrapped_inWord (x : Box) : x.wrapped.InWord :=
  ⟨Nat.mod_lt _ (by decide), Nat.mod_lt _ (by decide), Nat.mod_lt _ (by decide)⟩

namespace Broker

variable {b : Broker} {w fd n i count : Nat} {last : UInt8} {r : Request}

/-- The writes of worker `w` to descriptor `fd` in its session. -/
def writes (b : Broker) (w fd : Nat) : List (List UInt8) :=
  ((b.sent w).filter fun line => line.1 == fd).map Prod.snd

theorem writes_of_sent {lines : List (List UInt8)}
    (h : b.sent w = lines.map fun bytes => (fd, bytes)) : b.writes w fd = lines := by
  rw [writes, h, List.filter_eq_self.mpr (by simp), List.map_map]
  exact List.map_id' lines

theorem listFrames_wrapped (b : Broker) :
    ({ b with boxes := fun j => (b.boxes j).wrapped } : Broker).listFrames n i count last
      = b.listFrames n i count last := by
  induction n generalizing i count last with
  | zero => rfl
  | succ n ih =>
    have hframe : ∀ flag,
        ({ b with boxes := fun j => (b.boxes j).wrapped } : Broker).listFrame i flag
        = b.listFrame i flag := by
      intro flag
      simp only [listFrame, Box.wrapped, word, le64_mod]
    simp only [listFrames, ih, hframe]
    rfl

/-- With boxes in the table the manager reads everything. -/
theorem unread_boxes (htable : TableInvariant b) (hne : b.numBoxes ≠ 0) :
    (listBoxes qsort (b.listFrames maxBoxes 0 0 0).flatten).unread = some [] := by
  have hsame : SameTable b { b with boxes := fun j => (b.boxes j).wrapped } :=
    ⟨rfl, rfl, fun _ => rfl⟩
  rw [← listFrames_wrapped b, listBoxes_boxes (htable.of_same hsame) hne
    fun j _ _ => (b.boxes j).wrapped_inWord]
  rfl

/-- Every frame has at least an operation code. -/
theorem listFrames_ne_nil : ∀ bytes ∈ b.listFrames n i count last, bytes ≠ [] := by
  induction n generalizing i count last with
  | zero => exact fun bytes h => absurd h List.not_mem_nil
  | succ n ih =>
    intro bytes h
    rw [listFrames] at h
    split at h
    · exact ih bytes h
    · rcases List.mem_cons.mp h with rfl | h
      · exact List.cons_ne_nil _ _
      · exact ih bytes h

/-- Without boxes there is a frame without counters for every slot. -/
theorem length_listFrames_noBoxes (hzero : b.numBoxes = 0) :
    (b.listFrames n i count last).flatten.length = n * (2 + boxNameLength) := by
  induction n generalizing i count last with
  | zero => rw [listFrames, List.flatten_nil, Nat.zero_mul]; rfl
  | succ n ih =>
    have hskip : ¬ b.listSkips i = true := by simp [listSkips, hzero]
    have hframe : ∀ flag, (b.listFrame i flag).length = 2 + boxNameLength := by
      intro flag
      rw [listFrame, if_neg (not_not.mpr hzero), List.append_nil,
        List.length_append, length_boxName]
      rfl
    rw [listFrames, if_neg hskip]
    dsimp only
    rw [List.flatten_cons, List.length_append, hframe, ih, Nat.succ_mul, Nat.add_comm]

/-- Without boxes the manager reads one frame. -/
theorem bytesRead_noBoxes (htable : TableInvariant b) (hzero : b.numBoxes = 0) :
    bytesRead qsort (b.listFrames maxBoxes 0 0 1).flatten = some (2 + boxNameLength) := by
  rw [bytesRead, listBoxes_noBoxes htable hzero]
  simp only [Listed.unread, Option.map_some, length_listFrames_noBoxes hzero]
  rfl

/-- The answer to a list request is consumed exactly if and only if there is a box: without
boxes the broker writes 64 frames and the manager returns after the first one. -/
theorem list_consumed_iff (qsort : List ListedBox → List ListedBox) (hstop : b.stopped = false)
    (hw : w < b.maxSessions) (hpc : b.pcs w = .idle) (hr : r.opcode = opCodeListBoxes)
    (hfd : b.fds fd = false) (htable : TableInvariant b) (malloced : Bool) :
    ∃ b', b.serve w r fd malloced = some b' ∧ b'.pcs w = .ret 0 ∧
      (ConsumedExactly qsort (b'.writes w fd) ↔ b.numBoxes ≠ 0) := by
  obtain ⟨b', hserve, hret, hsent⟩ := serve_list_sent hstop hw hpc hr hfd malloced
  refine ⟨b', hserve, hret, ?_⟩
  rw [writes_of_sent hsent]
  constructor
  · intro hall hzero
    have hread := hall.exact
    rw [if_pos hzero, bytesRead_noBoxes htable hzero, length_listFrames_noBoxes hzero] at hread
    exact absurd (Option.some.inj hread) (by decide)
  · intro hne
    rw [if_neg hne]
    exact .of_unread listFrames_ne_nil (unread_boxes htable hne)

theorem list_consumed_two : ∃ b', gapped.serve 0 (sampleRequest opCodeListBoxes) 3 true = some b' ∧
    ConsumedExactly id (b'.writes 0 3) := by
  obtain ⟨b', hserve, -, hall⟩ := list_consumed_iff (w := 0)
    (r := sampleRequest opCodeListBoxes) id rfl
    (show 0 < 1 by decide) rfl rfl (show gapped.fds 3 = false from rfl) gapped_table true
  exact ⟨b', hserve, hall.mpr (show (2 : Int) ≠ 0 by decide)⟩

/-- No boxes: 2112 bytes are written and 33 are read. If the manager has closed its pipe
by the second frame, the handler returns -1. -/
theorem empty_list_unread :
    TableInvariant (fresh 1) ∧
      (∃ b', (fresh 1).serve 0 (sampleRequest opCodeListBoxes) 3 true
        = some b' ∧ b'.pcs 0 = .ret 0 ∧
        (b'.writes 0 3).flatten.length = 2112 ∧ bytesRead id (b'.writes 0 3).flatten = some 33) ∧
      ∃ b', exec step (fresh 1) [(0, .request (sampleRequest opCodeListBoxes)),
        (0, .opened samplePath (some 3)),
          (0, .wrote (.wrote 33)), (0, .wrote .epipe)] = some b' ∧ b'.pcs 0 = .ret (-1) ∧
        bytesRead id (b'.writes 0 3).flatten = some 33 := by
  have htable : TableInvariant (fresh 1) := .of_start 1 _ _ _
  obtain ⟨b', hserve, hret, hsent⟩ := serve_list_sent (b := fresh 1) (w := 0)
    (r := sampleRequest opCodeListBoxes) rfl (by decide) rfl rfl
    (show (fresh 1).fds 3 = false from rfl) true
  refine ⟨htable, ⟨b', hserve, hret, ?_⟩, _, rfl, rfl, by decide +kernel⟩
  rw [writes_of_sent hsent]
  exact ⟨length_listFrames_noBoxes rfl, bytesRead_noBoxes htable rfl⟩

end Broker

end MBroker
