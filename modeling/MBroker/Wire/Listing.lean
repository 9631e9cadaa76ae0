import MBroker.Broker.Serve
import MBroker.Broker.Table
import MBroker.Library.Stream

/-!
# The list of boxes

`handle_tfs_list_boxes` writes a frame for each box: the operation code, a flag that
is set in the last frame, the first 31 bytes of the name, and the three counters. If
there are no boxes it writes a frame without counters for every slot. `list_boxes`
in `manager/manager.c` reads frames until it finds the flag or an empty name, sorts
what it has read and prints it.

Results:
1. `serve_list`: what the broker writes.
2. `listLoop_encodeFrames`: the manager reads back the boxes of a list of frames.
3. `list_round_trip`: the manager prints each box in use once, and reports that
   there are none exactly when the table is empty.
-/

namespace MBroker

open ByteMemory ByteStream Transition

/-! ## The manager -/

/-- A line that the manager prints. -/
structure ListedBox where
  boxName : CStr
  boxSize : Nat
  nPublishers : Nat
  nSubscribers : Nat
deriving DecidableEq

/-- How `list_boxes` ends. `rest` is what it has not read. -/
inductive Listed
  /-- "NO BOXES FOUND" -/
  | noBoxes (rest : List UInt8)
  | printed (boxes : List ListedBox) (rest : List UInt8)
  /-- an unexpected operation code, or the pipe ends too early -/
  | failed
  /-- a store behind `boxes[MAX_BOXES - 1]` -/
  | overrun

/-- `read_pipe` into a `uint64_t`. -/
def readUint64 (input : List UInt8) : Option (Nat × List UInt8) := do
  let (bytes, input) ← takeBytes 8 input
  return (natLe bytes, input)

/-- The counters of a box whose name was read. -/
def readCounters (boxName : List UInt8) (input : List UInt8) : Option (ListedBox × List UInt8) := do
  let (boxSize, input) ← readUint64 input
  let (nPublishers, input) ← readUint64 input
  let (nSubscribers, input) ← readUint64 input
  return (⟨.ofBytes (boxName ++ [0]), boxSize, nPublishers, nSubscribers⟩, input)

/-- The loop of `list_boxes`, with room for so many more boxes in the array. -/
def listLoop (qsort : List ListedBox → List ListedBox) :
    Nat → List ListedBox → List UInt8 → Listed
  | room, boxes, opCode :: last :: input =>
    if opCode ≠ opCodeListBoxesAnswer then .failed
    else
      match room with
      | 0 => .overrun
      | room + 1 =>
        match takeBytes boxNameLength input with
        | none => .failed
        | some (boxName, input) =>
          if boxName.head? = some 0 then .noBoxes input
          else
            match readCounters boxName input with
            | none => .failed
            | some (box, input) =>
              let boxes := boxes ++ [box]
              if last = 0 then listLoop qsort room boxes input else .printed (qsort boxes) input
  | _, _, _ => .failed

def listBoxes (qsort : List ListedBox → List ListedBox) (input : List UInt8) : Listed :=
  listLoop qsort maxBoxes [] input

/-- The line for a box. -/
def Box.listed (x : Box) : ListedBox := ⟨x.boxName.str, x.boxSize, x.nPublishers, x.nSubscribers⟩

/-! ## Frames -/

/-- The frame for a box when the table is not empty. -/
def boxFrame (last : UInt8) (x : Box) : List UInt8 :=
  [opCodeListBoxesAnswer, last] ++ x.boxName.bytes.take boxNameLength ++
    (le64 x.boxSize ++ le64 x.nPublishers ++ le64 x.nSubscribers)

/-- One frame a box, the last one with the flag. -/
def encodeFrames : List Box → List (List UInt8)
  | [] => []
  | [x] => [boxFrame 1 x]
  | x :: xs => boxFrame 0 x :: encodeFrames xs

/-- The counters of a box are values of `uint64_t`. -/
def Box.InWord (x : Box) : Prop := x.boxSize < word ∧ x.nPublishers < word ∧ x.nSubscribers < word

theorem readUint64_le64 {n : Nat} (h : n < word) (rest : List UInt8) :
    readUint64 (le64 n ++ rest) = some (n, rest) := by
  rw [readUint64, takeBytes_append (length_le64 n)]
  exact congrArg (fun k => some (k, rest)) (natLe_le64 h)

theorem length_boxName (x : Box) : (x.boxName.bytes.take boxNameLength).length = boxNameLength := by
  rw [List.length_take, x.boxName.size]
  rfl

/-- The string is within the bytes that are sent. -/
theorem ofBytes_boxName (x : Box) :
    CStr.ofBytes (x.boxName.bytes.take boxNameLength ++ [0]) = x.boxName.str := by
  obtain ⟨v, hv⟩ := CStr.eq_ofBytes_append x.boxName.terminated
  have hlt : (CStr.ofBytes x.boxName.bytes).bytes.length ≤ boxNameLength :=
    Nat.lt_succ_iff.mp x.boxName.str_length_lt
  obtain ⟨d, hd⟩ := Nat.exists_eq_add_of_le hlt
  have htake : x.boxName.bytes.take boxNameLength
      = (CStr.ofBytes x.boxName.bytes).bytes ++ (0 :: v : List UInt8).take d := by
    rw [hd]
    exact (congrArg (List.take _) hv).trans (List.take_length_add_append d)
  rw [htake]
  cases d with
  | zero => rw [List.take_zero, List.append_nil]; exact CStr.ofBytes_append_nul _ []
  | succ d =>
    rw [List.take_succ_cons, List.append_assoc]
    exact CStr.ofBytes_append_nul _ _

/-- The first byte that is sent is NUL only if the name is empty. -/
theorem head_boxName (x : Box) :
    (x.boxName.bytes.take boxNameLength).head? = some 0 ↔ x.boxName.str = .empty := by
  have hsize := x.boxName.size
  cases h : x.boxName.bytes with
  | nil => rw [h] at hsize; cases hsize
  | cons c l =>
    constructor
    · intro hc
      obtain rfl : c = 0 := Option.some.inj hc
      exact CStr.ext (by simp [CharArray.str, h, CStr.ofBytes, CStr.empty])
    · intro hempty
      have hbytes := congrArg CStr.bytes hempty
      rw [CharArray.str, h] at hbytes
      by_contra hc
      have hc' : c ≠ 0 := fun h0 => hc (congrArg some h0)
      simp [CStr.ofBytes, CStr.empty, hc'] at hbytes

section Decode

variable {qsort : List ListedBox → List ListedBox}

theorem readCounters_box {x : Box} (hword : x.InWord) (rest : List UInt8) :
    readCounters (x.boxName.bytes.take boxNameLength)
        (le64 x.boxSize ++ (le64 x.nPublishers ++ (le64 x.nSubscribers ++ rest)))
      = some (x.listed, rest) := by
  simp only [readCounters, readUint64_le64 hword.1, readUint64_le64 hword.2.1,
    readUint64_le64 hword.2.2, Option.bind_eq_bind, Option.bind_some, ofBytes_boxName]
  rfl

/-- The manager reads one frame. -/
theorem listLoop_boxFrame {x : Box} (hname : x.boxName.str ≠ .empty) (hword : x.InWord)
    (room : Nat) (boxes : List ListedBox) (last : UInt8) (rest : List UInt8) :
    listLoop qsort (room + 1) boxes (boxFrame last x ++ rest)
      = if last = 0 then listLoop qsort room (boxes ++ [x.listed]) rest
        else .printed (qsort (boxes ++ [x.listed])) rest := by
  have hframe : boxFrame last x ++ rest = opCodeListBoxesAnswer :: last ::
      (x.boxName.bytes.take boxNameLength ++
        (le64 x.boxSize ++ (le64 x.nPublishers ++ (le64 x.nSubscribers ++ rest)))) := by
    simp [boxFrame]
  have hhead : ¬ (x.boxName.bytes.take boxNameLength).head? = some 0 := mt (head_boxName x).mp hname
  rw [hframe, listLoop, if_neg (not_not.mpr rfl)]
  simp only [takeBytes_append (length_boxName x), if_neg hhead, readCounters_box hword]

/-- The manager reads all the boxes, and stops behind the last one. -/
theorem listLoop_encodeFrames {xs : List Box} (hne : xs ≠ []) {room : Nat}
    (hroom : xs.length ≤ room)
    (hname : ∀ x ∈ xs, x.boxName.str ≠ .empty) (hword : ∀ x ∈ xs, x.InWord)
    (boxes : List ListedBox) :
    listLoop qsort room boxes (encodeFrames xs).flatten
      = .printed (qsort (boxes ++ xs.map Box.listed)) [] := by
  induction xs generalizing room boxes with
  | nil => exact absurd rfl hne
  | cons x xs ih =>
    obtain ⟨room, rfl⟩ : ∃ k, room = k + 1 := ⟨room - 1, by rw [List.length_cons] at hroom; omega⟩
    have hx := hname x (List.mem_cons_self ..)
    have hw := hword x (List.mem_cons_self ..)
    cases xs with
    | nil =>
      have hflat : (encodeFrames [x]).flatten = boxFrame 1 x ++ [] := rfl
      rw [hflat, listLoop_boxFrame hx hw]
      rfl
    | cons y ys =>
      have hflat : (encodeFrames (x :: y :: ys)).flatten
          = boxFrame 0 x ++ (encodeFrames (y :: ys)).flatten := rfl
      rw [hflat, listLoop_boxFrame hx hw, if_pos rfl, ih (by simp)
        (Nat.le_of_succ_le_succ hroom) (fun z hz => hname z (List.mem_cons_of_mem _ hz))
        (fun z hz => hword z (List.mem_cons_of_mem _ hz)), List.append_assoc]
      rfl

/-- A frame for a free slot: there are no boxes. -/
theorem listLoop_empty {x : Box} (hname : x.boxName.str = .empty) (room : Nat)
    (boxes : List ListedBox) (last : UInt8) (rest : List UInt8) :
    listLoop qsort (room + 1) boxes
        ([opCodeListBoxesAnswer, last] ++ x.boxName.bytes.take boxNameLength ++ rest)
      = .noBoxes rest := by
  have hframe : [opCodeListBoxesAnswer, last] ++ x.boxName.bytes.take boxNameLength ++ rest
      = opCodeListBoxesAnswer :: last :: (x.boxName.bytes.take boxNameLength ++ rest) := by simp
  rw [hframe, listLoop, if_neg (not_not.mpr rfl)]
  simp only [takeBytes_append (length_boxName x), if_pos ((head_boxName x).mpr hname)]

end Decode

/-! ## The broker -/

namespace Broker

variable {b : Broker} {w fd n i count : Nat} {last : UInt8}

/-- What the loop of `handle_tfs_list_boxes` writes for the next `n` slots. -/
def listFrames (b : Broker) : Nat → Nat → Nat → UInt8 → List (List UInt8)
  | 0, _, _, _ => []
  | n + 1, i, count, last =>
    if b.listSkips i then b.listFrames n (i + 1) count last
    else
      let last : UInt8 := if (count + 1 : Nat) = b.numBoxes then 1 else last
      b.listFrame i last :: b.listFrames n (i + 1) (count + 1) last

/-- The frames depend on the table only. -/
theorem listFrames_congr (b : Broker) (fds : Nat → Bool) (clients : Nat → Client) (pcs : Nat → Pc)
    (sent : Nat → List (Nat × List UInt8)) :
    ({ b with fds := fds, clients := clients, pcs := pcs, sent := sent } : Broker).listFrames
      n i count last
      = b.listFrames n i count last := by
  induction n generalizing i count last with
  | zero => rfl
  | succ n ih =>
    simp only [listFrames, ih]
    rfl

theorem length_listFrame (b : Broker) (i : Nat) (last last' : UInt8) :
    (b.listFrame i last).length = (b.listFrame i last').length := by
  simp [listFrame]

/-- The loop from slot `i` on. -/
theorem drive_listing (hi : i + n = maxBoxes) (hpc : b.pcs w = .listing i count last)
    (hstop : b.stopped = false) (hw : w < b.maxSessions)
    (hopen : b.isOpenFd (b.clients w).clientPipe = true)
    (hop : (b.clients w).opcode = opCodeListBoxes) (fd : Nat) (malloced : Bool) (k : Nat) :
    ∃ b', drive step (obliging w fd malloced) (hasReturned w) (n + 1 + k) b = some b' ∧
      b'.pcs w = .ret 0 ∧ b'.sent w = b.sent w ++
        (b.listFrames n i count last).map fun bytes => ((b.clients w).clientPipe.toNat, bytes) := by
  induction n generalizing b i count last with
  | zero =>
    -- All slots are done: the session ends.
    have hnot : ¬ (i < maxBoxes ∧ b.listSkips i = false) := fun h => absurd h.1 (by omega)
    have hfinish := finishClientSession_of_boxFd hopen (Or.inl hop)
    have hlast : b.stepWorker w (.listing i count last) .none = some (b.returnFinish w) := by
      rw [stepWorker, if_pos (by omega)]
    refine ⟨b.returnFinish w, ?_, ?_, ?_⟩
    · rw [Nat.zero_add, Nat.add_comm, drive_section hstop hw hpc (by simp)
        (by rw [obliging, hpc]; dsimp only; rw [if_neg hnot]; exact hlast)]
      exact drive_ret (setPc_self ..) k
    · rw [returnFinish, setPc_self, hfinish]
    · rw [listFrames, List.map_nil, List.append_nil]
      exact congrFun (finishClientSession_frame b w).sent w
  | succ n ih =>
    have hlt : i < maxBoxes := by omega
    rw [show n + 1 + 1 + k = n + 1 + k + 1 by omega]
    cases hskip : b.listSkips i with
    | true =>
      have hnot : ¬ (i < maxBoxes ∧ b.listSkips i = false) := by rw [hskip]; simp
      have hnext : b.stepWorker w (.listing i count last) .none
          = some (b.setPc w (.listing (i + 1) count last)) := by
        rw [stepWorker, if_neg (by omega), if_pos hskip]
      obtain ⟨b', hdrive, hret, hsent⟩ := ih (b := b.setPc w (.listing (i + 1) count last))
        (by omega) (setPc_self ..) hstop hw hopen hop
      refine ⟨b', ?_, hret, ?_⟩
      · rw [drive_section hstop hw hpc (by simp)
          (by rw [obliging, hpc]; dsimp only; rw [if_neg hnot]; exact hnext)]
        exact hdrive
      · rw [hsent, listFrames, if_pos hskip]
        exact congrArg (fun l => b.sent w ++ List.map _ l)
          (listFrames_congr b b.fds b.clients _ b.sent)
    | false =>
      generalize hflag : (if (count + 1 : Nat) = b.numBoxes then (1 : UInt8) else last) = flag
      have hnext : b.stepWorker w (.listing i count last)
          (.wrote (.wrote (b.listFrame i last).length))
          = some
            ((b.wrote w (b.listFrame i flag)).setPc w (.listing (i + 1) (count + 1) flag)) := by
        rw [stepWorker, if_pos ⟨hlt, hskip⟩, listWrite, hflag, length_listFrame b i last flag,
          emit_whole hopen]
        exact if_pos rfl
      obtain ⟨b', hdrive, hret, hsent⟩ :=
        ih (b := (b.wrote w (b.listFrame i flag)).setPc w (.listing (i + 1) (count + 1) flag))
          (by omega) (setPc_self ..) hstop hw hopen hop
      refine ⟨b', ?_, hret, ?_⟩
      · rw [drive_section hstop hw hpc (by simp)
          (by rw [obliging, hpc]; dsimp only; rw [if_pos ⟨hlt, hskip⟩]; exact hnext)]
        exact hdrive
      · rw [hsent, listFrames, if_neg (by simp [hskip]), hflag, List.map_cons, List.append_cons]
        refine congrArg₂ (· ++ List.map _ ·) (wrote_sent b w _) ?_
        exact listFrames_congr b b.fds b.clients _ _

/-- The writes of the broker when it is asked for the list. -/
theorem serve_list_sent (hstop : b.stopped = false) (hw : w < b.maxSessions) (hpc : b.pcs w = .idle)
    {r : Request} (hr : r.opcode = opCodeListBoxes) (hfd : b.fds fd = false) (malloced : Bool) :
    ∃ b', b.serve w r fd malloced = some b' ∧ b'.pcs w = .ret 0 ∧
      b'.sent w = (b.listFrames maxBoxes 0 0 (if b.numBoxes = 0 then 1 else 0)).map
        fun bytes => (fd, bytes) := by
  obtain ⟨x, hx⟩ : ∃ x, x = b.dequeued w r := ⟨_, rfl⟩
  have hxpc : x.pcs w = .listOpen := by
    rw [hx]
    refine (setPc_self ..).trans ?_
    rw [hr]
    rfl
  have hxop : (x.clients w).opcode = opCodeListBoxes := by
    rw [hx]
    exact (congrArg Client.opcode (setClient_self b w _)).trans hr
  have hxsent : x.sent w = [] := by rw [hx]; exact Function.update_self ..
  have hxsame : x = { b with clients := x.clients, pcs := x.pcs, sent := x.sent } := by rw [hx]; rfl
  obtain ⟨y, hy⟩ : ∃ y, y = (({ x with fds := Function.update b.fds fd true }).setClient w
      { x.clients w with clientPipe := fd }).setPc w
        (.listing 0 0 (if b.numBoxes = 0 then 1 else 0)) := ⟨_, rfl⟩
  have hyclient : y.clients w = { x.clients w with clientPipe := fd } := by
    rw [hy]
    exact setClient_self ..
  -- The pipe is opened, and the loop starts at slot 0.
  have hlisten : x.stepWorker w .listOpen (.opened (x.clients w).clientPipename.str (some fd))
    = some y := by
    have htake : x.takeFd fd = some { x with fds := Function.update b.fds fd true } := by
      rw [hxsame]
      exact takeFd_eq_some.mpr ⟨hfd, rfl⟩
    rw [stepWorker, listOpen, if_pos (opens_self x w), htake, hy, hxsame]
    rfl
  have hyopen : y.isOpenFd (y.clients w).clientPipe = true := by
    rw [hyclient, hy]
    simp [isOpenFd, setPc, setClient]
  obtain ⟨b', hdrive, hret, hsent⟩ := drive_listing (Nat.zero_add maxBoxes)
    (by rw [hy]; exact setPc_self ..) (by rw [hy, hxsame]; exact hstop)
    (by rw [hy, hxsame]; exact hw) hyopen (by rw [hyclient]; exact hxop) fd malloced 14
  refine ⟨b', ?_, hret, ?_⟩
  · rw [serve_eq hstop hw hpc, ← hx]
    rw [show sectionBound = maxBoxes + 1 + 14 + 1 from rfl,
      drive_section (by rw [hxsame]; exact hstop) (by rw [hxsame]; exact hw) hxpc (by simp)
        (by rw [obliging, hxpc]; exact hlisten)]
    exact hdrive
  · have hframes : ∀ l, y.listFrames maxBoxes 0 0 l = b.listFrames maxBoxes 0 0 l := by
      intro l
      rw [hy, hxsame]
      exact listFrames_congr b _ _ _ _
    have hysent : y.sent w = [] := by rw [hy]; exact hxsent
    rw [hsent, hyclient, hframes, hysent]
    rfl

/-- What the broker writes when it is asked for the list. -/
theorem serve_list (hstop : b.stopped = false) (hw : w < b.maxSessions) (hpc : b.pcs w = .idle)
    {r : Request} (hr : r.opcode = opCodeListBoxes) (hfd : b.fds fd = false) (malloced : Bool) :
    ∃ b', b.serve w r fd malloced = some b' ∧ b'.pcs w = .ret 0 ∧
      b'.output w fd
        = (b.listFrames maxBoxes 0 0 (if b.numBoxes = 0 then 1 else 0)).flatten := by
  obtain ⟨b', hserve, hret, hsent⟩ := serve_list_sent hstop hw hpc hr hfd malloced
  exact ⟨b', hserve, hret, output_of_sent hsent⟩

/-! ## The round trip -/

/-- The boxes in use among the next `n` slots. -/
def usedBoxes (b : Broker) (i n : Nat) : List Box :=
  ((List.range' i n).filter fun j => !b.freeBoxes j).map b.boxes

theorem usedBoxes_free (h : b.freeBoxes i = true) :
    b.usedBoxes i (n + 1) = b.usedBoxes (i + 1) n := by
  simp [usedBoxes, List.range'_succ, h]

theorem usedBoxes_used (h : b.freeBoxes i = false) :
    b.usedBoxes i (n + 1) = b.boxes i :: b.usedBoxes (i + 1) n := by
  simp [usedBoxes, List.range'_succ, h]

theorem mem_usedBoxes {x : Box} (h : x ∈ b.usedBoxes 0 maxBoxes) :
    ∃ i < maxBoxes, b.freeBoxes i = false ∧ b.boxes i = x := by
  obtain ⟨i, hi, hx⟩ := List.mem_map.mp h
  obtain ⟨hrange, hfree⟩ := List.mem_filter.mp hi
  exact ⟨i, by simpa using hrange, by simpa using hfree, hx⟩

theorem length_usedBoxes (b : Broker) (n : Nat) :
    (b.usedBoxes 0 n).length = Nat.count (fun i => b.freeBoxes i = false) n := by
  have hcount : Nat.count (fun i => b.freeBoxes i = false) n
      = ((List.range n).filter fun i => decide (b.freeBoxes i = false)).length :=
    Nat.count_eq_card_filter_range _ n
  rw [usedBoxes, List.length_map, hcount, List.range_eq_range']
  refine congrArg List.length (List.filter_congr fun i _ => ?_)
  cases b.freeBoxes i <;> rfl

/-- The flag comes with the last box in use, and not before. -/
theorem listFrames_used (hne : b.numBoxes ≠ 0)
    (hcount : b.numBoxes = (count + (b.usedBoxes i n).length : Nat))
    (hlast : b.usedBoxes i n = [] ∨ last = 0) :
    b.listFrames n i count last = encodeFrames (b.usedBoxes i n) := by
  induction n generalizing i count last with
  | zero => rfl
  | succ n ih =>
    cases hfree : b.freeBoxes i with
    | true =>
      have hskip : b.listSkips i = true := by simp [listSkips, hfree, hne]
      rw [usedBoxes_free hfree] at hcount hlast ⊢
      rw [listFrames, if_pos hskip]
      exact ih hcount hlast
    | false =>
      have hskip : ¬ b.listSkips i = true := by simp [listSkips, hfree]
      rw [usedBoxes_used hfree] at hcount hlast ⊢
      obtain rfl : last = 0 := hlast.resolve_left (List.cons_ne_nil _ _)
      have hframe : ∀ flag, b.listFrame i flag = boxFrame flag (b.boxes i) := by
        intro flag
        rw [listFrame, if_pos hne]
        rfl
      rw [List.length_cons] at hcount
      rw [listFrames, if_neg hskip]
      dsimp only
      rw [hframe]
      cases hrest : b.usedBoxes (i + 1) n with
      | nil =>
        rw [hrest, List.length_nil] at hcount
        rw [if_pos hcount.symm, ih (by rw [hrest, hcount]; rfl) (Or.inl hrest), hrest]
        rfl
      | cons x xs =>
        rw [hrest, List.length_cons] at hcount
        have hmore : ¬ ((count + 1 : Nat) : Int) = b.numBoxes := by omega
        rw [if_neg hmore, ih (by rw [hrest, List.length_cons]; omega) (Or.inr rfl), hrest]
        rfl

theorem numBoxes_eq_length (h : TableInvariant b) :
    b.numBoxes = ((b.usedBoxes 0 maxBoxes).length : Nat) := by
  rw [length_usedBoxes]
  exact h.numBoxes

/-- Every slot is free, and the frame of the first one has an empty name. -/
theorem listBoxes_noBoxes {qsort : List ListedBox → List ListedBox} (htable : TableInvariant b)
    (hzero : b.numBoxes = 0) :
    listBoxes qsort (b.listFrames maxBoxes 0 0 1).flatten
      = .noBoxes (b.listFrames 63 1 1 1).flatten := by
  have hlen := numBoxes_eq_length htable
  have hnone : b.usedBoxes 0 maxBoxes = [] := List.eq_nil_of_length_eq_zero (by omega)
  have hname : (b.boxes 0).boxName.str = .empty := by
    rw [← htable.free 0 (by decide), ← Bool.not_eq_false]
    intro hused
    rw [show maxBoxes = 63 + 1 from rfl, usedBoxes_used hused] at hnone
    cases hnone
  have hskip : ¬ b.listSkips 0 = true := by simp [listSkips, hzero]
  have hflag : ¬ ((0 + 1 : Nat) : Int) = b.numBoxes := by omega
  have hfirst : (b.listFrames maxBoxes 0 0 1).flatten
      = [opCodeListBoxesAnswer, 1] ++ (b.boxes 0).boxName.bytes.take boxNameLength
        ++ (b.listFrames 63 1 1 1).flatten := by
    rw [show maxBoxes = 63 + 1 from rfl, listFrames, if_neg hskip]
    dsimp only
    rw [if_neg hflag, List.flatten_cons, listFrame, if_neg (not_not.mpr hzero), List.append_nil]
  rw [hfirst]
  exact listLoop_empty hname 63 [] 1 _

theorem listBoxes_boxes {qsort : List ListedBox → List ListedBox} (htable : TableInvariant b)
    (hne : b.numBoxes ≠ 0)
    (hword : ∀ i < maxBoxes, b.freeBoxes i = false → (b.boxes i).InWord) :
    listBoxes qsort (b.listFrames maxBoxes 0 0 0).flatten
      = .printed (qsort ((b.usedBoxes 0 maxBoxes).map Box.listed)) [] := by
  have hlen := numBoxes_eq_length htable
  have hsome : b.usedBoxes 0 maxBoxes ≠ [] := by
    intro hnil
    rw [hnil] at hlen
    exact hne hlen
  have hroom : (b.usedBoxes 0 maxBoxes).length ≤ maxBoxes := by
    have := htable.le
    omega
  rw [listFrames_used hne (by rw [Nat.zero_add]; exact hlen) (Or.inr rfl)]
  refine listLoop_encodeFrames hsome hroom (fun x hx hempty => ?_) (fun x hx => ?_) []
  · obtain ⟨i, hi, hused, rfl⟩ := mem_usedBoxes hx
    rw [(htable.free i hi).mpr hempty] at hused
    cases hused
  · obtain ⟨i, hi, hused, rfl⟩ := mem_usedBoxes hx
    exact hword i hi hused

/-- The manager prints every box in use once, with its counters, and stops behind the
last frame; it reports that there are no boxes exactly when the table is empty. -/
theorem list_round_trip {qsort : List ListedBox → List ListedBox} (hsort : ∀ l, (qsort l).Perm l)
    {r : Request} (hstop : b.stopped = false) (hw : w < b.maxSessions) (hpc : b.pcs w = .idle)
    (hr : r.opcode = opCodeListBoxes) (hfd : b.fds fd = false) (htable : TableInvariant b)
    (hword : ∀ i < maxBoxes, b.freeBoxes i = false → (b.boxes i).InWord) (malloced : Bool) :
    ∃ b', b.serve w r fd malloced = some b' ∧ b'.pcs w = .ret 0 ∧
      ((∃ rest, listBoxes qsort (b'.output w fd) = .noBoxes rest) ↔ b.numBoxes = 0) ∧
      (b.numBoxes ≠ 0 → ∃ boxes, listBoxes qsort (b'.output w fd) = .printed boxes [] ∧
        boxes.Perm ((b.usedBoxes 0 maxBoxes).map Box.listed)) := by
  obtain ⟨b', hserve, hret, hout⟩ := serve_list hstop hw hpc hr hfd malloced
  refine ⟨b', hserve, hret, ?_⟩
  rw [hout]
  by_cases hzero : b.numBoxes = 0
  · rw [if_pos hzero]
    exact ⟨iff_of_true ⟨_, listBoxes_noBoxes htable hzero⟩ hzero, fun hne => absurd hzero hne⟩
  · have hread : listBoxes qsort (b.listFrames maxBoxes 0 0 0).flatten
        = .printed (qsort ((b.usedBoxes 0 maxBoxes).map Box.listed)) [] :=
      listBoxes_boxes htable hzero hword
    rw [if_neg hzero]
    refine ⟨iff_of_false ?_ hzero, fun _ => ⟨_, hread, hsort _⟩⟩
    rintro ⟨rest, hrest⟩
    rw [hread] at hrest
    cases hrest

theorem secondName_fits : (CStr.ofBytes [47, 98]).length < 32 := by decide

def secondName : CharArray 32 := .ofStr (.ofBytes [47, 98]) secondName_fits

/-- A broker with the boxes `/a` and `/b`. The one between them was removed. -/
def gapped : Broker :=
  { fresh 1 with
    numBoxes := 2
    freeBoxes := fun i => i ≠ 0 && i ≠ 2
    boxes := fun i =>
      if i = 0 then ⟨sampleName, 300, 1, 2, 1, none⟩
      else if i = 2 then ⟨secondName, 7, 0, 1, 1, none⟩
      else staticBox }

theorem gapped_used : gapped.freeBoxes i = false ↔ i = 0 ∨ i = 2 := by
  rw [show gapped.freeBoxes i = (decide (i ≠ 0) && decide (i ≠ 2)) from rfl]
  by_cases h : i = 0 <;> simp [h]

theorem gapped_table : TableInvariant gapped where
  numBoxes := by decide +kernel
  le := by decide
  free := by decide +kernel
  distinct i _ j _ hi hj hname := by
    have hdiffer : (gapped.boxes 0).boxName.str ≠ (gapped.boxes 2).boxName.str := by decide +kernel
    rcases gapped_used.mp hi with rfl | rfl <;> rcases gapped_used.mp hj with rfl | rfl
    · rfl
    · exact absurd hname hdiffer
    · exact absurd hname.symm hdiffer
    · rfl

theorem list_round_trip_two :
    ∃ b' boxes, gapped.serve 0 (sampleRequest opCodeListBoxes) 3 true = some b' ∧
      listBoxes id (b'.output 0 3) = .printed boxes [] ∧
      boxes.Perm [⟨.ofBytes [47, 97], 300, 1, 2⟩, ⟨.ofBytes [47, 98], 7, 0, 1⟩] := by
  have hword : ∀ i < maxBoxes, gapped.freeBoxes i = false → (gapped.boxes i).InWord := by
    intro i _ hused
    rcases gapped_used.mp hused with rfl | rfl <;> exact ⟨by decide, by decide, by decide⟩
  obtain ⟨b', hserve, -, -, hprinted⟩ := list_round_trip (w := 0)
    (r := sampleRequest opCodeListBoxes)
    (show ∀ l : List ListedBox, (id l).Perm l from fun l => .refl l) rfl
      (show 0 < 1 by decide) rfl rfl
    (show gapped.fds 3 = false from rfl) gapped_table hword true
  obtain ⟨boxes, hread, hperm⟩ := hprinted (show (2 : Int) ≠ 0 by decide)
  have hused : (gapped.usedBoxes 0 maxBoxes).map Box.listed
      = [⟨.ofBytes [47, 97], 300, 1, 2⟩, ⟨.ofBytes [47, 98], 7, 0, 1⟩] := by decide +kernel
  exact ⟨b', boxes, hserve, hread, hused ▸ hperm⟩

end Broker

end MBroker
