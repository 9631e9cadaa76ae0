import MBroker.Fs.Invariant

/-!
# What each operation does to a well-formed file system

For every operation and every branch, the state it leaves and the value it
returns, as one of the changes of `MBroker.Fs.Invariant`. No operation stops
the process in a well-formed state as long as `tfs_read` and `tfs_write` are
called on a handle of a live file.

Results:
1. `tfsOpen_existing`, `tfsOpen_create`, `tfsOpen_no_inode`, `tfsOpen_no_entry`:
   `tfs_open`.
2. `tfsWrite_of`, `tfsWrite_full`, `tfsRead_of`: the data operations.
3. `tfsUnlink_of`: `tfs_unlink`.
4. `tfsInit_of`: `tfs_init` leaves a well-formed state.
-/

namespace MBroker.Fs

open FirstFit ByteMemory

variable {s : State} {i k b fd : Nat} {n p : CStr} {mode : Nat}

/-! ## Lookup and creation -/

theorem validPathname_pos (hp : validPathname (some p) = true) : 0 < p.tail.length := by
  simp only [validPathname, Bool.and_eq_true, decide_eq_true_eq] at hp
  have := hp.1
  simp only [CStr.length, CStr.tail, List.length_tail] at this ⊢
  omega

/-- Two valid paths of one name are equal: both start with a slash. -/
theorem path_of_tail {q : CStr} (hp : validPathname (some p) = true)
    (hq : validPathname (some q) = true) (h : p.tail = q.tail) : p = q := by
  have hhead : ∀ r : CStr, validPathname (some r) = true → r.bytes = 47 :: r.tail.bytes := by
    intro r hr
    simp only [validPathname, Bool.and_eq_true, beq_iff_eq] at hr
    exact List.eq_cons_of_mem_head? hr.2
  refine CStr.ext ?_
  rw [hhead p hp, hhead q hq, h]

theorem inodeGet_root (h : RootWf s) : inodeGet s rootDirInum = .ok 0 :=
  inodeGet_of h.toSized h.inode_pos

theorem tfsLookup_of (h : FilesWf s) (hp : validPathname (some p) = true) :
    tfsLookup s p 0 = .ok (foundInumber (s.lookup p.tail)) := by
  rw [tfsLookup, hp]
  exact findInDir_eq h.root h.dir p.tail

/-- Inode `k` marked and set up as an empty file, not yet in the directory. -/
def State.newInode (s : State) (k : Nat) : State :=
  { s with freeinodeTs := Function.update s.freeinodeTs k .taken }.setInode k ⟨.tFile, 0, -1⟩

theorem inodeCreate_file (h : Sized s) :
    inodeCreate s .tFile = .ok (match s.freeInode with
      | some k => (s.newInode k, (k : Int))
      | none => (s, -1)) := by
  simp only [inodeCreate, inodeAlloc_of h, ok_bind]
  cases hk : s.freeInode with
  | none => simp
  | some k =>
    have hlt := (firstIndex_eq_some.mp hk).1
    have := h.inodes
    have hne : ¬ ((k : Int) = -1) := by omega
    simp only [if_neg hne, Int.toNat_natCast]
    rw [access_of_le (show k + 1 ≤ s.heap.inodes by omega)]
    rfl

theorem freeInode_some (h : FilesWf s) (hk : s.freeInode = some k) :
    0 < k ∧ k < s.fsParams.maxInodeCount ∧ s.freeinodeTs k = .free := by
  obtain ⟨hlt, hfree, -⟩ := firstIndex_eq_some.mp hk
  rw [beq_iff_eq] at hfree
  refine ⟨Nat.pos_of_ne_zero ?_, hlt, hfree⟩
  rintro rfl
  rw [h.linked.root_taken] at hfree
  cases hfree

/-! ## `tfs_open` -/

theorem tfsOpen_invalid {name : Option CStr} (hp : validPathname name = false) :
    tfsOpen s name mode = .ok (s, -1) := by
  simp [tfsOpen, hp]

theorem tfsOpen_absent (h : FilesWf s) (hp : validPathname (some p) = true)
    (hl : s.lookup p.tail = none) (hc : hasFlag mode tfsOCreat = false) :
    tfsOpen s (some p) mode = .ok (s, -1) := by
  simp [tfsOpen, hp, inodeGet_root h.root, tfsLookup_of h hp, hl, foundInumber, hc]

/-- The state in which an existing file is opened: emptied first, on request. -/
def State.openState (s : State) (mode k : Nat) : State :=
  if hasFlag mode tfsOTrunc then s.truncate k else s

/-- The offset of a new handle. -/
def State.openOffset (s : State) (mode k : Nat) : Nat :=
  if hasFlag mode tfsOAppend then ((s.openState mode k).inodeTable k).iSize else 0

theorem truncate_of_empty (hs : (s.inodeTable k).iSize = 0) : s.truncate k = s := by
  have hself : { s.inodeTable k with iSize := 0 } = s.inodeTable k := by
    rw [← hs]
  have hnot : ¬ 0 < (s.inodeTable k).iSize := by omega
  rw [State.truncate, hself, State.setInode, State.releaseBlock, if_neg hnot]
  simp only [Function.update_eq_self]

theorem tfsOpen_existing (h : FilesWf s) (hp : validPathname (some p) = true)
    (hl : s.lookup p.tail = some k) :
    tfsOpen s (some p) mode
      = .ok ((s.openState mode k).openHandle k (s.openOffset mode k)) := by
  have hlive := h.linked.live _ k hl
  have hnn : (0 : Int) ≤ k := Int.natCast_nonneg k
  have hsized : Sized (s.openState mode k) := by
    unfold State.openState
    split
    · exact h.root.toSized.of_eq rfl rfl
    · exact h.root.toSized
  simp only [tfsOpen, hp, inodeGet_root h.root, tfsLookup_of h hp, hl, foundInumber, ok_bind,
    Bool.not_true, Bool.false_eq_true, if_false, Option.getD_some, ge_iff_le, hnn, if_true,
    inodeGet_of h.root.toSized hlive.lt]
  rw [← addToOpenFileTable_eq hsized]
  unfold State.openOffset State.openState
  by_cases ht : hasFlag mode tfsOTrunc = true
  · by_cases hs : 0 < (s.inodeTable k).iSize
    · obtain ⟨b, hb, -, hblt, -⟩ := h.blocks.valid k hlive hs
      have hfree : dataBlockFree s (s.inodeTable k).iDataBlock = .ok (s.releaseBlock k) := by
        rw [hb, dataBlockFree_of h.root.toSized hblt, State.releaseBlock, if_pos hs, hb,
          Int.toNat_natCast]
      simp only [ht, hs, decide_true, Bool.and_self, if_true, hfree, ok_bind, pure_eq_ok]
      rfl
    · have hzero : (s.inodeTable k).iSize = 0 := by omega
      simp [ht, hzero, truncate_of_empty hzero]
  · rw [Bool.not_eq_true] at ht
    simp [ht]

section Create

variable (h : FilesWf s) (hp : validPathname (some p) = true) (hl : s.lookup p.tail = none)
  (hc : hasFlag mode tfsOCreat = true)
include h hp hl hc

theorem tfsOpen_no_inode (hk : s.freeInode = none) : tfsOpen s (some p) mode = .ok (s, -1) := by
  simp [tfsOpen, hp, inodeGet_root h.root, tfsLookup_of h hp, hl, foundInumber, hc,
    inodeCreate_file h.root.toSized, hk]

omit h hp hl hc in
theorem rootWf_newInode (h : RootWf s) (h0 : 0 < k) : RootWf (s.newInode k) :=
  h.of_same rfl rfl (Function.update_of_ne (Nat.ne_of_lt h0) ..)

/-- The inode is given back when the directory takes no more names, or not this
one; it was free before, so only its table entry has changed. -/
theorem tfsOpen_no_entry (hk : s.freeInode = some k)
    (hfull : 39 < p.tail.length ∨ s.freeSlot = none) :
    tfsOpen s (some p) mode = .ok (s.setInode k ⟨.tFile, 0, -1⟩, -1) := by
  obtain ⟨h0, hklt, hfree⟩ := freeInode_some h hk
  have hroot := rootWf_newInode h.root h0
  have hadd : addDirEntry (s.newInode k) 0 p.tail k = .ok (s.newInode k, -1) := by
    by_cases hlen : 39 < p.tail.length
    · exact addDirEntry_of_long hlen k
    · have hslot : (s.newInode k).freeSlot = none :=
        (SameDir.freeSlot (t := s.newInode k) ⟨rfl, fun _ _ => rfl⟩).trans
          (hfull.resolve_left hlen)
      rw [addDirEntry_eq hroot (validPathname_pos hp) (by omega), hslot]
  have hdel : inodeDelete (s.newInode k) k = .ok (s.setInode k ⟨.tFile, 0, -1⟩) := by
    have hsize : ((s.newInode k).inodeTable k).iSize = 0 := by
      simp [State.newInode, State.setInode]
    rw [inodeDelete_of hroot.toSized hklt (Function.update_self ..)
      (fun hpos => by rw [hsize] at hpos; omega), State.releaseBlock, hsize]
    simp [State.newInode, State.setInode, ← hfree]
  have hne : ¬ ((k : Int) = -1) := by omega
  simp [tfsOpen, hp, inodeGet_root h.root, tfsLookup_of h hp, hl, foundInumber, hc,
    inodeCreate_file h.root.toSized, hk, hne, hadd, hdel]

theorem tfsOpen_create (hk : s.freeInode = some k) (hslot : s.freeSlot = some i)
    (hlen : p.tail.length ≤ 39) :
    tfsOpen s (some p) mode = .ok ((s.createFile k i p.tail).openHandle k 0) := by
  obtain ⟨h0, hklt, hfree⟩ := freeInode_some h hk
  have hroot := rootWf_newInode h.root h0
  have hslot' : (s.newInode k).freeSlot = some i :=
    (SameDir.freeSlot (t := s.newInode k) ⟨rfl, fun _ _ => rfl⟩).trans hslot
  have hadd : addDirEntry (s.newInode k) 0 p.tail k = .ok (s.createFile k i p.tail, 0) := by
    rw [addDirEntry_eq hroot (validPathname_pos hp) hlen, hslot']
    rfl
  have hopen := addToOpenFileTable_eq
    (show Sized (s.createFile k i p.tail) from h.root.toSized.of_eq rfl rfl) k 0
  have hne : ¬ ((k : Int) = -1) := by omega
  simp [tfsOpen, hp, inodeGet_root h.root, tfsLookup_of h hp, hl, foundInumber, hc,
    inodeCreate_file h.root.toSized, hk, hne, hadd, hopen]

end Create

/-- Everything `tfs_open` can do. -/
inductive Opened (s : State) (path : Option CStr) (mode : Nat) : State × Int → Prop
  | refused : Opened s path mode (s, -1)
  | noEntry {k : Nat} : s.freeInode = some k → Opened s path mode (s.setInode k ⟨.tFile, 0, -1⟩, -1)
  | existing {p : CStr} {k : Nat} : path = some p → validPathname path = true →
      s.lookup p.tail = some k →
      Opened s path mode ((s.openState mode k).openHandle k (s.openOffset mode k))
  | created {p : CStr} {k i : Nat} : path = some p → validPathname path = true →
      s.lookup p.tail = none → s.freeInode = some k → s.freeSlot = some i → p.tail.length ≤ 39 →
      Opened s path mode ((s.createFile k i p.tail).openHandle k 0)

theorem tfsOpen_cases (h : FilesWf s) (path : Option CStr) (mode : Nat) :
    ∃ r, tfsOpen s path mode = .ok r ∧ Opened s path mode r := by
  by_cases hv : validPathname path = true
  · cases path with
    | none => cases hv
    | some p =>
      cases hl : s.lookup p.tail with
      | some k => exact ⟨_, tfsOpen_existing h hv hl, .existing rfl hv hl⟩
      | none =>
        by_cases hc : hasFlag mode tfsOCreat = true
        · cases hk : s.freeInode with
          | none => exact ⟨_, tfsOpen_no_inode h hv hl hc hk, .refused⟩
          | some k =>
            by_cases hlen : p.tail.length ≤ 39
            · cases hslot : s.freeSlot with
              | none => exact ⟨_, tfsOpen_no_entry h hv hl hc hk (Or.inr hslot), .noEntry hk⟩
              | some i =>
                exact ⟨_, tfsOpen_create h hv hl hc hk hslot hlen, .created rfl hv hl hk hslot hlen⟩
            · exact ⟨_, tfsOpen_no_entry h hv hl hc hk (Or.inl (by omega)), .noEntry hk⟩
        · rw [Bool.not_eq_true] at hc
          exact ⟨_, tfsOpen_absent h hv hl hc, .refused⟩
  · rw [Bool.not_eq_true] at hv
    exact ⟨_, tfsOpen_invalid hv, .refused⟩

theorem openHandle_params (s : State) (k : Int) (offset : Nat) :
    (s.openHandle k offset).1.fsParams = s.fsParams := by
  unfold State.openHandle
  split <;> rfl

theorem Opened.params {path : Option CStr} {r : State × Int} (h : Opened s path mode r) :
    r.1.fsParams = s.fsParams := by
  cases h with
  | refused => rfl
  | noEntry => rfl
  | existing =>
    refine (openHandle_params _ _ _).trans ?_
    unfold State.openState
    split <;> rfl
  | created => exact openHandle_params _ _ _

theorem size_le_block (h : FilesWf s) (hk : s.Live k) :
    (s.inodeTable k).iSize ≤ s.fsParams.blockSize := by
  rcases Nat.eq_zero_or_pos (s.inodeTable k).iSize with hs | hs
  · omega
  · obtain ⟨b, -, -, -, -, hle⟩ := h.blocks.valid k hk hs
    exact hle

theorem openState_wellFormed (h : WellFormed s) (hk : s.Live k) :
    WellFormed (s.openState mode k) := by
  unfold State.openState
  split
  · exact h.truncate hk
  · exact h

theorem live_openState : (s.openState mode k).Live fd ↔ s.Live fd := by
  unfold State.openState
  split
  · exact live_iff rfl rfl
  · exact Iff.rfl

theorem Opened.wellFormed (h : WellFormed s) {path : Option CStr} {r : State × Int}
    (ho : Opened s path mode r) : WellFormed r.1 := by
  cases ho with
  | refused => exact h
  | noEntry hk =>
    obtain ⟨h0, -, hfree⟩ := freeInode_some h.toFilesWf hk
    exact h.setInode h0 (not_live_of_free hfree) _
  | @existing p k hp hv hl =>
    have hwf : WellFormed (s.openState mode k) := openState_wellFormed h (h.linked.live _ _ hl)
    have hlive : (s.openState mode k).Live k := live_openState.mpr (h.linked.live _ _ hl)
    have hsize := size_le_block hwf.toFilesWf hlive
    refine hwf.openHandle hlive.pos hlive.lt ?_
    unfold State.openOffset
    split
    · exact hsize
    · exact Nat.zero_le _
  | created hp hv hl hk hslot hlen =>
    obtain ⟨h0, hlt, hfree⟩ := freeInode_some h.toFilesWf hk
    subst hp
    exact (h.createFile h0 hlt hfree hslot (validPathname_pos hv) hlen hl).openHandle h0 hlt
      (Nat.zero_le _)

/-! ## `tfs_write` and `tfs_read` -/

/-- How many of `len` bytes fit in a block from an offset on. -/
theorem toWrite_eq {len offset bs : Nat} (hoff : offset ≤ bs) (hbs : bs ≤ 2147483647)
    (hlen : len < 9223372036854775808) :
    (if addSize len offset > bs then subSize bs offset else len) = min len (bs - offset) := by
  rw [addSize_of_lt (by unfold word; omega), subSize_of_le hoff (by unfold word; omega)]
  split <;> omega

/-- The last bytes of a range of a block are inside `fs_data`. -/
theorem block_end (h : Sized s) (hb : b < s.fsParams.maxBlockCount) {x : Nat}
    (hx : x ≤ s.fsParams.blockSize) : b * s.fsParams.blockSize + x ≤ s.heap.data := by
  have hmul := Nat.mul_le_mul_right s.fsParams.blockSize (Nat.succ_le_of_lt hb)
  have hdata := h.data
  rw [Nat.succ_mul] at hmul
  omega

@[simp] theorem heap_setInode (s : State) (k : Nat) (inode : Inode) :
    (s.setInode k inode).heap = s.heap := rfl

/-- The two updates of the inode, the second one only if the file has grown,
are those of `writeAt`. -/
theorem writeBlock_of (h : Sized s) (hb : b < s.fsParams.maxBlockCount) {buffer : List UInt8}
    {m : Nat} (hbuf : m ≤ buffer.length)
    (hfit : (s.openFileTable fd).ofOffset + m ≤ s.fsParams.blockSize) :
    writeBlock s fd k b buffer m = .ok (s.writeAt fd k b (buffer.take m), (m : Int)) := by
  have hbs := h.block_int
  have hlen : (buffer.take m).length = m := by rw [List.length_take, Nat.min_eq_left hbuf]
  have hend := block_end h hb hfit
  rw [← Nat.add_assoc] at hend
  have hget : dataBlockGet (s.setInode k { s.inodeTable k with iDataBlock := b }) b
      = .ok (b * s.fsParams.blockSize) := dataBlockGet_of hb
  have hadd : addSize (s.openFileTable fd).ofOffset m = (s.openFileTable fd).ofOffset + m :=
    addSize_of_lt (by unfold word; omega)
  simp only [writeBlock, hget, ok_bind, access_of_le hbuf, hadd, pure_eq_ok,
    toSsize_of_lt (show m < 9223372036854775808 by omega)]
  rw [heap_setInode, access_of_le hend, ok_bind]
  congr 2
  simp only [State.setOffset, State.setInode, Function.update_self, State.writeAt, hlen]
  split
  · next hgt =>
    rw [Function.update_idem, max_eq_right (Nat.le_of_lt hgt)]
  · next hle =>
    rw [max_eq_left (Nat.le_of_not_lt hle)]

/-- How many bytes `tfs_write` decides to write. -/
def State.toWrite (s : State) (fd toWrite : Nat) : Nat :=
  if addSize toWrite (s.openFileTable fd).ofOffset > s.stateBlockSize then
    subSize s.stateBlockSize (s.openFileTable fd).ofOffset
  else toWrite

theorem toWrite_of_le {toWrite m : Nat} (h : Sized s)
    (hoff : (s.openFileTable fd).ofOffset ≤ s.fsParams.blockSize)
    (hword : toWrite < 9223372036854775808)
    (hm : m = min toWrite (s.fsParams.blockSize - (s.openFileTable fd).ofOffset)) :
    s.toWrite fd toWrite = m :=
  (toWrite_eq hoff h.block_int hword).trans hm.symm

section Write

variable {fhandle : Int} {buffer : List UInt8} {toWrite m : Nat} (h : Sized s)
  (hh : s.handle fhandle = some fd) (hk : (s.openFileTable fd).ofInumber = k)
  (hlt : k < s.fsParams.maxInodeCount) (hcut : s.toWrite fd toWrite = m)
include h hh hk hlt hcut

theorem tfsWrite_nothing (hzero : m = 0) : tfsWrite s fhandle buffer toWrite = .ok (s, 0) := by
  unfold State.toWrite at hcut
  simp only [tfsWrite, getOpenFileEntry_eq h, hh, ok_bind, hk, inodeGet_of h hlt, hcut, hzero,
    if_true, pure_eq_ok]

/-- An empty file gets its first block, and there is none left. -/
theorem tfsWrite_full (hpos : 0 < m) (hs : (s.inodeTable k).iSize = 0)
    (hfull : s.freeBlock = none) :
    tfsWrite s fhandle buffer toWrite = .ok (s, -1) := by
  unfold State.toWrite at hcut
  have hne : ¬ m = 0 := by omega
  simp only [tfsWrite, getOpenFileEntry_eq h, hh, ok_bind, hk, inodeGet_of h hlt, hcut, hne, hs,
    if_false, if_true, dataBlockAlloc_of h, hfull, pure_eq_ok]

/-- The first block of an empty file is the first free one. -/
theorem tfsWrite_alloc (hlen : m ≤ buffer.length)
    (hfit : (s.openFileTable fd).ofOffset + m ≤ s.fsParams.blockSize) (hpos : 0 < m)
    (hs : (s.inodeTable k).iSize = 0) (hb : s.freeBlock = some b) :
    tfsWrite s fhandle buffer toWrite
      = .ok ((s.takeBlock b).writeAt fd k b (buffer.take m), (m : Int)) := by
  unfold State.toWrite at hcut
  have hne : ¬ m = 0 := by omega
  have hbne : ¬ ((b : Int) = -1) := by omega
  have hwrite : writeBlock (s.takeBlock b) fd k b buffer m
      = .ok ((s.takeBlock b).writeAt fd k b (buffer.take m), (m : Int)) :=
    writeBlock_of (s := s.takeBlock b) (k := k) (m := m) (h.of_eq rfl rfl)
      (firstIndex_eq_some.mp hb).1 hlen hfit
  simp only [tfsWrite, getOpenFileEntry_eq h, hh, ok_bind, hk, inodeGet_of h hlt, hcut, hne, hs,
    if_false, if_true, dataBlockAlloc_of h, hb, hbne]
  exact hwrite

/-- A file that is not empty keeps its block. -/
theorem tfsWrite_own (hlen : m ≤ buffer.length)
    (hfit : (s.openFileTable fd).ofOffset + m ≤ s.fsParams.blockSize) (hpos : 0 < m)
    (hs : 0 < (s.inodeTable k).iSize) (hb : (s.inodeTable k).iDataBlock = b)
    (hblt : b < s.fsParams.maxBlockCount) :
    tfsWrite s fhandle buffer toWrite = .ok (s.writeAt fd k b (buffer.take m), (m : Int)) := by
  unfold State.toWrite at hcut
  have hne : ¬ m = 0 := by omega
  have hsne : ¬ (s.inodeTable k).iSize = 0 := by omega
  have hwrite : writeBlock s fd k b buffer m = .ok (s.writeAt fd k b (buffer.take m), (m : Int)) :=
    writeBlock_of h hblt hlen hfit
  simp only [tfsWrite, getOpenFileEntry_eq h, hh, ok_bind, hk, inodeGet_of h hlt, hcut, hne, hsne,
    if_false, hb]
  exact hwrite

end Write

section Read

variable {fhandle : Int} {len m : Nat} (h : Sized s)
  (hh : s.handle fhandle = some fd) (hk : (s.openFileTable fd).ofInumber = k)
  (hlt : k < s.fsParams.maxInodeCount)
  (hm : m = if subSize (s.inodeTable k).iSize (s.openFileTable fd).ofOffset > len then len
    else subSize (s.inodeTable k).iSize (s.openFileTable fd).ofOffset)
include h hh hk hlt hm

theorem tfsRead_nothing (hzero : m = 0) : tfsRead s fhandle len = .ok (s, 0, []) := by
  simp only [tfsRead, getOpenFileEntry_eq h, hh, ok_bind, hk, inodeGet_of h hlt, ← hm, hzero,
    if_true, pure_eq_ok]

theorem tfsRead_some (hpos : 0 < m) (hb : (s.inodeTable k).iDataBlock = b)
    (hblt : b < s.fsParams.maxBlockCount)
    (hfit : (s.openFileTable fd).ofOffset + m ≤ s.fsParams.blockSize) :
    tfsRead s fhandle len = .ok (s.setOffset fd ((s.openFileTable fd).ofOffset + m), (m : Int),
      read s.fsData (b * s.fsParams.blockSize + (s.openFileTable fd).ofOffset) m) := by
  have hne : ¬ m = 0 := by omega
  have hbs := h.block_int
  have hend := block_end h hblt hfit
  rw [← Nat.add_assoc] at hend
  have hadd : addSize (s.openFileTable fd).ofOffset m = (s.openFileTable fd).ofOffset + m :=
    addSize_of_lt (by unfold word; omega)
  simp only [tfsRead, getOpenFileEntry_eq h, hh, ok_bind, hk, inodeGet_of h hlt, ← hm, hne,
    if_false, hb, dataBlockGet_of hblt, access_of_le hend, hadd, pure_eq_ok,
    toSsize_of_lt (show m < 9223372036854775808 by omega)]

end Read

/-- Up to the end of the file, a read takes what is asked for or what is left. -/
theorem toRead_eq {len offset size : Nat} (hoff : offset ≤ size) (hsize : size ≤ 2147483647) :
    (if subSize size offset > len then len else subSize size offset) = min len (size - offset) := by
  rw [subSize_of_le hoff (by unfold word; omega)]
  split <;> omega

theorem tfsWrite_closed (h : Sized s) {fhandle : Int} (hh : s.handle fhandle = none)
    (buffer : List UInt8) (toWrite : Nat) : tfsWrite s fhandle buffer toWrite = .ok (s, -1) := by
  simp only [tfsWrite, getOpenFileEntry_eq h, hh, ok_bind, pure_eq_ok]

theorem tfsRead_closed (h : Sized s) {fhandle : Int} (hh : s.handle fhandle = none) (len : Nat) :
    tfsRead s fhandle len = .ok (s, -1, []) := by
  simp only [tfsRead, getOpenFileEntry_eq h, hh, ok_bind, pure_eq_ok]

/-- Everything `tfs_write` can do through handle `fd` of the live inode `k`;
`m` bytes of the buffer fit. -/
inductive Written (s : State) (fd k : Nat) (buffer : List UInt8) (m : Nat) : State × Int → Prop
  | nothing : m = 0 → Written s fd k buffer m (s, 0)
  | full : 0 < m → (s.inodeTable k).iSize = 0 → s.freeBlock = none →
      Written s fd k buffer m (s, -1)
  | alloc {b : Nat} : 0 < m → (s.inodeTable k).iSize = 0 → s.freeBlock = some b →
      Written s fd k buffer m ((s.takeBlock b).writeAt fd k b (buffer.take m), (m : Int))
  | own {b : Nat} : 0 < m → 0 < (s.inodeTable k).iSize → (s.inodeTable k).iDataBlock = b →
      s.Room k b → Written s fd k buffer m (s.writeAt fd k b (buffer.take m), (m : Int))

section WellFormedWrite

variable {fhandle : Int} {buffer : List UInt8} {m : Nat} {r : State × Int} (h : WellFormed s)
  (hh : s.handle fhandle = some fd) (hi : (s.openFileTable fd).ofInumber = k) (hk : s.Live k)
include h hh hi hk

theorem tfsWrite_cases (hlen : buffer.length < 9223372036854775808)
    (hm : m = min buffer.length (s.fsParams.blockSize - (s.openFileTable fd).ofOffset)) :
    ∃ r, tfsWrite s fhandle buffer buffer.length = .ok r ∧ Written s fd k buffer m r := by
  obtain ⟨-, hfd, ht⟩ := handle_eq_some hh
  have hoff := (h.handles fd hfd ht).2
  have hsized := h.root.toSized
  have hcut := toWrite_of_le hsized hoff hlen hm
  rcases Nat.eq_zero_or_pos m with hzero | hpos
  · exact ⟨_, tfsWrite_nothing hsized hh hi hk.lt hcut hzero, .nothing hzero⟩
  rcases Nat.eq_zero_or_pos (s.inodeTable k).iSize with hs | hs
  · cases hb : s.freeBlock with
    | none => exact ⟨_, tfsWrite_full hsized hh hi hk.lt hcut hpos hs hb, .full hpos hs hb⟩
    | some b =>
      exact ⟨_, tfsWrite_alloc hsized hh hi hk.lt hcut (by omega) (by omega) hpos hs hb,
        .alloc hpos hs hb⟩
  · obtain ⟨b, hb, hroom⟩ := h.room_own hk hs
    exact ⟨_, tfsWrite_own hsized hh hi hk.lt hcut (by omega) (by omega) hpos hs hb hroom.lt,
      .own hpos hs hb hroom⟩

omit hi hk in
theorem write_fits
    (hm : m = min buffer.length (s.fsParams.blockSize - (s.openFileTable fd).ofOffset)) :
    (s.openFileTable fd).ofOffset + (buffer.take m).length ≤ s.fsParams.blockSize := by
  obtain ⟨-, hfd, ht⟩ := handle_eq_some hh
  have hoff := (h.handles fd hfd ht).2
  rw [List.length_take]
  omega

omit hi in
theorem Written.wellFormed (hw : Written s fd k buffer m r)
    (hm : m = min buffer.length (s.fsParams.blockSize - (s.openFileTable fd).ofOffset)) :
    WellFormed r.1 := by
  have hfit := write_fits h hh hm
  cases hw with
  | nothing => exact h
  | full => exact h
  | alloc _ _ hb =>
    obtain ⟨hblt, hfree, -⟩ := firstIndex_eq_some.mp hb
    rw [beq_iff_eq] at hfree
    have hsize : (s.inodeTable k).iSize ≤ s.fsParams.blockSize := size_le_block h.toFilesWf hk
    exact (h.takeBlock hfree).writeAt ⟨hk.pos, hk.lt, hk.taken⟩ (h.room_fresh hfree hblt k) hfit
      hsize
  | own _ _ _ hroom => exact h.writeAt hk hroom hfit (size_le_block h.toFilesWf hk)

omit hi hk in
/-- The frame of a write: every other file is as before. -/
theorem Written.others (hw : Written s fd k buffer m r)
    (hm : m = min buffer.length (s.fsParams.blockSize - (s.openFileTable fd).ofOffset)) {k' : Nat}
    (hk' : s.Live k') (hne : k' ≠ k) : r.1.Live k' ∧ r.1.content k' = s.content k' := by
  have hfit := write_fits h hh hm
  cases hw with
  | nothing => exact ⟨hk', rfl⟩
  | full => exact ⟨hk', rfl⟩
  | alloc _ _ hb =>
    obtain ⟨hblt, hfree, -⟩ := firstIndex_eq_some.mp hb
    rw [beq_iff_eq] at hfree
    refine ⟨⟨hk'.pos, hk'.lt, hk'.taken⟩, ?_⟩
    exact content_writeAt_of_ne (h.toFilesWf.takeBlock hfree) (h.room_fresh hfree hblt k) hfit
      ⟨hk'.pos, hk'.lt, hk'.taken⟩ hne
  | own _ _ _ hroom =>
    exact ⟨⟨hk'.pos, hk'.lt, hk'.taken⟩, content_writeAt_of_ne h.toFilesWf hroom hfit hk' hne⟩

end WellFormedWrite

/-- Everything `tfs_read` can do through handle `fd` of the live inode `k`, if the
bytes it takes lie in the data block of the file. -/
inductive ReadBack (s : State) (fd k : Nat) : State × Int × List UInt8 → Prop
  | nothing : ReadBack s fd k (s, 0, [])
  | some {b m : Nat} : 0 < m → 0 < (s.inodeTable k).iSize → (s.inodeTable k).iDataBlock = b →
      s.Room k b → (s.openFileTable fd).ofOffset + m ≤ s.fsParams.blockSize →
      ReadBack s fd k (s.setOffset fd ((s.openFileTable fd).ofOffset + m), (m : Int),
        read s.fsData (b * s.fsParams.blockSize + (s.openFileTable fd).ofOffset) m)

/-- The bytes from the offset on lie in the file, or at least in its block. -/
def State.Inside (s : State) (fd k len : Nat) : Prop :=
  (s.openFileTable fd).ofOffset ≤ (s.inodeTable k).iSize ∨ len = 0 ∨
    (0 < (s.inodeTable k).iSize ∧ (s.openFileTable fd).ofOffset + len ≤ s.fsParams.blockSize)

theorem tfsRead_cases (h : WellFormed s) {fhandle : Int} {len : Nat}
    (hh : s.handle fhandle = some fd) (hi : (s.openFileTable fd).ofInumber = k) (hk : s.Live k)
    (hin : s.Inside fd k len) :
    ∃ r, tfsRead s fhandle len = .ok r ∧ ReadBack s fd k r := by
  have hsize := size_le_block h.toFilesWf hk
  have hint := h.root.block_int
  generalize hm : (if subSize (s.inodeTable k).iSize (s.openFileTable fd).ofOffset > len then len
    else subSize (s.inodeTable k).iSize (s.openFileTable fd).ofOffset) = m
  have hfit : m = 0 ∨ (0 < (s.inodeTable k).iSize ∧
      (s.openFileTable fd).ofOffset + m ≤ s.fsParams.blockSize) := by
    rcases hin with hoff | hzero | ⟨hs, hend⟩
    · rw [toRead_eq hoff (by omega)] at hm
      omega
    · left
      subst hzero
      split at hm <;> omega
    · right
      refine ⟨hs, ?_⟩
      split at hm <;> omega
  rcases Nat.eq_zero_or_pos m with hzero | hpos
  · exact ⟨_, tfsRead_nothing h.root.toSized hh hi hk.lt hm.symm hzero, .nothing⟩
  · obtain ⟨hs, hend⟩ := hfit.resolve_left (by omega)
    obtain ⟨b, hb, hroom⟩ := h.room_own hk hs
    exact ⟨_, tfsRead_some h.root.toSized hh hi hk.lt hm.symm hpos hb hroom.lt hend,
      .some hpos hs hb hroom hend⟩

theorem ReadBack.wellFormed (h : WellFormed s) {r : State × Int × List UInt8}
    (hr : ReadBack s fd k r) : WellFormed r.1 := by
  cases hr with
  | nothing => exact h
  | some _ _ _ _ hend => exact h.setOffset hend

/-! ## `tfs_unlink` -/

theorem tfsUnlink_invalid {name : Option CStr} (hp : validPathname name = false) :
    tfsUnlink s name = .ok (s, -1) := by
  simp [tfsUnlink, hp]

theorem tfsUnlink_absent (h : FilesWf s) (hp : validPathname (some p) = true)
    (hl : s.lookup p.tail = none) : tfsUnlink s (some p) = .ok (s, -1) := by
  simp [tfsUnlink, hp, inodeGet_root h.root, tfsLookup_of h hp, hl, foundInumber]

theorem exists_slot (h : FilesWf s) (hl : s.lookup n = some k) :
    ∃ i < s.maxDirEntries, s.entry i = some (n, k) := (lookup_eq_some h.dir).mp hl

theorem tfsUnlink_of (h : FilesWf s) (hp : validPathname (some p) = true)
    (hl : s.lookup p.tail = some k) (hi : i < s.maxDirEntries)
    (he : s.entry i = some (p.tail, k)) :
    tfsUnlink s (some p) = .ok (s.removeFile k i, 0) := by
  have hlive := h.linked.live _ k hl
  have hdel := inodeDelete_of h.root.toSized hlive.lt hlive.taken fun hs => by
    obtain ⟨b, hb, -, hblt, -⟩ := h.blocks.valid k hlive hs
    exact ⟨b, hb, hblt⟩
  have hsame : SameDir s { s.releaseBlock k with
      freeinodeTs := Function.update s.freeinodeTs k .free } := ⟨rfl, fun _ _ => rfl⟩
  have hclear := clearDirEntry_of (h.root.of_same (t := { s.releaseBlock k with
      freeinodeTs := Function.update s.freeinodeTs k .free }) rfl rfl rfl)
    (h.dir.of_same hsame) (hsame.maxDirEntries ▸ hi) ((hsame.entry hi).trans he)
  have hne : ¬ ((k : Int) = -1) := by omega
  simp only [tfsUnlink, hp, inodeGet_root h.root, tfsLookup_of h hp, hl, foundInumber, ok_bind,
    Bool.not_true, Bool.false_eq_true, if_false, Option.getD_some, hne, hdel, hclear]
  rfl

/-- Everything `tfs_unlink` can do. -/
inductive Unlinked (s : State) (target : Option CStr) : State × Int → Prop
  | refused : Unlinked s target (s, -1)
  | removed {p : CStr} {k i : Nat} : target = some p → s.lookup p.tail = some k →
      i < s.maxDirEntries → s.entry i = some (p.tail, k) →
      Unlinked s target (s.removeFile k i, 0)

theorem tfsUnlink_cases (h : FilesWf s) (target : Option CStr) :
    ∃ r, tfsUnlink s target = .ok r ∧ Unlinked s target r := by
  by_cases hv : validPathname target = true
  · cases target with
    | none => cases hv
    | some p =>
      cases hl : s.lookup p.tail with
      | none => exact ⟨_, tfsUnlink_absent h hv hl, .refused⟩
      | some k =>
        obtain ⟨i, hi, he⟩ := exists_slot h hl
        exact ⟨_, tfsUnlink_of h hv hl hi he, .removed rfl hl hi he⟩
  · rw [Bool.not_eq_true] at hv
    exact ⟨_, tfsUnlink_invalid hv, .refused⟩

theorem Unlinked.params {target : Option CStr} {r : State × Int} (h : Unlinked s target r) :
    r.1.fsParams = s.fsParams := by
  cases h <;> rfl

theorem Unlinked.entries {target : Option CStr} {r : State × Int} (h : Unlinked s target r) :
    r.1.freeOpenFileEntries = s.freeOpenFileEntries := by
  cases h <;> rfl

theorem Unlinked.wellFormed (h : WellFormed s) {target : Option CStr} {r : State × Int}
    (hu : Unlinked s target r) : WellFormed r.1 := by
  cases hu with
  | refused => exact h
  | removed _ hl hi he => exact h.removeFile hl hi he

/-! ## `tfs_init` -/

theorem emptyEntries_read (m : Nat → UInt8) (base : Nat) {j n : Nat} (hj : j < n) :
    read (emptyEntries m base n) (base + dirEntrySize * j + maxFileName) 4 = le32 (-1) := by
  induction n with
  | zero => omega
  | succ n ih =>
    rw [emptyEntries]
    rcases Nat.eq_or_lt_of_le (Nat.le_of_lt_succ hj) with rfl | hlt
    · exact read_write_same _ _ (le32 (-1))
    · rw [read_write_disjoint, ih hlt]
      left
      unfold dirEntrySize maxFileName
      omega

/-- The state that a successful `tfs_init` leaves: the root directory in inode 0
and block 0, without entries. -/
def State.initial (s : State) (p : TfsParams) (m : Malloc) : State :=
  let s := s.freshTables p m
  { s with
    freeinodeTs := Function.update s.freeinodeTs 0 .taken
    freeBlocks := Function.update s.freeBlocks 0 .taken
    inodeTable := Function.update s.inodeTable 0 ⟨.tDirectory, p.blockSize, 0⟩
    fsData := emptyEntries s.fsData 0 s.maxDirEntries }

theorem firstIndex_zero {q : Nat → Bool} {n : Nat} (hn : 0 < n) (hq : q 0 = true) :
    firstIndex q n = some 0 :=
  firstIndex_eq_some.mpr ⟨hn, hq, fun j hj => absurd hj (Nat.not_lt_zero j)⟩

theorem freshTables_inode {q : TfsParams} {m : Malloc} (hk : k < q.maxInodeCount) :
    (s.freshTables q m).freeinodeTs k = .free := if_pos hk

theorem freshTables_block {q : TfsParams} {m : Malloc} (hb : b < q.maxBlockCount) :
    (s.freshTables q m).freeBlocks b = .free := if_pos hb

theorem freshTables_handle {q : TfsParams} {m : Malloc} (hfd : fd < q.maxOpenFilesCount) :
    (s.freshTables q m).freeOpenFileEntries fd = .free := if_pos hfd

theorem tfsInit_of {params : Option TfsParams} {q : TfsParams} {m : Malloc}
    (hq : q = params.getD tfsDefaultParams) (hr : q.Usable) (hnull : s.inodeTableNull = true)
    (hm : m.granted = true) : tfsInit s params m = .ok (s.initial q m, 0) := by
  have hsized := freshTables_sized (s := s) (m := m) hr.toFitsInt
  have hinode : (s.freshTables q m).freeInode = some 0 :=
    firstIndex_zero hr.inodes_pos (by rw [freshTables_inode hr.inodes_pos]; rfl)
  have hsized' : Sized { s.freshTables q m with
      freeinodeTs := Function.update (s.freshTables q m).freeinodeTs 0 .taken } :=
    hsized.of_eq rfl rfl
  have hblock : State.freeBlock { s.freshTables q m with
      freeinodeTs := Function.update (s.freshTables q m).freeinodeTs 0 .taken } = some 0 :=
    firstIndex_zero hr.blocks_pos (by rw [freshTables_block hr.blocks_pos]; rfl)
  have hget : ∀ u : State, u.fsParams = q → dataBlockGet u 0 = .ok 0 := fun u hu => by
    have := dataBlockGet_of (s := u) (b := 0) (by rw [hu]; exact hr.blocks_pos)
    rwa [Nat.zero_mul] at this
  have hdir : dirEntrySize * (s.freshTables q m).maxDirEntries ≤ q.maxBlockCount * q.blockSize :=
    (Nat.mul_div_le _ _).trans (Nat.le_mul_of_pos_left _ hr.blocks_pos)
  have hne : ¬ (0 : Int) = -1 := by omega
  have hpos : 0 + 1 ≤ (s.freshTables q m).heap.inodes := hr.inodes_pos
  have hcreate : inodeCreate (s.freshTables q m) .tDirectory = .ok (s.initial q m, 0) := by
    simp only [inodeCreate, inodeAlloc_of hsized, hinode, ok_bind, dataBlockAlloc_of hsized',
      hblock, Nat.cast_zero, Int.toNat_zero, if_neg hne, access_of_le hpos, heap_setInode]
    rw [hget _ (by rfl), ok_bind, Nat.zero_add, access_of_le]
    · rfl
    · exact hdir
  simp [tfsInit, ← hq, stateInit_of hr.toFitsInt hnull hm, hcreate, rootDirInum]

/-- Without an inode and a block for the root directory `tfs_init` fails. -/
theorem tfsInit_no_room {params : Option TfsParams} {q : TfsParams} {m : Malloc}
    (hq : q = params.getD tfsDefaultParams) (hr : q.FitsInt) (hnull : s.inodeTableNull = true)
    (hm : m.granted = true) (hroom : q.maxInodeCount = 0 ∨ q.maxBlockCount = 0) :
    ∃ t, tfsInit s params m = .ok (t, -1) := by
  have hsized := freshTables_sized (s := s) (m := m) hr
  cases hk : (s.freshTables q m).freeInode with
  | none =>
    refine ⟨s.freshTables q m, ?_⟩
    simp [tfsInit, ← hq, stateInit_of hr hnull hm, inodeCreate, inodeAlloc_of hsized, hk,
      rootDirInum]
  | some k =>
    have hklt : k < (s.freshTables q m).fsParams.maxInodeCount := (firstIndex_eq_some.mp hk).1
    have hblocks : (s.freshTables q m).fsParams.maxBlockCount = 0 :=
      hroom.resolve_left (Nat.ne_zero_of_lt hklt)
    have hne : ¬ ((k : Int) = -1) := by omega
    have hpos : k + 1 ≤ (s.freshTables q m).heap.inodes := hklt
    generalize hu : ({ s.freshTables q m with
        freeinodeTs := Function.update (s.freshTables q m).freeinodeTs k .taken } : State) = u
    have hpos' : k + 1 ≤ u.heap.inodes := by
      rw [← hu]
      exact hpos
    have hsized' : Sized u := by
      rw [← hu]
      exact hsized.of_eq rfl rfl
    have hblock : u.freeBlock = none := by
      rw [← hu, State.freeBlock, firstIndex_eq_none]
      exact fun j hj => absurd (hblocks ▸ hj) (Nat.not_lt_zero j)
    -- `inode_create` deletes the inode again when it finds no block.
    have hdel : ∃ v, inodeDelete (u.setInode k ⟨.tDirectory, 0, -1⟩) k = .ok v := by
      have hsize : ((u.setInode k ⟨.tDirectory, 0, -1⟩).inodeTable k).iSize = 0 := by
        simp [State.setInode]
      have hsized'' : Sized (u.setInode k ⟨.tDirectory, 0, -1⟩) := hsized'.of_eq rfl rfl
      refine ⟨_, inodeDelete_of hsized'' ?_ ?_ fun hs => absurd hs (by omega)⟩
      · rw [← hu]
        exact hklt
      · rw [← hu]
        exact Function.update_self ..
    obtain ⟨v, hv⟩ := hdel
    refine ⟨v, ?_⟩
    simp only [tfsInit, ← hq, stateInit_of hr hnull hm, inodeCreate, inodeAlloc_of hsized, hk,
      ok_bind, if_neg hne, Int.toNat_natCast, hu, dataBlockAlloc_of hsized', hblock, hv, if_true,
      pure_eq_ok, access_of_le hpos']
    simp [rootDirInum]

/-- `tfs_init` succeeds only where there was no file system, all tables were
allocated and there is room for the root directory. -/
theorem tfsInit_inv {t : State} {params : Option TfsParams} {m : Malloc}
    (hr : (params.getD tfsDefaultParams).FitsInt) (hinit : tfsInit s params m = .ok (t, 0)) :
    (params.getD tfsDefaultParams).Usable ∧ t = s.initial (params.getD tfsDefaultParams) m := by
  by_cases hnull : s.inodeTableNull = true
  swap
  · simp [tfsInit, stateInit, hnull] at hinit
  by_cases hm : m.granted = true
  swap
  · simp [tfsInit, stateInit, hnull, hm] at hinit
  have husable : (params.getD tfsDefaultParams).Usable := by
    by_contra hnot
    have hroom : (params.getD tfsDefaultParams).maxInodeCount = 0 ∨
        (params.getD tfsDefaultParams).maxBlockCount = 0 := by
      by_contra hpos
      rw [not_or] at hpos
      exact hnot ⟨hr, Nat.pos_of_ne_zero hpos.1, Nat.pos_of_ne_zero hpos.2⟩
    obtain ⟨u, hu⟩ := tfsInit_no_room rfl hr hnull hm hroom
    rw [hu, Except.ok.injEq, Prod.mk.injEq] at hinit
    exact absurd hinit.2 (by decide)
  refine ⟨husable, ?_⟩
  rw [tfsInit_of rfl husable hnull hm, Except.ok.injEq, Prod.mk.injEq] at hinit
  exact hinit.1.symm

section Initial

variable {q : TfsParams} {m : Malloc}

theorem initial_entry (hi : i < (s.initial q m).maxDirEntries) :
    (s.initial q m).entry i = none := by
  have hnum : (s.initial q m).dInumber 0 i = -1 := by
    have hread : read (s.initial q m).fsData (0 + dirEntrySize * i + maxFileName) 4 = le32 (-1) :=
      emptyEntries_read _ 0 hi
    rw [State.dInumber, hread, int32_le32 (by omega) (by omega)]
  rw [State.entry, if_pos hnum]

theorem initial_format (s : State) (q : TfsParams) (m : Malloc) : DirFormat (s.initial q m) := by
  refine ⟨fun i hi n k he => ?_, fun i hi j hj n k k' he he' => ?_, 0, fun i hi => ?_,
    fun i _ hi => initial_entry hi⟩
  · rw [initial_entry hi] at he
    cases he
  · rw [initial_entry hi] at he
    cases he
  · omega

theorem lookup_initial (s : State) (q : TfsParams) (m : Malloc) (n : CStr) :
    (s.initial q m).lookup n = none := by
  rw [lookup_eq_none (initial_format s q m)]
  intro i hi k hk
  rw [initial_entry hi] at hk
  cases hk

theorem initial_freeinodeTs {k : Nat} (h0 : 0 < k) (hk : k < q.maxInodeCount) :
    (s.initial q m).freeinodeTs k = .free := by
  exact (Function.update_of_ne (Nat.ne_of_gt h0) ..).trans (freshTables_inode hk)

theorem initial_root : (s.initial q m).freeinodeTs 0 = .taken ∧
    (s.initial q m).freeBlocks 0 = .taken ∧
      (s.initial q m).inodeTable 0 = ⟨.tDirectory, q.blockSize, 0⟩ := by
  simp [State.initial]

theorem not_live_initial (k : Nat) : ¬ (s.initial q m).Live k := fun hl =>
  not_live_of_free (initial_freeinodeTs hl.pos hl.lt) hl

theorem initial_wellFormed (hr : q.Usable) : WellFormed (s.initial q m) where
  root :=
    { toSized := (freshTables_sized hr.toFitsInt (s := s) (m := m)).of_eq rfl rfl
      inode_pos := hr.inodes_pos
      block_pos := hr.blocks_pos
      root_inode := initial_root.2.2 }
  dir := initial_format s q m
  linked := by
    refine ⟨initial_root.1, fun n k hl => ?_, fun n n' k hl => ?_, fun k hl => ?_⟩
    · rw [lookup_initial] at hl
      cases hl
    · rw [lookup_initial] at hl
      cases hl
    · exact absurd hl (not_live_initial k)
  blocks := ⟨initial_root.2.1, fun k hl => absurd hl (not_live_initial k),
    fun k _ hl => absurd hl (not_live_initial k)⟩
  handles := by
    intro fd hfd ht
    have hfree : (s.initial q m).freeOpenFileEntries fd = .free := freshTables_handle hfd
    rw [hfree] at ht
    cases ht

end Initial

end MBroker.Fs
