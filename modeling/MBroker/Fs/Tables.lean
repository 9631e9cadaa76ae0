import MBroker.Fs.Operations

/-!
# What the table functions do when the tables fit the parameters

`Sized s`: every table was allocated with at least as many entries as the
parameters say, and the sizes fit an `int`. In such a state no function of
`state.c` passes the end of a table, and each allocation is a first-fit search.

Results:
1. `stateInit_of`, `freshTables_sized`: a successful `state_init` gives a sized
   state.
2. `dataBlockAlloc_of`, `inodeAlloc_of`, `addToOpenFileTable_eq`: the three
   allocators; `getOpenFileEntry_eq`, `tfsClose_eq`: handles.
3. `inodeGet_of`, `dataBlockGet_of`, `dataBlockFree_of`, `inodeDelete_of`: the
   functions with assertions.
-/

namespace MBroker.Fs

open FirstFit ByteMemory

/-! ## Running the error monad -/

section Monad

variable {ε α β : Type}

@[simp] theorem ok_bind (a : α) (f : α → Except ε β) : ((Except.ok a : Except ε α) >>= f) = f a :=
  rfl

@[simp] theorem error_bind (e : ε) (f : α → Except ε β) :
    ((Except.error e : Except ε α) >>= f) = .error e := rfl

@[simp] theorem pure_eq_ok (a : α) : (pure a : Except ε α) = .ok a := rfl

theorem bind_eq_ok {x : Except ε α} {f : α → Except ε β} {b : β} (h : (x >>= f) = .ok b) :
    ∃ a, x = .ok a ∧ f a = .ok b := by
  cases x with
  | error e => cases h
  | ok a => exact ⟨a, rfl, h⟩

end Monad

@[simp] theorem alwaysAssert_true (message : String) : alwaysAssert true message = .ok () := rfl

@[simp] theorem alwaysAssert_false (message : String) :
    alwaysAssert false message = .error (.panic message) := rfl

theorem access_of_le {n cap : Nat} (h : n ≤ cap) : access n cap = .ok () := if_pos h

theorem access_of_lt {n cap : Nat} (h : cap < n) : access n cap = .error .outOfBounds :=
  if_neg (Nat.not_le_of_lt h)

theorem scan_of_le {hit : Nat → Bool} {size cap : Nat} (h : size ≤ cap) :
    scan hit size cap = .ok (firstIndex hit size) := by
  unfold scan
  split
  · next i hi =>
    have := (firstIndex_eq_some.mp hi).1
    simp [access_of_le (show i + 1 ≤ cap by omega), hi]
  · next hi => simp [access_of_le h, hi]

/-! ## Sized states -/

structure Sized (s : State) : Prop where
  inodes : s.fsParams.maxInodeCount ≤ s.heap.inodes
  freeinodes : s.fsParams.maxInodeCount ≤ s.heap.freeinodes
  data : s.fsParams.maxBlockCount * s.fsParams.blockSize ≤ s.heap.data
  blocks : s.fsParams.maxBlockCount ≤ s.heap.blocks
  openFiles : s.fsParams.maxOpenFilesCount ≤ s.heap.openFiles
  freeOpenFiles : s.fsParams.maxOpenFilesCount ≤ s.heap.freeOpenFiles
  inodes_int : s.fsParams.maxInodeCount ≤ 2147483647
  block_int : s.fsParams.blockSize ≤ 2147483647

/-- Sizedness only looks at the parameters and the heap. -/
theorem Sized.of_eq {s t : State} (h : Sized s) (hp : t.fsParams = s.fsParams)
    (hh : t.heap = s.heap) : Sized t := by
  constructor <;> rw [hp] <;> try rw [hh]
  exacts [h.inodes, h.freeinodes, h.data, h.blocks, h.openFiles, h.freeOpenFiles, h.inodes_int,
    h.block_int]

/-- All four parameters lie between 1 and 2^31 - 1. -/
structure TfsParams.InRange (p : TfsParams) : Prop where
  inodes_pos : 1 ≤ p.maxInodeCount
  inodes_le : p.maxInodeCount ≤ 2147483647
  blocks_pos : 1 ≤ p.maxBlockCount
  blocks_le : p.maxBlockCount ≤ 2147483647
  openFiles_pos : 1 ≤ p.maxOpenFilesCount
  openFiles_le : p.maxOpenFilesCount ≤ 2147483647
  block_pos : 1 ≤ p.blockSize
  block_le : p.blockSize ≤ 2147483647

/-- No size exceeds the `int` that inumbers, block numbers and handles are. -/
structure TfsParams.FitsInt (p : TfsParams) : Prop where
  inodes_le : p.maxInodeCount ≤ 2147483647
  blocks_le : p.maxBlockCount ≤ 2147483647
  openFiles_le : p.maxOpenFilesCount ≤ 2147483647
  block_le : p.blockSize ≤ 2147483647

/-- There is room for the root directory. -/
structure TfsParams.Usable (p : TfsParams) : Prop extends p.FitsInt where
  inodes_pos : 1 ≤ p.maxInodeCount
  blocks_pos : 1 ≤ p.maxBlockCount

theorem TfsParams.InRange.usable {p : TfsParams} (h : p.InRange) : p.Usable where
  inodes_le := h.inodes_le
  blocks_le := h.blocks_le
  openFiles_le := h.openFiles_le
  block_le := h.block_le
  inodes_pos := h.inodes_pos
  blocks_pos := h.blocks_pos

theorem mallocCount_of_le {n size : Nat} (hn : n ≤ 2147483647) (hs : 0 < size) (hs' : size ≤ 24) :
    mallocCount n size = n := by
  have hlt : n * size < word := by
    have := Nat.mul_le_mul hn hs'
    unfold word
    omega
  rw [mallocCount, Nat.mod_eq_of_lt hlt, Nat.mul_div_cancel n hs]

/-- The state right after the tables are allocated and their marks cleared. -/
def State.freshTables (s : State) (p : TfsParams) (m : Malloc) : State where
  fsParams := p
  inodeTableNull := false
  heap := ⟨p.maxInodeCount, p.maxInodeCount, p.maxBlockCount * p.blockSize, p.maxBlockCount,
    p.maxOpenFilesCount, p.maxOpenFilesCount⟩
  inodeTable := m.inodeTable.getD s.inodeTable
  freeinodeTs := freeBelow p.maxInodeCount (m.freeinodeTs.getD s.freeinodeTs)
  fsData := m.fsData.getD s.fsData
  freeBlocks := freeBelow p.maxBlockCount (m.freeBlocks.getD s.freeBlocks)
  openFileTable := m.openFileTable.getD s.openFileTable
  freeOpenFileEntries := freeBelow p.maxOpenFilesCount
    (m.freeOpenFileEntries.getD s.freeOpenFileEntries)

theorem stateInit_of {s : State} {p : TfsParams} {m : Malloc} (hp : p.FitsInt)
    (hnull : s.inodeTableNull = true) (hm : m.granted = true) :
    stateInit s p m = .ok (s.freshTables p m, 0) := by
  have hdata : p.maxBlockCount * p.blockSize < word := by
    have := Nat.mul_le_mul hp.blocks_le hp.block_le
    unfold word
    omega
  simp only [Malloc.granted, Bool.and_eq_true, Option.isSome_iff_exists] at hm
  obtain ⟨⟨⟨⟨⟨⟨_, h1⟩, ⟨_, h2⟩⟩, ⟨_, h3⟩⟩, ⟨_, h4⟩⟩, ⟨_, h5⟩⟩, ⟨_, h6⟩⟩ := hm
  simp [stateInit, hnull, Malloc.granted, Malloc.heap, h1, h2, h3, h4, h5, h6, access,
    State.freshTables, Nat.mod_eq_of_lt hdata, mallocCount_of_le hp.inodes_le,
    mallocCount_of_le hp.blocks_le, mallocCount_of_le hp.openFiles_le]

theorem freshTables_sized {s : State} {p : TfsParams} {m : Malloc} (hp : p.FitsInt) :
    Sized (s.freshTables p m) where
  inodes := le_refl _
  freeinodes := le_refl _
  data := le_refl _
  blocks := le_refl _
  openFiles := le_refl _
  freeOpenFiles := le_refl _
  inodes_int := hp.inodes_le
  block_int := hp.block_le

/-! ## Allocators -/

/-- The block, inode and handle that an allocation would take. -/
def State.freeBlock (s : State) : Option Nat :=
  firstIndex (fun i => s.freeBlocks i == .free) s.fsParams.maxBlockCount

def State.freeInode (s : State) : Option Nat :=
  firstIndex (fun i => s.freeinodeTs i == .free) s.fsParams.maxInodeCount

def State.freeHandle (s : State) : Option Nat :=
  firstIndex (fun i => s.freeOpenFileEntries i == .free) s.fsParams.maxOpenFilesCount

theorem AllocationState.taken_iff {a : AllocationState} : a = .taken ↔ (a == .free) = false := by
  cases a <;> simp

variable {s : State}

theorem dataBlockAlloc_of (h : Sized s) :
    dataBlockAlloc s = .ok (match s.freeBlock with
      | some i => ({ s with freeBlocks := Function.update s.freeBlocks i .taken }, (i : Int))
      | none => (s, -1)) := by
  simp only [dataBlockAlloc, scan_of_le h.blocks, ok_bind, State.freeBlock]
  split <;> simp [*]

theorem inodeAlloc_of (h : Sized s) :
    inodeAlloc s = .ok (match s.freeInode with
      | some i => ({ s with freeinodeTs := Function.update s.freeinodeTs i .taken }, (i : Int))
      | none => (s, -1)) := by
  simp only [inodeAlloc, scan_of_le h.freeinodes, ok_bind, State.freeInode]
  split <;> simp [*]

/-- The state and return value of an open: a handle on inode `inum`, or none. -/
def State.openHandle (s : State) (inum : Int) (offset : Nat) : State × Int :=
  match s.freeHandle with
  | some i => ({ s with
      freeOpenFileEntries := Function.update s.freeOpenFileEntries i .taken
      openFileTable := Function.update s.openFileTable i ⟨inum, offset⟩ }, (i : Int))
  | none => (s, -1)

theorem addToOpenFileTable_eq (h : Sized s) (inum : Int) (offset : Nat) :
    addToOpenFileTable s inum offset = .ok (s.openHandle inum offset) := by
  simp only [addToOpenFileTable, scan_of_le h.freeOpenFiles, ok_bind, State.openHandle,
    State.freeHandle]
  cases hi : firstIndex (fun i => s.freeOpenFileEntries i == .free)
    s.fsParams.maxOpenFilesCount with
  | some i =>
    have hsize : i + 1 ≤ s.heap.openFiles := (firstIndex_eq_some.mp hi).1.trans_le h.openFiles
    simp [access_of_le hsize]
  | none => simp

/-- The entry behind a handle, if it is open. -/
def State.handle (s : State) (fhandle : Int) : Option Nat :=
  if 0 ≤ fhandle ∧ fhandle.toNat < s.fsParams.maxOpenFilesCount ∧
      s.freeOpenFileEntries fhandle.toNat = .taken then some fhandle.toNat
  else none

theorem getOpenFileEntry_eq (h : Sized s) (fhandle : Int) :
    getOpenFileEntry s fhandle = .ok (s.handle fhandle) := by
  unfold getOpenFileEntry State.handle State.validFileHandle
  by_cases hv : 0 ≤ fhandle ∧ fhandle.toNat < s.fsParams.maxOpenFilesCount
  · have hf := h.freeOpenFiles
    have ho := h.openFiles
    rw [access_of_le (show fhandle.toNat + 1 ≤ s.heap.freeOpenFiles by omega),
      access_of_le (show fhandle.toNat + 1 ≤ s.heap.openFiles by omega)]
    by_cases ht : s.freeOpenFileEntries fhandle.toNat = .taken <;> simp [hv.1, hv.2, ht]
  · rw [not_and] at hv
    by_cases h0 : 0 ≤ fhandle
    · have := hv h0
      simp [h0, this]
    · simp [h0]

theorem handle_eq_some {fhandle : Int} {fd : Nat} (h : s.handle fhandle = some fd) :
    fhandle = fd ∧ fd < s.fsParams.maxOpenFilesCount ∧ s.freeOpenFileEntries fd = .taken := by
  unfold State.handle at h
  split at h
  · next hc =>
    cases h
    exact ⟨(Int.toNat_of_nonneg hc.1).symm, hc.2⟩
  · cases h

theorem handle_of_taken {fd : Nat} (hlt : fd < s.fsParams.maxOpenFilesCount)
    (ht : s.freeOpenFileEntries fd = .taken) : s.handle fd = some fd := by
  simp [State.handle, hlt, ht]

/-- Handle `fd` is open. -/
def State.IsOpen (s : State) (fd : Nat) : Prop :=
  fd < s.fsParams.maxOpenFilesCount ∧ s.freeOpenFileEntries fd = .taken

theorem handle_of_open (h : s.IsOpen fd) : s.handle fd = some fd := handle_of_taken h.1 h.2

theorem open_of_handle {fhandle : Int} (h : s.handle fhandle = some fd) :
    fhandle = fd ∧ s.IsOpen fd := handle_eq_some h

/-- `tfs_close` frees the entry of an open handle and nothing else. -/
theorem tfsClose_eq (h : Sized s) (fhandle : Int) :
    tfsClose s fhandle = .ok (match s.handle fhandle with
      | some fd => ({ s with
          freeOpenFileEntries := Function.update s.freeOpenFileEntries fd .free }, 0)
      | none => (s, -1)) := by
  simp only [tfsClose, getOpenFileEntry_eq h, ok_bind]
  cases hh : s.handle fhandle with
  | none => simp
  | some fd =>
    obtain ⟨rfl, hlt, ht⟩ := handle_eq_some hh
    have := h.freeOpenFiles
    simp [removeFromOpenFileTable, State.validFileHandle, hlt, ht,
      access_of_le (show fd + 1 ≤ s.heap.freeOpenFiles by omega)]

/-! ## Functions with assertions -/

theorem inodeGet_of (h : Sized s) {k : Nat} (hk : k < s.fsParams.maxInodeCount) :
    inodeGet s k = .ok k := by
  have := h.inodes
  simp [inodeGet, State.validInumber, hk, access_of_le (show k + 1 ≤ s.heap.inodes by omega)]

theorem dataBlockGet_of {b : Nat} (hb : b < s.fsParams.maxBlockCount) :
    dataBlockGet s b = .ok (b * s.fsParams.blockSize) := by
  simp [dataBlockGet, State.validBlockNumber, hb]

theorem dataBlockFree_of (h : Sized s) {b : Nat} (hb : b < s.fsParams.maxBlockCount) :
    dataBlockFree s b = .ok { s with freeBlocks := Function.update s.freeBlocks b .free } := by
  have := h.blocks
  simp [dataBlockFree, State.validBlockNumber, hb,
    access_of_le (show b + 1 ≤ s.heap.blocks by omega)]

/-- The state after the data block of inode `k`, if it has one, is given back. -/
def State.releaseBlock (s : State) (k : Nat) : State :=
  { s with freeBlocks :=
      if 0 < (s.inodeTable k).iSize then
        Function.update s.freeBlocks (s.inodeTable k).iDataBlock.toNat .free
      else s.freeBlocks }

theorem inodeDelete_of (h : Sized s) {k : Nat} (hk : k < s.fsParams.maxInodeCount)
    (ht : s.freeinodeTs k = .taken)
    (hb : 0 < (s.inodeTable k).iSize →
      ∃ b : Nat, (s.inodeTable k).iDataBlock = b ∧ b < s.fsParams.maxBlockCount) :
    inodeDelete s k = .ok
      { s.releaseBlock k with freeinodeTs := Function.update s.freeinodeTs k .free } := by
  have h1 := h.inodes
  have h2 := h.freeinodes
  simp only [inodeDelete, State.validInumber, Int.toNat_natCast, Int.natCast_nonneg, decide_true,
    hk, Bool.true_and, alwaysAssert_true, ok_bind, ht, beq_self_eq_true,
    access_of_le (show k + 1 ≤ s.heap.freeinodes by omega),
    access_of_le (show k + 1 ≤ s.heap.inodes by omega), State.releaseBlock, gt_iff_lt]
  by_cases hsize : 0 < (s.inodeTable k).iSize
  · obtain ⟨b, hbe, hblt⟩ := hb hsize
    simp [hsize, hbe, dataBlockFree_of h hblt]
  · simp [hsize]

end MBroker.Fs
